namespace DeadCode

inductive Entry
  | file (content : ByteArray)
  | directory
  -- A link that stands for another path, seen from the directory that the link is in.
  | link (target : String)

def Entry.isDirectory : Entry → Bool
  | directory => true
  | file _ | link _ => false

abbrev Place := List String

structure FileTree where
  current : Place
  entries : List (Place × Entry)

namespace FileTree

-- What there is at a place. The root directory is always there.
def get? (tree : FileTree) (place : Place) : Option Entry :=
  if place.isEmpty then some .directory else tree.entries.lookup place

def erase (tree : FileTree) (place : Place) : FileTree :=
  { tree with entries := tree.entries.filter (·.1 != place) }

def insert (tree : FileTree) (place : Place) (entry : Entry) : FileTree :=
  { tree with entries := (place, entry) :: (tree.erase place).entries }

theorem lookup_filter_ne {α β : Type} [BEq α] [LawfulBEq α] {a b : α} (h : b ≠ a)
    (l : List (α × β)) : (l.filter (·.1 != a)).lookup b = l.lookup b := by
  induction l with
  | nil => rfl
  | cons x l ih =>
    obtain ⟨key, value⟩ := x
    by_cases hk : key = a
    case pos => simp [List.lookup_cons, hk, beq_false_of_ne h, ih]
    case neg => simp [List.lookup_cons, hk, ih]

theorem get?_insert_of_ne (tree : FileTree) {place other : Place} (entry : Entry)
    (h : other ≠ place) : (tree.insert place entry).get? other = tree.get? other := by
  have : (other == place) = false := by simp [h]
  simp [get?, insert, erase, List.lookup_cons, this, lookup_filter_ne h]

theorem get?_erase_of_ne (tree : FileTree) {place other : Place} (h : other ≠ place) :
    (tree.erase place).get? other = tree.get? other := by
  simp [get?, erase, lookup_filter_ne h]

theorem get?_insert_self (tree : FileTree) {place : Place} (entry : Entry) (h : place ≠ []) :
    (tree.insert place entry).get? place = some entry := by
  simp [get?, insert, h]

theorem get?_erase_self (tree : FileTree) {place : Place} (h : place ≠ []) :
    (tree.erase place).get? place = none := by
  simp only [get?, erase, List.isEmpty_iff, h, if_false, List.lookup_eq_none_iff]
  intro entry mem
  have := (List.mem_filter.mp mem).2
  simp_all [Ne.symm]

end FileTree

end DeadCode
