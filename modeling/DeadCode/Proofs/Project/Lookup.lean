import DeadCode.Dot
import DeadCode.Proofs.Cycle.Listing
import DeadCode.Proofs.Plan
import Mathlib.Data.List.ReduceOption

namespace DeadCode

theorem mapM_eq_some {xs : List α} {f : α → Option β} {g : α → β} (h : ∀ x ∈ xs, f x = some (g x)) :
    xs.mapM f = some (xs.map g) := by
  induction xs
  case nil => rfl
  case cons x xs hi =>
    have hx := h x (.head _)
    have hi := hi fun y hy => h y (.tail _ hy)
    simp [hx, hi]

theorem mapM_eq_filterMap {xs : List α} {f : α → Option β} (h : ∀ x ∈ xs, (f x).isSome) :
    xs.mapM f = some (xs.filterMap f) := by
  induction xs
  case nil => rfl
  case cons x xs hi =>
    obtain ⟨y, hx⟩ := Option.isSome_iff_exists.mp (h x (.head _))
    have hi := hi fun z hz => h z (.tail _ hz)
    simp [hx, hi]

theorem filterAuxM_eq_some {xs ys : List α} {f : α → Option Bool} {g : α → Bool}
    (h : ∀ x ∈ xs, f x = some (g x)) :
    xs.filterAuxM f ys = some ((xs.filter g).reverse ++ ys) := by
  induction xs generalizing ys
  case nil => rfl
  case cons x xs hi =>
    have hx := h x (.head _)
    have hi := @hi (cond (g x) (x :: ys) ys) fun y hy => h y (.tail _ hy)
    simp only [List.filterAuxM, hx, bind, Option.bind_some, hi]
    cases hg : g x <;> simp [hg]

theorem filterM_eq_some {xs : List α} {f : α → Option Bool} {g : α → Bool}
    (h : ∀ x ∈ xs, f x = some (g x)) : xs.filterM f = some (xs.filter g) := by
  simp [List.filterM, filterAuxM_eq_some h]

namespace Worklist

variable {α σ : Type} {next : α → List α}

-- A visitor that gives up at an item which is not valid.
def strictly (valid : α → Bool) (visit : σ → α → σ × Bool) : Option σ → α → Option σ × Bool
  | some s, x => if valid x then (some (visit s x).1, (visit s x).2) else (none, false)
  | none, _ => (none, false)

theorem run_strictly {valid : α → Bool} {visit : σ → α → σ × Bool}
    (hn : ∀ x, valid x → ∀ y ∈ next x, valid y) (hw : ∀ x ∈ work, valid x) :
    run next (strictly valid visit) budget work (some s) = (run next visit budget work s).map some := by
  fun_induction run next visit budget work s
  case case1 => simp [run]
  case case2 s x rest t hv hi =>
    rw [run, strictly, if_pos (hw x (.head _)), hv]
    exact hi fun y hy => hw y (.tail _ hy)
  case case3 s x rest t hv =>
    rw [run, strictly, if_pos (hw x (.head _)), hv]
    rfl
  case case4 s x rest t hv budget hi =>
    have hx := hw x (.head _)
    rw [run, strictly, if_pos hx, hv]
    apply hi
    intro y hy
    simp only [List.mem_append, List.mem_reverse] at hy
    cases hy
    case inl hy => exact hn x hx y hy
    case inr hy => exact hw y (.tail _ hy)

end Worklist

namespace Project

variable {p : Project} {mode : Mode} {flag : Flags} {options : PruneOptions} {i k : Nat}

theorem walk_strictly (hp : p.WellFormed) (visit : σ → Node → σ × Bool) :
    p.walk mode (Worklist.strictly p.contains visit) budget (some s) =
      (p.walk mode visit budget s).map some := by
  apply Worklist.run_strictly
  case hn => exact fun x _ y hy => (mem_successors_iff hp |>.mp hy).contains hp
  case hw => simp [Project.contains]

-- Marking that gives up at a node which is not registered.
def mark? (p : Project) (flag : Flags) (mode : Mode) : Option (Project × Nat) := do
  let marked ← p.walk mode (Worklist.strictly p.contains (markVisit flag)) p.nodeCount
    (some (p.flags, 0))
  let (flags, count) ← marked
  return ({ p with flags }, count)

theorem mark?_eq (hp : p.WellFormed) : p.mark? flag mode = some (p.mark flag mode) := by
  have ⟨flags, count, hw, hm⟩ := mark_ok hp flag mode
  simp [mark?, walk_strictly hp, hw, hm]

def sweep? (p : Project) (flag : Flags) : Option (List Node) :=
  p.nodes.filterM fun x => (p.flags? x).map (!·.contains flag)

theorem sweep?_eq : p.sweep? flag = some (p.sweep flag) := by
  apply filterM_eq_some
  intro x hx
  simp [flags?, mem_nodes_iff.mp hx]

def isPrunable? (p : Project) (options : PruneOptions) (k : Nat) : Option Bool := do
  let d ← p.declarations[k]?
  let f ← p.files[d.file]?
  let flags ← p.flags? (.declaration k)
  return !flags.isLive options.flag && !options.ignore.covers f.filename &&
    !d.name.any options.ignore.covers

theorem isPrunable?_eq (hp : p.WellFormed) (hk : k < p.declarations.size) :
    p.isPrunable? options k = some (p.isPrunable options k) := by
  have hd := Array.getElem?_eq_getElem hk
  have hf := Array.getElem?_eq_getElem (hp.file hd)
  simp [isPrunable?, isPrunable, flags?, Project.contains, filename, hf, hk]

def spans? (p : Project) (ks : List Nat) : Option (List Span) :=
  ks.mapM fun k => p.declarations[k]?.map Declaration.span

theorem spans?_eq (h : ∀ k ∈ ks, k < p.declarations.size) : p.spans? ks = some (p.spans ks) := by
  induction ks
  case nil => rfl
  case cons k ks hi =>
    have hk := h k (.head _)
    have hi := hi fun j hj => h j (.tail _ hj)
    rw [spans?] at hi
    simp [spans?, spans, hk, hi]

def planOf? (p : Project) (options : PruneOptions) (f : File) (i : Nat) :
    Option (Option FilePlan) := do
  if !options.sources.allows f.filename then return none
  let dead ← f.declarations.toList.filterM (p.isPrunable? options)
  if dead.isEmpty then return none
  if !f.isEntrypoint && dead.length == f.declarations.size then
    return some ⟨i, f.filename, dead, .delete⟩
  let spans ← p.spans? dead
  return some ⟨i, f.filename, dead, .snip spans⟩

def plan? (p : Project) (options : PruneOptions) : Option Plan := do
  let plans ← p.files.toList.zipIdx.mapM fun (f, i) => p.planOf? options f i
  return plans.reduceOption

theorem WellFormed.lt_of_mem_declarations (hp : p.WellFormed) (hf : p.files[i]? = some f)
    (hk : k ∈ f.declarations) : k < p.declarations.size := by
  have ⟨_, hd, _⟩ := hp.declaration_of_mem hf hk
  exact (Array.getElem?_eq_some_iff.mp hd).1

theorem planOf?_eq (hp : p.WellFormed) (hf : p.files[i]? = some f) :
    p.planOf? options f i = some (p.planFile? options i) := by
  have hl : ∀ k ∈ f.declarations.toList, k < p.declarations.size :=
    fun k hk => hp.lt_of_mem_declarations hf (Array.mem_toList_iff.mp hk)
  have hd : f.declarations.toList.filterM (p.isPrunable? options) = some (p.deadOf options f) :=
    filterM_eq_some fun k hk => isPrunable?_eq hp (hl k hk)
  have hs : p.spans? (p.deadOf options f) = some (p.spans (p.deadOf options f)) :=
    spans?_eq fun k hk => hl k (List.mem_of_mem_filter hk)
  rw [planFile?_of_some hf, planOf?, hd]
  cases options.sources.allows f.filename
  case false => rfl
  case true =>
    by_cases hn : p.deadOf options f = []
    case pos => simp [hn]
    case neg =>
      simp [hn, hs, actionOf]
      split <;> rfl

theorem plan?_eq (hp : p.WellFormed) : p.plan? options = some (p.plan options) := by
  have hm : (p.files.toList.zipIdx.mapM fun (f, i) => p.planOf? options f i) =
      some (p.files.toList.zipIdx.map fun (_, i) => p.planFile? options i) := by
    apply mapM_eq_some
    intro ⟨f, i⟩ hx
    exact planOf?_eq hp (by simpa using List.mem_zipIdx_iff_getElem?.mp hx)
  have hr : List.range p.files.size = p.files.toList.zipIdx.map Prod.snd := by
    simp [List.range_eq_range']
  rw [plan?, hm, plan, hr, List.filterMap_map]
  simp [List.reduceOption, List.filterMap_map]

-- The name of a declaration as shown to people.
def name? (p : Project) (k : Nat) : Option String :=
  p.declarations[k]?.map Declaration.shownName

theorem name?_eq (hk : k < p.declarations.size) :
    p.name? k = some (shownName (p.declarations[k]?.bind Declaration.name)) := by
  simp [name?, Declaration.shownName, hk]

end Project

namespace Cycle

variable {p : Project} {isDead isDead' : Nat → Bool} {mode : Mode} {g : Digraph Nat}
variable {index : Array (Option Nat)} {components : Digraph Nat → List (List Nat)}

-- An edge from or to a vertex that is not there cannot be added.
def addUsage? (index : Array (Option Nat)) (mode : Mode) (g : Digraph Nat) (u : Usage) :
    Option (Digraph Nat) :=
  if u.kind = .grep && !mode.followsGrep then some g
  else
    match u.container with
    | none => some g
    | some d =>
      match index.getD d none, index.getD u.target none with
      | some i, some j => if i < g.size ∧ j < g.size then some (g.updateEdge i j) else none
      | _, _ => some g

def references? (p : Project) (isDead : Nat → Bool) (mode : Mode) : Option (Digraph Nat) :=
  let (g, index) := vertices p isDead
  p.usages.toList.foldlM (addUsage? index mode) g

-- Only what has a first vertex can be asked whether it is a cycle.
def isCyclic? (g : Digraph Nat) (component : List Nat) : Option Bool :=
  if 1 < component.length then some true else component.head?.map fun i => g.hasEdge i i

def ofComponent? (p : Project) (g : Digraph Nat) (component : List Nat) : Option Cycle := do
  let declarations ← component.mapM g.label?
  let members := declarations.mergeSort
  let names ← members.mapM p.name?
  return { members, names }

def find? (p : Project) (isDead : Nat → Bool) (mode : Mode)
    (components : Digraph Nat → List (List Nat)) : Option (List Cycle) := do
  let g ← references? p isDead mode
  let cyclic ← (components g).filterM (isCyclic? g)
  let cycles ← cyclic.mapM (ofComponent? p g)
  return cycles.mergeSort fun a b => (order a b).isLE

theorem addUsage?_eq (hx : ∀ {d i}, index.getD d none = some i → i < g.size) (u : Usage) :
    addUsage? index mode g u = some (addUsage index mode g u) := by
  unfold addUsage? addUsage
  split
  case isTrue => rfl
  case isFalse =>
    cases u.container
    case none => rfl
    case some d =>
      cases hi : index.getD d none <;> cases hj : index.getD u.target none <;> simp only [hi]
      case some.some i j => exact if_pos ⟨hx hi, hx hj⟩

theorem foldlM_addUsage? {us : List Usage} (hx : ∀ {d i}, index.getD d none = some i → i < g.size) :
    us.foldlM (addUsage? index mode) g = some (us.foldl (addUsage index mode) g) := by
  induction us generalizing g
  case nil => rfl
  case cons u us hi =>
    have hs := (edge_addUsage hx mode u).left
    rw [List.foldlM_cons, addUsage?_eq hx]
    exact hi fun h => hs ▸ hx h

theorem references?_eq : references? p isDead mode = some (references p isDead mode) := by
  rw [edges_references]
  exact foldlM_addUsage? index_lt

theorem ofComponent?_eq {c : List Nat} (hc : ∀ i ∈ c, i < (references p isDead mode).size) :
    ofComponent? p (references p isDead mode) c = some (ofComponent p (references p isDead mode) c) := by
  have hl : c.mapM (references p isDead mode).label? =
      some (c.filterMap (references p isDead mode).label?) :=
    mapM_eq_filterMap fun i hi => Option.isSome_iff_exists.mpr (Digraph.exists_label? (hc i hi))
  have hn : ∀ k ∈ (c.filterMap (references p isDead mode).label?).mergeSort, p.name? k =
      some (shownName (p.declarations[k]?.bind Declaration.name)) := by
    intro k hk
    have ⟨i, _, hi⟩ := mem_members (p := p) |>.mp hk
    exact Project.name?_eq (exists_label?_iff.mp ⟨i, hi⟩).right
  simp [ofComponent?, ofComponent, hl, mapM_eq_some hn]

-- The vertices that usages connect are there, and so are those that are listed as components.
theorem find?_eq (h : Digraph.ListsComponents components) :
    find? p isDead mode components = some (find p isDead mode components) := by
  have hg := h (references p isDead mode)
  have hc : ∀ c ∈ components (references p isDead mode),
      isCyclic? (references p isDead mode) c = some (isCyclic (references p isDead mode) c) := by
    intro c hc
    obtain ⟨i, c, rfl⟩ := List.exists_cons_of_ne_nil (hg.nonempty hc)
    unfold isCyclic? isCyclic
    split <;> simp_all
  have hm : ∀ c ∈ (components (references p isDead mode)).filter (isCyclic (references p isDead mode)),
      ofComponent? p (references p isDead mode) c = some (ofComponent p (references p isDead mode) c) :=
    fun c hc => ofComponent?_eq fun i hi => hg.lt_size (List.mem_of_mem_filter hc) hi
  simp [find?, find, references?_eq, filterM_eq_some hc, mapM_eq_some hm]

-- Only registered declarations are asked whether they are dead.
theorem find_congr (h : ∀ k < p.declarations.size, isDead' k = isDead k) :
    find p isDead' mode components = find p isDead mode components := by
  have hv : vertices p isDead' = vertices p isDead := by
    refine List.foldl_ext _ _ _ fun _ k hk => ?_
    rw [h k (List.mem_range.mp hk)]
  have hr : references p isDead' mode = references p isDead mode := by rw [references, references, hv]
  rw [find, find, hr]

end Cycle

namespace Dot

-- Draws the graph, once the names of all declarations have been found that are shown in it.
def render? (p : Project) (flag : Flags) : Option String := do
  let _ ← (p.files.toList.flatMap fun f => f.declarations.toList).mapM p.name?
  return render p flag

theorem render?_eq {p : Project} (hp : p.WellFormed) : render? p flag = some (render p flag) := by
  have hl : ∀ k ∈ p.files.toList.flatMap fun f => f.declarations.toList, k < p.declarations.size := by
    intro k hk
    have ⟨f, hf, hk⟩ := List.mem_flatMap.mp hk
    have ⟨i, hi⟩ := Array.mem_iff_getElem?.mp (Array.mem_toList_iff.mp hf)
    exact hp.lt_of_mem_declarations hi (Array.mem_toList_iff.mp hk)
  have hn := mapM_eq_some fun k hk => Project.name?_eq (hl k hk)
  simp [render?, hn]

end Dot

end DeadCode
