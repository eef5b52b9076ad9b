import DeadCode.Dot
import DeadCode.Text.Basic

namespace DeadCode.Dot

inductive Token
  | word (text : String)
  | quoted (text : String)
  | arrow
  | sign (c : Char)
  deriving DecidableEq, Repr

-- What is being read. The characters read so far are in reverse.
inductive LexMode
  | between
  | word (chars : List Char)
  -- After the first character of an arrow.
  | dash
  | quoted (chars : List Char)
  -- In a quoted text, after a backslash.
  | escape (chars : List Char)
  -- Something is wrong; nothing more is read.
  | failed
  deriving DecidableEq, Repr

structure Lexer where
  -- In reverse.
  tokens : List Token := []
  mode   : LexMode := .between
  deriving DecidableEq, Repr

namespace Lexer

def emit (lexer : Lexer) (token : Token) : Lexer :=
  ⟨token :: lexer.tokens, .between⟩

def isWordChar (c : Char) : Bool :=
  c.isAlphanum || c == '_'

-- Reads a character between two tokens.
def begin (lexer : Lexer) (c : Char) : Lexer :=
  match c with
  | ' ' | '\t' | '\n' | '\r' => { lexer with mode := .between }
  | '"' => { lexer with mode := .quoted [] }
  | '-' => { lexer with mode := .dash }
  | '\x7b' | '\x7d' | '[' | ']' | '=' | ',' | ';' => lexer.emit (.sign c)
  | c => { lexer with mode := if isWordChar c then .word [c] else .failed }

def step (lexer : Lexer) (c : Char) : Lexer :=
  match lexer.mode with
  | .between => lexer.begin c
  | .word chars =>
    if isWordChar c then { lexer with mode := .word (c :: chars) }
    else (lexer.emit (.word (String.ofList chars.reverse))).begin c
  | .dash => if c == '>' then lexer.emit .arrow else { lexer with mode := .failed }
  | .quoted chars =>
    if c == '"' then lexer.emit (.quoted (String.ofList chars.reverse))
    else { lexer with mode := if c == '\\' then .escape chars else .quoted (c :: chars) }
  | .escape chars =>
    { lexer with mode := .quoted (if c == '"' || c == '\\' then c :: chars else c :: '\\' :: chars) }
  | .failed => lexer

end Lexer

-- The tokens of a text, if it consists of tokens.
def tokenize? (text : String) : Option (List Token) :=
  let lexer := text.toList.foldl Lexer.step {}
  if lexer.mode = .between then some lexer.tokens.reverse else none

def Token.text? : Token → Option String
  | word text | quoted text => some text
  | arrow | sign _ => none

abbrev Attributes := List (String × String)

-- Attributes up to the bracket that closes them.
def attributes? : List Token → Option Attributes
  | [key, .sign '=', value, .sign ']'] => do
    return [(← key.text?, ← value.text?)]
  | key :: .sign '=' :: value :: .sign ',' :: rest => do
    return (← key.text?, ← value.text?) :: (← attributes? rest)
  | _ => none

-- A node of the graph, with the name by which arrows refer to it.
structure Box where
  id         : String
  attributes : Attributes
  deriving DecidableEq, Repr

structure Arrow where
  source     : String
  target     : String
  attributes : Attributes
  deriving DecidableEq, Repr

structure Cluster where
  name       : String
  attributes : Attributes := []
  boxes      : List Box := []
  deriving DecidableEq, Repr

structure Graph where
  attributes : Attributes := []
  -- What holds of every box that says nothing else.
  defaults   : Attributes := []
  clusters   : List Cluster := []
  -- Those outside of all clusters.
  boxes      : List Box := []
  arrows     : List Arrow := []
  deriving DecidableEq, Repr

inductive Statement
  | setting (key value : String)
  | defaults (attributes : Attributes)
  | box (box : Box)
  | arrow (arrow : Arrow)
  deriving DecidableEq, Repr

def Statement.ofTokens? : List Token → Option Statement
  | [key, .sign '=', value] => do
    return setting (← key.text?) (← value.text?)
  | .word "node" :: .sign '[' :: rest => defaults <$> attributes? rest
  | id :: .sign '[' :: rest => do
    return box ⟨← id.text?, ← attributes? rest⟩
  | source :: .arrow :: target :: .sign '[' :: rest => do
    return arrow ⟨← source.text?, ← target.text?, ← attributes? rest⟩
  | _ => none

inductive Place
  | start
  | graph
  | cluster (c : Cluster)
  | finish
  deriving DecidableEq, Repr

structure Reader where
  graph     : Graph := {}
  place     : Place := .start
  -- The tokens of the statement that is being read.
  statement : List Token := []
  deriving DecidableEq, Repr

namespace Reader

-- Takes note of a statement where it stands.
def add (r : Reader) (statement : Statement) : Option Reader :=
  match r.place, statement with
  | .graph, .setting key value =>
    some ⟨{ r.graph with attributes := r.graph.attributes ++ [(key, value)] }, .graph, []⟩
  | .graph, .defaults attributes =>
    some ⟨{ r.graph with defaults := r.graph.defaults ++ attributes }, .graph, []⟩
  | .graph, .box box => some ⟨{ r.graph with boxes := r.graph.boxes ++ [box] }, .graph, []⟩
  | .graph, .arrow arrow => some ⟨{ r.graph with arrows := r.graph.arrows ++ [arrow] }, .graph, []⟩
  | .cluster c, .setting key value =>
    some ⟨r.graph, .cluster { c with attributes := c.attributes ++ [(key, value)] }, []⟩
  | .cluster c, .box box => some ⟨r.graph, .cluster { c with boxes := c.boxes ++ [box] }, []⟩
  | _, _ => none

def step (r : Reader) : Token → Option Reader
  | .sign ';' => Statement.ofTokens? r.statement >>= r.add
  | .sign '\x7b' =>
    match r.place, r.statement with
    | .start, [.word "digraph", .word _] => some ⟨r.graph, .graph, []⟩
    | .graph, [.word "subgraph", .word name] => some ⟨r.graph, .cluster { name }, []⟩
    | _, _ => none
  | .sign '\x7d' =>
    match r.place, r.statement with
    | .cluster c, [] => some ⟨{ r.graph with clusters := r.graph.clusters ++ [c] }, .graph, []⟩
    | .graph, [] => some ⟨r.graph, .finish, []⟩
    | _, _ => none
  | token => some { r with statement := r.statement ++ [token] }

end Reader

-- The graph that a text describes.
def read? (text : String) : Option Graph := do
  let tokens ← tokenize? text
  let r ← tokens.foldlM Reader.step {}
  if r.place = .finish ∧ r.statement = [] then return r.graph else none

namespace Lexer

variable {tokens : List Token} {chars : List Char}

-- The two replacements do not get in each other's way.
theorem escape_eq (label : String) : escape label =
    String.ofList (label.toList.flatMap fun c => if c == '\\' || c == '"' then ['\\', c] else [c]) := by
  rw [escape, replace, replace, List.flatMap_assoc]
  congr 2
  funext c
  by_cases hb : c = '\\'
  case pos => subst hb; rfl
  case neg => by_cases hq : c = '"' <;> simp [hb, hq]

theorem foldl_escape (label : String) :
    (escape label).toList.foldl step ⟨tokens, .quoted chars⟩ =
      ⟨tokens, .quoted (label.toList.reverse ++ chars)⟩ := by
  rw [escape_eq, String.toList_ofList]
  induction label.toList generalizing chars
  case nil => rfl
  case cons c rest hi =>
    have hc : (if c == '\\' || c == '"' then ['\\', c] else [c]).foldl step ⟨tokens, .quoted chars⟩ =
        ⟨tokens, .quoted (c :: chars)⟩ := by
      split
      case isTrue h =>
        rw [Bool.or_eq_true, beq_iff_eq, beq_iff_eq] at h
        rcases h with rfl | rfl <;> rfl
      case isFalse h =>
        simp only [Bool.or_eq_true, beq_iff_eq, not_or] at h
        simp [step, h.left, h.right]
    rw [List.flatMap_cons, List.foldl_append, hc, hi, List.reverse_cons, List.append_assoc,
      List.singleton_append]

theorem isDigit_of_mem_repr {n : Nat} (h : c ∈ n.repr.toList) : c.isDigit :=
  Nat.isDigit_of_mem_toDigits (by decide) (by decide) (Nat.toList_repr ▸ h)

theorem escape_repr (n : Nat) : escape n.repr = n.repr := by
  have h : ∀ c ∈ n.repr.toList, (if c == '\\' || c == '"' then ['\\', c] else [c]) = [c] := by
    intro c hc
    have hd := isDigit_of_mem_repr hc
    rw [if_neg]
    simp only [Bool.or_eq_true, beq_iff_eq]
    rintro (rfl | rfl) <;> simp at hd
  rw [escape_eq, List.flatMap_def, List.map_congr_left h, ← List.flatMap_def, List.flatMap_singleton',
    String.ofList_toList]

-- The digits of a number become part of the word that stands before them.
theorem foldl_repr_word (n : Nat) : n.repr.toList.foldl step ⟨tokens, .word chars⟩ =
    ⟨tokens, .word (n.repr.toList.reverse ++ chars)⟩ := by
  have h : ∀ c ∈ n.repr.toList, isWordChar c := by
    intro c hc
    simp [isWordChar, Char.isAlphanum, isDigit_of_mem_repr hc]
  generalize n.repr.toList = text at h
  induction text generalizing chars
  case nil => rfl
  case cons c text hi =>
    have ⟨hc, h⟩ := List.forall_mem_cons.mp h
    have hs : step ⟨tokens, .word chars⟩ c = ⟨tokens, .word (c :: chars)⟩ := by simp [step, hc]
    rw [List.foldl_cons, hs, hi h, List.reverse_cons, List.append_assoc, List.singleton_append]

end Lexer

-- A text that consists of the given tokens, whatever tokens precede it.
def Lexes (text : String) (tokens : List Token) : Prop :=
  ∀ before, text.toList.foldl Lexer.step ⟨before, .between⟩ = ⟨tokens.reverse ++ before, .between⟩

theorem Lexes.append (hs : Lexes s tokens) (ht : Lexes t tokens') : Lexes (s ++ t) (tokens ++ tokens') := by
  intro before
  rw [String.toList_append, List.foldl_append, hs, ht, List.reverse_append, List.append_assoc]

-- A text that takes a reader from one state to another.
def Reads (text : String) (r r' : Reader) : Prop :=
  ∃ tokens, Lexes text tokens ∧ tokens.foldlM Reader.step r = some r'

theorem Reads.append (hs : Reads s r r') (ht : Reads t r' r'') : Reads (s ++ t) r r'' := by
  obtain ⟨tokens, hl, hr⟩ := hs
  obtain ⟨tokens', hl', hr'⟩ := ht
  exact ⟨tokens ++ tokens', hl.append hl', by simp [List.foldlM_append, hr, hr']⟩

theorem reads_empty (r : Reader) : Reads "" r r :=
  ⟨[], fun _ => rfl, rfl⟩

-- Lines each of which adds an item.
theorem reads_join {line : α → String} {item : α → β} (state : List β → Reader)
    (h : ∀ x items, Reads (line x) (state items) (state (items ++ [item x]))) (xs : List α)
    (items : List β) :
    Reads (String.join (xs.map line)) (state items) (state (items ++ xs.map item)) := by
  induction xs generalizing items
  case nil => simpa using reads_empty (state items)
  case cons x xs hi => simpa [String.join_cons] using (h x items).append (hi (items ++ [item x]))

theorem read?_of_reads (h : Reads text {} ⟨graph, .finish, []⟩) : read? text = some graph := by
  obtain ⟨tokens, hl, hr⟩ := h
  have ht : tokenize? text = some tokens := by simp [tokenize?, hl []]
  simp [read?, ht, hr]

end DeadCode.Dot
