import DeadCode.Proofs.Cycle.Listing
import DeadCode.Proofs.Project.Calls
import Mathlib.Data.List.Permutation

namespace DeadCode

-- The cycles that are found are the classes of dead declarations that lead to each other, each of them
-- once, in whatever order the components of a graph are listed.
theorem Cycle.find_exact (cs : List Call) (isDead : Nat → Bool) (mode : Mode)
    {components : Digraph Nat → List (List Nat)} (h : Digraph.ListsComponents components) :
    let p := Project.ofCalls cs
    Lists (find p isDead mode components) p (Refers p isDead mode) :=
  lists_find h (Project.sound_ofCalls cs).wellFormed

-- Two declarations use each other, one of them twice, a third one uses itself, and two more are on a cycle
-- of which a part is only a textual match. That cycle leads to the first one.
def Call.tangle : List Call :=
  let declaration (name : Option String) : Call :=
    .register (.declaration 0 name false ⟨3, 4, 9, by decide, by decide⟩)
  let usage (kind : UsageKind) (container target : Nat) : Call :=
    .register (.usage { kind, file := 0, location := 0, container, target })
  [.register (.file "lib.ts" false), declaration "a", declaration "b", declaration "selfish",
    declaration none, declaration "lonely", usage .checker 0 1, usage .checker 1 0, usage .checker 1 0,
    usage .checker 2 2, usage .grep 3 4, usage .checker 4 3, usage .checker 4 0]

theorem Cycle.find_exact_tangle : let p := Project.ofCalls Call.tangle
    find p (fun _ => true) .strict = [⟨[0, 1], ["a", "b"]⟩, ⟨[2], ["selfish"]⟩] ∧
    find p (fun _ => true) .fuzzy =
      [⟨[0, 1], ["a", "b"]⟩, ⟨[3, 4], ["<statement>", "lonely"]⟩, ⟨[2], ["selfish"]⟩] ∧
    Lists (find p (fun _ => true) .fuzzy) p (Refers p (fun _ => true) .fuzzy) :=
  ⟨by cbv, by cbv, find_exact Call.tangle (fun _ => true) .fuzzy Digraph.components_listed⟩

end DeadCode
