namespace DeadCode.Worklist

variable {α σ : Type}

-- Visits the items of a worklist. When `visit` says so, what follows an item is put on the worklist
-- too. At most `budget` items are expanded in this way: there is no result if that is not enough.
def run (next : α → List α) (visit : σ → α → σ × Bool) (budget : Nat) (work : List α) (state : σ) :
    Option σ :=
  match work with
  | [] => some state
  | item :: rest =>
    match visit state item with
    | (state, false) => run next visit budget rest state
    | (state, true) =>
      match budget with
      | 0 => none
      | budget + 1 => run next visit budget ((next item).reverse ++ rest) state
termination_by (budget, work.length)

end DeadCode.Worklist
