namespace DeadCode

theorem bind_ok {x : Except ε α} {f : α → Except ε β} (h : x >>= f = .ok b) :
    ∃ a, x = .ok a ∧ f a = .ok b := by
  cases x
  case error => contradiction
  case ok a => exact ⟨a, rfl, h⟩

theorem mapError_ok {x : Except ε α} {f : ε → ε'} (h : x.mapError f = .ok a) : x = .ok a := by
  cases x
  case error => contradiction
  case ok =>
    cases h
    rfl

theorem bind_ok_iff {x : Except ε α} {f : α → Except ε β} :
    x >>= f = .ok b ↔ ∃ a, x = .ok a ∧ f a = .ok b := by
  refine ⟨bind_ok, fun ⟨a, ha, hf⟩ => ?_⟩
  rw [ha]
  exact hf

theorem mapError_ok_iff {x : Except ε α} {f : ε → ε'} : x.mapError f = .ok a ↔ x = .ok a := by
  refine ⟨mapError_ok, fun h => ?_⟩
  rw [h]
  rfl

theorem bind_error {x : Except ε α} {f : α → Except ε β} (h : x >>= f = .error e) :
    x = .error e ∨ ∃ a, x = .ok a ∧ f a = .error e := by
  cases x
  case error =>
    cases h
    exact .inl rfl
  case ok a => exact .inr ⟨a, rfl, h⟩

theorem mapError_error {x : Except ε α} {f : ε → ε'} (h : x.mapError f = .error e') :
    ∃ e, x = .error e ∧ e' = f e := by
  cases x
  case error e =>
    cases h
    exact ⟨e, rfl, rfl⟩
  case ok => contradiction

theorem exists_ok {x : Except ε α} {P : α → Prop} [DecidablePred P] (h : x.toOption.any (P ·)) :
    ∃ a, x = .ok a ∧ P a := by
  cases x
  case error => contradiction
  case ok a => exact ⟨a, rfl, of_decide_eq_true h⟩

theorem ok_bind (a : α) (f : α → Except ε β) : (Except.ok a >>= f) = f a :=
  rfl

theorem error_bind (e : ε) (f : α → Except ε β) : (Except.error e >>= f) = .error e :=
  rfl

theorem map_ok_iff {x : Except ε α} {f : α → β} : f <$> x = .ok b ↔ ∃ a, x = .ok a ∧ f a = b := by
  cases x
  case error => exact ⟨nofun, nofun⟩
  case ok a => simp [Functor.map, Except.map]

theorem map_mapError (f : α → β) (g : ε → ε') (x : Except ε α) :
    (f <$> x).mapError g = f <$> x.mapError g := by
  cases x <;> rfl

theorem mapM_mapError (f : α → Except ε β) (g : ε → ε') (xs : List α) :
    xs.mapM (fun x => (f x).mapError g) = (xs.mapM f).mapError g := by
  induction xs
  case nil => rfl
  case cons x xs hi =>
    rw [List.mapM_cons, List.mapM_cons, hi]
    cases f x
    case error => rfl
    case ok => cases xs.mapM f <;> rfl

theorem mapM_ok (xs : List α) : xs.mapM (.ok : α → Except ε α) = .ok xs :=
  (List.mapM_pure (f := id)).trans (congrArg Except.ok xs.map_id)

-- What has been made of every item tells the items.
theorem mapM_ok_iff {f : α → Except ε β} {g : β → α} (h : ∀ {x y}, f x = .ok y ↔ g y = x) {xs : List α}
    {ys : List β} : xs.mapM f = .ok ys ↔ ys.map g = xs := by
  induction xs generalizing ys
  case nil => simp [pure, Except.pure, eq_comm]
  case cons x xs hi =>
    simp only [List.mapM_cons, bind_ok_iff, h, hi]
    constructor
    case mp =>
      intro ⟨_, hx, _, hxs, hys⟩
      cases hys
      rw [List.map_cons, hx, hxs]
    case mpr =>
      intro hys
      have ⟨y, ys, he, hx, hxs⟩ := List.map_eq_cons_iff.mp hys
      exact ⟨y, hx, ys, hxs, he ▸ rfl⟩

-- What holds of the items that have been processed, item by item, holds of all of them in the end.
theorem foldlM_ok {f : σ → α → Except ε σ} {P : List α → σ → Prop}
    (hf : ∀ {xs x s t}, P xs s → f s x = .ok t → P (xs ++ [x]) t)
    (hs : P done s) (h : todo.foldlM f s = .ok t) : P (done ++ todo) t := by
  induction todo generalizing done s
  case nil =>
    cases h
    simpa using hs
  case cons x todo hi =>
    have ⟨_, hx, ht⟩ := bind_ok (List.foldlM_cons.symm.trans h)
    simpa using hi (hf hs hx) ht

-- What cannot be processed comes after items that have been.
theorem foldlM_error {f : σ → α → Except ε σ} {P : List α → σ → Prop}
    (hf : ∀ {xs x s t}, P xs s → f s x = .ok t → P (xs ++ [x]) t)
    (hs : P done s) (h : todo.foldlM f s = .error e) :
    ∃ before x after t, todo = before ++ x :: after ∧ P (done ++ before) t ∧ f t x = .error e := by
  induction todo generalizing done s
  case nil => contradiction
  case cons x todo hi =>
    cases bind_error (List.foldlM_cons.symm.trans h)
    case inl hx => exact ⟨[], x, todo, s, rfl, by simpa using hs, hx⟩
    case inr hx =>
      have ⟨_, hx, ht⟩ := hx
      have ⟨before, y, after, t, he, hp, hy⟩ := hi (hf hs hx) ht
      exact ⟨x :: before, y, after, t, by simp [he], by simpa using hp, hy⟩

-- Steps that can be exchanged can be taken in any order.
theorem foldlM_perm {f : σ → α → Except ε σ} {xs ys : List α} (h : xs.Perm ys)
    (hf : ∀ x ∈ xs, ∀ y ∈ xs, ∀ s, (f s x >>= (f · y)) = (f s y >>= (f · x))) (s : σ) :
    xs.foldlM f s = ys.foldlM f s := by
  induction h generalizing s
  case nil => rfl
  case cons x xs ys h hi =>
    have hi := hi fun y hy z hz => hf y (.tail _ hy) z (.tail _ hz)
    simp only [List.foldlM_cons, hi]
  case swap x y xs =>
    simp only [List.foldlM_cons, ← bind_assoc]
    rw [hf y (.head _) x (.tail _ (.head _))]
  case trans h₁ _ hi₁ hi₂ =>
    rw [hi₁ hf, hi₂ fun x hx y hy => hf x (h₁.mem_iff.mpr hx) y (h₁.mem_iff.mpr hy)]

end DeadCode
