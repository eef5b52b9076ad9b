import DeadCode.Proofs.Analysis.Dangling

namespace DeadCode

namespace Project

variable {p : Project} {mode : Mode} {flag : Flags} {options : PruneOptions} {i k : Nat}

-- A file is loaded only as an entry file or by one of its declarations.
theorem Reachable.of_file (hp : p.WellFormed) (h : p.Reachable mode (.file i)) :
    (∃ f, p.files[i]? = some f ∧ f.isEntrypoint) ∨
      ∃ k d, p.declarations[k]? = some d ∧ d.file = i ∧ p.Reachable mode (.declaration k) := by
  cases h
  case root hx _ => simp at hx
  case step x hr hl _ =>
    cases mem_successors_iff hp |>.mp hl
    case entry f he hf => exact .inl ⟨f, hf, he⟩
    case loads k d hd _ => exact .inr ⟨k, d, hd, rfl, hr⟩

theorem Reachable.of_usage (hp : p.WellFormed) (hu : p.usages[k]? = some u)
    (h : p.Reachable mode (.usage k)) : p.Reachable mode u.owner := by
  cases h
  case root hx _ => simp at hx
  case step x hr hl _ =>
    cases mem_successors_iff hp |>.mp hl
    case emits v _ hv =>
      cases hu.symm.trans hv
      exact hr

theorem isPrunable_of_deletes (hp : p.WellFormed) (h : (p.plan options).Deletes i)
    (hd : p.declarations[k]? = some d) (hi : d.file = i) : p.isPrunable options k := by
  have ⟨f, hf, _, _, _, ha⟩ := deletes_plan_iff.mp h
  exact ha k (hp.mem_declarations hf hd hi)

theorem not_contains_flag_of_isPrunable (h : p.isPrunable options k) :
    ¬(p.flags.get (.declaration k)).contains options.flag := by
  have ⟨_, _, hl, _⟩ := isPrunable_iff.mp h
  simp only [Flags.isLive, Bool.or_eq_false_iff] at hl
  simp [hl.left]

-- A file that nothing leads to: neither the file nor anything in it carries the flag, and no usage with
-- the flag refers to a declaration in it.
structure Deserted (p : Project) (flag : Flags) (i : Nat) : Prop where
  file         : ¬(p.flags.get (.file i)).contains flag
  declarations : ∀ {k : Nat} {d}, p.declarations[k]? = some d → d.file = i →
    ¬(p.flags.get (.declaration k)).contains flag
  usages       : ∀ {k : Nat} {u}, p.usages[k]? = some u → u.file = i →
    ¬(p.flags.get (.usage k)).contains flag
  targets      : ∀ {k : Nat} {u d}, p.usages[k]? = some u → (p.flags.get (.usage k)).contains flag →
    p.declarations[u.target]? = some d → d.file ≠ i

end Project

namespace MarkedProject

variable {promoted : String → Bool} {m : Manifest} {p : Project}
variable {mode : Mode} {options : PruneOptions} {i k : Nat}
variable (h : Manifest.Ingested promoted m.files m.usages p)
include h

-- An entry file leads to all its declarations.
theorem contains_flag_of_entry (hf : p.files[i]? = some f) (he : f.isEntrypoint)
    (hd : p.declarations[k]? = some d) (hi : d.file = i) :
    ((ofProject p).project.flags.get (.declaration k)).contains mode.flag := by
  rw [contains_flag h]
  have hr : p.Reachable mode (.file i) := Project.Reachable.project.step h.wellFormed (.entry hf he)
  exact hr.step h.wellFormed (.holds hf he hd hi)

-- Where none of the declarations of a file is reached, nothing leads to the file.
theorem deserted (he : ∀ {f}, p.files[i]? = some f → f.isEntrypoint = false)
    (hd : ∀ {k : Nat} {d}, p.declarations[k]? = some d → d.file = i →
      ¬((ofProject p).project.flags.get (.declaration k)).contains mode.flag) :
    (ofProject p).project.Deserted mode.flag i := by
  have hp := h.wellFormed
  have hf : ¬p.Reachable mode (.file i) := by
    intro hr
    obtain ⟨f, hf, hb⟩ | ⟨k, d, hk, hi, hr⟩ := hr.of_file hp
    · simp [he hf] at hb
    · exact hd hk hi (contains_flag h mode _ |>.mpr hr)
  refine ⟨mt (contains_flag h mode _).mp hf, ?declarations, ?usages, ?targets⟩
  case declarations =>
    intro k d hk
    rw [declarations_ofProject] at hk
    exact hd hk
  case usages =>
    -- What a usage is part of lies in its own file.
    intro k u hu hi hx
    rw [usages_ofProject] at hu
    have ho := (contains_flag h mode _ |>.mp hx).of_usage hp hu
    cases hc : u.container <;> simp only [Usage.owner, hc] at ho
    case none => exact hf (hi ▸ ho)
    case some c =>
      obtain ⟨d, hk, hi'⟩ := (hp.fits hu).container hc
      exact hd hk (hi'.trans hi) (contains_flag h mode _ |>.mpr ho)
  case targets =>
    intro k u d hu hx hk hi
    rw [usages_ofProject] at hu
    rw [declarations_ofProject] at hk
    exact hd hk hi (contains_flag_of_leads h (.means hu) hx)

section

variable (hf : options.flag = mode.flag)
include hf

-- An entry file has no declaration that could go.
theorem not_isEntrypoint_of_mem_plan (hx : x ∈ (ofProject p).project.plan options) :
    ∃ f, p.files[x.file]? = some f ∧ x.filename = f.filename ∧ f.isEntrypoint = false := by
  have hp := wellFormed_ofProject h.wellFormed
  have ⟨f, hi, _, hn, _⟩ := Project.mem_plan_iff.mp hx
  have hx' := Project.filename_of_mem_plan hx hi
  have ⟨k, hk⟩ := List.exists_mem_of_ne_nil _ hn
  have ⟨hk, d, hd, hi'⟩ := Project.mem_deadOf hp hi |>.mp hk
  rw [files_ofProject] at hi
  rw [declarations_ofProject] at hd
  refine ⟨f, hi, hx', ?_⟩
  rw [← Bool.not_eq_true]
  intro hb
  exact Project.not_contains_flag_of_isPrunable hk (hf ▸ contains_flag_of_entry h hi hb hd hi')

theorem deserted_of_deletes (hx : ((ofProject p).project.plan options).Deletes i) :
    (ofProject p).project.Deserted mode.flag i := by
  have hp := wellFormed_ofProject h.wellFormed
  have ⟨f, hi, _, hb, _⟩ := Project.deletes_plan_iff.mp hx
  apply deserted h
  case he =>
    intro g hg
    rw [← files_ofProject] at hg
    cases hi.symm.trans hg
    exact hb
  case hd =>
    intro k d hd hi
    rw [← declarations_ofProject] at hd
    exact hf ▸ Project.not_contains_flag_of_isPrunable (Project.isPrunable_of_deletes hp hx hd hi)

end

end MarkedProject

-- What protects a declaration: nobody has looked for references to it, or not in its file at all; its
-- filename or its name is ignored; or it carries the flag of what is to stay.
inductive Analysis.Protected (s : Settings) (a : Analysis) (k : Nat) (x : Manifest.Listed) : Prop
  | unsearched : x.entry.searched = false → Protected s a k x
  | fileUnsearched : x.fileSearched = false → Protected s a k x
  | filenameIgnored : (IgnoreList.ofStrings s.ignore).covers x.filename → Protected s a k x
  | nameIgnored : x.entry.name = some name → (IgnoreList.ofStrings s.ignore).covers name →
    Protected s a k x
  | reached : (a.project.flags.get (.declaration k)).contains s.sweepFlag → Protected s a k x

theorem Analysis.Protected.not_isPrunable {m : Manifest} {s : Settings}
    (h : Manifest.Ingested promoted m.files m.usages p) (hx : m.listed[k]? = some x)
    (hk : Protected s (.ofMarked s sources (.ofProject p)) k x) :
    ¬(MarkedProject.ofProject p).project.isPrunable ⟨s.sweepFlag, sources, .ofStrings s.ignore⟩ k := by
  intro hp
  have hd := h.isPrunable_iff_dead _ rfl hx |>.mp hp
  cases hk
  case unsearched hs => simpa [Manifest.Listed.searched, hs] using hd.searched
  case fileUnsearched hs => simpa [Manifest.Listed.searched, hs] using hd.searched
  case filenameIgnored hn => exact hd.filename hn
  case nameIgnored hn hc => exact hd.name _ hn hc
  case reached hr => exact Project.not_contains_flag_of_isPrunable hp hr

-- A plan does no harm: entry files stay as they are, so does every declaration that is protected, and a
-- file goes only if nothing leads to it.
theorem Settings.plan_safe {s : Settings} (h : s.analyze m = .ok a) : ∃ entrypoints : GlobList,
    GlobList.ofStrings s.entrypoints = .ok entrypoints ∧
    (∀ {i : Nat} {e}, m.files[i]? = some e → e.isEntry entrypoints.covers →
      ∀ x ∈ a.plan, x.file ≠ i ∧ x.filename ≠ e.filename) ∧
    (∀ {k : Nat} {d}, a.project.declarations[k]? = some d → ∃ x, m.listed[k]? = some x ∧
      x.Matches d ∧ (a.Protected s k x → ¬a.plan.Drops k ∧ ¬a.plan.Deletes d.file)) ∧
    ∀ {i}, a.plan.Deletes i → a.project.Deserted s.sweepFlag i := by
  have ⟨entrypoints, sources, p, he, _, hp, ha⟩ := analyze_ok h
  have hi := Manifest.toProject_ok hp
  have hw := MarkedProject.wellFormed_ofProject hi.wellFormed
  subst ha
  refine ⟨entrypoints, he, ?entries, ?declarations, ?deletions⟩
  case entries =>
    intro i e he hb x hx
    have ⟨f, hf, hn, hb'⟩ := MarkedProject.not_isEntrypoint_of_mem_plan hi rfl hx
    have ⟨e', he', hn', hp'⟩ := hi.entry_of_file hf
    have hx : x.file ≠ i := by
      rintro rfl
      cases he'.symm.trans he
      simp [← hp', hb'] at hb
    -- Filenames are unique, so what differs in its number differs in its name as well.
    refine ⟨hx, ?_⟩
    intro he''
    exact hx (Manifest.file_unique hi.filenames he' he (by rw [← hn', ← hn, he'']))
  case declarations =>
    intro k d hd
    have ⟨x, hx, hm⟩ := hi.listed_of_declaration (MarkedProject.declarations_ofProject p ▸ hd)
    refine ⟨x, hx, hm, ?_⟩
    intro hk
    have hn := hk.not_isPrunable hi hx
    exact ⟨fun hd => hn (Project.drops_plan_iff hw |>.mp hd).left,
      fun hd' => hn (Project.isPrunable_of_deletes hw hd' hd rfl)⟩
  case deletions =>
    intro i hx
    exact MarkedProject.deserted_of_deletes hi rfl hx

-- Two files that nothing uses any more, although one of them uses the entry file and itself.
def Manifest.leftover : Manifest where
  files  := [
    { filename := "main.ts", isEntrypoint := true, declarations := [
      { name := "main", span := ⟨0, 2, 12, by decide, by decide⟩ }] },
    { filename := "old.ts", declarations := [
      { name := "first", span := ⟨0, 2, 12, by decide, by decide⟩ },
      { name := "second", span := ⟨12, 14, 22, by decide, by decide⟩ }] },
    { filename := "stale.ts", declarations := [
      { name := "third", span := ⟨0, 2, 12, by decide, by decide⟩ }] }]
  usages := [
    { kind := .checker, file := "old.ts", location := 5, target := ⟨"old.ts", 1⟩ },
    { kind := .checker, file := "old.ts", location := 25, target := ⟨"main.ts", 0⟩ }]

theorem Settings.plan_safe_leftover : ∃ a, ({ root := "" } : Settings).analyze .leftover = .ok a ∧
    a.plan = [⟨1, "old.ts", [1, 2], .delete⟩, ⟨2, "stale.ts", [3], .delete⟩] ∧
    a.project.Deserted .reachedByChecker 1 ∧
    ∀ x ∈ a.plan, x.file ≠ 0 ∧ x.filename ≠ "main.ts" := by
  obtain ⟨a, h, hp⟩ : ∃ a, ({ root := "" } : Settings).analyze .leftover = .ok a ∧
      a.plan = [⟨1, "old.ts", [1, 2], .delete⟩, ⟨2, "stale.ts", [3], .delete⟩] :=
    exists_ok (by cbv)
  have hx : a.plan.Deletes 1 := by simp [hp, Plan.Deletes]
  obtain ⟨_, _, he, _, hd⟩ := plan_safe h
  exact ⟨a, h, hp, hd hx, he (i := 0) rfl rfl⟩

end DeadCode
