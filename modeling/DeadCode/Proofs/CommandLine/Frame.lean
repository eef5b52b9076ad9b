import DeadCode.CommandLine.Run
import DeadCode.Proofs.Fix.Frame

namespace DeadCode.CommandLine

open FileTree (Alters)

variable {o : Options} {f : Findings} {tree : FileTree}

namespace Options

-- What a run needs to get as far as to its findings:
-- 1. a directory
-- 2. a path that may be written to, if one is given
-- 3. a configuration that can be read, if there is one
-- 4. a manifest that can be read and analysed
structure Finds (o : Options) (tree : FileTree) (f : Findings) : Prop where
  directory : tree.isDirectory o.root
  output    : ∀ path, o.dotFile = some path → ∃ accepted, OutputPath.check path = .ok accepted
  settings  : ∃ config, Config.load? tree o.root = .ok config ∧ f.settings = o.settings (config.getD {}) ∧
    f.json = (o.json || (config.getD {}).isJson)
  analysis  : f.settings.analyzeIn tree = .ok f.analysis

-- The findings, once directory and output path are known to be fit.
def inspect (o : Options) (tree : FileTree) : Except RunError Findings := do
  let config := ((← (Config.load? tree o.root).mapError (.config o.root)).getD {})
  let analysis ← ((o.settings config).analyzeIn tree).mapError .analysis
  return ⟨o.settings config, o.json || config.isJson, analysis⟩

theorem inspect_ok_iff : o.inspect tree = .ok f ↔
    (∃ config, Config.load? tree o.root = .ok config ∧ f.settings = o.settings (config.getD {}) ∧
      f.json = (o.json || (config.getD {}).isJson)) ∧ f.settings.analyzeIn tree = .ok f.analysis := by
  simp only [inspect, bind_ok_iff, mapError_ok_iff, pure, Except.pure, Except.ok.injEq]
  constructor
  case mp =>
    intro ⟨config, hc, analysis, ha, hf⟩
    subst hf
    exact ⟨⟨config, hc, rfl, rfl⟩, ha⟩
  case mpr =>
    intro ⟨⟨config, hc, hs, hj⟩, ha⟩
    exact ⟨config, hc, f.analysis, hs ▸ ha, by rw [← hs, ← hj]⟩

theorem findings_ok_iff : o.findings tree = .ok f ↔ o.Finds tree f := by
  cases hd : tree.isDirectory o.root
  case false =>
    have he : o.findings tree = .error (.notADirectory o.root) := by
      cases hp : o.dotFile <;> simp only [findings, hd, hp] <;> rfl
    rw [he]
    refine iff_of_false nofun fun h => ?_
    simp [h.directory] at hd
  case true =>
    cases hp : o.dotFile
    case none =>
      have he : o.findings tree = o.inspect tree := by
        simp only [findings, hd, hp]
        rfl
      rw [he, inspect_ok_iff]
      exact ⟨fun h => ⟨hd, by simp [hp], h.left, h.right⟩, fun h => ⟨h.settings, h.analysis⟩⟩
    case some path =>
      have he : o.findings tree =
          (OutputPath.check path).mapError .outputPath >>= fun _ => o.inspect tree := by
        simp only [findings, hd, hp]
        rfl
      rw [he, bind_ok_iff]
      simp only [mapError_ok_iff, inspect_ok_iff]
      constructor
      case mp =>
        intro ⟨accepted, hc, hs, ha⟩
        exact ⟨hd, fun _ he => ⟨accepted, by simp_all⟩, hs, ha⟩
      case mpr =>
        intro h
        have ⟨accepted, hc⟩ := h.output path hp
        exact ⟨accepted, hc, h.settings, h.analysis⟩

theorem run_of_not_finds (h : ∀ f, ¬o.Finds tree f) (time : String) :
    (o.run tree time).tree = tree ∧ (o.run tree time).exitCode = 2 := by
  cases hf : o.findings tree
  case error e =>
    rw [run, hf]
    exact ⟨rfl, rfl⟩
  case ok f => exact absurd (findings_ok_iff.mp hf) (h f)

-- What a run does about the plan.
def fixed? (o : Options) (f : Findings) (tree : FileTree) : Option FixState :=
  if o.fixes then some (f.analysis.plan.fix f.settings ⟨some o.root⟩ tree) else none

theorem run_of_finds (h : o.Finds tree f) (time : String) :
    (o.run tree time).tree = (o.saveGraph f ((o.fixed? f tree).elim tree FixState.tree)).1 ∧
      (o.run tree time).exitCode = f.exitCode ((o.fixed? f tree).map FixState.fix) := by
  rw [run, findings_ok_iff.mpr h]
  exact ⟨rfl, rfl⟩

theorem saveGraph_alters (o : Options) (f : Findings) (tree : FileTree) :
    Alters o.dotFile.toList tree (o.saveGraph f tree).1 := by
  unfold saveGraph
  split
  case h_1 path graph hp _ =>
    split
    case h_1 tree hw => simpa [hp] using .write hw
    case h_2 => exact .refl tree
  case h_2 => exact .refl tree

-- The planned files, if the plan is to be carried out in earnest.
def planTargets (o : Options) (f : Findings) : List String :=
  if o.fix && !o.fixDryRun then f.analysis.plan.map fun x => Path.join o.root x.filename else []

theorem fixed?_alters (h : o.Finds tree f) :
    Alters (o.planTargets f) tree ((o.fixed? f tree).elim tree FixState.tree) := by
  obtain ⟨config, _, hs, _⟩ := h.settings
  have hr : f.settings.root = o.root := by rw [hs]; rfl
  have hd : f.settings.dryRun = o.fixDryRun := by rw [hs]; rfl
  cases hx : o.fixDryRun
  case true =>
    have ht := f.analysis.plan.fix_of_dryRun (hd.trans hx) ⟨some o.root⟩ tree
    simpa [fixed?, fixes, hx, ht] using .refl tree
  case false =>
    cases hf : o.fix
    case true =>
      simpa [fixed?, fixes, planTargets, hf, hx, hr] using f.analysis.plan.fix_alters f.settings _ tree
    case false => simpa [fixed?, fixes, hf, hx] using .refl tree

theorem run_alters (h : o.Finds tree f) (time : String) :
    Alters (o.dotFile.toList ++ o.planTargets f) tree (o.run tree time).tree := by
  rw [(run_of_finds h time).left]
  exact ((fixed?_alters h).mono (List.subset_append_right _ _)).trans <|
    (o.saveGraph_alters f _).mono (List.subset_append_left _ _)

end Options

-- The run has failed, and it is as if it had not taken place.
structure Outcome.Undone (tree : FileTree) (r : Outcome) : Prop where
  tree     : r.tree = tree
  exitCode : r.exitCode = 2

-- What can be relied on, whatever the arguments are:
-- 1. arguments that make no sense are an error
-- 2. a request for information is answered, and that is all
-- 3. a run that stops short of its findings is an error
-- 4. a run that is to write to a path that may not be written to does stop
-- 5. any other run changes files only where the given path leads and, if the plan is to be carried out in
--    earnest, where the paths of the planned files lead
-- 6. errors of a fix count more than dead code, and dead code more than none
structure Outcome.Orderly (arguments : List String) (tree : FileTree) (r : Outcome) : Prop where
  usage    : ∀ e, Request.parse arguments = .error e → r.Undone tree
  inquiry  : ∀ about, Request.parse arguments = .ok (.inquiry about) → r.tree = tree ∧ r.exitCode = 0
  stopped  : ∀ o, Request.parse arguments = .ok (.run o) → (∀ f, ¬o.Finds tree f) → r.Undone tree
  rejected : ∀ o path e, Request.parse arguments = .ok (.run o) → o.dotFile = some path →
    OutputPath.check path = .error e → r.Undone tree
  changes  : ∀ o f, Request.parse arguments = .ok (.run o) → o.Finds tree f →
    Alters (o.dotFile.toList ++ o.planTargets f) tree r.tree
  exitCode : ∀ o f, Request.parse arguments = .ok (.run o) → o.Finds tree f →
    r.exitCode = if (o.fixed? f tree).any (!·.fix.errors.isEmpty) then 2
      else if f.analysis.dead.isEmpty then 0 else 1

theorem respond_of_run (h : Request.parse arguments = .ok (.run o)) (tree : FileTree) (time : String) :
    respond arguments tree time = o.run tree time := by
  rw [respond, h]
  rfl

-- The command is orderly for all arguments, in any tree.
theorem respond_orderly (arguments : List String) (tree : FileTree) (time : String) :
    (respond arguments tree time).Orderly arguments tree := by
  have stopped {o} (hr : Request.parse arguments = .ok (.run o)) (h : ∀ f, ¬o.Finds tree f) :
      (respond arguments tree time).Undone tree := by
    have ⟨ht, he⟩ := Options.run_of_not_finds h time
    rw [respond_of_run hr]
    exact ⟨ht, he⟩
  refine ⟨?usage, ?inquiry, fun _ => stopped, ?rejected, ?changes, ?exitCode⟩
  case usage =>
    intro e h
    rw [respond, h]
    exact ⟨rfl, rfl⟩
  case inquiry =>
    intro about h
    rw [respond, h]
    cases about <;> exact ⟨rfl, rfl⟩
  case rejected =>
    intro o path e hr hp hc
    refine stopped hr fun f hf => ?_
    have ⟨_, ha⟩ := hf.output path hp
    rw [hc] at ha
    cases ha
  case changes =>
    intro o f hr hf
    rw [respond_of_run hr]
    exact Options.run_alters hf time
  case exitCode =>
    intro o f hr hf
    rw [respond_of_run hr, (Options.run_of_finds hf time).right, Findings.exitCode, Option.any_map,
      Analysis.hasDead]
    cases f.analysis.dead.isEmpty <;> rfl

end DeadCode.CommandLine
