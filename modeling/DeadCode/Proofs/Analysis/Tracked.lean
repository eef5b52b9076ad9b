import DeadCode.Analysis.Journal
import DeadCode.Proofs.Analysis.Marked
import DeadCode.Proofs.Checkpoint
import DeadCode.Proofs.Manifest.Consistent

namespace DeadCode

-- A computation with a checkpoint at its side. If it fails, what has been reported stays reported.
abbrev Tracked (ε : Type) := EStateM ε Checkpoint

namespace Tracked

def tick (progress : Progress) : Tracked ε Unit :=
  modify (·.tick progress)

def flush (progress : Progress) : Tracked ε Unit :=
  modify (·.flush progress)

end Tracked

open Tracked

namespace Manifest

def trackDeclaration (file : Nat) (fileSearched : Bool) (state : Project × Progress)
    (d : DeclarationEntry) : Tracked Stalled (Project × Progress) := do
  let (p, progress) := state
  let p ← ofExcept (addDeclaration file fileSearched p d)
  let progress := { progress with declarations := progress.declarations + 1 }
  tick progress
  return (p, progress)

-- A file is counted when it is begun. Only its declarations tick.
def trackFile (promoted : String → Bool) (state : Project × Progress) (f : FileEntry) :
    Tracked Stalled (Project × Progress) := do
  let (p, progress) := state
  let q ← ofExcept (addFile promoted p { f with declarations := [] })
  let progress := { progress with files := progress.files + 1 }
  f.declarations.foldlM (trackDeclaration p.files.size f.referenceSearch) (q, progress)

def trackUsage (state : Project × Progress) (entry : UsageEntry × Nat) :
    Tracked Stalled (Project × Progress) := do
  let (p, progress) := state
  let p ← ofExcept (addUsage p entry)
  let progress := { progress with usages := progress.usages + 1 }
  tick progress
  return (p, progress)

def track (m : Manifest) (promoted : String → Bool) : Tracked Stalled Project := do
  let state ← m.files.foldlM (trackFile promoted) (.empty, { phase := .ingest })
  let (p, progress) ← m.usages.zipIdx.foldlM trackUsage state
  flush progress
  return p

end Manifest

namespace Project

-- Does as `markVisit`, and ticks for each node that gets the flag.
def trackVisit (flag : Flags) : FlagTable × Progress × Checkpoint → Node →
    (FlagTable × Progress × Checkpoint) × Bool
  | (table, progress, c), node =>
    if (table.get node).contains flag then ((table, progress, c), false)
    else
      let progress := { progress with marked := progress.marked + 1 }
      ((table.insert node flag, progress, c.tick progress), true)

def trackMark (p : Project) (flag : Flags) (mode : Mode) : Tracked ε (Project × Nat) := do
  let start := (p.flags, { phase := .mark }, ← get)
  let (flags, progress, c) := (p.walk mode (trackVisit flag) p.nodeCount start).getD start
  set c
  flush progress
  return ({ p with flags }, progress.marked)

end Project

def MarkedProject.track (p : Project) : Tracked ε MarkedProject := do
  let (p, strict) ← p.trackMark Mode.strict.flag .strict
  let (p, fuzzy) ← p.trackMark Mode.fuzzy.flag .fuzzy
  return ⟨p, strict, fuzzy⟩

def Settings.track (s : Settings) (m : Manifest) : Tracked AnalysisError Analysis := do
  let entrypoints ← ofExcept ((GlobList.ofStrings s.entrypoints).mapError .entrypoints)
  let project ← (m.track entrypoints.covers).adaptExcept .ingest
  let marked ← MarkedProject.track project
  let sources ← ofExcept ((GlobList.ofStrings s.sources).mapError (.sources · marked))
  return .ofMarked s sources marked

-- What has been registered so far, as it is reported.
def Project.counters (p : Project) : Progress :=
  ⟨.ingest, p.files.size, p.declarations.size, p.usages.size, 0⟩

-- Where a checkpoint has got to when so much of a project has been built, with the counters that go with it.
def Checkpoint.along (c : Checkpoint) :
    Except Manifest.Stalled Project → EStateM.Result Manifest.Stalled Checkpoint (Project × Progress)
  | .ok p => .ok (p, p.counters) (c.registering p)
  | .error stalled => .error stalled (c.registering stalled.project)

namespace Manifest

open Checkpoint

-- One snapshot for each declaration, file by file, and one for each of so many usages.
def snapshots (fs : List FileEntry) (used : Nat) : List Progress :=
  (listing 0 fs).zipIdx.map (fun x => ⟨.ingest, x.1.file + 1, x.2 + 1, 0, 0⟩) ++
    (List.range used).map fun k => ⟨.ingest, fs.length, (listing 0 fs).length, k + 1, 0⟩

theorem snapshots_addFile {f : FileEntry} :
    snapshots (fs ++ [{ f with declarations := [] }]) 0 = snapshots fs 0 := by
  simp [snapshots, listing_addFile]

theorem snapshots_addDeclaration {f : FileEntry} :
    snapshots (fs ++ [{ f with declarations := ds ++ [d] }]) 0 =
      snapshots (fs ++ [{ f with declarations := ds }]) 0 ++ [⟨.ingest, fs.length + 1,
        (listing 0 (fs ++ [{ f with declarations := ds }])).length + 1, 0, 0⟩] := by
  simp [snapshots, listing_addDeclaration, List.zipIdx_append]

theorem snapshots_succ (fs : List FileEntry) (n : Nat) : snapshots fs (n + 1) =
    snapshots fs n ++ [⟨.ingest, fs.length, (listing 0 fs).length, n + 1, 0⟩] := by
  simp [snapshots, List.range_succ]

theorem map_file_listing (fs : List FileEntry) (n : Nat) : (listing n fs).map (·.file + 1) =
    (fs.zipIdx n).flatMap fun x => List.replicate x.1.declarations.length (x.2 + 1) := by
  induction fs generalizing n
  case nil => rfl
  case cons f fs hi =>
    have hf : (f.listing n).map (·.file + 1) = List.replicate f.declarations.length (n + 1) := by
      refine List.eq_replicate_iff.mpr ⟨by simp, fun k hk => ?_⟩
      have ⟨x, hx, hk⟩ := List.mem_map.mp hk
      rw [← hk, FileEntry.file_of_mem_listing hx]
    rw [listing, List.map_append, hi, hf]
    simp

namespace Ingested

variable (h : Ingested promoted fs us p)
include h

theorem counters_eq : p.counters = ⟨.ingest, fs.length, (listing 0 fs).length, us.length, 0⟩ := by
  rw [Project.counters, h.size_files, h.size_declarations, h.size_usages]

theorem map_size_declarations :
    p.files.toList.map (·.declarations.size) = fs.map (·.declarations.length) := by
  apply List.ext_getElem?
  intro i
  cases hi : fs[i]?
  case none =>
    have : p.files.size ≤ i := by simpa [h.size_files] using hi
    simp [hi, this]
  case some f =>
    have ⟨g, hg, _⟩ := h.file_of_entry hi
    have hl := congrArg List.length (h.listAt_files hi)
    simpa [hi, hg, listAt] using hl

theorem snapshots_eq : ingestSnapshots p = snapshots fs us.length := by
  have hs : (p.files.toList.zipIdx.flatMap fun x => List.replicate x.1.declarations.size (x.2 + 1)) =
      (listing 0 fs).map (·.file + 1) := by
    have := congrArg (fun sizes => sizes.zipIdx.flatMap fun x => List.replicate x.1 (x.2 + 1))
      h.map_size_declarations
    simpa [map_file_listing, List.zipIdx_map, List.flatMap_map] using this
  simp [ingestSnapshots, hs, h.size_files, h.size_declarations, h.size_usages, snapshots, List.zipIdx_map,
    Function.comp_def]

end Ingested

variable {c : Checkpoint}

-- With one snapshot more, there has been one tick more.
theorem registering_of_concat (h : ingestSnapshots q = ingestSnapshots p ++ [q.counters]) :
    c.registering q = (c.registering p).tick q.counters := by
  rw [registering, h, tickAll_concat, registering]

-- If the checkpoint keeps up with every step, it keeps up with the whole loop.
theorem foldlM_along {f : Project → α → Except Stalled Project}
    {g : Project × Progress → α → Tracked Stalled (Project × Progress)} {P : List α → Project → Prop}
    {done todo : List α} (hf : ∀ {xs x p q}, P xs p → f p x = .ok q → P (xs ++ [x]) q)
    (hg : ∀ {xs x p}, P xs p → (g (p, p.counters) x).run (c.registering p) = c.along (f p x))
    (hp : P done p) :
    (todo.foldlM g (p, p.counters)).run (c.registering p) = c.along (todo.foldlM f p) := by
  induction todo generalizing done p
  case nil => rfl
  case cons x todo hi =>
    rw [List.foldlM_cons, List.foldlM_cons, EStateM.run_bind, hg hp]
    cases hx : f p x
    case error => rfl
    case ok q => exact hi (hf hp hx)

theorem trackDeclaration_eq {f : FileEntry}
    (h : Ingested promoted (fs ++ [{ f with declarations := ds }]) [] p) (d : DeclarationEntry) :
    (trackDeclaration fs.length f.referenceSearch (p, p.counters) d).run (c.registering p) =
      c.along (addDeclaration fs.length f.referenceSearch p d) := by
  cases hq : addDeclaration fs.length f.referenceSearch p d
  case error => exact absurd hq h.addDeclaration_ne_error
  case ok q =>
    have h' := h.addDeclaration d hq
    have hc : q.counters = { p.counters with declarations := p.declarations.size + 1 } := by
      rw [h'.counters_eq, h.counters_eq, h.size_declarations, listing_addDeclaration]
      simp
    have hs : ingestSnapshots q = ingestSnapshots p ++ [q.counters] := by
      rw [h'.snapshots_eq, h.snapshots_eq, h'.counters_eq]
      simp [snapshots_addDeclaration, listing_addDeclaration]
    rw [along, registering_of_concat hs, hc, trackDeclaration, hq]
    rfl

theorem addFile_eq (promoted : String → Bool) (p : Project) (f : FileEntry) : addFile promoted p f =
    addFile promoted p { f with declarations := [] } >>= fun q =>
      f.declarations.foldlM (addDeclaration p.files.size f.referenceSearch) q := by
  simp only [addFile, bind_assoc]
  cases hq : proceed p (Project.addFile f.filename (f.isEntrypoint || promoted f.filename))
  case error => rfl
  case ok x =>
    have ⟨_, hi, _⟩ := Project.addFile_ok (proceed_ok hq)
    rw [ok_bind, ok_bind, hi]
    rfl

theorem project_of_addFile {f : FileEntry}
    (h : addFile promoted p { f with declarations := [] } = .error stalled) : stalled.project = p := by
  cases bind_error h
  case inl h =>
    have ⟨_, h, _⟩ := proceed_error h
    exact (Project.addFile_error h).right.right
  case inr h =>
    have ⟨_, _, h⟩ := h
    contradiction

theorem trackFile_eq (h : Ingested promoted fs [] p) (f : FileEntry) :
    (trackFile promoted (p, p.counters) f).run (c.registering p) = c.along (addFile promoted p f) := by
  rw [addFile_eq, trackFile]
  cases hq : addFile promoted p { f with declarations := [] }
  case error stalled =>
    rw [error_bind, along, project_of_addFile hq]
    rfl
  case ok q =>
    have h' : Ingested promoted (fs ++ [{ f with declarations := [] }]) [] q := h.addEntry hq
    have hc : q.counters = { p.counters with files := p.files.size + 1 } := by
      rw [h'.counters_eq, h.counters_eq, h.size_files, listing_addFile]
      simp
    have hr : c.registering q = c.registering p := by
      rw [registering, registering, h'.snapshots_eq, h.snapshots_eq]
      exact congrArg c.tickAll snapshots_addFile
    have hd : (f.declarations.foldlM (trackDeclaration fs.length f.referenceSearch) (q, q.counters)).run
        (c.registering q) =
          c.along (f.declarations.foldlM (addDeclaration fs.length f.referenceSearch) q) :=
      foldlM_along (P := fun ds q => Ingested promoted (fs ++ [{ f with declarations := ds }]) [] q)
        (fun h hq => h.addDeclaration _ hq) (fun h => trackDeclaration_eq h _) h'
    rw [ok_bind, h.size_files, ← hd, hr, hc]
    rfl

theorem project_of_addUsage (h : addUsage p (e, n) = .error stalled) : stalled.project = p := by
  cases bind_error h
  case inl h =>
    have ⟨_, _, hs⟩ := mapError_error h
    rw [hs]
  case inr h =>
    have ⟨_, _, h⟩ := h
    cases bind_error h
    case inl h =>
      have ⟨_, h, _⟩ := proceed_error h
      exact (Project.addUsage_error h).right
    case inr h =>
      have ⟨_, _, h⟩ := h
      contradiction

theorem trackUsage_eq (h : Ingested promoted fs us p) (e : UsageEntry) (n : Nat) :
    (trackUsage (p, p.counters) (e, n)).run (c.registering p) = c.along (addUsage p (e, n)) := by
  cases hq : addUsage p (e, n)
  case error stalled =>
    rw [along, project_of_addUsage hq, trackUsage, hq]
    rfl
  case ok q =>
    have h' := h.addUsage hq
    have hc : q.counters = { p.counters with usages := p.usages.size + 1 } := by
      rw [h'.counters_eq, h.counters_eq, h.size_usages]
      simp
    have hs : ingestSnapshots q = ingestSnapshots p ++ [q.counters] := by
      rw [h'.snapshots_eq, h.snapshots_eq, h'.counters_eq]
      simp [snapshots_succ]
    rw [along, registering_of_concat hs, hc, trackUsage, hq]
    rfl

end Manifest

namespace Checkpoint

-- The outcome of a computation that has left a checkpoint like this.
def conclude (c : Checkpoint) : Except ε α → EStateM.Result ε Checkpoint α
  | .ok a => .ok a c
  | .error e => .error e c

-- Accompanies the building of a project that may not be finished.
def ingestion (c : Checkpoint) : Except Manifest.Stalled Project → Checkpoint
  | .ok p => c.ingesting p
  | .error stalled => c.registering stalled.project

-- Marking changes nothing that is counted while a project is built.
theorem markingBoth_ofProject (c : Checkpoint) (p : Project) : c.markingBoth (.ofProject p) =
    ((c.ingesting p).marking (MarkedProject.ofProject p).strict).marking
      (MarkedProject.ofProject p).fuzzy := by
  simp only [markingBoth, ingesting, registering, ingestSnapshots, MarkedProject.files_ofProject,
    MarkedProject.declarations_ofProject, MarkedProject.usages_ofProject]

end Checkpoint

theorem Tracked.run_adaptExcept {x : Tracked ε α} {c d : Checkpoint} (h : x.run c = d.conclude r)
    (f : ε → ε') : (x.adaptExcept f).run c = d.conclude (r.mapError f) := by
  have h : x c = d.conclude r := h
  rw [EStateM.run, EStateM.adaptExcept, h]
  cases r <;> rfl

theorem Manifest.track_eq (m : Manifest) (promoted : String → Bool) (c : Checkpoint) :
    (m.track promoted).run c =
      (c.ingestion (m.toProject promoted)).conclude (m.toProject promoted) := by
  have hf : (m.files.foldlM (trackFile promoted) (.empty, { phase := .ingest })).run c =
      c.along (m.files.foldlM (addFile promoted) .empty) :=
    foldlM_along (P := fun fs p => Ingested promoted fs [] p) (fun h hq => h.addEntry hq)
      (fun h => trackFile_eq h _) .empty
  rw [track, toProject, EStateM.run_bind, hf]
  cases hp : m.files.foldlM (addFile promoted) .empty
  case error => rfl
  case ok p =>
    have hp : Ingested promoted m.files (([] : List (UsageEntry × Nat)).map Prod.fst) p :=
      Ingested.addEntries hp
    have hu : (m.usages.zipIdx.foldlM trackUsage (p, p.counters)).run (c.registering p) =
        c.along (m.usages.zipIdx.foldlM addUsage p) :=
      foldlM_along (P := fun us p => Ingested promoted m.files (us.map Prod.fst) p)
        (fun h hq => by simpa using h.addUsage hq) (fun h => trackUsage_eq h _ _) hp
    change ((m.usages.zipIdx.foldlM trackUsage (p, p.counters)) >>= _).run (c.registering p) = _
    rw [EStateM.run_bind, hu, ok_bind]
    cases m.usages.zipIdx.foldlM addUsage p <;> rfl

namespace Project

-- The state of a marking run with the counter and the checkpoint that go with it.
def ticked (c : Checkpoint) : FlagTable × Nat → FlagTable × Progress × Checkpoint
  | (table, count) => (table, { phase := .mark, marked := count },
    c.tickAll ((List.range count).map fun i => { phase := .mark, marked := i + 1 }))

theorem trackVisit_ticked (c : Checkpoint) (flag : Flags) (s : FlagTable × Nat) (x : Node) :
    trackVisit flag (ticked c s) x = (ticked c (markVisit flag s x).1, (markVisit flag s x).2) := by
  by_cases h : (s.1.get x).contains flag
  case pos => simp [trackVisit, markVisit, ticked, h]
  case neg => simp [trackVisit, markVisit, ticked, h, List.range_succ, Checkpoint.tickAll_concat]

theorem trackMark_eq (p : Project) (flag : Flags) (mode : Mode) (c : Checkpoint) :
    (p.trackMark flag mode : Tracked ε _).run c =
      .ok (p.mark flag mode) (c.marking (p.mark flag mode).2) := by
  have hs : ticked c (p.flags, 0) = (p.flags, { phase := .mark }, c) := rfl
  have hw : p.walk mode (trackVisit flag) p.nodeCount (ticked c (p.flags, 0)) =
      (p.walk mode (markVisit flag) p.nodeCount (p.flags, 0)).map (ticked c) :=
    Worklist.run_map (ticked c) (trackVisit_ticked c flag)
  rw [hs] at hw
  simp only [trackMark, EStateM.run_bind, EStateM.run_get, hw, mark]
  cases p.walk mode (markVisit flag) p.nodeCount (p.flags, 0) <;> rfl

end Project

theorem MarkedProject.track_eq (p : Project) (c : Checkpoint) : (track p : Tracked ε _).run c =
    .ok (ofProject p) ((c.marking (ofProject p).strict).marking (ofProject p).fuzzy) := by
  simp only [track, EStateM.run_bind, Project.trackMark_eq]
  rfl

-- A checkpoint has no influence on an analysis, and what becomes of it can be told from the outcome.
theorem Settings.track_eq (s : Settings) (m : Manifest) (c : Checkpoint) :
    (s.track m).run c = (c.analysis (s.analyze m)).conclude (s.analyze m) := by
  rw [track, analyze]
  cases GlobList.ofStrings s.entrypoints
  case error => rfl
  case ok entrypoints =>
    change ((m.track entrypoints.covers).adaptExcept AnalysisError.ingest >>= _).run c = _
    rw [EStateM.run_bind, run_adaptExcept (m.track_eq entrypoints.covers c), Except.mapError, ok_bind]
    cases m.toProject entrypoints.covers
    case error => rfl
    case ok p =>
      change (MarkedProject.track p >>= _).run (c.ingesting p) = _
      rw [EStateM.run_bind, MarkedProject.track_eq]
      cases GlobList.ofStrings s.sources
      case error => exact congrArg (EStateM.Result.error _) (c.markingBoth_ofProject p).symm
      case ok => exact congrArg (EStateM.Result.ok _) (c.markingBoth_ofProject p).symm

end DeadCode
