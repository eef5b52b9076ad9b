import DeadCode.Manifest.Basic
import DeadCode.Project.Build

namespace DeadCode

namespace Manifest

-- Why an entry of a manifest cannot be registered. Usages are counted from zero.
inductive IngestFault
  | graph (fault : GraphFault)
  | usageFileMissing (usage : Nat) (file : String) (location : Nat)
  | targetFileMissing (usage : Nat) (target : Target)
  | targetMissing (usage : Nat) (target : Target) (available : Nat)
  | containerMissing (usage : Nat) (file : String) (location container available : Nat)
  deriving DecidableEq, Repr

def IngestFault.message : IngestFault → String
  | graph fault => fault.message
  | usageFileMissing usage file location =>
    s!"usage #{usage} at {file}@{location} lives in a file that is not in the project"
  | targetFileMissing usage target =>
    s!"usage #{usage} targets {target.file}#{target.declaration}, " ++
      "but that file is not in the project"
  | targetMissing usage target available =>
    s!"usage #{usage} targets declaration #{target.declaration} of {target.file}, " ++
      s!"which has only {available}"
  | containerMissing usage file location container available =>
    s!"usage #{usage} ({file}@{location}) names containing declaration #{container}, " ++
      s!"but the file has {available}"

-- A project that could only be built in part, and what is wrong with the entry that comes next.
structure Stalled where
  project : Project
  fault : IngestFault

def Stalled.failure (s : Stalled) : Failure :=
  .graph s.fault.message

def proceed (p : Project) (x : EStateM GraphFault Project α) : Except Stalled (α × Project) :=
  match x.run p with
  | .ok a q => .ok (a, q)
  | .error fault q => .error ⟨q, .graph fault⟩

def addDeclaration (file : Nat) (fileSearched : Bool) (p : Project) (d : DeclarationEntry) :
    Except Stalled Project := do
  let (declaration, q) ← proceed p (Project.addDeclaration file d.name d.isExport d.span)
  return if fileSearched && d.searched then q.recordSearch (.declaration declaration) else q

-- Registers a file and its declarations. `promoted` tells which files are entry files even if the
-- manifest does not say so.
def addFile (promoted : String → Bool) (p : Project) (f : FileEntry) : Except Stalled Project := do
  let isEntrypoint := f.isEntrypoint || promoted f.filename
  let (file, q) ← proceed p (Project.addFile f.filename isEntrypoint)
  let q := if f.referenceSearch then q.recordSearch (.file file) else q
  f.declarations.foldlM (addDeclaration file f.referenceSearch) q

def declarationsOf (p : Project) (file : Nat) : Array Nat :=
  (p.files[file]?.map File.declarations).getD #[]

def resolveTarget (p : Project) (index : Nat) (target : Target) : Except IngestFault Nat :=
  match p.fileNamed? target.file with
  | none => .error (.targetFileMissing index target)
  | some file =>
    match (declarationsOf p file)[target.declaration]? with
    | some d => .ok d
    | none => .error (.targetMissing index target (declarationsOf p file).size)

def resolveContainer (p : Project) (index file : Nat) (u : UsageEntry) :
    Except IngestFault (Option Nat) :=
  match u.container with
  | none => .ok (p.declarationAt? file u.location)
  | some i =>
    match (declarationsOf p file)[i]? with
    | some d => .ok (some d)
    | none =>
      .error (.containerMissing index u.file u.location i (declarationsOf p file).size)

def resolve (p : Project) (index : Nat) (u : UsageEntry) : Except IngestFault Usage := do
  let file ← match p.fileNamed? u.file with
    | some file => pure file
    | none => throw (.usageFileMissing index u.file u.location)
  let target ← resolveTarget p index u.target
  let container ← resolveContainer p index file u
  return ⟨u.kind, file, container, u.location, target⟩

def addUsage (p : Project) (entry : UsageEntry × Nat) : Except Stalled Project := do
  let (u, index) := entry
  let usage ← (resolve p index u).mapError (⟨p, ·⟩)
  let (_, q) ← proceed p (Project.addUsage usage)
  return q

def toProject (m : Manifest) (promoted : String → Bool) : Except Stalled Project := do
  let p ← m.files.foldlM (addFile promoted) .empty
  m.usages.zipIdx.foldlM addUsage p

end Manifest

end DeadCode
