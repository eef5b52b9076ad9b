import DeadCode.Json.Decode
import DeadCode.Project.Basic

namespace DeadCode

namespace Manifest

structure DeclarationEntry where
  name : Option String := none
  isExport : Bool := false
  span : Span
  referenceSearch : Option Bool := none
  deriving DecidableEq, Repr

-- Whether references to a declaration have been looked for. Nothing can refer to a bare statement,
-- so unless said otherwise that is not done for declarations without a name.
def DeclarationEntry.searched (d : DeclarationEntry) : Bool :=
  d.referenceSearch.getD d.name.isSome

structure FileEntry where
  filename : String
  isEntrypoint : Bool := false
  referenceSearch : Bool := true
  declarations : List DeclarationEntry := []
  deriving DecidableEq, Repr

structure Target where
  file : String
  declaration : Nat
  deriving DecidableEq, Repr

structure UsageEntry where
  kind : UsageKind
  file : String
  location : Nat := 0
  -- The place, among the declarations of the file, of the one that the usage is part of. If it is
  -- not given, the location decides.
  container : Option Nat := none
  target : Target
  deriving DecidableEq, Repr

end Manifest

structure Manifest where
  files : List Manifest.FileEntry := []
  usages : List Manifest.UsageEntry := []
  deriving DecidableEq, Repr

def Span.toJson (s : Span) : Json :=
  .object [("full_start", .nat s.fullStart), ("start", .nat s.start), ("end", .nat s.stop)]

namespace Manifest

def DeclarationEntry.toJson (d : DeclarationEntry) : Json :=
  .object [("name", .ofOption .string d.name), ("export", .bool d.isExport), ("span", d.span.toJson),
    ("reference_search", .ofOption .bool d.referenceSearch)]

def FileEntry.toJson (f : FileEntry) : Json :=
  .object [("filename", .string f.filename), ("entrypoint", .bool f.isEntrypoint),
    ("reference_search", .bool f.referenceSearch),
    ("declarations", .array (f.declarations.map DeclarationEntry.toJson))]

def Target.toJson (t : Target) : Json :=
  .object [("file", .string t.file), ("declaration", .nat t.declaration)]

def UsageEntry.toJson (u : UsageEntry) : Json :=
  .object [("kind", .string u.kind.name), ("file", .string u.file), ("location", .nat u.location),
    ("containing", .ofOption .nat u.container), ("target", u.target.toJson)]

def toJson (m : Manifest) : Json :=
  .object [("files", .array (m.files.map FileEntry.toJson)),
    ("usages", .array (m.usages.map UsageEntry.toJson))]

end Manifest

end DeadCode
