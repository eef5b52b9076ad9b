import DeadCode.FileTree.Access
import DeadCode.Manifest.Basic

namespace DeadCode

open Json

structure SpanDraft where
  fullStart : Option Nat := none
  start : Option Nat := none
  stop : Option Nat := none

def Span.fields : List (Decoder.Field SpanDraft) := [
  .named "full_start" (.optional .nat) fun v d => { d with fullStart := v },
  .named "start" .nat fun v d => { d with start := some v },
  .named "end" .nat fun v d => { d with stop := some v }]

-- A span is checked as soon as all of it has been read.
def Span.decode : Decoder Span :=
  .record Span.fields {} fun missing d => do
    let start ← Decoder.require missing "start" d.start
    let stop ← Decoder.require missing "end" d.stop
    (Span.ofOffsets (d.fullStart.getD start) start stop).mapError .invalidSpan

def UsageKind.decode : Decoder UsageKind :=
  .variant [("checker", .checker), ("grep", .grep)]

namespace Manifest

structure DeclarationDraft where
  name : Option String := none
  isExport : Bool := false
  span : Option Span := none
  referenceSearch : Option Bool := none

def DeclarationEntry.fields : List (Decoder.Field DeclarationDraft) := [
  .named "name" (.optional .string) fun v d => { d with name := v },
  .named "export" .bool fun v d => { d with isExport := v },
  .named "span" Span.decode fun v d => { d with span := some v },
  .named "reference_search" (.optional .bool) fun v d => { d with referenceSearch := v }]

def DeclarationEntry.decode : Decoder DeclarationEntry :=
  .record DeclarationEntry.fields {} fun missing d => do
    let span ← Decoder.require missing "span" d.span
    return ⟨d.name, d.isExport, span, d.referenceSearch⟩

structure FileDraft where
  filename : Option String := none
  isEntrypoint : Bool := false
  referenceSearch : Bool := true
  declarations : List DeclarationEntry := []

def FileEntry.fields : List (Decoder.Field FileDraft) := [
  .named "filename" .string fun v d => { d with filename := some v },
  .named "entrypoint" .bool fun v d => { d with isEntrypoint := v },
  .named "reference_search" .bool fun v d => { d with referenceSearch := v },
  .named "declarations" (.list DeclarationEntry.decode) fun v d => { d with declarations := v }]

def FileEntry.decode : Decoder FileEntry :=
  .record FileEntry.fields {} fun missing d => do
    let filename ← Decoder.require missing "filename" d.filename
    return ⟨filename, d.isEntrypoint, d.referenceSearch, d.declarations⟩

structure TargetDraft where
  file : Option String := none
  declaration : Option Nat := none

def Target.fields : List (Decoder.Field TargetDraft) := [
  .named "file" .string fun v d => { d with file := some v },
  .named "declaration" .nat fun v d => { d with declaration := some v }]

def Target.decode : Decoder Target :=
  .record Target.fields {} fun missing d => do
    let file ← Decoder.require missing "file" d.file
    let declaration ← Decoder.require missing "declaration" d.declaration
    return ⟨file, declaration⟩

structure UsageDraft where
  kind : Option UsageKind := none
  file : Option String := none
  location : Nat := 0
  container : Option Nat := none
  target : Option Target := none

def UsageEntry.fields : List (Decoder.Field UsageDraft) := [
  .named "kind" UsageKind.decode fun v d => { d with kind := some v },
  .named "file" .string fun v d => { d with file := some v },
  .named "location" .nat fun v d => { d with location := v },
  .named "containing" (.optional .nat) fun v d => { d with container := v },
  .named "target" Target.decode fun v d => { d with target := some v }]

def UsageEntry.decode : Decoder UsageEntry :=
  .record UsageEntry.fields {} fun missing d => do
    let kind ← Decoder.require missing "kind" d.kind
    let file ← Decoder.require missing "file" d.file
    let target ← Decoder.require missing "target" d.target
    return ⟨kind, file, d.location, d.container, target⟩

def fields : List (Decoder.Field Manifest) := [
  .named "files" (.list FileEntry.decode) fun v m => { m with files := v },
  .named "usages" (.list UsageEntry.decode) fun v m => { m with usages := v }]

def decode : Decoder Manifest :=
  .record fields {} fun _ m => .ok m

def failure (path : String) (error : DecodeError) : Failure :=
  let detail := match error.message? with
    | some message => s!"invalid manifest JSON: {message}"
    | none => "invalid manifest JSON"
  .manifest path detail

def parse (path text : String) : Except Failure Manifest :=
  (decode.run text).mapError (failure path)

def load (tree : FileTree) (path : String) : Except Failure Manifest := do
  parse path (← tree.load path)

end Manifest

end DeadCode
