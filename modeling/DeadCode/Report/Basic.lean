import DeadCode.Analysis.Basic
import DeadCode.Json.Basic
import DeadCode.Report.Percentage

namespace DeadCode

def DeadKind.description : DeadKind → String
  | unreferenced => "unreferenced"
  | grepOnly => "grep only"

def DeadKind.key : DeadKind → String
  | unreferenced => "unreferenced"
  | grepOnly => "grep_only"

namespace DeadItem

def render (item : DeadItem) : String :=
  let exported := if item.isExport then "export " else ""
  let name := shownName item.name
  s!"{item.file}@{item.span.render} {exported}{name} ({item.kind.description})"

def toJson (item : DeadItem) : Json :=
  let span := .object [("full_start", .nat item.span.fullStart), ("start", .nat item.span.start),
    ("end", .nat item.span.stop)]
  .object [("name", .ofOption .string item.name), ("file", .string item.file), ("span", span),
    ("is_export", .bool item.isExport), ("kind", .string item.kind.key)]

end DeadItem

namespace Report

def bullets (lines : List String) : String :=
  String.join (lines.map fun line => s!"- {line}\n")

def furtherSection (heading : String) (lines : List String) : String :=
  if lines.isEmpty then "" else s!"\n{heading} ({lines.length}):\n" ++ bullets lines

def plain (a : Analysis) : String :=
  if a.dead.isEmpty then "No dead code found.\n"
  else
    let percent := oneDecimal (percentage a.dead.length a.total)
    s!"DEAD DECLARATIONS ({a.dead.length} of {a.total}, {percent}%):\n" ++
    bullets (a.dead.map DeadItem.render) ++
    furtherSection "DEAD FILES" a.plan.deletions ++
    furtherSection "DEAD CYCLES" (a.cycles.map fun c => " <-> ".intercalate c.names)

def json (a : Analysis) : Json :=
  .object [("root", .string a.root), ("total_declarations", .nat a.total),
    ("dead", .array (a.dead.map DeadItem.toJson)), ("dead_files", .ofStrings a.plan.deletions),
    ("cycles", .array (a.cycles.map fun c => .ofStrings c.names))]

def stamped (a : Analysis) (time : String) : Json :=
  (json a).insert "generated_at" (.string time)

end Report

end DeadCode
