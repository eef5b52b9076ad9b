import DeadCode.Project.Basic

namespace DeadCode.Dot

def replace (c : Char) (replacement : String) (text : List Char) : List Char :=
  text.flatMap fun d => if d == c then replacement.toList else [d]

-- A text as it stands between double quotes. The backslashes that quotes get are not escaped in turn.
def escape (label : String) : String :=
  String.ofList (replace '"' "\\\"" (replace '\\' "\\\\" label.toList))

def declarationLine (p : Project) (flag : Flags) (declaration : Nat) : String :=
  let label := escape (shownName (p.declarations[declaration]?.bind Declaration.name))
  let isLive := (p.flags.get (.declaration declaration)).isLive flag
  let color := if isLive then "lightgreen" else "lightcoral"
  s!"    \"d{declaration}\" [label=\"{label}\", fillcolor={color}];\n"

def fileLines (p : Project) (flag : Flags) (index : Nat) (file : File) : String :=
  let label := escape file.filename
  s!"  subgraph cluster_{index} \x7b\n" ++
  s!"    label=\"{label}\";\n" ++
  (if file.isEntrypoint then "    style=bold;\n" else "") ++
  s!"    \"f{index}\" [label=\"(file)\", shape=note, fillcolor=white];\n" ++
  String.join (file.declarations.toList.map (declarationLine p flag)) ++
  "  \x7d\n"

def usageLine (usage : Usage) : String :=
  let source := match usage.container with
    | some d => s!"d{d}"
    | none => s!"f{usage.file}"
  let style := match usage.kind with
    | .checker => "solid"
    | .grep => "dashed"
  s!"  \"{source}\" -> \"d{usage.target}\" [style={style}];\n"

-- The graph; what survives a sweep for `flag` is green.
def render (p : Project) (flag : Flags) : String :=
  "digraph deadsnip \x7b\n" ++
  "  rankdir=LR;\n" ++
  "  node [shape=box, style=filled, fontname=\"JetBrains Mono\"];\n" ++
  "\n" ++
  String.join (p.files.toList.zipIdx.map fun (file, index) => fileLines p flag index file) ++
  "\n" ++
  String.join (p.usages.toList.map usageLine) ++
  "\x7d\n"

end DeadCode.Dot
