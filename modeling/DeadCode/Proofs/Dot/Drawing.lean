import DeadCode.Proofs.Dot.Reader
import DeadCode.Proofs.Project.Calls

namespace DeadCode.Dot

variable {p : Project} {flag : Flags}

-- The name of a node in the graph. Only files and declarations are shown.
def idOf : Node → String
  | .file i => "f" ++ i.repr
  | .declaration k => "d" ++ k.repr
  | .project | .usage _ => ""

def fileBox (i : Nat) : Box where
  id := idOf (.file i)
  attributes := [("label", "(file)"), ("shape", "note"), ("fillcolor", "white")]

def declarationBox (p : Project) (flag : Flags) (k : Nat) : Box where
  id := idOf (.declaration k)
  attributes := [("label", shownName (p.declarations[k]?.bind Declaration.name)),
    ("fillcolor", if (p.flags.get (.declaration k)).isLive flag then "lightgreen" else "lightcoral")]

def fileAttributes (f : File) : Attributes :=
  ("label", f.filename) :: if f.isEntrypoint then [("style", "bold")] else []

def fileCluster (p : Project) (flag : Flags) (i : Nat) (f : File) : Cluster where
  name := "cluster_" ++ i.repr
  attributes := fileAttributes f
  boxes := fileBox i :: f.declarations.toList.map (declarationBox p flag)

def usageArrow (u : Usage) : Arrow where
  source := idOf u.owner
  target := idOf (.declaration u.target)
  attributes := [("style", if u.kind = .checker then "solid" else "dashed")]

def drawing (p : Project) (flag : Flags) : Graph where
  attributes := [("rankdir", "LR")]
  defaults := [("shape", "box"), ("style", "filled"), ("fontname", "JetBrains Mono")]
  clusters := p.files.toList.zipIdx.map fun (f, i) => fileCluster p flag i f
  arrows := p.usages.toList.map usageArrow

section Lines

variable {g : Graph} {c : Cluster}

-- A text between quotes is read as it is.
theorem lexes_quote (s : String) : Lexes ("\"" ++ escape s ++ "\"") [.quoted s] := by
  intro before
  have ho : "\"".toList.foldl Lexer.step ⟨before, .between⟩ = ⟨before, .quoted []⟩ := rfl
  have hc : "\"".toList.foldl Lexer.step ⟨before, .quoted s.toList.reverse⟩ =
      ⟨[.quoted (String.ofList s.toList.reverse.reverse)] ++ before, .between⟩ := rfl
  rw [String.toList_append, String.toList_append, List.foldl_append, List.foldl_append, ho,
    Lexer.foldl_escape, List.append_nil, hc, List.reverse_reverse, String.ofList_toList]
  rfl

theorem escape_append (s t : String) : escape (s ++ t) = escape s ++ escape t := by
  simp [escape, replace]

theorem escape_idOf (x : Node) : escape (idOf x) = idOf x := by
  cases x <;> simp only [idOf, escape_append, Lexer.escape_repr] <;> rfl

theorem lexes_idOf (x : Node) : Lexes ("\"" ++ idOf x ++ "\"") [.quoted (idOf x)] := by
  simpa only [escape_idOf] using lexes_quote (idOf x)

theorem reads_declarationLine (k : Nat) : Reads (declarationLine p flag k) ⟨g, .cluster c, []⟩
    ⟨g, .cluster { c with boxes := c.boxes ++ [declarationBox p flag k] }, []⟩ := by
  let label := shownName (p.declarations[k]?.bind Declaration.name)
  let color := if (p.flags.get (.declaration k)).isLive flag then "lightgreen" else "lightcoral"
  have hl : declarationLine p flag k = "    " ++ ("\"" ++ idOf (.declaration k) ++ "\"") ++ " [label=" ++
      ("\"" ++ escape label ++ "\"") ++ ", fillcolor=" ++ (color ++ "];\n") := by
    simp [← String.toList_inj, declarationLine, idOf, label, color, toString]
  have hc : Lexes (color ++ "];\n") [.word color, .sign ']', .sign ';'] := by
    unfold color
    split <;> exact fun _ => rfl
  have hb : Lexes "    " [] := fun _ => rfl
  have hk : Lexes " [label=" [.sign '[', .word "label", .sign '='] := fun _ => rfl
  have hf : Lexes ", fillcolor=" [.sign ',', .word "fillcolor", .sign '='] := fun _ => rfl
  rw [hl]
  refine ⟨_, ((((hb.append (lexes_idOf _)).append hk).append (lexes_quote label)).append hf).append hc, ?_⟩
  rfl

theorem lexes_cluster (i : Nat) : Lexes ("  subgraph cluster_" ++ i.repr ++ " \x7b\n")
    [.word "subgraph", .word ("cluster_" ++ i.repr), .sign '\x7b'] := by
  intro before
  let name := "cluster_".toList
  have ho : "  subgraph cluster_".toList.foldl Lexer.step ⟨before, .between⟩ =
      ⟨.word "subgraph" :: before, .word name.reverse⟩ := rfl
  have hc (chars : List Char) (tokens : List Token) :
      " \x7b\n".toList.foldl Lexer.step ⟨tokens, .word chars⟩ =
        ⟨.sign '\x7b' :: .word (String.ofList chars.reverse) :: tokens, .between⟩ := rfl
  have hn : String.ofList (i.repr.toList.reverse ++ name.reverse).reverse = "cluster_" ++ i.repr := by
    simp [← String.toList_inj, name]
  rw [String.toList_append, String.toList_append, List.foldl_append, List.foldl_append, ho,
    Lexer.foldl_repr_word, hc, hn]
  rfl

theorem reads_label (name label : String) :
    Reads s!"    label=\"{escape label}\";\n" ⟨g, .cluster { name }, []⟩
      ⟨g, .cluster { name, attributes := [("label", label)] }, []⟩ := by
  have hl : s!"    label=\"{escape label}\";\n" =
      "    label=" ++ ("\"" ++ escape label ++ "\"") ++ ";\n" := by
    simp [← String.toList_inj, toString]
  have hk : Lexes "    label=" [.word "label", .sign '='] := fun _ => rfl
  have he : Lexes ";\n" [.sign ';'] := fun _ => rfl
  rw [hl]
  exact ⟨_, (hk.append (lexes_quote label)).append he, rfl⟩

theorem reads_style (isBold : Bool) :
    Reads (if isBold then "    style=bold;\n" else "") ⟨g, .cluster c, []⟩ ⟨g, .cluster { c with
      attributes := c.attributes ++ if isBold then [("style", "bold")] else [] }, []⟩ := by
  cases isBold
  case false => simpa using reads_empty _
  case true =>
    have hs : Lexes "    style=bold;\n" [.word "style", .sign '=', .word "bold", .sign ';'] := fun _ => rfl
    exact ⟨_, hs, rfl⟩

theorem reads_fileBox (i : Nat) :
    Reads s!"    \"f{i}\" [label=\"(file)\", shape=note, fillcolor=white];\n" ⟨g, .cluster c, []⟩
      ⟨g, .cluster { c with boxes := c.boxes ++ [fileBox i] }, []⟩ := by
  have hl : s!"    \"f{i}\" [label=\"(file)\", shape=note, fillcolor=white];\n" = "    " ++
      ("\"" ++ idOf (.file i) ++ "\"") ++ " [label=\"(file)\", shape=note, fillcolor=white];\n" := by
    simp [← String.toList_inj, idOf, toString]
  have hb : Lexes "    " [] := fun _ => rfl
  have ha : Lexes " [label=\"(file)\", shape=note, fillcolor=white];\n" [.sign '[', .word "label",
    .sign '=', .quoted "(file)", .sign ',', .word "shape", .sign '=', .word "note", .sign ',',
    .word "fillcolor", .sign '=', .word "white", .sign ']', .sign ';'] := fun _ => rfl
  rw [hl]
  exact ⟨_, (hb.append (lexes_idOf _)).append ha, rfl⟩

theorem reads_fileLines (i : Nat) (f : File) : Reads (fileLines p flag i f) ⟨g, .graph, []⟩
    ⟨{ g with clusters := g.clusters ++ [fileCluster p flag i f] }, .graph, []⟩ := by
  let name := "cluster_" ++ i.repr
  have ho : Reads s!"  subgraph cluster_{i} \x7b\n" ⟨g, .graph, []⟩ ⟨g, .cluster { name }, []⟩ :=
    ⟨_, lexes_cluster i, rfl⟩
  have hd (c : Cluster) : Reads (String.join (f.declarations.toList.map (declarationLine p flag)))
      ⟨g, .cluster c, []⟩ _ :=
    reads_join (fun boxes => ⟨g, .cluster { c with boxes }, []⟩)
      (fun k _ => reads_declarationLine k) f.declarations.toList c.boxes
  have hc (c : Cluster) : Reads "  \x7d\n" ⟨g, .cluster c, []⟩
      ⟨{ g with clusters := g.clusters ++ [c] }, .graph, []⟩ :=
    ⟨[.sign '\x7d'], fun _ => rfl, rfl⟩
  exact ((((ho.append (reads_label name f.filename)).append (reads_style f.isEntrypoint)).append
    (reads_fileBox i)).append (hd _)).append (hc _)

theorem reads_usageLine (u : Usage) : Reads (usageLine u) ⟨g, .graph, []⟩
    ⟨{ g with arrows := g.arrows ++ [usageArrow u] }, .graph, []⟩ := by
  let style := if u.kind = .checker then "solid" else "dashed"
  have hl : usageLine u = "  " ++ ("\"" ++ idOf u.owner ++ "\"") ++ " -> " ++
      ("\"" ++ idOf (.declaration u.target) ++ "\"") ++ " [style=" ++ (style ++ "];\n") := by
    cases hc : u.container <;> cases hk : u.kind <;>
      simp [← String.toList_inj, usageLine, Usage.owner, idOf, hc, hk, toString, style]
  have hs : Lexes (style ++ "];\n") [.word style, .sign ']', .sign ';'] := by
    unfold style
    split <;> exact fun _ => rfl
  have hb : Lexes "  " [] := fun _ => rfl
  have ha : Lexes " -> " [.arrow] := fun _ => rfl
  have hk : Lexes " [style=" [.sign '[', .word "style", .sign '='] := fun _ => rfl
  rw [hl]
  exact ⟨_, ((((hb.append (lexes_idOf _)).append ha).append (lexes_idOf _)).append hk).append hs, rfl⟩

end Lines

theorem read?_render (p : Project) (flag : Flags) : read? (render p flag) = some (drawing p flag) := by
  let attributes := [("rankdir", "LR")]
  let defaults := [("shape", "box"), ("style", "filled"), ("fontname", "JetBrains Mono")]
  have ho : Reads "digraph deadsnip \x7b\n" {} ⟨{}, .graph, []⟩ :=
    ⟨[.word "digraph", .word "deadsnip", .sign '\x7b'], fun _ => rfl, rfl⟩
  have ha : Reads "  rankdir=LR;\n" ⟨{}, .graph, []⟩ ⟨{ attributes }, .graph, []⟩ :=
    ⟨[.word "rankdir", .sign '=', .word "LR", .sign ';'], fun _ => rfl, rfl⟩
  have hd : Reads "  node [shape=box, style=filled, fontname=\"JetBrains Mono\"];\n"
      ⟨{ attributes }, .graph, []⟩ ⟨{ attributes, defaults }, .graph, []⟩ :=
    ⟨[.word "node", .sign '[', .word "shape", .sign '=', .word "box", .sign ',', .word "style", .sign '=',
      .word "filled", .sign ',', .word "fontname", .sign '=', .quoted "JetBrains Mono", .sign ']', .sign ';'],
      fun _ => rfl, rfl⟩
  have hn (r : Reader) : Reads "\n" r r := ⟨[], fun _ => rfl, rfl⟩
  have hf : Reads (String.join (p.files.toList.zipIdx.map fun (f, i) => fileLines p flag i f))
      ⟨{ attributes, defaults }, .graph, []⟩
      ⟨{ attributes, defaults, clusters := (drawing p flag).clusters }, .graph, []⟩ :=
    reads_join (fun clusters => ⟨{ attributes, defaults, clusters }, .graph, []⟩)
      (fun (f, i) _ => reads_fileLines i f) p.files.toList.zipIdx []
  have hu (clusters : List Cluster) : Reads (String.join (p.usages.toList.map usageLine))
      ⟨{ attributes, defaults, clusters }, .graph, []⟩
      ⟨{ attributes, defaults, clusters, arrows := (drawing p flag).arrows }, .graph, []⟩ :=
    reads_join (fun arrows => ⟨{ attributes, defaults, clusters, arrows }, .graph, []⟩)
      (fun u _ => reads_usageLine u) p.usages.toList []
  have he (g : Graph) : Reads "\x7d\n" ⟨g, .graph, []⟩ ⟨g, .finish, []⟩ :=
    ⟨[.sign '\x7d'], fun _ => rfl, rfl⟩
  exact read?_of_reads (((((((ho.append ha).append hd).append (hn _)).append hf).append (hn _)).append
    (hu _)).append (he _))

section Names

variable {i k : Nat} {x y : Node}

-- The nodes that are shown together with a file: the file itself and then its declarations.
def nodesOf (p : Project) (i : Nat) : List Node :=
  .file i :: (indicesOf p.declarations (·.file = i)).map .declaration

-- All nodes that are shown.
def shown (p : Project) : List Node :=
  (List.range p.files.size).flatMap (nodesOf p)

theorem mem_nodesOf : x ∈ nodesOf p i ↔
    x = .file i ∨ ∃ k d, p.declarations[k]? = some d ∧ d.file = i ∧ x = .declaration k := by
  simp only [nodesOf, List.mem_cons, List.mem_map, mem_indicesOf, eq_comm (a := Node.declaration _)]
  tauto

theorem file_mem_shown (h : i < p.files.size) : .file i ∈ shown p :=
  List.mem_flatMap.mpr ⟨i, List.mem_range.mpr h, .head _⟩

theorem declaration_mem_shown (hp : p.WellFormed) (h : k < p.declarations.size) :
    .declaration k ∈ shown p := by
  have hd : p.declarations[k]? = some p.declarations[k] := Array.getElem?_eq_getElem h
  exact List.mem_flatMap.mpr ⟨_, List.mem_range.mpr (hp.file hd), mem_nodesOf.mpr (.inr ⟨k, _, hd, rfl, rfl⟩)⟩

theorem nodup_shown : (shown p).Nodup := by
  rw [shown, List.nodup_flatMap]
  constructor
  case left =>
    intro i _
    exact List.nodup_cons.mpr ⟨by simp, nodup_indicesOf.map fun _ _ => Node.declaration.inj⟩
  case right =>
    apply List.nodup_range.imp
    intro i j hij x hi hj
    rcases mem_nodesOf.mp hi with rfl | ⟨k, d, hd, rfl, rfl⟩
    case inl => simp [mem_nodesOf, hij] at hj
    case inr => simp [mem_nodesOf, hd, hij] at hj

-- A number can be read off its digits.
theorem eq_of_repr_eq {m n : Nat} (h : m.repr = n.repr) : m = n := by
  have := congrArg (fun digits : String => Nat.ofDigitChars 10 digits.toList 0) h
  simpa only [Nat.toList_repr, Nat.ofDigitChars_ten_toDigits] using this

-- Nodes that are shown differ in their names.
theorem idOf_inj (hx : x ∈ shown p) (hy : y ∈ shown p) (h : idOf x = idOf y) : x = y := by
  simp only [shown, List.mem_flatMap, mem_nodesOf] at hx hy
  rcases hx with ⟨_, _, rfl | ⟨_, _, _, _, rfl⟩⟩ <;> rcases hy with ⟨_, _, rfl | ⟨_, _, _, _, rfl⟩⟩
  case inl.inl => rw [eq_of_repr_eq (String.append_right_inj "f" |>.mp h)]
  case inr.inr => rw [eq_of_repr_eq (String.append_right_inj "d" |>.mp h)]
  all_goals simp [idOf, ← String.toList_inj] at h

theorem nodup_ids : ((shown p).map idOf).Nodup :=
  nodup_shown.map_on fun _ hx _ hy => idOf_inj hx hy

theorem count_idOf (hx : x ∈ shown p) : ((shown p).map idOf).count (idOf x) = 1 :=
  List.count_eq_one_of_mem nodup_ids (List.mem_map_of_mem hx)

end Names

def Graph.allBoxes (g : Graph) : List Box :=
  g.boxes ++ g.clusters.flatMap Cluster.boxes

-- What a graph has to show of a project:
-- 1. there is a cluster for each file, in order, which is labelled with the name of the file and is bold if
--    the file is an entrypoint
-- 2. clusters differ in their names, and so do boxes
-- 3. a cluster holds a box for its file and one for each declaration in the file, and there are no others
-- 4. a declaration's box is in the cluster of its file; it is labelled with the name of the declaration, and
--    is green if the declaration survives
-- 5. there is an arrow for each usage, in order, from the node that lists the usage to its target, which is
--    solid if the type checker has found the usage
-- 6. whatever an arrow connects is the name of exactly one box
structure Depicts (p : Project) (flag : Flags) (g : Graph) : Prop where
  files        : g.clusters.map Cluster.attributes = p.files.toList.map fileAttributes
  names        : (g.clusters.map Cluster.name).Nodup ∧ (g.allBoxes.map Box.id).Nodup
  boxes        : g.boxes = [] ∧ ∀ {i : Nat} {c}, g.clusters[i]? = some c →
    c.boxes.map Box.id = (nodesOf p i).map idOf
  declarations : ∀ {k : Nat} {d}, p.declarations[k]? = some d → ∃ c, g.clusters[d.file]? = some c ∧
    ⟨idOf (.declaration k), [("label", d.shownName), ("fillcolor",
      if (p.flags.get (.declaration k)).isLive flag then "lightgreen" else "lightcoral")]⟩ ∈ c.boxes
  arrows       : g.arrows = p.usages.toList.map usageArrow
  connected    : ∀ a ∈ g.arrows, (g.allBoxes.map Box.id).count a.source = 1 ∧
    (g.allBoxes.map Box.id).count a.target = 1

theorem getElem?_clusters (i : Nat) :
    (drawing p flag).clusters[i]? = p.files[i]?.map (fileCluster p flag i) := by
  simp [drawing, List.getElem?_zipIdx, Function.comp_def]

-- What depends on the number of a cluster alone.
theorem map_clusters {g : Cluster → α} {h : Nat → α}
    (hg : ∀ {i f}, p.files[i]? = some f → g (fileCluster p flag i f) = h i) :
    (drawing p flag).clusters.map g = (List.range p.files.size).map h := by
  apply List.ext_getElem?
  intro i
  rw [List.getElem?_map, getElem?_clusters, List.getElem?_map]
  cases hf : p.files[i]?
  case none => simpa using hf
  case some f =>
    have ⟨hi, _⟩ := Array.getElem?_eq_some_iff.mp hf
    simp [List.getElem?_range hi, hg hf]

theorem map_id_fileCluster (hp : p.WellFormed) (hf : p.files[i]? = some f) :
    (fileCluster p flag i f).boxes.map Box.id = (nodesOf p i).map idOf := by
  have hd : f.declarations.toList = indicesOf p.declarations (·.file = i) := by
    simpa [listAt, hf] using hp.declarations i
  simp [fileCluster, fileBox, declarationBox, nodesOf, hd]

theorem map_id_allBoxes (hp : p.WellFormed) :
    (drawing p flag).allBoxes.map Box.id = (shown p).map idOf :=
  calc
    _ = ((drawing p flag).clusters.map fun c => c.boxes.map Box.id).flatten :=
      List.map_flatMap
    _ = ((List.range p.files.size).map fun i => (nodesOf p i).map idOf).flatten := by
      rw [map_clusters (map_id_fileCluster hp)]
    _ = _ := List.map_flatMap.symm

theorem map_attributes :
    (drawing p flag).clusters.map Cluster.attributes = p.files.toList.map fileAttributes :=
  calc
    _ = p.files.toList.zipIdx.map (fileAttributes ∘ Prod.fst) := by
      simp [drawing, fileCluster, Function.comp_def]
    _ = p.files.toList.map fileAttributes := by rw [← List.map_map, List.zipIdx_map_fst]

theorem nodup_names : ((drawing p flag).clusters.map Cluster.name).Nodup := by
  rw [map_clusters fun _ => rfl]
  exact List.nodup_range.map fun i j h => eq_of_repr_eq (String.append_right_inj _ |>.mp h)

theorem declarationBox_mem (hp : p.WellFormed) (hd : p.declarations[k]? = some d) :
    ∃ c, (drawing p flag).clusters[d.file]? = some c ∧ declarationBox p flag k ∈ c.boxes := by
  have ⟨f, hf⟩ : ∃ f, p.files[d.file]? = some f := ⟨_, Array.getElem?_eq_getElem (hp.file hd)⟩
  have hm := Array.mem_toList_iff.mpr (hp.mem_declarations hf hd rfl)
  refine ⟨fileCluster p flag d.file f, ?_, .tail _ (List.mem_map_of_mem hm)⟩
  rw [getElem?_clusters, hf, Option.map_some]

theorem usage_mem_shown (hp : p.WellFormed) (hu : u ∈ p.usages) :
    u.owner ∈ shown p ∧ .declaration u.target ∈ shown p := by
  obtain ⟨n, hn⟩ := Array.mem_iff_getElem?.mp hu
  obtain ⟨hf, ht, hc⟩ := hp.fits hn
  refine ⟨?_, declaration_mem_shown hp ht⟩
  rw [Usage.owner]
  split
  case h_1 c he =>
    obtain ⟨d, hd, _⟩ := hc he
    exact declaration_mem_shown hp (Array.getElem?_eq_some_iff.mp hd).1
  case h_2 => exact file_mem_shown hf

theorem drawing_depicts (hp : p.WellFormed) : Depicts p flag (drawing p flag) := by
  have hs : (drawing p flag).allBoxes.map Box.id = (shown p).map idOf := map_id_allBoxes hp
  exact {
    files := map_attributes
    names := ⟨nodup_names, hs ▸ nodup_ids⟩
    boxes := by
      refine ⟨rfl, ?_⟩
      intro i c hc
      rw [getElem?_clusters] at hc
      obtain ⟨f, hf, rfl⟩ := Option.map_eq_some_iff.mp hc
      exact map_id_fileCluster hp hf
    declarations hd := by simpa [declarationBox, hd, Declaration.shownName] using declarationBox_mem hp hd
    arrows := rfl
    connected := by
      intro a ha
      obtain ⟨u, hu, rfl⟩ := List.mem_map.mp ha
      obtain ⟨ho, ht⟩ := usage_mem_shown hp (Array.mem_toList_iff.mp hu)
      rw [hs]
      exact ⟨count_idOf ho, count_idOf ht⟩ }

-- The description of a project can be read, and what is read shows all of the project and nothing else.
theorem render_depicts (rs : List Registration) (flags : FlagTable) (flag : Flags) :
    let p := { Project.ofRegistrations rs with flags }
    ∃ g, read? (render p flag) = some g ∧ Depicts p flag g := by
  intro p
  have hp : p.WellFormed := (Project.wellFormed_ofRegistrations rs).withFlags flags
  exact ⟨drawing p flag, read?_render p flag, drawing_depicts hp⟩

end DeadCode.Dot
