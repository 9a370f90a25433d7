import CallAtlas.Parameters.OfToml
import CallAtlas.Proofs.DefaultsFirst
import CallAtlas.Proofs.DotPicture

/-!
# The lines of a DOT text

A DOT text is made of lines: one for each attribute of the graph, one for each node and each edge,
one for each kind of defaults. Line breaks in the names of nodes and in values are escaped, so that
they do not end a line. Those in the names of attributes are written as they are. A text therefore
has one line more for each of them, and it has exactly the lines it is made of if there are none.

Names of attributes are the last parts of the keys of parameters, and a key of a TOML document may
hold a line break.

## Main definitions

* `Picture.breaks` — the line breaks in the names of attributes
* `Drawing.lineCount` — the number of lines that a text is made of

## Main results

* `Text.length_split` — the number of lines of any text
* `Picture.count_text` — the line breaks in the text of a picture
* `Drawing.split_toDot_eq_dotLines_iff` — the lines of a text are those it is made of
* `Drawing.forall_mem_keys_of_apply` — where the names of attributes come from
* `Drawing.keepsLines_of_apply` — the lines after parameters were applied
* `Drawing.breaksLines_brokenKey` — a key with a line break
-/

namespace CallAtlas

/-! ## Splitting -/

namespace Text

theorem length_split (sep : Char) (s : String) :
    (split sep s).length = s.toList.count sep + 1 := by
  rw [split, List.length_map]
  generalize s.toList = cs
  induction cs with
  | nil => rfl
  | cons c cs ih =>
    rw [List.splitOn_cons_eq_if_modifyHead]
    by_cases hc : c = sep
    · simp [hc, ih]
    · simp [hc, ih, List.count_cons_of_ne]

theorem split_intercalate {lines : List String} (hne : lines ≠ [])
    (hlines : ∀ line ∈ lines, '\n' ∉ line.toList) :
    split '\n' ("\n".intercalate lines) = lines := by
  have hchars : ("\n".intercalate lines).toList = ['\n'].intercalate (lines.map String.toList) := by
    rw [String.toList_intercalate]
    rfl
  have hparts : ∀ cs ∈ lines.map String.toList, '\n' ∉ cs := List.forall_mem_map.mpr hlines
  rw [split, hchars, List.splitOn_intercalate '\n' hparts (by simpa using hne), List.map_map]
  exact (List.map_congr_left fun line _ => String.ofList_toList).trans (List.map_id lines)

/-- The line breaks of joined lines are those between them and those in them. -/
theorem count_intercalate {lines : List String} (hne : lines ≠ []) :
    ("\n".intercalate lines).toList.count '\n' + 1 =
      lines.length + (lines.flatMap String.toList).count '\n' := by
  induction lines with
  | nil => exact absurd rfl hne
  | cons line lines ih =>
    by_cases hlines : lines = []
    · subst hlines
      simp [Nat.add_comm]
    · have hsep : "\n".toList.count '\n' = 1 := by simp
      rw [String.intercalate_cons_of_ne_nil hlines, String.toList_append, String.toList_append,
        List.count_append, List.count_append, hsep, List.flatMap_cons, List.count_append,
        List.length_cons]
      have htail := ih hlines
      omega

end Text

/-! ## Line breaks in a picture -/

namespace Picture

/-- The number of line breaks in the names of attributes. -/
def breaks (as : List (String × String)) : Nat :=
  (as.flatMap fun a => a.1.toList).count '\n'

theorem breaks_cons (a : String × String) (as : List (String × String)) :
    breaks (a :: as) = a.1.toList.count '\n' + breaks as := by
  rw [breaks, List.flatMap_cons, List.count_append]
  rfl

theorem breaks_append (as bs : List (String × String)) :
    breaks (as ++ bs) = breaks as + breaks bs := by
  rw [breaks, List.flatMap_append, List.count_append]
  rfl

theorem breaks_eq_zero_iff {as : List (String × String)} :
    breaks as = 0 ↔ ∀ k ∈ as.map Prod.fst, '\n' ∉ k.toList := by
  rw [breaks, List.count_eq_zero, List.mem_flatMap, List.forall_mem_map]
  simp only [not_exists, not_and]

/-- Escaping leaves no line break. -/
theorem count_quoted (s : String) : (quoted s).count '\n' = 0 := by
  have hchar : ∀ c, '\n' ∉ Drawing.dotEscapeChar c := by
    intro c
    simp only [Drawing.dotEscapeChar]
    grind
  rw [List.count_eq_zero]
  simp [quoted, List.mem_flatMap, hchar]

theorem count_attr (a : String × String) : (attr a).count '\n' = a.1.toList.count '\n' := by
  simp [attr, count_quoted]

theorem count_attrs (as : List (String × String)) : (attrs as).count '\n' = breaks as := by
  cases as with
  | nil => rfl
  | cons a as =>
    have htail : (as.flatMap fun b => [',', ' '] ++ attr b).count '\n' = breaks as := by
      induction as with
      | nil => rfl
      | cons b as ih =>
        rw [List.flatMap_cons, List.count_append, ih, breaks_cons]
        simp [count_attr]
    rw [attrs, List.count_append, count_attr, htail, breaks_cons]

theorem count_bracketed (as : List (String × String)) :
    (bracketed as).count '\n' = 1 + breaks as := by
  rw [bracketed]
  split
  case isTrue h =>
    subst h
    rfl
  case isFalse =>
    have hcount := count_attrs as
    simp [hcount, Nat.add_comm]

theorem count_graphLines (as : List (String × String)) :
    (as.flatMap graphLine).count '\n' = as.length + breaks as := by
  induction as with
  | nil => rfl
  | cons a as ih =>
    have hline : (graphLine a).count '\n' = a.1.toList.count '\n' + 1 := by
      simp [graphLine, indent, count_attr]
    rw [List.flatMap_cons, List.count_append, ih, hline, breaks_cons, List.length_cons]
    omega

theorem count_defaultsLine {what : String} (hwhat : '\n' ∉ what.toList)
    (as : List (String × String)) :
    (defaultsLine what as).count '\n' = (if as = [] then 0 else 1) + breaks as := by
  rw [defaultsLine]
  split
  case isTrue h =>
    subst h
    rfl
  case isFalse =>
    rw [List.count_append, List.count_append, count_bracketed, List.count_eq_zero.mpr hwhat]
    simp [indent]

theorem count_nodeLines (ns : List (String × List (String × String))) :
    (ns.flatMap nodeLine).count '\n' = ns.length + breaks (ns.flatMap Prod.snd) := by
  induction ns with
  | nil => rfl
  | cons n ns ih =>
    have hline : (nodeLine n).count '\n' = 1 + breaks n.2 := by
      simp [nodeLine, indent, count_quoted, count_bracketed]
    rw [List.flatMap_cons, List.flatMap_cons, List.count_append, breaks_append, ih, hline,
      List.length_cons]
    omega

theorem count_edgeLines (es : List (String × String)) :
    (es.flatMap edgeLine).count '\n' = es.length := by
  induction es with
  | nil => rfl
  | cons e es ih =>
    have hline : (edgeLine e).count '\n' = 1 := by
      simp [edgeLine, indent, count_quoted]
    rw [List.flatMap_cons, List.count_append, ih, hline, List.length_cons, Nat.add_comm]

theorem count_text (p : Picture) :
    p.text.count '\n' = 3 + p.graphAttrs.length + (if p.nodeDefaults = [] then 0 else 1) +
      (if p.edgeDefaults = [] then 0 else 1) + p.nodes.length + p.edges.length +
      breaks p.allAttrs := by
  have hheader : header.count '\n' = 0 := by decide +kernel
  have hnode : '\n' ∉ "node".toList := by decide +kernel
  have hedge : '\n' ∉ "edge".toList := by decide +kernel
  have hbrace : ['\x7d'].count '\n' = 0 := rfl
  simp only [text, allAttrs, List.count_append, List.count_cons_self, hheader, hbrace,
    count_graphLines, count_defaultsLine hnode, count_defaultsLine hedge, count_nodeLines,
    count_edgeLines, breaks_append]
  omega

end Picture

/-! ## The lines of a drawing -/

namespace Drawing

/-- The number of lines that the DOT text of a drawing is made of: one for each attribute of the
graph, node and edge, one for each kind of defaults, the first and the last one, and two that are
empty. -/
def lineCount (d : Drawing) : Nat :=
  4 + d.graphAttrs.entries.length + (if d.nodeDefaults.isEmpty then 0 else 1) +
    (if d.edgeDefaults.isEmpty then 0 else 1) + d.graph.nodeCount + d.graph.edgeCount

theorem length_displayOrder (d : Drawing) : d.displayOrder.length = d.graph.nodeCount :=
  List.length_mergeSort _

theorem length_edgePairs (g : CallGraph) : g.edgePairs.length = g.edgeCount := by
  rw [CallGraph.edgePairs, List.length_map, CallGraph.edgesById, List.length_mergeSort]
  rfl

theorem length_dotLines (d : Drawing) : d.dotLines.length = d.lineCount := by
  have hdefaults : ∀ what (attrs : Attributes),
      (dotDefaults what attrs).length = if attrs.isEmpty then 0 else 1 := by
    intro what attrs
    rw [dotDefaults]
    split <;> rfl
  simp only [dotLines, List.length_append, List.length_map, List.length_singleton, hdefaults,
    length_displayOrder, length_edgePairs, lineCount]
  omega

theorem length_split_toDot (d : Drawing) :
    (Text.split '\n' d.toDot).length = d.lineCount + Picture.breaks d.picture.allAttrs := by
  have hgraph : d.picture.graphAttrs.length = d.graphAttrs.entries.length := List.length_map _
  have hnodes : d.picture.nodes.length = d.graph.nodeCount :=
    (List.length_map _).trans d.length_displayOrder
  have hedges : d.picture.edges.length = d.graph.edgeCount :=
    (List.length_map _).trans (length_edgePairs d.graph)
  have hdefaults : ∀ attrs : Attributes,
      (if attrs.shown = [] then 0 else 1) = if attrs.isEmpty then 0 else 1 := by
    intro attrs
    simp only [shown_eq_nil_iff]
  have hnode := hdefaults d.nodeDefaults
  have hedge := hdefaults d.edgeDefaults
  rw [Text.length_split, toList_toDot, Picture.count_text, hgraph, hnodes, hedges, lineCount,
    ← hnode, ← hedge]
  change _ = 4 + _ + (if d.picture.nodeDefaults = [] then 0 else 1) +
    (if d.picture.edgeDefaults = [] then 0 else 1) + _ + _ + _
  omega

theorem split_toDot_eq_dotLines_iff {d : Drawing} :
    Text.split '\n' d.toDot = d.dotLines ↔ Picture.breaks d.picture.allAttrs = 0 := by
  have hne : d.dotLines ≠ [] := by simp [dotLines]
  have hlength := length_split_toDot d
  constructor
  · intro h
    rw [h, length_dotLines] at hlength
    omega
  · intro hbreaks
    -- all line breaks of the text are needed between the lines, so that none is left inside them
    have hcount := Text.count_intercalate hne
    rw [← toDot, ← Text.length_split, hlength, hbreaks, length_dotLines, Nat.add_zero,
      Nat.left_eq_add, List.count_eq_zero] at hcount
    refine Text.split_intercalate hne fun line hline hbreak => hcount ?_
    exact List.mem_flatMap.mpr ⟨line, hline, hbreak⟩

/-! ## Names of attributes -/

section Apply

variable {ε : Type} [LayoutService ε] {e e' : ε} {ps : Parameters} {v : View} {mode : DepthMode}
  {d : Drawing}

theorem size?_isSome {s : Parameters.Sizing} {depth : Nat} {k : String}
    (h : (size? s depth k).isSome) : k ∈ ["fontsize", "width", "height"] := by
  rw [size?] at h
  split at h
  case isTrue hk => simp [hk]
  case isFalse =>
    split at h
    case isTrue hk => simp [hk]
    case isFalse => cases h

/-- A parameter writes the attribute that the last part of its key names, or sizes. -/
theorem getLast?_key_of_write? {p : Parameter} {s : Parameters.Sizing} {owner : AttributeOwner}
    {k : String} (h : (Parameter.write? d s owner k p).isSome) :
    p.key.getLast? = some k ∨ k ∈ ["fontsize", "width", "height"] := by
  have hvalue : ∀ {scope : String}, (p.valueAt? [scope, k]).isSome → p.key.getLast? = some k := by
    intro scope hv
    rw [Parameter.valueAt?] at hv
    split at hv
    case isTrue hkey => rw [hkey]; rfl
    case isFalse => cases hv
  cases owner with
  | graph =>
    rw [Parameter.write?] at h
    split at h
    case isTrue => cases h
    case isFalse => exact Or.inl (hvalue h)
  | nodes => exact Or.inl (hvalue h)
  | edges => exact Or.inl (hvalue h)
  | node i =>
    rw [Parameter.write?] at h
    split at h
    case isTrue => cases h
    case isFalse =>
      split at h
      case isTrue hkey => exact Or.inl (by rw [hkey]; rfl)
      case isFalse =>
        split at h
        case isTrue => exact Or.inr (size?_isSome h)
        case isFalse => cases h

/-- The names of attributes in a drawing are last parts of keys, or sizes. -/
theorem forall_mem_keys_of_apply (h : (ofView v mode).apply ps e = ((d, e'), none)) :
    ∀ k ∈ d.picture.keys, (∃ p ∈ ps.entries, p.key.getLast? = some k) ∨
      k ∈ ["fontsize", "width", "height"] := by
  have hwritten := (apply_eq_ok h).1
  refine forall_mem_keys_picture.mpr fun owner _ a ha => ?_
  have hold : ((ofView v mode).attributes owner).find? a.1 = none := by cases owner <;> rfl
  have hlast := hwritten.find?_attributes owner a.1
  rw [NameMap.find?_eq_some_iff.mpr ha, hold, Option.or_none, eq_comm] at hlast
  obtain ⟨p, hp, hwrite⟩ := List.exists_of_findSome?_eq_some hlast
  have hkey := getLast?_key_of_write? (Option.isSome_of_eq_some hwrite)
  exact hkey.imp_left fun hlast => ⟨p, List.mem_reverse.mp hp, hlast⟩

/-- **Lines after parameters were applied.** A DOT text has one line more than it is made of for
each line break in the name of an attribute. If the last part of no key holds one, every attribute,
node and edge has its own line, whatever characters are in the names of nodes and in values. -/
theorem keepsLines_of_apply (h : (ofView v mode).apply ps e = ((d, e'), none)) :
    (Text.split '\n' d.toDot).length = d.lineCount + Picture.breaks d.picture.allAttrs ∧
      (Picture.breaks d.picture.allAttrs = 0 ↔ ∀ owner, d.Shows owner →
        ∀ a ∈ (d.attributes owner).entries, '\n' ∉ a.1.toList) ∧
      ((∀ p ∈ ps.entries, ∀ k, p.key.getLast? = some k → '\n' ∉ k.toList) →
        Text.split '\n' d.toDot = d.dotLines ∧ d.dotLines.length = d.lineCount) := by
  refine ⟨length_split_toDot d, ?_, fun hkeys => ⟨?_, length_dotLines d⟩⟩
  · rw [Picture.breaks_eq_zero_iff]
    exact forall_mem_keys_picture
  · rw [split_toDot_eq_dotLines_iff, Picture.breaks_eq_zero_iff]
    intro k hk
    rcases forall_mem_keys_of_apply h k hk with ⟨p, hp, hlast⟩ | hsize
    · exact hkeys p hp k hlast
    · simp only [List.mem_cons, List.not_mem_nil, or_false] at hsize
      rcases hsize with rfl | rfl | rfl <;> decide +kernel

end Apply

/-- A text with one parameter, read up to its value. -/
theorem exists_parse_of_keys {s : String} {key : Parameter.Key}
    (h : (Parameters.parse s).toOption.map (fun ps => ps.entries.map Parameter.key) =
      some [key]) : ∃ value, Parameters.parse s = .ok ⟨[⟨key, value⟩]⟩ := by
  cases hs : Parameters.parse s with
  | error fault =>
    rw [hs] at h
    cases h
  | ok ps =>
    rw [hs] at h
    obtain ⟨p, hps, rfl⟩ := List.map_eq_singleton_iff.mp (Option.some.inj h)
    exact ⟨p.value, congrArg Except.ok (congrArg Parameters.mk hps)⟩

/-- A parameter of the graph that is no layout. -/
theorem apply_graph {k : String} (hk : k ≠ "layout") (d : Drawing) (e : LayoutEngine)
    (value : Parameter.Value) :
    d.apply ⟨[⟨["graph", k], value⟩]⟩ e =
      (({ d with graphAttrs := d.graphAttrs.insert k value }, e), none) :=
  applyEntries_cons_eq_ok_iff.mpr ⟨_, e, .graph hk, rfl⟩

theorem breaks_graph (v : View) (mode : DepthMode) (k : String) (value : Parameter.Value) :
    Picture.breaks ({ ofView v mode with
      graphAttrs := (ofView v mode).graphAttrs.insert k value } : Drawing).picture.allAttrs =
      k.toList.count '\n' := by
  have hnodes : ∀ is : List Nat,
      (is.map fun i => (v.graph.name i, Attributes.shown ∅)).flatMap Prod.snd = [] := by
    intro is
    rw [List.flatMap_map, List.flatMap_eq_nil_iff]
    exact fun _ _ => rfl
  have hall : ({ ofView v mode with
      graphAttrs := (ofView v mode).graphAttrs.insert k value } : Drawing).picture.allAttrs =
      [(k, value.display)] :=
    congrArg ([(k, value.display)] ++ ·) (hnodes _)
  rw [hall, Picture.breaks_cons]
  rfl

/-- The value of a label may hold line breaks and quotes. -/
theorem keepsLines_of_apply_label :
    ∃ ps d e, Parameters.parse "\"graph,label\" = \"a\\n\\\"b\"" = .ok ps ∧
      (ofView (Query.view { roots := ["r"] } (.ofCalls Registry.selfCalling))
        .firstPredecessor).apply ps unasked = ((d, e), none) ∧
      Text.split '\n' d.toDot = d.dotLines ∧ d.dotLines.length = d.lineCount := by
  obtain ⟨value, hparse⟩ : ∃ value, Parameters.parse "\"graph,label\" = \"a\\n\\\"b\"" =
      .ok ⟨[⟨["graph", "label"], value⟩]⟩ := exists_parse_of_keys (by decide +kernel)
  have happly := apply_graph (show "label" ≠ "layout" by decide)
    (ofView (Query.view { roots := ["r"] } (.ofCalls Registry.selfCalling)) .firstPredecessor)
    unasked value
  refine ⟨_, _, _, hparse, happly, (keepsLines_of_apply happly).2.2 ?_⟩
  intro p hp k hk
  obtain rfl := List.mem_singleton.mp hp
  obtain rfl := Option.some.inj hk
  decide +kernel

/-- The key of a TOML document holds a line break, and its attribute takes two lines. -/
theorem breaksLines_brokenKey :
    ∃ ps d e, Parameters.parse "\"graph,a\\nb\" = \"x\"" = .ok ps ∧
      (ofView (Query.view { roots := ["r"] } (.ofCalls Registry.selfCalling))
        .firstPredecessor).apply ps unasked = ((d, e), none) ∧
      (Text.split '\n' d.toDot).length = d.lineCount + 1 := by
  obtain ⟨value, hparse⟩ : ∃ value, Parameters.parse "\"graph,a\\nb\" = \"x\"" =
      .ok ⟨[⟨["graph", "a\nb"], value⟩]⟩ := exists_parse_of_keys (by decide +kernel)
  refine ⟨_, _, _, hparse, apply_graph (by decide) _ _ _, ?_⟩
  have hbreaks : "a\nb".toList.count '\n' = 1 := by decide +kernel
  rw [length_split_toDot, breaks_graph, hbreaks]

end Drawing

end CallAtlas
