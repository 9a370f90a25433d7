import CallAtlas.Drawing.Dot
import CallAtlas.Proofs.DepthZero
import CallAtlas.Proofs.LastWriter
import Mathlib.Data.List.Basic

/-!
# What a DOT text tells of a drawing

A DOT text does not tell everything: the numbers of the nodes, the depths and the types of the
values are left out. A `Picture` is what remains, and the text determines it, provided that the
names of attributes are plain. The names of nodes and the values may hold any characters.

Nothing is parsed for that. Every part of the text is written in a *prefix code*: a text that starts
with one written value starts with no other. Such codes can be put together. A list is read off
value by value as long as what follows it does not itself start with a value, and each list of a DOT
text is followed by something that does not: a closing quote, a bracket, an empty line, the brace.

## Main definitions

* `IsPrefixCode` — values that can be read off the start of a text
* `Picture`, `Drawing.picture` — what a DOT text tells
* `Picture.text` — the text of a picture, part by part
* `Drawing.HasPlainKeys` — names of attributes without special characters

## Main results

* `IsPrefixCode.flatMap_append_inj` — lists of values
* `Drawing.toList_toDot` — the DOT text of a drawing is the text of its picture
* `Picture.eq_of_text_eq` — the text determines the picture
* `Drawing.toDot_eq_iff` — the DOT text determines what is shown
-/

namespace CallAtlas

/-! ## Prefix codes -/

/-- A text that starts with a written value starts with no other one. -/
def IsPrefixCode {α : Type} (ok : α → Prop) (write : α → List Char) : Prop :=
  ∀ a b r s, ok a → ok b → write a ++ r = write b ++ s → a = b ∧ r = s

namespace IsPrefixCode

variable {α β : Type} {ok : α → Prop} {ok' : β → Prop} {write : α → List Char}
  {write' : β → List Char}

theorem singleton (ok : Char → Prop) : IsPrefixCode ok fun c => [c] := by
  intro c c' r s _ _ h
  exact List.cons.inj h

theorem prepend (hw : IsPrefixCode ok write) (before : List Char) :
    IsPrefixCode ok fun a => before ++ write a := by
  intro a b r s ha hb h
  simp only [List.append_assoc, List.append_cancel_left_eq] at h
  exact hw a b r s ha hb h

theorem append (hw : IsPrefixCode ok write) (after : List Char) :
    IsPrefixCode ok fun a => write a ++ after := by
  intro a b r s ha hb h
  simp only [List.append_assoc] at h
  obtain ⟨rfl, hrest⟩ := hw a b _ _ ha hb h
  exact ⟨rfl, List.append_cancel_left hrest⟩

theorem pair (hw : IsPrefixCode ok write) (hw' : IsPrefixCode ok' write') :
    IsPrefixCode (fun p : α × β => ok p.1 ∧ ok' p.2) fun p => write p.1 ++ write' p.2 := by
  rintro ⟨a, b⟩ ⟨a', b'⟩ r s ⟨ha, hb⟩ ⟨ha', hb'⟩ h
  simp only [List.append_assoc] at h
  obtain ⟨rfl, hsecond⟩ := hw a a' _ _ ha ha' h
  obtain ⟨rfl, hrest⟩ := hw' b b' _ _ hb hb' hsecond
  exact ⟨rfl, hrest⟩

/-- A list is read off value by value until no value follows. -/
theorem flatMap_append_inj (hw : IsPrefixCode ok write) {as bs : List α} {r s : List Char}
    (has : ∀ a ∈ as, ok a) (hbs : ∀ b ∈ bs, ok b) (hr : ∀ a, ok a → ¬ write a <+: r)
    (hs : ∀ a, ok a → ¬ write a <+: s) (h : as.flatMap write ++ r = bs.flatMap write ++ s) :
    as = bs ∧ r = s := by
  induction as generalizing bs with
  | nil =>
    cases bs with
    | nil => exact ⟨rfl, h⟩
    | cons b bs =>
      rw [List.flatMap_cons, List.append_assoc] at h
      exact absurd ⟨_, h.symm⟩ (hr b (hbs b List.mem_cons_self))
  | cons a as ih =>
    cases bs with
    | nil =>
      rw [List.flatMap_cons, List.append_assoc] at h
      exact absurd ⟨_, h⟩ (hs a (has a List.mem_cons_self))
    | cons b bs =>
      rw [List.flatMap_cons, List.flatMap_cons, List.append_assoc, List.append_assoc] at h
      obtain ⟨rfl, htail⟩ := hw a b _ _ (has a List.mem_cons_self) (hbs b List.mem_cons_self) h
      obtain ⟨rfl, hrest⟩ := ih (fun x hx => has x (List.mem_cons_of_mem a hx))
        (fun x hx => hbs x (List.mem_cons_of_mem a hx)) htail
      exact ⟨rfl, hrest⟩

end IsPrefixCode

/-! ## Names and values -/

/-- The characters of plain names: ASCII letters, digits and underscores. -/
def IsPlain (c : Char) : Prop :=
  c.isAlphanum ∨ c = '_'

instance : DecidablePred IsPlain :=
  fun c => inferInstanceAs (Decidable (c.isAlphanum ∨ c = '_'))

/-- A name of plain characters only. -/
def IsPlainKey (k : String) : Prop :=
  ∀ c ∈ k.toList, IsPlain c

instance : DecidablePred IsPlainKey :=
  fun k => List.decidableBAll IsPlain k.toList

theorem not_isPlain {c : Char} (hc : c ∈ ['=', ' ']) : ¬ IsPlain c := by
  simp only [List.mem_cons, List.not_mem_nil, or_false] at hc
  rcases hc with rfl | rfl <;> simp [IsPlain]

/-- Two texts with plain beginnings have the same one, up to the first character that is not
plain. -/
theorem plain_append_inj {k l r s : List Char} {c c' : Char} (hk : ∀ x ∈ k, IsPlain x)
    (hl : ∀ x ∈ l, IsPlain x) (hc : ¬ IsPlain c) (hc' : ¬ IsPlain c')
    (h : k ++ c :: r = l ++ c' :: s) : k = l ∧ c :: r = c' :: s := by
  have hstop : ∀ {x : Char} {t : List Char}, ¬ IsPlain x → ∀ a, IsPlain a → ¬ [a] <+: x :: t := by
    intro x t hx a ha hpre
    obtain ⟨rfl, -⟩ := List.cons_prefix_cons.mp hpre
    exact hx ha
  rw [← List.flatMap_singleton' k, ← List.flatMap_singleton' l] at h
  exact (IsPrefixCode.singleton IsPlain).flatMap_append_inj hk hl (hstop hc) (hstop hc') h

namespace Picture

/-- A text in quotes. -/
def quoted (s : String) : List Char :=
  '"' :: (s.toList.flatMap Drawing.dotEscapeChar ++ ['"'])

/-- Replaces a character by a text. -/
def replacing (c : Char) (text : List Char) (s : List Char) : List Char :=
  s.flatMap fun x => if x = c then text else [x]

/-- Escaping can be done in three rounds, backslashes first: a later round leaves alone what an
earlier one has put in. -/
theorem flatMap_dotEscapeChar (s : List Char) :
    s.flatMap Drawing.dotEscapeChar =
      replacing '\n' ['\\', 'n'] (replacing '"' ['\\', '"'] (replacing '\\' ['\\', '\\'] s)) := by
  rw [replacing, replacing, replacing, List.flatMap_assoc, List.flatMap_assoc]
  congr 1
  funext c
  rw [Drawing.dotEscapeChar]
  split
  case isTrue => rfl
  case isFalse hbackslash =>
    split
    case isTrue hquote => subst hquote; rfl
    case isFalse hquote => simp [hquote]

theorem isPrefixCode_dotEscapeChar : IsPrefixCode (fun _ => True) Drawing.dotEscapeChar := by
  intro c c' r s _ _ h
  simp only [Drawing.dotEscapeChar] at h
  grind

/-- No escaped character starts with a quote, so that the first bare quote is the closing one. -/
theorem not_starts_dotEscapeChar (c : Char) (r : List Char) :
    ¬ Drawing.dotEscapeChar c <+: '"' :: r := by
  simp only [Drawing.dotEscapeChar]
  grind

theorem isPrefixCode_quoted : IsPrefixCode (fun _ => True) quoted := by
  intro x y r s _ _ h
  simp only [quoted, List.cons_append, List.append_assoc, List.cons.injEq, true_and,
    List.nil_append] at h
  obtain ⟨hxy, hrest⟩ := isPrefixCode_dotEscapeChar.flatMap_append_inj (fun _ _ => trivial)
    (fun _ _ => trivial) (fun c _ => not_starts_dotEscapeChar c r)
    (fun c _ => not_starts_dotEscapeChar c s) h
  exact ⟨String.toList_injective hxy, (List.cons.inj hrest).2⟩

/-- One attribute. -/
def attr (a : String × String) : List Char :=
  (a.1.toList ++ ['=']) ++ quoted a.2

theorem isPrefixCode_attr : IsPrefixCode (fun a => IsPlainKey a.1) attr := by
  have hkey : IsPrefixCode IsPlainKey fun k => k.toList ++ ['='] := by
    intro k l r s hk hl h
    simp only [List.append_assoc, List.cons_append, List.nil_append] at h
    obtain ⟨hkl, hrest⟩ :=
      plain_append_inj hk hl (not_isPlain (by simp)) (not_isPlain (by simp)) h
    exact ⟨String.toList_injective hkl, (List.cons.inj hrest).2⟩
  intro a b r s ha hb h
  exact hkey.pair isPrefixCode_quoted a b r s ⟨ha, trivial⟩ ⟨hb, trivial⟩ h

/-- Attributes with commas between them. -/
def attrs : List (String × String) → List Char
  | [] => []
  | a :: as => attr a ++ as.flatMap fun b => [',', ' '] ++ attr b

/-- The end of a line that may have a list of attributes in brackets. -/
def bracketed (as : List (String × String)) : List Char :=
  if as = [] then [';', '\n'] else ' ' :: '[' :: (attrs as ++ [']', ';', '\n'])

theorem isPrefixCode_bracketed :
    IsPrefixCode (fun as => ∀ a ∈ as, IsPlainKey a.1) bracketed := by
  intro as bs r s has hbs h
  cases as with
  | nil =>
    cases bs with
    | nil => simpa [bracketed] using h
    | cons b bs => simp [bracketed] at h
  | cons a as =>
    cases bs with
    | nil => simp [bracketed] at h
    | cons b bs =>
      rw [List.forall_mem_cons] at has hbs
      simp only [bracketed, reduceCtorEq, if_false, attrs, List.cons_append, List.append_assoc,
        List.cons.injEq, true_and, List.nil_append] at h
      obtain ⟨rfl, htail⟩ := isPrefixCode_attr a b _ _ has.1 hbs.1 h
      -- after the first attribute a comma leads to the next one, and the bracket ends the list
      have hstop : ∀ (t : List Char) (a : String × String), IsPlainKey a.1 →
          ¬ [',', ' '] ++ attr a <+: ']' :: t := by
        intro t a _ hpre
        simpa using List.cons_prefix_cons.mp hpre
      obtain ⟨rfl, hrest⟩ := (isPrefixCode_attr.prepend [',', ' ']).flatMap_append_inj has.2
        hbs.2 (hstop _) (hstop _) htail
      exact ⟨rfl, by simpa using hrest⟩

/-! ## Lines -/

/-- What every line inside the braces starts with. -/
def indent : List Char :=
  [' ', ' ', ' ', ' ']

/-- The line of an attribute of the graph. -/
def graphLine (a : String × String) : List Char :=
  indent ++ (attr a ++ [';', '\n'])

/-- The line of defaults, if there are any. -/
def defaultsLine (what : String) (as : List (String × String)) : List Char :=
  if as = [] then [] else indent ++ what.toList ++ bracketed as

/-- The line of a node. -/
def nodeLine (n : String × List (String × String)) : List Char :=
  indent ++ (quoted n.1 ++ bracketed n.2)

/-- The line of an edge. -/
def edgeLine (e : String × String) : List Char :=
  indent ++ ((quoted e.1 ++ [' ', '-', '>', ' ']) ++ (quoted e.2 ++ [';', '\n']))

theorem isPrefixCode_graphLine : IsPrefixCode (fun a => IsPlainKey a.1) graphLine :=
  (isPrefixCode_attr.append _).prepend _

theorem isPrefixCode_nodeLine :
    IsPrefixCode (fun n => True ∧ ∀ a ∈ n.2, IsPlainKey a.1) nodeLine :=
  (isPrefixCode_quoted.pair isPrefixCode_bracketed).prepend _

theorem isPrefixCode_edgeLine : IsPrefixCode (fun _ => True ∧ True) edgeLine :=
  ((isPrefixCode_quoted.append _).pair (isPrefixCode_quoted.append _)).prepend _

/-- Defaults are read off if the next line does not set the same defaults. -/
theorem defaultsLine_append_inj {what : String} {as bs : List (String × String)} {r s : List Char}
    (has : ∀ a ∈ as, IsPlainKey a.1) (hbs : ∀ b ∈ bs, IsPlainKey b.1)
    (hr : ¬ indent ++ what.toList <+: r) (hs : ¬ indent ++ what.toList <+: s)
    (h : defaultsLine what as ++ r = defaultsLine what bs ++ s) : as = bs ∧ r = s := by
  rw [defaultsLine, defaultsLine] at h
  split at h
  case isTrue ha =>
    split at h
    case isTrue hb => exact ⟨ha.trans hb.symm, h⟩
    case isFalse => exact absurd ⟨_, by rw [← List.append_assoc, ← h]; rfl⟩ hr
  case isFalse =>
    split at h
    case isTrue => exact absurd ⟨_, by rw [← List.append_assoc, h]; rfl⟩ hs
    case isFalse =>
      rw [List.append_assoc, List.append_assoc (indent ++ what.toList)] at h
      exact isPrefixCode_bracketed as bs r s has hbs (List.append_cancel_left h)

theorem not_starts_indent {c : Char} (hc : c ≠ ' ') (t r : List Char) :
    ¬ indent ++ t <+: c :: r := by
  intro hpre
  exact hc (List.cons_prefix_cons.mp hpre).1.symm

/-- A line of defaults has a blank where the line of an attribute of the graph has `=`. -/
theorem not_starts_graphLine {what : String} {as : List (String × String)} {a : String × String}
    {r : List Char} (hwhat : IsPlainKey what) (ha : IsPlainKey a.1) (hr : ¬ graphLine a <+: r) :
    ¬ graphLine a <+: defaultsLine what as ++ r := by
  rw [defaultsLine]
  split
  case isTrue => exact hr
  case isFalse has =>
    rintro ⟨t, ht⟩
    simp only [graphLine, attr, bracketed, if_neg has, List.append_assoc, List.cons_append,
      List.nil_append] at ht
    have hinj := plain_append_inj ha hwhat (not_isPlain (by simp)) (not_isPlain (by simp))
      (List.append_cancel_left ht)
    simp at hinj

theorem not_starts_node (as : List (String × String)) (r : List Char) :
    ¬ indent ++ "node".toList <+: defaultsLine "edge" as ++ '\n' :: r := by
  rw [defaultsLine]
  split
  case isTrue => exact not_starts_indent (by decide) _ _
  case isFalse => simp [List.prefix_append_right_inj]

end Picture

/-! ## Pictures -/

/-- What a DOT text tells: attributes with the texts of their values, nodes in the order of drawing
with their own attributes, and edges, all by name. -/
structure Picture where
  graphAttrs : List (String × String)
  nodeDefaults : List (String × String)
  edgeDefaults : List (String × String)
  nodes : List (String × List (String × String))
  edges : List (String × String)
deriving DecidableEq, Repr

namespace Picture

variable {p q : Picture}

/-- The first line. -/
def header : List Char :=
  "digraph CallGraph \x7b".toList

/-- The text of a picture. -/
def text (p : Picture) : List Char :=
  header ++ '\n' :: (p.graphAttrs.flatMap graphLine ++
    (defaultsLine "node" p.nodeDefaults ++ (defaultsLine "edge" p.edgeDefaults ++
      '\n' :: (p.nodes.flatMap nodeLine ++ '\n' :: (p.edges.flatMap edgeLine ++ ['\x7d'])))))

/-- All attributes that are shown. -/
def allAttrs (p : Picture) : List (String × String) :=
  p.graphAttrs ++ p.nodeDefaults ++ p.edgeDefaults ++ p.nodes.flatMap Prod.snd

/-- The names of all attributes that are shown. -/
def keys (p : Picture) : List String :=
  p.allAttrs.map Prod.fst

theorem forall_mem_keys {P : String → Prop} :
    (∀ k ∈ p.keys, P k) ↔ (∀ a ∈ p.graphAttrs, P a.1) ∧ (∀ a ∈ p.nodeDefaults, P a.1) ∧
      (∀ a ∈ p.edgeDefaults, P a.1) ∧ ∀ n ∈ p.nodes, ∀ a ∈ n.2, P a.1 := by
  simp only [keys, allAttrs, List.forall_mem_map, List.forall_mem_append, List.forall_mem_flatMap,
    and_assoc]

/-- Where the attributes of the graph end, no line of them follows. -/
theorem not_starts_graphLine_defaults {a : String × String} (ha : IsPlainKey a.1)
    (as bs : List (String × String)) (r : List Char) :
    ¬ graphLine a <+: defaultsLine "node" as ++ (defaultsLine "edge" bs ++ '\n' :: r) := by
  have hnode : IsPlainKey "node" := by decide +kernel
  have hedge : IsPlainKey "edge" := by decide +kernel
  exact not_starts_graphLine hnode ha
    (not_starts_graphLine hedge ha (not_starts_indent (by decide) _ _))

theorem eq_of_text_eq (hp : ∀ k ∈ p.keys, IsPlainKey k) (hq : ∀ k ∈ q.keys, IsPlainKey k)
    (h : p.text = q.text) : p = q := by
  obtain ⟨hp₁, hp₂, hp₃, hp₄⟩ := forall_mem_keys.mp hp
  obtain ⟨hq₁, hq₂, hq₃, hq₄⟩ := forall_mem_keys.mp hq
  -- the parts are read off one after the other, each up to the place where it cannot go on
  obtain ⟨hgraph, h₁⟩ := isPrefixCode_graphLine.flatMap_append_inj hp₁ hq₁
    (fun a ha => not_starts_graphLine_defaults ha _ _ _)
    (fun a ha => not_starts_graphLine_defaults ha _ _ _)
    (List.cons.inj (List.append_cancel_left h)).2
  obtain ⟨hnodes, h₂⟩ := defaultsLine_append_inj hp₂ hq₂ (not_starts_node _ _)
    (not_starts_node _ _) h₁
  obtain ⟨hedges, h₃⟩ := defaultsLine_append_inj hp₃ hq₃
    (not_starts_indent (by decide) _ _) (not_starts_indent (by decide) _ _) h₂
  obtain ⟨hnode, h₄⟩ := isPrefixCode_nodeLine.flatMap_append_inj
    (fun n hn => ⟨trivial, hp₄ n hn⟩) (fun n hn => ⟨trivial, hq₄ n hn⟩)
    (fun n _ => not_starts_indent (by decide) _ _)
    (fun n _ => not_starts_indent (by decide) _ _) (List.cons.inj h₃).2
  obtain ⟨hedge, -⟩ := isPrefixCode_edgeLine.flatMap_append_inj
    (fun _ _ => ⟨trivial, trivial⟩) (fun _ _ => ⟨trivial, trivial⟩)
    (fun e _ => not_starts_indent (by decide) _ _)
    (fun e _ => not_starts_indent (by decide) _ _) (List.cons.inj h₄).2
  cases p
  cases q
  simp only [mk.injEq]
  exact ⟨hgraph, hnodes, hedges, hnode, hedge⟩

end Picture

/-! ## The picture of a drawing -/

/-- Attributes as they are shown: by name, with the texts of the values. -/
def Attributes.shown (attrs : Attributes) : List (String × String) :=
  attrs.entries.map fun a => (a.1, a.2.display)

namespace Drawing

variable {d d' : Drawing}

/-- What the DOT text of a drawing tells. -/
def picture (d : Drawing) : Picture where
  graphAttrs := d.graphAttrs.shown
  nodeDefaults := d.nodeDefaults.shown
  edgeDefaults := d.edgeDefaults.shown
  nodes := d.displayOrder.map fun i => (d.graph.name i, (d.nodeAttrs i).shown)
  edges := d.graph.edgePairs.map fun e => (d.graph.name e.1, d.graph.name e.2)

theorem shown_eq_nil_iff {attrs : Attributes} : attrs.shown = [] ↔ attrs.isEmpty := by
  rw [Attributes.shown, List.map_eq_nil_iff, NameMap.isEmpty, List.isEmpty_iff]

theorem toList_dotQuote (s : String) : (dotQuote s).toList = Picture.quoted s := by
  simp [dotQuote, dotEscape, Picture.quoted]

theorem toList_dotAttr (a : String × Parameter.Value) :
    (dotAttr a).toList = Picture.attr (a.1, a.2.display) := by
  simp [dotAttr, Picture.attr, toList_dotQuote]

theorem toList_dotAttrs (attrs : Attributes) :
    (dotAttrs attrs).toList = Picture.attrs attrs.shown := by
  rw [dotAttrs, Attributes.shown]
  cases attrs.entries with
  | nil => rfl
  | cons a as =>
    have htail : ∀ (a : String × Parameter.Value) (as : List (String × Parameter.Value)),
        (", ".intercalate (dotAttr a :: as.map dotAttr)).toList =
          Picture.attr (a.1, a.2.display) ++
            as.flatMap fun b => [',', ' '] ++ Picture.attr (b.1, b.2.display) := by
      intro a as
      induction as generalizing a with
      | nil => simp [toList_dotAttr]
      | cons b as ih =>
        rw [List.map_cons, String.intercalate_cons_cons, String.toList_append,
          String.toList_append, ih, toList_dotAttr]
        simp
    rw [List.map_cons, htail, List.map_cons, Picture.attrs, List.flatMap_map]

/-- A text with a last line, line by line. -/
theorem toList_intercalate_concat (lines : List String) (last : String) :
    ("\n".intercalate (lines ++ [last])).toList =
      lines.flatMap (fun line => line.toList ++ ['\n']) ++ last.toList := by
  induction lines with
  | nil => simp
  | cons line lines ih =>
    rw [List.cons_append, String.intercalate_cons_of_ne_nil (by simp), String.toList_append,
      String.toList_append, ih]
    simp

theorem toList_dotDefaults (what : String) (attrs : Attributes) :
    (dotDefaults what attrs).flatMap (fun line => line.toList ++ ['\n']) =
      Picture.defaultsLine what attrs.shown := by
  rw [dotDefaults, Picture.defaultsLine]
  by_cases h : attrs.isEmpty
  · rw [if_pos h, if_pos (shown_eq_nil_iff.mpr h)]
    rfl
  · rw [if_neg h, if_neg (mt shown_eq_nil_iff.mp h), Picture.bracketed,
      if_neg (mt shown_eq_nil_iff.mp h)]
    simp [toList_dotAttrs, Picture.indent]

theorem toList_dotNode (d : Drawing) (i : Nat) :
    (d.dotNode i).toList ++ ['\n'] =
      Picture.nodeLine (d.graph.name i, (d.nodeAttrs i).shown) := by
  rw [dotNode, Picture.nodeLine, Picture.bracketed]
  by_cases h : (d.nodeAttrs i).isEmpty
  · rw [if_pos h, if_pos (shown_eq_nil_iff.mpr h)]
    simp [toList_dotQuote, Picture.indent]
  · rw [if_neg h, if_neg (mt shown_eq_nil_iff.mp h)]
    simp [toList_dotQuote, toList_dotAttrs, Picture.indent]

theorem toList_dotEdge (d : Drawing) (e : Nat × Nat) :
    (d.dotEdge e).toList ++ ['\n'] = Picture.edgeLine (d.graph.name e.1, d.graph.name e.2) := by
  simp [dotEdge, Picture.edgeLine, toList_dotQuote, Picture.indent]

/-- The DOT text of a drawing is the text of its picture. -/
theorem toList_toDot (d : Drawing) : d.toDot.toList = d.picture.text := by
  have hheader : "digraph CallGraph \x7b".toList = Picture.header := rfl
  have hbrace : "\x7d".toList = ['\x7d'] := by simp
  have hgraph : ∀ a : String × Parameter.Value, ("    " ++ dotAttr a ++ ";").toList ++ ['\n'] =
      Picture.graphLine (a.1, a.2.display) := by
    intro a
    simp [toList_dotAttr, Picture.graphLine, Picture.indent]
  have hshown : d.graphAttrs.shown.flatMap Picture.graphLine =
      d.graphAttrs.entries.flatMap fun a => Picture.graphLine (a.1, a.2.display) :=
    List.flatMap_map _ _ _
  rw [toDot, dotLines, toList_intercalate_concat, Picture.text, picture]
  simp only [List.flatMap_append, List.flatMap_map, List.flatMap_singleton, toList_dotDefaults,
    hgraph, hshown, toList_dotNode, toList_dotEdge, hheader, hbrace, String.toList_empty]
  simp only [List.append_assoc, List.cons_append, List.nil_append]

/-- Whether the attributes of an owner are shown; those of a node that is not drawn are not. -/
def Shows (d : Drawing) : AttributeOwner → Prop
  | .node i => d.graph.contains i
  | _ => True

theorem forall_mem_keys_picture {P : String → Prop} :
    (∀ k ∈ d.picture.keys, P k) ↔
      ∀ owner, d.Shows owner → ∀ a ∈ (d.attributes owner).entries, P a.1 := by
  rw [Picture.forall_mem_keys]
  constructor
  · rintro ⟨hgraph, hnodes, hedges, hnode⟩ owner howner a ha
    cases owner with
    | graph => exact hgraph _ (List.mem_map_of_mem ha)
    | nodes => exact hnodes _ (List.mem_map_of_mem ha)
    | edges => exact hedges _ (List.mem_map_of_mem ha)
    | node i =>
      exact hnode _ (List.mem_map_of_mem (Depths.mem_displayOrder.mpr howner)) _
        (List.mem_map_of_mem ha)
  · intro h
    refine ⟨List.forall_mem_map.mpr (h .graph trivial), List.forall_mem_map.mpr (h .nodes trivial),
      List.forall_mem_map.mpr (h .edges trivial), List.forall_mem_map.mpr fun i hi => ?_⟩
    exact List.forall_mem_map.mpr (h (.node i) (Depths.mem_displayOrder.mp hi))

/-- The names of all attributes that are shown are plain. -/
def HasPlainKeys (d : Drawing) : Prop :=
  ∀ owner, d.Shows owner → ∀ a ∈ (d.attributes owner).entries, IsPlainKey a.1

/-- **A DOT text determines what it shows**, if the names of attributes are plain. The names of
nodes and the values may be any texts. -/
theorem toDot_eq_iff (hd : d.HasPlainKeys) (hd' : d'.HasPlainKeys) :
    d.toDot = d'.toDot ↔ d.picture = d'.picture := by
  rw [← String.toList_inj, toList_toDot, toList_toDot]
  constructor
  · exact Picture.eq_of_text_eq (forall_mem_keys_picture.mpr hd) (forall_mem_keys_picture.mpr hd')
  · exact congrArg Picture.text

/-- One attribute of the graph, whose value looks like the end of its line and another one. -/
def feigned : Drawing :=
  { rooted with graphAttrs := .ofList [("label", .text "x\";\n    size=\"1")] }

/-- Two attributes of the graph. -/
def twofold : Drawing :=
  { rooted with graphAttrs := .ofList [("label", .text "x"), ("size", .integer 1)] }

theorem toDot_eq_iff_feigned :
    feigned.HasPlainKeys ∧ twofold.HasPlainKeys ∧ feigned.picture ≠ twofold.picture ∧
      feigned.toDot ≠ twofold.toDot := by
  have hfeigned : feigned.HasPlainKeys := by
    intro owner _
    cases owner with
    | graph => decide +kernel
    | _ => exact nofun
  have htwofold : twofold.HasPlainKeys := by
    intro owner _
    cases owner with
    | graph => decide +kernel
    | _ => exact nofun
  have hpicture : feigned.picture ≠ twofold.picture := by
    intro h
    have hlength : feigned.picture.graphAttrs.length = twofold.picture.graphAttrs.length := by
      rw [h]
    exact absurd hlength (by decide +kernel)
  exact ⟨hfeigned, htwofold, hpicture, mt (toDot_eq_iff hfeigned htwofold).mp hpicture⟩

end Drawing

end CallAtlas
