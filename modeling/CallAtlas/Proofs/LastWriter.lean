import CallAtlas.CallGraph.OfRegistry
import CallAtlas.Drawing.Basic
import CallAtlas.Proofs.InducedSubgraph

/-!
# What parameters do to a drawing

Parameters are applied in order, so an attribute has in the end the value of the last parameter that
gives it one. Two kinds of parameters reach the attributes of a single node: those that name it, and
the one that sizes all nodes by depth. They override each other by their places in the list, while
the settings for sizes are those of the whole list, wherever they stand.

Everything is reduced to one parameter. `Effect` says what a parameter with a key of each form does,
and a list is described by composing its members: the later description wins.

## Main definitions

* `Parameter.valueAt?`, `Parameter.last?` — the value for a key, and the last value of a list
* `Drawing.Effect` — what one parameter does
* `AttributeOwner`, `Drawing.attributes`, `Parameter.write?` — attributes, and who writes them
* `Parameters.settings` — the settings for sizes, read off the list
* `Drawing.IsWrittenBy`, `Asked` — what a list does to a drawing and to the engine

## Main results

* `Drawing.applyEntry_eq_ok_iff` — the form of a parameter that is applied
* `Drawing.IsWrittenBy.cons` — a list is its first member and then the others
* `Parameters.sizing_eq_settings` — settings are read from the whole list
* `Drawing.isWrittenBy_apply` — the last writer wins
-/

namespace CallAtlas

/-! ## The last value -/

namespace Parameter

variable {α : Type}

/-- The value that a parameter gives to a key. -/
def valueAt? (key : Key) (p : Parameter) : Option Value :=
  if p.key = key then some p.value else none

/-- The last value that a list gives, if any of its members gives one. -/
def last? (ps : List Parameter) (value? : Parameter → Option α) : Option α :=
  ps.reverse.findSome? value?

theorem last?_append (ps qs : List Parameter) (value? : Parameter → Option α) :
    last? (ps ++ qs) value? = (last? qs value?).or (last? ps value?) := by
  rw [last?, List.reverse_append, List.findSome?_append]
  rfl

theorem last?_singleton (p : Parameter) (value? : Parameter → Option α) :
    last? [p] value? = value? p := by
  rw [last?, List.reverse_singleton, List.findSome?_singleton]

theorem last?_cons (p : Parameter) (ps : List Parameter) (value? : Parameter → Option α) :
    last? (p :: ps) value? = (last? ps value?).or (value? p) := by
  rw [← List.singleton_append, last?_append, last?_singleton]

theorem last?_eq_none_iff {ps : List Parameter} {value? : Parameter → Option α} :
    last? ps value? = none ↔ ∀ p ∈ ps, value? p = none := by
  rw [last?, List.findSome?_eq_none_iff]
  simp only [List.mem_reverse]

theorem last?_congr {ps : List Parameter} {value? value?' : Parameter → Option α}
    (h : ∀ p ∈ ps, value? p = value?' p) : last? ps value? = last? ps value?' := by
  induction ps with
  | nil => rfl
  | cons p ps ih =>
    rw [last?_cons, last?_cons, h p List.mem_cons_self,
      ih fun q hq => h q (List.mem_cons_of_mem p hq)]

/-- What every member of a list overwrites, if it gives a value, ends up as the last value. -/
theorem foldl_eq_last? {σ : Type} {step : σ → Parameter → σ} {field : σ → α}
    {value? : Parameter → Option α} {ps : List Parameter}
    (hstep : ∀ s, ∀ p ∈ ps, field (step s p) = (value? p).getD (field s)) (s : σ) :
    field (ps.foldl step s) = (last? ps value?).getD (field s) := by
  induction ps generalizing s with
  | nil => rfl
  | cons p ps ih =>
    rw [List.foldl_cons, ih fun s q hq => hstep s q (List.mem_cons_of_mem p hq),
      hstep s p List.mem_cons_self, last?_cons]
    cases last? ps value? <;> rfl

end Parameter

namespace Drawing

open Parameters (Sizing)

variable {ε : Type} [LayoutService ε] {s : Sizing} {p : Parameter} {ps : List Parameter}
  {d d₁ d' : Drawing} {e e₁ e' : ε}

/-! ## One parameter -/

/-- What a parameter does to a drawing and to the engine, by the form of its key. -/
inductive Effect (s : Sizing) (d : Drawing) (e : ε) : Parameter → Drawing → ε → Prop
  | layout {v : Parameter.Value} {e' : ε} (h : LayoutService.layout e d v.display = (e', none)) :
    Effect s d e ⟨["graph", "layout"], v⟩ d e'
  | graph {k : String} {v : Parameter.Value} (h : k ≠ "layout") :
    Effect s d e ⟨["graph", k], v⟩ { d with graphAttrs := d.graphAttrs.insert k v } e
  | nodes {k : String} {v : Parameter.Value} :
    Effect s d e ⟨["node", k], v⟩ { d with nodeDefaults := d.nodeDefaults.insert k v } e
  | edges {k : String} {v : Parameter.Value} :
    Effect s d e ⟨["edge", k], v⟩ { d with edgeDefaults := d.edgeDefaults.insert k v } e
  | node {x k : String} {v : Parameter.Value} {i : Nat} (h : d.graph.find? x = some i) :
    Effect s d e ⟨["node", x, k], v⟩ (d.setNodeAttr i k v) e
  | absent {x k : String} {v : Parameter.Value} (h : d.graph.find? x = none) :
    Effect s d e ⟨["node", x, k], v⟩ d e
  | resize {v : Parameter.Value} (h : s.enabled) :
    Effect s d e ⟨["meta", "node_size_depth"], v⟩ (d.resize s) e
  | setting {k : String} {v : Parameter.Value} (h : ¬ (k = "node_size_depth" ∧ s.enabled)) :
    Effect s d e ⟨["meta", k], v⟩ d e

theorem effect_of_applyEntry (h : applyEntry s p d e = ((d', e'), none)) :
    Effect s d e p d' e' := by
  obtain ⟨key, v⟩ := p
  rw [applyEntry] at h
  split at h
  case h_1 hkey =>
    cases hlayout : LayoutService.layout e d v.display with
    | mk e₁ refused =>
      rw [hlayout] at h
      cases h
      cases hkey
      exact .layout hlayout
  case h_2 hk hkey =>
    cases h
    cases hkey
    exact .graph hk
  case h_3 hkey =>
    cases h
    cases hkey
    exact .nodes
  case h_4 hkey =>
    cases h
    cases hkey
    exact .edges
  case h_5 x k hkey =>
    cases hkey
    split at h
    case h_1 hx =>
      cases h
      exact .node hx
    case h_2 hx =>
      cases h
      exact .absent hx
  case h_6 k hkey =>
    cases hkey
    split at h
    case isTrue hsize =>
      obtain ⟨hk, hs⟩ := Bool.and_eq_true_iff.mp hsize
      cases h
      rw [of_decide_eq_true hk]
      exact .resize hs
    case isFalse hsize =>
      cases h
      exact .setting fun hk => hsize (Bool.and_eq_true_iff.mpr ⟨decide_eq_true hk.1, hk.2⟩)
  case h_7 =>
    split at h <;> cases h

theorem applyEntry_of_effect (h : Effect s d e p d' e') :
    applyEntry s p d e = ((d', e'), none) := by
  cases h with
  | layout h => simp only [applyEntry, h]
  | graph h => simp only [applyEntry]
  | nodes => rfl
  | edges => rfl
  | node h => simp only [applyEntry, h]
  | absent h => simp only [applyEntry, h]
  | resize h => simp only [applyEntry, h, decide_true, Bool.and_true, if_true]
  | setting h => simp [applyEntry, h]

theorem applyEntry_eq_ok_iff : applyEntry s p d e = ((d', e'), none) ↔ Effect s d e p d' e' :=
  ⟨effect_of_applyEntry, applyEntry_of_effect⟩

theorem applyEntries_cons_eq_ok_iff :
    applyEntries s (p :: ps) d e = ((d', e'), none) ↔
      ∃ d₁ e₁, Effect s d e p d₁ e₁ ∧ applyEntries s ps d₁ e₁ = ((d', e'), none) := by
  simp only [← applyEntry_eq_ok_iff]
  rw [applyEntries]
  constructor
  · intro h
    split at h
    case h_1 d₁ e₁ hp => exact ⟨d₁, e₁, hp, h⟩
    case h_2 hp =>
      rw [h] at hp
      exact absurd rfl (hp d' e')
  · rintro ⟨d₁, e₁, hp, h⟩
    rw [hp]
    exact h

end Drawing

/-! ## Attributes -/

/-- What an attribute belongs to: the graph, all nodes, all edges, or one node. -/
inductive AttributeOwner where
  | graph
  | nodes
  | edges
  | node (i : Nat)

namespace Drawing

open Parameters (Sizing)

/-- The attributes that an owner has in a drawing. -/
def attributes (d : Drawing) : AttributeOwner → Attributes
  | .graph => d.graphAttrs
  | .nodes => d.nodeDefaults
  | .edges => d.edgeDefaults
  | .node i => d.nodeAttrs i

/-- The size that a node at some depth gets, if the attribute is a size. -/
def size? (s : Sizing) (depth : Nat) (attr : String) : Option Parameter.Value :=
  if attr = "fontsize" then some (.float (fontSize s depth))
  else if attr = "width" ∨ attr = "height" then some (.float nodeExtent)
  else none

theorem find?_sized (s : Sizing) (depth : Nat) (attrs : Attributes) (k : String) :
    (sized s depth attrs).find? k = (size? s depth k).or (attrs.find? k) := by
  rw [sized, NameMap.find?_insert, NameMap.find?_insert, NameMap.find?_insert, size?]
  by_cases hh : k = "height"
  · simp [hh]
  · by_cases hw : k = "width"
    · simp [hw]
    · by_cases hf : k = "fontsize" <;> simp [hh, hw, hf]

end Drawing

/-- The value that a parameter gives to an attribute. A layout is no attribute, and a node that is
not drawn gets none. -/
def Parameter.write? (d : Drawing) (s : Parameters.Sizing) (owner : AttributeOwner) (k : String)
    (p : Parameter) : Option Parameter.Value :=
  match owner with
  | .graph => if k = "layout" then none else p.valueAt? ["graph", k]
  | .nodes => p.valueAt? ["node", k]
  | .edges => p.valueAt? ["edge", k]
  | .node i =>
    if ¬ d.graph.contains i then none
    else if p.key = ["node", d.graph.name i, k] then some p.value
    else if p.key = ["meta", "node_size_depth"] ∧ s.enabled then
      Drawing.size? s (d.depths.get i) k
    else none

namespace Drawing

open Parameters (Sizing)
open Parameter (last?)

variable {ε : Type} [LayoutService ε] {s : Sizing} {p : Parameter} {ps : List Parameter}
  {d d₁ d' : Drawing} {e e₁ e' : ε}

/-- `d'` is `d` after the parameters `ps`: the last one that writes an attribute wins, and only
attributes change. -/
structure IsWrittenBy (d : Drawing) (s : Sizing) (ps : List Parameter) (d' : Drawing) : Prop where
  graph_eq : d'.graph = d.graph
  roots_eq : d'.roots = d.roots
  depths_eq : d'.depths = d.depths
  find?_attributes : ∀ owner k, (d'.attributes owner).find? k =
    (last? ps (Parameter.write? d s owner k)).or ((d.attributes owner).find? k)

theorem IsWrittenBy.nil (d : Drawing) (s : Sizing) : d.IsWrittenBy s [] d :=
  ⟨rfl, rfl, rfl, fun _ _ => rfl⟩

/-- Who writes an attribute depends only on what no parameter changes. -/
theorem IsWrittenBy.write?_eq (h : d.IsWrittenBy s ps d₁) :
    Parameter.write? d₁ = Parameter.write? d := by
  funext s owner k p
  cases owner <;> simp only [Parameter.write?, h.graph_eq, h.depths_eq]

theorem IsWrittenBy.cons (hp : d.IsWrittenBy s [p] d₁) (hps : d₁.IsWrittenBy s ps d') :
    d.IsWrittenBy s (p :: ps) d' where
  graph_eq := hps.graph_eq.trans hp.graph_eq
  roots_eq := hps.roots_eq.trans hp.roots_eq
  depths_eq := hps.depths_eq.trans hp.depths_eq
  find?_attributes owner k := by
    rw [hps.find?_attributes, hp.find?_attributes, hp.write?_eq, Parameter.last?_singleton,
      Parameter.last?_cons, Option.or_assoc]

theorem find?_insert_eq_or (attrs : Attributes) (k' k : String) (v : Parameter.Value) :
    (attrs.insert k' v).find? k = (if k' = k then some v else none).or (attrs.find? k) := by
  rw [NameMap.find?_insert]
  by_cases hk : k = k'
  · simp [hk]
  · simp [hk, Ne.symm hk]

/-- The attributes after one parameter. -/
theorem Effect.find?_attributes (h : Effect s d e p d' e') (owner : AttributeOwner) (k : String) :
    (d'.attributes owner).find? k =
      (Parameter.write? d s owner k p).or ((d.attributes owner).find? k) := by
  cases h with
  | layout h =>
    cases owner with
    | graph =>
      by_cases hk : k = "layout" <;>
        simp [Parameter.write?, Parameter.valueAt?, hk, eq_comm (b := k)]
    | _ => simp [Parameter.write?, Parameter.valueAt?]
  | @graph k' v h =>
    cases owner with
    | graph =>
      simp only [Parameter.write?, Parameter.valueAt?, attributes, find?_insert_eq_or]
      by_cases hk : k' = k
      · subst hk
        simp [h]
      · simp [hk]
    | _ => simp [Parameter.write?, Parameter.valueAt?, attributes]
  | nodes =>
    cases owner with
    | nodes =>
      simp [Parameter.write?, Parameter.valueAt?, attributes, find?_insert_eq_or,
        -NameMap.find?_insert]
    | _ => simp [Parameter.write?, Parameter.valueAt?, attributes]
  | edges =>
    cases owner with
    | edges =>
      simp [Parameter.write?, Parameter.valueAt?, attributes, find?_insert_eq_or,
        -NameMap.find?_insert]
    | _ => simp [Parameter.write?, Parameter.valueAt?, attributes]
  | @node x k' v i h =>
    cases owner with
    | node j =>
      have hi : d.graph.contains i := CallGraph.contains_of_find? h
      by_cases hji : j = i
      · subst hji
        simp [Parameter.write?, attributes, setNodeAttr, hi, (CallGraph.eq_name_iff h hi).mpr,
          find?_insert_eq_or, -NameMap.find?_insert]
      · by_cases hj : d.graph.contains j <;>
          simp [Parameter.write?, attributes, setNodeAttr, hj, hji, CallGraph.eq_name_iff h]
    | _ => simp [Parameter.write?, Parameter.valueAt?, attributes, setNodeAttr]
  | @absent x k' v h =>
    cases owner with
    | node j =>
      by_cases hj : d.graph.contains j
      · have hx : x ≠ d.graph.name j := by
          rintro rfl
          rw [CallGraph.find?_name hj] at h
          cases h
        simp [Parameter.write?, hj, hx]
      · simp [Parameter.write?, hj]
    | _ => simp [Parameter.write?, Parameter.valueAt?]
  | resize h =>
    cases owner with
    | node j =>
      by_cases hj : d.graph.contains j <;>
        simp [Parameter.write?, attributes, Drawing.resize, hj, find?_sized, h]
    | _ => simp [Parameter.write?, Parameter.valueAt?, attributes, Drawing.resize]
  | setting h => cases owner <;> simp [Parameter.write?, Parameter.valueAt?, h]

theorem Effect.isWrittenBy (h : Effect s d e p d' e') : d.IsWrittenBy s [p] d' where
  graph_eq := by cases h <;> rfl
  roots_eq := by cases h <;> rfl
  depths_eq := by cases h <;> rfl
  find?_attributes owner k := by
    rw [Parameter.last?_singleton]
    exact h.find?_attributes owner k

end Drawing

/-! ## The engine -/

/-- The layout program that a parameter asks for. -/
def Parameter.layout? (p : Parameter) : Option String :=
  (p.valueAt? ["graph", "layout"]).map Value.display

theorem Parameter.layout?_graph {k : String} (hk : k ≠ "layout") (v : Parameter.Value) :
    Parameter.layout? ⟨["graph", k], v⟩ = none := by
  simp [layout?, valueAt?, hk]

/-- `e'` is `e` after it was asked for programs one after the other and refused none. -/
inductive Asked {ε : Type} [LayoutService ε] : ε → List String → ε → Prop
  | nil (e : ε) : Asked e [] e
  | cons {e e₁ e' : ε} {d : Drawing} {program : String} {programs : List String}
      (h : LayoutService.layout e d program = (e₁, none)) (hs : Asked e₁ programs e') :
      Asked e (program :: programs) e'

/-! ## Settings -/

namespace Parameters

open Parameter (last?)

/-- The value that an entry gives to a setting. -/
def setting? (name : String) (p : Parameter) : Option Parameter.Value :=
  p.valueAt? ["meta", name]

/-- Whether an entry switches sizes by depth on or off; what is no switch switches them off. -/
def enables? (p : Parameter) : Option Bool :=
  (setting? "node_size_depth" p).map fun v => v.toBool?.getD false

/-- The number that an entry gives to a setting, if it is one. -/
def number? (name : String) (p : Parameter) : Option Float :=
  (setting? name p).bind (·.toFloat?)

/-- The settings for sizes: each of them is given by the last entry that gives it. -/
def settings (ps : Parameters) : Sizing where
  enabled := (last? ps.entries enables?).getD false
  initialSize := (last? ps.entries (number? "size_depth_init")).getD 20.0
  sizeDelta := (last? ps.entries (number? "size_depth_delta")).getD 2.0

/-- What reading an entry is to give. -/
def Sizing.updatedBy (t : Sizing) (p : Parameter) : Sizing where
  enabled := (enables? p).getD t.enabled
  initialSize := (number? "size_depth_init" p).getD t.initialSize
  sizeDelta := (number? "size_depth_delta" p).getD t.sizeDelta

theorem Sizing.readEntry_meta (t : Sizing) (k : String) (v : Parameter.Value) :
    t.readEntry ⟨["meta", k], v⟩ = t.updatedBy ⟨["meta", k], v⟩ := by
  have hother : ∀ {name}, k ≠ name → setting? name ⟨["meta", k], v⟩ = none := by
    intro name hk
    simp [setting?, Parameter.valueAt?, hk]
  have hsame : setting? k ⟨["meta", k], v⟩ = some v := if_pos rfl
  change t.read k v = _
  rw [read, updatedBy, enables?, number?, number?]
  split
  case isTrue hk =>
    subst hk
    rw [hsame, hother (by decide), hother (by decide)]
    rfl
  case isFalse hk =>
    rw [hother hk]
    split
    case isTrue hk =>
      subst hk
      rw [hsame, hother (by decide)]
      rfl
    case isFalse hk =>
      rw [hother hk]
      split
      case isTrue hk =>
        subst hk
        rw [hsame]
        rfl
      case isFalse hk =>
        rw [hother hk]
        rfl

/-- If reading an entry gives what it is to give, the settings are those of the last entries. -/
theorem sizing_eq_settings {ps : Parameters}
    (hps : ∀ p ∈ ps.entries, ∀ t : Sizing, t.readEntry p = t.updatedBy p) :
    ps.sizing = ps.settings := by
  have hfield : ∀ {α : Type} (field : Sizing → α) (value? : Parameter → Option α),
      (∀ t p, field (Sizing.updatedBy t p) = (value? p).getD (field t)) →
      field ps.sizing = (last? ps.entries value?).getD (field {}) := by
    intro α field value? hf
    have hstep : ∀ t, ∀ p ∈ ps.entries,
        field (Sizing.readEntry t p) = (value? p).getD (field t) := by
      intro t p hp
      rw [hps p hp, hf]
    exact Parameter.foldl_eq_last? hstep {}
  calc ps.sizing = ⟨ps.sizing.enabled, ps.sizing.initialSize, ps.sizing.sizeDelta⟩ := rfl
    _ = ps.settings := by
      rw [hfield Sizing.enabled enables? fun _ _ => rfl,
        hfield Sizing.initialSize (number? "size_depth_init") fun _ _ => rfl,
        hfield Sizing.sizeDelta (number? "size_depth_delta") fun _ _ => rfl]
      rfl

end Parameters

/-! ## Lists of parameters -/

namespace Drawing

open Parameters (Sizing)
open Parameter (last?)

variable {ε : Type} [LayoutService ε] {s : Sizing} {p : Parameter} {ps : List Parameter}
  {d d₁ d' : Drawing} {e e₁ e' : ε}

theorem Effect.readEntry_eq (h : Effect s d e p d' e') (t : Sizing) :
    t.readEntry p = t.updatedBy p := by
  cases h with
  | resize => exact t.readEntry_meta "node_size_depth" _
  | setting => exact t.readEntry_meta _ _
  | _ => rfl

theorem Effect.asked (h : Effect s d e p d₁ e₁)
    (hs : Asked e₁ (ps.filterMap Parameter.layout?) e') :
    Asked e ((p :: ps).filterMap Parameter.layout?) e' := by
  cases h with
  | layout h => exact .cons h hs
  | @graph k v h =>
    rw [List.filterMap_cons_none (Parameter.layout?_graph h v)]
    exact hs
  | _ => exact hs

/-- What a list of parameters does, if every one of them is applied. -/
theorem applyEntries_eq_ok (h : applyEntries s ps d e = ((d', e'), none)) :
    d.IsWrittenBy s ps d' ∧ Asked e (ps.filterMap Parameter.layout?) e' ∧
      ∀ p ∈ ps, ∀ t : Sizing, t.readEntry p = t.updatedBy p := by
  induction ps generalizing d e with
  | nil =>
    cases h
    exact ⟨.nil _ _, .nil _, nofun⟩
  | cons p ps ih =>
    obtain ⟨d₁, e₁, hp, hps⟩ := applyEntries_cons_eq_ok_iff.mp h
    obtain ⟨hwritten, hasked, hread⟩ := ih hps
    exact ⟨hp.isWrittenBy.cons hwritten, hp.asked hasked,
      List.forall_mem_cons.mpr ⟨hp.readEntry_eq, hread⟩⟩

/-- What parameters do, if all of them are applied: settings are read from the whole list. -/
theorem apply_eq_ok {ps : Parameters} (h : d.apply ps e = ((d', e'), none)) :
    d.IsWrittenBy ps.settings ps.entries d' ∧
      Asked e (ps.entries.filterMap Parameter.layout?) e' := by
  obtain ⟨hwritten, hasked, hread⟩ := applyEntries_eq_ok h
  rw [Parameters.sizing_eq_settings hread] at hwritten
  exact ⟨hwritten, hasked⟩

/-- **The last writer wins.** After parameters were applied, every attribute has the value of the
last parameter that gives it one, with the settings for sizes taken from the whole list. The engine
was asked for the layouts in the order of the list, and no layout became an attribute. -/
theorem isWrittenBy_apply {ps : Parameters} (h : d.apply ps e = ((d', e'), none)) :
    d.IsWrittenBy ps.settings ps.entries d' ∧ Asked e (ps.entries.filterMap Parameter.layout?) e' ∧
      d'.graphAttrs.find? "layout" = d.graphAttrs.find? "layout" := by
  obtain ⟨hwritten, hasked⟩ := apply_eq_ok h
  refine ⟨hwritten, hasked, ?_⟩
  have hnone : last? ps.entries (Parameter.write? d ps.settings .graph "layout") = none :=
    Parameter.last?_eq_none_iff.mpr fun p _ => by simp [Parameter.write?]
  have hlayout := hwritten.find?_attributes .graph "layout"
  rw [hnone] at hlayout
  exact hlayout

/-- A root and a node one level below it. -/
def rooted : Drawing where
  graph := (((∅ : CallGraph).addNode (.external "root")).1.addNode (.external "a")).1
  roots := [0]
  depths := ⟨[(0, 0), (1, 1)]⟩

/-- An engine that was not asked for anything yet. -/
def unasked : LayoutEngine where
  format := "svg"

/-- Sizes by depth between the sizes of two nodes, with their settings after them; one setting is no
number, and one node is not drawn. -/
def interleaved : Parameters where
  entries := [
    ⟨["node", "a", "fontsize"], .integer 20⟩,
    ⟨["meta", "node_size_depth"], .bool true⟩,
    ⟨["graph", "layout"], .text "neato"⟩,
    ⟨["node", "root", "fontsize"], .integer 30⟩,
    ⟨["node", "gone", "color"], .text "red"⟩,
    ⟨["meta", "size_depth_init"], .integer 18⟩,
    ⟨["meta", "size_depth_delta"], .text "two"⟩]

theorem isWrittenBy_apply_interleaved :
    ∃ (d : Drawing) (e : LayoutEngine),
      rooted.apply interleaved unasked = ((d, e), none) ∧
      rooted.IsWrittenBy interleaved.settings interleaved.entries d ∧
      Asked unasked ["neato"] e ∧
      (d.nodeAttrs 1).find? "fontsize" = some (.float (fontSize interleaved.settings 1)) ∧
      (d.nodeAttrs 0).find? "fontsize" = some (.integer 30) ∧
      d.graphAttrs.find? "layout" = none := by
  refine ⟨_, _, rfl, ?_⟩
  obtain ⟨hwritten, hasked, hlayout⟩ := isWrittenBy_apply
    (show rooted.apply interleaved unasked = ((_, _), none) from rfl)
  exact ⟨hwritten, hasked, hwritten.find?_attributes (.node 1) "fontsize",
    hwritten.find?_attributes (.node 0) "fontsize", hlayout⟩

end Drawing

end CallAtlas
