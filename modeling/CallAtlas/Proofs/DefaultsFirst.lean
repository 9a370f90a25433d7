import CallAtlas.Proofs.KeyedLists
import CallAtlas.Proofs.LastWriter
import Mathlib.Data.List.Nodup

/-!
# Defaults before overrides

Overrides can be added to defaults in two ways: both are merged into one list, or the defaults are
applied first and the overrides after them. A merge is not a concatenation. An override of a default
takes the default's place, before everything that stands between them, and the default itself is
never applied.

This makes no difference if the defaults are *general*, that is, about the graph, all nodes or all
edges. Whatever a general key writes is written by no other key, so that its place in a list does
not matter. The parameters whose order matters, for single nodes and for sizes, keep their order.

Whether a list is applied at all depends on none of this: a parameter is refused for its key and
value alone, and a merge holds every override.

## Main definitions

* `Parameter.fault?` — why a parameter is refused
* `Parameter.Key.IsGeneral` — keys that are not about single nodes or settings
* `Parameter.Movable` — what is written by a key alone, or not by that key
* `Drawing.SameOutcome` — runs with the same success, drawing and program

## Main results

* `Drawing.applyEntries_snd` — the first refused parameter is the error of a list
* `Parameters.mem_mergedWith`, `Parameters.last?_mergedWith` — the laws of merging
* `Drawing.sameOutcome_mergedWith` — general parameters can be merged or applied first
* `Drawing.sameOutcome_defaults` — so can the defaults
-/

namespace CallAtlas

/-! ## Refused parameters -/

namespace Parameter

/-- The numbers of parts that keys of a scope can have. -/
def arities (scope : String) : List Nat :=
  if scope = "node" then [2, 3] else if Drawing.scopes.contains scope then [2] else []

/-- The forms that the arities allow. -/
theorem key_cases_of_arity {p : Parameter} (h : p.key.length ∈ arities p.scope) :
    (∃ k, p.key = ["graph", k]) ∨ (∃ k, p.key = ["node", k]) ∨ (∃ k, p.key = ["edge", k]) ∨
      (∃ x k, p.key = ["node", x, k]) ∨ ∃ k, p.key = ["meta", k] := by
  obtain ⟨key, v⟩ := p
  cases key with
  | nil => simp [arities, scope, Drawing.scopes] at h
  | cons scope parts =>
    change parts.length + 1 ∈ arities scope at h
    rw [arities] at h
    split at h
    case isTrue hnode =>
      subst hnode
      have hlength : parts.length = 1 ∨ parts.length = 2 := by simpa using h
      rcases hlength with hone | htwo
      · obtain ⟨k, rfl⟩ := List.length_eq_one_iff.mp hone
        exact .inr (.inl ⟨k, rfl⟩)
      · obtain ⟨x, k, rfl⟩ := List.length_eq_two.mp htwo
        exact .inr (.inr (.inr (.inl ⟨x, k, rfl⟩)))
    case isFalse hnode =>
      split at h
      case isTrue hscope =>
        have hlength : parts.length = 1 := by simpa using h
        obtain ⟨k, rfl⟩ := List.length_eq_one_iff.mp hlength
        have hcases : scope = "graph" ∨ scope = "edge" ∨ scope = "meta" := by
          simpa [Drawing.scopes, hnode] using hscope
        rcases hcases with rfl | rfl | rfl
        · exact .inl ⟨k, rfl⟩
        · exact .inr (.inr (.inl ⟨k, rfl⟩))
        · exact .inr (.inr (.inr (.inr ⟨k, rfl⟩)))
      case isFalse => cases h

/-- Why a parameter is refused, if it is. -/
def fault? (p : Parameter) : Option Error :=
  if p.scope ∉ Drawing.scopes then some (.unknownScope p.key)
  else if p.key.length ∉ arities p.scope then some (.malformedKey p.key)
  else p.layout?.bind fun program =>
    if layoutPrograms.contains program then none else some (.unknownLayout program)

end Parameter

namespace Drawing

open Parameters (Sizing)

/-- Neither the drawing nor the engine has a say in whether a parameter is refused. -/
theorem applyEntry_snd (s : Sizing) (p : Parameter) (d : Drawing) (e : LayoutEngine) :
    (applyEntry s p d e).2 = p.fault? := by
  obtain ⟨key, v⟩ := p
  rw [applyEntry]
  split
  case h_1 hkey =>
    cases hkey
    change (e.request v.display).2 = if layoutPrograms.contains v.display then none else _
    rw [LayoutEngine.request]
    split <;> rfl
  case h_2 k hk hkey =>
    cases hkey
    simp [Parameter.fault?, Parameter.layout?_graph hk, Parameter.scope, scopes,
      Parameter.arities]
  case h_3 hkey =>
    cases hkey
    rfl
  case h_4 hkey =>
    cases hkey
    rfl
  case h_5 hkey =>
    cases hkey
    split <;> rfl
  case h_6 hkey =>
    cases hkey
    split <;> rfl
  case h_7 _ hgraph hnode hedge hnamed hmeta =>
    -- a key of none of these forms has the wrong number of parts
    have harity : key.length ∉ Parameter.arities (Parameter.scope ⟨key, v⟩) := by
      intro harity
      obtain ⟨k, h⟩ | ⟨k, h⟩ | ⟨k, h⟩ | ⟨x, k, h⟩ | ⟨k, h⟩ := Parameter.key_cases_of_arity harity
      · exact hgraph k h
      · exact hnode k h
      · exact hedge k h
      · exact hnamed x k h
      · exact hmeta k h
    by_cases hscope : Parameter.scope ⟨key, v⟩ ∈ scopes <;>
      simp [Parameter.fault?, hscope, harity]

theorem applyEntries_snd (s : Sizing) (ps : List Parameter) (d : Drawing) (e : LayoutEngine) :
    (applyEntries s ps d e).2 = ps.findSome? Parameter.fault? := by
  induction ps generalizing d e with
  | nil => rfl
  | cons p ps ih =>
    rw [List.findSome?_cons, ← applyEntry_snd s p d e, applyEntries]
    split
    case h_1 d₁ e₁ hp => rw [hp, ih]
    case h_2 hp =>
      cases hr : (applyEntry s p d e).2 with
      | none => exact (hp _ _ (Prod.ext rfl hr)).elim
      | some error => rfl

theorem apply_snd_eq_none_iff {ps : Parameters} {d : Drawing} {e : LayoutEngine} :
    (d.apply ps e).2 = none ↔ ∀ p ∈ ps.entries, p.fault? = none := by
  rw [apply, applyEntries_snd, List.findSome?_eq_none_iff]

end Drawing

/-! ## Merging -/

namespace Parameter

variable {α β : Type}

/-- A parameter with this key can change its place without an effect on the last value: either it
gives none, or no parameter with another key does. -/
def Movable (value? : Parameter → Option α) (key : Key) : Prop :=
  (∀ p, p.key = key → value? p = none) ∨ ∀ p, (value? p).isSome ↔ p.key = key

theorem movable_valueAt? (key key' : Key) : Movable (valueAt? key) key' := by
  by_cases hkey : key = key'
  · right
    intro p
    by_cases hp : p.key = key' <;> simp [valueAt?, hkey, hp]
  · left
    intro p hp
    exact if_neg fun h => hkey (h.symm.trans hp)

theorem Movable.map {value? : Parameter → Option α} {key : Key} (h : Movable value? key)
    (f : α → β) : Movable (fun p => (value? p).map f) key := by
  rcases h with h | h
  · exact .inl fun p hp => Option.map_eq_none_iff.mpr (h p hp)
  · exact .inr fun p => by rw [Option.isSome_map, h p]

end Parameter

namespace Parameters

open Parameter (last? Movable)

variable {α : Type} {value? : Parameter → Option α} {p q : Parameter} {es us : List Parameter}

theorem setEntry_cons_of_key_eq {e : Parameter} (h : e.key = p.key) :
    setEntry p (e :: es) = p :: es := by
  rw [setEntry, if_pos h, h]

theorem setEntry_cons_of_key_ne {e : Parameter} (h : e.key ≠ p.key) :
    setEntry p (e :: es) = e :: setEntry p es := by
  rw [setEntry, if_neg h]

theorem setEntry_eq_upsertBy (p : Parameter) (es : List Parameter) :
    setEntry p es = upsertBy Parameter.key p es := by
  induction es with
  | nil => rfl
  | cons e es ih =>
    by_cases he : e.key = p.key
    · rw [setEntry_cons_of_key_eq he, upsertBy_cons_of_eq he]
    · rw [setEntry_cons_of_key_ne he, upsertBy_cons_of_ne he, ih]

theorem mem_keys_setEntry {key : Parameter.Key} :
    key ∈ (setEntry p es).map Parameter.key ↔ key = p.key ∨ key ∈ es.map Parameter.key := by
  rw [setEntry_eq_upsertBy, mem_map_upsertBy]

theorem nodup_setEntry (hes : (es.map Parameter.key).Nodup) :
    ((setEntry p es).map Parameter.key).Nodup := by
  rw [setEntry_eq_upsertBy]
  exact nodup_map_upsertBy hes

theorem key_ne_of_nodup {e : Parameter} (hes : ((e :: es).map Parameter.key).Nodup)
    (hq : q ∈ es) : q.key ≠ e.key := by
  intro hkey
  rw [List.map_cons, List.nodup_cons] at hes
  exact hes.1 (hkey ▸ List.mem_map_of_mem hq)

theorem mem_setEntry (hes : (es.map Parameter.key).Nodup) :
    q ∈ setEntry p es ↔ q = p ∨ q ∈ es ∧ q.key ≠ p.key := by
  induction es with
  | nil => simp [setEntry]
  | cons e es ih =>
    by_cases he : e.key = p.key
    · have hq : q ∈ es → q.key ≠ p.key := he ▸ key_ne_of_nodup hes
      rw [setEntry_cons_of_key_eq he]
      grind
    · rw [setEntry_cons_of_key_ne he, List.mem_cons, ih (List.nodup_cons.mp hes).2]
      grind

/-- A parameter that is set has the last say, whatever place it gets. -/
theorem last?_setEntry (hes : (es.map Parameter.key).Nodup)
    (hp : p.key ∈ es.map Parameter.key → Movable value? p.key) :
    last? (setEntry p es) value? = (value? p).or (last? es value?) := by
  induction es with
  | nil => exact (Parameter.last?_singleton p value?).trans (Option.or_none).symm
  | cons e es ih =>
    by_cases he : e.key = p.key
    · rw [setEntry_cons_of_key_eq he, Parameter.last?_cons, Parameter.last?_cons]
      rcases hp (he ▸ List.mem_cons_self) with hnone | hsome
      · rw [hnone p rfl, hnone e he, Option.none_or]
      · have hes' : last? es value? = none := by
          refine Parameter.last?_eq_none_iff.mpr fun q hq => ?_
          rw [← Option.not_isSome_iff_eq_none, hsome q]
          exact he ▸ key_ne_of_nodup hes hq
        obtain ⟨v, hv⟩ := Option.isSome_iff_exists.mp ((hsome p).mpr rfl)
        rw [hes', hv, Option.none_or, Option.some_or]
    · rw [setEntry_cons_of_key_ne he, Parameter.last?_cons, Parameter.last?_cons,
        ih (List.nodup_cons.mp hes).2 fun h => hp (List.mem_cons_of_mem _ h), Option.or_assoc]

theorem entries_mergedWith (base user : Parameters) :
    (base.mergedWith user).entries =
      user.entries.foldl (fun es p => setEntry p es) base.entries :=
  (List.foldl_hom Parameters.entries fun _ _ => rfl).symm

theorem mem_foldl_setEntry (hes : (es.map Parameter.key).Nodup)
    (hus : (us.map Parameter.key).Nodup) :
    q ∈ us.foldl (fun es p => setEntry p es) es ↔
      q ∈ us ∨ q ∈ es ∧ q.key ∉ us.map Parameter.key := by
  induction us generalizing es with
  | nil => simp
  | cons p us ih =>
    rw [List.map_cons, List.nodup_cons] at hus
    rw [List.foldl_cons, ih (nodup_setEntry hes) hus.2, mem_setEntry hes, List.map_cons]
    grind

/-- Only the keys that are in both lists have to be movable: what is appended is not set again. -/
theorem last?_foldl_setEntry (hes : (es.map Parameter.key).Nodup)
    (hus : (us.map Parameter.key).Nodup)
    (hmovable : ∀ p ∈ us, p.key ∈ es.map Parameter.key → Movable value? p.key) :
    last? (us.foldl (fun es p => setEntry p es) es) value? =
      (last? us value?).or (last? es value?) := by
  induction us generalizing es with
  | nil => rfl
  | cons p us ih =>
    rw [List.map_cons, List.nodup_cons] at hus
    have hrest : ∀ q ∈ us, q.key ∈ (setEntry p es).map Parameter.key → Movable value? q.key := by
      intro q hq hkey
      rcases mem_keys_setEntry.mp hkey with hqp | hold
      · exact absurd (hqp ▸ List.mem_map_of_mem hq) hus.1
      · exact hmovable q (List.mem_cons_of_mem p hq) hold
    rw [List.foldl_cons, ih (nodup_setEntry hes) hus.2 hrest,
      last?_setEntry hes (hmovable p List.mem_cons_self), Parameter.last?_cons, Option.or_assoc]

variable {base user : Parameters}

theorem mem_mergedWith (hbase : (base.entries.map Parameter.key).Nodup)
    (huser : (user.entries.map Parameter.key).Nodup) :
    q ∈ (base.mergedWith user).entries ↔
      q ∈ user.entries ∨ q ∈ base.entries ∧ q.key ∉ user.entries.map Parameter.key := by
  rw [entries_mergedWith, mem_foldl_setEntry hbase huser]

theorem last?_mergedWith (hbase : (base.entries.map Parameter.key).Nodup)
    (huser : (user.entries.map Parameter.key).Nodup)
    (hmovable : ∀ p ∈ base.entries, Movable value? p.key) :
    last? (base.mergedWith user).entries value? =
      (last? user.entries value?).or (last? base.entries value?) := by
  rw [entries_mergedWith]
  refine last?_foldl_setEntry hbase huser fun p _ hp => ?_
  obtain ⟨q, hq, hkey⟩ := List.mem_map.mp hp
  exact hkey ▸ hmovable q hq

end Parameters

/-! ## General parameters -/

/-- A key of the graph, of all nodes or of all edges: two parts, and no setting. -/
def Parameter.Key.IsGeneral : Parameter.Key → Prop
  | [scope, _] => scope ≠ "meta"
  | _ => False

namespace Parameter

variable {p : Parameter} {d : Drawing} {s : Parameters.Sizing}

theorem setting?_eq_none (hp : p.key.IsGeneral) (name : String) :
    Parameters.setting? name p = none := by
  refine if_neg fun hkey => ?_
  rw [hkey] at hp
  exact hp rfl

theorem write?_node_eq_none (hp : p.key.IsGeneral) (i : Nat) (k : String) :
    write? d s (.node i) k p = none := by
  have hnamed : p.key ≠ ["node", d.graph.name i, k] := by
    intro hkey
    rw [hkey] at hp
    exact hp
  have hsize : p.key ≠ ["meta", "node_size_depth"] := by
    intro hkey
    rw [hkey] at hp
    exact hp rfl
  simp [write?, hnamed, hsize]

/-- What a general parameter writes does not depend on settings. -/
theorem write?_congr (hp : p.key.IsGeneral) (s' : Parameters.Sizing) (owner : AttributeOwner)
    (k : String) : write? d s owner k p = write? d s' owner k p := by
  cases owner with
  | node i => rw [write?_node_eq_none hp, write?_node_eq_none hp]
  | _ => rfl

/-- What a general key writes, no other key writes. -/
theorem movable_write? (hp : p.key.IsGeneral) (owner : AttributeOwner) (k : String) :
    Movable (write? d s owner k) p.key := by
  cases owner with
  | graph =>
    by_cases hk : k = "layout"
    · exact .inl fun q _ => if_pos hk
    · have hwrite : write? d s .graph k = valueAt? ["graph", k] := funext fun q => if_neg hk
      rw [hwrite]
      exact movable_valueAt? _ _
  | nodes => exact movable_valueAt? _ _
  | edges => exact movable_valueAt? _ _
  | node i => exact .inl fun q hq => write?_node_eq_none (hq ▸ hp) i k

theorem movable_layout? (key : Key) : Movable layout? key :=
  (movable_valueAt? _ key).map _

end Parameter

namespace Parameters

open Parameter (last?)

variable {base user : Parameters}

/-- Parameters with general keys, no two of them with the same key. -/
structure IsGeneral (ps : Parameters) : Prop where
  nodup_keys : (ps.entries.map Parameter.key).Nodup
  general_key : ∀ p ∈ ps.entries, p.key.IsGeneral

theorem isGeneral_defaults : defaults.IsGeneral where
  nodup_keys := by decide
  general_key := by simp [defaults, Parameter.Key.IsGeneral]

/-- Settings are never general, so a merge has those of the overrides. -/
theorem IsGeneral.settings_mergedWith (hbase : base.IsGeneral)
    (huser : (user.entries.map Parameter.key).Nodup) :
    (base.mergedWith user).settings = user.settings := by
  have hlast : ∀ {α : Type} {value? : Parameter → Option α},
      (∀ p : Parameter, p.key.IsGeneral → value? p = none) →
      last? (base.mergedWith user).entries value? = last? user.entries value? := by
    intro α value? hvalue
    have hmovable : ∀ p ∈ base.entries, Parameter.Movable value? p.key := fun p hp =>
      .inl fun q hq => hvalue q (hq ▸ hbase.general_key p hp)
    have hnone : last? base.entries value? = none :=
      Parameter.last?_eq_none_iff.mpr fun p hp => hvalue p (hbase.general_key p hp)
    rw [last?_mergedWith hbase.nodup_keys huser hmovable, hnone, Option.or_none]
  have hswitch : ∀ p : Parameter, p.key.IsGeneral → enables? p = none := by
    intro p hp
    rw [enables?, Parameter.setting?_eq_none hp, Option.map_none]
  have hnumber : ∀ name, ∀ p : Parameter, p.key.IsGeneral → number? name p = none := by
    intro name p hp
    rw [number?, Parameter.setting?_eq_none hp, Option.bind_none]
  rw [settings, settings, hlast hswitch, hlast (hnumber _), hlast (hnumber _)]

end Parameters

/-! ## Merging and applying -/

theorem LayoutEngine.program_of_request {e e' : LayoutEngine} {program : String}
    (h : e.request program = (e', none)) : e'.program = program := by
  rw [request] at h
  split at h <;> cases h
  rfl

theorem Asked.program_eq {e e' : LayoutEngine} {programs : List String}
    (h : Asked e programs e') : e'.program = programs.getLast?.getD e.program := by
  induction h with
  | nil e => rfl
  | @cons e e₁ e' d program programs h hs ih =>
    have hprogram : e₁.program = program := LayoutEngine.program_of_request h
    rw [ih, hprogram, List.getLast?_cons]
    rfl

theorem Asked.program_eq_last? {e e' : LayoutEngine} {ps : List Parameter}
    (h : Asked e (ps.filterMap Parameter.layout?) e') :
    e'.program = (Parameter.last? ps Parameter.layout?).getD e.program := by
  rw [h.program_eq, List.getLast?_filterMap]
  rfl

namespace Drawing

open Parameter (last?)

variable {base user : Parameters} {d d₁ d' d'' : Drawing} {e e₁ : LayoutEngine}

theorem eq_of_attributes (hgraph : d'.graph = d''.graph) (hroots : d'.roots = d''.roots)
    (hdepths : d'.depths = d''.depths)
    (hattrs : ∀ owner k, (d'.attributes owner).find? k = (d''.attributes owner).find? k) :
    d' = d'' := by
  have howner : ∀ owner, d'.attributes owner = d''.attributes owner :=
    fun owner => NameMap.ext (hattrs owner)
  have hnodes : d'.nodeAttrs = d''.nodeAttrs := funext fun i => howner (.node i)
  cases d'
  cases d''
  simp only [mk.injEq]
  exact ⟨hgraph, hroots, hdepths, howner .graph, howner .nodes, howner .edges, hnodes⟩

theorem eq_of_mergedWith (hbase : base.IsGeneral)
    (huser : (user.entries.map Parameter.key).Nodup)
    (hmerged : d.IsWrittenBy (base.mergedWith user).settings (base.mergedWith user).entries d')
    (hfirst : d.IsWrittenBy base.settings base.entries d₁)
    (hthen : d₁.IsWrittenBy user.settings user.entries d'') : d' = d'' := by
  refine eq_of_attributes ?_ ?_ ?_ fun owner k => ?_
  · rw [hmerged.graph_eq, hthen.graph_eq, hfirst.graph_eq]
  · rw [hmerged.roots_eq, hthen.roots_eq, hfirst.roots_eq]
  · rw [hmerged.depths_eq, hthen.depths_eq, hfirst.depths_eq]
  · have hmovable : ∀ p ∈ base.entries,
        Parameter.Movable (Parameter.write? d user.settings owner k) p.key :=
      fun p hp => Parameter.movable_write? (hbase.general_key p hp) owner k
    have hbase_writes : last? base.entries (Parameter.write? d user.settings owner k) =
        last? base.entries (Parameter.write? d base.settings owner k) :=
      Parameter.last?_congr fun p hp => Parameter.write?_congr (hbase.general_key p hp) _ owner k
    rw [hmerged.find?_attributes, hthen.find?_attributes, hfirst.find?_attributes,
      hfirst.write?_eq, hbase.settings_mergedWith huser,
      Parameters.last?_mergedWith hbase.nodup_keys huser hmovable, hbase_writes, Option.or_assoc]

/-- Two runs that both fail, or both succeed with the same drawing and the same program. -/
structure SameOutcome (r r' : (Drawing × LayoutEngine) × Option Error) : Prop where
  ok_iff : r.2 = none ↔ r'.2 = none
  eq_of_ok : r.2 = none → r.1.1 = r'.1.1 ∧ r.1.2.program = r'.1.2.program

/-- A merge is applied if the overrides are: it holds all of them, and else only what was applied
before. -/
theorem apply_mergedWith_snd_eq_none_iff (hbase : (base.entries.map Parameter.key).Nodup)
    (huser : (user.entries.map Parameter.key).Nodup) (hfirst : (d.apply base e).2 = none)
    (d₁ : Drawing) (e₁ : LayoutEngine) :
    (d.apply (base.mergedWith user) e).2 = none ↔ (d₁.apply user e₁).2 = none := by
  rw [apply_snd_eq_none_iff] at hfirst
  rw [apply_snd_eq_none_iff, apply_snd_eq_none_iff]
  constructor
  · intro h p hp
    exact h p ((Parameters.mem_mergedWith hbase huser).mpr (.inl hp))
  · intro h p hp
    rcases (Parameters.mem_mergedWith hbase huser).mp hp with hp | ⟨hp, -⟩
    · exact h p hp
    · exact hfirst p hp

/-- General parameters can be merged with overrides or applied before them. -/
theorem sameOutcome_mergedWith (hbase : base.IsGeneral)
    (huser : (user.entries.map Parameter.key).Nodup)
    (hfirst : d.apply base e = ((d₁, e₁), none)) :
    SameOutcome (d.apply (base.mergedWith user) e) (d₁.apply user e₁) := by
  have hok := apply_mergedWith_snd_eq_none_iff hbase.nodup_keys huser
    (congrArg Prod.snd hfirst) d₁ e₁
  refine ⟨hok, fun hmerged => ?_⟩
  obtain ⟨hwritten, hasked⟩ := apply_eq_ok (Prod.ext rfl hmerged)
  obtain ⟨hwritten₁, hasked₁⟩ := apply_eq_ok hfirst
  obtain ⟨hwritten₂, hasked₂⟩ := apply_eq_ok (Prod.ext rfl (hok.mp hmerged))
  refine ⟨eq_of_mergedWith hbase huser hwritten hwritten₁ hwritten₂, ?_⟩
  have hmovable : ∀ p ∈ base.entries, Parameter.Movable Parameter.layout? p.key :=
    fun p _ => Parameter.movable_layout? p.key
  rw [hasked.program_eq_last?, hasked₂.program_eq_last?, hasked₁.program_eq_last?,
    Parameters.last?_mergedWith hbase.nodup_keys huser hmovable, Option.getD_or]

/-- The defaults suit every drawing. -/
theorem exists_apply_defaults (d : Drawing) (e : LayoutEngine) :
    ∃ d₁ e₁, d.apply Parameters.defaults e = ((d₁, e₁), none) := by
  have hsound : ∀ p ∈ Parameters.defaults.entries, p.fault? = none := by decide
  exact ⟨_, _, Prod.ext rfl (apply_snd_eq_none_iff.mpr hsound)⟩

/-- **Defaults before overrides.** Overrides without repeated keys can be merged with the defaults,
or the defaults can be applied first and the overrides after them. Both fail or both succeed, and
then with the same drawing and the same layout program. -/
theorem sameOutcome_defaults (d : Drawing) (e : LayoutEngine) {user : Parameters}
    (huser : (user.entries.map Parameter.key).Nodup) :
    ∃ d₁ e₁, d.apply Parameters.defaults e = ((d₁, e₁), none) ∧
      SameOutcome (d.apply (Parameters.defaults.mergedWith user) e) (d₁.apply user e₁) := by
  obtain ⟨d₁, e₁, hfirst⟩ := exists_apply_defaults d e
  exact ⟨d₁, e₁, hfirst, sameOutcome_mergedWith Parameters.isGeneral_defaults huser hfirst⟩

/-- Overrides of two defaults after sizes that depend on the order. -/
def restyled : Parameters where
  entries := [
    ⟨["node", "a", "fontsize"], .integer 20⟩,
    ⟨["meta", "node_size_depth"], .bool true⟩,
    ⟨["node", "fontsize"], .integer 9⟩,
    ⟨["node", "root", "fontsize"], .integer 30⟩,
    ⟨["graph", "layout"], .text "neato"⟩,
    ⟨["edge", "color"], .text "gray"⟩]

theorem sameOutcome_defaults_restyled :
    (restyled.entries.map Parameter.key).Nodup ∧
      (rooted.apply (Parameters.defaults.mergedWith restyled) unasked).2 = none ∧
      ∃ d e, rooted.apply Parameters.defaults unasked = ((d, e), none) ∧
        SameOutcome (rooted.apply (Parameters.defaults.mergedWith restyled) unasked)
          (d.apply restyled e) :=
  ⟨by decide, rfl, sameOutcome_defaults rooted unasked (by decide)⟩

end Drawing

end CallAtlas
