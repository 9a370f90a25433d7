import CallAtlas.Proofs.DefaultsFirst
import CallAtlas.Proofs.ViewExactness

/-!
# Why a query fails

A drawing is made in stages: the roots are looked up, a view is cut out of the graph, and parameters
are applied to the view. Parameters do ask the view, for every node that they name, and the engine,
for every layout. Still the answers never decide between success and failure. A query fails for a
root that the graph does not have, or else for a parameter that no drawing takes.

Of several reasons the first counts: roots in the order of the query, then parameters in the order
of the list. What is excluded, filtered or cut has no part in it, so that one list of parameters is
good for all queries or for none.

## Main definitions

* `IsFirst` — the first member of a list with a property
* `Parameter.Offends`, `Parameters.FirstOffence` — the errors of a parameter and of a list
* `Query.HasOutcome` — the outcome of a query, told from its roots and the parameters

## Main results

* `Parameter.fault?_eq_some_iff` — a parameter is refused if it offends
* `Query.draw_of_absent`, `Query.draw_eq_error_iff` — the two stages that can fail
* `Query.hasOutcome_draw` — every query has the outcome that is told
-/

namespace CallAtlas

/-- `x` is the first member of `xs` with the property `P`. -/
def IsFirst {α : Type} (P : α → Prop) (xs : List α) (x : α) : Prop :=
  ∃ before after, xs = before ++ x :: after ∧ P x ∧ ∀ y ∈ before, ¬ P y

section

variable {α : Type} {P Q : α → Prop} {x y : α} {xs : List α}

theorem IsFirst.prop (h : IsFirst P xs x) : P x := by
  obtain ⟨before, after, -, hx, -⟩ := h
  exact hx

theorem IsFirst.mem (h : IsFirst P xs x) : x ∈ xs := by
  obtain ⟨before, after, rfl, -⟩ := h
  exact List.mem_append_right before List.mem_cons_self

theorem isFirst_congr (h : ∀ y ∈ xs, P y ↔ Q y) : IsFirst P xs x ↔ IsFirst Q xs x := by
  refine exists₂_congr fun before after => and_congr_right fun hxs => ?_
  subst hxs
  have hbefore : ∀ y ∈ before, P y ↔ Q y := fun y hy => h y (List.mem_append_left _ hy)
  exact and_congr (h x (List.mem_append_right before List.mem_cons_self))
    (forall₂_congr fun y hy => not_congr (hbefore y hy))

theorem isFirst_cons_iff : IsFirst P (y :: xs) x ↔ y = x ∧ P x ∨ ¬ P y ∧ IsFirst P xs x := by
  constructor
  · rintro ⟨before, after, hxs, hx, hbefore⟩
    cases before with
    | nil =>
      obtain ⟨rfl, -⟩ := List.cons.inj hxs
      exact Or.inl ⟨rfl, hx⟩
    | cons z before =>
      obtain ⟨rfl, rfl⟩ := List.cons.inj hxs
      obtain ⟨hy, hbefore⟩ := List.forall_mem_cons.mp hbefore
      exact Or.inr ⟨hy, before, after, rfl, hx, hbefore⟩
  · rintro (⟨rfl, hx⟩ | ⟨hy, before, after, rfl, hx, hbefore⟩)
    · exact ⟨[], xs, rfl, hx, by simp⟩
    · exact ⟨y :: before, after, rfl, hx, List.forall_mem_cons.mpr ⟨hy, hbefore⟩⟩

theorem isFirst_filter_iff {q : α → Bool} :
    IsFirst P (xs.filter q) x ↔ IsFirst (fun y => q y ∧ P y) xs x := by
  induction xs with
  | nil => simp [IsFirst]
  | cons y xs ih =>
    rw [List.filter_cons, isFirst_cons_iff, ← ih]
    by_cases hy : q y
    · rw [if_pos hy, isFirst_cons_iff]
      constructor
      · rintro (⟨rfl, hx⟩ | hx)
        · exact Or.inl ⟨rfl, hy, hx⟩
        · exact Or.inr ⟨fun h => hx.1 h.2, hx.2⟩
      · rintro (⟨rfl, -, hx⟩ | hx)
        · exact Or.inl ⟨rfl, hx⟩
        · exact Or.inr ⟨fun h => hx.1 ⟨hy, h⟩, hx.2⟩
    · rw [if_neg hy]
      constructor
      · exact fun hx => Or.inr ⟨fun h => hy h.1, hx⟩
      · rintro (⟨rfl, hx, -⟩ | hx)
        · exact absurd hx hy
        · exact hx.2

theorem exists_isFirst (h : ∃ y ∈ xs, P y) : ∃ x, IsFirst P xs x := by
  induction xs with
  | nil => simp at h
  | cons y xs ih =>
    simp only [isFirst_cons_iff]
    by_cases hy : P y
    · exact ⟨y, Or.inl ⟨rfl, hy⟩⟩
    · obtain ⟨z, hz, hPz⟩ := h
      rcases List.mem_cons.mp hz with rfl | hz
      · exact absurd hPz hy
      · obtain ⟨x, hx⟩ := ih ⟨z, hz, hPz⟩
        exact ⟨x, Or.inr ⟨hy, hx⟩⟩

end

/-! ## Offending parameters -/

namespace Parameter

/-- The error of a parameter that no drawing takes. -/
inductive Offends (p : Parameter) : Error → Prop
  /-- There is no such scope. -/
  | scope (h : p.scope ∉ Drawing.scopes) : p.Offends (.unknownScope p.key)
  /-- The scope takes another number of parts. -/
  | parts (hscope : p.scope ∈ Drawing.scopes) (h : p.key.length ∉ arities p.scope) :
      p.Offends (.malformedKey p.key)
  /-- There is no such layout. -/
  | layout (hkey : p.key = ["graph", "layout"]) (h : p.value.display ∉ layoutPrograms) :
      p.Offends (.unknownLayout p.value.display)

variable {p : Parameter} {e : Error}

theorem layout?_eq_some_iff {program : String} :
    p.layout? = some program ↔ p.key = ["graph", "layout"] ∧ p.value.display = program := by
  by_cases hkey : p.key = ["graph", "layout"] <;> simp [layout?, valueAt?, hkey]

theorem fault?_eq_some_iff : p.fault? = some e ↔ p.Offends e := by
  constructor
  · intro h
    rw [fault?] at h
    split at h
    case isTrue hscope =>
      cases h
      exact .scope hscope
    case isFalse hscope =>
      split at h
      case isTrue hparts =>
        cases h
        exact .parts (not_not.mp hscope) hparts
      case isFalse =>
        obtain ⟨program, hlayout, hrefused⟩ := Option.bind_eq_some_iff.mp h
        obtain ⟨hkey, rfl⟩ := layout?_eq_some_iff.mp hlayout
        split at hrefused
        case isTrue => cases hrefused
        case isFalse hprogram =>
          cases hrefused
          exact .layout hkey (by simpa using hprogram)
  · rintro (hscope | ⟨hscope, hparts⟩ | ⟨hkey, hprogram⟩)
    · exact if_pos hscope
    · rw [fault?, if_neg (not_not.mpr hscope), if_pos hparts]
    · -- this key has a scope and a number of parts that are in order
      have hscope : p.scope ∈ Drawing.scopes := by simp [scope, hkey, Drawing.scopes]
      have hparts : p.key.length ∈ arities p.scope := by
        simp [scope, hkey, arities, Drawing.scopes]
      rw [fault?, if_neg (not_not.mpr hscope), if_neg (not_not.mpr hparts),
        layout?_eq_some_iff.mpr ⟨hkey, rfl⟩, Option.bind_some, if_neg (by simpa using hprogram)]

theorem fault?_eq_none_iff : p.fault? = none ↔ ∀ e, ¬ p.Offends e := by
  simp only [Option.eq_none_iff_forall_ne_some, ne_eq, fault?_eq_some_iff]

end Parameter

/-- `e` is the error of the first parameter that has one. -/
def Parameters.FirstOffence (ps : Parameters) (e : Error) : Prop :=
  ∃ p, IsFirst (fun q => ∃ e, Parameter.Offends q e) ps.entries p ∧ p.Offends e

theorem Parameters.findSome?_fault?_eq_some_iff {ps : Parameters} {e : Error} :
    ps.entries.findSome? Parameter.fault? = some e ↔ ps.FirstOffence e := by
  rw [List.findSome?_eq_some_iff]
  constructor
  · rintro ⟨before, p, after, hps, hp, hbefore⟩
    have hoffends := Parameter.fault?_eq_some_iff.mp hp
    refine ⟨p, ⟨before, after, hps, ⟨e, hoffends⟩, fun q hq => ?_⟩, hoffends⟩
    exact not_exists.mpr (Parameter.fault?_eq_none_iff.mp (hbefore q hq))
  · rintro ⟨p, ⟨before, after, hps, -, hbefore⟩, hp⟩
    refine ⟨before, p, after, hps, Parameter.fault?_eq_some_iff.mpr hp, fun q hq => ?_⟩
    exact Parameter.fault?_eq_none_iff.mpr (not_exists.mp (hbefore q hq))

/-! ## The two stages that can fail -/

namespace Query

variable {q : Query} {base : CallGraph} {ps : Parameters} {engine : LayoutEngine} {root : String}
  {e : Error}

theorem find?_roots_eq_some_iff :
    (q.roots.find? fun r => (base.find? r).isNone) = some root ↔
      IsFirst (fun r => base.find? r = none) q.roots root := by
  rw [List.find?_eq_some_iff_append]
  constructor
  · rintro ⟨hroot, before, after, hroots, hbefore⟩
    refine ⟨before, after, hroots, Option.isNone_iff_eq_none.mp hroot, fun r hr hnone => ?_⟩
    have hr' := hbefore r hr
    simp [hnone] at hr'
  · rintro ⟨before, after, hroots, hroot, hbefore⟩
    refine ⟨Option.isNone_iff_eq_none.mpr hroot, before, after, hroots, fun r hr => ?_⟩
    simpa [Option.isSome_iff_ne_none] using hbefore r hr

section

variable {ε : Type} [LayoutService ε] {service : ε}

/-- A root that the graph does not have is noticed before any parameter. -/
theorem draw_of_absent (hroot : IsFirst (fun r => base.find? r = none) q.roots root) :
    q.draw base ps service = .error (.unknownRoot root) := by
  rw [draw, run, find?_roots_eq_some_iff.mpr hroot]
  rfl

/-- With all its roots, the query is left to the parameters. -/
theorem draw_eq_apply (hroots : ∀ r ∈ q.roots, (base.find? r).isSome) :
    q.draw base ps service =
      ((Drawing.ofView (q.view base) q.depthMode).apply ps service).2.elim
        (.ok ((Drawing.ofView (q.view base) q.depthMode).apply ps service).1) .error := by
  simp only [draw, run_eq_ok hroots, bind, Except.bind]
  split
  case h_1 result happly =>
    rw [happly]
    rfl
  case h_2 result e happly =>
    rw [happly]
    rfl

end

theorem draw_eq_error_iff (hroots : ∀ r ∈ q.roots, (base.find? r).isSome) :
    q.draw base ps engine = .error e ↔ ps.FirstOffence e := by
  have hfault : ((Drawing.ofView (q.view base) q.depthMode).apply ps engine).2 =
      ps.entries.findSome? Parameter.fault? := Drawing.applyEntries_snd _ _ _ _
  rw [draw_eq_apply hroots, ← Parameters.findSome?_fault?_eq_some_iff, hfault]
  cases ps.entries.findSome? Parameter.fault? <;> simp

theorem exists_draw_iff (hroots : ∀ r ∈ q.roots, (base.find? r).isSome) :
    (∃ result, q.draw base ps engine = .ok result) ↔
      ∀ p ∈ ps.entries, ∀ e, ¬ Parameter.Offends p e := by
  have hnone : ((Drawing.ofView (q.view base) q.depthMode).apply ps engine).2 = none ↔
      ∀ p ∈ ps.entries, p.fault? = none := Drawing.apply_snd_eq_none_iff
  simp only [Parameter.fault?_eq_none_iff] at hnone
  rw [draw_eq_apply hroots, ← hnone]
  cases ((Drawing.ofView (q.view base) q.depthMode).apply ps engine).2 <;> simp

/-! ## The outcome of a query -/

/-- What becomes of a query, told from its roots and the parameters. -/
structure HasOutcome (q : Query) (base : CallGraph) (ps : Parameters)
    (outcome : Except Error (Drawing × LayoutEngine)) : Prop where
  /-- The first root that the graph does not have is the error, whatever the parameters are. -/
  unknownRoot : (∃ r ∈ q.roots, base.find? r = none) →
    ∃ root, IsFirst (fun r => base.find? r = none) q.roots root ∧
      outcome = .error (.unknownRoot root)
  /-- With all its roots, the query is drawn unless a parameter offends. -/
  ok_iff : (∀ r ∈ q.roots, (base.find? r).isSome) →
    ((∃ result, outcome = .ok result) ↔ ∀ p ∈ ps.entries, ∀ e, ¬ Parameter.Offends p e)
  /-- The first offence is then the error. -/
  error_iff : (∀ r ∈ q.roots, (base.find? r).isSome) →
    ∀ e, outcome = .error e ↔ ps.FirstOffence e

/-- **Roots and parameters decide.** A query fails for the first root that the graph does not have,
or else for the first parameter that offends. Two queries of any graphs that have their roots are
therefore both drawn, or they fail with the same error. -/
theorem hasOutcome_draw (q : Query) (base : CallGraph) (ps : Parameters) (engine : LayoutEngine) :
    q.HasOutcome base ps (q.draw base ps engine) ∧
      ((∀ r ∈ q.roots, (base.find? r).isSome) →
        ∀ (q' : Query) (base' : CallGraph) (engine' : LayoutEngine),
          (∀ r ∈ q'.roots, (base'.find? r).isSome) →
          ∀ e, q.draw base ps engine = .error e ↔ q'.draw base' ps engine' = .error e) := by
  refine ⟨⟨fun habsent => ?_, exists_draw_iff, fun hroots _ => draw_eq_error_iff hroots⟩,
    fun hroots q' base' engine' hroots' e => ?_⟩
  · obtain ⟨root, hfirst⟩ := exists_isFirst habsent
    exact ⟨root, hfirst, draw_of_absent hfirst⟩
  · rw [draw_eq_error_iff hroots, draw_eq_error_iff hroots']

/-- The node `gone` is in no graph, which is no offence; a layout is misspelt, and so is a scope
after it. -/
def misspelt : Parameters where
  entries := [
    ⟨["node", "gone", "color"], .text "red"⟩,
    ⟨["graph", "layout"], .text "neto"⟩,
    ⟨["nodes", "color"], .text "red"⟩]

/-- The view is empty, and a parameter is refused all the same. -/
theorem hasOutcome_draw_misspelt :
    let q : Query := { roots := ["r"], excludeNodes := ["r"] }
    let base := CallGraph.ofCalls Registry.selfCalling
    (∀ r ∈ q.roots, (base.find? r).isSome) ∧ misspelt.FirstOffence (.unknownLayout "neto") ∧
      q.draw base misspelt Drawing.unasked = .error (.unknownLayout "neto") := by
  intro q base
  have hroots : ∀ r ∈ q.roots, (base.find? r).isSome := by decide +kernel
  have hoffends : Parameter.Offends ⟨["graph", "layout"], .text "neto"⟩ (.unknownLayout "neto") :=
    .layout rfl (by decide)
  have hfirst : misspelt.FirstOffence (.unknownLayout "neto") := by
    refine ⟨_, ⟨[_], [_], rfl, ⟨_, hoffends⟩, fun p hp => ?_⟩, hoffends⟩
    obtain rfl := List.mem_singleton.mp hp
    exact not_exists.mpr (Parameter.fault?_eq_none_iff.mp rfl)
  have houtcome := (hasOutcome_draw q base misspelt Drawing.unasked).1
  exact ⟨hroots, hfirst, (houtcome.error_iff hroots _).mpr hfirst⟩

end Query

end CallAtlas
