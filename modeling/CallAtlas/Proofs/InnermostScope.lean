import CallAtlas.Proofs.CallEdges

/-!
# References belong to the innermost procedure

Whether a reference belongs to a procedure is decided by two tests that look all the way up to the
root: is the procedure behind a `contains`, and is the reference? Neither looks for the procedure
around the reference.

Where procedures nest in the regular way, the two tests find it nevertheless. A `contains` part
between the scope of a procedure and a reference hides the reference from that procedure: the
reference is behind a `contains`, and the procedure is not, since the parts themselves do not nest.
So the procedures further out are all hidden, and the innermost is not.

## Main definitions

* `Definition.referenceKinds` — what is collected for a procedure
* `Definition.NestsByContains` — procedures nest in the regular way
* `Definition.IsInnermost` — the procedure whose scope is the innermost around a node
* `Definition.AttributesOnce` — the contract of a tree

## Main results

* `Definition.isLocalTo_iff_isInnermost`, `Definition.mem_localNodes_iff_isInnermost` — where a
  reference belongs
* `Definition.attributesOnce_ofDocument` — the contract holds
-/

namespace CallAtlas.Definition

open Source (Document Kind Tree)
open Registry (procedureKinds)

variable {t : Tree} {d d' i scope scope' part : Nat} {k : Kind}

/-! ## Scopes -/

/-- The kinds of nodes that are collected for a procedure. -/
def referenceKinds : List Kind :=
  [.callStmt, .partRef, .typeDeclarationStmt, .allocation, .deallocateStmt]

/-- `d` is the statement of a procedure, and its parent is `scope`. -/
structure IsProcedureIn (t : Tree) (d scope : Nat) : Prop where
  kind_mem : t.kind d ∈ procedureKinds
  parent_eq : t.parent d = some scope

/-- A `contains` part stands properly between an outer node and an inner one. -/
structure PartBetween (t : Tree) (outer inner part : Nat) : Prop where
  kind_eq : t.kind part = .internalSubprogramPart
  outer_mem : outer ∈ t.ancestors part
  part_mem : part ∈ t.ancestors inner

/-- Procedures nest in the regular way. -/
structure NestsByContains (t : Tree) : Prop where
  /-- Every scope has one procedure. -/
  scope_inj : ∀ {d d' scope : Nat}, IsProcedureIn t d scope → IsProcedureIn t d' scope → d = d'
  /-- No `contains` part is inside another. -/
  not_hasAncestor : ∀ {i : Nat}, t.kind i = .internalSubprogramPart →
    ¬ t.hasAncestor i .internalSubprogramPart
  /-- A procedure inside another is behind a `contains` of the other. -/
  exists_part : ∀ {d d' scope scope' : Nat}, IsProcedureIn t d scope → IsProcedureIn t d' scope' →
    scope ∈ t.ancestors scope' → ∃ part, PartBetween t scope scope' part

/-- Of all procedures whose scopes are around the node `i`, the scope of `d` is the innermost. -/
structure IsInnermost (t : Tree) (i d scope : Nat) : Prop where
  procedure : IsProcedureIn t d scope
  encloses : t.Under scope i
  innermost : ∀ {d' scope' : Nat}, IsProcedureIn t d' scope' → t.Under scope' i →
    t.Under scope' scope

theorem IsProcedureIn.ancestors_eq (hd : IsProcedureIn t d scope) :
    t.ancestors d = scope :: t.ancestors scope :=
  Tree.ancestors_of_parent hd.parent_eq

theorem IsProcedureIn.kind_ne (hd : IsProcedureIn t d scope) (hk : k ∈ referenceKinds) :
    t.kind d ≠ k := by
  rintro rfl
  have hdisjoint : ∀ k ∈ procedureKinds, k ∉ referenceKinds := by decide
  exact hdisjoint _ hd.kind_mem hk

/-- A procedure is internal if its scope lies under a `contains` part. -/
theorem IsProcedureIn.hasAncestor_iff (hd : IsProcedureIn t d scope) :
    t.hasAncestor d k ↔ ∃ a, t.Under a scope ∧ t.kind a = k := by
  rw [Tree.hasAncestor_iff, hd.ancestors_eq]
  simp only [List.mem_cons, Tree.Under, @eq_comm _ scope]

theorem IsInnermost.unique (ht : NestsByContains t) (hd : IsInnermost t i d scope)
    (hd' : IsInnermost t i d' scope') : d = d' := by
  have hscope : scope = scope' :=
    Nat.le_antisymm (hd'.innermost hd.procedure hd.encloses).le
      (hd.innermost hd'.procedure hd'.encloses).le
  subst hscope
  exact ht.scope_inj hd.procedure hd'.procedure

/-- A node inside of some procedure has an innermost one, found on the way up from the node. -/
theorem exists_isInnermost (hd : IsProcedureIn t d scope) (hi : t.Under scope i) :
    ∃ d' scope', IsInnermost t i d' scope' := by
  induction i using Nat.strongRecOn with
  | ind i ih =>
    by_cases hself : ∃ d', IsProcedureIn t d' i
    · obtain ⟨d', hd'⟩ := hself
      exact ⟨d', i, hd', Or.inl rfl, fun _ hu => hu⟩
    · -- The node is no scope, so the scopes around it are those around its parent.
      have hne : ∀ {d' scope' : Nat}, IsProcedureIn t d' scope' → i ≠ scope' := by
        rintro d' _ hd' rfl
        exact hself ⟨d', hd'⟩
      obtain ⟨p, hp, hup⟩ := hi.eq_or_parent.resolve_left (hne hd)
      obtain ⟨d', scope', hinner⟩ := ih p (Tree.lt_of_parent hp) hup
      refine ⟨d', scope', hinner.procedure, Tree.under_of_parent hp hinner.encloses, ?_⟩
      intro d'' scope'' hd'' hu''
      obtain ⟨q, hq, huq⟩ := hu''.eq_or_parent.resolve_left (hne hd'')
      obtain rfl : p = q := Option.some.inj (hp.symm.trans hq)
      exact hinner.innermost hd'' huq

/-! ## References -/

/-- What is behind a `contains` of a procedure does not belong to that procedure. -/
theorem not_isLocalTo_of_partBetween (ht : NestsByContains t) (hd : IsProcedureIn t d scope)
    (hpart : PartBetween t scope i part) : ¬ IsLocalTo t d i := by
  intro hlocal
  have hi : t.hasAncestor i .internalSubprogramPart :=
    Tree.hasAncestor_iff.mpr ⟨part, hpart.part_mem, hpart.kind_eq⟩
  -- The procedure must be internal then, and the part would be inside another one.
  have hinternal := hlocal.visible.resolve_right (not_not_intro hi)
  obtain ⟨a, ha, hkind⟩ := hd.hasAncestor_iff.mp hinternal
  exact ht.not_hasAncestor hpart.kind_eq
    (Tree.hasAncestor_iff.mpr ⟨a, ha.mem_ancestors hpart.outer_mem, hkind⟩)

/-- **A reference belongs to the innermost procedure around it**, and to it alone, unless a
`contains` part stands between the two. -/
theorem isLocalTo_iff_isInnermost (ht : NestsByContains t) (hd : IsProcedureIn t d scope) :
    IsLocalTo t d i ↔ IsInnermost t i d scope ∧ ∀ part, ¬ PartBetween t scope i part := by
  constructor
  · intro hlocal
    obtain ⟨_, hscope, hu⟩ := hlocal.under_scope
    obtain rfl : scope = _ := Option.some.inj (hd.parent_eq.symm.trans hscope)
    refine ⟨⟨hd, hu, fun {d' scope'} hd' hu' => ?_⟩, fun part hpart =>
      not_isLocalTo_of_partBetween ht hd hpart hlocal⟩
    rcases hu'.total hu with hout | hin
    · exact hout
    · by_cases heq : scope = scope'
      · exact Or.inl heq
      · -- A procedure further in would be behind a `contains`, and the reference with it.
        obtain ⟨part, hpart⟩ := ht.exists_part hd hd' (Tree.mem_ancestors_iff.mpr ⟨hin, heq⟩)
        have hmem : part ∈ t.ancestors i := Tree.mem_ancestors_of_under hpart.part_mem hu'
        exact absurd hlocal
          (not_isLocalTo_of_partBetween ht hd ⟨hpart.kind_eq, hpart.outer_mem, hmem⟩)
  · rintro ⟨hinner, hnone⟩
    refine ⟨⟨scope, hd.parent_eq, hinner.encloses⟩, or_not_of_imp fun hi => ?_⟩
    obtain ⟨a, ha, hkind⟩ := Tree.hasAncestor_iff.mp hi
    rw [hd.hasAncestor_iff]
    refine ⟨a, ?_, hkind⟩
    rcases (Tree.mem_ancestors_iff.mp ha).1.total hinner.encloses with hout | hin
    · exact hout
    · by_cases heq : scope = a
      · exact Or.inl heq
      · exact absurd ⟨hkind, Tree.mem_ancestors_iff.mpr ⟨hin, heq⟩, ha⟩ (hnone a)

theorem mem_localNodes_iff_isInnermost (ht : t.IsPreorder) (hnests : NestsByContains t)
    (hd : IsProcedureIn t d scope) (hk : k ∈ referenceKinds) :
    i ∈ localNodes t d scope k ↔
      t.kind i = k ∧ IsInnermost t i d scope ∧ ∀ part, ¬ PartBetween t scope i part := by
  rw [mem_localNodes ht hd.parent_eq (hd.kind_ne hk), isLocalTo_iff_isInnermost hnests hd]

/-- Every reference in `t` is attributed to one procedure. -/
structure AttributesOnce (t : Tree) : Prop where
  /-- No reference belongs to two procedures. -/
  unique : ∀ {k : Kind} {i d d' scope scope' : Nat}, k ∈ referenceKinds →
    IsProcedureIn t d scope → IsProcedureIn t d' scope' →
      i ∈ localNodes t d scope k → i ∈ localNodes t d' scope' k → d = d'
  /-- A reference inside of a procedure has an innermost procedure around it. -/
  exists_isInnermost : ∀ {i d scope : Nat}, IsProcedureIn t d scope → t.Under scope i →
    ∃ d' scope', IsInnermost t i d' scope'
  /-- It belongs to the innermost one and to no other, if no `contains` part is in between. -/
  innermost : ∀ {k : Kind} {i d scope : Nat}, k ∈ referenceKinds → t.kind i = k →
    IsInnermost t i d scope → (∀ part, ¬ PartBetween t scope i part) →
      ∀ {d' scope' : Nat}, IsProcedureIn t d' scope' → (i ∈ localNodes t d' scope' k ↔ d' = d)

/-- **Each reference is attributed to exactly one procedure**, where procedures nest in the regular
way. -/
theorem attributesOnce_ofDocument (doc : Document)
    (h : NestsByContains (Tree.ofDocument doc)) : AttributesOnce (Tree.ofDocument doc) := by
  have ht := Tree.isPreorder_ofDocument doc
  refine ⟨fun {k i d d' scope scope'} hk hd hd' hi hi' => ?_, exists_isInnermost,
    fun {k i d scope} hk hi hinner hnone {d' scope'} hd' => ⟨fun hi' => ?_, ?_⟩⟩
  · rw [mem_localNodes_iff_isInnermost ht h hd hk] at hi
    rw [mem_localNodes_iff_isInnermost ht h hd' hk] at hi'
    exact hi.2.1.unique h hi'.2.1
  · rw [mem_localNodes_iff_isInnermost ht h hd' hk] at hi'
    exact hi'.2.1.unique h hinner
  · rintro rfl
    obtain rfl : scope = scope' :=
      Option.some.inj (hinner.procedure.parent_eq.symm.trans hd'.parent_eq)
    rw [mem_localNodes_iff_isInnermost ht h hd' hk]
    exact ⟨hi, hinner, hnone⟩

/-! ## Deciding how procedures nest -/

/-- The procedures of a tree, each with its scope. -/
def procedures (t : Tree) : List (Nat × Nat) :=
  ((List.range t.size).filter fun d => t.kind d ∈ procedureKinds).filterMap fun d =>
    (t.parent d).map fun scope => (d, scope)

theorem lt_size_of_kind_ne (hi : t.kind i ≠ .other) : i < t.size := by
  by_contra hge
  refine hi ?_
  rw [Tree.kind, Array.getElem?_eq_none (Nat.le_of_not_lt hge)]
  rfl

theorem mem_procedures : (d, scope) ∈ procedures t ↔ IsProcedureIn t d scope := by
  simp only [procedures, List.mem_filterMap, List.mem_filter, List.mem_range, decide_eq_true_eq,
    Option.map_eq_some_iff, Prod.mk.injEq]
  constructor
  · rintro ⟨_, ⟨-, hkind⟩, _, hparent, rfl, rfl⟩
    exact ⟨hkind, hparent⟩
  · intro hd
    have hne : t.kind d ≠ .other := by
      intro hother
      have hmem := hd.kind_mem
      rw [hother] at hmem
      exact absurd hmem (by decide)
    exact ⟨d, ⟨lt_size_of_kind_ne hne, hd.kind_mem⟩, scope, hd.parent_eq, rfl, rfl⟩

instance (t : Tree) (outer inner part : Nat) : Decidable (PartBetween t outer inner part) :=
  decidable_of_iff (t.kind part = .internalSubprogramPart ∧ outer ∈ t.ancestors part ∧
    part ∈ t.ancestors inner) ⟨fun h => ⟨h.1, h.2.1, h.2.2⟩, fun h => ⟨h.1, h.2, h.3⟩⟩

theorem nestsByContains_iff : NestsByContains t ↔
    (∀ p ∈ procedures t, ∀ q ∈ procedures t, p.2 = q.2 → p.1 = q.1) ∧
    (∀ i < t.size, t.kind i = .internalSubprogramPart →
      ¬ t.hasAncestor i .internalSubprogramPart) ∧
    ∀ p ∈ procedures t, ∀ q ∈ procedures t, p.2 ∈ t.ancestors q.2 →
      ∃ part ∈ t.ancestors q.2, PartBetween t p.2 q.2 part := by
  constructor
  · intro h
    refine ⟨?_, fun i _ => h.not_hasAncestor, ?_⟩
    · rintro ⟨d, scope⟩ hd ⟨d', _⟩ hd' rfl
      exact h.scope_inj (mem_procedures.mp hd) (mem_procedures.mp hd')
    · rintro ⟨d, scope⟩ hd ⟨d', scope'⟩ hd' hscope
      obtain ⟨part, hpart⟩ := h.exists_part (mem_procedures.mp hd) (mem_procedures.mp hd') hscope
      exact ⟨part, hpart.part_mem, hpart⟩
  · rintro ⟨hinj, hparts, hbetween⟩
    refine ⟨fun hd hd' => ?_, fun {i} hi => hparts i ?_ hi, fun hd hd' hscope => ?_⟩
    · exact hinj _ (mem_procedures.mpr hd) _ (mem_procedures.mpr hd') rfl
    · exact lt_size_of_kind_ne (by rw [hi]; decide)
    · obtain ⟨part, -, hpart⟩ :=
        hbetween _ (mem_procedures.mpr hd) _ (mem_procedures.mpr hd') hscope
      exact ⟨part, hpart⟩

instance (t : Tree) : Decidable (NestsByContains t) :=
  decidable_of_iff _ nestsByContains_iff.symm

/-- In this file the procedure `run` contains the procedure `inner`. The call at node 14 stands in
the scopes of both, and belongs to `inner`, whose statement is node 12. -/
theorem attributesOnce_ofDocument_driver :
    let t := Tree.ofDocument .driverFile
    NestsByContains t ∧ AttributesOnce t ∧ 14 ∈ localNodes t 12 11 .callStmt ∧
      ∀ d scope, IsProcedureIn t d scope → 14 ∈ localNodes t d scope .callStmt → d = 12 := by
  intro t
  have hnests : NestsByContains t := by decide +kernel
  have honce : AttributesOnce t := attributesOnce_ofDocument _ hnests
  have hinner : IsProcedureIn t 12 11 := mem_procedures.mp (by decide +kernel)
  have hmem : 14 ∈ localNodes t 12 11 .callStmt := by decide +kernel
  exact ⟨hnests, honce, hmem, fun d scope hd hd' =>
    honce.unique (by decide) hd hinner hd' hmem⟩

end CallAtlas.Definition
