import CallAtlas.Proofs.Distances

/-!
# The law of depth by walking back

The walk back from a node is bounded by fuel and keeps a list of the nodes it has been to, a list
of its own for each node. Depths obey a law that mentions neither. A root and a node that nobody
calls have depth zero; a node on a cycle without roots has depth one less than the length of the
cycle; every other node lies one deeper than its first predecessor.

The law relates walks from different nodes, which know different nodes. The walk from a node knows
this node in addition to what the walk from its predecessor knows. That makes a difference only if
going back from the predecessor leads to the node again, before a root is met: then the node is on a
cycle.

## Main definitions

* `CallGraph.WalkEnds` — the walk without fuel, as a relation
* `CallGraph.IsCycleAt` — a cycle of first predecessors without roots
* `CallGraph.ObeysWalkLaw` — the law

## Main results

* `CallGraph.walkEnds_walkBack` — the fuel does not run out
* `CallGraph.IsCycleAt.walkEnds` — the walk on a cycle
* `CallGraph.walkDepth_eq_succ` — the walk elsewhere
* `CallGraph.obeysWalkLaw_depths` — the law holds
-/

namespace CallAtlas

namespace CallGraph

variable {g : CallGraph} {roots seen seen' : List Nat} {i j k m n p e : Nat}

/-! ## The walk without fuel -/

/-- The walk from a node, having been to the nodes in a list, ends after `k` steps at the node `e`:
because `e` is a root, because nobody calls `e`, or because the first predecessor of `e` is in the
list. -/
inductive WalkEnds (g : CallGraph) (roots : List Nat) : List Nat → Nat → Nat → Nat → Prop
  | root {seen : List Nat} {i : Nat} (hi : i ∈ roots) : WalkEnds g roots seen i 0 i
  | uncalled {seen : List Nat} {i : Nat} (hp : g.firstPredecessor i = none) :
      WalkEnds g roots seen i 0 i
  | known {seen : List Nat} {i p : Nat} (hp : g.firstPredecessor i = some p) (hseen : p ∈ seen) :
      WalkEnds g roots seen i 0 i
  | step {seen : List Nat} {i p k e : Nat} (hi : i ∉ roots) (hp : g.firstPredecessor i = some p)
      (hseen : p ∉ seen) (hwalk : WalkEnds g roots (p :: seen) p k e) :
      WalkEnds g roots seen i (k + 1) e

/-- Where and when a walk ends is determined. -/
theorem WalkEnds.unique {k' e' : Nat} (h : g.WalkEnds roots seen i k e)
    (h' : g.WalkEnds roots seen i k' e') : k = k' ∧ e = e' := by
  induction h generalizing k' e' with
  | root hi =>
    cases h' with
    | step hi' => exact absurd hi hi'
    | _ => exact ⟨rfl, rfl⟩
  | uncalled hp =>
    cases h' with
    | step _ hp' => rw [hp] at hp'; cases hp'
    | _ => exact ⟨rfl, rfl⟩
  | known hp hseen =>
    cases h' with
    | step _ hp' hseen' =>
      obtain rfl := Option.some.inj (hp.symm.trans hp')
      exact absurd hseen hseen'
    | _ => exact ⟨rfl, rfl⟩
  | step hi hp hseen _ ih =>
    cases h' with
    | root hi' => exact absurd hi' hi
    | uncalled hp' => rw [hp] at hp'; cases hp'
    | known hp' hseen' =>
      obtain rfl := Option.some.inj (hp.symm.trans hp')
      exact absurd hseen' hseen
    | step _ hp' _ hwalk =>
      obtain rfl := Option.some.inj (hp.symm.trans hp')
      obtain ⟨rfl, rfl⟩ := ih hwalk
      exact ⟨rfl, rfl⟩

/-- Different nodes of a graph are no more than it has. -/
theorem length_le_nodeCount (hnodup : seen.Nodup) (hlive : ∀ j ∈ seen, g.contains j) :
    seen.length ≤ g.nodeCount :=
  (hnodup.subperm fun j hj => mem_nodes.mpr (hlive j hj)).length_le

/-- What a walk still has to go to is not among what it has been to. -/
theorem WalkEnds.length_add_le (h : g.WalkEnds roots seen i k e) (hnodup : seen.Nodup)
    (hlive : ∀ j ∈ seen, g.contains j) : seen.length + k ≤ g.nodeCount := by
  induction h with
  | root | uncalled | known => exact length_le_nodeCount hnodup hlive
  | @step seen i p k e _ hp hseen _ ih =>
    have hp' : g.contains p := (calls_of_firstPredecessor hp).contains_source
    have hle := ih (List.nodup_cons.mpr ⟨hseen, hnodup⟩) (List.forall_mem_cons.mpr ⟨hp', hlive⟩)
    rw [List.length_cons] at hle
    omega

/-- **The fuel does not run out**, as every step goes to a new node. -/
theorem walkEnds_walkBack (hnodup : seen.Nodup) (hlive : ∀ j ∈ seen, g.contains j) {fuel : Nat}
    (hfuel : g.nodeCount < fuel + seen.length) :
    ∃ e, g.WalkEnds roots seen i (g.walkBack roots fuel seen i) e := by
  induction fuel generalizing seen i with
  | zero =>
    have hle := length_le_nodeCount hnodup hlive
    omega
  | succ fuel ih =>
    by_cases hi : i ∈ roots
    · rw [walkBack_of_mem_roots hi]
      exact ⟨i, .root hi⟩
    cases hp : g.firstPredecessor i with
    | none =>
      rw [walkBack_of_firstPredecessor_none hp]
      exact ⟨i, .uncalled hp⟩
    | some p =>
      by_cases hseen : p ∈ seen
      · rw [walkBack_of_firstPredecessor_mem hp hseen]
        exact ⟨i, .known hp hseen⟩
      have hp' : g.contains p := (calls_of_firstPredecessor hp).contains_source
      obtain ⟨e, he⟩ := ih (i := p) (List.nodup_cons.mpr ⟨hseen, hnodup⟩)
        (List.forall_mem_cons.mpr ⟨hp', hlive⟩) (by rw [List.length_cons]; omega)
      rw [walkBack_succ hi hp hseen]
      exact ⟨e, .step hi hp hseen he⟩

theorem nodeCount_le_size (g : CallGraph) : g.nodeCount ≤ g.slots.size := by
  have hle := List.length_filter_le g.contains (List.range g.slots.size)
  rwa [List.length_range] at hle

/-- The depth of a node is the length of its walk. -/
theorem walkEnds_walkDepth (roots : List Nat) (hi : g.contains i) :
    ∃ e, g.WalkEnds roots [i] i (g.walkDepth roots i) e := by
  refine walkEnds_walkBack (List.nodup_singleton i) (by simpa using hi) ?_
  have hle := g.nodeCount_le_size
  rw [List.length_singleton]
  omega

theorem WalkEnds.walkDepth_eq (hi : g.contains i) (h : g.WalkEnds roots [i] i k e) :
    g.walkDepth roots i = k := by
  obtain ⟨e', he'⟩ := walkEnds_walkDepth roots hi
  exact (he'.unique h).1

/-! ## Going back -/

theorem nthPredecessor_succ_of_firstPredecessor (hp : g.firstPredecessor i = some p) (k : Nat) :
    g.nthPredecessor (k + 1) i = g.nthPredecessor k p := by
  induction k with
  | zero => exact hp
  | succ k ih => rw [nthPredecessor, ih, nthPredecessor]

theorem nthPredecessor_succ (hj : g.nthPredecessor m i = some j) :
    g.nthPredecessor (m + 1) i = g.firstPredecessor j := by
  rw [nthPredecessor, hj, Option.bind_some]

theorem nthPredecessor_add (hj : g.nthPredecessor m i = some j) (k : Nat) :
    g.nthPredecessor (m + k) i = g.nthPredecessor k j := by
  induction k with
  | zero => exact hj
  | succ k ih => rw [← Nat.add_assoc, nthPredecessor, ih, nthPredecessor]

/-- On the way back there is a node at every step. -/
theorem exists_nthPredecessor_of_le (hn : g.nthPredecessor n i = some j) (hmn : m ≤ n) :
    ∃ x, g.nthPredecessor m i = some x := by
  induction n generalizing j with
  | zero => exact ⟨j, by rwa [Nat.le_zero.mp hmn]⟩
  | succ n ih =>
    rcases Nat.lt_or_ge n m with hnm | hnm
    · exact ⟨j, by rwa [show m = n + 1 by omega]⟩
    · obtain ⟨x, hx, -⟩ := Option.bind_eq_some_iff.mp hn
      exact ih hx hnm

/-- Going back from the node leads to it again, after `k` steps for the first time, and meets no
root. -/
structure IsCycleAt (g : CallGraph) (roots : List Nat) (i k : Nat) : Prop where
  pos : 0 < k
  nthPredecessor_eq : g.nthPredecessor k i = some i
  nthPredecessor_ne : ∀ m, 0 < m → m < k → g.nthPredecessor m i ≠ some i
  notMem_roots : ∀ m j, m < k → g.nthPredecessor m i = some j → j ∉ roots

/-- A node that going back leads to again, without meeting a root, is on a cycle. -/
theorem exists_isCycleAt (hk : g.nthPredecessor (k + 1) i = some i)
    (hroots : ∀ m j, m ≤ k → g.nthPredecessor m i = some j → j ∉ roots) :
    ∃ c, g.IsCycleAt roots i c := by
  classical
  have hex : ∃ c, 0 < c ∧ g.nthPredecessor c i = some i := ⟨k + 1, Nat.succ_pos k, hk⟩
  obtain ⟨hpos, hback⟩ := Nat.find_spec hex
  have hle : Nat.find hex ≤ k + 1 := Nat.find_min' hex ⟨Nat.succ_pos k, hk⟩
  refine ⟨Nat.find hex, hpos, hback, fun m hm hlt hmi => ?_, fun m j hlt hmj => ?_⟩
  · exact Nat.find_min hex hlt ⟨hm, hmi⟩
  · exact hroots m j (by omega) hmj

namespace IsCycleAt

/-- Before it is back, going round a cycle does not come to a node twice. -/
theorem nthPredecessor_inj (hc : g.IsCycleAt roots i k) (hmn : m < n) (hnk : n < k)
    (hm : g.nthPredecessor m i = some j) : g.nthPredecessor n i ≠ some j := by
  intro hn
  -- Whatever leads from the second visit back to `i` does so from the first visit, too early.
  have hback : g.nthPredecessor (m + (k - n)) i = some i := by
    rw [nthPredecessor_add hm, ← nthPredecessor_add hn, Nat.add_sub_cancel' (Nat.le_of_lt hnk)]
    exact hc.nthPredecessor_eq
  exact hc.nthPredecessor_ne _ (by omega) (by omega) hback

/-- The rest of a walk that has come to the `m`-th node of a cycle. -/
theorem walkEnds_from (hc : g.IsCycleAt roots i k) (hmk : m + n + 1 = k)
    (hj : g.nthPredecessor m i = some j)
    (hseen : ∀ x, x ∈ seen ↔ ∃ l ≤ m, g.nthPredecessor l i = some x) :
    ∃ e, g.WalkEnds roots seen j n e := by
  induction n generalizing m j seen with
  | zero =>
    have hp : g.firstPredecessor j = some i := by
      rw [← nthPredecessor_succ hj, show m + 1 = k from hmk]
      exact hc.nthPredecessor_eq
    exact ⟨j, .known hp ((hseen i).mpr ⟨0, Nat.zero_le m, rfl⟩)⟩
  | succ n ih =>
    -- The cycle goes on, so there is a next node, and it is a new one.
    obtain ⟨p, hnext⟩ : ∃ p, g.nthPredecessor (m + 1) i = some p :=
      exists_nthPredecessor_of_le hc.nthPredecessor_eq (by omega)
    have hnew : p ∉ seen := by
      intro hold
      obtain ⟨l, hl, hlp⟩ := (hseen p).mp hold
      exact hc.nthPredecessor_inj (by omega) (by omega) hlp hnext
    have hseen' : ∀ x, x ∈ p :: seen ↔ ∃ l ≤ m + 1, g.nthPredecessor l i = some x := by
      intro x
      rw [List.mem_cons, hseen]
      constructor
      · rintro (rfl | ⟨l, hl, hlx⟩)
        · exact ⟨m + 1, Nat.le_refl _, hnext⟩
        · exact ⟨l, by omega, hlx⟩
      · rintro ⟨l, hl, hlx⟩
        rcases Nat.lt_or_ge m l with hml | hlm
        · obtain rfl : l = m + 1 := by omega
          exact Or.inl (Option.some.inj (hlx.symm.trans hnext))
        · exact Or.inr ⟨l, hlm, hlx⟩
    obtain ⟨e, he⟩ := ih (by omega) hnext hseen'
    have hp : g.firstPredecessor j = some p := (nthPredecessor_succ hj).symm.trans hnext
    exact ⟨e, .step (hc.notMem_roots m j (by omega) hj) hp hnew he⟩

/-- **The walk on a cycle goes round it once**, and ends one step before it would be back. -/
theorem walkEnds (hc : g.IsCycleAt roots i k) : ∃ e, g.WalkEnds roots [i] i (k - 1) e := by
  have hpos := hc.pos
  refine hc.walkEnds_from (m := 0) (by omega) rfl fun x => ?_
  simp [nthPredecessor, eq_comm]

end IsCycleAt

/-! ## One step back -/

/-- A walk ends where it would end if it knew one node more or less, unless going back leads to
this node before a root is met. -/
theorem WalkEnds.congr (h : g.WalkEnds roots seen j k e)
    (hsame : ∀ x, x ≠ i → (x ∈ seen ↔ x ∈ seen'))
    (hmiss : ∀ m, g.nthPredecessor (m + 1) j = some i →
      ∃ l ≤ m, ∃ r ∈ roots, g.nthPredecessor l j = some r) :
    g.WalkEnds roots seen' j k e := by
  induction h generalizing seen' with
  | root hj => exact .root hj
  | uncalled hp => exact .uncalled hp
  | @known seen j p hp hseen =>
    by_cases hpi : p = i
    · obtain ⟨l, hl, r, hr, hlr⟩ := hmiss 0 (by rw [← hpi]; exact hp)
      obtain rfl : l = 0 := Nat.le_zero.mp hl
      obtain rfl := Option.some.inj hlr
      exact .root hr
    · exact .known hp ((hsame p hpi).mp hseen)
  | @step seen j p k e hj hp hseen _ ih =>
    have hpi : p ≠ i := by
      rintro rfl
      obtain ⟨l, hl, r, hr, hlr⟩ := hmiss 0 hp
      obtain rfl : l = 0 := Nat.le_zero.mp hl
      obtain rfl := Option.some.inj hlr
      exact hj hr
    refine .step hj hp (fun hc => hseen ((hsame p hpi).mpr hc)) (ih (fun x hx => ?_) fun m hm => ?_)
    · rw [List.mem_cons, List.mem_cons, hsame x hx]
    · rw [← nthPredecessor_succ_of_firstPredecessor hp] at hm
      obtain ⟨l, hl, r, hr, hlr⟩ := hmiss (m + 1) hm
      cases l with
      | zero =>
        obtain rfl := Option.some.inj hlr
        exact absurd hr hj
      | succ l =>
        rw [nthPredecessor_succ_of_firstPredecessor hp] at hlr
        exact ⟨l, by omega, r, hr, hlr⟩

/-- **Off the cycles, a node lies one deeper than its first predecessor.** -/
theorem walkDepth_eq_succ (hi : g.contains i) (hroot : i ∉ roots)
    (hp : g.firstPredecessor i = some p) (hcycle : ∀ k, ¬ g.IsCycleAt roots i k) :
    g.walkDepth roots i = g.walkDepth roots p + 1 := by
  have hp' : g.contains p := (calls_of_firstPredecessor hp).contains_source
  -- Otherwise `i` would be on a cycle: first to `p`, then back to `i`.
  have hmiss : ∀ m, g.nthPredecessor m p = some i →
      ∃ l < m, ∃ r ∈ roots, g.nthPredecessor l p = some r := by
    intro m hm
    by_contra hno
    rw [← nthPredecessor_succ_of_firstPredecessor hp] at hm
    have hfree : ∀ l j, l ≤ m → g.nthPredecessor l i = some j → j ∉ roots := by
      intro l j hl hlj hj
      cases l with
      | zero =>
        obtain rfl := Option.some.inj hlj
        exact hroot hj
      | succ l =>
        rw [nthPredecessor_succ_of_firstPredecessor hp] at hlj
        exact hno ⟨l, by omega, j, hj, hlj⟩
    obtain ⟨c, hc⟩ := exists_isCycleAt hm hfree
    exact hcycle c hc
  have hpi : p ≠ i := by
    rintro rfl
    obtain ⟨l, hl, -⟩ := hmiss 0 rfl
    omega
  obtain ⟨e, he⟩ := walkEnds_walkDepth roots hp'
  have hwalk : g.WalkEnds roots [p, i] p (g.walkDepth roots p) e := by
    refine he.congr (i := i) (fun x hx => by simp [hx]) fun m hm => ?_
    obtain ⟨l, hl, hr⟩ := hmiss (m + 1) hm
    exact ⟨l, by omega, hr⟩
  exact (WalkEnds.step hroot hp (by simpa using hpi) hwalk).walkDepth_eq hi

/-! ## The law -/

/-- A walk that ends at a root has gone along a path from it. -/
theorem WalkEnds.reachesIn (h : g.WalkEnds roots seen i k e) (he : e ∈ roots) :
    g.ReachesIn roots k i := by
  induction h with
  | root hi => exact hi
  | uncalled | known => exact he
  | step _ hp _ _ ih => exact ⟨_, ih he, calls_of_firstPredecessor hp⟩

/-- A path from a root that leads to a node of the graph starts at a root that exists. -/
theorem ReachesIn.existing (h : g.ReachesIn roots k i) (hi : g.contains i) :
    g.ReachesIn (g.existing roots) k i := by
  induction k generalizing i with
  | zero => exact mem_existing.mpr ⟨h, hi⟩
  | succ k ih =>
    obtain ⟨j, hj, hc⟩ := h
    exact ⟨j, ih hj hc.contains_source, hc⟩

/-- The depths of the nodes of `g` are what walking back over first predecessors makes them. -/
structure ObeysWalkLaw (g : CallGraph) (roots : List Nat) (depth : Nat → Nat) : Prop where
  /-- The walk from a node ends, and the depth of the node is its length. -/
  walkEnds : ∀ n, g.contains n → ∃ e, g.WalkEnds roots [n] n (depth n) e
  /-- Roots and nodes that nobody calls have depth zero. -/
  eq_zero : ∀ n, g.contains n → n ∈ roots ∨ g.firstPredecessor n = none → depth n = 0
  /-- On a cycle without roots, depth is one less than the length of the cycle. -/
  eq_of_isCycleAt : ∀ n k, g.contains n → g.IsCycleAt roots n k → depth n = k - 1
  /-- In all other cases a node lies one deeper than its first predecessor. -/
  eq_succ : ∀ n p, g.contains n → n ∉ roots → g.firstPredecessor n = some p →
    (∀ k, ¬ g.IsCycleAt roots n k) → depth n = 1 + depth p
  /-- No depth is as great as the number of nodes. -/
  lt_nodeCount : ∀ n, g.contains n → depth n < g.nodeCount
  /-- A walk that ends at a root is not shorter than a shortest path. -/
  distance_le : ∀ n e, g.contains n → g.WalkEnds roots [n] n (depth n) e → e ∈ roots →
    (g.depths roots .shortestPath).get n ≤ depth n

/-- **Depth by walking back obeys its law**, in every graph and for all roots. -/
theorem obeysWalkLaw_depths (g : CallGraph) (roots : List Nat) :
    g.ObeysWalkLaw roots (g.depths roots .firstPredecessor).get where
  walkEnds n hn := by
    rw [get_depths_firstPredecessor hn]
    exact walkEnds_walkDepth roots hn
  eq_zero n hn hstop := by
    rw [get_depths_firstPredecessor hn, walkDepth_eq_zero_iff hn]
    exact hstop.imp_right Or.inl
  eq_of_isCycleAt n k hn hc := by
    obtain ⟨e, he⟩ := hc.walkEnds
    rw [get_depths_firstPredecessor hn]
    exact he.walkDepth_eq hn
  eq_succ n p hn hroot hp hcycle := by
    have hp' : g.contains p := (calls_of_firstPredecessor hp).contains_source
    rw [get_depths_firstPredecessor hn, get_depths_firstPredecessor hp', Nat.add_comm]
    exact walkDepth_eq_succ hn hroot hp hcycle
  lt_nodeCount n hn := by
    obtain ⟨e, he⟩ := walkEnds_walkDepth roots hn
    have hle := he.length_add_le (List.nodup_singleton n) (by simpa using hn)
    rw [List.length_singleton] at hle
    rw [get_depths_firstPredecessor hn]
    omega
  distance_le n e hn hwalk he := by
    have hpath := (hwalk.reachesIn he).existing hn
    obtain ⟨r, hr, hrn⟩ := exists_reachesIn_iff.mp ⟨_, hpath⟩
    obtain ⟨hroot, hlive⟩ := mem_existing.mp hr
    exact (isDistance_get_depths hn ⟨r, hroot, hlive, hrn⟩).le hpath

end CallGraph

end CallAtlas
