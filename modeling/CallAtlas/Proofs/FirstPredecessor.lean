import CallAtlas.Proofs.InducedSubgraph
import Mathlib.Data.List.Nodup

/-!
# Walking back over first predecessors

The first predecessor of a node is the source of the incoming edge with the smallest number, and
the walk from a node goes back over first predecessors until it meets a root, a node that nobody
calls, or a node it has already been to.

Two facts about the walk carry everything that is said about depth by walking back.

* A step back never increases the depth, not even round a cycle. The walk from the predecessor may
  come back to the node it was a predecessor of, but it ends there.
* The walk depends only on the nodes it visits. In an induced sub-graph that holds the first
  predecessor of each of its nodes that is no root, it is the same walk.

## Main results

* `CallGraph.firstPredecessor_eq_some_iff`, `CallGraph.firstPredecessor_eq_none_iff` — what the
  first predecessor is
* `CallGraph.walkDepth_le_of_firstPredecessor` — a step back does not increase the depth
* `CallGraph.IsInduced.walkDepth_eq` — the walk in a sub-graph
-/

namespace CallAtlas

namespace CallGraph

variable {g h : CallGraph} {roots seen : List Nat} {i n p : Nat}

/-! ## The edge with the smallest number -/

theorem foldl_earlier_some (es : List GraphEdge) (b : GraphEdge) :
    ∃ e, es.foldl earlier (some b) = some e ∧ e ∈ b :: es ∧ ∀ e' ∈ b :: es, e.id ≤ e'.id := by
  induction es generalizing b with
  | nil => exact ⟨b, rfl, List.mem_singleton_self b, by simp⟩
  | cons a es ih =>
    rw [List.foldl_cons, earlier]
    split
    case isTrue hlt =>
      obtain ⟨e, he, hmem, hmin⟩ := ih a
      refine ⟨e, he, List.mem_cons_of_mem b hmem, fun e' he' => ?_⟩
      rcases List.mem_cons.mp he' with rfl | he'
      · exact Nat.le_trans (hmin a List.mem_cons_self) (Nat.le_of_lt hlt)
      · exact hmin e' he'
    case isFalse hge =>
      obtain ⟨e, he, hmem, hmin⟩ := ih b
      refine ⟨e, he, ?_, fun e' he' => ?_⟩
      · rcases List.mem_cons.mp hmem with rfl | hmem
        · exact List.mem_cons_self
        · exact List.mem_cons_of_mem b (List.mem_cons_of_mem a hmem)
      · rcases List.mem_cons.mp he' with rfl | he'
        · exact hmin _ List.mem_cons_self
        rcases List.mem_cons.mp he' with rfl | he'
        · exact Nat.le_trans (hmin b List.mem_cons_self) (Nat.not_lt.mp hge)
        · exact hmin e' (List.mem_cons_of_mem b he')

/-- An edge into `i` whose number is the smallest among all edges into `i`. -/
structure IsFirstEdge (g : CallGraph) (i : Nat) (e : GraphEdge) : Prop where
  mem : e ∈ g.edges
  target_eq : e.target = i
  le : ∀ {e' : GraphEdge}, e' ∈ g.edges → e'.target = i → e.id ≤ e'.id

theorem mem_incoming {e : GraphEdge} : e ∈ g.incoming i ↔ e ∈ g.edges ∧ e.target = i := by
  rw [GraphTable.incoming, List.mem_filter, decide_eq_true_eq]

/-- Edges have different numbers, so there is only one first edge. -/
theorem IsFirstEdge.unique {e e' : GraphEdge} (he : g.IsFirstEdge i e) (he' : g.IsFirstEdge i e') :
    e = e' := by
  have hid : e.id = e'.id :=
    Nat.le_antisymm (he.le he'.mem he'.target_eq) (he'.le he.mem he.target_eq)
  exact List.inj_on_of_nodup_map (List.nodup_append.mp g.coherent.nodup_ids).1 he.mem he'.mem hid

theorem firstPredecessor_eq_none_iff :
    g.firstPredecessor i = none ↔ ∀ e ∈ g.edges, e.target ≠ i := by
  have hiff : g.firstPredecessor i = none ↔ g.incoming i = [] := by
    rw [firstPredecessor]
    cases hin : g.incoming i with
    | nil => simp
    | cons e es =>
      obtain ⟨b, hb, -⟩ := foldl_earlier_some es e
      rw [List.foldl_cons, earlier, hb]
      simp
  rw [hiff, GraphTable.incoming, List.filter_eq_nil_iff]
  simp only [decide_eq_true_eq, ne_eq]

theorem exists_isFirstEdge (hp : g.firstPredecessor i = some p) :
    ∃ e, g.IsFirstEdge i e ∧ e.source = p := by
  rw [firstPredecessor] at hp
  cases hin : g.incoming i with
  | nil => simp [hin] at hp
  | cons a es =>
    obtain ⟨e, he, hmem, hmin⟩ := foldl_earlier_some es a
    rw [hin, List.foldl_cons, earlier, he, Option.map_some, Option.some.injEq] at hp
    rw [← hin] at hmem hmin
    obtain ⟨hedge, htarget⟩ := mem_incoming.mp hmem
    exact ⟨e, ⟨hedge, htarget, fun he' ht' => hmin _ (mem_incoming.mpr ⟨he', ht'⟩)⟩, hp⟩

theorem firstPredecessor_eq_some_iff :
    g.firstPredecessor i = some p ↔ ∃ e, g.IsFirstEdge i e ∧ e.source = p := by
  refine ⟨exists_isFirstEdge, ?_⟩
  rintro ⟨e, he, rfl⟩
  cases hfp : g.firstPredecessor i with
  | none => exact absurd he.target_eq (firstPredecessor_eq_none_iff.mp hfp e he.mem)
  | some p =>
    obtain ⟨e', he', rfl⟩ := exists_isFirstEdge hfp
    rw [he'.unique he]

theorem calls_of_firstPredecessor (hp : g.firstPredecessor i = some p) : g.Calls p i := by
  obtain ⟨e, he, hsource⟩ := exists_isFirstEdge hp
  exact ⟨e, he.mem, hsource, he.target_eq⟩

theorem exists_firstPredecessor {j : Nat} (hc : g.Calls j i) :
    ∃ p, g.firstPredecessor i = some p := by
  obtain ⟨e, he, -, htarget⟩ := hc
  rw [← Option.ne_none_iff_exists']
  intro hnone
  exact firstPredecessor_eq_none_iff.mp hnone e he htarget

/-- The first edge into a node is still the first if it stays. -/
theorem IsInduced.firstPredecessor_eq (hg : IsInduced h g) (hi : h.contains i)
    (hkeep : ∀ {p}, g.firstPredecessor i = some p → h.contains p) :
    h.firstPredecessor i = g.firstPredecessor i := by
  have hsub : ∀ {e : GraphEdge}, e ∈ h.edges → e ∈ g.edges := by
    intro e he
    rw [hg.edges_eq] at he
    exact (List.mem_filter.mp he).1
  cases hfp : g.firstPredecessor i with
  | none =>
    rw [firstPredecessor_eq_none_iff] at hfp ⊢
    exact fun e he => hfp e (hsub he)
  | some p =>
    obtain ⟨e, he, rfl⟩ := exists_isFirstEdge hfp
    refine firstPredecessor_eq_some_iff.mpr
      ⟨e, ⟨?_, he.target_eq, fun he' => he.le (hsub he')⟩, rfl⟩
    rw [hg.edges_eq, List.mem_filter, Bool.and_eq_true, he.target_eq]
    exact ⟨he.mem, hkeep hfp, hi⟩

/-! ## The walk -/

theorem walkBack_of_mem_roots (hi : i ∈ roots) (fuel : Nat) : g.walkBack roots fuel seen i = 0 := by
  cases fuel with
  | zero => rfl
  | succ fuel => rw [walkBack, if_pos (List.contains_iff_mem.mpr hi)]

theorem walkBack_of_firstPredecessor_mem (hp : g.firstPredecessor i = some p) (hseen : p ∈ seen)
    (fuel : Nat) : g.walkBack roots fuel seen i = 0 := by
  cases fuel with
  | zero => rfl
  | succ fuel =>
    rw [walkBack, hp]
    simp [hseen]

/-- One step of a walk that goes on. -/
theorem walkBack_succ (hi : i ∉ roots) (hp : g.firstPredecessor i = some p) (hseen : p ∉ seen)
    (fuel : Nat) :
    g.walkBack roots (fuel + 1) seen i = g.walkBack roots fuel (p :: seen) p + 1 := by
  rw [walkBack, hp]
  simp [hi, hseen]

theorem walkBack_of_firstPredecessor_none (hp : g.firstPredecessor i = none) (fuel : Nat) :
    g.walkBack roots fuel seen i = 0 := by
  cases fuel with
  | zero => rfl
  | succ fuel => rw [walkBack, hp]; simp

theorem walkBack_one_le (i : Nat) : g.walkBack roots 1 seen i ≤ 1 := by
  by_cases hi : i ∈ roots
  · simp [walkBack_of_mem_roots hi]
  cases hp : g.firstPredecessor i with
  | none => simp [walkBack_of_firstPredecessor_none hp]
  | some p =>
    by_cases hseen : p ∈ seen
    · simp [walkBack_of_firstPredecessor_mem hp hseen]
    · exact Nat.le_of_eq (walkBack_succ hi hp hseen 0)

/-- A walk that does not know it has been to `n` is longer by one step at most: at `n` it meets a
node it knows. -/
theorem walkBack_succ_le (hp : g.firstPredecessor n = some p) {seen seen' : List Nat}
    (hmem : p ∈ seen) (hsub : seen' ⊆ n :: seen) (fuel i : Nat) :
    g.walkBack roots (fuel + 1) seen i ≤ g.walkBack roots fuel seen' i + 1 := by
  induction fuel generalizing seen seen' i with
  | zero => exact walkBack_one_le i
  | succ fuel ih =>
    by_cases hi : i ∈ roots
    · simp [walkBack_of_mem_roots hi]
    cases hq : g.firstPredecessor i with
    | none => simp [walkBack_of_firstPredecessor_none hq]
    | some q =>
      by_cases hqs : q ∈ seen
      · simp [walkBack_of_firstPredecessor_mem hq hqs]
      rw [walkBack_succ hi hq hqs]
      by_cases hqn : q = n
      · subst hqn
        rw [walkBack_of_firstPredecessor_mem hp (List.mem_cons_of_mem q hmem)]
        omega
      · have hqs' : q ∉ seen' := fun hc => by
          rcases List.mem_cons.mp (hsub hc) with hqn' | hqs'
          · exact hqn hqn'
          · exact hqs hqs'
        rw [walkBack_succ hi hq hqs']
        refine Nat.succ_le_succ (ih (List.mem_cons_of_mem q hmem) ?_ q)
        intro x hx
        rcases List.mem_cons.mp hx with rfl | hx
        · simp
        · rcases List.mem_cons.mp (hsub hx) with rfl | hx
          · simp
          · simp [hx]

/-- **A step back does not increase the depth.** -/
theorem walkDepth_le_of_firstPredecessor (hi : i ∉ roots) (hp : g.firstPredecessor i = some p) :
    g.walkDepth roots p ≤ g.walkDepth roots i := by
  have hlt : i < g.slots.size := lt_size_of_contains (calls_of_firstPredecessor hp).contains_target
  obtain ⟨fuel, hfuel⟩ : ∃ fuel, g.slots.size = fuel + 1 :=
    Nat.exists_eq_succ_of_ne_zero (Nat.ne_zero_of_lt hlt)
  rw [walkDepth, walkDepth, hfuel]
  by_cases hpi : p = i
  · exact Nat.le_of_eq (by rw [hpi])
  · rw [walkBack_succ hi hp (by simpa using hpi)]
    exact walkBack_succ_le hp (List.mem_singleton_self p) (by simp) fuel p

/-- The walk depends only on the nodes it visits. -/
theorem IsInduced.walkBack_eq (hg : IsInduced h g)
    (hclosed : ∀ {i p}, h.contains i → i ∉ roots → g.firstPredecessor i = some p → h.contains p)
    (hi : h.contains i) (fuel : Nat) (seen : List Nat) :
    h.walkBack roots fuel seen i = g.walkBack roots fuel seen i := by
  induction fuel generalizing seen i with
  | zero => rfl
  | succ fuel ih =>
    by_cases hroot : i ∈ roots
    · rw [walkBack_of_mem_roots hroot, walkBack_of_mem_roots hroot]
    have hfp : h.firstPredecessor i = g.firstPredecessor i :=
      hg.firstPredecessor_eq hi (hclosed hi hroot)
    cases hp : g.firstPredecessor i with
    | none =>
      rw [walkBack_of_firstPredecessor_none hp, walkBack_of_firstPredecessor_none (hfp.trans hp)]
    | some p =>
      by_cases hseen : p ∈ seen
      · rw [walkBack_of_firstPredecessor_mem hp hseen,
          walkBack_of_firstPredecessor_mem (hfp.trans hp) hseen]
      · rw [walkBack_succ hroot hp hseen, walkBack_succ hroot (hfp.trans hp) hseen,
          ih (hclosed hi hroot hp)]

theorem IsInduced.walkDepth_eq (hg : IsInduced h g)
    (hclosed : ∀ {i p}, h.contains i → i ∉ roots → g.firstPredecessor i = some p → h.contains p)
    (hi : h.contains i) : h.walkDepth roots i = g.walkDepth roots i := by
  rw [walkDepth, walkDepth, hg.size_eq]
  exact hg.walkBack_eq hclosed hi _ _

end CallGraph

end CallAtlas
