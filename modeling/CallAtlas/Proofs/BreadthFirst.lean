import CallAtlas.CallGraph.Depth
import CallAtlas.Proofs.Reachability
import Mathlib.Data.List.Perm.Subperm

/-!
# The search in breadth finds distances

A search in breadth labels each node once, when it meets it, and keeps a queue of the nodes whose
successors are still to be labelled. Its invariant `Spreads` is the usual one. Labels are lengths of
paths; the successors of a node that has left the queue are labelled with at most one more; labels
do not decrease along the queue; and none exceeds a label in the queue by more than one. The last
two are what makes a label that was there before good enough: the node that is taken from the queue
could not give its successor a smaller one.

Each turn takes one node from the queue, and only a node without a label is put there, so the queue
is empty after as many turns as there are nodes. Then every node that a root reaches has its
distance for a label, and the last pass labels the others.

## Main definitions

* `Labelling.Grows` — one labelling of several nodes, and what it changes
* `Labelling.Spreads` — the invariant
* `Labelling.Turn` — a turn that takes a node from the queue
* `Labelling.pending` — the turns that a search has left, at most

## Main results

* `Labelling.Spreads.step`, `Labelling.Spreads.run` — the invariant is kept
* `CallGraph.queue_run_nodeCount` — the queue runs empty
* `CallGraph.lookup_distances_of_isDistance` — labels are distances
* `CallGraph.lookup_distances_of_not_reaches` — a node that no root reaches is labelled with zero
* `CallGraph.isSome_lookup_distances` — exactly the nodes are labelled
* `CallGraph.depths_shortestPath` — depths by distance are these labels, node by node
-/

namespace CallAtlas

namespace Labelling

variable {g : CallGraph} {roots js queue fresh : List Nat} {s t : Labelling} {i j k d e m n : Nat}

/-! ## Labelling several nodes -/

/-- The label of a node, zero if it has none. -/
def depth (s : Labelling) (i : Nat) : Nat :=
  (s.labels.lookup i).getD 0

theorem depth_of_lookup (hi : s.labels.lookup i = some d) : s.depth i = d := by
  rw [depth, hi, Option.getD_some]

/-- `t` arises from `s` when the nodes in `js` are labelled with `d`: those of them without a label,
listed in `fresh`, get one and are put in the queue, and nothing else changes. -/
structure Grows (d : Nat) (js fresh : List Nat) (s t : Labelling) : Prop where
  nodup : fresh.Nodup
  mem_fresh : ∀ j, j ∈ fresh ↔ j ∈ js ∧ s.labels.lookup j = none
  queue_eq : t.queue = s.queue ++ fresh
  lookup_eq : ∀ j, t.labels.lookup j = if j ∈ fresh then some d else s.labels.lookup j

theorem lookup_cons (labels : List (Nat × Nat)) (i d j : Nat) :
    ((i, d) :: labels).lookup j = if j = i then some d else labels.lookup j := by
  rw [List.lookup_cons]
  by_cases hji : j = i
  · rw [beq_iff_eq.mpr hji, if_pos hji]
  · rw [beq_false_of_ne hji, if_neg hji]

theorem lookup_label (hi : s.labels.lookup i = none) (d j : Nat) :
    (s.label d i).labels.lookup j = if j = i then some d else s.labels.lookup j := by
  rw [label, hi, Option.isSome_none, if_neg Bool.false_ne_true, lookup_cons]

theorem exists_foldl_label (d : Nat) (js : List Nat) (s : Labelling) :
    ∃ fresh, Grows d js fresh s (js.foldl (label d) s) := by
  induction js generalizing s with
  | nil => exact ⟨[], List.nodup_nil, by simp, by simp, by simp⟩
  | cons i js ih =>
    rw [List.foldl_cons]
    obtain ⟨fresh, hgrows⟩ := ih (s.label d i)
    cases hi : s.labels.lookup i with
    | some e =>
      -- The node has its label: it is not new, nor is it among the nodes that are.
      have hlabel : s.label d i = s := by rw [label, hi]; rfl
      rw [hlabel] at hgrows ⊢
      refine ⟨fresh, hgrows.nodup, fun j => ?_, hgrows.queue_eq, hgrows.lookup_eq⟩
      rw [hgrows.mem_fresh, List.mem_cons]
      constructor
      · exact fun hj => ⟨Or.inr hj.1, hj.2⟩
      · rintro ⟨rfl | hj, hnone⟩
        · exact absurd (hi.symm.trans hnone) (Option.some_ne_none e)
        · exact ⟨hj, hnone⟩
    | none =>
      have hlookup := lookup_label hi d
      have hnew : i ∉ fresh := by
        rw [hgrows.mem_fresh, hlookup, if_pos rfl]
        rintro ⟨-, hsome⟩
        exact Option.some_ne_none d hsome
      refine ⟨i :: fresh, List.nodup_cons.mpr ⟨hnew, hgrows.nodup⟩, fun j => ?_, ?_, fun j => ?_⟩
      · rw [List.mem_cons, List.mem_cons, hgrows.mem_fresh, hlookup]
        by_cases hji : j = i
        · simp [hji, hi]
        · simp [hji]
      · rw [hgrows.queue_eq, label, hi]
        simp
      · rw [hgrows.lookup_eq, hlookup]
        by_cases hji : j = i
        · simp [hji, hnew]
        · simp [hji]

namespace Grows

theorem lookup_of_mem_fresh (hgrows : Grows d js fresh s t) (hj : j ∈ fresh) :
    t.labels.lookup j = some d := by
  rw [hgrows.lookup_eq, if_pos hj]

/-- A label is never changed. -/
theorem lookup_of_lookup (hgrows : Grows d js fresh s t) (hj : s.labels.lookup j = some e) :
    t.labels.lookup j = some e := by
  have hold : j ∉ fresh := fun hfresh =>
    Option.some_ne_none e (hj.symm.trans ((hgrows.mem_fresh j).mp hfresh).2)
  rw [hgrows.lookup_eq, if_neg hold, hj]

theorem lookup_cases (hgrows : Grows d js fresh s t) (hj : t.labels.lookup j = some e) :
    j ∈ fresh ∧ e = d ∨ j ∉ fresh ∧ s.labels.lookup j = some e := by
  rw [hgrows.lookup_eq] at hj
  by_cases hfresh : j ∈ fresh
  · rw [if_pos hfresh] at hj
    exact Or.inl ⟨hfresh, (Option.some.inj hj).symm⟩
  · rw [if_neg hfresh] at hj
    exact Or.inr ⟨hfresh, hj⟩

/-- All nodes that were to be labelled have labels, new ones or old ones. -/
theorem exists_lookup (hgrows : Grows d js fresh s t) (hj : j ∈ js) :
    t.labels.lookup j = some d ∨ ∃ e, s.labels.lookup j = some e ∧ t.labels.lookup j = some e := by
  cases hold : s.labels.lookup j with
  | none => exact Or.inl (hgrows.lookup_of_mem_fresh ((hgrows.mem_fresh j).mpr ⟨hj, hold⟩))
  | some e => exact Or.inr ⟨e, rfl, hgrows.lookup_of_lookup hold⟩

end Grows

/-! ## The invariant -/

/-- What is true of a search from some roots before and after every turn. -/
structure Spreads (g : CallGraph) (roots : List Nat) (s : Labelling) : Prop where
  /-- A label is the length of a path from a root. -/
  reachesIn : ∀ i d, s.labels.lookup i = some d → g.ReachesIn roots d i
  /-- Roots are labelled with zero. -/
  lookup_root : ∀ r ∈ roots, s.labels.lookup r = some 0
  /-- What is in the queue has a label. -/
  isSome_lookup : ∀ i ∈ s.queue, ∃ d, s.labels.lookup i = some d
  /-- The successors of a node that has left the queue have labels that are greater by one at
  most. -/
  exists_lookup_le : ∀ i d, s.labels.lookup i = some d → i ∉ s.queue →
    ∀ j, g.Calls i j → ∃ e ≤ d + 1, s.labels.lookup j = some e
  /-- Labels do not decrease along the queue. -/
  pairwise_queue : s.queue.Pairwise fun i j => s.depth i ≤ s.depth j
  /-- No label exceeds a label in the queue by more than one. -/
  le_depth : ∀ i ∈ s.queue, ∀ j e, s.labels.lookup j = some e → e ≤ s.depth i + 1

theorem spreads_start (g : CallGraph) (roots : List Nat) : Spreads g roots (start roots) := by
  obtain ⟨fresh, hgrows⟩ := exists_foldl_label 0 roots ⟨[], []⟩
  have hqueue : (start roots).queue = fresh := by
    rw [start, hgrows.queue_eq, List.nil_append]
  have hmem : ∀ j, j ∈ fresh ↔ j ∈ roots := fun j => by
    rw [hgrows.mem_fresh]
    exact and_iff_left rfl
  have hlookup : ∀ {j e}, (start roots).labels.lookup j = some e → j ∈ fresh ∧ e = 0 := fun hj =>
    (hgrows.lookup_cases hj).resolve_right fun hold => Option.some_ne_none _ hold.2.symm
  constructor
  case reachesIn =>
    intro i d hi
    obtain ⟨hfresh, rfl⟩ := hlookup hi
    exact (hmem i).mp hfresh
  case lookup_root => exact fun r hr => hgrows.lookup_of_mem_fresh ((hmem r).mpr hr)
  case isSome_lookup =>
    intro i hi
    rw [hqueue] at hi
    exact ⟨0, hgrows.lookup_of_mem_fresh hi⟩
  case exists_lookup_le =>
    intro i d hi hout
    rw [hqueue] at hout
    exact absurd (hlookup hi).1 hout
  case pairwise_queue =>
    rw [hqueue]
    refine List.pairwise_of_forall_mem_list fun i hi j _ => ?_
    have hzero : (start roots).depth i = 0 := depth_of_lookup (hgrows.lookup_of_mem_fresh hi)
    exact hzero ▸ Nat.zero_le _
  case le_depth =>
    intro i _ j e hj
    rw [(hlookup hj).2]
    exact Nat.zero_le _

/-! ### One turn -/

theorem step_of_queue_nil {next : Nat → List Nat} (hs : s.queue = []) : s.step next = s := by
  obtain ⟨labels, queue⟩ := s
  obtain rfl : queue = [] := hs
  rfl

/-- The turn from `s` to `t` takes `i`, with its label `d`, from the front of the queue. -/
structure Turn (g : CallGraph) (i d : Nat) (queue fresh : List Nat) (s t : Labelling) : Prop where
  queue_eq : s.queue = i :: queue
  lookup_eq : s.labels.lookup i = some d
  grows : Grows (d + 1) (g.successors i) fresh ⟨s.labels, queue⟩ t

theorem Spreads.exists_turn (hs : Spreads g roots s) (hqueue : s.queue ≠ []) :
    ∃ i d queue fresh, Turn g i d queue fresh s (s.step g.successors) := by
  obtain ⟨labels, _ | ⟨i, queue⟩⟩ := s
  · exact absurd rfl hqueue
  obtain ⟨d, hd⟩ := hs.isSome_lookup i List.mem_cons_self
  obtain ⟨fresh, hgrows⟩ := exists_foldl_label (d + 1) (g.successors i) ⟨labels, queue⟩
  refine ⟨i, d, queue, fresh, rfl, hd, ?_⟩
  rw [Labelling.step, hd, Option.getD_some]
  exact hgrows

namespace Turn

theorem mem_queue (ht : Turn g i d queue fresh s t) (hj : j ∈ queue) : j ∈ s.queue := by
  rw [ht.queue_eq]
  exact List.mem_cons_of_mem i hj

theorem mem_queue_self (ht : Turn g i d queue fresh s t) : i ∈ s.queue := by
  rw [ht.queue_eq]
  exact List.mem_cons_self

theorem mem_queue_iff (ht : Turn g i d queue fresh s t) : j ∈ t.queue ↔ j ∈ queue ∨ j ∈ fresh := by
  rw [ht.grows.queue_eq, List.mem_append]

theorem depth_fresh (ht : Turn g i d queue fresh s t) (hj : j ∈ fresh) : t.depth j = d + 1 :=
  depth_of_lookup (ht.grows.lookup_of_mem_fresh hj)

/-- What stays in the queue keeps its label. -/
theorem depth_queue (ht : Turn g i d queue fresh s t) (hs : Spreads g roots s) (hj : j ∈ queue) :
    t.depth j = s.depth j := by
  obtain ⟨e, he⟩ := hs.isSome_lookup j (ht.mem_queue hj)
  rw [depth_of_lookup he, depth_of_lookup (ht.grows.lookup_of_lookup he)]

/-- No label is greater than the new ones. -/
theorem le_of_lookup (ht : Turn g i d queue fresh s t) (hs : Spreads g roots s)
    (hj : t.labels.lookup j = some e) : e ≤ d + 1 := by
  rcases ht.grows.lookup_cases hj with ⟨-, rfl⟩ | ⟨-, hold⟩
  · exact Nat.le_refl _
  · have hle := hs.le_depth i ht.mem_queue_self j e hold
    rwa [depth_of_lookup ht.lookup_eq] at hle

/-- No label in the queue is smaller than that of the node that was taken from it. -/
theorem le_depth (ht : Turn g i d queue fresh s t) (hs : Spreads g roots s) (hj : j ∈ t.queue) :
    d ≤ t.depth j := by
  rcases ht.mem_queue_iff.mp hj with hold | hfresh
  · have hsorted := hs.pairwise_queue
    rw [ht.queue_eq, List.pairwise_cons, depth_of_lookup ht.lookup_eq] at hsorted
    rw [ht.depth_queue hs hold]
    exact hsorted.1 j hold
  · rw [ht.depth_fresh hfresh]
    exact Nat.le_succ d

theorem pairwise_queue (ht : Turn g i d queue fresh s t) (hs : Spreads g roots s) :
    t.queue.Pairwise fun j k => t.depth j ≤ t.depth k := by
  have hsorted := hs.pairwise_queue
  rw [ht.queue_eq, List.pairwise_cons] at hsorted
  rw [ht.grows.queue_eq, List.pairwise_append]
  refine ⟨hsorted.2.imp_of_mem fun {j k} hj hk hjk => ?_, ?_, fun j hj k hk => ?_⟩
  · rwa [ht.depth_queue hs hj, ht.depth_queue hs hk]
  · refine List.pairwise_of_forall_mem_list fun j hj k hk => ?_
    rw [ht.depth_fresh hj, ht.depth_fresh hk]
  · obtain ⟨e, he⟩ := hs.isSome_lookup j (ht.mem_queue hj)
    have hnow := ht.grows.lookup_of_lookup he
    rw [ht.depth_fresh hk, depth_of_lookup hnow]
    exact ht.le_of_lookup hs hnow

theorem exists_lookup_le (ht : Turn g i d queue fresh s t) (hs : Spreads g roots s)
    (hj : t.labels.lookup j = some e) (hout : j ∉ t.queue) (hc : g.Calls j k) :
    ∃ m ≤ e + 1, t.labels.lookup k = some m := by
  rw [ht.mem_queue_iff, not_or] at hout
  obtain ⟨-, hold⟩ := (ht.grows.lookup_cases hj).resolve_left fun hnew => hout.2 hnew.1
  by_cases hji : j = i
  · -- A successor of `i` with an older label has one that is small enough.
    subst hji
    obtain rfl : e = d := Option.some.inj (hold.symm.trans ht.lookup_eq)
    rcases ht.grows.exists_lookup (CallGraph.mem_successors.mpr hc) with hnew | ⟨m, -, hm⟩
    · exact ⟨e + 1, Nat.le_refl _, hnew⟩
    · exact ⟨m, ht.le_of_lookup hs hm, hm⟩
  · have hwas : j ∉ s.queue := by
      rw [ht.queue_eq]
      exact List.not_mem_cons_of_ne_of_not_mem hji hout.1
    obtain ⟨m, hm, hk⟩ := hs.exists_lookup_le j e hold hwas k hc
    exact ⟨m, hm, ht.grows.lookup_of_lookup hk⟩

theorem spreads (ht : Turn g i d queue fresh s t) (hs : Spreads g roots s) :
    Spreads g roots t where
  reachesIn j e hj := by
    rcases ht.grows.lookup_cases hj with ⟨hfresh, rfl⟩ | ⟨-, hold⟩
    · have hc : g.Calls i j := CallGraph.mem_successors.mp ((ht.grows.mem_fresh j).mp hfresh).1
      exact ⟨i, hs.reachesIn i d ht.lookup_eq, hc⟩
    · exact hs.reachesIn j e hold
  lookup_root r hr := ht.grows.lookup_of_lookup (hs.lookup_root r hr)
  isSome_lookup j hj := by
    rcases ht.mem_queue_iff.mp hj with hold | hfresh
    · obtain ⟨e, he⟩ := hs.isSome_lookup j (ht.mem_queue hold)
      exact ⟨e, ht.grows.lookup_of_lookup he⟩
    · exact ⟨d + 1, ht.grows.lookup_of_mem_fresh hfresh⟩
  exists_lookup_le _ _ hj hout _ hc := ht.exists_lookup_le hs hj hout hc
  pairwise_queue := ht.pairwise_queue hs
  le_depth _ hj _ _ hk := Nat.le_trans (ht.le_of_lookup hs hk) (Nat.succ_le_succ (ht.le_depth hs hj))

end Turn

/-- One turn keeps the invariant. -/
theorem Spreads.step (hs : Spreads g roots s) : Spreads g roots (s.step g.successors) := by
  by_cases hqueue : s.queue = []
  · rwa [step_of_queue_nil hqueue]
  · obtain ⟨_, _, _, _, ht⟩ := hs.exists_turn hqueue
    exact ht.spreads hs

theorem run_eq_iterate (next : Nat → List Nat) (n : Nat) (s : Labelling) :
    s.run next n = (step next)^[n] s := by
  induction n generalizing s with
  | zero => rfl
  | succ n ih => exact ih (s.step next)

theorem Spreads.run (hs : Spreads g roots s) (n : Nat) :
    Spreads g roots (s.run g.successors n) := by
  rw [run_eq_iterate]
  exact Function.Iterate.rec (Spreads g roots) hs (fun _ => Spreads.step) n

/-- With an empty queue, a path to a node bounds its label. -/
theorem Spreads.exists_lookup_of_reachesIn (hs : Spreads g roots s) (hqueue : s.queue = [])
    (hm : g.ReachesIn roots m i) : ∃ d ≤ m, s.labels.lookup i = some d := by
  induction m generalizing i with
  | zero => exact ⟨0, Nat.le_refl 0, hs.lookup_root i hm⟩
  | succ m ih =>
    obtain ⟨j, hj, hc⟩ := hm
    obtain ⟨e, he, hlookup⟩ := ih hj
    have hout : j ∉ s.queue := hqueue ▸ List.not_mem_nil
    obtain ⟨d, hd, hi⟩ := hs.exists_lookup_le j e hlookup hout i hc
    exact ⟨d, Nat.le_trans hd (Nat.succ_le_succ he), hi⟩

/-- With an empty queue, distances are labels. -/
theorem Spreads.lookup_eq_some_iff (hs : Spreads g roots s) (hqueue : s.queue = []) :
    s.labels.lookup i = some d ↔ g.IsDistance roots i d := by
  constructor
  · intro hi
    refine ⟨hs.reachesIn i d hi, fun {m} hm => ?_⟩
    obtain ⟨e, he, hlookup⟩ := hs.exists_lookup_of_reachesIn hqueue hm
    exact Option.some.inj (hi.symm.trans hlookup) ▸ he
  · intro hi
    obtain ⟨e, he, hlookup⟩ := hs.exists_lookup_of_reachesIn hqueue hi.reachesIn
    rw [hlookup, Nat.le_antisymm he (hi.le (hs.reachesIn i e hlookup))]

/-! ## The search ends -/

/-- The nodes in the queue, and those that may still be put there. -/
def pending (g : CallGraph) (s : Labelling) : Nat :=
  s.queue.length + (g.nodes.filter fun i => (s.labels.lookup i).isNone).length

/-- Labelling nodes moves them from those without a label to the queue. -/
theorem Grows.pending_le (hgrows : Grows d js fresh s t) (hjs : ∀ j ∈ js, g.contains j) :
    pending g t ≤ pending g s := by
  have hsub : fresh ++ g.nodes.filter (fun i => (t.labels.lookup i).isNone) ⊆
      g.nodes.filter fun i => (s.labels.lookup i).isNone := by
    intro i hi
    rw [List.mem_filter, Option.isNone_iff_eq_none]
    rcases List.mem_append.mp hi with hfresh | hrest
    · obtain ⟨hmem, hnone⟩ := (hgrows.mem_fresh i).mp hfresh
      exact ⟨CallGraph.mem_nodes.mpr (hjs i hmem), hnone⟩
    · obtain ⟨hmem, hnone⟩ := List.mem_filter.mp hrest
      rw [Option.isNone_iff_eq_none] at hnone
      refine ⟨hmem, Option.eq_none_iff_forall_ne_some.mpr fun e he => ?_⟩
      exact Option.some_ne_none e ((hgrows.lookup_of_lookup he).symm.trans hnone)
  have hnodup : (fresh ++ g.nodes.filter fun i => (t.labels.lookup i).isNone).Nodup := by
    refine List.nodup_append.mpr ⟨hgrows.nodup, (List.nodup_range.filter _).filter _, ?_⟩
    rintro i hi _ hj rfl
    have hnone := (List.mem_filter.mp hj).2
    rw [hgrows.lookup_of_mem_fresh hi] at hnone
    exact Bool.false_ne_true hnone
  have hlength := (List.subperm_of_subset hnodup hsub).length_le
  rw [List.length_append] at hlength
  rw [pending, pending, hgrows.queue_eq, List.length_append]
  omega

theorem pending_step_lt (hs : s.queue ≠ []) :
    pending g (s.step g.successors) < pending g s := by
  obtain ⟨labels, _ | ⟨i, queue⟩⟩ := s
  · exact absurd rfl hs
  obtain ⟨fresh, hgrows⟩ :=
    exists_foldl_label ((labels.lookup i).getD 0 + 1) (g.successors i) ⟨labels, queue⟩
  have hle : pending g (Labelling.step g.successors ⟨labels, i :: queue⟩) ≤
      pending g ⟨labels, queue⟩ :=
    hgrows.pending_le fun j hj => (CallGraph.mem_successors.mp hj).contains_target
  have hlt : pending g ⟨labels, queue⟩ < pending g ⟨labels, i :: queue⟩ := by
    simp [pending]
  exact Nat.lt_of_le_of_lt hle hlt

theorem queue_run_eq_nil (hs : pending g s ≤ n) : (s.run g.successors n).queue = [] := by
  have hstay : ∀ t : Labelling, t.queue = [] → (t.step g.successors).queue = [] := fun t ht => by
    rw [step_of_queue_nil ht, ht]
  rw [run_eq_iterate]
  exact iterate_of_measure_le hstay (fun _ => pending_step_lt) hs

theorem pending_start_le (hroots : ∀ r ∈ roots, g.contains r) :
    pending g (start roots) ≤ g.nodeCount := by
  obtain ⟨fresh, hgrows⟩ := exists_foldl_label 0 roots ⟨[], []⟩
  refine Nat.le_trans (hgrows.pending_le hroots) (Nat.le_of_eq ?_)
  simp [pending, CallGraph.nodeCount]

/-! ## The last pass -/

theorem lookup_fillIn (labels : List (Nat × Nat)) (nodes : List Nat) (i : Nat) :
    (fillIn labels nodes).lookup i =
      (labels.lookup i).or (if i ∈ nodes then some 0 else none) := by
  induction nodes generalizing labels with
  | nil => simp [fillIn]
  | cons j nodes ih =>
    rw [fillIn, List.foldl_cons]
    cases hj : labels.lookup j with
    | some e =>
      refine (ih labels).trans ?_
      by_cases hij : i = j
      · simp [hij, hj]
      · simp [hij]
    | none =>
      refine (ih ((j, 0) :: labels)).trans ?_
      by_cases hij : i = j
      · simp [hij, hj]
      · simp [hij, lookup_cons]

end Labelling

namespace CallGraph

variable {g : CallGraph} {roots : List Nat} {i k : Nat}

/-- A search has nothing left in its queue when it stops. -/
theorem queue_run_nodeCount (hroots : ∀ r ∈ roots, g.contains r) :
    ((Labelling.start roots).run g.successors g.nodeCount).queue = [] :=
  Labelling.queue_run_eq_nil (Labelling.pending_start_le hroots)

/-- The search labels what it meets with distances. -/
theorem lookup_run_nodeCount (hroots : ∀ r ∈ roots, g.contains r) :
    ((Labelling.start roots).run g.successors g.nodeCount).labels.lookup i = some k ↔
      g.IsDistance roots i k :=
  ((Labelling.spreads_start g roots).run g.nodeCount).lookup_eq_some_iff
    (queue_run_nodeCount hroots)

theorem contains_of_mem_filter : ∀ r ∈ roots.filter g.contains, g.contains r :=
  fun _ hr => (List.mem_filter.mp hr).2

/-- **The label of a node that a root reaches is its distance.** -/
theorem lookup_distances_of_isDistance (hi : g.IsDistance (roots.filter g.contains) i k) :
    (g.distances roots).lookup i = some k := by
  rw [distances, Labelling.lookup_fillIn, (lookup_run_nodeCount contains_of_mem_filter).mpr hi]
  rfl

theorem lookup_distances_of_not_reaches
    (hi : ¬ ∃ r ∈ roots.filter g.contains, g.Reaches r i) :
    (g.distances roots).lookup i = if g.contains i then some 0 else none := by
  have hnone : ((Labelling.start (roots.filter g.contains)).run g.successors
      g.nodeCount).labels.lookup i = none := by
    refine Option.eq_none_iff_forall_ne_some.mpr fun k hk => hi ?_
    exact exists_isDistance_iff.mp ⟨k, (lookup_run_nodeCount contains_of_mem_filter).mp hk⟩
  rw [distances, Labelling.lookup_fillIn, hnone, Option.none_or]
  simp only [mem_nodes]

/-- Exactly the nodes are labelled. -/
theorem isSome_lookup_distances : ((g.distances roots).lookup i).isSome = g.contains i := by
  by_cases hreach : ∃ r ∈ roots.filter g.contains, g.Reaches r i
  · obtain ⟨k, hk⟩ := exists_isDistance_iff.mpr hreach
    obtain ⟨r, hr, hri⟩ := hreach
    rw [lookup_distances_of_isDistance hk, hri.contains (contains_of_mem_filter r hr)]
    rfl
  · rw [lookup_distances_of_not_reaches hreach]
    cases g.contains i with
    | true => rfl
    | false => rfl

/-- Depths by distance, listed node by node. -/
theorem depths_shortestPath (g : CallGraph) (roots : List Nat) :
    g.depths roots .shortestPath =
      ⟨g.nodes.map fun i => (i, ((g.distances roots).lookup i).getD 0)⟩ := by
  rw [depths, Depths.ofLabels, nodes, ← List.filterMap_eq_map, List.filterMap_filter]
  congr 1
  refine List.filterMap_congr fun i _ => ?_
  have hsome : ((g.distances roots).lookup i).isSome = g.contains i := isSome_lookup_distances
  cases hi : (g.distances roots).lookup i with
  | none =>
    rw [hi] at hsome
    simp [← hsome]
  | some k =>
    rw [hi] at hsome
    simp [← hsome, hi]

end CallGraph

end CallAtlas
