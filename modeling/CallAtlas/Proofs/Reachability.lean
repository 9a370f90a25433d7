import CallAtlas.Proofs.InducedSubgraph
import Mathlib.Data.List.Nodup
import Mathlib.Data.Nat.Find
import Mathlib.Logic.Function.Iterate
import Mathlib.Logic.Relation

/-!
# The search in depth is exact

A search in depth keeps the nodes that it has visited and a stack. Its invariant `Explores` says
that it meets only nodes that a root reaches, that it has met every root, and that it has met every
successor of a node that it has visited. One turn keeps it, so it holds after any number of turns.

The turns come to an end. What is on the stack, together with what the nodes that are not visited
yet may still put there, gets less with every turn. Once the stack is empty, all that was met is
visited, and the visited nodes are those that the roots reach.

## Main definitions

* `CallGraph.Reaches`, `CallGraph.ReachesIn` — directed paths, and those of a given length from
  some root
* `CallGraph.IsDistance` — the length of a shortest path from a root
* `Traversal.Met`, `Traversal.Explores` — what a search has come across, and its invariant
* `Traversal.pending` — the turns that a search has left, at most
* `CallGraph.PathIn` — a directed path that stays inside a set of nodes

## Main results

* `Traversal.Explores.step`, `Traversal.Explores.run` — the invariant is kept
* `CallGraph.stack_run_maxTurns` — the stack runs empty
* `CallGraph.mem_reachable` — a search finds exactly what can be reached
* `CallGraph.IsInduced.pathIn_iff` — paths in an induced sub-graph are paths that stay inside it
* `CallGraph.reaches_pruneUnreachable` — pruning keeps the paths from the roots
-/

namespace CallAtlas

namespace CallGraph

variable {g h : CallGraph} {roots : List Nat} {i j k n : Nat}

/-! ## Paths -/

/-- A directed path, possibly of length zero, leads from `i` to `j`. -/
def Reaches (g : CallGraph) : Nat → Nat → Prop :=
  Relation.ReflTransGen g.Calls

/-- A directed path with `k` edges leads from a root to the node. -/
def ReachesIn (g : CallGraph) (roots : List Nat) : Nat → Nat → Prop
  | 0, i => i ∈ roots
  | k + 1, i => ∃ j, g.ReachesIn roots k j ∧ g.Calls j i

/-- A shortest path from a root to `i` has `k` edges. -/
structure IsDistance (g : CallGraph) (roots : List Nat) (i k : Nat) : Prop where
  /-- There is a path of this length. -/
  reachesIn : g.ReachesIn roots k i
  /-- There is no shorter one. -/
  le : ∀ {m : Nat}, g.ReachesIn roots m i → k ≤ m

theorem exists_reachesIn_iff :
    (∃ k, g.ReachesIn roots k i) ↔ ∃ r ∈ roots, g.Reaches r i := by
  constructor
  · rintro ⟨k, hk⟩
    induction k generalizing i with
    | zero => exact ⟨i, hk, .refl⟩
    | succ k ih =>
      obtain ⟨j, hj, hc⟩ := hk
      obtain ⟨r, hr, hrj⟩ := ih hj
      exact ⟨r, hr, hrj.tail hc⟩
  · rintro ⟨r, hr, hri⟩
    induction hri with
    | refl => exact ⟨0, hr⟩
    | tail _ hc ih =>
      obtain ⟨k, hk⟩ := ih
      exact ⟨k + 1, _, hk, hc⟩

theorem ReachesIn.exists_isDistance (hk : g.ReachesIn roots k i) :
    ∃ m, g.IsDistance roots i m := by
  classical
  have hex : ∃ m, g.ReachesIn roots m i := ⟨k, hk⟩
  exact ⟨Nat.find hex, Nat.find_spec hex, fun hm => Nat.find_min' hex hm⟩

theorem exists_isDistance_iff :
    (∃ k, g.IsDistance roots i k) ↔ ∃ r ∈ roots, g.Reaches r i := by
  rw [← exists_reachesIn_iff]
  constructor
  · rintro ⟨k, hk⟩
    exact ⟨k, hk.reachesIn⟩
  · rintro ⟨k, hk⟩
    exact hk.exists_isDistance

theorem IsDistance.unique (hk : g.IsDistance roots i k) (hn : g.IsDistance roots i n) : k = n :=
  Nat.le_antisymm (hk.le hn.reachesIn) (hn.le hk.reachesIn)

theorem isDistance_zero (hi : i ∈ roots) : g.IsDistance roots i 0 :=
  ⟨hi, fun _ => Nat.zero_le _⟩

/-- A node at distance `k + 1` is called by one at distance `k`. -/
theorem IsDistance.pred (hi : g.IsDistance roots i (k + 1)) :
    ∃ j, g.IsDistance roots j k ∧ g.Calls j i := by
  obtain ⟨j, hj, hc⟩ := hi.reachesIn
  refine ⟨j, ⟨hj, fun {m} hm => ?_⟩, hc⟩
  have hle : k + 1 ≤ m + 1 := hi.le ⟨j, hm, hc⟩
  omega

end CallGraph

/-! ## A search in depth -/

/-- A loop ends within as many turns as a measure allows that falls until the end. -/
theorem iterate_of_measure_le {α : Type*} {f : α → α} {done : α → Prop} {measure : α → Nat}
    (hstay : ∀ s, done s → done (f s)) (hfall : ∀ s, ¬ done s → measure (f s) < measure s)
    {s : α} {n : Nat} (hs : measure s ≤ n) : done (f^[n] s) := by
  induction n generalizing s with
  | zero =>
    by_contra hdone
    exact Nat.not_lt_zero _ (Nat.lt_of_lt_of_le (hfall s hdone) hs)
  | succ n ih =>
    by_cases hdone : done s
    · exact Function.Iterate.rec done hdone hstay (n + 1)
    · exact ih (Nat.le_of_lt_succ (Nat.lt_of_lt_of_le (hfall s hdone) hs))

namespace Traversal

variable {g : CallGraph} {next : Nat → List Nat} {roots visited stack : List Nat} {s : Traversal}
  {i j : Nat}

theorem step_of_mem (hi : i ∈ visited) : step next ⟨visited, i :: stack⟩ = ⟨visited, stack⟩ := by
  simp [step, hi]

theorem step_of_not_mem (hi : i ∉ visited) :
    step next ⟨visited, i :: stack⟩ =
      ⟨i :: visited, ((next i).filter fun j => !(i :: visited).contains j).reverse ++ stack⟩ := by
  simp [step, hi]

theorem step_of_stack_nil (hs : s.stack = []) : s.step next = s := by
  obtain ⟨visited, stack⟩ := s
  obtain rfl : stack = [] := hs
  rfl

theorem run_eq_iterate (next : Nat → List Nat) (n : Nat) (s : Traversal) :
    s.run next n = (step next)^[n] s := by
  induction n generalizing s with
  | zero => rfl
  | succ n ih => exact ih (s.step next)

/-- A search has come across a node. -/
def Met (s : Traversal) (i : Nat) : Prop :=
  i ∈ s.visited ∨ i ∈ s.stack

/-- What is met stays met. -/
theorem Met.step (hi : s.Met i) : (s.step next).Met i := by
  obtain ⟨visited, _ | ⟨j, stack⟩⟩ := s
  · exact hi
  by_cases hj : j ∈ visited
  · rw [step_of_mem hj]
    rcases hi with hvisited | hstack
    · exact Or.inl hvisited
    · exact (List.mem_cons.mp hstack).imp (fun hij : i = j => hij ▸ hj) id
  · rw [step_of_not_mem hj]
    rcases hi with hvisited | hstack
    · exact Or.inl (List.mem_cons_of_mem j hvisited)
    · rcases List.mem_cons.mp hstack with rfl | hstack
      · exact Or.inl List.mem_cons_self
      · exact Or.inr (List.mem_append_right _ hstack)

/-- What is true of a search from some roots before and after every turn. -/
structure Explores (g : CallGraph) (roots : List Nat) (s : Traversal) : Prop where
  /-- Only nodes that a root reaches are met. -/
  exists_reaches : ∀ i, s.Met i → ∃ r ∈ roots, g.Reaches r i
  /-- No root is forgotten. -/
  met_root : ∀ r ∈ roots, s.Met r
  /-- No successor of a visited node is forgotten. -/
  met_of_calls : ∀ i ∈ s.visited, ∀ j, g.Calls i j → s.Met j

theorem explores_start (g : CallGraph) (roots : List Nat) : Explores g roots (start roots) where
  exists_reaches i hi := by
    rcases hi with hvisited | hstack
    · exact absurd hvisited List.not_mem_nil
    · exact ⟨i, List.mem_reverse.mp hstack, .refl⟩
  met_root _ hr := Or.inr (List.mem_reverse.mpr hr)
  met_of_calls _ hi := absurd hi List.not_mem_nil

/-- What one turn adds to the visited nodes was on the stack. -/
theorem mem_visited_step (hi : i ∈ (s.step next).visited) : s.Met i := by
  obtain ⟨visited, _ | ⟨j, stack⟩⟩ := s
  · exact Or.inl hi
  by_cases hj : j ∈ visited
  · rw [step_of_mem hj] at hi
    exact Or.inl hi
  · rw [step_of_not_mem hj] at hi
    rcases List.mem_cons.mp hi with rfl | hi
    · exact Or.inr List.mem_cons_self
    · exact Or.inl hi

/-- What one turn adds to the stack is a successor of the node on top. -/
theorem mem_stack_step (hi : i ∈ (s.step next).stack) :
    i ∈ s.stack ∨ ∃ j ∈ s.stack, i ∈ next j := by
  obtain ⟨visited, _ | ⟨j, stack⟩⟩ := s
  · exact Or.inl hi
  by_cases hj : j ∈ visited
  · rw [step_of_mem hj] at hi
    exact Or.inl (List.mem_cons_of_mem j hi)
  · rw [step_of_not_mem hj] at hi
    rcases List.mem_append.mp hi with hnext | hi
    · exact Or.inr ⟨j, List.mem_cons_self, List.mem_of_mem_filter (List.mem_reverse.mp hnext)⟩
    · exact Or.inl (List.mem_cons_of_mem j hi)

/-- A node that one turn visits has all its successors on the stack or among the visited nodes. -/
theorem met_step_of_mem_next (hnew : i ∉ s.visited) (hi : i ∈ (s.step next).visited)
    (hj : j ∈ next i) : (s.step next).Met j := by
  obtain ⟨visited, _ | ⟨k, stack⟩⟩ := s
  · exact absurd hi hnew
  by_cases hk : k ∈ visited
  · rw [step_of_mem hk] at hi
    exact absurd hi hnew
  · rw [step_of_not_mem hk] at hi ⊢
    obtain rfl : i = k := (List.mem_cons.mp hi).resolve_right hnew
    by_cases hvisited : j ∈ i :: visited
    · exact Or.inl hvisited
    · refine Or.inr (List.mem_append_left _ (List.mem_reverse.mpr (List.mem_filter.mpr ⟨hj, ?_⟩)))
      simpa using hvisited

/-- One turn keeps the invariant. -/
theorem Explores.step (hs : Explores g roots s) : Explores g roots (s.step g.successors) where
  exists_reaches i hi := by
    rcases hi with hvisited | hstack
    · exact hs.exists_reaches i (mem_visited_step hvisited)
    · rcases mem_stack_step hstack with hold | ⟨j, hj, hij⟩
      · exact hs.exists_reaches i (Or.inr hold)
      · obtain ⟨r, hr, hrj⟩ := hs.exists_reaches j (Or.inr hj)
        exact ⟨r, hr, hrj.tail (CallGraph.mem_successors.mp hij)⟩
  met_root r hr := (hs.met_root r hr).step
  met_of_calls i hi j hc := by
    by_cases hold : i ∈ s.visited
    · exact (hs.met_of_calls i hold j hc).step
    · exact met_step_of_mem_next hold hi (CallGraph.mem_successors.mpr hc)

theorem Explores.run (hs : Explores g roots s) (n : Nat) :
    Explores g roots (s.run g.successors n) := by
  rw [run_eq_iterate]
  exact Function.Iterate.rec (Explores g roots) hs (fun _ => Explores.step) n

/-! ### The search ends -/

/-- The nodes on the stack, and those that the nodes not visited yet may still put there. -/
def pending (g : CallGraph) (s : Traversal) : Nat :=
  s.stack.length +
    ((g.nodes.filter fun i => !s.visited.contains i).flatMap g.successors).length

/-- Visiting a node uses up what it puts on the stack. -/
theorem length_successors_add_le (hi : i ∉ visited) :
    (g.successors i).length +
        ((g.nodes.filter fun j => !(i :: visited).contains j).flatMap g.successors).length ≤
      ((g.nodes.filter fun j => !visited.contains j).flatMap g.successors).length := by
  have hfilter : (g.nodes.filter fun j => !(i :: visited).contains j) =
      (g.nodes.filter fun j => !visited.contains j).filter (· != i) := by
    rw [List.filter_filter]
    refine List.filter_congr fun j _ => ?_
    rw [List.contains_cons, Bool.not_or]
    rfl
  have hnodup : (g.nodes.filter fun j => !visited.contains j).Nodup :=
    (List.nodup_range.filter _).filter _
  rw [hfilter, ← hnodup.erase_eq_filter]
  by_cases hg : g.contains i
  · have hmem : i ∈ g.nodes.filter fun j => !visited.contains j :=
      List.mem_filter.mpr ⟨CallGraph.mem_nodes.mpr hg, by simpa using hi⟩
    rw [((List.perm_cons_erase hmem).flatMap_right g.successors).length_eq, List.flatMap_cons,
      List.length_append]
  · -- A root that does not exist has no successors.
    have hnil : g.successors i = [] := List.eq_nil_iff_forall_not_mem.mpr fun j hj =>
      hg (CallGraph.mem_successors.mp hj).contains_source
    have hmem : i ∉ g.nodes.filter fun j => !visited.contains j := fun hmem =>
      hg (CallGraph.mem_nodes.mp (List.mem_of_mem_filter hmem))
    rw [hnil, List.erase_of_not_mem hmem, List.length_nil, Nat.zero_add]

theorem pending_step_lt (hs : s.stack ≠ []) :
    pending g (s.step g.successors) < pending g s := by
  obtain ⟨visited, _ | ⟨i, stack⟩⟩ := s
  · exact absurd rfl hs
  by_cases hi : i ∈ visited
  · rw [step_of_mem hi, pending, pending]
    simp
  · have hle := length_successors_add_le (g := g) hi
    have hfilter := List.length_filter_le (fun j => !(i :: visited).contains j) (g.successors i)
    simp only [step_of_not_mem hi, pending, List.length_append, List.length_reverse,
      List.length_cons]
    omega

theorem stack_run_eq_nil {n : Nat} (hs : pending g s ≤ n) : (s.run g.successors n).stack = [] := by
  have hstay : ∀ t : Traversal, t.stack = [] → (t.step g.successors).stack = [] := fun t ht => by
    rw [step_of_stack_nil ht, ht]
  rw [run_eq_iterate]
  exact iterate_of_measure_le hstay (fun _ => pending_step_lt) hs

end Traversal

namespace CallGraph

variable {g h : CallGraph} {roots : List Nat} {i j k n : Nat}

/-- A search has nothing left on its stack when it stops. -/
theorem stack_run_maxTurns (g : CallGraph) (roots : List Nat) :
    ((Traversal.start roots).run g.successors (g.maxTurns roots)).stack = [] := by
  refine Traversal.stack_run_eq_nil (Nat.le_of_eq ?_)
  simp [Traversal.pending, Traversal.start, maxTurns]

/-- **A search finds exactly what can be reached.** -/
theorem mem_reachable : i ∈ g.reachable roots ↔ ∃ r ∈ roots, g.Reaches r i := by
  have hexplores := (Traversal.explores_start g roots).run (g.maxTurns roots)
  have hvisited : ∀ {j}, Traversal.Met _ j → j ∈ g.reachable roots := fun hj =>
    hj.resolve_right (by rw [stack_run_maxTurns]; exact List.not_mem_nil)
  constructor
  · exact fun hi => hexplores.exists_reaches i (Or.inl hi)
  · rintro ⟨r, hr, hri⟩
    induction hri with
    | refl => exact hvisited (hexplores.met_root r hr)
    | tail _ hc ih => exact hvisited (hexplores.met_of_calls _ ih _ hc)

/-! ## Paths in a sub-graph -/

/-- A directed path of `g`, possibly of length zero, all of whose nodes satisfy `S`. -/
inductive PathIn (g : CallGraph) (S : Nat → Prop) : Nat → Nat → Prop
  | here {i : Nat} (hi : S i) : PathIn g S i i
  | step {i j k : Nat} (hi : S i) (hc : g.Calls i j) (hp : PathIn g S j k) : PathIn g S i k

theorem IsInduced.pathIn_iff (hg : IsInduced h g) :
    g.PathIn (fun i => h.contains i) i j ↔ h.contains i ∧ h.Reaches i j := by
  constructor
  · intro hp
    induction hp with
    | here hi => exact ⟨hi, .refl⟩
    | step hi hc _ ih => exact ⟨hi, .head (hg.calls_iff.mpr ⟨hc, hi, ih.1⟩) ih.2⟩
  · rintro ⟨hi, hreach⟩
    induction hreach using Relation.ReflTransGen.head_induction_on with
    | refl => exact .here hi
    | head hc _ ih => exact .step hi (hg.calls_iff.mp hc).1 (ih hc.contains_target)

/-- A path stays in an induced sub-graph that holds everything the path could lead to. -/
theorem IsInduced.reaches (hg : IsInduced h g) (hclosed : ∀ {k}, g.Reaches i k → h.contains k)
    (hij : g.Reaches i j) : h.Reaches i j := by
  induction hij with
  | refl => exact .refl
  | tail hpath hc ih =>
    exact ih.tail (hg.calls_iff.mpr ⟨hc, hclosed hpath, hclosed (hpath.tail hc)⟩)

theorem contains_pruneUnreachable :
    (g.pruneUnreachable roots).contains i ↔ g.contains i ∧ ∃ r ∈ roots, g.Reaches r i := by
  rw [pruneUnreachable, contains_removeNodes_filter, ← mem_reachable]
  simp

theorem isInduced_pruneUnreachable (g : CallGraph) (roots : List Nat) :
    IsInduced (g.pruneUnreachable roots) g :=
  isInduced_removeNodes g _

theorem Reaches.contains (hi : g.contains i) (hij : g.Reaches i j) : g.contains j := by
  induction hij with
  | refl => exact hi
  | tail _ hc _ => exact hc.contains_target

/-- Pruning keeps the paths from the roots: every node that stays is still reached. -/
theorem reaches_pruneUnreachable (hroots : ∀ r ∈ roots, g.contains r)
    (hi : (g.pruneUnreachable roots).contains i) :
    ∃ r ∈ roots, (g.pruneUnreachable roots).Reaches r i := by
  obtain ⟨-, r, hr, hri⟩ := contains_pruneUnreachable.mp hi
  refine ⟨r, hr, (isInduced_pruneUnreachable g roots).reaches (fun {k} hrk => ?_) hri⟩
  exact contains_pruneUnreachable.mpr ⟨hrk.contains (hroots r hr), r, hr, hrk⟩

end CallGraph

end CallAtlas
