import CallAtlas.Proofs.DepthZero
import Mathlib.Data.Finset.Card

/-!
# Depth by distance

In a graph with any roots, some of which may not exist, depth by distance is what its name says: the
number of edges on a shortest path from the nearest root that exists, and zero for a node that none
of them reaches. That a search in breadth labels nodes with distances is known; what is left is the
bound. A shortest path runs through nodes at the distances `0, …, k`, all of them different and all
of them in the graph, so `k` is less than the number of nodes.

## Main definitions

* `CallGraph.existing` — the roots that exist
* `Depths.AreDistances` — the contract of depth by distance

## Main results

* `CallGraph.IsDistance.lt_nodeCount` — distances are less than the number of nodes
* `CallGraph.areDistances_depths` — the contract holds
-/

namespace CallAtlas

namespace CallGraph

variable {g : CallGraph} {roots : List Nat} {i k n : Nat}

/-- The roots that are nodes of the graph. -/
def existing (g : CallGraph) (roots : List Nat) : List Nat :=
  roots.filter g.contains

theorem mem_existing : i ∈ g.existing roots ↔ i ∈ roots ∧ g.contains i :=
  List.mem_filter

/-- Roots that do not exist have no influence on distances. -/
theorem depths_existing (g : CallGraph) (roots : List Nat) :
    g.depths (g.existing roots) .shortestPath = g.depths roots .shortestPath := by
  have hfilter : (roots.filter g.contains).filter g.contains = roots.filter g.contains := by
    rw [List.filter_filter]
    simp only [Bool.and_self]
  rw [depths, depths, distances, distances, existing, hfilter]

/-- On the way to a node at distance `k` there is one at every smaller distance. -/
theorem IsDistance.exists_of_le (hi : g.IsDistance roots i k) (hn : n ≤ k) :
    ∃ j, g.IsDistance roots j n := by
  induction k generalizing i with
  | zero => exact ⟨i, by rwa [Nat.le_zero.mp hn]⟩
  | succ k ih =>
    rcases Nat.lt_or_ge k n with hkn | hkn
    · exact ⟨i, by rwa [show n = k + 1 by omega]⟩
    · obtain ⟨j, hj, -⟩ := hi.pred
      exact ih hj hkn

/-- A node at some distance from nodes of the graph is one of them. -/
theorem IsDistance.contains (hroots : ∀ r ∈ roots, g.contains r) (hi : g.IsDistance roots i k) :
    g.contains i := by
  cases k with
  | zero => exact hroots i hi.reachesIn
  | succ k =>
    obtain ⟨j, -, hc⟩ := hi.pred
    exact hc.contains_target

/-- Nodes at different distances differ, so there are more nodes than the distance tells. -/
theorem IsDistance.lt_nodeCount (hroots : ∀ r ∈ roots, g.contains r)
    (hi : g.IsDistance roots i k) : k < g.nodeCount := by
  choose! f hf using fun n (hn : n ≤ k) => hi.exists_of_le hn
  have hle : ∀ {n}, n ∈ Finset.range (k + 1) → n ≤ k := fun hn =>
    Nat.lt_succ_iff.mp (Finset.mem_range.mp hn)
  have hmaps : Set.MapsTo f (Finset.range (k + 1)) g.nodes.toFinset := by
    intro n hn
    exact List.mem_toFinset.mpr (mem_nodes.mpr ((hf n (hle hn)).contains hroots))
  have hinj : Set.InjOn f (Finset.range (k + 1)) := by
    intro m hm n hn hmn
    have hm' := hf m (hle hm)
    rw [hmn] at hm'
    exact hm'.unique (hf n (hle hn))
  calc k + 1
    _ = (Finset.range (k + 1)).card := (Finset.card_range _).symm
    _ ≤ g.nodes.toFinset.card := Finset.card_le_card_of_injOn f hmaps hinj
    _ ≤ g.nodeCount := List.toFinset_card_le g.nodes

end CallGraph

/-- `d` holds the distances of the nodes of `g` from the nearest of the roots that exist. -/
structure Depths.AreDistances (d : Depths) (g : CallGraph) (roots : List Nat) : Prop where
  /-- Exactly the nodes have a depth. -/
  map_fst_entries : d.entries.map Prod.fst = g.nodes
  /-- The depth of a node that is reached is the number of edges on some path from a root, and no
  path from a root has fewer. -/
  isDistance : ∀ n, g.contains n → (∃ r ∈ roots, g.contains r ∧ g.Reaches r n) →
    g.IsDistance (g.existing roots) n (d.get n)
  /-- A node that is not reached has depth zero. -/
  get_eq_zero : ∀ n, g.contains n → (¬ ∃ r ∈ roots, g.contains r ∧ g.Reaches r n) → d.get n = 0
  /-- No depth is as great as the number of nodes. -/
  lt_nodeCount : ∀ e ∈ d.entries, e.2 < g.nodeCount

namespace CallGraph

variable {g : CallGraph} {roots : List Nat} {i : Nat}

theorem exists_mem_existing_iff {p : Nat → Prop} :
    (∃ r ∈ g.existing roots, p r) ↔ ∃ r ∈ roots, g.contains r ∧ p r := by
  simp only [mem_existing, and_assoc]

theorem isDistance_get_depths (hi : g.contains i)
    (hreach : ∃ r ∈ roots, g.contains r ∧ g.Reaches r i) :
    g.IsDistance (g.existing roots) i ((g.depths roots .shortestPath).get i) := by
  obtain ⟨k, hk⟩ := exists_isDistance_iff.mpr (exists_mem_existing_iff.mpr hreach)
  have hexist : ∀ r ∈ g.existing roots, g.contains r := fun r hr => (mem_existing.mp hr).2
  rw [← depths_existing, get_depths_shortestPath hexist hi hk]
  exact hk

theorem get_depths_of_not_reaches (hi : g.contains i)
    (hreach : ¬ ∃ r ∈ roots, g.contains r ∧ g.Reaches r i) :
    (g.depths roots .shortestPath).get i = 0 := by
  have hexist : ∀ r ∈ g.existing roots, g.contains r := fun r hr => (mem_existing.mp hr).2
  rw [← depths_existing, get_depths_shortestPath_eq_zero_iff hexist hi, exists_mem_existing_iff]
  exact Or.inr hreach

theorem get_depths_shortestPath_lt (hi : g.contains i) :
    (g.depths roots .shortestPath).get i < g.nodeCount := by
  by_cases hreach : ∃ r ∈ roots, g.contains r ∧ g.Reaches r i
  · exact (isDistance_get_depths hi hreach).lt_nodeCount fun r hr => (mem_existing.mp hr).2
  · rw [get_depths_of_not_reaches hi hreach]
    exact List.length_pos_of_mem (mem_nodes.mpr hi)

/-- **Depth by distance is the distance from the nearest root.** -/
theorem areDistances_depths (g : CallGraph) (roots : List Nat) :
    (g.depths roots .shortestPath).AreDistances g roots where
  map_fst_entries := by
    rw [depths_shortestPath, List.map_map]
    exact List.map_id g.nodes
  isDistance _ := isDistance_get_depths
  get_eq_zero _ := get_depths_of_not_reaches
  lt_nodeCount e he := by
    rw [depths_shortestPath] at he
    obtain ⟨i, hi, rfl⟩ := List.mem_map.mp he
    have hlt : (g.depths roots .shortestPath).get i < g.nodeCount :=
      get_depths_shortestPath_lt (mem_nodes.mp hi)
    rwa [depths_shortestPath, Depths.get_map hi] at hlt

end CallGraph

end CallAtlas
