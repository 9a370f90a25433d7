import CallAtlas.Callable.Basic
import CallAtlas.NameMap

/-!
# The table behind a call graph

Nodes live in numbered slots and edges carry numbers of their own. A number that becomes free is
the first to be used again, so numbers are stable while a node or edge exists, and the number of
an edge is not always its age.

The edges are listed from the oldest to the newest. When a node goes, its outgoing edges are given
up from the newest to the oldest and then its incoming edges likewise; a loop goes with the
outgoing ones.

## Main definitions

* `GraphNode`, `GraphEdge`, `GraphTable`: the table.
* `GraphTable.addNode`, `GraphTable.addEdge`, `GraphTable.removeNode`: the three changes.
* `GraphTable.Coherent`: edges join existing nodes, and free numbers are free.
* `GraphTable.IsIndex`: a map from names that finds every node.

## Main results

* `GraphTable.coherent_empty`, `GraphTable.Coherent.addNode`, `GraphTable.Coherent.addEdge`,
  `GraphTable.Coherent.removeNode`: every change keeps the table coherent.
* `GraphTable.IsIndex.addNode`, `GraphTable.IsIndex.addEdge`, `GraphTable.IsIndex.removeNode`: how
  an index follows the changes.
-/

namespace CallAtlas

/-- A node of a call graph. -/
structure GraphNode where
  name : String
  kind : CallableKind
  /-- Where the node is defined; nothing for one that is only referred to. -/
  sourceFile : Option String := none
  firstLine : Option Nat := none
  lineCount : Option Nat := none
deriving DecidableEq, Repr

/-- A numbered edge from slot `source` to slot `target`. -/
structure GraphEdge where
  id : Nat
  source : Nat
  target : Nat
deriving DecidableEq, Repr

/-- Slots of nodes, edges in order of age, and the numbers to be used again. -/
structure GraphTable where
  slots : Array (Option GraphNode) := #[]
  /-- Empty slots, the next one to be filled first. -/
  freeSlots : List Nat := []
  /-- The edges, oldest first. -/
  edges : List GraphEdge := []
  /-- The least edge number that was never used. -/
  edgeBound : Nat := 0
  /-- Edge numbers that are free again, the next one to be used first. -/
  freeEdges : List Nat := []
deriving DecidableEq, Repr

namespace GraphTable

/-! ### Reading -/

/-- The node in a slot. -/
def node? (t : GraphTable) (i : Nat) : Option GraphNode :=
  t.slots[i]?.join

/-- The edges out of a slot, oldest first. -/
def outgoing (t : GraphTable) (i : Nat) : List GraphEdge :=
  t.edges.filter fun e => e.source = i

/-- The edges into a slot, oldest first. -/
def incoming (t : GraphTable) (i : Nat) : List GraphEdge :=
  t.edges.filter fun e => e.target = i

/-! ### Changing -/

/-- Fills a slot with a node. -/
def addNode (t : GraphTable) (n : GraphNode) : GraphTable :=
  match t.freeSlots with
  | [] => { t with slots := t.slots.push (some n) }
  | i :: rest => { t with slots := t.slots.setIfInBounds i (some n), freeSlots := rest }

/-- The slot that the next new node takes. -/
def nextSlot (t : GraphTable) : Nat :=
  t.freeSlots.headD t.slots.size

/-- Adds an edge between two slots. -/
def addEdge (t : GraphTable) (source target : Nat) : GraphTable :=
  match t.freeEdges with
  | [] =>
    { t with
      edges := t.edges ++ [⟨t.edgeBound, source, target⟩]
      edgeBound := t.edgeBound + 1 }
  | id :: rest => { t with edges := t.edges ++ [⟨id, source, target⟩], freeEdges := rest }

/-- Empties a slot and drops the edges that touch it. The numbers freed last come first: those of
the incoming edges from the oldest on, then those of the outgoing edges. -/
def removeNode (t : GraphTable) (i : Nat) : GraphTable :=
  match t.node? i with
  | none => t
  | some _ =>
    let incoming := (t.incoming i).filter fun e => e.source ≠ i
    { slots := t.slots.setIfInBounds i none
      freeSlots := i :: t.freeSlots
      edges := t.edges.filter fun e => e.source ≠ i && e.target ≠ i
      edgeBound := t.edgeBound
      freeEdges := (incoming ++ t.outgoing i).map GraphEdge.id ++ t.freeEdges }

/-! ### Coherence -/

/-- What holds of every table made by the three changes. -/
structure Coherent (t : GraphTable) : Prop where
  /-- Edges join existing nodes. -/
  endpoints : ∀ {e : GraphEdge}, e ∈ t.edges →
    (t.node? e.source).isSome ∧ (t.node? e.target).isSome
  /-- Edge numbers in use and free edge numbers are all different. -/
  nodup_ids : (t.edges.map GraphEdge.id ++ t.freeEdges).Nodup
  /-- Edge numbers are below the bound. -/
  id_lt : ∀ {n : Nat}, n ∈ t.edges.map GraphEdge.id ++ t.freeEdges → n < t.edgeBound
  /-- The free slots are the empty ones. -/
  mem_freeSlots : ∀ {i : Nat}, i ∈ t.freeSlots ↔ t.slots[i]? = some none
  /-- No free slot is listed twice. -/
  nodup_freeSlots : t.freeSlots.Nodup

theorem node?_eq_some {t : GraphTable} {i : Nat} {n : GraphNode} :
    t.node? i = some n ↔ t.slots[i]? = some (some n) := by
  simp [node?, Option.join_eq_some_iff]

theorem coherent_empty : Coherent {} where
  endpoints h := by simp at h
  nodup_ids := by simp
  id_lt h := by simp at h
  mem_freeSlots := by simp
  nodup_freeSlots := by simp

/-! ### New nodes -/

theorem node?_addNode {t : GraphTable} (ht : t.Coherent) (n : GraphNode) (i : Nat) :
    (t.addNode n).node? i = if i = t.nextSlot then some n else t.node? i := by
  unfold addNode nextSlot
  cases hf : t.freeSlots with
  | nil =>
    simp only [List.headD_nil, node?, Array.getElem?_push]
    by_cases h : i = t.slots.size <;> simp [h]
  | cons j rest =>
    have hj : t.slots[j]? = some none := ht.mem_freeSlots.1 (by simp [hf])
    obtain ⟨hlt, -⟩ := Array.getElem?_eq_some_iff.1 hj
    simp only [List.headD_cons, node?, Array.getElem?_setIfInBounds]
    by_cases h : j = i
    · subst h
      simp [hlt]
    · simp [h, Ne.symm h]

theorem node?_nextSlot {t : GraphTable} (ht : t.Coherent) : t.node? t.nextSlot = none := by
  unfold nextSlot
  cases hf : t.freeSlots with
  | nil => simp [node?]
  | cons j rest => simp [node?, ht.mem_freeSlots.1 (show j ∈ t.freeSlots by simp [hf])]

theorem Coherent.addNode {t : GraphTable} (ht : t.Coherent) (n : GraphNode) :
    (t.addNode n).Coherent where
  endpoints {e} he := by
    have he' : e ∈ t.edges := by
      unfold GraphTable.addNode at he
      split at he <;> exact he
    obtain ⟨hs, htg⟩ := ht.endpoints he'
    rw [node?_addNode ht, node?_addNode ht]
    constructor
    · split
      · rfl
      · exact hs
    · split
      · rfl
      · exact htg
  nodup_ids := by
    unfold GraphTable.addNode
    split <;> exact ht.nodup_ids
  id_lt := by
    unfold GraphTable.addNode
    split <;> exact ht.id_lt
  mem_freeSlots {i} := by
    have hfree := @ht.mem_freeSlots
    unfold GraphTable.addNode
    split
    case h_1 hf =>
      have hi := @hfree i
      rw [hf] at hi ⊢
      simp only [Array.getElem?_push]
      split
      · simp
      · exact hi
    case h_2 j rest hf =>
      have hnd := ht.nodup_freeSlots
      rw [hf, List.nodup_cons] at hnd
      have hj : t.slots[j]? = some none := hfree.1 (by simp [hf])
      obtain ⟨hlt, -⟩ := Array.getElem?_eq_some_iff.1 hj
      have hi := @hfree i
      rw [hf, List.mem_cons] at hi
      simp only [Array.getElem?_setIfInBounds]
      by_cases h : j = i
      · subst h
        simp [hlt, hnd.1]
      · simp only [if_neg h, ← hi, Ne.symm h, false_or]
  nodup_freeSlots := by
    have hnd := ht.nodup_freeSlots
    unfold GraphTable.addNode
    split
    case h_1 => exact hnd
    case h_2 hf =>
      rw [hf, List.nodup_cons] at hnd
      exact hnd.2

/-! ### New edges -/

theorem node?_addEdge (t : GraphTable) (source target i : Nat) :
    (t.addEdge source target).node? i = t.node? i := by
  rw [addEdge]
  split <;> rfl

theorem Coherent.addEdge {t : GraphTable} (ht : t.Coherent) {source target : Nat}
    (hs : (t.node? source).isSome) (htg : (t.node? target).isSome) :
    (t.addEdge source target).Coherent := by
  have hedges : ∃ id, (t.addEdge source target).edges = t.edges ++ [⟨id, source, target⟩] := by
    unfold GraphTable.addEdge
    split
    · exact ⟨_, rfl⟩
    · exact ⟨_, rfl⟩
  have hid := @ht.id_lt
  have hnd := ht.nodup_ids
  refine ⟨?_, ?_, ?_, ?_, ?_⟩
  · intro e he
    obtain ⟨id, hE⟩ := hedges
    rw [hE, List.mem_append, List.mem_singleton] at he
    rw [node?_addEdge, node?_addEdge]
    rcases he with he | rfl
    · exact ht.endpoints he
    · exact ⟨hs, htg⟩
  · unfold GraphTable.addEdge
    split
    case h_1 hf =>
      rw [hf, List.append_nil] at hnd
      simp only [hf, List.append_nil, List.map_append, List.map_cons, List.map_nil]
      refine List.nodup_append.2 ⟨hnd, by simp, ?_⟩
      intro a ha b hb e
      simp only [List.mem_singleton] at hb
      have : a < t.edgeBound := hid (List.mem_append_left _ ha)
      omega
    case h_2 id rest hf =>
      rw [hf] at hnd
      simpa [List.append_assoc] using hnd
  · intro n hn
    unfold GraphTable.addEdge at hn ⊢
    split at hn
    case h_1 hf =>
      simp only [hf, List.append_nil, List.map_append, List.map_cons, List.map_nil,
        List.mem_append, List.mem_singleton] at hn
      rcases hn with hn | rfl
      · exact Nat.lt_succ_of_lt (hid (List.mem_append_left _ hn))
      · exact Nat.lt_succ_self _
    case h_2 id rest hf =>
      have := @hid n
      rw [hf] at this
      apply this
      simpa [List.append_assoc] using hn
  · intro i
    unfold GraphTable.addEdge
    split <;> exact ht.mem_freeSlots
  · unfold GraphTable.addEdge
    split <;> exact ht.nodup_freeSlots

/-! ### Removed nodes -/

theorem node?_removeNode (t : GraphTable) (i j : Nat) :
    (t.removeNode i).node? j = if j = i then none else t.node? j := by
  unfold removeNode
  split
  case h_1 h =>
    split
    · simp_all
    · rfl
  case h_2 =>
    simp only [node?, Array.getElem?_setIfInBounds]
    by_cases h : i = j
    · subst h
      rw [if_pos rfl, if_pos rfl]
      split <;> rfl
    · simp [h, Ne.symm h]

/-- The edges that stay, those that come in and those that go out make up all edges. -/
theorem perm_edges (t : GraphTable) (i : Nat) :
    ((t.edges.filter fun e => e.source ≠ i && e.target ≠ i) ++
      (((t.incoming i).filter fun e => e.source ≠ i) ++ t.outgoing i)).Perm t.edges := by
  have h₁ := List.filter_append_perm (fun e : GraphEdge => e.source ≠ i && e.target ≠ i) t.edges
  have h₂ := List.filter_append_perm (fun e : GraphEdge => decide (e.source ≠ i))
    (t.edges.filter fun e => !(decide (e.source ≠ i) && decide (e.target ≠ i)))
  have hin : (t.edges.filter fun e => !(decide (e.source ≠ i) && decide (e.target ≠ i))).filter
      (fun e => decide (e.source ≠ i)) = (t.incoming i).filter fun e => e.source ≠ i := by
    rw [incoming, List.filter_filter, List.filter_filter]
    congr 1
    funext e
    by_cases hs : e.source = i <;> by_cases ht : e.target = i <;> simp [hs, ht]
  have hout : (t.edges.filter fun e => !(decide (e.source ≠ i) && decide (e.target ≠ i))).filter
      (fun e => !decide (e.source ≠ i)) = t.outgoing i := by
    rw [outgoing, List.filter_filter]
    congr 1
    funext e
    by_cases hs : e.source = i <;> by_cases ht : e.target = i <;> simp [hs, ht]
  rw [hin, hout] at h₂
  exact (h₂.append_left _).trans h₁

theorem Coherent.removeNode {t : GraphTable} (ht : t.Coherent) (i : Nat) :
    (t.removeNode i).Coherent := by
  have hnode := node?_removeNode t i
  cases hi : t.node? i with
  | none =>
    have : t.removeNode i = t := by simp [GraphTable.removeNode, hi]
    rw [this]
    exact ht
  | some n =>
    have hslot := node?_eq_some.1 hi
    have hE : t.removeNode i =
        { slots := t.slots.setIfInBounds i none
          freeSlots := i :: t.freeSlots
          edges := t.edges.filter fun e => e.source ≠ i && e.target ≠ i
          edgeBound := t.edgeBound
          freeEdges := ((t.incoming i).filter (fun e => e.source ≠ i) ++ t.outgoing i).map
            GraphEdge.id ++ t.freeEdges } := by
      simp [GraphTable.removeNode, hi]
    have hperm : ((t.removeNode i).edges.map GraphEdge.id ++ (t.removeNode i).freeEdges).Perm
        (t.edges.map GraphEdge.id ++ t.freeEdges) := by
      rw [hE]
      simp only
      rw [← List.append_assoc, ← List.map_append]
      exact ((perm_edges t i).map GraphEdge.id).append_right _
    have hbound : (t.removeNode i).edgeBound = t.edgeBound := by rw [hE]
    refine ⟨?_, ?_, ?_, ?_, ?_⟩
    · intro e he
      rw [hE] at he
      simp only [List.mem_filter, Bool.and_eq_true, decide_eq_true_eq] at he
      rw [hnode, hnode, if_neg he.2.1, if_neg he.2.2]
      exact ht.endpoints he.1
    · exact hperm.nodup_iff.2 ht.nodup_ids
    · intro m hm
      rw [hbound]
      exact ht.id_lt (hperm.mem_iff.1 hm)
    · intro j
      rw [hE]
      simp only [List.mem_cons, Array.getElem?_setIfInBounds]
      obtain ⟨hlt, -⟩ := Array.getElem?_eq_some_iff.1 hslot
      by_cases h : i = j
      · subst h
        simp [hlt]
      · simp only [if_neg h, ht.mem_freeSlots, Ne.symm h, false_or]
    · rw [hE]
      refine List.nodup_cons.2 ⟨fun hm => ?_, ht.nodup_freeSlots⟩
      rw [ht.mem_freeSlots, hslot] at hm
      simp at hm

/-! ### Names -/

/-- A map that leads from names to slots and finds exactly the nodes of the table. There can be one
only if no two nodes have the same name. -/
def IsIndex (t : GraphTable) (m : NameMap Nat) : Prop :=
  ∀ (x : String) (i : Nat), m.find? x = some i ↔ ∃ n, t.node? i = some n ∧ n.name = x

theorem isIndex_empty : IsIndex {} ∅ := by
  intro x i
  simp [node?]

theorem IsIndex.addNode {t : GraphTable} {m : NameMap Nat} (hm : t.IsIndex m) (ht : t.Coherent)
    {n : GraphNode} (hn : m.find? n.name = none) :
    (t.addNode n).IsIndex (m.insert n.name t.nextSlot) := by
  intro x i
  rw [NameMap.find?_insert, node?_addNode ht]
  by_cases hi : i = t.nextSlot
  · -- The new slot was empty, so no other name leads to it.
    subst hi
    have hother : m.find? x ≠ some t.nextSlot := by
      intro hx
      obtain ⟨a, ha, -⟩ := (hm x _).1 hx
      rw [node?_nextSlot ht] at ha
      cases ha
    by_cases hx : x = n.name
    · simp [hx]
    · simp [hx, hother, Ne.symm hx]
  · rw [if_neg hi, ← hm x i]
    by_cases hx : x = n.name
    · subst hx
      simp [hn, Ne.symm hi]
    · rw [if_neg hx]

theorem IsIndex.addEdge {t : GraphTable} {m : NameMap Nat} (hm : t.IsIndex m)
    (source target : Nat) : (t.addEdge source target).IsIndex m := by
  intro x i
  rw [node?_addEdge]
  exact hm x i

theorem IsIndex.removeNode {t : GraphTable} {m : NameMap Nat} (hm : t.IsIndex m) {i : Nat}
    {n : GraphNode} (hi : t.node? i = some n) : (t.removeNode i).IsIndex (m.erase n.name) := by
  intro x j
  rw [NameMap.find?_erase, node?_removeNode]
  have hni : m.find? n.name = some i := (hm _ i).2 ⟨n, hi, rfl⟩
  by_cases hj : j = i
  · subst hj
    by_cases hx : x = n.name
    · simp [hx]
    · have hother : m.find? x ≠ some j := by
        intro hxj
        obtain ⟨a, ha, rfl⟩ := (hm x j).1 hxj
        exact hx (by rw [Option.some.inj (ha.symm.trans hi)])
      simp [hx, hother]
  · rw [if_neg hj, ← hm x j]
    by_cases hx : x = n.name
    · subst hx
      simp [hni, Ne.symm hj]
    · rw [if_neg hx]

end GraphTable

end CallAtlas
