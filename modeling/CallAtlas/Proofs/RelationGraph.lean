import CallAtlas.CallGraph.OfRegistry
import CallAtlas.Proofs.InducedSubgraph
import CallAtlas.Proofs.RegistryLookup

/-!
# The nodes and edges of a graph that is built from a registry

A graph grows by two kinds of steps, a new node and a new edge. Neither takes a node from its slot,
so a step is described by the edges it adds, in terms of names: `Adds`. Descriptions compose, and
the description of the whole construction is the relation that it was given.

The nodes are described in the same way, by the list of the nodes that a step offers: `Supplies`. Of
all nodes that are offered for a name, the graph takes the first.

## Main definitions

* `CallGraph.HasEdge` — some edge leads from one name to another
* `CallGraph.record?` — the node with a name
* `CallGraph.Grows`, `CallGraph.Adds`, `CallGraph.Supplies` — what a step of the construction does

## Main results

* `CallGraph.adds_addNode`, `CallGraph.adds_linkTo`, `CallGraph.adds_linkAll` — the steps
* `CallGraph.Adds.foldl`, `CallGraph.Supplies.foldl` — several steps
* `CallGraph.hasEdge_ofRelation` — the edges of the graph of a relation
* `CallGraph.record?_ofRelation` — its nodes
-/

namespace CallAtlas

namespace GraphTable

theorem edges_addNode (t : GraphTable) (n : GraphNode) : (t.addNode n).edges = t.edges := by
  rw [addNode]
  split <;> rfl

theorem exists_edges_addEdge (t : GraphTable) (source target : Nat) :
    ∃ id, (t.addEdge source target).edges = t.edges ++ [⟨id, source, target⟩] := by
  rw [addEdge]
  split
  · exact ⟨_, rfl⟩
  · exact ⟨_, rfl⟩

end GraphTable

namespace CallGraph

variable {g h k : CallGraph} {E F : String → String → Prop} {x u v : String} {i j : Nat}

/-! ## Edges between names -/

/-- Some edge leads from the node with the name `u` to the node with the name `v`. -/
def HasEdge (g : CallGraph) (u v : String) : Prop :=
  ∃ i j, g.find? u = some i ∧ g.find? v = some j ∧ g.Calls i j

/-! ## Growth -/

/-- Every node of `g` is in `h`, in the same slot. -/
def Grows (g h : CallGraph) : Prop :=
  ∀ ⦃x i⦄, g.find? x = some i → h.find? x = some i

/-- `h` is `g` with further nodes and with the edges `E`. -/
structure Adds (g h : CallGraph) (E : String → String → Prop) : Prop where
  grows : g.Grows h
  hasEdge_iff : ∀ u v, h.HasEdge u v ↔ g.HasEdge u v ∨ E u v

theorem Grows.trans (hgh : g.Grows h) (hhk : h.Grows k) : g.Grows k :=
  fun _ _ hx => hhk (hgh hx)

theorem Adds.refl (g : CallGraph) : g.Adds g fun _ _ => False :=
  ⟨fun _ _ hx => hx, fun _ _ => (or_iff_left id).symm⟩

theorem Adds.trans (hgh : g.Adds h E) (hhk : h.Adds k F) :
    g.Adds k fun u v => E u v ∨ F u v :=
  ⟨hgh.grows.trans hhk.grows, fun u v => by rw [hhk.hasEdge_iff, hgh.hasEdge_iff, or_assoc]⟩

theorem Adds.congr (hgh : g.Adds h E) (hEF : ∀ u v, E u v ↔ F u v) : g.Adds h F :=
  ⟨hgh.grows, fun u v => by rw [hgh.hasEdge_iff, hEF]⟩

/-- A series of steps adds what each of them adds. A step may count on the nodes that were there at
the start. -/
theorem Adds.foldl {α : Type} {step : CallGraph → α → CallGraph}
    {E : α → String → String → Prop} {xs : List α}
    (hstep : ∀ h, g.Grows h → ∀ a ∈ xs, h.Adds (step h a) (E a)) :
    g.Adds (xs.foldl step g) fun u v => ∃ a ∈ xs, E a u v := by
  induction xs generalizing g with
  | nil => exact (Adds.refl g).congr (by simp)
  | cons a xs ih =>
    have hfirst : g.Adds (step g a) (E a) := hstep g (fun _ _ hx => hx) a List.mem_cons_self
    have hrest := ih fun h hh b hb => hstep h (hfirst.grows.trans hh) b (List.mem_cons_of_mem a hb)
    exact (hfirst.trans hrest).congr (by simp)

/-! ## Steps -/

theorem addNode_of_find?_eq_some {n : GraphNode} (hn : g.find? n.name = some i) :
    g.addNode n = (g, i) := by
  rw [addNode]
  split
  case h_1 i' hi =>
    rw [hn, Option.some.injEq] at hi
    rw [hi]
  case h_2 hnone =>
    rw [hn] at hnone
    cases hnone

theorem addNode_of_find?_eq_none {n : GraphNode} (hn : g.find? n.name = none) :
    (g.addNode n).1.toGraphTable = g.toGraphTable.addNode n ∧ (g.addNode n).2 = g.nextSlot := by
  rw [addNode]
  split
  case h_1 i hi =>
    rw [hn] at hi
    cases hi
  case h_2 => exact ⟨rfl, rfl⟩

theorem ne_nextSlot_of_node? {a : GraphNode} (ha : g.node? i = some a) : i ≠ g.nextSlot := by
  rintro rfl
  rw [GraphTable.node?_nextSlot g.coherent] at ha
  cases ha

/-- The number that comes with a new node finds it. -/
theorem find?_addNode_self (g : CallGraph) (n : GraphNode) :
    (g.addNode n).1.find? n.name = some (g.addNode n).2 := by
  cases hn : g.find? n.name with
  | some i =>
    rw [addNode_of_find?_eq_some hn]
    exact hn
  | none =>
    obtain ⟨htable, hslot⟩ := addNode_of_find?_eq_none hn
    refine find?_eq_some_iff.mpr ⟨n, ?_, rfl⟩
    rw [htable, hslot, GraphTable.node?_addNode g.coherent, if_pos rfl]

theorem grows_addNode (g : CallGraph) (n : GraphNode) : g.Grows (g.addNode n).1 := by
  intro x i hx
  cases hn : g.find? n.name with
  | some j =>
    rw [addNode_of_find?_eq_some hn]
    exact hx
  | none =>
    obtain ⟨a, ha, hname⟩ := find?_eq_some_iff.mp hx
    refine find?_eq_some_iff.mpr ⟨a, ?_, hname⟩
    rw [(addNode_of_find?_eq_none hn).1, GraphTable.node?_addNode g.coherent,
      if_neg (ne_nextSlot_of_node? ha)]
    exact ha

theorem edges_addNode (g : CallGraph) (n : GraphNode) : (g.addNode n).1.edges = g.edges := by
  cases hn : g.find? n.name with
  | some i => rw [addNode_of_find?_eq_some hn]
  | none => rw [(addNode_of_find?_eq_none hn).1, GraphTable.edges_addNode]

/-- A new node adds no edges: edges join nodes that were there before, and those keep their
names. -/
theorem adds_addNode (g : CallGraph) (n : GraphNode) :
    g.Adds (g.addNode n).1 fun _ _ => False := by
  have hg := grows_addNode g n
  have hcalls : ∀ {i j}, (g.addNode n).1.Calls i j ↔ g.Calls i j := by
    intro i j
    rw [Calls, Calls, edges_addNode]
  refine ⟨hg, fun u v => ?_⟩
  rw [or_false]
  constructor
  · rintro ⟨i, j, hu, hv, hc⟩
    have hc' := hcalls.mp hc
    obtain ⟨a, ha⟩ := exists_find?_of_contains hc'.contains_source
    obtain ⟨b, hb⟩ := exists_find?_of_contains hc'.contains_target
    obtain rfl : a = u := find?_inj (hg ha) hu
    obtain rfl : b = v := find?_inj (hg hb) hv
    exact ⟨i, j, ha, hb, hc'⟩
  · rintro ⟨i, j, hu, hv, hc⟩
    exact ⟨i, j, hg hu, hg hv, hcalls.mpr hc⟩

/-- An edge between two nodes is added, and nothing else changes. -/
theorem exists_addEdge? {source target : Nat} (hs : g.contains source) (ht : g.contains target) :
    ∃ h, g.addEdge? source target = some h ∧ (∀ x, h.find? x = g.find? x) ∧
      ∀ {i j}, h.Calls i j ↔ g.Calls i j ∨ i = source ∧ j = target := by
  refine ⟨_, dif_pos ⟨hs, ht⟩, fun _ => rfl, ?_⟩
  intro i j
  obtain ⟨id, hid⟩ := g.toGraphTable.exists_edges_addEdge source target
  change (∃ e ∈ (g.toGraphTable.addEdge source target).edges, e.source = i ∧ e.target = j) ↔ _
  rw [hid]
  simp only [List.mem_append, List.mem_singleton, or_and_right, exists_or, exists_eq_left]
  exact or_congr_right (and_congr eq_comm eq_comm)

theorem adds_addEdge? {source target : Nat} (hu : g.find? u = some source)
    (hv : g.find? v = some target) :
    ∃ h, g.addEdge? source target = some h ∧ g.Adds h fun a b => a = u ∧ b = v := by
  obtain ⟨h, hh, hfind, hcalls⟩ := exists_addEdge? (contains_of_find? hu) (contains_of_find? hv)
  refine ⟨h, hh, fun x i hx => (hfind x).trans hx, fun a b => ?_⟩
  constructor
  · rintro ⟨i, j, ha, hb, hc⟩
    rw [hfind] at ha hb
    rcases hcalls.mp hc with hc | ⟨rfl, rfl⟩
    · exact Or.inl ⟨i, j, ha, hb, hc⟩
    · exact Or.inr ⟨find?_inj ha hu, find?_inj hb hv⟩
  · rintro (⟨i, j, ha, hb, hc⟩ | ⟨rfl, rfl⟩)
    · exact ⟨i, j, (hfind a).trans ha, (hfind b).trans hb, hcalls.mpr (Or.inl hc)⟩
    · exact ⟨source, target, (hfind a).trans hu, (hfind b).trans hv,
        hcalls.mpr (Or.inr ⟨rfl, rfl⟩)⟩

/-- A link adds one edge. -/
theorem adds_linkTo (hu : g.find? u = some i) (x : String) :
    g.Adds (linkTo i g x) fun a b => a = u ∧ b = x := by
  have hnode := adds_addNode g (.external x)
  obtain ⟨h, hh, hedge⟩ := adds_addEdge? (hnode.grows hu) (find?_addNode_self g (.external x))
  have hlink : linkTo i g x = h := by
    rw [linkTo]
    change ((g.addNode (.external x)).1.addEdge? i (g.addNode (.external x)).2).getD _ = h
    rw [hh]
    rfl
  rw [hlink]
  exact (hnode.trans hedge).congr (by simp [GraphNode.external])

/-- A record adds its targets. -/
theorem adds_linkAll {targets : Callable → NameSet} {c : Callable} (hc : g.find? c.name = some i) :
    g.Adds (linkAll targets g c) fun u v => u = c.name ∧ v ∈ targets c := by
  have hlinks : g.Adds ((targets c).toList.foldl (linkTo i) g) fun u v =>
      ∃ x ∈ (targets c).toList, u = c.name ∧ v = x :=
    Adds.foldl fun h hh x _ => adds_linkTo (hh hc) x
  rw [linkAll, hc]
  refine hlinks.congr fun u v => ?_
  constructor
  · rintro ⟨x, hx, hu, rfl⟩
    exact ⟨hu, hx⟩
  · rintro ⟨hu, hv⟩
    exact ⟨v, hv, hu, rfl⟩

/-! ## The graph of a relation -/

theorem adds_nodesOf (r : Registry) : (∅ : CallGraph).Adds (nodesOf r) fun _ _ => False :=
  (Adds.foldl fun h _ c _ => adds_addNode h (.ofCallable c)).congr (by simp)

theorem exists_find?_foldl_addNode {cs : List Callable} {c : Callable} (hc : c ∈ cs)
    (g : CallGraph) :
    ∃ i, (cs.foldl (fun g c => (g.addNode (.ofCallable c)).1) g).find? c.name = some i := by
  induction cs generalizing g with
  | nil => cases hc
  | cons b cs ih =>
    rcases List.mem_cons.mp hc with rfl | hc
    · have hrest : ∀ h : CallGraph,
          h.Grows (cs.foldl (fun g c => (g.addNode (.ofCallable c)).1) h) :=
        fun h => (Adds.foldl fun h _ b _ => adds_addNode h (.ofCallable b)).grows
      exact ⟨_, hrest _ (find?_addNode_self g (.ofCallable c))⟩
    · exact ih hc _

/-- **The graph of a relation has the edges of the relation** and no others. -/
theorem hasEdge_ofRelation {targets : Callable → NameSet} {r : Registry} :
    (ofRelation targets r).HasEdge u v ↔ ∃ c, r.find? u = some c ∧ v ∈ targets c := by
  have hlinks : (nodesOf r).Adds (ofRelation targets r) fun u v =>
      ∃ c ∈ r.entries, u = c.name ∧ v ∈ targets c := by
    refine Adds.foldl fun h hh c hc => ?_
    obtain ⟨i, hi⟩ := exists_find?_foldl_addNode hc ∅
    exact adds_linkAll (hh hi)
  have hempty : ¬ (∅ : CallGraph).HasEdge u v := by
    rintro ⟨i, j, -, -, e, he, -⟩
    exact absurd he List.not_mem_nil
  rw [hlinks.hasEdge_iff, (adds_nodesOf r).hasEdge_iff, or_false, or_iff_right hempty]
  constructor
  · rintro ⟨c, hc, rfl, hv⟩
    exact ⟨c, Registry.find?_eq_some_iff.mpr ⟨hc, rfl⟩, hv⟩
  · rintro ⟨c, hu, hv⟩
    obtain ⟨hc, rfl⟩ := Registry.find?_eq_some_iff.mp hu
    exact ⟨c, hc, rfl, hv⟩

/-! ## Offered nodes -/

/-- The node with a name, whatever its number. -/
def record? (g : CallGraph) (x : String) : Option GraphNode :=
  (g.find? x).bind g.node?

theorem record?_eq_some_iff {a : GraphNode} :
    g.record? x = some a ↔ (∃ i, g.node? i = some a) ∧ a.name = x := by
  rw [record?, Option.bind_eq_some_iff]
  constructor
  · rintro ⟨i, hi, ha⟩
    obtain ⟨b, hb, rfl⟩ := find?_eq_some_iff.mp hi
    obtain rfl : a = b := Option.some.inj (ha.symm.trans hb)
    exact ⟨⟨i, ha⟩, rfl⟩
  · rintro ⟨⟨i, ha⟩, hname⟩
    exact ⟨i, find?_eq_some_iff.mpr ⟨a, ha, hname⟩, ha⟩

theorem record?_empty (x : String) : (∅ : CallGraph).record? x = none := rfl

theorem record?_congr (hnode : ∀ i, h.node? i = g.node? i) (x : String) :
    h.record? x = g.record? x := by
  refine Option.ext fun a => ?_
  simp only [record?_eq_some_iff, hnode]

/-- `h` is `g` with further nodes: a name that has no node in `g` gets the first one of `ns`. -/
def Supplies (g h : CallGraph) (ns : List GraphNode) : Prop :=
  ∀ x, h.record? x = (g.record? x).or (ns.find? fun n => n.name = x)

theorem Supplies.refl (g : CallGraph) : g.Supplies g [] :=
  fun _ => Option.or_none.symm

theorem Supplies.trans {ns ms : List GraphNode} (hgh : g.Supplies h ns) (hhk : h.Supplies k ms) :
    g.Supplies k (ns ++ ms) := by
  intro x
  rw [hhk x, hgh x, List.find?_append, Option.or_assoc]

/-- A series of steps offers what each of them offers, in the same order. -/
theorem Supplies.foldl {α : Type} {step : CallGraph → α → CallGraph} {ns : α → List GraphNode}
    {xs : List α} (hgrows : ∀ h, g.Grows h → ∀ a ∈ xs, h.Grows (step h a))
    (hstep : ∀ h, g.Grows h → ∀ a ∈ xs, h.Supplies (step h a) (ns a)) :
    g.Supplies (xs.foldl step g) (xs.flatMap ns) := by
  induction xs generalizing g with
  | nil => exact Supplies.refl g
  | cons a xs ih =>
    have hfirst := hstep g (fun _ _ hx => hx) a List.mem_cons_self
    have hg : g.Grows (step g a) := hgrows g (fun _ _ hx => hx) a List.mem_cons_self
    have hrest := ih
      (fun h hh b hb => hgrows h (hg.trans hh) b (List.mem_cons_of_mem a hb))
      (fun h hh b hb => hstep h (hg.trans hh) b (List.mem_cons_of_mem a hb))
    exact hfirst.trans hrest

theorem exists_node?_addNode {n a : GraphNode} (hn : g.find? n.name = none) :
    (∃ i, (g.addNode n).1.node? i = some a) ↔ (∃ i, g.node? i = some a) ∨ a = n := by
  rw [(addNode_of_find?_eq_none hn).1]
  simp only [GraphTable.node?_addNode g.coherent]
  constructor
  · rintro ⟨i, ha⟩
    split at ha
    · exact Or.inr (Option.some.inj ha).symm
    · exact Or.inl ⟨i, ha⟩
  · rintro (⟨i, ha⟩ | rfl)
    · exact ⟨i, by rw [if_neg (ne_nextSlot_of_node? ha), ha]⟩
    · exact ⟨g.nextSlot, if_pos rfl⟩

theorem supplies_addNode (g : CallGraph) (n : GraphNode) : g.Supplies (g.addNode n).1 [n] := by
  intro x
  rw [List.find?_singleton]
  cases hn : g.find? n.name with
  | some i =>
    obtain ⟨a, ha, hname⟩ := find?_eq_some_iff.mp hn
    rw [addNode_of_find?_eq_some hn]
    by_cases hx : n.name = x
    · rw [record?_eq_some_iff.mpr ⟨⟨i, ha⟩, hname.trans hx⟩]
      rfl
    · simp [hx]
  | none =>
    refine Option.ext fun a => ?_
    rw [record?_eq_some_iff, exists_node?_addNode hn]
    by_cases hx : n.name = x
    · -- The name is new, so no other node has it.
      have hnone : g.record? x = none := by rw [record?, ← hx, hn, Option.bind_none]
      have hnew : ¬ ((∃ i, g.node? i = some a) ∧ a.name = x) := by
        rw [← record?_eq_some_iff, hnone]
        exact nofun
      rw [or_and_right, or_iff_right hnew, hnone]
      simp only [hx, decide_true, if_true, Option.none_or, Option.some.injEq]
      exact ⟨fun ha => ha.1.symm, fun ha => ⟨ha.symm, ha ▸ hx⟩⟩
    · have hother : ¬ (a = n ∧ a.name = x) := fun ha => hx (ha.1 ▸ ha.2)
      rw [or_and_right, or_iff_left hother, ← record?_eq_some_iff]
      simp [hx]

/-- An edge offers no nodes. -/
theorem node?_addEdge?_getD (g : CallGraph) (source target i : Nat) :
    ((g.addEdge? source target).getD g).node? i = g.node? i := by
  rw [addEdge?]
  split
  · exact GraphTable.node?_addEdge g.toGraphTable source target i
  · rfl

theorem supplies_linkTo (g : CallGraph) (i : Nat) (x : String) :
    g.Supplies (linkTo i g x) [.external x] := by
  intro y
  rw [← supplies_addNode g (.external x) y]
  exact record?_congr (node?_addEdge?_getD (g.addNode (.external x)).1 i _) y

theorem supplies_linkAll {targets : Callable → NameSet} {c : Callable}
    (hc : g.find? c.name = some i) :
    g.Supplies (linkAll targets g c) ((targets c).toList.map .external) := by
  rw [linkAll, hc, List.map_eq_flatMap]
  exact Supplies.foldl (fun h hh x _ => (adds_linkTo (hh hc) x).grows)
    fun h _ x _ => supplies_linkTo h i x

theorem supplies_nodesOf (r : Registry) :
    (∅ : CallGraph).Supplies (nodesOf r) (r.entries.map .ofCallable) := by
  rw [List.map_eq_flatMap]
  exact Supplies.foldl (fun h _ c _ => grows_addNode h (.ofCallable c))
    fun h _ c _ => supplies_addNode h (.ofCallable c)

theorem supplies_ofRelation (targets : Callable → NameSet) (r : Registry) :
    (nodesOf r).Supplies (ofRelation targets r)
      ((r.entries.flatMap fun c => (targets c).toList).map .external) := by
  have hfound : ∀ {h}, (nodesOf r).Grows h → ∀ c ∈ r.entries, ∃ i, h.find? c.name = some i := by
    intro h hh c hc
    obtain ⟨i, hi⟩ := exists_find?_foldl_addNode hc ∅
    exact ⟨i, hh hi⟩
  rw [List.map_flatMap]
  refine Supplies.foldl (fun h hh c hc => ?_) fun h hh c hc => ?_
  · obtain ⟨i, hi⟩ := hfound hh c hc
    exact (adds_linkAll hi).grows
  · obtain ⟨i, hi⟩ := hfound hh c hc
    exact supplies_linkAll hi

theorem find?_map_external (names : List String) (x : String) :
    (names.map GraphNode.external).find? (fun n => n.name = x) =
      if names.contains x then some (.external x) else none := by
  induction names with
  | nil => rfl
  | cons y names ih =>
    rw [List.map_cons, List.find?_cons, ih]
    by_cases hy : y = x
    · simp [GraphNode.external, hy]
    · simp [GraphNode.external, hy, Ne.symm hy]

/-- **The nodes of the graph of a relation**: every record has one, and so has every other name that
a record refers to. -/
theorem record?_ofRelation {targets : Callable → NameSet} {r : Registry} :
    (ofRelation targets r).record? x = ((r.find? x).map .ofCallable).or
      (if r.entries.any fun c => (targets c).contains x then some (.external x) else none) := by
  rw [(supplies_nodesOf r).trans (supplies_ofRelation targets r) x, record?_empty, Option.none_or,
    List.find?_append, find?_map_external, List.find?_map, List.contains_flatMap]
  rfl

end CallGraph

end CallAtlas
