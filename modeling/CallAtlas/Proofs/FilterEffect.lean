import CallAtlas.Proofs.ViewExactness

/-!
# What connection filters remove

A list of a filter looks at the nodes that its caller calls and removes those that it does not
admit. The lists apply one after the other to a graph that shrinks under them, and a list may
remove the caller of another. Two facts survive this.

* A list that has been applied stays respected: whatever is removed later, no call is added.
* A node that is gone was removed by some step, and what that step objected to was already there in
  the graph that the query started from, since no call and no name is ever added.

Both are facts about a chain of steps that only remove nodes, and are proved for all such chains.

## Main definitions

* `FilterAction.Admits` — what being listed means
* `CallGraph.Respects` — the contract of a filter
* `CallGraph.Condemned` — the nodes that a list removes
* `Query.Dismisses` — the reasons for which a query removes a node before pruning

## Main results

* `CallGraph.isInduced_step_of_mem`, `CallGraph.exists_step_of_not_contains` — chains of steps
* `CallGraph.contains_filterList` — a list removes exactly the nodes that it condemns
* `Query.respects_view` — a view respects every filter of its query
* `Query.dismisses_of_not_contains_survivors` — nothing is removed without a reason
-/

namespace CallAtlas

/-- What a list lets stay: the names in it, or the names not in it. -/
def FilterAction.Admits : FilterAction → List String → String → Prop
  | .keep, listed, name => name ∈ listed
  | .exclude, listed, name => name ∉ listed

theorem ConnectionFilter.condemns_iff {action : FilterAction} {listed : List String}
    {name : String} :
    ConnectionFilter.condemns action listed name ↔ ¬ action.Admits listed name := by
  cases action with
  | keep => simp [condemns, FilterAction.Admits]
  | exclude => simp [condemns, FilterAction.Admits]

namespace CallGraph

variable {g h : CallGraph} {i j caller : Nat} {action : FilterAction} {listed : List String}
  {list : String × List String} {f : ConnectionFilter}

theorem IsInduced.name_eq (hg : IsInduced h g) (hi : h.contains i) : h.name i = g.name i := by
  rw [name, name, hg.node?_eq hi]

theorem IsInduced.find?_eq_some (hg : IsInduced h g) {x : String} (hi : h.find? x = some i) :
    g.find? x = some i := by
  rw [hg.find?_eq, Option.filter_eq_some_iff] at hi
  exact hi.1

theorem IsInduced.mem_successors (hg : IsInduced h g) (hj : j ∈ h.successors i) :
    j ∈ g.successors i :=
  CallGraph.mem_successors.mpr (hg.calls_iff.mp (CallGraph.mem_successors.mp hj)).1

/-! ## Chains of steps that remove nodes -/

section Chain

variable {α : Type} {step : CallGraph → α → CallGraph} {a : α} {as : List α}

/-- The end of a chain is an induced sub-graph of what each of its steps leaves. -/
theorem isInduced_step_of_mem (hstep : ∀ g a, IsInduced (step g a) g) (ha : a ∈ as)
    (g : CallGraph) : ∃ h, IsInduced (as.foldl step g) (step h a) := by
  induction as generalizing g with
  | nil => cases ha
  | cons b as ih =>
    rcases List.mem_cons.mp ha with rfl | ha
    · exact ⟨g, isInduced_foldl hstep as (step g a)⟩
    · exact ih ha (step g b)

/-- A node that a chain removes is removed by one of its steps. -/
theorem exists_step_of_not_contains (hstep : ∀ g a, IsInduced (step g a) g) (hj : g.contains j)
    (hgone : ¬ (as.foldl step g).contains j) :
    ∃ a ∈ as, ∃ h, IsInduced h g ∧ h.contains j ∧ ¬ (step h a).contains j := by
  induction as generalizing g with
  | nil => exact absurd hj hgone
  | cons a as ih =>
    by_cases hstay : (step g a).contains j
    · obtain ⟨b, hb, h, hind, hh⟩ := ih hstay hgone
      exact ⟨b, List.mem_cons_of_mem a hb, h, hind.trans (hstep g a), hh⟩
    · exact ⟨a, List.mem_cons_self, g, .refl g, hj, hstay⟩

end Chain

/-! ## One list -/

/-- The node is called by the caller of the list, is not the caller itself, and is not admitted by
the list. -/
def Condemned (g : CallGraph) (action : FilterAction) (list : String × List String) (j : Nat) :
    Prop :=
  ∃ i, g.find? list.1 = some i ∧ j ∈ g.successors i ∧ j ≠ i ∧ ¬ action.Admits list.2 (g.name j)

theorem Condemned.contains (hj : g.Condemned action list j) : g.contains j := by
  obtain ⟨i, -, hsucc, -⟩ := hj
  exact (CallGraph.mem_successors.mp hsucc).contains_target

/-- A node that is condemned in a part of a graph is condemned in the graph. -/
theorem IsInduced.condemned (hg : IsInduced h g) (hj : h.Condemned action list j) :
    g.Condemned action list j := by
  have hstay := hj.contains
  obtain ⟨i, hi, hsucc, hne, hlist⟩ := hj
  rw [hg.name_eq hstay] at hlist
  exact ⟨i, hg.find?_eq_some hi, hg.mem_successors hsucc, hne, hlist⟩

theorem contains_filterOne :
    (filterOne action listed caller g i).contains j ↔
      g.contains j ∧ ¬ (j = i ∧ j ≠ caller ∧ ¬ action.Admits listed (g.name j)) := by
  rw [filterOne]
  split
  case isTrue hgo =>
    simp only [Bool.and_eq_true, decide_eq_true_eq, ConnectionFilter.condemns_iff] at hgo
    rw [contains_removeNode]
    refine and_congr_right fun _ => not_congr ⟨fun hji => ?_, fun hji => hji.1⟩
    rw [hji]
    exact ⟨rfl, hgo.1.1, hgo.2⟩
  case isFalse hstay =>
    simp only [Bool.and_eq_true, decide_eq_true_eq, ConnectionFilter.condemns_iff] at hstay
    refine (and_iff_left_of_imp fun hj => ?_).symm
    rintro ⟨rfl, hne, hlist⟩
    exact hstay ⟨⟨hne, hj⟩, hlist⟩

theorem contains_foldl_filterOne {is : List Nat} :
    (is.foldl (filterOne action listed caller) g).contains j ↔
      g.contains j ∧ ¬ (j ∈ is ∧ j ≠ caller ∧ ¬ action.Admits listed (g.name j)) := by
  induction is generalizing g with
  | nil => simp
  | cons i is ih =>
    rw [List.foldl_cons, ih, contains_filterOne, and_assoc]
    refine and_congr_right fun hj => ?_
    by_cases hout : j = i ∧ j ≠ caller ∧ ¬ action.Admits listed (g.name j)
    · exact iff_of_false (fun hc => hc.1 hout)
        (fun hc => hc ⟨List.mem_cons.mpr (Or.inl hout.1), hout.2⟩)
    · -- The node stays for now, so its name is still the same.
      have hstay : (filterOne action listed caller g i).contains j :=
        contains_filterOne.mpr ⟨hj, hout⟩
      rw [(isInduced_filterOne action listed caller g i).name_eq hstay, List.mem_cons]
      constructor
      · rintro ⟨-, hrest⟩ ⟨rfl | hmem, hne⟩
        · exact hout ⟨rfl, hne⟩
        · exact hrest ⟨hmem, hne⟩
      · intro hall
        exact ⟨hout, fun hc => hall ⟨Or.inr hc.1, hc.2⟩⟩

/-- **A list removes exactly the nodes that it condemns.** -/
theorem contains_filterList :
    (filterList action g list).contains j ↔ g.contains j ∧ ¬ g.Condemned action list j := by
  rw [filterList]
  split
  case h_1 hnone =>
    refine (and_iff_left_of_imp fun _ => ?_).symm
    rintro ⟨i, hi, -⟩
    rw [hnone] at hi
    cases hi
  case h_2 caller hcaller =>
    rw [contains_foldl_filterOne]
    refine and_congr_right fun _ => not_congr ⟨fun hj => ⟨caller, hcaller, hj⟩, ?_⟩
    rintro ⟨i, hi, hj⟩
    rw [hcaller, Option.some.injEq] at hi
    exact hi ▸ hj

/-! ## Respected lists -/

/-- The caller of each list calls only what the list admits, itself aside. -/
def Respects (g : CallGraph) (f : ConnectionFilter) : Prop :=
  ∀ list ∈ f.lists.entries, ∀ i, g.find? list.1 = some i →
    ∀ j ∈ g.successors i, j ≠ i → f.action.Admits list.2 (g.name j)

theorem respects_iff :
    g.Respects f ↔ ∀ list ∈ f.lists.entries, ∀ j, ¬ g.Condemned f.action list j := by
  constructor
  · rintro hf list hlist j ⟨i, hi, hj, hne, hout⟩
    exact hout (hf list hlist i hi j hj hne)
  · intro hf list hlist i hi j hj hne
    by_contra hout
    exact hf list hlist j ⟨i, hi, hj, hne, hout⟩

/-- A respected filter stays respected when nodes are removed. -/
theorem IsInduced.respects (hg : IsInduced h g) (hf : g.Respects f) : h.Respects f := by
  rw [respects_iff] at hf ⊢
  exact fun list hlist j hj => hf list hlist j (hg.condemned hj)

theorem not_condemned_filterList (g : CallGraph) (j : Nat) :
    ¬ (filterList action g list).Condemned action list j := by
  intro hj
  exact (contains_filterList.mp hj.contains).2 ((isInduced_filterList action g list).condemned hj)

/-- **A filter is respected by what it leaves**, although its lists apply one after the other. -/
theorem respects_applyFilter (g : CallGraph) (f : ConnectionFilter) :
    (g.applyFilter f).Respects f := by
  rw [respects_iff]
  intro list hlist j hj
  obtain ⟨h, hind⟩ := isInduced_step_of_mem (isInduced_filterList f.action) hlist g
  exact not_condemned_filterList h j (hind.condemned hj)

/-- A node that a filter removes is condemned by one of its lists. -/
theorem exists_condemned_of_not_contains_applyFilter (hj : g.contains j)
    (hgone : ¬ (g.applyFilter f).contains j) :
    ∃ list ∈ f.lists.entries, g.Condemned f.action list j := by
  obtain ⟨list, hlist, h, hind, hstay, hout⟩ :=
    exists_step_of_not_contains (isInduced_filterList f.action) hj hgone
  rw [contains_filterList, not_and_not_right] at hout
  exact ⟨list, hlist, hind.condemned (hout hstay)⟩

/-! ## Exclusion -/

theorem isExcluded_iff {names files : List String} :
    g.isExcluded names files i ↔ ∃ a, g.node? i = some a ∧
      (a.name ∈ names ∨ ∃ file ∈ files, a.sourceFile = some file) := by
  simp only [isExcluded, Option.any_eq_true, Bool.or_eq_true, List.contains_iff_mem]
  refine exists_congr fun a => and_congr_right fun _ => or_congr_right ?_
  exact ⟨fun ⟨file, hfile, hmem⟩ => ⟨file, hmem, hfile⟩,
    fun ⟨file, hmem, hfile⟩ => ⟨file, hfile, hmem⟩⟩

theorem contains_exclude {names files : List String} :
    (g.exclude names files).contains i ↔ g.contains i ∧ ¬ g.isExcluded names files i :=
  contains_removeNodes_filter

end CallGraph

namespace Query

variable {q : Query} {base : CallGraph} {f : ConnectionFilter} {n : Nat}

theorem mem_orderedFilters : f ∈ q.orderedFilters ↔ f ∈ q.filters := by
  rw [orderedFilters, List.mem_append, List.mem_filter, List.mem_filter, ← and_or_left,
    and_iff_left_iff_imp]
  intro _
  cases f.action with
  | keep => exact Or.inl rfl
  | exclude => exact Or.inr rfl

theorem respects_survivors (hf : f ∈ q.filters) : (q.survivors base).Respects f := by
  obtain ⟨h, hind⟩ := CallGraph.isInduced_step_of_mem CallGraph.isInduced_applyFilter
    (mem_orderedFilters.mpr hf) (base.exclude q.excludeNodes q.excludeFiles)
  exact hind.respects (CallGraph.respects_applyFilter h f)

/-- A view respects every filter of its query. -/
theorem respects_view (hf : f ∈ q.filters) : (q.view base).graph.Respects f :=
  (q.isInduced_view base).respects (respects_survivors hf)

/-- The reasons for which a query removes a node of a graph before it prunes. -/
inductive Dismisses (q : Query) (base : CallGraph) (n : Nat) : Prop
  /-- The name of the node is excluded. -/
  | name {a : GraphNode} (ha : base.node? n = some a) (hname : a.name ∈ q.excludeNodes)
  /-- The file that defines the node is excluded. -/
  | file {a : GraphNode} {file : String} (ha : base.node? n = some a)
      (hfile : a.sourceFile = some file) (hmem : file ∈ q.excludeFiles)
  /-- Another node calls it and has a list that does not admit it. -/
  | list {f : ConnectionFilter} {list : String × List String} (hf : f ∈ q.filters)
      (hlist : list ∈ f.lists.entries) (hn : base.Condemned f.action list n)

theorem dismisses_of_isExcluded (hn : base.isExcluded q.excludeNodes q.excludeFiles n) :
    q.Dismisses base n := by
  obtain ⟨a, ha, hname | ⟨file, hmem, hfile⟩⟩ := CallGraph.isExcluded_iff.mp hn
  · exact .name ha hname
  · exact .file ha hfile hmem

/-- Nothing is removed before pruning without a reason. -/
theorem dismisses_of_not_contains_survivors (hn : base.contains n)
    (hgone : ¬ (q.survivors base).contains n) : q.Dismisses base n := by
  by_cases hexcluded : base.isExcluded q.excludeNodes q.excludeFiles n
  · exact dismisses_of_isExcluded hexcluded
  · obtain ⟨f, hf, h, hind, hstay, hout⟩ := CallGraph.exists_step_of_not_contains
      CallGraph.isInduced_applyFilter (CallGraph.contains_exclude.mpr ⟨hn, hexcluded⟩) hgone
    obtain ⟨list, hlist, hcondemned⟩ :=
      CallGraph.exists_condemned_of_not_contains_applyFilter hstay hout
    have hbase : h.IsInduced base := hind.trans (CallGraph.isInduced_removeNodes base _)
    exact .list (mem_orderedFilters.mp hf) hlist (hbase.condemned hcondemned)

/-- **Filters hold in every view, and remove nothing without a reason.** -/
theorem respects_and_dismisses (q : Query) (base : CallGraph) :
    ((∀ r ∈ q.roots, (base.find? r).isSome) →
      ∃ v, q.run base = .ok v ∧ ∀ f ∈ q.filters, v.graph.Respects f) ∧
    ∀ n, base.contains n → ¬ (q.survivors base).contains n → q.Dismisses base n :=
  ⟨fun hroots => ⟨q.view base, run_eq_ok hroots, fun _ hf => respects_view hf⟩,
    fun _ hn hgone => dismisses_of_not_contains_survivors hn hgone⟩

/-- The list of `x` takes `a`, in slot 0, out of the graph. -/
theorem respects_and_dismisses_selfCalling :
    let q : Query := { roots := ["r"], filters := [⟨.exclude, .ofList [("x", ["a"])]⟩] }
    let base := CallGraph.ofCalls Registry.selfCalling
    ((∀ r ∈ q.roots, (base.find? r).isSome) ∧
      ∃ v, q.run base = .ok v ∧ ∀ f ∈ q.filters, v.graph.Respects f) ∧
    base.contains 0 ∧ ¬ (q.survivors base).contains 0 ∧ q.Dismisses base 0 :=
  ⟨⟨by decide +kernel, (respects_and_dismisses _ _).1 (by decide +kernel)⟩, by decide +kernel,
    by decide +kernel, (respects_and_dismisses _ _).2 0 (by decide +kernel) (by decide +kernel)⟩

end Query

end CallAtlas
