import CallAtlas.Proofs.DefinitionRecord
import CallAtlas.Proofs.PreorderImage

/-!
# Which definitions can be read

One malformed definition stops the analysis of a whole corpus, so it matters which definitions are
malformed. The checks are spread over the collectors, and the collectors look at different parts of
the tree: at the statement itself, at its whole scope, at the part of the scope outside of internal
procedures, or at the whole module around it.

Here the checks are gathered. A definition makes *demands* on single nodes: that a node has one
name, that an allocation has an object and a shape. `Definition.Demands` lists the demands,
`Definition.Demand.IsMet` says what each asks for, and `Definition.Demand.Fails` says which fault
is told of a node that does not meet its demand.

A collector *inspects* certain demands if it succeeds only when all of them are met, and otherwise
tells the fault of one that fails. Inspections compose: two in a row inspect the demands of both.
So every collector gets one lemma, and the record is put together from them in the order in which
it is read.

## Main definitions

* `Definition.Demand`, `Definition.Demand.IsMet`, `Definition.Demand.Fails`
* `Definition.IsImportRoot` — the part of the tree whose imports count
* `Definition.Demands`, `Definition.IsWellFormed`
* `Definition.Inspects` — a computation that checks demands
* `Definition.RejectsMalformed` — the contract of reading a definition

## Main results

* `Definition.inspects_record` — reading a definition inspects its demands
* `Definition.rejectsMalformed_ofDocument` — the contract holds
-/

namespace CallAtlas

open Source (Document Kind Tree)

namespace Definition

/-! ## Demands -/

/-- How many of the children of a node are names. -/
def nameCount (t : Tree) (i : Nat) : Nat :=
  (t.children i).countP fun c => (t.kind c).isName

/-- The first child of a node is of one of the given kinds. -/
def StartsWith (t : Tree) (i : Nat) (kinds : List Kind) : Prop :=
  ∃ c, (t.children i).head? = some c ∧ t.kind c ∈ kinds

/-- What a definition asks of a node. -/
inductive Demand where
  /-- The node is named. -/
  | named (i : Nat)
  /-- Something encloses the node. -/
  | enclosed (i : Nat)
  /-- The lines of the node are known. -/
  | placed (i : Nat)
  /-- The node declares a type. -/
  | declaration (i : Nat)
  /-- The node declares a variable. -/
  | entity (i : Nat)
  /-- The node allocates an array. -/
  | allocation (i : Nat)
  /-- The node deallocates a list. -/
  | deallocation (i : Nat)
  /-- The node can be deallocated. -/
  | object (i : Nat)

namespace Demand

/-- The tree meets a demand. -/
def IsMet (t : Tree) : Demand → Prop
  | named i => nameCount t i = 1
  | enclosed i => ∃ scope, t.parent i = some scope
  | placed i => ∃ j, (j = i ∨ t.parent i = some j) ∧ t.span j ≠ none
  | declaration i => StartsWith t i [.declarationTypeSpec, .intrinsicTypeSpec]
  | entity i => StartsWith t i [.name]
  | allocation i => 2 ≤ (t.children i).length ∧ StartsWith t i [.name, .dataRef]
  | deallocation i => StartsWith t i [.allocateObjectList]
  | object i => t.kind i ∈ [.name, .dataRef]

/-- The tree does not meet a demand, and the fault tells why. -/
inductive Fails (t : Tree) : Demand → Malformed → Prop
  | noName {i : Nat} : nameCount t i = 0 → Fails t (named i) (.noName (t.kind i))
  | manyNames {i : Nat} : 1 < nameCount t i → Fails t (named i) (.manyNames (t.kind i))
  | noScope {i c : Nat} : t.parent i = none → c ∈ t.children i → (t.kind c).isName →
      Fails t (enclosed i) (.noScope (t.text c))
  | noLines {i c : Nat} : (∀ j, j = i ∨ t.parent i = some j → t.span j = none) →
      c ∈ t.children i → (t.kind c).isName → Fails t (placed i) (.noLines (t.text c))
  | noTypeSpec {i : Nat} : t.children i = [] → Fails t (declaration i) .noTypeSpec
  | typeSpec {i c : Nat} : (t.children i).head? = some c →
      t.kind c ∉ [.declarationTypeSpec, .intrinsicTypeSpec] →
      Fails t (declaration i) (.unexpectedChild .typeDeclaration (t.kind c))
  | noEntityName {i : Nat} : t.children i = [] → Fails t (entity i) .noEntityName
  | entityName {i c : Nat} : (t.children i).head? = some c → t.kind c ∉ [.name] →
      Fails t (entity i) (.unexpectedChild .entityDeclaration (t.kind c))
  | noShape {i : Nat} : (t.children i).length < 2 → Fails t (allocation i) .noShape
  | allocated {i c : Nat} : (t.children i).head? = some c → t.kind c ∉ [.name, .dataRef] →
      Fails t (allocation i) (.unexpectedChild .allocation (t.kind c))
  | noObjects {i : Nat} : t.children i = [] → Fails t (deallocation i) .noObjects
  | objectList {i c : Nat} : (t.children i).head? = some c → t.kind c ∉ [.allocateObjectList] →
      Fails t (deallocation i) (.unexpectedChild .deallocateStatement (t.kind c))
  | released {i : Nat} : t.kind i ∉ [.name, .dataRef] →
      Fails t (object i) (.unexpectedChild .deallocation (t.kind i))

end Demand

/-- The imports of a procedure are under its nearest module, or under its scope if it is in none. -/
inductive IsImportRoot (t : Tree) (d : Nat) : Nat → Prop
  | module {r : Nat} : r ∈ t.ancestors d → t.kind r = .module →
      (∀ m ∈ t.ancestors d, t.kind m = .module → t.Under m r) → IsImportRoot t d r
  | scope {r : Nat} : (∀ m ∈ t.ancestors d, t.kind m ≠ .module) → t.parent d = some r →
      IsImportRoot t d r

/-- The demands of a procedure on what its body refers to. -/
inductive BodyDemands (t : Tree) (d : Nat) : Demand → Prop
  | imported {r i : Nat} : IsImportRoot t d r → t.Under r i → t.kind i = .useStmt →
      BodyDemands t d (.named i)
  | reference {i : Nat} : IsLocalTo t d i → t.kind i = .callStmt ∨ t.kind i = .partRef →
      BodyDemands t d (.named i)
  | declaration {i : Nat} : IsLocalTo t d i → t.kind i = .typeDeclarationStmt →
      BodyDemands t d (.declaration i)
  | entity {i j : Nat} : IsLocalTo t d i → t.kind i = .typeDeclarationStmt → t.Under i j →
      t.kind j = .entityDecl → BodyDemands t d (.entity j)
  | allocation {i : Nat} : IsLocalTo t d i → t.kind i = .allocation →
      BodyDemands t d (.allocation i)
  | deallocation {i : Nat} : IsLocalTo t d i → t.kind i = .deallocateStmt →
      BodyDemands t d (.deallocation i)
  | object {i list c : Nat} : IsLocalTo t d i → t.kind i = .deallocateStmt →
      (t.children i).head? = some list → c ∈ t.children list → BodyDemands t d (.object c)

/-- The demands of a definition. One that is of none of the four sorts is only asked for a name. -/
inductive Demands (t : Tree) (d : Nat) : Demand → Prop
  | name : Demands t d (.named d)
  | scope {kind : CallableKind} : CallableKind.classify (t.kind d) = some kind →
      Demands t d (.enclosed d)
  | lines {kind : CallableKind} : CallableKind.classify (t.kind d) = some kind →
      Demands t d (.placed d)
  | nested {kind : CallableKind} {scope i : Nat} : CallableKind.classify (t.kind d) = some kind →
      t.parent d = some scope → t.Under scope i → i ≠ d →
      t.kind i = .subroutineStmt ∨ t.kind i = .functionStmt → Demands t d (.named i)
  | imported {scope i : Nat} : t.kind d = .moduleStmt → t.parent d = some scope →
      t.Under scope i → t.kind i = .useStmt → Demands t d (.named i)
  | body {q : Demand} : t.kind d = .subroutineStmt ∨ t.kind d = .functionStmt →
      BodyDemands t d q → Demands t d q

/-- Everything that the definition `d` asks for is there. -/
def IsWellFormed (t : Tree) (d : Nat) : Prop :=
  ∀ q, Demands t d q → q.IsMet t

variable {t : Tree} {d i c scope : Nat}

theorem not_startsWith_of_children (h : t.children i = []) (kinds : List Kind) :
    ¬ StartsWith t i kinds := by
  rintro ⟨c, hc, -⟩
  rw [h] at hc
  cases hc

theorem not_startsWith_of_head? {kinds : List Kind} (hc : (t.children i).head? = some c)
    (hk : t.kind c ∉ kinds) : ¬ StartsWith t i kinds := by
  rintro ⟨c', hc', hk'⟩
  obtain rfl : c = c' := Option.some.inj (hc.symm.trans hc')
  exact hk hk'

theorem Demand.Fails.not_isMet {q : Demand} {e : Malformed} (h : q.Fails t e) : ¬ q.IsMet t := by
  cases h with
  | noName h | manyNames h =>
    intro hmet
    rw [Demand.IsMet] at hmet
    omega
  | noScope h =>
    rintro ⟨scope, hscope⟩
    rw [h] at hscope
    cases hscope
  | noLines h =>
    rintro ⟨j, hj, hspan⟩
    exact hspan (h j hj)
  | noTypeSpec h | noEntityName h | noObjects h => exact not_startsWith_of_children h _
  | typeSpec hc hk | entityName hc hk | objectList hc hk => exact not_startsWith_of_head? hc hk
  | noShape h =>
    rintro ⟨hlength, -⟩
    omega
  | allocated hc hk =>
    rintro ⟨-, hstarts⟩
    exact not_startsWith_of_head? hc hk hstarts
  | released h => exact h

/-! ## Inspections -/

/-- The computation succeeds only if the demands `R` are all met, and otherwise tells the fault of
one that fails. -/
def Inspects {α : Type} (t : Tree) (R : Demand → Prop) : Except Malformed α → Prop
  | .ok _ => ∀ q, R q → q.IsMet t
  | .error e => ∃ q, R q ∧ q.Fails t e

namespace Inspects

variable {α β : Type} {R S : Demand → Prop} {x : Except Malformed α}

theorem pure {a : α} : Inspects t (fun _ => False) (Pure.pure a : Except Malformed α) :=
  fun _ => False.elim

theorem error {e : Malformed} {q : Demand} (hq : R q) (h : q.Fails t e) :
    Inspects t R (.error e : Except Malformed α) :=
  ⟨q, hq, h⟩

theorem congr (hx : Inspects t R x) (h : ∀ q, R q ↔ S q) : Inspects t S x := by
  obtain rfl : R = S := funext fun q => propext (h q)
  exact hx

/-- Demands that are known to be met need no look. -/
theorem or_of_isMet (hR : ∀ q, R q → q.IsMet t) (hx : Inspects t S x) :
    Inspects t (fun q => R q ∨ S q) x := by
  cases x with
  | error e =>
    obtain ⟨q, hq, h⟩ := hx
    exact error (Or.inr hq) h
  | ok a => exact fun q hq => hq.elim (hR q) (hx q)

theorem bind {f : α → Except Malformed β} (hx : Inspects t R x)
    (hf : ∀ a, x = .ok a → Inspects t S (f a)) :
    Inspects t (fun q => R q ∨ S q) (x >>= f) := by
  cases x with
  | error e =>
    obtain ⟨q, hq, h⟩ := hx
    exact error (Or.inl hq) h
  | ok a => exact or_of_isMet hx (hf a rfl)

theorem map {f : α → β} (hx : Inspects t R x) : Inspects t R (x.map f) := by
  cases x with
  | error e => exact hx
  | ok a => exact hx

theorem bind_pure {f : α → β} (hx : Inspects t R x) :
    Inspects t R (x >>= fun a => Pure.pure (f a)) := by
  cases x with
  | error e => exact hx
  | ok a => exact hx

theorem mapM {nodes : List Nat} {D : Nat → Demand → Prop} {f : Nat → Except Malformed α}
    (h : ∀ i ∈ nodes, Inspects t (D i) (f i)) :
    Inspects t (fun q => ∃ i ∈ nodes, D i q) (nodes.mapM f) := by
  induction nodes with
  | nil => exact pure.congr (by simp)
  | cons i nodes ih =>
    rw [List.forall_mem_cons] at h
    rw [List.mapM_cons]
    refine (h.1.bind fun _ _ => (ih h.2).bind_pure).congr fun q => ?_
    simp only [List.mem_cons, exists_eq_or_imp]

end Inspects

/-! ## Collectors -/

theorem inspects_nameOf (t : Tree) (i : Nat) : Inspects t (· = .named i) (nameOf t i) := by
  have hcount : nameCount t i = ((t.children i).filter fun c => (t.kind c).isName).length :=
    List.countP_eq_length_filter
  rw [nameOf]
  split
  case h_1 only hnames =>
    rintro q rfl
    rw [Demand.IsMet, hcount, hnames]
    rfl
  case h_2 hnames =>
    exact .error rfl (.noName (by rw [hcount, hnames]; rfl))
  case h_3 hone hnone =>
    refine .error rfl (.manyNames ?_)
    rw [hcount]
    match hnames : (t.children i).filter fun c => (t.kind c).isName with
    | [] => exact absurd hnames hnone
    | [only] => exact absurd hnames (hone only)
    | _ :: _ :: _ => exact Nat.succ_lt_succ (Nat.succ_pos _)

theorem exists_child_of_nameOf {name : String} (h : nameOf t i = .ok name) :
    ∃ c ∈ t.children i, (t.kind c).isName ∧ t.text c = name := by
  rw [nameOf] at h
  split at h
  case h_1 only hnames =>
    have hmem : only ∈ (t.children i).filter fun c => (t.kind c).isName := by
      rw [hnames]
      exact List.mem_singleton_self only
    exact ⟨only, List.mem_of_mem_filter hmem, (List.mem_filter.mp hmem).2, Except.ok.inj h⟩
  case h_2 => cases h
  case h_3 => cases h

theorem inspects_namesOf (t : Tree) (nodes : List Nat) :
    Inspects t (fun q => ∃ i ∈ nodes, q = .named i) (namesOf t nodes) :=
  (Inspects.mapM fun i _ => inspects_nameOf t i).map

/-- A check inspects the demand that it decides. -/
theorem inspects_checkChild {place : Place} (q : Demand)
    (hmet : t.kind c ∈ place.expected → q.IsMet t)
    (hfails : t.kind c ∉ place.expected → q.Fails t (.unexpectedChild place (t.kind c))) :
    Inspects t (· = q) (checkChild t place c) := by
  rw [checkChild]
  split
  case isTrue h =>
    rintro _ rfl
    exact hmet (List.contains_iff_mem.mp h)
  case isFalse h =>
    exact .error rfl (hfails fun hmem => h (List.contains_iff_mem.mpr hmem))

theorem inspects_entity (declaredType : String) (i : Nat) :
    Inspects t (· = .entity i) (entity t declaredType i) := by
  rw [entity]
  split
  case h_1 h =>
    exact .error rfl (.noEntityName h)
  case h_2 name rest h =>
    have hhead : (t.children i).head? = some name := List.head?_eq_some_iff.mpr ⟨_, h⟩
    exact (inspects_checkChild (.entity i) (fun hk => ⟨name, hhead, hk⟩)
      (.entityName hhead)).bind_pure

theorem inspects_declared (ht : t.IsPreorder) (hi : i < t.size) :
    Inspects t (fun q => q = .declaration i ∨
        ∃ j, t.Under i j ∧ t.kind j = .entityDecl ∧ q = .entity j)
      (declared t i) := by
  rw [declared]
  split
  case h_1 h =>
    exact .error (Or.inl rfl) (.noTypeSpec h)
  case h_2 spec rest h =>
    have hhead : (t.children i).head? = some spec := List.head?_eq_some_iff.mpr ⟨_, h⟩
    refine (inspects_checkChild (.declaration i) (fun hk => ⟨spec, hhead, hk⟩)
      (.typeSpec hhead)).bind fun _ _ => ?_
    refine (Inspects.mapM fun j _ => inspects_entity _ j).congr fun q => ?_
    simp only [Tree.mem_descendants_iff ht hi, List.mem_singleton, and_assoc]

theorem inspects_allocation (known : NameMap Variable) (i : Nat) :
    Inspects t (· = .allocation i) (allocation t known i) := by
  rw [allocation]
  split
  case h_1 object shape rest h =>
    have hhead : (t.children i).head? = some object := List.head?_eq_some_iff.mpr ⟨_, h⟩
    have hlength : 2 ≤ (t.children i).length := by
      rw [h, List.length_cons, List.length_cons]
      omega
    exact (inspects_checkChild (.allocation i) (fun hk => ⟨hlength, object, hhead, hk⟩)
      (.allocated hhead)).bind_pure
  case h_2 h =>
    refine .error rfl (.noShape ?_)
    match hchildren : t.children i with
    | [] => exact Nat.succ_pos 1
    | [object] => exact Nat.lt_succ_self 1
    | object :: shape :: rest => exact absurd hchildren (h object shape rest)

theorem inspects_deallocation (t : Tree) (i : Nat) :
    Inspects t (fun q => q = .deallocation i ∨
        ∃ list, (t.children i).head? = some list ∧ ∃ c ∈ t.children list, q = .object c)
      (deallocation t i) := by
  rw [deallocation]
  split
  case h_1 h =>
    exact .error (Or.inl rfl) (.noObjects h)
  case h_2 list rest h =>
    have hhead : (t.children i).head? = some list := List.head?_eq_some_iff.mpr ⟨_, h⟩
    refine (inspects_checkChild (.deallocation i) (fun hk => ⟨list, hhead, hk⟩)
      (.objectList hhead)).bind fun _ _ => ?_
    have hreleased : ∀ c ∈ t.children list, Inspects t (· = .object c) (released t c) := fun c _ =>
      (inspects_checkChild (.object c) id .released).bind_pure
    refine (Inspects.mapM hreleased).congr fun q => ?_
    simp only [hhead, Option.some.injEq, exists_eq_left']

/-! ## The body of a procedure -/

theorem isImportRoot_iff {r : Nat} (hscope : t.parent d = some scope) :
    IsImportRoot t d r ↔ (t.nearestAncestor d .module).getD scope = r := by
  constructor
  · rintro (⟨hr, hk, hall⟩ | ⟨hnone, hr⟩)
    · rw [Tree.nearestAncestor_eq_some_iff.mpr ⟨hr, hk, hall⟩]
      rfl
    · rw [Tree.nearestAncestor_eq_none_iff.mpr hnone]
      exact Option.some.inj (hscope.symm.trans hr)
  · rintro rfl
    cases h : t.nearestAncestor d .module with
    | none => exact .scope (Tree.nearestAncestor_eq_none_iff.mp h) hscope
    | some r =>
      obtain ⟨hr, hk, hall⟩ := Tree.nearestAncestor_eq_some_iff.mp h
      exact .module hr hk hall

theorem IsImportRoot.lt_size {r : Nat} (hscope : t.parent d = some scope)
    (h : IsImportRoot t d r) : r < t.size := by
  cases h with
  | module hr => exact Nat.lt_trans (Tree.lt_of_mem_ancestors hr) (Tree.lt_size_of_parent hscope)
  | scope _ hr => exact Tree.parent_lt_size hr

theorem inspects_moduleUses (ht : t.IsPreorder) (hscope : t.parent d = some scope) :
    Inspects t (fun q => ∃ r i, IsImportRoot t d r ∧ t.Under r i ∧ t.kind i = .useStmt ∧
        q = .named i)
      (moduleUses t d scope) := by
  have hroot := (isImportRoot_iff hscope).mpr rfl
  refine (inspects_namesOf t _).congr fun q => ?_
  simp only [Tree.mem_descendants_iff ht (hroot.lt_size hscope), List.mem_singleton,
    isImportRoot_iff hscope, exists_and_left, exists_eq_left', and_assoc]

theorem inspects_addBody (ht : t.IsPreorder) (hscope : t.parent d = some scope)
    (hkind : t.kind d = .subroutineStmt ∨ t.kind d = .functionStmt) (c : Callable) :
    Inspects t (BodyDemands t d) (addBody t d scope c) := by
  have hmem : ∀ {k i}, CallableKind.classify k = none →
      (i ∈ localNodes t d scope k ↔ t.kind i = k ∧ IsLocalTo t d i) := by
    intro k i hk
    refine mem_localNodes ht hscope ?_
    rintro rfl
    rcases hkind with hd | hd <;> rw [hd] at hk <;> cases hk
  have hsize : ∀ i ∈ localNodes t d scope .typeDeclarationStmt, i < t.size := by
    intro i hi
    obtain ⟨-, ⟨_, hscope', hu⟩, -⟩ := (hmem rfl).mp hi
    exact hu.lt_size (Tree.parent_lt_size hscope')
  rw [addBody]
  refine ((inspects_moduleUses ht hscope).bind fun _ _ =>
    (inspects_namesOf t _).bind fun _ _ =>
    (inspects_namesOf t _).bind fun _ _ =>
    (Inspects.mapM fun i hi => inspects_declared ht (hsize i hi)).bind_pure.bind fun known _ =>
    (Inspects.mapM fun i _ => inspects_allocation known i).map.bind fun _ _ =>
    (Inspects.mapM fun i _ => inspects_deallocation t i).map.bind_pure).congr fun q => ?_
  simp (disch := decide) only [hmem]
  constructor
  · rintro (⟨r, i, hr, hu, hi, rfl⟩ | ⟨i, ⟨hi, hl⟩, rfl⟩ | ⟨i, ⟨hi, hl⟩, rfl⟩ |
      ⟨i, ⟨hi, hl⟩, rfl | ⟨j, hu, hj, rfl⟩⟩ | ⟨i, ⟨hi, hl⟩, rfl⟩ |
      ⟨i, ⟨hi, hl⟩, rfl | ⟨list, hlist, c, hc, rfl⟩⟩)
    · exact .imported hr hu hi
    · exact .reference hl (Or.inl hi)
    · exact .reference hl (Or.inr hi)
    · exact .declaration hl hi
    · exact .entity hl hi hu hj
    · exact .allocation hl hi
    · exact .deallocation hl hi
    · exact .object hl hi hlist hc
  · intro hq
    cases hq with
    | imported hr hu hi => exact Or.inl ⟨_, _, hr, hu, hi, rfl⟩
    | reference hl hi =>
      refine Or.inr ?_
      rcases hi with hi | hi
      · exact Or.inl ⟨_, ⟨hi, hl⟩, rfl⟩
      · exact Or.inr <| Or.inl ⟨_, ⟨hi, hl⟩, rfl⟩
    | declaration hl hi => exact Or.inr <| Or.inr <| Or.inr <| Or.inl ⟨_, ⟨hi, hl⟩, Or.inl rfl⟩
    | entity hl hi hu hj =>
      exact Or.inr <| Or.inr <| Or.inr <| Or.inl ⟨_, ⟨hi, hl⟩, Or.inr ⟨_, hu, hj, rfl⟩⟩
    | allocation hl hi =>
      exact Or.inr <| Or.inr <| Or.inr <| Or.inr <| Or.inl ⟨_, ⟨hi, hl⟩, rfl⟩
    | deallocation hl hi =>
      exact Or.inr <| Or.inr <| Or.inr <| Or.inr <| Or.inr ⟨_, ⟨hi, hl⟩, Or.inl rfl⟩
    | object hl hi hlist hc =>
      exact Or.inr <| Or.inr <| Or.inr <| Or.inr <| Or.inr
        ⟨_, ⟨hi, hl⟩, Or.inr ⟨_, hlist, _, hc, rfl⟩⟩

/-! ## The record -/

theorem mem_nestedDefinitions (ht : t.IsPreorder) (hscope : t.parent d = some scope) {k : Kind} :
    i ∈ nestedDefinitions t d scope k ↔ t.Under scope i ∧ t.kind i = k ∧ i ≠ d := by
  rw [nestedDefinitions, List.mem_filter, Tree.mem_descendants_iff ht (Tree.parent_lt_size hscope),
    List.mem_singleton, bne_iff_ne, and_assoc]

theorem location_eq_none_iff :
    location t d = none ↔ ∀ j, j = d ∨ t.parent d = some j → t.span j = none := by
  rw [location, Option.map_eq_none_iff]
  cases hparent : t.parent d with
  | none => simp
  | some scope => cases hspan : t.span scope <;> simp [hspan]

theorem classify_eq_some_iff {k : Kind} {kind : CallableKind} :
    CallableKind.classify k = some kind ↔
      (k = .subroutineStmt ∧ kind = .subroutine) ∨ (k = .functionStmt ∧ kind = .function) ∨
      (k = .interfaceStmt ∧ kind = .interface) ∨ (k = .moduleStmt ∧ kind = .module) := by
  unfold CallableKind.classify
  split <;> simp_all [eq_comm]

/-- The demands on a classified definition, in the order in which they are looked at: the head of
the definition, nested definitions, and what its sort asks for. -/
theorem demands_iff {kind : CallableKind} {q : Demand} (ht : t.IsPreorder)
    (hkind : CallableKind.classify (t.kind d) = some kind) (hscope : t.parent d = some scope) :
    Demands t d q ↔
      (q = .named d ∨ q = .enclosed d ∨ q = .placed d) ∨
      (∃ i ∈ nestedDefinitions t d scope .subroutineStmt, q = .named i) ∨
      (∃ i ∈ nestedDefinitions t d scope .functionStmt, q = .named i) ∨
      (t.kind d = .moduleStmt ∧ ∃ i ∈ t.descendants scope [.useStmt], q = .named i) ∨
      ((t.kind d = .subroutineStmt ∨ t.kind d = .functionStmt) ∧ BodyDemands t d q) := by
  simp only [mem_nestedDefinitions ht hscope, List.mem_singleton,
    Tree.mem_descendants_iff ht (Tree.parent_lt_size hscope)]
  have heq : ∀ {scope'}, t.parent d = some scope' → scope = scope' := fun hscope' =>
    Option.some.inj (hscope.symm.trans hscope')
  constructor
  · intro hq
    cases hq with
    | name => exact Or.inl (Or.inl rfl)
    | scope => exact Or.inl (Or.inr (Or.inl rfl))
    | lines => exact Or.inl (Or.inr (Or.inr rfl))
    | nested _ hscope' hu hne hi =>
      obtain rfl := heq hscope'
      rcases hi with hi | hi
      · exact Or.inr <| Or.inl ⟨_, ⟨hu, hi, hne⟩, rfl⟩
      · exact Or.inr <| Or.inr <| Or.inl ⟨_, ⟨hu, hi, hne⟩, rfl⟩
    | imported hd hscope' hu hi =>
      obtain rfl := heq hscope'
      exact Or.inr <| Or.inr <| Or.inr <| Or.inl ⟨hd, _, ⟨hu, hi⟩, rfl⟩
    | body hd hq => exact Or.inr <| Or.inr <| Or.inr <| Or.inr ⟨hd, hq⟩
  · rintro ((rfl | rfl | rfl) | ⟨i, ⟨hu, hi, hne⟩, rfl⟩ | ⟨i, ⟨hu, hi, hne⟩, rfl⟩ |
      ⟨hd, i, ⟨hu, hi⟩, rfl⟩ | ⟨hd, hq⟩)
    · exact .name
    · exact .scope hkind
    · exact .lines hkind
    · exact .nested hkind hscope hu hne (Or.inl hi)
    · exact .nested hkind hscope hu hne (Or.inr hi)
    · exact .imported hd hscope hu hi
    · exact .body hd hq

theorem demands_iff_of_classify_eq_none {q : Demand}
    (hkind : CallableKind.classify (t.kind d) = none) : Demands t d q ↔ q = .named d := by
  constructor
  · intro hq
    cases hq with
    | name => rfl
    | scope h | lines h | nested h =>
      rw [hkind] at h
      cases h
    | imported hd =>
      rw [hd] at hkind
      cases hkind
    | body hd =>
      rcases hd with hd | hd <;> rw [hd] at hkind <;> cases hkind
  · rintro rfl
    exact .name

theorem inspects_classified {kind : CallableKind} {name : String} (ht : t.IsPreorder)
    (hname : nameOf t d = .ok name) (hkind : CallableKind.classify (t.kind d) = some kind)
    (hscope : t.parent d = some scope) :
    Inspects t (Demands t d) (classified t kind d scope name) := by
  obtain ⟨c, hc, hcname, rfl⟩ := exists_child_of_nameOf hname
  rw [classified]
  cases hlocation : location t d with
  | none => exact .error (.lines hkind) (.noLines (location_eq_none_iff.mp hlocation) hc hcname)
  | some lines =>
    have hhead : ∀ q : Demand, q = .named d ∨ q = .enclosed d ∨ q = .placed d → q.IsMet t := by
      rintro q (rfl | rfl | rfl)
      · have hnamed := inspects_nameOf t d
        rw [hname] at hnamed
        exact hnamed _ rfl
      · exact ⟨scope, hscope⟩
      · by_contra hunplaced
        have hnone : location t d = none := location_eq_none_iff.mpr fun j hj =>
          by_contra fun hspan => hunplaced ⟨j, hj, hspan⟩
        rw [hlocation] at hnone
        cases hnone
    refine Inspects.congr (Inspects.or_of_isMet hhead <|
      (inspects_namesOf t _).bind fun _ _ => (inspects_namesOf t _).bind fun _ _ => ?_)
      fun q => (demands_iff ht hkind hscope).symm
    rcases classify_eq_some_iff.mp hkind with ⟨hd, rfl⟩ | ⟨hd, rfl⟩ | ⟨hd, rfl⟩ | ⟨hd, rfl⟩
    · refine (inspects_addBody ht hscope (Or.inl hd) _).congr fun q => ?_
      simp [hd]
    · refine (inspects_addBody ht hscope (Or.inr hd) _).congr fun q => ?_
      simp [hd]
    · refine Inspects.pure.congr fun q => ?_
      simp [hd]
    · refine (inspects_namesOf t _).bind_pure.congr fun q => ?_
      simp [hd]

/-- **Reading a definition inspects its demands.** -/
theorem inspects_record (ht : t.IsPreorder) : Inspects t (Demands t d) (record t d) := by
  rw [record]
  cases hkind : CallableKind.classify (t.kind d) with
  | none =>
    refine ((inspects_nameOf t d).bind fun _ _ => Inspects.pure).congr fun q => ?_
    rw [demands_iff_of_classify_eq_none hkind, or_false]
  | some kind =>
    refine ((inspects_nameOf t d).bind fun name hname => ?_).congr fun q =>
      or_iff_right_of_imp fun hq => hq ▸ Demands.name
    cases hscope : t.parent d with
    | none =>
      obtain ⟨c, hc, hcname, rfl⟩ := exists_child_of_nameOf hname
      exact .error (.scope hkind) (.noScope hscope hc hcname)
    | some scope => exact inspects_classified ht hname hkind hscope

/-! ## Rejection -/

/-- The contract of reading a definition. -/
structure RejectsMalformed (t : Tree) (d : Nat) : Prop where
  /-- There is a record if everything that the definition asks for is there. -/
  exists_record_iff : (∃ c, Callable.ofDefinition t d = .ok c) ↔ IsWellFormed t d
  /-- A definition of none of the four sorts needs only its name. -/
  isWellFormed_iff : CallableKind.classify (t.kind d) = none →
    (IsWellFormed t d ↔ nameCount t d = 1)
  /-- An error names the file and tells the fault of a demand that the tree does not meet. -/
  exists_fails : ∀ {e : Error}, Callable.ofDefinition t d = .error e →
    ∃ q fault, Demands t d q ∧ q.Fails t fault ∧ e = .malformed t.file fault

/-- **Exactly the malformed definitions are rejected.** Of every node of every document a record is
read if and only if its demands are met, and an error tells the fault of one that is not. -/
theorem rejectsMalformed_ofDocument (doc : Document) (d : Nat) :
    RejectsMalformed (.ofDocument doc) d := by
  have hinspects := inspects_record (d := d) (Tree.isPreorder_ofDocument doc)
  refine ⟨⟨?_, fun hwell => ?_⟩, fun hkind => ?_, fun {e} he => ?_⟩
  · rintro ⟨c, hc⟩
    rw [Callable.record_eq_ok_of_ofDefinition hc] at hinspects
    exact hinspects
  · cases hrecord : record (.ofDocument doc) d with
    | error fault =>
      rw [hrecord] at hinspects
      obtain ⟨q, hq, hfails⟩ := hinspects
      exact absurd (hwell q hq) hfails.not_isMet
    | ok c => exact ⟨c, by rw [Callable.ofDefinition, hrecord]; rfl⟩
  · rw [IsWellFormed]
    simp only [demands_iff_of_classify_eq_none hkind, forall_eq, Demand.IsMet]
  · rw [Callable.ofDefinition] at he
    cases hrecord : record (.ofDocument doc) d with
    | error fault =>
      rw [hrecord] at hinspects he
      obtain ⟨q, hq, hfails⟩ := hinspects
      exact ⟨q, fault, hq, hfails, (Except.error.inj he).symm⟩
    | ok c =>
      rw [hrecord] at he
      cases he

end Definition

end CallAtlas
