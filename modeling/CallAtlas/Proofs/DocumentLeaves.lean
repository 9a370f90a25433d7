import CallAtlas.Parameters.OfToml
import CallAtlas.Proofs.AtomicAggregation

/-!
# The leaves of a document

A configuration is written as nested tables, and read as a flat list of parameters. The same list
can be written in several ways: as tables within tables, or with the names of the tables in front of
the names of the entries.

To say what is read, a place in a document is given by an *address*: the number of an entry in the
outermost table, then the number of an entry in the table that stands there, and so on. What stands
at an address is found by following it, without a look at the rest of the document. The order of the
document is the lexicographic order of the addresses. The parameters are the values that are no
tables, in this order.

## Main definitions

* `Toml.Value.at?` — what stands at an address
* `Toml.Value.leaves` — the values that are no tables, with their addresses
* `Toml.Leaf.key` — the key that the names on the way to a leaf denote
* `Parameters.IsFlattening` — the contract of reading a table

## Main results

* `Toml.mem_leaves_iff`, `Toml.pairwise_leaves` — all leaves are listed, in their order
* `Parameters.flatten_eq_mapM` — reading goes through the leaves
* `Parameter.parseKey_append_comma` — keys can be written one after the other
* `Parameters.isFlattening_ofTable` — the contract holds
-/

namespace CallAtlas

namespace Toml

/-! ## Addresses -/

/-- What stands at an address, and the names on the way. -/
def Value.at? : Value → List Nat → Option (List String × Value)
  | v, [] => some ([], v)
  | .table entries, i :: address =>
    entries[i]?.bind fun e => (e.2.at? address).map fun found => (e.1 :: found.1, found.2)
  | _, _ :: _ => none

/-- Whether a value is a table. -/
def Value.isTable : Value → Bool
  | .table _ => true
  | _ => false

/-- Whether a value is a list. -/
def Value.isArray : Value → Bool
  | .array _ => true
  | _ => false

/-- A value that is no table, with its address and the names on the way to it. -/
structure Leaf where
  address : List Nat
  path : List String
  value : Value

/-- The key that the names on the way denote, one after the other. -/
def Leaf.key (l : Leaf) : Parameter.Key :=
  l.path.flatMap Parameter.parseKey

/-- A leaf of the entry with number `i`, seen from the table. -/
def Leaf.inEntry (i : Nat) (name : String) (l : Leaf) : Leaf :=
  ⟨i :: l.address, name :: l.path, l.value⟩

mutual

/-- The leaves of a value, in the order of the document. -/
def Value.leaves : Value → List Leaf
  | .table entries => leavesFrom 0 entries
  | v => [⟨[], [], v⟩]

/-- The leaves of entries that are numbered from `i` on. -/
def leavesFrom (i : Nat) : List (String × Value) → List Leaf
  | [] => []
  | (name, v) :: entries => v.leaves.map (Leaf.inEntry i name) ++ leavesFrom (i + 1) entries

end

variable {v : Value} {l : Leaf} {i : Nat} {entries : List (String × Value)}

theorem mem_leavesFrom : l ∈ leavesFrom i entries ↔
    ∃ (j : Nat) (e : String × Value), entries[j]? = some e ∧
      ∃ m ∈ e.2.leaves, m.inEntry (i + j) e.1 = l := by
  induction entries generalizing i with
  | nil => simp [leavesFrom]
  | cons e entries ih =>
    rw [leavesFrom, List.mem_append, List.mem_map, ih]
    constructor
    · rintro (⟨m, hm, rfl⟩ | ⟨j, f, hf, m, hm, rfl⟩)
      · exact ⟨0, e, rfl, m, hm, rfl⟩
      · exact ⟨j + 1, f, hf, m, hm, by rw [Nat.add_right_comm, Nat.add_assoc]⟩
    · rintro ⟨j, f, hf, m, hm, rfl⟩
      cases j with
      | zero =>
        obtain rfl : e = f := Option.some.inj hf
        exact Or.inl ⟨m, hm, rfl⟩
      | succ j => exact Or.inr ⟨j, f, hf, m, hm, by rw [Nat.add_right_comm, Nat.add_assoc]⟩

theorem eq_table_or_isTable_eq_false (v : Value) :
    (∃ entries, v = .table entries) ∨ v.isTable = false := by
  cases v with
  | table entries => exact Or.inl ⟨entries, rfl⟩
  | _ => exact Or.inr rfl

theorem exists_eq_array (hv : v.isArray = true) : ∃ items, v = .array items := by
  cases v with
  | array items => exact ⟨items, rfl⟩
  | _ => cases hv

theorem leaves_of_isTable_eq_false (hv : v.isTable = false) : v.leaves = [⟨[], [], v⟩] := by
  cases v with
  | table entries => cases hv
  | _ => rfl

theorem at?_cons_of_isTable_eq_false (hv : v.isTable = false) (i : Nat) (address : List Nat) :
    v.at? (i :: address) = none := by
  cases v with
  | table entries => cases hv
  | _ => rfl

theorem at?_table_cons_eq_some_iff {address : List Nat} {path : List String} {w : Value} :
    (Value.table entries).at? (i :: address) = some (path, w) ↔
      ∃ e, entries[i]? = some e ∧
        ∃ rest, e.2.at? address = some (rest, w) ∧ e.1 :: rest = path := by
  rw [Value.at?, Option.bind_eq_some_iff]
  constructor
  · rintro ⟨e, he, hfound⟩
    obtain ⟨⟨rest, u⟩, hu, heq⟩ := Option.map_eq_some_iff.mp hfound
    obtain ⟨rfl, rfl⟩ := Prod.mk.inj heq
    exact ⟨e, he, rest, hu, rfl⟩
  · rintro ⟨e, he, rest, hw, rfl⟩
    exact ⟨e, he, Option.map_eq_some_iff.mpr ⟨(rest, w), hw, rfl⟩⟩

/-- **All leaves are listed, and nothing else is.** -/
theorem mem_leaves_iff :
    l ∈ v.leaves ↔ v.at? l.address = some (l.path, l.value) ∧ l.value.isTable = false := by
  obtain ⟨address, path, w⟩ := l
  -- The address is followed step by step, so the induction is on it and not on the value.
  induction address generalizing v path with
  | nil =>
    rcases eq_table_or_isTable_eq_false v with ⟨entries, rfl⟩ | hv
    · refine iff_of_false (fun hl => ?_) ?_
      · obtain ⟨j, e, -, m, -, hm⟩ := mem_leavesFrom.mp hl
        cases hm
      · rintro ⟨hw, htable⟩
        cases hw
        cases htable
    · rw [leaves_of_isTable_eq_false hv, List.mem_singleton]
      constructor
      · rintro ⟨⟩
        exact ⟨rfl, hv⟩
      · rintro ⟨hw, -⟩
        cases hw
        rfl
  | cons i address ih =>
    rcases eq_table_or_isTable_eq_false v with ⟨entries, rfl⟩ | hv
    · rw [at?_table_cons_eq_some_iff]
      constructor
      · intro hl
        obtain ⟨j, e, he, ⟨a, rest, u⟩, hm, heq⟩ := mem_leavesFrom.mp hl
        cases heq
        obtain ⟨hat, htable⟩ := (ih rest).mp hm
        exact ⟨⟨e, (Nat.zero_add j).symm ▸ he, rest, hat, rfl⟩, htable⟩
      · rintro ⟨⟨e, he, rest, hat, rfl⟩, htable⟩
        refine mem_leavesFrom.mpr ⟨i, e, he, ⟨address, rest, w⟩, (ih rest).mpr ⟨hat, htable⟩, ?_⟩
        rw [Nat.zero_add]
        rfl
    · rw [leaves_of_isTable_eq_false hv, List.mem_singleton, at?_cons_of_isTable_eq_false hv]
      refine iff_of_false ?_ ?_
      · rintro ⟨⟩
      · rintro ⟨⟨⟩, -⟩

/-- The order of the document. -/
def Leaf.Before (l m : Leaf) : Prop :=
  List.Lex (· < ·) l.address m.address

mutual

/-- **The leaves are listed in the order of the document.** -/
theorem pairwise_leaves : (v : Value) → v.leaves.Pairwise Leaf.Before
  | .table entries => pairwise_leavesFrom 0 entries
  | .string _ | .integer _ | .float _ | .boolean _ | .datetime _ | .array _ =>
    List.pairwise_singleton _ _

theorem pairwise_leavesFrom (i : Nat) :
    (entries : List (String × Value)) → (leavesFrom i entries).Pairwise Leaf.Before
  | [] => .nil
  | (name, v) :: entries => by
    rw [leavesFrom, List.pairwise_append, List.pairwise_map]
    refine ⟨(pairwise_leaves v).imp .cons, pairwise_leavesFrom (i + 1) entries, ?_⟩
    -- The later entries have larger numbers, and the number of the entry is compared first.
    intro l hl m hm
    obtain ⟨l, -, rfl⟩ := List.mem_map.mp hl
    obtain ⟨j, e, -, m, -, rfl⟩ := mem_leavesFrom.mp hm
    exact .rel (by omega)

end

/-- The leaves of a table as they are read: the key, and what stands there. -/
def keyedLeaves (t : Table) : List (Parameter.Key × Value) :=
  (Value.table t).leaves.map fun l => (l.key, l.value)

theorem key_inEntry (i : Nat) (name : String) (l : Leaf) :
    (l.inEntry i name).key = Parameter.parseKey name ++ l.key :=
  List.flatMap_cons

end Toml

/-! ## Reading goes through the leaves -/

namespace Parameters

open Toml

variable {key : Parameter.Key} {v : Toml.Value} {p : Parameter} {e : ConfigFault} {t : Table}

/-- The parameter of a leaf. -/
def ofLeaf (leaf : Parameter.Key × Toml.Value) : Except ConfigFault Parameter :=
  (leafValue? leaf.2).elim (.error (.listValue leaf.1)) fun value => .ok ⟨leaf.1, value⟩

mutual

theorem flatten_eq_mapM (key : Parameter.Key) :
    (v : Toml.Value) → flatten key v = v.leaves.mapM fun l => ofLeaf (key ++ l.key, l.value)
  | .table entries => flattenAll_eq_mapM key 0 entries
  | .string _ | .integer _ | .float _ | .boolean _ | .datetime _ | .array _ => by
    simp [flatten, Value.leaves, Leaf.key, ofLeaf, leafValue?]

theorem flattenAll_eq_mapM (key : Parameter.Key) (i : Nat) :
    (entries : List (String × Toml.Value)) →
      flattenAll key entries = (leavesFrom i entries).mapM fun l => ofLeaf (key ++ l.key, l.value)
  | [] => rfl
  | (name, v) :: entries => by
    have hentry : (fun l => ofLeaf (key ++ l.key, l.value)) ∘ Leaf.inEntry i name =
        fun l => ofLeaf (key ++ Parameter.parseKey name ++ l.key, l.value) := by
      funext l
      rw [Function.comp_apply, key_inEntry, List.append_assoc]
      rfl
    rw [flattenAll, leavesFrom, List.mapM_append, List.mapM_map, hentry,
      flatten_eq_mapM, flattenAll_eq_mapM key (i + 1) entries]

end

/-- The parameters of a table depend only on its keyed leaves. -/
theorem ofTable_eq_mapM (t : Table) :
    ofTable t = ((keyedLeaves t).mapM ofLeaf).map Parameters.mk := by
  rw [ofTable, flattenAll_eq_mapM [] 0, keyedLeaves, List.mapM_map]
  rfl

/-- What a parameter holds for a value that is neither a table nor a list; of a date or time it
holds the text. -/
inductive Carries : Toml.Value → Parameter.Value → Prop
  | text (s : String) : Carries (.string s) (.text s)
  | integer (n : Int) : Carries (.integer n) (.integer n)
  | float (x : Float) : Carries (.float x) (.float x)
  | bool (b : Bool) : Carries (.boolean b) (.bool b)
  | datetime (d : Datetime) : Carries (.datetime d) (.text d.text)

theorem leafValue?_eq_some_iff {value : Parameter.Value} :
    leafValue? v = some value ↔ Carries v value := by
  constructor
  · intro h
    cases v with
    | string s => cases h; exact .text s
    | integer n => cases h; exact .integer n
    | float x => cases h; exact .float x
    | boolean b => cases h; exact .bool b
    | datetime d => cases h; exact .datetime d
    | array items => cases h
    | table entries => cases h
  · rintro ⟨⟩ <;> rfl

theorem leafValue?_eq_none_iff (hv : v.isTable = false) :
    leafValue? v = none ↔ v.isArray = true := by
  cases v with
  | table entries => cases hv
  | _ => simp [leafValue?, Value.isArray]

theorem ofLeaf_eq_ok_iff : ofLeaf (key, v) = .ok p ↔ p.key = key ∧ Carries v p.value := by
  rw [← leafValue?_eq_some_iff, ofLeaf]
  obtain ⟨k, value⟩ := p
  cases leafValue? v with
  | none => simp
  | some value' => simp [eq_comm]

theorem ofLeaf_eq_error_iff (hv : v.isTable = false) :
    ofLeaf (key, v) = .error e ↔ v.isArray = true ∧ e = .listValue key := by
  rw [← leafValue?_eq_none_iff hv, ofLeaf]
  cases leafValue? v with
  | none => simp [eq_comm]
  | some value => simp

end Parameters

/-! ## Spellings of a key -/

namespace Parameter

theorem keyParts_append_comma (cs ds : List Char) :
    keyParts (cs ++ ',' :: ds) = keyParts cs ++ keyParts ds := by
  have hcomma : (',' :: ds).filter (fun c => !isDecoration c) =
      ',' :: ds.filter fun c => !isDecoration c :=
    List.filter_cons_of_pos rfl
  rw [keyParts, List.filter_append, hcomma, List.splitOn_append_cons_self, List.map_append,
    List.filter_append]
  rfl

/-- **A name with a comma denotes the key before it and the key after it.** -/
theorem parseKey_append_comma (a b : String) :
    parseKey (a ++ "," ++ b) = parseKey a ++ parseKey b := by
  have hchars : (a ++ "," ++ b).toList = a.toList ++ ',' :: b.toList := by simp
  rw [parseKey, hchars, keyParts_append_comma, List.map_append]
  rfl

theorem parseKey_intercalate (names : List String) :
    parseKey (",".intercalate names) = names.flatMap parseKey := by
  induction names with
  | nil => rfl
  | cons name names ih =>
    cases names with
    | nil => rw [String.intercalate_singleton, List.flatMap_singleton]
    | cons other names =>
      rw [String.intercalate_cons_cons, parseKey_append_comma, ih, ← List.flatMap_cons]

end Parameter

namespace Toml

/-- The document with the same leaves that has no tables within tables: the names on the way to a
leaf are written as one name, with commas between them. -/
def tupled (t : Table) : Table :=
  (Value.table t).leaves.map fun l => (",".intercalate l.path, l.value)

theorem leavesFrom_of_isTable_eq_false {entries : List (String × Value)}
    (h : ∀ e ∈ entries, e.2.isTable = false) (i : Nat) :
    (leavesFrom i entries).map (fun l => (l.key, l.value)) =
      entries.map fun e => (Parameter.parseKey e.1, e.2) := by
  induction entries generalizing i with
  | nil => rfl
  | cons e entries ih =>
    obtain ⟨he, hentries⟩ := List.forall_mem_cons.mp h
    rw [leavesFrom, leaves_of_isTable_eq_false he, List.map_append, ih hentries]
    simp [Leaf.inEntry, Leaf.key]

/-- A document can be written with tuple keys only. -/
theorem keyedLeaves_tupled (t : Table) : keyedLeaves (tupled t) = keyedLeaves t := by
  have hleaves : ∀ e ∈ tupled t, e.2.isTable = false := by
    intro e he
    obtain ⟨l, hl, rfl⟩ := List.mem_map.mp he
    exact (mem_leaves_iff.mp hl).2
  refine (leavesFrom_of_isTable_eq_false hleaves 0).trans ?_
  rw [tupled, List.map_map, keyedLeaves]
  refine List.map_congr_left fun l _ => ?_
  rw [Function.comp_apply, Parameter.parseKey_intercalate]
  rfl

end Toml

/-! ## The contract -/

namespace Parameters

open Toml

variable {t : Table}

/-- What reading a table comes to. The fields on the leaves say which they are and how they are
ordered, and the others what is made of them. -/
structure IsFlattening (t : Table) (outcome : Except ConfigFault Parameters) : Prop where
  /-- The leaves are what stands at some address and is no table. -/
  mem_leaves_iff : ∀ l, l ∈ (Value.table t).leaves ↔
    (Value.table t).at? l.address = some (l.path, l.value) ∧ l.value.isTable = false
  /-- The leaves are in the order of the document, and so each of them is listed once. -/
  ordered : (Value.table t).leaves.Pairwise Leaf.Before
  /-- Reading fails iff some list can be reached through tables. -/
  fails_iff : (∃ e, outcome = .error e) ↔
    ∃ address path items, (Value.table t).at? address = some (path, .array items)
  /-- The error is that of the first such list. -/
  error : ∀ e, outcome = .error e →
    ∃ l, IsFirst (fun m => m.value.isArray) (Value.table t).leaves l ∧ e = .listValue l.key
  /-- Otherwise there is one parameter for each leaf, with its key and its value. -/
  entries : ∀ ps, outcome = .ok ps →
    List.Forall₂ (fun l p => p.key = l.key ∧ Carries l.value p.value)
      (Value.table t).leaves ps.entries

theorem ofTable_eq_mapM_leaves (t : Table) :
    ofTable t = ((Value.table t).leaves.mapM fun l => ofLeaf (l.key, l.value)).map
      Parameters.mk := by
  rw [ofTable_eq_mapM, keyedLeaves, List.mapM_map]
  rfl

theorem ofTable_eq_error_iff {e : ConfigFault} :
    ofTable t = .error e ↔
      ∃ l, IsFirst (fun m => m.value.isArray) (Value.table t).leaves l ∧ e = .listValue l.key := by
  have hleaf : ∀ l ∈ (Value.table t).leaves, l.value.isTable = false :=
    fun l hl => (mem_leaves_iff.mp hl).2
  have hfails : ∀ l ∈ (Value.table t).leaves,
      (∃ e, ofLeaf (l.key, l.value) = .error e) ↔ l.value.isArray = true := by
    intro l hl
    simp only [ofLeaf_eq_error_iff (hleaf l hl), exists_and_left, exists_eq, and_true]
  rw [ofTable_eq_mapM_leaves, map_eq_error_iff, mapM_eq_error_iff]
  refine exists_congr fun l => (and_congr_left' (isFirst_congr hfails)).trans ?_
  refine and_congr_right fun hl => ?_
  rw [ofLeaf_eq_error_iff (hleaf l hl.mem)]
  exact and_iff_right hl.prop

/-- **The leaves of a document are read in their order**, and only their keys and values count. -/
theorem isFlattening_ofTable (t : Table) :
    IsFlattening t (ofTable t) ∧
      (∀ u, keyedLeaves u = keyedLeaves t → ofTable u = ofTable t) ∧
      ofTable (tupled t) = ofTable t := by
  have hcongr : ∀ u, keyedLeaves u = keyedLeaves t → ofTable u = ofTable t := by
    intro u hu
    rw [ofTable_eq_mapM, ofTable_eq_mapM, hu]
  refine ⟨⟨fun l => mem_leaves_iff, pairwise_leaves _, ?_, fun e => ofTable_eq_error_iff.mp, ?_⟩,
    hcongr, hcongr _ (keyedLeaves_tupled t)⟩
  · simp only [ofTable_eq_error_iff]
    constructor
    · rintro ⟨-, l, hl, -⟩
      obtain ⟨items, hitems⟩ := exists_eq_array hl.prop
      exact ⟨l.address, l.path, items, hitems ▸ (mem_leaves_iff.mp hl.mem).1⟩
    · rintro ⟨address, path, items, hat⟩
      have hmem : (⟨address, path, .array items⟩ : Leaf) ∈ (Value.table t).leaves :=
        mem_leaves_iff.mpr ⟨hat, rfl⟩
      obtain ⟨l, hl⟩ := exists_isFirst (P := fun m : Leaf => m.value.isArray) ⟨_, hmem, rfl⟩
      exact ⟨_, l, hl, rfl⟩
  · intro ps hps
    rw [ofTable_eq_mapM_leaves] at hps
    obtain ⟨entries, hentries, rfl⟩ := exists_of_map_eq_ok hps
    exact (forall₂_of_mapM_eq_ok hentries).imp fun l p => ofLeaf_eq_ok_iff.mp

/-- Two settings of a node under headers. -/
def underHeaders : Table :=
  [("node", .table [("main", .table [("fontsize", .integer 20), ("shape", .string "box")])])]

/-- The same settings with tuple keys, for the whole of the way and for a part of it. -/
def withTuples : Table :=
  [("('node', 'main', 'fontsize')", .integer 20), ("node, main", .table [("shape", .string "box")])]

theorem isFlattening_ofTable_withTuples :
    keyedLeaves withTuples = keyedLeaves underHeaders ∧
      IsFlattening withTuples (ofTable withTuples) ∧
      ofTable withTuples = ofTable underHeaders ∧
      ∃ ps, ofTable withTuples = .ok ps ∧
        ps.entries.map Parameter.key =
          [["node", "main", "fontsize"], ["node", "main", "shape"]] := by
  have hsame : keyedLeaves withTuples = keyedLeaves underHeaders := rfl
  exact ⟨hsame, (isFlattening_ofTable withTuples).1,
    (isFlattening_ofTable underHeaders).2.1 withTuples hsame, _, rfl, by decide +kernel⟩

end Parameters

end CallAtlas
