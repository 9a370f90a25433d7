import CallAtlas.Proofs.DocumentLeaves
import Mathlib.Data.List.DropRight

/-!
# The spellings of a key

A key is written with commas between its parts. Blanks may stand around the parts, and parentheses
and quotes anywhere, also within a part. `Parameter.Spells` says which texts are spellings of a list
of parts, in the order in which such a text is made: the parts get their blanks, they are joined,
and the decoration is put in last. A reader has to take the decoration out first, because it can
hide that a blank is the first or the last character of its part.

Two commas may have nothing but blanks between them. Such a text spells an empty part, and the
reader leaves that part out. With this in mind every text is a spelling: it spells parts that are
tidy, some of them perhaps empty, and its key has those that are not.

## Main definitions

* `Parameter.IsTidy`, `Parameter.IsPart` — what a part of a key looks like
* `Parameter.Spells` — the spellings of a list of parts
* `Parameter.Denotes` — spellings with empty parts besides those of the key

## Main results

* `Text.trimChars_pad`, `Text.exists_eq_pad_trimChars` — trimming takes off the blanks around a text
* `Parameter.parseKey_of_spells` — a spelling is read as the parts it spells
* `Parameter.parseKey_eq_iff` — every text denotes its key, and no other
* `Parameter.parseKey_normalises` — reading a key brings it into its normal form
-/

namespace CallAtlas

namespace Text

variable {cs before after part : List Char} {sep c : Char}

/-! ## Trimming -/

/-- No blank stands at either end. -/
structure IsTrimmed (cs : List Char) : Prop where
  first : ∀ c ∈ cs.head?, ¬ isBlank c
  last : ∀ c ∈ cs.getLast?, ¬ isBlank c

theorem trimChars_eq_rdropWhile (cs : List Char) :
    trimChars cs = (cs.dropWhile isBlank).rdropWhile isBlank :=
  rfl

theorem trimChars_of_isTrimmed (h : IsTrimmed cs) : trimChars cs = cs := by
  cases cs with
  | nil => rfl
  | cons c cs =>
    rw [trimChars_eq_rdropWhile, List.dropWhile_cons_of_neg (h.first c rfl),
      List.rdropWhile_eq_self_iff]
    intro hne
    exact h.last _ (List.getLast?_eq_getLast_of_ne_nil hne)

/-- **Trimming takes off the blanks around a text.** -/
theorem trimChars_pad (hbefore : ∀ c ∈ before, isBlank c) (hafter : ∀ c ∈ after, isBlank c)
    (cs : List Char) : trimChars (before ++ (cs ++ after)) = trimChars cs := by
  have hreverse : ∀ c ∈ after.reverse, isBlank c := fun c hc => hafter c (List.mem_reverse.mp hc)
  rw [trimChars_eq_rdropWhile, trimChars_eq_rdropWhile, List.dropWhile_append_of_pos hbefore,
    List.dropWhile_append]
  split
  case isTrue hempty =>
    -- The text is blank itself, and nothing is left of it or of the blanks after it.
    rw [List.dropWhile_eq_nil_iff.mpr hafter, List.isEmpty_iff.mp hempty]
  case isFalse =>
    rw [List.rdropWhile, List.reverse_append, List.dropWhile_append_of_pos hreverse]
    rfl

/-- What trimming takes off is blank. -/
theorem exists_eq_pad_trimChars (cs : List Char) :
    ∃ before after, (∀ c ∈ before, isBlank c) ∧ (∀ c ∈ after, isBlank c) ∧
      cs = before ++ (trimChars cs ++ after) := by
  refine ⟨cs.takeWhile isBlank, (cs.dropWhile isBlank).rtakeWhile isBlank,
    fun c => List.mem_takeWhile_imp, fun c => List.mem_rtakeWhile_imp, ?_⟩
  rw [trimChars_eq_rdropWhile, List.rdropWhile_append_rtakeWhile, List.takeWhile_append_dropWhile]

theorem isTrimmed_trimChars (cs : List Char) : IsTrimmed (trimChars cs) := by
  constructor
  · intro c hc
    -- The end that is taken off second leaves the first character as it is.
    obtain ⟨rest, hrest⟩ := List.rdropWhile_prefix isBlank (cs.dropWhile isBlank)
    have hhead : c ∈ (cs.dropWhile isBlank).head? := by
      rw [← hrest]
      exact List.mem_head?_append_of_mem_head? hc
    have hstop := List.head?_dropWhile_not isBlank cs
    rw [hhead] at hstop
    simpa using hstop
  · intro c hc
    obtain ⟨hne, rfl⟩ := List.mem_getLast?_eq_getLast hc
    exact List.rdropWhile_last_not isBlank _ hne

/-! ## Splitting -/

/-- Joining is the inverse of splitting. -/
theorem intercalate_split_comma (s : String) : ",".intercalate (split ',' s) = s := by
  have hparts : (split ',' s).map String.toList = s.toList.splitOn ',' := by
    simp [split]
  rw [← String.toList_inj, String.toList_intercalate, hparts]
  exact List.intercalate_splitOn ','

theorem ne_and_mem_of_mem_splitOn (hpart : part ∈ cs.splitOn sep) (hc : c ∈ part) :
    c ≠ sep ∧ c ∈ cs := by
  induction cs generalizing part with
  | nil =>
    obtain rfl := List.mem_singleton.mp hpart
    cases hc
  | cons d cs ih =>
    rw [List.splitOn_cons_eq_if_modifyHead] at hpart
    by_cases hd : d = sep
    · rw [if_pos (beq_iff_eq.mpr hd)] at hpart
      rcases List.mem_cons.mp hpart with rfl | hpart
      · cases hc
      · exact (ih hpart hc).imp_right (List.mem_cons_of_mem d)
    · rw [if_neg (mt beq_iff_eq.mp hd)] at hpart
      cases hsplit : cs.splitOn sep with
      | nil => exact absurd hsplit (List.splitOn_ne_nil sep cs)
      | cons first parts =>
        rw [hsplit] at hpart ih
        rcases List.mem_cons.mp hpart with rfl | hpart
        · rcases List.mem_cons.mp hc with rfl | hc
          · exact ⟨hd, List.mem_cons_self⟩
          · exact (ih List.mem_cons_self hc).imp_right (List.mem_cons_of_mem d)
        · exact (ih (List.mem_cons_of_mem first hpart) hc).imp_right (List.mem_cons_of_mem d)

end Text

namespace Parameter

variable {s part field : String} {key parts : Key} {c : Char}

/-! ## Parts and their spellings -/

/-- Parentheses and quotes. -/
def decorations : List Char :=
  ['(', ')', '\'', '"']

/-- A text from which reading takes nothing away. -/
structure IsTidy (part : String) : Prop where
  /-- No blank stands at either end. -/
  isTrimmed : Text.IsTrimmed part.toList
  /-- There is no comma, no parenthesis and no quote. -/
  unmarked : ∀ c ∈ part.toList, c ∉ ',' :: decorations

/-- A part of a key is tidy and not empty. -/
structure IsPart (part : String) : Prop extends IsTidy part where
  ne_empty : part ≠ ""

/-- `field` is `part` with blanks around it. -/
def Pads (field part : String) : Prop :=
  ∃ before after : String, (∀ c ∈ before.toList, Text.isBlank c) ∧
    (∀ c ∈ after.toList, Text.isBlank c) ∧ field = before ++ (part ++ after)

/-- `cs` has the characters of `ds` in their order, with decoration anywhere before, between and
after them. -/
inductive Decorates : List Char → List Char → Prop
  | nil : Decorates [] []
  | keep (c : Char) {cs ds : List Char} : Decorates cs ds → Decorates (c :: cs) (c :: ds)
  | insert {c : Char} {cs ds : List Char} : c ∈ decorations → Decorates cs ds →
      Decorates (c :: cs) ds

/-- `s` spells the parts: with blanks around them, joined by commas, and decorated. -/
def Spells (s : String) (parts : Key) : Prop :=
  ∃ fields, List.Forall₂ Pads fields parts ∧
    Decorates s.toList (",".intercalate fields).toList

/-- `s` spells the parts of `key` and perhaps empty ones, which do not count. -/
def Denotes (s : String) (key : Key) : Prop :=
  ∃ parts : Key, (∀ part ∈ parts, IsTidy part) ∧ Spells s parts ∧ parts.filter (· ≠ "") = key

/-! ## Decoration -/

theorem isDecoration_iff : isDecoration c ↔ c ∈ decorations := by
  simp [isDecoration, decorations, or_assoc]

/-- The text without its decoration. -/
def undecorated (s : String) : String :=
  String.ofList (s.toList.filter fun c => !isDecoration c)

theorem mem_undecorated_iff : c ∈ (undecorated s).toList ↔ c ∈ s.toList ∧ c ∉ decorations := by
  rw [undecorated, String.toList_ofList, List.mem_filter, ← isDecoration_iff, Bool.not_eq_true',
    Bool.not_eq_true]

theorem undecorated_eq_of_decorates {t : String} (h : Decorates s.toList t.toList) :
    undecorated s = undecorated t := by
  rw [undecorated, undecorated]
  generalize s.toList = cs at h
  generalize t.toList = ds at h
  induction h with
  | nil => rfl
  | keep c _ ih =>
    rw [String.ofList_inj] at ih ⊢
    rw [List.filter_cons, List.filter_cons, ih]
  | insert hc _ ih =>
    rw [← ih, List.filter_cons_of_neg]
    simpa using isDecoration_iff.mpr hc

theorem decorates_undecorated (s : String) : Decorates s.toList (undecorated s).toList := by
  rw [undecorated, String.toList_ofList]
  generalize s.toList = cs
  induction cs with
  | nil => exact .nil
  | cons c cs ih =>
    by_cases hc : isDecoration c
    · rw [List.filter_cons_of_neg (by simpa using hc)]
      exact .insert (isDecoration_iff.mp hc) ih
    · rw [List.filter_cons_of_pos (by simpa using hc)]
      exact .keep c ih

theorem Decorates.refl (cs : List Char) : Decorates cs cs := by
  induction cs with
  | nil => exact .nil
  | cons c cs ih => exact .keep c ih

/-- The key as texts: the fields between the commas are trimmed, and the empty ones are dropped. -/
theorem parseKey_eq_filter (s : String) :
    parseKey s = ((Text.split ',' (undecorated s)).map Text.trim).filter (· ≠ "") := by
  have htrim : Text.trim ∘ String.ofList = String.ofList ∘ Text.trimChars := by
    funext cs
    rw [Function.comp_apply, Text.trim, String.toList_ofList, Function.comp_apply]
  have hempty : ((fun part : String => decide (part ≠ "")) ∘ String.ofList) =
      fun cs : List Char => !cs.isEmpty := by
    funext cs
    cases cs <;> simp
  rw [Text.split, List.map_map, htrim, ← List.map_map, List.filter_map, hempty, undecorated,
    String.toList_ofList]
  rfl

/-! ## Reading a spelling -/

theorem notMem_marks_of_isBlank (hc : Text.isBlank c) : c ∉ ',' :: decorations := by
  intro hmark
  simp only [decorations, List.mem_cons, List.not_mem_nil, or_false] at hmark
  rcases hmark with rfl | rfl | rfl | rfl | rfl <;> exact absurd hc (by decide)

/-- A text without commas, parentheses and quotes is one part, or none if it is blank. -/
theorem parseKey_of_unmarked (h : ∀ c ∈ s.toList, c ∉ ',' :: decorations) :
    parseKey s = [Text.trim s].filter (· ≠ "") := by
  have hplain : undecorated s = s := by
    rw [undecorated, List.filter_eq_self.mpr, String.ofList_toList]
    intro c hc
    have hdecoration : ¬ isDecoration c :=
      fun hdec => h c hc (List.mem_cons_of_mem ',' (isDecoration_iff.mp hdec))
    simpa using hdecoration
  have hcomma : ',' ∉ s.toList := fun hc => h ',' hc List.mem_cons_self
  rw [parseKey_eq_filter, hplain, Text.split_of_notMem hcomma, List.map_singleton]

/-- A tidy text with blanks around it is read as this text. -/
theorem parseKey_of_pads (hpads : Pads field part) (hpart : IsTidy part) :
    parseKey field = [part].filter (· ≠ "") := by
  obtain ⟨before, after, hbefore, hafter, rfl⟩ := hpads
  have hunmarked : ∀ c ∈ (before ++ (part ++ after)).toList, c ∉ ',' :: decorations := by
    intro c hc
    rw [String.toList_append, String.toList_append, List.mem_append, List.mem_append] at hc
    rcases hc with hc | hc | hc
    · exact notMem_marks_of_isBlank (hbefore c hc)
    · exact hpart.unmarked c hc
    · exact notMem_marks_of_isBlank (hafter c hc)
  have htrim : Text.trim (before ++ (part ++ after)) = part := by
    rw [Text.trim, String.toList_append, String.toList_append, Text.trimChars_pad hbefore hafter,
      Text.trimChars_of_isTrimmed hpart.isTrimmed, String.ofList_toList]
  rw [parseKey_of_unmarked hunmarked, htrim]

/-- **A spelling is read as the parts it spells**, without those that are empty. -/
theorem parseKey_of_spells (hparts : ∀ part ∈ parts, IsTidy part) (h : Spells s parts) :
    parseKey s = parts.filter (· ≠ "") := by
  obtain ⟨fields, hpads, hdecorates⟩ := h
  -- The decoration goes first; then each field can be read on its own.
  have hfields : parseKey s = fields.flatMap parseKey := by
    rw [← parseKey_intercalate, parseKey_eq_filter, parseKey_eq_filter,
      undecorated_eq_of_decorates hdecorates]
  rw [hfields]
  clear hdecorates hfields
  induction hpads with
  | nil => rfl
  | @cons field part fields parts hfield _ ih =>
    obtain ⟨hpart, hparts⟩ := List.forall_mem_cons.mp hparts
    rw [List.flatMap_cons, parseKey_of_pads hfield hpart, ih hparts, ← List.filter_append]
    rfl

/-! ## Every text is a spelling -/

theorem pads_trim (field : String) : Pads field (Text.trim field) := by
  obtain ⟨before, after, hbefore, hafter, hfield⟩ := Text.exists_eq_pad_trimChars field.toList
  refine ⟨String.ofList before, String.ofList after, by simpa using hbefore, by simpa using hafter,
    ?_⟩
  rw [← String.toList_inj, hfield]
  simp [Text.trim]

/-- The fields of a text without decoration are tidy when they are trimmed. -/
theorem isTidy_trim (hfield : field ∈ Text.split ',' (undecorated s)) :
    IsTidy (Text.trim field) := by
  obtain ⟨cs, hcs, rfl⟩ := List.mem_map.mp hfield
  rw [Text.trim, String.toList_ofList]
  constructor <;> rw [String.toList_ofList]
  · exact Text.isTrimmed_trimChars cs
  · intro c hc
    obtain ⟨before, after, -, -, hpad⟩ := Text.exists_eq_pad_trimChars cs
    have hmem : c ∈ cs := by
      rw [hpad]
      exact List.mem_append_right before (List.mem_append_left after hc)
    obtain ⟨hcomma, hplain⟩ := Text.ne_and_mem_of_mem_splitOn hcs hmem
    rw [List.mem_cons, not_or]
    exact ⟨hcomma, (mem_undecorated_iff.mp hplain).2⟩

theorem spells_map_trim (s : String) :
    Spells s ((Text.split ',' (undecorated s)).map Text.trim) := by
  refine ⟨Text.split ',' (undecorated s), ?_, ?_⟩
  · exact List.forall₂_map_right_iff.mpr (List.forall₂_same.mpr fun field _ => pads_trim field)
  · rw [Text.intercalate_split_comma]
    exact decorates_undecorated s

/-- **Every text spells tidy parts**, of which its key has those that are not empty. -/
theorem denotes_parseKey (s : String) : Denotes s (parseKey s) := by
  refine ⟨(Text.split ',' (undecorated s)).map Text.trim, ?_, spells_map_trim s,
    (parseKey_eq_filter s).symm⟩
  intro part hpart
  obtain ⟨field, hfield, rfl⟩ := List.mem_map.mp hpart
  exact isTidy_trim hfield

/-- The key of a text is the only one that it denotes. -/
theorem parseKey_eq_iff : parseKey s = key ↔ Denotes s key := by
  constructor
  · rintro rfl
    exact denotes_parseKey s
  · rintro ⟨parts, hparts, hspells, rfl⟩
    exact parseKey_of_spells hparts hspells

/-- Blank fields are no parts, but blanks within a part belong to it. -/
example : parseKey "(, ' ' ,trans  port,)" = ["trans  port"] := by
  decide +kernel

/-! ## The normal form -/

theorem isPart_of_mem_parseKey (h : part ∈ parseKey s) : IsPart part := by
  obtain ⟨parts, hparts, -, hkey⟩ := denotes_parseKey s
  rw [← hkey, List.mem_filter] at h
  exact ⟨hparts part h.1, by simpa using h.2⟩

/-- A key is written by joining its parts. -/
theorem spells_intercalate (key : Key) : Spells (",".intercalate key) key :=
  ⟨key, List.forall₂_same.mpr fun part _ => ⟨"", "", by simp, by simp, by simp⟩, .refl _⟩

theorem parseKey_of_spells_of_isPart (hkey : ∀ part ∈ key, IsPart part) (h : Spells s key) :
    parseKey s = key := by
  rw [parseKey_of_spells (fun part hpart => (hkey part hpart).toIsTidy) h, List.filter_eq_self]
  intro part hpart
  simpa using (hkey part hpart).ne_empty

/-- **Reading a key brings it into its normal form.** What is read are parts of keys, and they are
read again when they are joined. All spellings of such parts are read as the same key, and but for
empty parts a text is a spelling of its key. -/
theorem parseKey_normalises (s : String) :
    (∀ part ∈ parseKey s, IsPart part) ∧
      parseKey (",".intercalate (parseKey s)) = parseKey s ∧
      (∀ key, (∀ part ∈ key, IsPart part) → Spells s key → parseKey s = key) ∧
      ∀ key, parseKey s = key ↔ Denotes s key := by
  have hparts : ∀ part ∈ parseKey s, IsPart part := fun part => isPart_of_mem_parseKey
  exact ⟨hparts, parseKey_of_spells_of_isPart hparts (spells_intercalate (parseKey s)),
    fun key => parseKey_of_spells_of_isPart, fun key => parseKey_eq_iff⟩

/-- A key with an ideographic space, and with decoration around parts, within them and next to
blanks. -/
def scrawled : String :=
  "( 'node',\u3000\"trans 'port\" ,font(size )"

theorem parseKey_normalises_scrawled :
    (∀ part ∈ ["node", "trans port", "fontsize"], IsPart part) ∧
      Spells scrawled ["node", "trans port", "fontsize"] ∧
      parseKey scrawled = ["node", "trans port", "fontsize"] := by
  have hjoined : parseKey "node,trans port,fontsize" = ["node", "trans port", "fontsize"] := by
    decide +kernel
  have hparts : ∀ part ∈ ["node", "trans port", "fontsize"], IsPart part := by
    rw [← hjoined]
    exact (parseKey_normalises "node,trans port,fontsize").1
  have hfields : (Text.split ',' (undecorated scrawled)).map Text.trim =
      ["node", "trans port", "fontsize"] := by
    decide +kernel
  have hspells : Spells scrawled ["node", "trans port", "fontsize"] := by
    rw [← hfields]
    exact spells_map_trim scrawled
  exact ⟨hparts, hspells, (parseKey_normalises scrawled).2.2.1 _ hparts hspells⟩

end Parameter

end CallAtlas
