import CallAtlas.Text.CaseTable

/-!
# Lower-casing

The full, locale-independent lower-case form of a text. Two letters do not follow the table:
a capital I with a dot becomes two characters, and a capital sigma has a form of its own at the
end of a word.

## Main definitions

* `Text.lowerChar`: the lower-case form of a letter, whatever stands around it.
* `Text.endsWord`: whether a capital sigma between two stretches of text ends a word.
* `Text.lowerCase`: the lower-case form of a text.
-/

namespace CallAtlas.Text

/-- Whether the table of stretches covers the character. -/
def inRanges (ranges : List (Nat × Nat)) (c : Char) : Bool :=
  ranges.any fun r => r.1 ≤ c.toNat && c.toNat ≤ r.2

/-- Letters with a case. -/
def isCased (c : Char) : Bool :=
  inRanges casedRanges c

/-- Characters that a word may contain without being letters of it, such as an apostrophe. -/
def isCaseIgnorable (c : Char) : Bool :=
  inRanges ignorableRanges c

/-- The lower-case form of a letter on its own; other characters stand for themselves. -/
def lowerChar (c : Char) : List Char :=
  if c.toNat = 0x130 then ['i', Char.ofNat 0x307]
  else match lowerRanges.find? fun r =>
      r.first ≤ c.toNat && c.toNat ≤ r.last && (c.toNat - r.first) % r.step == 0 with
    | some r => [Char.ofNat (c.toNat + r.offset).toNat]
    | none => [c]

/-- Whether the nearest character that is not passed over is a letter with a case. -/
def meetsLetter (cs : List Char) : Bool :=
  ((cs.dropWhile isCaseIgnorable).head?.map isCased).getD false

/-- A capital sigma ends a word if a letter comes before it and none after; `before` is read
backwards from the sigma. -/
def endsWord (before after : List Char) : Bool :=
  meetsLetter before && !meetsLetter after

/-- Lower-cases `cs`, the characters in `before` (latest first) standing in front of it. -/
def lowerChars (before : List Char) : List Char → List Char
  | [] => []
  | c :: cs =>
    let lower :=
      if c = 'Σ' then if endsWord before cs then ['ς'] else ['σ']
      else lowerChar c
    lower ++ lowerChars (c :: before) cs

/-- The lower-case form of a text. -/
def lowerCase (s : String) : String :=
  String.ofList (lowerChars [] s.toList)

end CallAtlas.Text
