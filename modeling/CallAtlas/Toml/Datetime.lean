import CallAtlas.Decimal.Reader

/-!
# Dates and times in TOML

## Main definitions

* `Toml.Date`, `Toml.Time`, `Toml.Offset`, `Toml.Datetime`: a date, a time, or both.
* `Toml.Datetime.scan?`: reads one from the front of a text.
* `Toml.Datetime.text`: its canonical text.
-/

namespace CallAtlas.Toml

/-- A day of the calendar. -/
structure Date where
  year : Nat
  month : Nat
  day : Nat
deriving DecidableEq, Repr

/-- A time of day. -/
structure Time where
  hour : Nat
  minute : Nat
  second : Nat
  nanosecond : Nat
deriving DecidableEq, Repr

/-- The distance from universal time. -/
inductive Offset where
  | utc
  | minutes (ahead : Int)
deriving DecidableEq, Repr

/-- A date, a time, or a date with a time that may have an offset. -/
inductive Datetime where
  | date (date : Date)
  | time (time : Time)
  | dateTime (date : Date) (time : Time) (offset : Option Offset)
deriving DecidableEq, Repr

/-! ### Text -/

/-- The number with at least `width` digits. -/
def padded (width n : Nat) : String :=
  let text := toString n
  String.ofList (List.replicate (width - text.length) '0') ++ text

/-- Year, month and day. -/
def Date.text (d : Date) : String :=
  padded 4 d.year ++ "-" ++ padded 2 d.month ++ "-" ++ padded 2 d.day

/-- Hour, minute and second, and the fraction of a second as far as it goes. -/
def Time.text (t : Time) : String :=
  let fraction := ((padded 9 t.nanosecond).toList.reverse.dropWhile (· = '0')).reverse
  padded 2 t.hour ++ ":" ++ padded 2 t.minute ++ ":" ++ padded 2 t.second ++
    if t.nanosecond = 0 then "" else "." ++ String.ofList fraction

/-- The offset, with a letter for universal time itself. -/
def Offset.text : Offset → String
  | .utc => "Z"
  | .minutes m =>
    (if m < 0 then "-" else "+") ++ padded 2 (m.natAbs / 60) ++ ":" ++ padded 2 (m.natAbs % 60)

/-- The canonical text. -/
def Datetime.text : Datetime → String
  | .date d => d.text
  | .time t => t.text
  | .dateTime d t o => d.text ++ "T" ++ t.text ++ (o.map Offset.text).getD ""

/-! ### Reading -/

/-- Exactly `count` digits from the front. -/
def scanDigits? (count : Nat) (cs : List Char) : Option (Nat × List Char) :=
  let ds := cs.take count
  if ds.length = count && ds.all Char.isDigit then
    some (Decimal.digitsValue ds, cs.drop count)
  else none

/-- Two digits whose value lies in a range. -/
def scanPair? (low high : Nat) (cs : List Char) : Option (Nat × List Char) :=
  (scanDigits? 2 cs).filter fun p => low ≤ p.1 && p.1 ≤ high

/-- One given character. -/
def expect? (c : Char) : List Char → Option (List Char)
  | [] => none
  | d :: rest => if d = c then some rest else none

/-- The length of a month. -/
def daysInMonth (year month : Nat) : Nat :=
  if month = 2 then
    if year % 4 = 0 && (year % 100 ≠ 0 || year % 400 = 0) then 29 else 28
  else if [4, 6, 9, 11].contains month then 30
  else 31

/-- A date. -/
def Date.scan? (cs : List Char) : Option (Date × List Char) := do
  let (year, cs) ← scanDigits? 4 cs
  let cs ← expect? '-' cs
  let (month, cs) ← scanPair? 1 12 cs
  let cs ← expect? '-' cs
  let (day, cs) ← scanPair? 1 (daysInMonth year month) cs
  return (⟨year, month, day⟩, cs)

/-- The fraction of a second in nanoseconds; digits after the ninth are cut off. -/
def scanFraction? : List Char → Option (Nat × List Char)
  | '.' :: cs =>
    let ds := cs.takeWhile Char.isDigit
    if ds.isEmpty then none
    else
      let kept := ds.take 9
      let filled := kept ++ List.replicate (9 - kept.length) '0'
      some (Decimal.digitsValue filled, cs.dropWhile Char.isDigit)
  | cs => some (0, cs)

/-- A time; the second 60 is allowed for. -/
def Time.scan? (cs : List Char) : Option (Time × List Char) := do
  let (hour, cs) ← scanPair? 0 23 cs
  let cs ← expect? ':' cs
  let (minute, cs) ← scanPair? 0 59 cs
  let cs ← expect? ':' cs
  let (second, cs) ← scanPair? 0 60 cs
  let (nanosecond, cs) ← scanFraction? cs
  return (⟨hour, minute, second, nanosecond⟩, cs)

/-- An offset, if there is one. -/
def Offset.scan? : List Char → Option (Option Offset × List Char)
  | 'Z' :: cs | 'z' :: cs => some (some .utc, cs)
  | c :: cs =>
    if c = '+' || c = '-' then do
      let (h, cs) ← scanPair? 0 23 cs
      let cs ← expect? ':' cs
      let (m, cs) ← scanPair? 0 59 cs
      let ahead : Int := h * 60 + m
      return (some (.minutes (if c = '-' then -ahead else ahead)), cs)
    else some (none, c :: cs)
  | [] => some (none, [])

/-- A date with the time that may follow it. A blank after the date may just be a blank. -/
def Datetime.scanFromDate? (cs : List Char) : Option (Datetime × List Char) := do
  let (d, rest) ← Date.scan? cs
  match rest with
  | 'T' :: cs | 't' :: cs | ' ' :: cs =>
    match Time.scan? cs with
    | some (t, cs) =>
      let (o, cs) ← Offset.scan? cs
      return (.dateTime d t o, cs)
    | none => return (.date d, rest)
  | _ => return (.date d, rest)

/-- A date or a time from the front of a text. -/
def Datetime.scan? (cs : List Char) : Option (Datetime × List Char) :=
  Datetime.scanFromDate? cs <|> (Time.scan? cs).map fun p => (.time p.1, p.2)

end CallAtlas.Toml
