import AppAtlas.Text.Reader

/-! # Timestamps

A moment of time in UTC, to the nanosecond. Days are counted in the Gregorian calendar from the
first of January 1970. A leap second is kept as the second before it with more than a whole second
of nanoseconds.

A moment is written as date, `T`, time of day and offset, with as many digits of the second's
fraction as are needed among none, three, six and nine. It is read back from that form (`parse?`),
or from a looser one with blanks between the parts and numbers of any length (`parseLoosely?`).
-/

namespace AppAtlas

/-- A moment of time: seconds since the start of 1970, and nanoseconds after that second. -/
structure Timestamp where
  seconds : Int
  nanos : Nat
deriving DecidableEq, Repr

namespace Timestamp

open Text.Reader

/-! ### The calendar -/

def isLeapYear (year : Int) : Bool :=
  year % 4 == 0 && (year % 100 != 0 || year % 400 == 0)

def daysInMonth (year : Int) (month : Nat) : Nat :=
  match month with
  | 2 => if isLeapYear year then 29 else 28
  | 4 | 6 | 9 | 11 => 30
  | _ => 31

/-- The days from the first of March of year zero to the first of a month; January and February
count to the year before. -/
def daysBeforeMonth (year : Int) (month : Nat) : Int :=
  let marchYear := if month ≤ 2 then year - 1 else year
  let sinceMarch : Int := (month + 9) % 12
  365 * marchYear + marchYear / 4 - marchYear / 100 + marchYear / 400 + (153 * sinceMarch + 2) / 5

def dayNumber (year : Int) (month day : Nat) : Int :=
  daysBeforeMonth year month + day - 719469

def date (number : Int) : Int × Nat × Nat :=
  let days := number + 719468
  let era := days / 146097
  let dayOfEra := days % 146097
  let yearOfEra := (dayOfEra - dayOfEra / 1460 + dayOfEra / 36524 - dayOfEra / 146096) / 365
  let dayOfYear := dayOfEra - (365 * yearOfEra + yearOfEra / 4 - yearOfEra / 100)
  let sinceMarch := (5 * dayOfYear + 2) / 153
  let day := dayOfYear - (153 * sinceMarch + 2) / 5 + 1
  let month := if sinceMarch < 10 then sinceMarch + 3 else sinceMarch - 9
  let year := yearOfEra + 400 * era
  (if month ≤ 2 then year + 1 else year, month.toNat, day.toNat)

/-! ### Writing -/

def padded (width n : Nat) : String :=
  let digits := toString n
  String.ofList (List.replicate (width - digits.length) '0') ++ digits

/-- A year: four digits, or a sign and at least four when it needs more or is negative. -/
def yearText (year : Int) : String :=
  if 0 ≤ year ∧ year ≤ 9999 then padded 4 year.toNat
  else (if year < 0 then "-" else "+") ++ padded 4 year.natAbs

def fractionText (nanos : Nat) : String :=
  if nanos = 0 then ""
  else if nanos % 1000000 = 0 then "." ++ padded 3 (nanos / 1000000)
  else if nanos % 1000 = 0 then "." ++ padded 6 (nanos / 1000)
  else "." ++ padded 9 nanos

def textWith (offset : String) (t : Timestamp) : String :=
  let (year, month, day) := date (t.seconds / 86400)
  let time := (t.seconds % 86400).toNat
  let leap := t.nanos / 1000000000
  yearText year ++ "-" ++ padded 2 month ++ "-" ++ padded 2 day ++ "T" ++ padded 2 (time / 3600) ++ ":"
    ++ padded 2 (time / 60 % 60) ++ ":" ++ padded 2 (time % 60 + leap)
    ++ fractionText (t.nanos % 1000000000) ++ offset

/-- A moment with the short mark of UTC. -/
def text (t : Timestamp) : String := t.textWith "Z"

def numericText (t : Timestamp) : String := t.textWith "+00:00"

/-! ### Reading -/

structure Fields where
  year : Int
  month : Nat
  day : Nat
  hour : Nat
  minute : Nat
  second : Nat
  nanos : Nat
  /-- Minutes by which local time is ahead of UTC. -/
  offset : Int

def ofFields? (f : Fields) : Option Timestamp :=
  if 1 ≤ f.month ∧ f.month ≤ 12 ∧ 1 ≤ f.day ∧ f.day ≤ daysInMonth f.year f.month
      ∧ -262143 ≤ f.year ∧ f.year ≤ 262142 ∧ f.hour ≤ 23 ∧ f.minute ≤ 59 ∧ f.second ≤ 60
      ∧ f.offset.natAbs < 1440 then
    let leap := if f.second = 60 then 1 else 0
    some
      { seconds := dayNumber f.year f.month f.day * 86400 + f.hour * 3600 + f.minute * 60
          + (f.second - leap : Nat) - f.offset * 60
        nanos := f.nanos + leap * 1000000000 }
  else none

def digits (least most : Nat) : Text.Reader Nat := do
  let cs ← get
  let ds := (cs.take most).takeWhile Char.isDigit
  guard (least ≤ ds.length)
  set (cs.drop ds.length)
  pure (Text.decimalValue ds)

/-- The fraction of a second, zero when there is none. Digits after the ninth are passed over. -/
def fraction : Text.Reader Nat := do
  match ← get with
  | '.' :: cs =>
    set cs
    let ds ← span Char.isDigit
    guard !ds.isEmpty
    let kept := ds.take 9
    pure (Text.decimalValue kept * Nat.pow 10 (9 - kept.length))
  | _ => pure 0

def offset (between : Text.Reader Unit) : Text.Reader Int := do
  match ← oneOf ['Z', 'z', '+', '-', '−'] with
  | 'Z' => pure 0
  | 'z' => pure 0
  | sign =>
    let hours ← digits 2 2
    between
    let minutes ← digits 2 2
    guard (minutes < 60)
    let total : Int := hours * 60 + minutes
    pure (if sign = '+' then total else -total)

def dateEnd : Text.Reader Unit := discard (oneOf ['T', 't', ' '])

def exactFields : Text.Reader Fields := do
  let year ← digits 4 4
  mark '-'
  let month ← digits 2 2
  mark '-'
  let day ← digits 2 2
  dateEnd
  let hour ← digits 2 2
  mark ':'
  let minute ← digits 2 2
  mark ':'
  let second ← digits 2 2
  let nanos ← fraction
  let minutes ← offset (mark ':')
  pure ⟨year, month, day, hour, minute, second, nanos, minutes⟩

def looseYear : Text.Reader Int := do
  blanks
  match ← get with
  | '-' :: cs => set cs; return -(← digits 1 cs.length : Nat)
  | '+' :: cs => set cs; return (← digits 1 cs.length : Nat)
  | _ => return (← digits 1 4 : Nat)

def looseDigits : Text.Reader Nat := do
  blanks
  digits 1 2

def looseMark (c : Char) : Text.Reader Unit := do
  blanks
  mark c

/-- The offset in the looser form, where it may also be named UTC. -/
def looseOffset : Text.Reader Int := do
  blanks
  let cs ← get
  if Text.sameLetters (cs.take 3) ['U', 'T', 'C'] then
    set (cs.drop 3)
    pure 0
  else offset (modify (·.dropWhile fun c => c == ':' || Text.isBlank c))

def looseFields : Text.Reader Fields := do
  let year ← looseYear
  looseMark '-'
  let month ← looseDigits
  looseMark '-'
  let day ← looseDigits
  dateEnd
  let hour ← looseDigits
  looseMark ':'
  let minute ← looseDigits
  looseMark ':'
  let second ← looseDigits
  let nanos ← fraction
  let minutes ← looseOffset
  blanks
  pure ⟨year, month, day, hour, minute, second, nanos, minutes⟩

/-- The moment of a text that some fields fill to its end. -/
def read? (fields : Text.Reader Fields) (s : String) : Option Timestamp := do
  ofFields? (← all fields s.toList)

def parse? (s : String) : Option Timestamp := read? exactFields s

def parseLoosely? (s : String) : Option Timestamp := read? looseFields s

end Timestamp

end AppAtlas
