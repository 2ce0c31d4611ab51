import AppAtlas.Decimal.Nearest
import AppAtlas.Document.Timestamp
import AppAtlas.Toml.Value

/-! # TOML scalars

Numbers, truth values and moments of time, each a run of characters without blanks (a date and a
time may have one between them), and the four kinds of strings.
-/

namespace AppAtlas.Toml

open Text Reader

/-! ### Numbers -/

/-- Digits with single underscores between them, the underscores left out. -/
def digitGroups (isDigit : Char → Bool) (cs : List Char) : Option (List Char) :=
  let groups := segments (· == '_') cs
  if groups.all fun g => !g.isEmpty && g.all isDigit then some groups.flatten else none

def decimalGroups (cs : List Char) : Option (List Char) := digitGroups Char.isDigit cs

/-- Decimal digits without a leading zero, unless it stands alone. -/
def wholeDigits (cs : List Char) : Option (List Char) := do
  let ds ← decimalGroups cs
  guard (cs.length = 1 ∨ cs.head? ≠ some '0')
  pure ds

def signOf : List Char → Bool × List Char
  | '-' :: cs => (true, cs)
  | '+' :: cs => (false, cs)
  | cs => (false, cs)

def inRange (n : Int) : Bool := -(Int.pow 2 63) ≤ n && n < Int.pow 2 63

def basedInteger? : List Char → Option Int
  | '0' :: 'x' :: cs => read 16 cs
  | '0' :: 'o' :: cs => read 8 cs
  | '0' :: 'b' :: cs => read 2 cs
  | _ => none
where
  read (base : Nat) (cs : List Char) : Option Int :=
    (digitGroups (fun c => (digitIn? base c).isSome) cs).map fun ds => valueIn base ds

def integer? (cs : List Char) : Option Int := do
  let n ← basedInteger? cs <|> do
    let (negative, digits) := signOf cs
    let ds ← wholeDigits digits
    pure (if negative then -(decimalValue ds : Int) else decimalValue ds)
  guard (inRange n)
  pure n

/-- The exponent of a number, zero when there is none. -/
def exponent? : List Char → Option Int
  | [] => some 0
  | _ :: cs => do
    let (negative, digits) := signOf cs
    let ds ← decimalGroups digits
    pure (if negative then -(decimalValue ds : Int) else decimalValue ds)

/-- The double of a number with a fraction or an exponent, without its sign. -/
def unsignedFloat? (cs : List Char) : Option Float := do
  let number := cs.takeWhile fun c => c != 'e' && c != 'E'
  let tail := cs.drop number.length
  let whole := number.takeWhile (· != '.')
  guard (whole.length < cs.length)
  let ds ← wholeDigits whole
  let fraction ←
    if whole.length < number.length then decimalGroups (number.drop (whole.length + 1))
    else some []
  let power ← exponent? tail
  pure (Decimal.nearest (decimalValue (ds ++ fraction)) (power - fraction.length))

/-- A double. One that is too great is refused, though one that is too small is not. -/
def float? (cs : List Char) : Option Float := do
  let (negative, rest) := signOf cs
  let x ←
    match rest with
    | ['i', 'n', 'f'] => some (1.0 / 0.0)
    | ['n', 'a', 'n'] => some (0.0 / 0.0)
    | _ => (unsignedFloat? rest).filter fun x => negative || !x.isInf
  pure (if negative then -x else x)

/-! ### Moments -/

def timeOfDay : Reader Unit := do
  let hour ← Timestamp.digits 2 2
  mark ':'
  let minute ← Timestamp.digits 2 2
  mark ':'
  let second ← Timestamp.digits 2 2
  guard (hour ≤ 23 ∧ minute ≤ 59 ∧ second ≤ 60)
  discard Timestamp.fraction

def date : Reader Unit := do
  let year ← Timestamp.digits 4 4
  mark '-'
  let month ← Timestamp.digits 2 2
  mark '-'
  let day ← Timestamp.digits 2 2
  guard (1 ≤ month ∧ month ≤ 12 ∧ 1 ≤ day ∧ day ≤ Timestamp.daysInMonth year month)

def offset : Reader Unit := do
  if (← peek?).isSome then
    match ← oneOf ['Z', 'z', '+', '-'] with
    | 'Z' => pure ()
    | 'z' => pure ()
    | _ =>
      let hours ← Timestamp.digits 2 2
      mark ':'
      let minutes ← Timestamp.digits 2 2
      guard (hours ≤ 23 ∧ minutes ≤ 59)

def dateAndTime : Reader Unit := do
  date
  discard (oneOf ['T', 't', ' '])
  timeOfDay
  offset

def isMoment (cs : List Char) : Bool :=
  (all date cs).isSome || (all timeOfDay cs).isSome || (all dateAndTime cs).isSome

/-! ### Bare scalars -/

def isScalarChar (c : Char) : Bool :=
  c.isAlphanum || c == '+' || c == '-' || c == '_' || c == '.' || c == ':'

def scalar? (cs : List Char) : Option Value :=
  if cs = "true".toList then some (.bool true)
  else if cs = "false".toList then some (.bool false)
  else if isMoment cs then some .moment
  else (integer? cs).map .integer <|> (float? cs).map .float

/-- A scalar without quotes. A date takes a time with it that follows after one blank. -/
def bareScalar : Reader Value := do
  let run ← span isScalarChar
  let rest ← get
  let time := (rest.drop 1).takeWhile isScalarChar
  if (all date run).isSome ∧ rest.head? = some ' ' ∧ (time.head?.any Char.isDigit) then
    set (rest.drop (time.length + 1))
    scalar? (run ++ ' ' :: time)
  else scalar? run

/-! ### Strings -/

def isPlain (c : Char) : Bool := c == '\t' || (0x20 ≤ c.toNat && c.toNat != 0x7f)

def codePoint (size : Nat) : Reader Char := do
  let cs ← get
  let ds := cs.take size
  guard (ds.length = size ∧ ds.all fun d => (digitIn? 16 d).isSome)
  set (cs.drop size)
  charOf? (valueIn 16 ds)

def escape : Reader Char := do
  match ← satisfy fun _ => true with
  | 'b' => pure '\x08'
  | 't' => pure '\t'
  | 'n' => pure '\n'
  | 'f' => pure '\x0c'
  | 'r' => pure '\r'
  | '"' => pure '"'
  | '\\' => pure '\\'
  | 'u' => codePoint 4
  | 'U' => codePoint 8
  | _ => failure

def basicString : Nat → List Char → Reader String
  | 0, _ => failure
  | fuel + 1, done => do
    match ← satisfy isPlain with
    | '"' => pure (String.ofList done.reverse)
    | '\\' => basicString fuel ((← escape) :: done)
    | c => basicString fuel (c :: done)

def literalString : Reader String := do
  let text ← span fun c => isPlain c && c != '\''
  mark '\''
  pure (String.ofList text)

def unifyLineEnds : List Char → List Char
  | '\r' :: '\n' :: cs => '\n' :: unifyLineEnds cs
  | c :: cs => c :: unifyLineEnds cs
  | [] => []

/-- The end of a line that a backslash joins with the next: blanks, a line end, and all blanks and
line ends after it. -/
def joinedLine? (cs : List Char) : Option (List Char) :=
  match cs.dropWhile fun c => c == ' ' || c == '\t' with
  | '\n' :: rest => some (rest.dropWhile fun c => c == ' ' || c == '\t' || c == '\n')
  | _ => none

/-- The quotes at the end of a string of several lines: up to two of them belong to the string. -/
def closing? (quote : Char) (cs : List Char) : Option (List Char × List Char) :=
  let run := (cs.takeWhile (· == quote)).length
  if 3 ≤ run ∧ run ≤ 5 then some (List.replicate (run - 3) quote, cs.drop run) else none

/-- The rest of a string of several lines up to its three quotes; backslashes escape if
`escapes`. -/
def longString (quote : Char) (escapes : Bool) : Nat → List Char → Reader String
  | 0, _ => failure
  | fuel + 1, done => do
    let cs ← get
    match closing? quote cs with
    | some (more, rest) =>
      set rest
      pure (String.ofList (done.reverse ++ more))
    | none =>
      guard ((cs.takeWhile (· == quote)).length < 3)
      let c ← satisfy fun c => isPlain c || c == '\n'
      if c = '\\' ∧ escapes then
        match joinedLine? (← get) with
        | some rest =>
          set rest
          longString quote escapes fuel done
        | none => longString quote escapes fuel ((← escape) :: done)
      else longString quote escapes fuel (c :: done)

/-- A string of several lines, behind its opening quotes. A line end right there does not count. -/
def openLongString (quote : Char) (escapes : Bool) : Reader String := do
  discard (word? ['\n'])
  longString quote escapes ((← get).length + 1) []

def openShortString (quote : Char) : Reader String := do
  if quote = '"' then basicString ((← get).length + 1) [] else literalString

def openString (quote : Char) : Reader String := do
  if ← word? [quote, quote] then openLongString quote (quote == '"') else openShortString quote

end AppAtlas.Toml
