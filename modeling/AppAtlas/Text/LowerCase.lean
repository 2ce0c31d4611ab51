import AppAtlas.Text.Ranges

/-! # Small letters of every script

The lower case of a text. Nearly every capital has one small letter at a fixed distance, so the map
is a table of runs. Two characters are special: the dotted capital I becomes two characters, and a
capital sigma at the end of a word becomes a final sigma.
-/

namespace AppAtlas.Text

set_option maxRecDepth 8000

/-- A run of capitals: every `step`-th code point from `first` to `last`, each `shift` away from its
small letter. -/
structure CaseRun where
  first : Nat
  last : Nat
  step : Nat
  shift : Int

/-- The runs of a table from a code point on. The table says by turns how many code points are left
out and how many the run spans, its step and its shift. -/
def caseRunsFrom (start : Nat) : List Int → List CaseRun
  | gap :: size :: step :: shift :: rest =>
    let first := start + gap.toNat
    let next := first + size.toNat
    ⟨first, next - 1, step.toNat, shift⟩ :: caseRunsFrom next rest
  | _ => []

/-- The capitals with a single small letter. -/
def caseRuns : List CaseRun :=
  caseRunsFrom 0
    [65,26,1,32,101,23,1,32,1,7,1,32,33,47,2,1,3,5,2,1,2,15,2,1,2,45,2,1,1,1,1,-121,0,5,2,1,3,1,1,
     210,0,3,2,1,1,1,1,206,0,1,1,1,1,2,1,205,0,1,1,1,2,1,1,79,0,1,1,202,0,1,1,203,0,1,1,1,1,1,1,205,
     0,1,1,207,1,1,1,211,0,1,1,209,0,1,1,1,3,1,1,211,0,1,1,213,1,1,1,214,0,5,2,1,1,1,1,218,0,1,1,1,
     1,1,1,218,2,1,1,1,1,1,1,218,0,1,1,1,1,2,1,217,0,3,2,1,1,1,1,219,0,1,1,1,3,1,1,1,7,1,1,2,0,1,1,
     1,1,1,1,2,0,1,1,1,1,1,1,2,0,17,2,1,2,17,2,1,2,1,1,2,0,3,2,1,1,1,1,-97,0,1,1,-56,0,39,2,1,1,1,1,
     -130,1,17,2,1,7,1,1,10795,0,1,1,1,1,1,1,-163,0,1,1,10792,2,1,1,1,1,1,1,-195,0,1,1,69,0,1,1,71,
     0,9,2,1,289,3,2,1,3,1,1,1,8,1,1,116,6,1,1,38,1,3,1,37,1,1,1,64,1,2,1,63,1,17,1,32,1,9,1,32,35,
     1,1,8,8,23,2,1,5,1,1,-60,2,1,1,1,1,1,1,-7,0,1,1,1,2,3,1,-130,0,16,1,80,0,32,1,32,48,33,2,1,9,
     53,2,1,1,1,1,15,0,13,2,1,2,95,2,1,2,38,1,48,2889,38,1,7264,1,1,1,7264,5,1,1,7264,722,80,1,
     38864,0,6,1,8,2202,43,1,-3008,2,3,1,-3008,320,149,2,1,9,1,1,-7615,1,95,2,1,9,8,1,-8,8,6,1,-8,
     10,8,1,-8,8,8,1,-8,8,6,1,-8,11,7,2,-8,8,8,1,-8,24,8,1,-8,8,8,1,-8,8,8,1,-8,8,2,1,-8,0,2,1,-74,
     0,1,1,-9,11,4,1,-86,0,1,1,-9,11,2,1,-8,0,2,1,-100,12,2,1,-8,0,2,1,-112,0,1,1,-7,11,2,1,-128,0,
     2,1,-126,0,1,1,-9,297,1,1,-7517,3,1,1,-8383,0,1,1,-8262,6,1,1,28,45,16,1,16,19,1,1,1,818,26,1,
     26,1840,48,1,48,48,1,1,1,1,1,1,-10743,0,1,1,-3814,0,1,1,-10727,2,5,2,1,1,1,1,-10780,0,1,1,
     -10749,0,1,1,-10783,0,1,1,-10782,1,1,1,1,2,1,1,1,8,2,1,-10815,0,99,2,1,8,3,2,1,4,1,1,1,31053,
     45,2,1,19,27,2,1,135,13,2,1,3,61,2,1,10,3,2,1,1,1,1,-35332,0,9,2,1,4,1,1,1,1,1,1,-42280,2,3,2,
     1,3,19,2,1,1,1,1,-42308,0,1,1,-42319,0,1,1,-42315,0,1,1,-42305,0,1,1,-42308,1,1,1,-42258,0,1,1,
     -42282,0,1,1,-42261,0,1,1,928,0,15,2,1,1,1,1,-48,0,1,1,-42307,0,1,1,-35384,0,3,2,1,6,1,1,1,5,3,
     2,1,28,1,1,1,22315,26,1,32,1221,40,1,40,136,36,1,40,156,11,1,39,1,15,1,39,1,7,1,39,1,2,1,39,
     1770,51,1,64,3053,32,1,32,21888,32,1,32,31392,34,1,34]

/-- The characters that, like marks, are passed over when the end of a word is looked for. -/
def caseIgnorableRanges : List (Nat × Nat) :=
  rangesFrom 0
    [39,1,6,1,11,1,35,1,1,1,71,1,4,1,1,1,4,1,2,2,503,80,116,2,4,1,9,2,1,1,465,1,5,1,148,1,11,6,22,1,
     35,1,156,1,7,2,40,1,228,2,4,1,31,1,9,1,3,1,95,1,7,2,55,1,24,1,142,1,1236,1,127,1,565,1,1754,1,
     54,1,52,1,611,1,464,6,174,63,13,1,34,37,509,1,1,3,11,3,13,3,13,3,13,2,12,1,1,3,8,2,10,1,2,1,2,
     5,49,5,1,10,1,1,13,1,16,13,3039,2,241,1,191,1,469,1,43,5,5,1,95,4,93,3,28438,1,1250,6,270,1,
     114,1,28,2,98,34,78,1,23,3,103,3,3,2,469,1,22,1,137,1,108,1,21,2,102,5,9,3,20550,17,592,1,62,1,
     2,1,169,1,7,1,6,1,11,1,35,1,1,1,47,1,114,1,21,3,1924,6,1,42,1,9,2306,1,15,1,9058,16,14080,4,
     1103,13,64,2,1,1,16396,4,1,7,1,2,3233,4,5327,8,3765,62,201,7,941,1,1119,1,2735,5,789505,1]

def CaseRun.has (run : CaseRun) (n : Nat) : Bool :=
  run.first ≤ n && n ≤ run.last && (n - run.first) % run.step == 0

def smallLetter (c : Char) : Char :=
  if c.toNat < 0x80 then c.toLower
  else
    match caseRuns.find? (·.has c.toNat) with
    | some run => Char.ofNat (c.toNat + run.shift).toNat
    | none => c

/-- Whether the first character that is not passed over has case. -/
def startsCased (cs : List Char) : Bool :=
  let isPassed (c : Char) := inRanges markRanges c.toNat || inRanges caseIgnorableRanges c.toNat
  match cs.dropWhile isPassed with
  | c :: _ => inRanges casedRanges c.toNat
  | [] => false

/-- The lower case of a text, `before` being what stands before it, nearest character first. -/
def lowerCaseFrom (before : List Char) : List Char → List Char
  | [] => []
  | c :: cs =>
    let small :=
      if c = 'Σ' then if startsCased before && !startsCased cs then ['ς'] else ['σ']
      else if c = 'İ' then ['i', Char.ofNat 0x307]
      else [smallLetter c]
    small ++ lowerCaseFrom (c :: before) cs

def lowerCase (cs : List Char) : List Char :=
  lowerCaseFrom [] cs

end AppAtlas.Text
