/-! # Cutting texts

Texts are lists of characters wherever they are taken apart, so that every reader in this library
is a recursion on its input. This module holds the few cuts the readers share: at a separator, at
the first or the last occurrence of something, and at both ends.

A cut never loses anything. `segments` gives the pieces between separators, `cut` and `cutLast`
give what stands before and after the place they find.
-/

namespace AppAtlas.Text

/-! ### Segments between separators -/

/-- The pieces of a text between the characters that `sep` accepts. There is always one more piece
than there are separators, so the empty text has one empty piece. -/
def segments (sep : Char → Bool) : List Char → List (List Char)
  | [] => [[]]
  | c :: cs =>
    match segments sep cs with
    | [] => [[c]]
    | s :: ss => if sep c then [] :: s :: ss else (c :: s) :: ss

theorem segments_ne_nil (sep : Char → Bool) (cs : List Char) : segments sep cs ≠ [] := by
  induction cs with
  | nil => simp [segments]
  | cons c cs ih =>
    simp only [segments]
    split
    · simp
    · split <;> simp

def filledSegments (sep : Char → Bool) (cs : List Char) : List (List Char) :=
  (segments sep cs).filter (fun s => !s.isEmpty)

def joinWith (between : List Char) (pieces : List (List Char)) : List Char :=
  between.intercalate pieces

/-! ### The first and the last occurrence -/

def cut (needle : List Char) : List Char → Option (List Char × List Char)
  | [] => if needle.isEmpty then some ([], []) else none
  | c :: cs =>
    match needle.isPrefixOf? (c :: cs) with
    | some rest => some ([], rest)
    | none => (cut needle cs).map fun (before, after) => (c :: before, after)

def holds (needle text : List Char) : Bool :=
  (cut needle text).isSome

def cutWhere (p : Char → Bool) : List Char → Option (List Char × List Char)
  | [] => none
  | c :: cs =>
    if p c then some ([], cs)
    else (cutWhere p cs).map fun (before, after) => (c :: before, after)

def cutLast (sep : Char) : List Char → Option (List Char × List Char)
  | [] => none
  | c :: cs =>
    match cutLast sep cs with
    | some (before, after) => some (c :: before, after)
    | none => if c = sep then some ([], cs) else none

theorem append_cutLast {sep : Char} {cs before after : List Char}
    (h : cutLast sep cs = some (before, after)) : before ++ sep :: after = cs := by
  induction cs generalizing before after with
  | nil => simp [cutLast] at h
  | cons c cs ih =>
    simp only [cutLast] at h
    split at h
    · next b a hba =>
      simp only [Option.some.injEq, Prod.mk.injEq] at h
      obtain ⟨rfl, rfl⟩ := h
      simp [ih hba]
    · split at h
      · next hc =>
        simp only [Option.some.injEq, Prod.mk.injEq] at h
        obtain ⟨rfl, rfl⟩ := h
        simp [hc]
      · simp at h

def afterLast (sep : Char) (cs : List Char) : List Char :=
  match cutLast sep cs with
  | some (_, after) => after
  | none => cs

/-! ### Both ends -/

def dropEnd (p : Char → Bool) (cs : List Char) : List Char :=
  (cs.reverse.dropWhile p).reverse

def trimWhere (p : Char → Bool) (cs : List Char) : List Char :=
  dropEnd p (cs.dropWhile p)

def stripEnd? (tail cs : List Char) : Option (List Char) :=
  (tail.reverse.isPrefixOf? cs.reverse).map List.reverse

def stripEndAll (tail : List Char) (cs : List Char) : List Char :=
  go cs.length cs
where
  go : Nat → List Char → List Char
    | 0, cs => cs
    | n + 1, cs =>
      match stripEnd? tail cs with
      | some rest => go n rest
      | none => cs

/-! ### Letters of either case -/

/-- Every ASCII capital made small; all other characters stay. -/
def lower (cs : List Char) : List Char :=
  cs.map Char.toLower

/-- Equality up to the case of ASCII letters. -/
def sameLetters (a b : List Char) : Bool :=
  lower a == lower b

@[simp] theorem length_lower (cs : List Char) : (lower cs).length = cs.length := by
  simp [lower]

/-! ### Sizes in bytes -/

def byteSize : List Char → Nat
  | [] => 0
  | c :: cs => c.utf8Size + byteSize cs

@[simp] theorem byteSize_nil : byteSize [] = 0 := rfl

@[simp] theorem byteSize_cons (c : Char) (cs : List Char) :
    byteSize (c :: cs) = c.utf8Size + byteSize cs := rfl

@[simp] theorem byteSize_append (a b : List Char) :
    byteSize (a ++ b) = byteSize a + byteSize b := by
  induction a with
  | nil => simp
  | cons c cs ih => simp [ih, Nat.add_assoc]

/-- A text without its first bytes; none if a character would be cut. -/
def dropBytes? : Nat → List Char → Option (List Char)
  | 0, cs => some cs
  | _ + 1, [] => none
  | n + 1, c :: cs => if c.utf8Size ≤ n + 1 then dropBytes? (n + 1 - c.utf8Size) cs else none

/-- The first bytes of a text; none if a character would be cut. -/
def takeBytes? : Nat → List Char → Option (List Char)
  | 0, _ => some []
  | _ + 1, [] => none
  | n + 1, c :: cs =>
    if c.utf8Size ≤ n + 1 then (takeBytes? (n + 1 - c.utf8Size) cs).map (c :: ·) else none

/-! ### The same on strings -/

def onString (f : List Char → List Char) (s : String) : String :=
  String.ofList (f s.toList)

@[simp] theorem toList_onString (f : List Char → List Char) (s : String) :
    (onString f s).toList = f s.toList := by
  simp [onString]

def lowerString (s : String) : String :=
  onString lower s

end AppAtlas.Text
