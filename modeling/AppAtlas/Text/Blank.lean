import AppAtlas.Text.Basic

/-! # White space

The characters that separate words: the ones with the Unicode property White_Space. Texts are
trimmed and divided into words at them.
-/

namespace AppAtlas.Text

def isBlank (c : Char) : Bool :=
  let n := c.toNat
  n == 0x20 || (0x09 ≤ n && n ≤ 0x0D) || n == 0x85 || n == 0xA0 || n == 0x1680 ||
    (0x2000 ≤ n && n ≤ 0x200A) || n == 0x2028 || n == 0x2029 || n == 0x202F || n == 0x205F ||
    n == 0x3000

def trim (cs : List Char) : List Char :=
  trimWhere isBlank cs

def trimEnd (cs : List Char) : List Char :=
  dropEnd isBlank cs

def words (cs : List Char) : List (List Char) :=
  filledSegments isBlank cs

def trimString (s : String) : String :=
  onString trim s

theorem dropWhile_eq_self_of_head {p : Char → Bool} {cs : List Char}
    (h : ∀ c, cs.head? = some c → p c = false) : cs.dropWhile p = cs := by
  cases cs with
  | nil => rfl
  | cons c cs => simp [h c rfl]

end AppAtlas.Text
