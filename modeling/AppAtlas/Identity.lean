import AppAtlas.FilePath
import AppAtlas.Kind
import AppAtlas.Text.Digits
import AppAtlas.Text.Quoted

/-! # Identities

Nodes, edges and versions of files are known by 64-bit numbers that depend on nothing but what they
stand for. Each is the FNV-1a hash of a sequence of bytes. A text enters the sequence as its UTF-8
bytes followed by the byte 255, which UTF-8 never uses, so the sequence tells where one text ends
and the next begins.
-/

namespace AppAtlas

/-! ### The hash -/

namespace Fnv

def basis : UInt64 := 0xcbf29ce484222325

def step (h : UInt64) (b : UInt8) : UInt64 :=
  (h ^^^ b.toUInt64) * 0x100000001b3

def hash (bytes : List UInt8) : UInt64 :=
  bytes.foldl step basis

def field (s : String) : List UInt8 :=
  s.toByteArray.toList ++ [0xff]

end Fnv

/-! ### Hexadecimal texts -/

def hex16 (n : UInt64) : String :=
  let digits := Text.hexDigits n.toNat
  String.ofList (List.replicate (16 - digits.length) '0' ++ digits)

/-- Why a text is not a 64-bit number in hexadecimal. -/
inductive HexError where
  | empty
  | invalidDigit
  | tooLarge
deriving DecidableEq, Repr

def HexError.message : HexError → String
  | .empty => "cannot parse integer from empty string"
  | .invalidDigit => "invalid digit found in string"
  | .tooLarge => "number too large to fit in target type"

/-- Digits read in a base. The first fault counts, be it a bad digit or a value of `limit` or
more. -/
def readDigits (base limit : Nat) (value : Nat) : List Char → Except HexError Nat
  | [] => .ok value
  | c :: cs =>
    match Text.digitIn? base c with
    | none => .error .invalidDigit
    | some d =>
      if value * base + d < limit then readDigits base limit (value * base + d) cs
      else .error .tooLarge

/-- A natural number below `limit` in a base, with an optional plus sign. -/
def readNatural (base limit : Nat) (cs : List Char) : Except HexError Nat :=
  match cs with
  | [] => .error .empty
  | ['+'] => .error .invalidDigit
  | ['-'] => .error .invalidDigit
  | '+' :: rest => readDigits base limit 0 rest
  | cs => readDigits base limit 0 cs

/-- A 64-bit number in hexadecimal, white space around it ignored. -/
def parseHex (s : String) : Except HexError UInt64 :=
  (readNatural 16 (Nat.pow 2 64) (Text.trim s.toList)).map Nat.toUInt64

/-! ### Nodes, edges, files -/

structure NodeId where
  val : UInt64
deriving DecidableEq, Repr, Inhabited

structure EdgeId where
  val : UInt64
deriving DecidableEq, Repr, Inhabited

structure FileKey where
  text : String
deriving DecidableEq, Repr, Inhabited

instance : Ord NodeId := ⟨compareOn NodeId.val⟩
instance : Ord EdgeId := ⟨compareOn EdgeId.val⟩
instance : Ord FileKey := ⟨compareOn FileKey.text⟩

instance : Std.TransOrd NodeId := inferInstanceAs (Std.TransCmp (compareOn NodeId.val))
instance : Std.TransOrd EdgeId := inferInstanceAs (Std.TransCmp (compareOn EdgeId.val))
instance : Std.TransOrd FileKey := inferInstanceAs (Std.TransCmp (compareOn FileKey.text))

instance : Std.LawfulEqOrd NodeId where
  compare_self := Std.ReflCmp.compare_self
  eq_of_compare {a b} h := by
    cases a; cases b
    exact congrArg NodeId.mk (Std.LawfulEqOrd.eq_of_compare h)

instance : Std.LawfulEqOrd EdgeId where
  compare_self := Std.ReflCmp.compare_self
  eq_of_compare {a b} h := by
    cases a; cases b
    exact congrArg EdgeId.mk (Std.LawfulEqOrd.eq_of_compare h)

instance : Std.LawfulEqOrd FileKey where
  compare_self := Std.ReflCmp.compare_self
  eq_of_compare {a b} h := by
    cases a; cases b
    exact congrArg FileKey.mk (Std.LawfulEqOrd.eq_of_compare h)

def NodeId.text (id : NodeId) : String := hex16 id.val

def EdgeId.text (id : EdgeId) : String := hex16 id.val

def NodeId.parse (s : String) : Except HexError NodeId := (parseHex s).map NodeId.mk

def EdgeId.parse (s : String) : Except HexError EdgeId := (parseHex s).map EdgeId.mk

def bigEndian (n : UInt64) : List UInt8 :=
  [56, 48, 40, 32, 24, 16, 8, 0].map fun (shift : UInt64) => (n >>> shift).toUInt8

/-- The bytes a node's identity is made from: the namespace of its kind and its signature. -/
def NodeId.bytes (kind : NodeKind) (signature : String) : List UInt8 :=
  Fnv.field kind.space ++ Fnv.field signature

def NodeId.of (kind : NodeKind) (signature : String) : NodeId :=
  ⟨Fnv.hash (NodeId.bytes kind signature)⟩

/-- The bytes an edge's identity is made from: its two ends and its kind. -/
def EdgeId.bytes (source target : NodeId) (kind : EdgeKind) : List UInt8 :=
  bigEndian source.val ++ bigEndian target.val ++ Fnv.field kind.name

def EdgeId.of (source target : NodeId) (kind : EdgeKind) : EdgeId :=
  ⟨Fnv.hash (EdgeId.bytes source target kind)⟩

/-- The bytes a file's identity is made from: its normalised path and its content. -/
def FileKey.bytes (path content : String) : List UInt8 :=
  Fnv.field (FilePath.normalize path) ++ Fnv.field content

def FileKey.of (path content : String) : FileKey :=
  ⟨hex16 (Fnv.hash (FileKey.bytes path content))⟩

def markerSignature (path : String) (line : Nat) : String :=
  path ++ ":" ++ toString line

end AppAtlas
