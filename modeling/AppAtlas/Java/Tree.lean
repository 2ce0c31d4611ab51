import AppAtlas.Java.Token

/-! # Java syntax trees

A Java file as a tree. A node tells its form, the stretch of the file it takes, and its parts in the
order of the file. Only the forms that are of interest later are told apart; all others are `other`,
and their parts keep what is inside them within reach.
-/

namespace AppAtlas.Java

/-- A parameter of a method: its type without type arguments and brackets, and its name. -/
structure Param where
  type : String
  name : String
deriving DecidableEq, Repr, Inhabited

inductive Form where
  | file
  | package (name : String)
  | importing (name : String) (all isStatic : Bool)
  /-- A class or an interface, with the types it extends and those it implements. Its parts are
  modifiers and members. -/
  | type (isInterface : Bool) (name : String) (parents interfaces : List String)
  | method (isConstructor : Bool) (name : String) (params : List Param)
  | field (type : String) (isConstant : Bool)
  | locals (type : String)
  /-- A variable of a field or local variable declaration; its value is its part. -/
  | declarator (name : String)
  /-- A loop over the elements of something, with the type and name of its variable. -/
  | loop (type name : String)
  | block
  | modifiers
  | decoration (name : String)
  | pair (key : String)
  | elements
  | call (name : String) (hasReceiver : Bool)
  | arguments
  | identifier
  | this
  | member (field : String)
  | classOf (type : String)
  | text
  /-- A decimal integer or a truth value. -/
  | literal
  /-- An operation on two operands, which are its parts. -/
  | binary (operator : String)
  | parenthesized
  | comment
  | other
deriving DecidableEq, Repr, Inhabited

inductive Tree where
  | node (form : Form) (span : Span) (parts : List Tree)
deriving Repr, Inhabited

namespace Tree

def form : Tree → Form
  | node f _ _ => f

def span : Tree → Span
  | node _ s _ => s

def parts : Tree → List Tree
  | node _ _ ps => ps

mutual
/-- A tree and all trees inside it, in the order of the file, outer ones first. -/
def preorder : Tree → List Tree
  | node f s ps => node f s ps :: preorderAll ps
def preorderAll : List Tree → List Tree
  | [] => []
  | t :: ts => preorder t ++ preorderAll ts
end

def textOf (source : List Char) (s : Span) : List Char :=
  (source.drop s.start).take (s.stop - s.start)

def text (source : List Char) (t : Tree) : List Char :=
  textOf source t.span

end Tree

/-! ### Names of types -/

/-- A written type without type arguments, brackets and dots of a variable number of parameters. -/
def baseTypeChars (written : List Char) : List Char :=
  let base := Text.trim (written.takeWhile (· != '<'))
  let base := Text.stripEndAll ['.', '.', '.'] base
  Text.trim (Text.stripEndAll ['[', ']'] base)

def baseTypeName (written : String) : String :=
  Text.onString baseTypeChars written

end AppAtlas.Java
