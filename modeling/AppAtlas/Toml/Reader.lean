import AppAtlas.Toml.Scalar

/-! # Reading TOML

A text is a sequence of lines: headers of tables, headers of repeated tables, and keys with values.
It is read into statements first; then each statement is entered into the table that grows. A key
can be given once, and so can a header; a table that was written in one way cannot be added to in
another.
-/

namespace AppAtlas.Toml

open Text Reader

/-! ### Gaps -/

def spaces : Reader Unit := discard (span fun c => c == ' ' || c == '\t')

/-- What follows spaces, line ends and comments; none if a comment has a control character. -/
def afterGap (inComment : Bool) : List Char → Option (List Char)
  | [] => some []
  | c :: cs =>
    if c = '\n' then afterGap false cs
    else if inComment then if isPlain c then afterGap true cs else none
    else if c = ' ' ∨ c = '\t' then afterGap false cs
    else if c = '#' then afterGap true cs
    else some (c :: cs)

def gap : Reader Unit := do
  set (← (afterGap false (← get) : Option (List Char)))

def lineEnd : Reader Unit := do
  spaces
  if (← peek?) = some '#' then discard (span isPlain)
  if (← peek?).isSome then mark '\n'

/-! ### Keys -/

def isKeyChar (c : Char) : Bool := c.isAlphanum || c == '_' || c == '-'

def keyPart : Reader String := do
  match ← peek? with
  | some '"' => mark '"'; openShortString '"'
  | some '\'' => mark '\''; openShortString '\''
  | _ =>
    let cs ← span isKeyChar
    guard !cs.isEmpty
    pure (String.ofList cs)

def keyParts : Nat → Reader (List String)
  | 0 => failure
  | fuel + 1 => do
    spaces
    let part ← keyPart
    spaces
    if (← peek?) = some '.' then
      mark '.'
      return part :: (← keyParts fuel)
    else pure [part]

def key : Reader (List String) := do keyParts ((← get).length + 1)

/-! ### Growing tables -/

def replaceEntry (name : String) (v : Value) (entries : Entries) : Entries :=
  entries.map fun e => if e.1 = name then (name, v) else e

/-- The entries with a table changed that is reached by a path; tables on the way that are not there
are made. `byKey` says that the path is part of a key and not of a header. -/
def changeAt (byKey : Bool) (change : Form → Entries → Option Entries) :
    List String → Form → Entries → Option Entries
  | [], form, entries => change form entries
  | name :: path, _, entries =>
    match entries.lookup name with
    | none => do
      let form := if byKey then .dotted else .implied
      let inner ← changeAt byKey change path form []
      some (entries ++ [(name, .table form inner)])
    | some (.table form inner) => do
      guard (form ≠ .inline ∧ !(byKey && form == .headed))
      let inner ← changeAt byKey change path form inner
      some (replaceEntry name (.table form inner) entries)
    | some (.tables items) =>
      match items.getLast? with
      | some (.table form inner) => do
        let inner ← changeAt byKey change path form inner
        some (replaceEntry name (.tables (items.dropLast ++ [.table form inner])) entries)
      | _ => none
    | some _ => none

def assign (path : List String) (name : String) (v : Value) (form : Form) (entries : Entries) :
    Option Entries :=
  changeAt true
    (fun form entries =>
      if (form == .dotted) == path.isEmpty || (entries.lookup name).isSome then none
      else some (entries ++ [(name, v)]))
    path form entries

def openTable (name : String) (entries : Entries) : Option Entries :=
  match entries.lookup name with
  | none => some (entries ++ [(name, .table .headed [])])
  | some (.table .implied inner) => some (replaceEntry name (.table .headed inner) entries)
  | some _ => none

def openRepeated (name : String) (entries : Entries) : Option Entries :=
  match entries.lookup name with
  | none => some (entries ++ [(name, .tables [.table .headed []])])
  | some (.tables items) =>
    some (replaceEntry name (.tables (items ++ [.table .headed []])) entries)
  | some _ => none

/-! ### Values -/

def splitLast (parts : List String) : List String × String :=
  (parts.dropLast, parts.getLastD "")

structure Deeper where
  value : Reader Value

def arrayItems (deeper : Deeper) : Nat → Reader (List Value)
  | 0 => failure
  | fuel + 1 => do
    gap
    if (← peek?) = some ']' then
      mark ']'
      pure []
    else
      let v ← deeper.value
      gap
      match ← oneOf [',', ']'] with
      | ',' => return v :: (← arrayItems deeper fuel)
      | _ => pure [v]

def inlineEntries (deeper : Deeper) : Nat → Entries → Reader Entries
  | 0, _ => failure
  | fuel + 1, entries => do
    let parts ← key
    mark '='
    spaces
    let v ← deeper.value
    spaces
    let (path, name) := splitLast parts
    let entries ← (assign path name v .inline entries : Option Entries)
    match ← oneOf [',', '\x7d'] with
    | ',' => inlineEntries deeper fuel entries
    | _ => pure entries

def value : Nat → Reader Value
  | 0 => failure
  | levels + 1 => do
    let fuel := (← get).length + 1
    match ← peek? with
    | some '"' => mark '"'; return .string (← openString '"')
    | some '\'' => mark '\''; return .string (← openString '\'')
    | some '[' => mark '['; return .array (← arrayItems ⟨value levels⟩ fuel)
    | some '\x7b' =>
      mark '\x7b'
      spaces
      if (← peek?) = some '\x7d' then
        mark '\x7d'
        pure (.table .inline [])
      else return .table .inline (← inlineEntries ⟨value levels⟩ fuel [])
    | _ => bareScalar

def maxLevels : Nat := 80

/-! ### Statements -/

inductive Statement where
  | header (path : List String)
  | repeated (path : List String)
  | entry (key : List String) (v : Value)

def statement : Reader Statement := do
  if ← word? ['[', '['] then
    let path ← key
    mark ']'
    mark ']'
    pure (.repeated path)
  else if ← word? ['['] then
    let path ← key
    mark ']'
    pure (.header path)
  else
    let parts ← key
    mark '='
    spaces
    return .entry parts (← value maxLevels)

def statements : Nat → Reader (List Statement)
  | 0 => failure
  | fuel + 1 => do
    gap
    if (← peek?).isNone then pure []
    else
      let s ← statement
      lineEnd
      return s :: (← statements fuel)

structure Growing where
  entries : Entries
  path : List String

def Growing.enter (g : Growing) : Statement → Option Growing
  | .header path => do
    let (parent, name) := splitLast path
    let entries ← changeAt false (fun _ es => openTable name es) parent .headed g.entries
    some { entries := entries, path := path }
  | .repeated path => do
    let (parent, name) := splitLast path
    let entries ← changeAt false (fun _ es => openRepeated name es) parent .headed g.entries
    some { entries := entries, path := path }
  | .entry parts v => do
    let (path, name) := splitLast parts
    let entries ← changeAt false (assign path name v) g.path .headed g.entries
    some { g with entries := entries }

def parse (text : String) : Option Entries := do
  let cs := unifyLineEnds text.toList
  let cs := if cs.head? = some '\uFEFF' then cs.drop 1 else cs
  let lines ← all (statements (cs.length + 1)) cs
  let g ← lines.foldlM Growing.enter { entries := [], path := [] }
  some g.entries

end AppAtlas.Toml
