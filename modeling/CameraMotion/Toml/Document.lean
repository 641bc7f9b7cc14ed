import CameraMotion.Toml.Moment
import CameraMotion.Toml.Quoted
import CameraMotion.Toml.Table

/-!
# TOML documents

A document is read line by line into statements, and the statements are carried
out in order on a table.  Both steps refuse a document as a whole.

Main definitions:

- `statements?` reads the lines of a document.
- `Table.ofStatements?` carries statements out.
- `document?` does both.
-/

namespace CameraMotion.Toml

/-- A key with the tables on the way to it. -/
structure KeyPath where
  /-- The tables on the way. -/
  path : List String
  /-- The key itself. -/
  key : String
deriving DecidableEq, Repr

/-- One statement of a document. -/
inductive Statement where
  /-- Let a key stand for a value in the current table. -/
  | assign (target : KeyPath) (value : Value)
  /-- Go on in a table of its own. -/
  | table (target : KeyPath)
  /-- Go on in another table of an array. -/
  | element (target : KeyPath)

/-- Arrays, inline tables and the parts of a key are nested less deeply than
this. -/
def nestingLimit : Nat :=
  80

/-! ## Keys -/

/-- The characters of a key without quotes. -/
def isBareKeyChar (c : Char) : Bool :=
  c.isAlphanum || c = '_' || c = '-'

/-- Read one part of a key. -/
def keyPart? (s : List Char) : Option (String × List Char) :=
  match s with
  | '"' :: _ => (line? s).map fun (text, rest) => (String.ofList text, rest)
  | '\'' :: _ => (line? s).map fun (text, rest) => (String.ofList text, rest)
  | _ =>
      let bare := s.takeWhile isBareKeyChar
      if bare.isEmpty then none else some (String.ofList bare, s.dropWhile isBareKeyChar)

/-- Read the parts of a key, at most `limit` of them, with a point between
neighbours and blanks around each. -/
def keyParts? : (limit : Nat) → List Char → Option (List String × List Char)
  | 0, _ => none
  | limit + 1, s => do
      let (part, rest) ← keyPart? (skipBlanks s)
      match skipBlanks rest with
      | '.' :: rest => do
          let (parts, rest) ← keyParts? limit rest
          pure (part :: parts, rest)
      | rest => pure ([part], rest)

/-- Read a key. -/
def keyPath? (s : List Char) : Option (KeyPath × List Char) := do
  let (parts, rest) ← keyParts? (nestingLimit - 1) s
  let key ← parts.getLast?
  pure (⟨parts.dropLast, key⟩, rest)

/-- Read a key and the equals sign after it. -/
def assignee? (s : List Char) : Option (KeyPath × List Char) := do
  let (target, rest) ← keyPath? s
  let rest ← symbol? '=' rest
  pure (target, skipBlanks rest)

/-! ## Values -/

/-- The table written as a value with these entries. -/
def Table.ofPairs? (pairs : List (KeyPath × Value)) : Option Table :=
  pairs.foldlM (fun t (target, v) => t.assign? target.path target.key v) (.empty .stated)

/-- Read a number, a moment or a truth value. -/
def atom? (s : List Char) : Option (Value × List Char) :=
  match s with
  | 't' :: 'r' :: 'u' :: 'e' :: rest => some (.boolean true, rest)
  | 'f' :: 'a' :: 'l' :: 's' :: 'e' :: rest => some (.boolean false, rest)
  | _ =>
      match moment? s with
      | some (text, rest) => some (.moment text, rest)
      | none =>
          (number? s).map fun (n, rest) =>
            match n with
            | .integer n => (.integer n, rest)
            | .float x => (.float x, rest)

mutual

/-- Read a value at a depth.  The fuel counts characters: every call of one reader
by another has read at least one. -/
def valueWithin? (depth : Nat) : (fuel : Nat) → List Char → Option (Value × List Char)
  | 0, _ => none
  | fuel + 1, s =>
      match s with
      | '[' :: rest =>
          if depth + 1 < nestingLimit then do
            let (values, rest) ← elements? (depth + 1) fuel rest
            pure (.array values, rest)
          else none
      | '\x7b' :: rest =>
          if depth + 1 < nestingLimit then
            match skipBlanks rest with
            | '\x7d' :: rest => some (.inline (.empty .stated), rest)
            | rest => do
                let (pairs, rest) ← pairs? (depth + 1) fuel rest
                let table ← Table.ofPairs? pairs
                pure (.inline table, rest)
          else none
      | '"' :: _ => (text? s).map fun (text, rest) => (.string (String.ofList text), rest)
      | '\'' :: _ => (text? s).map fun (text, rest) => (.string (String.ofList text), rest)
      | _ => atom? s

/-- Read the values of an array up to its closing bracket.  A comma may stand
after the last one. -/
def elements? (depth : Nat) : (fuel : Nat) → List Char → Option (List Value × List Char)
  | 0, _ => none
  | fuel + 1, s =>
      match skipGaps false s with
      | ']' :: rest => some ([], rest)
      | s => do
          let (v, rest) ← valueWithin? depth fuel s
          match skipGaps false rest with
          | ',' :: rest => do
              let (values, rest) ← elements? depth fuel rest
              pure (v :: values, rest)
          | ']' :: rest => pure ([v], rest)
          | _ => none

/-- Read the entries of a table written as a value, up to its closing brace. -/
def pairs? (depth : Nat) :
    (fuel : Nat) → List Char → Option (List (KeyPath × Value) × List Char)
  | 0, _ => none
  | fuel + 1, s => do
      let (target, rest) ← assignee? s
      let (v, rest) ← valueWithin? depth fuel rest
      match skipBlanks rest with
      | ',' :: rest => do
          let (pairs, rest) ← pairs? depth fuel rest
          pure ((target, v) :: pairs, rest)
      | '\x7d' :: rest => pure ([(target, v)], rest)
      | _ => none

end

/-- Read a value. -/
def value? (s : List Char) : Option (Value × List Char) :=
  valueWithin? 0 (s.length + 1) s

/-! ## Lines -/

/-- Read the statement of a line, if the line has one. -/
def statement? (s : List Char) : Option (Option Statement × List Char) :=
  match skipBlanks s with
  | [] => some (none, [])
  | '[' :: '[' :: rest => do
      let (target, rest) ← keyPath? rest
      let rest ← symbol? ']' rest
      let rest ← symbol? ']' rest
      pure (some (.element target), rest)
  | '[' :: rest => do
      let (target, rest) ← keyPath? rest
      let rest ← symbol? ']' rest
      pure (some (.table target), rest)
  | c :: rest =>
      if c = '#' || c = '\n' || c = '\r' then some (none, c :: rest)
      else do
        let (target, rest) ← assignee? (c :: rest)
        let (v, rest) ← value? rest
        pure (some (.assign target v), rest)

/-- Read the statements of at most `limit` lines. -/
def lines? : (limit : Nat) → List Char → Option (List Statement)
  | 0, _ => none
  | _ + 1, [] => some []
  | limit + 1, s => do
      let (statement, rest) ← statement? s
      let rest ← lineEnd? rest
      let later ← lines? limit rest
      pure (statement.toList ++ later)

/-- Read the statements of a document.  A mark of the byte order in front of it is
skipped. -/
def statements? (s : List Char) : Option (List Statement) :=
  match s with
  | '\ufeff' :: rest => lines? (rest.length + 1) rest
  | _ => lines? (s.length + 1) s

/-! ## Documents -/

/-- A document that is being put together. -/
structure Draft where
  /-- The table of the whole document. -/
  root : Table
  /-- The way to the table that assignments go to. -/
  current : List String

/-- Carry out one statement. -/
def Draft.step? (d : Draft) : Statement → Option Draft
  | .assign target v => do
      let root ← d.root.changeAt? .implied (·.assign? target.path target.key v) d.current
      pure { d with root := root }
  | .table target => do
      let root ← d.root.openTable? target.path target.key
      pure ⟨root, target.path ++ [target.key]⟩
  | .element target => do
      let root ← d.root.openElement? target.path target.key
      pure ⟨root, target.path ++ [target.key]⟩

/-- The table of a document with these statements. -/
def Table.ofStatements? (statements : List Statement) : Option Table :=
  (statements.foldlM Draft.step? ⟨.empty .stated, []⟩).map (·.root)

/-- Read a document. -/
def document? (s : List Char) : Option Table :=
  statements? s >>= Table.ofStatements?

end CameraMotion.Toml
