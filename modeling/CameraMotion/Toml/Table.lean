/-!
# Tables of a TOML document

A document is a table of tables and values.  What may be added to a table depends
on what created it: a header of its own states it, a longer header implies it, and
a dotted key makes it.

Main definitions:

- `Table.assign?` adds a value under a dotted key.
- `Table.openTable?` and `Table.openElement?` begin the part of a document under a
  header.
-/

namespace CameraMotion.Toml

/-- What created a table. -/
inductive Origin where
  /-- A header of its own, or the document itself. -/
  | stated
  /-- A longer header, as a table on the way. -/
  | implied
  /-- A dotted key, as a table on the way. -/
  | dotted
deriving DecidableEq, Repr

mutual

/-- A value. -/
inductive Value where
  /-- An integer. -/
  | integer (n : Int)
  /-- A floating-point number. -/
  | float (x : Float)
  /-- A text. -/
  | string (s : String)
  /-- A truth value. -/
  | boolean (b : Bool)
  /-- A date or a time, as it is written. -/
  | moment (text : String)
  /-- Several values in order. -/
  | array (values : List Value)
  /-- A table written as a value, to which nothing can be added. -/
  | inline (table : Table)

/-- What a key stands for. -/
inductive Node where
  /-- A value. -/
  | value (v : Value)
  /-- A table. -/
  | table (t : Table)
  /-- An array of tables, of which only the last one can grow. -/
  | tables (earlier : List Table) (last : Table)

/-- A table: what created it, and its entries in the order in which they came. -/
inductive Table where
  /-- A table with an origin and entries. -/
  | mk (origin : Origin) (entries : List (String × Node))

end

namespace Table

/-! ## Entries -/

/-- What created the table. -/
def origin : Table → Origin
  | .mk origin _ => origin

/-- The entries, in the order in which they came. -/
def entries : Table → List (String × Node)
  | .mk _ entries => entries

/-- The table without entries. -/
def empty (origin : Origin) : Table :=
  .mk origin []

/-- The same entries, now in a table with a header of its own. -/
def stated (t : Table) : Table :=
  .mk .stated t.entries

/-- What a key stands for. -/
def find? (t : Table) (key : String) : Option Node :=
  (t.entries.find? (·.1 == key)).map (·.2)

/-- Let a key stand for something, in place of what it stood for. -/
def put (t : Table) (key : String) (node : Node) : Table :=
  if (t.find? key).isSome then
    .mk t.origin (t.entries.map fun entry => if entry.1 == key then (key, node) else entry)
  else
    .mk t.origin (t.entries ++ [(key, node)])

/-! ## Growth -/

/-- Change the table at the end of a path.  Missing tables on the way are created
with the origin `way`.  A value bars the way, and a dotted key does not enter a
table with a header of its own.  In an array of tables the way leads into the last
one. -/
def changeAt? (way : Origin) (change : Table → Option Table) :
    List String → Table → Option Table
  | [], t => change t
  | key :: path, t =>
      match t.find? key with
      | none => do
          let child ← changeAt? way change path (.empty way)
          pure (t.put key (.table child))
      | some (.value _) => none
      | some (.table child) =>
          if way = .dotted && child.origin = .stated then none
          else do
            let child ← changeAt? way change path child
            pure (t.put key (.table child))
      | some (.tables earlier last) => do
          let last ← changeAt? way change path last
          pure (t.put key (.tables earlier last))

/-- Add a value under a dotted key.  Behind a dot only a table that a dotted key
made can take it, and no key is given twice. -/
def assign? (path : List String) (key : String) (v : Value) (t : Table) : Option Table :=
  t.changeAt? .dotted
    (fun target =>
      if !path.isEmpty && target.origin ≠ .dotted then none
      else if (target.find? key).isSome then none
      else some (target.put key (.value v)))
    path

/-- Begin a table under its header.  It must be new, or implied by the header of a
table inside it. -/
def openTable? (path : List String) (key : String) (t : Table) : Option Table :=
  t.changeAt? .implied
    (fun target =>
      match target.find? key with
      | none => some (target.put key (.table (.empty .stated)))
      | some (.table child) =>
          if child.origin = .implied then some (target.put key (.table child.stated)) else none
      | some _ => none)
    path

/-- Begin another table of an array of tables. -/
def openElement? (path : List String) (key : String) (t : Table) : Option Table :=
  t.changeAt? .implied
    (fun target =>
      match target.find? key with
      | none => some (target.put key (.tables [] (.empty .stated)))
      | some (.tables earlier last) =>
          some (target.put key (.tables (earlier ++ [last]) (.empty .stated)))
      | some _ => none)
    path

end Table

end CameraMotion.Toml
