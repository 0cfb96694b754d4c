import RpcBindings.Toml.DateTime

/-!
TOML values and the tables of a document.

While a document is read its tables remember how they came to be, because a table may be opened
once only and a table made by dotted keys cannot be opened at all. What is left at the end are plain
values.
-/

namespace RpcBindings.Toml

/-- A value. Numbers and truth values are all alike. -/
inductive Value where
  | string (text : String)
  | dateTime (value : DateTime)
  | array (elems : List Value)
  | table (entries : List (String × Value))
  | other
  deriving Repr, Inhabited

/-- How a table came to be. -/
inductive Origin where
  /-- By a header of its own. -/
  | header
  /-- As a part of another table's header. -/
  | part
  /-- By a dotted key. -/
  | dotted
  deriving DecidableEq, Repr

/-- What stands under a key while a document is read. -/
inductive Node where
  | value (v : Value)
  | table (origin : Origin) (entries : List (String × Node))
  /-- An array of tables, the last one first. -/
  | tables (elems : List (List (String × Node)))

abbrev Entries := List (String × Node)

namespace Entries

/-- Puts a node in place of the one under a key. -/
def replace (k : String) (n : Node) (es : Entries) : Entries :=
  es.map fun e => if e.1 == k then (k, n) else e

def add (k : String) (n : Node) (es : Entries) : Entries :=
  es ++ [(k, n)]

/-- Puts a value under a dotted key. Every key stands for one thing, and a table with a header of
its own takes no dotted keys. -/
def put? : List String → Value → Entries → Option Entries
  | [], _, _ => none
  | [k], v, es =>
    match es.lookup k with
    | none => some (es.add k (.value v))
    | some _ => none
  | k :: ks, v, es =>
    match es.lookup k with
    | none => (put? ks v []).map fun sub => es.add k (.table .dotted sub)
    | some (.table origin sub) =>
      if origin = .header then none
      else (put? ks v sub).map fun sub => es.replace k (.table origin sub)
    | some _ => none

/-- Changes the table that a header names, by its path. -/
def within? (f : Entries → Option Entries) : List String → Entries → Option Entries
  | [], es => f es
  | k :: ks, es =>
    match es.lookup k with
    | none => (within? f ks []).map fun sub => es.add k (.table .part sub)
    | some (.table origin sub) =>
      (within? f ks sub).map fun sub => es.replace k (.table origin sub)
    | some (.tables (last :: others)) =>
      (within? f ks last).map fun last => es.replace k (.tables (last :: others))
    | some _ => none

/-- Opens a table under a key. -/
def openTable? (k : String) (es : Entries) : Option Entries :=
  match es.lookup k with
  | none => some (es.add k (.table .header []))
  | some (.table .part sub) => some (es.replace k (.table .header sub))
  | some _ => none

/-- Opens one more table of an array under a key. -/
def openElement? (k : String) (es : Entries) : Option Entries :=
  match es.lookup k with
  | none => some (es.add k (.tables [[]]))
  | some (.tables elems) => some (es.replace k (.tables ([] :: elems)))
  | some _ => none

end Entries

mutual

/-- The plain value of a node. -/
def Node.toValue : Node → Value
  | .value v => v
  | .table _ entries => .table (toValues entries)
  | .tables elems => .array (tablesToValues elems).reverse

def toValues : List (String × Node) → List (String × Value)
  | [] => []
  | (k, n) :: rest => (k, n.toValue) :: toValues rest

def tablesToValues : List (List (String × Node)) → List Value
  | [] => []
  | t :: rest => .table (toValues t) :: tablesToValues rest

end

end RpcBindings.Toml
