import Correlation.Toml.Value
/-!
# TOML tables under construction

A document defines its tables piece by piece. Each table remembers how it came to be, because that
decides what may still be added: a header may open a table that so far only lies on the way to others,
dotted keys may not reach into one that a header opened nor add values to one that they did not make, and a
finished value takes nothing more.
-/

namespace Correlation

namespace Toml

/-- How a table came to be. -/
inductive Origin where
  /-- It lies on the way to a table with a header. -/
  | implied
  /-- It has a header of its own. -/
  | header
  /-- It lies on the way to the value of a dotted key. -/
  | dotted
  deriving Repr, DecidableEq

/-- What a key stands for while the document is read. -/
inductive Node where
  | value (v : Value)
  | table (origin : Origin) (entries : List (String × Node))
  /-- An array of tables, the one opened last in front. -/
  | tables (elements : List (List (String × Node)))

abbrev Entries := List (String × Node)

namespace Entries

/-- Give a key a new meaning, or a first one after all other keys. -/
def put (key : String) (node : Node) : Entries → Entries
  | [] => [(key, node)]
  | (k, n) :: rest => if k = key then (k, node) :: rest else (k, n) :: put key node rest

/-- Change the table at the end of a path, which starts in a table of origin `here`. Tables that are not there
yet are made on the way, as `made`; in an array of tables the way goes through the last one. Dotted keys do
not go through tables with a header of their own. The change is told the origin of the table that it gets. -/
def under (made here : Origin) : List String → (Origin → Entries → Option Entries) → Entries → Option Entries
  | [], change, entries => change here entries
  | key :: path, change, entries =>
    match entries.lookup key with
    | none => do
      let inner ← under made made path change []
      return entries.put key (.table made inner)
    | some (.table origin inner) =>
      if made = .dotted ∧ origin = .header then none
      else do
        let inner ← under made origin path change inner
        return entries.put key (.table origin inner)
    | some (.tables (last :: earlier)) => do
      let last ← under made .header path change last
      return entries.put key (.tables (last :: earlier))
    | some _ => none

/-- Give a new key its value. -/
def define (key : String) (v : Value) (entries : Entries) : Option Entries :=
  match entries.lookup key with
  | none => some (entries.put key (.value v))
  | some _ => none

/-- Give the last key of a path its value. Only tables that dotted keys have made take values from dotted keys. -/
def assign : List String → Value → Entries → Option Entries
  | [], _, _ => none
  | [key], v, entries => define key v entries
  | path, v, entries =>
    let change (reached : Origin) (inner : Entries) : Option Entries :=
      if reached = .dotted then define (path.getLastD "") v inner else none
    under .dotted .header path.dropLast change entries

/-- A table of its own at a key. -/
def openTable (key : String) (entries : Entries) : Option Entries :=
  match entries.lookup key with
  | none => some (entries.put key (.table .header []))
  | some (.table .implied inner) => some (entries.put key (.table .header inner))
  | some _ => none

/-- One more table in the array of tables at a key. -/
def openElement (key : String) (entries : Entries) : Option Entries :=
  match entries.lookup key with
  | none => some (entries.put key (.tables [[]]))
  | some (.tables elements) => some (entries.put key (.tables ([] :: elements)))
  | some _ => none

end Entries

/-! ## Finished tables -/

mutual

def Node.toValue : Node → Value
  | .value v => v
  | .table _ entries => .table (Node.entriesToValues entries)
  | .tables elements => .array (Node.elementsToValues elements).reverse

def Node.entriesToValues : List (String × Node) → List (String × Value)
  | [] => []
  | (key, node) :: rest => (key, node.toValue) :: Node.entriesToValues rest

def Node.elementsToValues : List (List (String × Node)) → List Value
  | [] => []
  | entries :: rest => .table (Node.entriesToValues entries) :: Node.elementsToValues rest

end

end Toml

end Correlation
