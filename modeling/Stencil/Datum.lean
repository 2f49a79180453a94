import Stencil.Text.Decimal

/-!
# Structured data

What definitions are read from: texts, integers and truth values in lists and tables. A record is a
table with known keys, or the list of its items in the order of the keys.
-/

namespace Stencil

/-- A piece of structured data. -/
inductive Datum where
  | null
  | bool (b : Bool)
  | int (n : Int64)
  | text (s : String)
  /-- A number or a moment that no option can hold. -/
  | other
  | list (items : List Datum)
  | table (entries : List (String × Datum))
deriving Inhabited

namespace Datum

/-- The text, if it is one. -/
def text? : Datum → Option String
  | text s => some s
  | _ => none

/-- The integer, if it is one. -/
def int? : Datum → Option Int64
  | int n => some n
  | _ => none

/-- The truth value, if it is one. -/
def bool? : Datum → Option Bool
  | bool b => some b
  | _ => none

/-- The items of a list. -/
def list? : Datum → Option (List Datum)
  | list items => some items
  | _ => none

/-- The entries of a table. -/
def table? : Datum → Option (List (String × Datum))
  | table entries => some entries
  | _ => none

/-- The only character of a text. -/
def char? (d : Datum) : Option Char :=
  match d.text?.map String.toList with
  | some [c] => some c
  | _ => none

/-- The name of a choice: a text, or the key of a table that holds nothing else and nothing under
it. -/
def choice? : Datum → Option String
  | text s => some s
  | table [(name, null)] => some name
  | _ => none

/-- Reads something that may be absent or null. -/
def optional {α : Type} (read : Datum → Option α) : Option Datum → Option (Option α)
  | none | some .null => some none
  | some d => (read d).map some

/-- The values of a record's keys: the entries of a table that has no other key, or the items of a
list, of which only those behind the first `required` ones may be absent. -/
def record? (keys : List String) (required : Nat) : Datum → Option (List (Option Datum))
  | table entries =>
    if entries.all fun e => keys.contains e.1 then some (keys.map fun k => entries.lookup k)
      else none
  | list items =>
    if required ≤ items.length ∧ items.length ≤ keys.length then
      some (items.map some ++ List.replicate (keys.length - items.length) none)
    else none
  | _ => none

/-- Reads each value of a table. -/
def mapTable {α : Type} (read : Datum → Option α) (d : Datum) : Option (List (String × α)) := do
  (← d.table?).mapM fun e => (read e.2).map fun v => (e.1, v)

end Datum

end Stencil
