import Stencil.Datum

/-!
# Tables in TOML

The tables of a document while it is read. A table can be opened by a header, by dotted keys, or
only because a header names something inside it; which of these it was says what may still be added
to it.
-/

namespace Stencil.Toml

/-- Where a table comes from. -/
inductive Origin where
  /-- A header or a place in a list of tables. -/
  | header
  /-- A header that names something inside it. -/
  | implied
  /-- Dotted keys. -/
  | dotted
deriving DecidableEq, Repr

/-- Something with a name: a value, a table, or a list of tables with the last one first. -/
inductive Node where
  | value (key : String) (d : Datum)
  | table (key : String) (origin : Origin) (children : List Node)
  | tables (key : String) (items : List Node)
deriving Inhabited

namespace Node

/-- The name. -/
def key : Node → String
  | value k _ => k
  | table k _ _ => k
  | tables k _ => k

mutual

/-- What was read. -/
def datum : Node → Datum
  | value _ d => d
  | table _ _ children => .table (entries children)
  | tables _ items => .list (itemData items [])

/-- Names with what was read under them. -/
def entries : List Node → List (String × Datum)
  | [] => []
  | n :: ns => (n.key, n.datum) :: entries ns

/-- The data of a list of tables, put in front of others in reverse. -/
def itemData : List Node → List Datum → List Datum
  | [], done => done
  | n :: ns, done => itemData ns (n.datum :: done)

end

/-- The child of a name. -/
def child? (children : List Node) (key : String) : Option Node :=
  children.find? fun n => n.key = key

/-- Children with one more, in the place of the one that has its name already. -/
def setChild (n : Node) : List Node → List Node
  | [] => [n]
  | m :: ms => if m.key = n.key then n :: ms else m :: setChild n ms

/-- Changes the table that names lead to from among the children of a table, and opens the missing
ones on the way. Dotted keys do not lead into what a header has opened. -/
def update (dotted : Bool) (change : Origin → List Node → Option (List Node)) (origin : Origin) :
    (path : List String) → List Node → Option (List Node)
  | [], children => change origin children
  | k :: path, children =>
    let opened : Origin := if dotted then .dotted else .implied
    match (child? children k).getD (.table k opened []) with
    | .value _ _ => none
    | .table _ o inner =>
      if dotted ∧ o = .header then none
      else (update dotted change o path inner).map fun inner => setChild (.table k o inner) children
    | .tables _ [] => none
    | .tables _ (last :: before) =>
      match last with
      | .table name o inner =>
        (update dotted change o path inner).map fun inner =>
          setChild (.tables k (.table name o inner :: before)) children
      | _ => none

/-- Adds a value under dotted keys to a table. The table that the keys lead to has to be one of
dotted keys, unless there is but one key. -/
def insert (path : List String) (key : String) (d : Datum) (children : List Node) :
    Option (List Node) :=
  let add (origin : Origin) (inner : List Node) : Option (List Node) :=
    if path ≠ [] ∧ origin ≠ .dotted then none
    else if (child? inner key).isSome then none
    else some (inner ++ [.value key d])
  update true add .header path children

/-- Opens a table by a header; one that was opened otherwise than by implication is not opened
again. -/
def openTable (path : List String) (key : String) (children : List Node) : Option (List Node) :=
  let add (_ : Origin) (inner : List Node) : Option (List Node) :=
    match child? inner key with
    | none => some (inner ++ [.table key .header []])
    | some (.table _ .implied grand) => some (setChild (.table key .header grand) inner)
    | some _ => none
  update false add .header path children

/-- Adds a table to a list of tables by a header. -/
def openItem (path : List String) (key : String) (children : List Node) : Option (List Node) :=
  let add (_ : Origin) (inner : List Node) : Option (List Node) :=
    match child? inner key with
    | none => some (inner ++ [.tables key [.table key .header []]])
    | some (.tables _ items) => some (setChild (.tables key (.table key .header [] :: items)) inner)
    | some _ => none
  update false add .header path children

end Node

end Stencil.Toml
