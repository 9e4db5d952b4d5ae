/-!
# TOML values and the tables of a document

A document is a table of tables. How a table came into being decides how it may still grow: a table
with a header is open to the keys below its header, one that only lies on the path of a header may
get a header of its own, one made by a dotted key is open to further dotted keys, and one written
in braces is closed.
-/

namespace LpcInspect

namespace Toml

/-- How a table came into being. -/
inductive TableKind where
  /-- By its header, or as the document itself. -/
  | header
  /-- As a part of the path of a header. -/
  | implied
  /-- As a part of a dotted key. -/
  | dotted
  /-- In braces. -/
  | braces
  deriving DecidableEq, Repr

end Toml

/-- A TOML value. Of a floating-point number and of a date or time, only the kind is kept. -/
inductive Toml where
  | string (text : String)
  | integer (value : Int)
  | float
  | bool (value : Bool)
  | datetime
  | array (items : List Toml)
  | table (kind : Toml.TableKind) (entries : List (String × Toml))
  /-- The tables that share a header in double brackets. -/
  | tables (items : List Toml)
  deriving Inhabited

namespace Toml

/-- The keys of a table with their values. -/
abbrev Entries := List (String × Toml)

/-- The value of a key. -/
def find? (key : String) (entries : Entries) : Option Toml :=
  (entries.find? fun e => e.1 == key).map Prod.snd

/-- The table with another value for a key that it has. -/
def replace (key : String) (value : Toml) (entries : Entries) : Entries :=
  entries.map fun e => if e.1 == key then (key, value) else e

/-- The table with a value for a key that it does not have. -/
def insertNew? (key : String) (value : Toml) (entries : Entries) : Option Entries :=
  match find? key entries with
  | none => some (entries ++ [(key, value)])
  | some _ => none

/-- Change the table at the end of a path. Tables that are missing on the way come into being as
`missing`; `enters` says through which tables the path may lead. Of tables that share a header, the
path leads through the last one. -/
def change? (missing : TableKind) (enters : TableKind → Bool)
    (edit? : TableKind → Entries → Option Entries) :
    List String → TableKind → Entries → Option Entries
  | [], kind, entries => edit? kind entries
  | key :: path, _, entries =>
    match find? key entries with
    | none => do
      let inner ← change? missing enters edit? path missing []
      return entries ++ [(key, .table missing inner)]
    | some (.table kind inner) =>
      if enters kind then do
        let inner ← change? missing enters edit? path kind inner
        return replace key (.table kind inner) entries
      else none
    | some (.tables items) =>
      match items.reverse with
      | .table kind inner :: earlier => do
        let inner ← change? missing enters edit? path kind inner
        return replace key (.tables (.table kind inner :: earlier).reverse) entries
      | _ => none
    | some _ => none

/-- The last key of a path and the keys before it. -/
def splitLast? : List String → Option (List String × String)
  | [] => none
  | key :: rest => some ((key :: rest).dropLast, (key :: rest).getLast (by simp))

/-- Set a dotted key in a table. The path may only lead through tables without a header, and the
table it leads to must come from dotted keys, too. -/
def setKey? (path : List String) (value : Toml) (kind : TableKind) (entries : Entries) :
    Option Entries := do
  let (before, last) ← splitLast? path
  let enters : TableKind → Bool
    | .implied | .dotted => true
    | .header | .braces => false
  let edit? (kind : TableKind) (entries : Entries) :=
    if before.isEmpty || kind == .dotted then insertNew? last value entries else none
  change? .dotted enters edit? before kind entries

/-- Whether the path of a header may lead through a table. -/
def headerEnters : TableKind → Bool
  | .header | .implied | .dotted => true
  | .braces => false

/-- Open the table of a header, which must not have one yet. -/
def openTable? (path : List String) (document : Entries) : Option Entries := do
  let (before, last) ← splitLast? path
  let edit? (_ : TableKind) (entries : Entries) :=
    match find? last entries with
    | none => some (entries ++ [(last, .table .header [])])
    | some (.table .implied inner) => some (replace last (.table .header inner) entries)
    | some _ => none
  change? .implied headerEnters edit? before .header document

/-- Open a further table of a header in double brackets. -/
def openNext? (path : List String) (document : Entries) : Option Entries := do
  let (before, last) ← splitLast? path
  let edit? (_ : TableKind) (entries : Entries) :=
    match find? last entries with
    | none => some (entries ++ [(last, .tables [.table .header []])])
    | some (.tables items) => some (replace last (.tables (items ++ [.table .header []])) entries)
    | some _ => none
  change? .implied headerEnters edit? before .header document

/-- Set a key below a header. -/
def setBelow? (header path : List String) (value : Toml) (document : Entries) : Option Entries :=
  change? .implied headerEnters (setKey? path value) header .header document

/-- The table in braces with the given keys. -/
def bracesTable? (pairs : List (List String × Toml)) : Option Toml := do
  let entries ← pairs.foldlM (fun entries (path, value) => setKey? path value .header entries) []
  return .table .braces entries

end Toml
end LpcInspect
