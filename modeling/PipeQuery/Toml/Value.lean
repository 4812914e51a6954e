import PipeQuery.Number.Binary64

/-!
# TOML values and tables

A TOML document is a table that is put together from its lines. Each table remembers how it came
about, since that decides what may still be added to it.

## Main definitions

* `Toml`: values; `Toml.Origin`: how a table came about
* `Toml.isKept`: whether all numbers of a value can be kept
* `Toml.alter`: change what stands under a key of a table
* `Toml.assign`: put a value under a dotted key
* `Toml.extend`: add lines to the table that a header names
-/

namespace PipeQuery

/-- How a table came about. -/
inductive Toml.Origin where
  /-- It is written out between braces and is complete. -/
  | written
  /-- A header names it. -/
  | header
  /-- A header names a table inside it. -/
  | implied
  /-- A dotted key leads through it. -/
  | dotted
deriving DecidableEq

/-- A TOML value. Nothing is asked of a date or a time but that it is one. -/
inductive Toml where
  | string (s : String)
  | integer (n : Int)
  | float (x : Numeral)
  | boolean (b : Bool)
  | dateTime
  | array (items : List Toml)
  | table (origin : Toml.Origin) (entries : List (String × Toml))
  /-- The tables that headers in double brackets add one by one. -/
  | tables (items : List (List (String × Toml)))

namespace Toml

/-- The keys of a table and what stands under them. -/
abbrev Entries := List (String × Toml)

/-! ## Numbers -/

mutual

/-- Whether all numbers of a value can be kept: integers with 128 bits, floats with 64. -/
def isKept : Toml → Bool
  | integer n => -2 ^ 127 ≤ n && n < 2 ^ 128
  | float x => !Binary64.overflows x
  | array items => areKept items
  | table _ entries => areEntriesKept entries
  | tables items => areTablesKept items
  | string _ | boolean _ | dateTime => true

/-- Whether all numbers of values can be kept. -/
def areKept : List Toml → Bool
  | [] => true
  | v :: rest => isKept v && areKept rest

/-- Whether all numbers of a table can be kept. -/
def areEntriesKept : List (String × Toml) → Bool
  | [] => true
  | (_, v) :: rest => isKept v && areEntriesKept rest

/-- Whether all numbers of tables can be kept. -/
def areTablesKept : List (List (String × Toml)) → Bool
  | [] => true
  | entries :: rest => areEntriesKept entries && areTablesKept rest

end

/-! ## Tables -/

/-- The table with what stands under a key changed by `f`, which is given nothing if the key is
new. -/
def alter (key : String) (f : Option Toml → Option Toml) : Entries → Option Entries
  | [] => (f none).map fun v => [(key, v)]
  | (k, v) :: rest =>
    if k = key then (f (some v)).map fun v => (k, v) :: rest
    else (alter key f rest).map ((k, v) :: ·)

/-- The last of a row of tables changed by `f`. -/
def alterLast (f : Entries → Option Entries) : List Entries → Option (List Entries)
  | [] => none
  | [t] => (f t).map ([·])
  | t :: ts => (alterLast f ts).map (t :: ·)

/-- The table with a value under a dotted key. The key must be new. The tables it leads through may
come from headers of tables inside them, but the last of them must be new or come from dotted keys;
`isOpen` tells whether the table itself is so, or the key has no dots. -/
def assign (value : Toml) : Bool → List String → Entries → Option Entries
  | _, [], _ => none
  | isOpen, [key], t =>
    t |> alter key fun
      | none => if isOpen then some value else none
      | some _ => none
  | _, key :: path, t =>
    t |> alter key fun
      | none => (assign value true path []).map (table .dotted)
      | some (.table .dotted inner) => (assign value true path inner).map (table .dotted)
      | some (.table .implied inner) => (assign value false path inner).map (table .implied)
      | some (.tables items) => (alterLast (assign value false path) items).map tables
      | some _ => none

/-- The table with the lines behind a header added by `body`. The header names a table that is new
or implied so far, or with double brackets one more of a row of tables. -/
def extend (isRow : Bool) (body : Entries → Option Entries) : List String → Entries → Option Entries
  | [], _ => none
  | [key], t =>
    t |> alter key fun
      | none => (body []).map fun new => if isRow then tables [new] else table .header new
      -- A header may come after the headers of tables inside the one it names.
      | some (.table .implied inner) => if isRow then none else (body inner).map (table .header)
      | some (.tables items) => if isRow then (body []).map fun new => tables (items ++ [new]) else none
      | some _ => none
  | key :: path, t =>
    t |> alter key fun
      | none => (extend isRow body path []).map (table .implied)
      | some (.table .written _) => none
      -- Going through a table leaves how it came about.
      | some (.table origin inner) => (extend isRow body path inner).map (table origin)
      | some (.tables items) => (alterLast (extend isRow body path) items).map tables
      | some _ => none

end Toml

end PipeQuery
