namespace QueryGraph.Toml

/-!
# TOML tables

* `Item`: what stands at a key.  Values without use here (numbers, booleans, dates) are all
  alike.
* `Origin`: how a table came about, which decides what may still be added to it.
* `modifyAt`: change the table at the end of a path of keys, making tables on the way.
* `define`, `openTable`, `openElement`: the effects of a line `key = value`, of a header
  `[path]` and of a header `[[path]]`.
-/

/-- How a table came about: written between braces, by a header of its own, as a part of the
    path of a header, or as a part of a dotted key. -/
inductive Origin where
  | braces
  | header
  | implied
  | dotted
deriving DecidableEq

/-- What stands at a key. -/
inductive Item where
  | string (value : String)
  | scalar
  | array (items : List Item)
  | table (origin : Origin) (entries : List (String × Item))
  | tables (elements : List (List (String × Item)))

instance : Inhabited Item := ⟨.scalar⟩

/-- The entries of a table in their order. -/
abbrev Entries := List (String × Item)

/-- Put an item at a key, in the place of the one that is there. -/
def replace (key : String) (item : Item) : Entries → Entries
  | [] => [(key, item)]
  | e :: es => if e.1 = key then (key, item) :: es else e :: replace key item es

/-- Whether a dotted key may add to a table. -/
def Origin.isOpen : Origin → Bool
  | .implied | .dotted => true
  | .braces | .header => false

/-- Change the table at the end of a path.  Missing tables are made on the way, as parts of a
    dotted key or of a header; through an array of tables the path leads to its last element.
    There is no way through values, nor for dotted keys through tables with a header. -/
def modifyAt (dotted : Bool) (change : Origin → Entries → Option Entries) :
    List String → Origin → Entries → Option Entries
  | [], origin, entries => change origin entries
  | key :: path, _, entries =>
    match entries.lookup key with
    | none =>
      let origin := if dotted then Origin.dotted else .implied
      (modifyAt dotted change path origin []).map fun sub =>
        entries ++ [(key, .table origin sub)]
    | some (.table origin sub) =>
      if origin = .braces || (dotted && !origin.isOpen) then none
      else
        (modifyAt dotted change path origin sub).map fun sub =>
          replace key (.table origin sub) entries
    | some (.tables elements) =>
      match elements.getLast? with
      | none => none
      | some sub =>
        (modifyAt dotted change path .header sub).map fun sub =>
          replace key (.tables (elements.dropLast ++ [sub])) entries
    | some _ => none

/-- Add an entry; keys are not given twice.  A dotted key adds only to a table that dotted keys
    have made, a plain one only to any other. -/
def addEntry (plain : Bool) (key : String) (item : Item) (origin : Origin) (entries : Entries) :
    Option Entries :=
  if (origin = .dotted) = plain then none
  else
    match entries.lookup key with
    | some _ => none
    | none => some (entries ++ [(key, item)])

/-- The effect of `path.key = item` in a table. -/
def define (path : List String) (key : String) (item : Item) (origin : Origin)
    (entries : Entries) : Option Entries :=
  modifyAt true (addEntry path.isEmpty key item) path origin entries

/-- The effect of a header `[path.key]` on the outermost table.  A table that was only implied
    so far may get its header, and then comes last. -/
def openTable (path : List String) (key : String) (entries : Entries) : Option Entries :=
  modifyAt false
    (fun _ entries =>
      match entries.lookup key with
      | none => some (entries ++ [(key, .table .header [])])
      | some (.table .implied sub) =>
        some (entries.filter (fun e => e.1 ≠ key) ++ [(key, .table .header sub)])
      | some _ => none)
    path .header entries

/-- The effect of a header `[[path.key]]` on the outermost table. -/
def openElement (path : List String) (key : String) (entries : Entries) : Option Entries :=
  modifyAt false
    (fun _ entries =>
      match entries.lookup key with
      | none => some (entries ++ [(key, .tables [[]])])
      | some (.tables elements) => some (replace key (.tables (elements ++ [[]])) entries)
      | some _ => none)
    path .header entries

end QueryGraph.Toml
