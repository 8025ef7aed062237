import HearingRelay.Toml.Value

/-!
Building tables from keys and headers. A table comes to be by its own header,
as a step on the way of a header, or as a step on the way of a key with dots,
and no table may be written in two of these ways at once: a header may take up
only a table that headers passed through, and a key with dots may enter only
tables that keys with dots or headers passed through, and add to the former
only. A key is given once.
-/

namespace HearingRelay.Toml

inductive Origin where
  | header
  | passedByHeader
  | passedByKey
deriving DecidableEq, Repr

inductive Node where
  | value (v : Value)
  | table (origin : Origin) (entries : List (String × Node))
  /-- Tables that share a header in double brackets. -/
  | tables (items : List (List (String × Node)))
deriving Inhabited

abbrev Entries := List (String × Node)

namespace Entries

def get? (entries : Entries) (key : String) : Option Node :=
  (entries.find? (·.1 == key)).map (·.2)

/-- Puts a node under a key, in place of the one there or behind all others. -/
def set (entries : Entries) (key : String) (n : Node) : Entries :=
  if entries.any (·.1 == key) then entries.map fun e => if e.1 == key then (key, n) else e
  else entries ++ [(key, n)]

def erase (entries : Entries) (key : String) : Entries := entries.filter (·.1 != key)

end Entries

/-- Changes the table at the end of a path. Tables on the way are made if they
are missing; of tables in double brackets the last is entered. -/
def changeAt (byKey : Bool) (f : Origin → Entries → Option Entries) :
    List String → Origin → Entries → Option Entries
  | [], origin, entries => f origin entries
  | key :: path, _, entries =>
    match entries.get? key with
    | none =>
      let origin := if byKey then Origin.passedByKey else Origin.passedByHeader
      (changeAt byKey f path origin []).map fun t => entries.set key (.table origin t)
    | some (.table origin inner) =>
      if byKey && origin == .header then none
      else (changeAt byKey f path origin inner).map fun t => entries.set key (.table origin t)
    | some (.tables items) =>
      match items.getLast? with
      | none => none
      | some last =>
        (changeAt byKey f path .header last).map fun t =>
          entries.set key (.tables (items.dropLast ++ [t]))
    | some (.value _) => none

structure Pair where
  path : List String
  key : String
  value : Value
deriving Inhabited

def addPair (entries : Entries) (p : Pair) : Option Entries :=
  changeAt true (fun origin inner =>
    if (origin == .passedByKey) == p.path.isEmpty then none
    else if (inner.get? p.key).isSome then none
    else some (inner ++ [(p.key, .value p.value)])) p.path .header entries

def addPairs (entries : Entries) (pairs : List Pair) : Option Entries :=
  pairs.foldlM addPair entries

inductive Block where
  | table (path : List String) (key : String) (pairs : List Pair)
  | item (path : List String) (key : String) (pairs : List Pair)

def addBlock (root : Entries) : Block → Option Entries
  | .table path key pairs =>
    changeAt false (fun _ entries => do
      let before ← match entries.get? key with
        | none => some []
        | some (.table .passedByHeader inner) => some inner
        | some _ => none
      let inner ← addPairs before pairs
      some (entries.erase key ++ [(key, .table .header inner)])) path .header root
  | .item path key pairs =>
    changeAt false (fun _ entries => do
      let before ← match entries.get? key with
        | none => some []
        | some (.tables items) => some items
        | some _ => none
      let inner ← addPairs [] pairs
      some (entries.set key (.tables (before ++ [inner])))) path .header root

mutual

def Node.toValue : Node → Value
  | .value v => v
  | .table _ entries => .table (entryValues entries)
  | .tables items => .array (itemValues items)

def entryValues : List (String × Node) → List (String × Value)
  | [] => []
  | (key, n) :: rest => (key, n.toValue) :: entryValues rest

def itemValues : List (List (String × Node)) → List Value
  | [] => []
  | entries :: rest => .table (entryValues entries) :: itemValues rest

end

/-- The table of a document: pairs before any header, then the blocks. -/
def tableOf? (pairs : List Pair) (blocks : List Block) : Option (List (String × Value)) := do
  let root ← addPairs [] pairs
  let root ← blocks.foldlM addBlock root
  some (entryValues root)

/-- A table written in braces, where only keys with dots make tables. -/
def inlineTable? (pairs : List Pair) : Option Value :=
  (addPairs [] pairs).map fun entries => .table (entryValues entries)

end HearingRelay.Toml
