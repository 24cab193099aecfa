/-
# Building tables

A key or a header names a place by a path of keys. The tables on the way are
made where they are missing; which of those that are there may be passed
depends on how they came about.

Key definitions: `Way`, `modifyAt`, `put?`, `define?`.
-/
import QuartoPretext.Assoc
import QuartoPretext.Toml.Value

namespace QuartoPretext.Toml

open Assoc

/-- What a path belongs to. -/
inductive Way
  | header
  | key
  deriving Repr, DecidableEq

namespace Way

/-- Whether a path leads through a table. -/
def passes : Way → Origin → Bool
  | header, o => o != .inline
  | key, o => o == .implied || o == .dotted

/-- How the tables that a path makes came about. -/
def makes : Way → Origin
  | header => .implied
  | key => .dotted

end Way

/-- Changes the entries of the table that a path leads to. A list made by headers
stands for its last table. -/
def modifyAt (way : Way) (change : Origin → Entries → Option Entries) :
    List Text → Origin → Entries → Option Entries
  | [], origin, entries => change origin entries
  | k :: path, _, entries =>
    match entries.lookup k with
    | none =>
      (modifyAt way change path way.makes []).map fun inner =>
        put k (.table way.makes inner) entries
    | some (.table origin inner) =>
      if way.passes origin then
        (modifyAt way change path origin inner).map fun inner =>
          put k (.table origin inner) entries
      else none
    | some (.array true elements) =>
      match elements.getLast? with
      | some (.table origin inner) =>
        (modifyAt way change path origin inner).map fun inner =>
          put k (.array true (elements.dropLast ++ [.table origin inner])) entries
      | _ => none
    | some _ => none

/-- Gives a key its value, once. The table that a dotted key leads to was made by
dotted keys. -/
def put? (path : List Text) (k : Text) (v : Value) (entries : Entries) : Option Entries :=
  let change (origin : Origin) (inner : Entries) : Option Entries :=
    if (origin == .dotted) == path.isEmpty || (inner.lookup k).isSome then none
    else some (put k v inner)
  modifyAt .key change path .header entries

/-- Gives the table under a header its entries: a new one, one that longer headers
made, or the next one of a list. -/
def define? (ofList : Bool) (path : List Text) (k : Text) (fill : Entries → Option Entries)
    (entries : Entries) : Option Entries :=
  let change (_ : Origin) (outer : Entries) : Option Entries :=
    match ofList, outer.lookup k with
    | false, none => (fill []).map fun t => put k (.table .header t) outer
    | false, some (.table .implied inner) =>
      (fill inner).map fun t => put k (.table .header t) outer
    | true, none => (fill []).map fun t => put k (.array true [.table .header t]) outer
    | true, some (.array true elements) =>
      (fill []).map fun t => put k (.array true (elements ++ [.table .header t])) outer
    | _, _ => none
  modifyAt .header change path .header entries

end QuartoPretext.Toml
