/-!
# TOML documents as trees

A table remembers how it came to be, because that decides what may be added to it: dotted
keys extend only what dotted keys made, and a header opens a table that was only implied by
longer headers. Numbers and times that are not whole numbers are recognised and not kept.
-/

namespace Sema.Toml

inductive Origin where
  /-- Written in braces, complete. -/
  | inline
  /-- Opened by its own header. -/
  | header
  /-- Implied by the header of a table inside it. -/
  | implied
  /-- Made by a dotted key. -/
  | dotted
  deriving DecidableEq

inductive Value where
  | str (s : String)
  | int (n : Int)
  | bool (b : Bool)
  | float
  | time
  | arr (elems : List Value)
  | table (origin : Origin) (entries : List (String × Value))
  /-- An array of tables, one for each header in double brackets. -/
  | tables (elems : List (List (String × Value)))

abbrev Entries := List (String × Value)

/-- Replace the value of a key that is there. -/
def Entries.set (es : Entries) (k : String) (v : Value) : Entries :=
  es.map fun e => if e.1 = k then (k, v) else e

/-- Add a value under a path of keys, none of which may hold a value already. -/
def insert (v : Value) : List String → Entries → Option Entries
  | [], _ => none
  | [k], es => if (es.lookup k).isSome then none else some (es ++ [(k, v)])
  | k :: j :: path, es =>
    match es.lookup k with
    | none => (insert v (j :: path) []).map fun t => es ++ [(k, .table .dotted t)]
    | some (.table .dotted t) =>
      (insert v (j :: path) t).map fun t => es.set k (.table .dotted t)
    | some (.table .implied t) =>
      if path.isEmpty then none
      else (insert v (j :: path) t).map fun t => es.set k (.table .implied t)
    | some (.tables ts) =>
      match path, ts.getLast? with
      | _ :: _, some t =>
        (insert v (j :: path) t).map fun t => es.set k (.tables (ts.dropLast ++ [t]))
      | _, _ => none
    | some _ => none

/-- Add the pairs of a path and a value, in order. -/
def insertAll : List (List String × Value) → Entries → Option Entries
  | [], es => some es
  | (path, v) :: r, es => (insert v path es).bind (insertAll r)

/-- Change the table at the end of a path, making the tables on the way that are missing. -/
def descend (f : Entries → Option Entries) : List String → Entries → Option Entries
  | [], es => f es
  | k :: path, es =>
    match es.lookup k with
    | none => (descend f path []).map fun t => es ++ [(k, .table .implied t)]
    | some (.table .inline _) => none
    | some (.table o t) => (descend f path t).map fun t => es.set k (.table o t)
    | some (.tables ts) =>
      match ts.getLast? with
      | some t => (descend f path t).map fun t => es.set k (.tables (ts.dropLast ++ [t]))
      | none => none
    | some _ => none

/-- A header and the pairs below it. -/
structure Section where
  path : List String
  key : String
  /-- In double brackets. -/
  repeated : Bool
  pairs : List (List String × Value)

/-- Add a section inside the table that its path leads to. -/
def Section.addTo (s : Section) (es : Entries) : Option Entries :=
  match es.lookup s.key, s.repeated with
  | none, false => (insertAll s.pairs []).map fun t => es ++ [(s.key, .table .header t)]
  | none, true => (insertAll s.pairs []).map fun t => es ++ [(s.key, .tables [t])]
  | some (.table .implied t), false =>
    (insertAll s.pairs t).map fun t => es.set s.key (.table .header t)
  | some (.tables ts), true =>
    (insertAll s.pairs []).map fun t => es.set s.key (.tables (ts ++ [t]))
  | some _, _ => none

/-- The document made of pairs without a header and of sections. -/
def assemble (pairs : List (List String × Value)) (sections : List Section) : Option Entries := do
  sections.foldlM (fun es s => descend s.addTo s.path es) (← insertAll pairs [])

end Sema.Toml
