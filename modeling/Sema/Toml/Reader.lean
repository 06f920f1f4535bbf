import Sema.Toml.Scalar

/-!
# Reading TOML

Arrays and inline tables nest at most seventy-nine deep, and a dotted key has at most as many
parts.
-/

namespace Sema.Toml

/-- How deep values nest, and how many parts a key may have. -/
def maxDepth : Nat := 79

/-- Skip white space, newlines and comments; `comment` is whether a comment is open. -/
def skipBlank (comment : Bool) : List Char → List Char
  | [] => []
  | c :: r =>
    if c == '\n' || (c == '\r' && r.head? == some '\n') then skipBlank false r
    else if comment then if isText c then skipBlank true r else c :: r
    else if isWs c then skipBlank false r
    else if c == '#' then skipBlank true r
    else c :: r

/-- The end of a line: white space, perhaps a comment, and a newline or the end of all. -/
def lineEnd (cs : List Char) : Option (List Char) :=
  let cs := match skipWs cs with
    | '#' :: r => r.dropWhile isText
    | cs => cs
  if cs.isEmpty then some [] else newline? cs

def isBare (c : Char) : Bool :=
  ('a' ≤ c && c ≤ 'z') || ('A' ≤ c && c ≤ 'Z') || c.isDigit || c == '_' || c == '-'

def simpleKey : Reader String
  | '"' :: r => (basic r.length r).map fun p => (String.ofList p.1, p.2)
  | '\'' :: r => (literal r).map fun p => (String.ofList p.1, p.2)
  | cs =>
    let k := cs.takeWhile isBare
    if k.isEmpty then none else some (String.ofList k, cs.dropWhile isBare)

def keyParts : Nat → Reader (List String)
  | 0, _ => none
  | n + 1, cs => do
    let (k, r) ← simpleKey (skipWs cs)
    match skipWs r with
    | '.' :: r =>
      let (ks, rest) ← keyParts n r
      return (k :: ks, rest)
    | r => return ([k], r)

/-- A key, dotted or not, with the white space around it. -/
def key (cs : List Char) : Option (List String × List Char) := keyParts maxDepth cs

mutual

/-- A value in which others nest at most `depth` deep; `n` bounds its length. -/
def value : Nat → Nat → Reader Value
  | 0, _, _ | _, _, [] => none
  | n + 1, depth, c :: r =>
    if c == '"' || c == '\'' then (string (c :: r)).map fun p => (.str p.1, p.2)
    else if c == '[' then
      match depth with
      | 0 => none
      | d + 1 => (elems n d r).map fun p => (.arr p.1, p.2)
    else if c == '\x7b' then
      match depth with
      | 0 => none
      | d + 1 =>
        match skipWs r with
        | '\x7d' :: rest => some (.table .inline [], rest)
        | r => do
          let (ps, rest) ← pairs n d r
          return (.table .inline (← insertAll ps []), rest)
    else
      match c :: r with
      | 't' :: 'r' :: 'u' :: 'e' :: rest => some (.bool true, rest)
      | 'f' :: 'a' :: 'l' :: 's' :: 'e' :: rest => some (.bool false, rest)
      | cs => quantity cs

/-- The elements of an array up to its closing bracket. -/
def elems : Nat → Nat → Reader (List Value)
  | 0, _, _ => none
  | n + 1, depth, cs =>
    match skipBlank false cs with
    | ']' :: r => some ([], r)
    | cs => do
      let (v, r) ← value n depth cs
      match skipBlank false r with
      | ',' :: r =>
        let (vs, rest) ← elems n depth r
        return (v :: vs, rest)
      | ']' :: rest => return ([v], rest)
      | _ => none

/-- The pairs of an inline table that has one, up to its closing brace. -/
def pairs : Nat → Nat → Reader (List (List String × Value))
  | 0, _, _ => none
  | n + 1, depth, cs => do
    let (k, r) ← key cs
    let (v, r) ← value n depth (skipWs (← expect '=' r))
    match skipWs r with
    | ',' :: r =>
      let (ps, rest) ← pairs n depth r
      return ((k, v) :: ps, rest)
    | '\x7d' :: rest => return ([(k, v)], rest)
    | _ => none

end

/-- A key and its value on a line of their own. -/
def pairLine (cs : List Char) : Option ((List String × Value) × List Char) := do
  let (k, r) ← key cs
  let r := skipWs (← expect '=' r)
  let (v, r) ← value (r.length + 1) maxDepth r
  return ((k, v), ← lineEnd r)

/-- A header after its first bracket. -/
def headerLine : Reader Section
  | '[' :: r => do
    let (k, r) ← key r
    let r ← lineEnd (← expect ']' (← expect ']' r))
    return (⟨k.dropLast, k.getLastD "", true, []⟩, r)
  | cs => do
    let (k, r) ← key cs
    let r ← lineEnd (← expect ']' r)
    return (⟨k.dropLast, k.getLastD "", false, []⟩, r)

/-- What the lines hold: the pairs up to the next header, then the sections. -/
def lines : Nat → List Char → Option (List (List String × Value) × List Section)
  | 0, _ => none
  | n + 1, cs =>
    match skipBlank false cs with
    | [] => some ([], [])
    | '[' :: r => do
      let (s, r) ← headerLine r
      let (ps, ss) ← lines n r
      return ([], { s with pairs := ps } :: ss)
    | cs => do
      let (p, r) ← pairLine cs
      let (ps, ss) ← lines n r
      return (p :: ps, ss)

/-- The table that a document denotes. A byte order mark may stand before it. -/
def parse? (text : String) : Option Entries := do
  let cs := match text.toList with
    | '﻿' :: r => r
    | cs => cs
  let (ps, ss) ← lines (cs.length + 1) cs
  assemble ps ss

end Sema.Toml
