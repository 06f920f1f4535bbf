/-!
# Paths

A path is the text between its slashes. Going up from a path is a matter of its text alone:
it drops the last segment that counts, and `..` counts like a name. An empty segment never
counts, and `.` only where a relative path starts with it.
-/

namespace Sema

structure Path where
  /-- The text before the first slash. -/
  first : String
  rest : List String
  deriving DecidableEq, Inhabited

namespace Path

/-- Cut a text at its slashes. -/
def split : List Char → List Char × List (List Char)
  | [] => ([], [])
  | c :: r => if c = '/' then ([], (split r).1 :: (split r).2) else (c :: (split r).1, (split r).2)

/-- Undo `split`. -/
def unsplit : List Char × List (List Char) → List Char
  | (p, ps) => p ++ (ps.map ('/' :: ·)).flatten

@[simp] theorem unsplit_split (cs : List Char) : unsplit (split cs) = cs := by
  induction cs with
  | nil => rfl
  | cons c r ih =>
    by_cases h : c = '/' <;> simpa [split, unsplit, h] using ih

def ofText (s : String) : Path :=
  ⟨String.ofList (split s.toList).1, (split s.toList).2.map String.ofList⟩

def text (p : Path) : String :=
  String.ofList (unsplit (p.first.toList, p.rest.map String.toList))

@[simp] theorem text_ofText (s : String) : (ofText s).text = s := by
  have h : unsplit ((split s.toList).1, (split s.toList).2) = s.toList := unsplit_split _
  simp [text, ofText, Function.comp_def, h]

def empty : Path := ⟨"", []⟩

/-- Starting at the root. -/
def isAbsolute (p : Path) : Bool := p.first == "" && !p.rest.isEmpty

/-- A segment, other than the first, that does not count. -/
def isBlank (s : String) : Bool := s == "" || s == "."

/-- The path whose segments after the first are given from the last one, less those at the
end that do not count. -/
def trimmed (first : String) (back : List String) : Path :=
  match back.dropWhile isBlank with
  | [] => if first = "" then ⟨"", [""]⟩ else ⟨first, []⟩
  | back => ⟨first, back.reverse⟩

/-- The paths above the one whose segments are given from the last one. -/
def above (first : String) : List String → List Path
  | [] => if first = "" then [] else [empty]
  | s :: back => if isBlank s then above first back else trimmed first back :: above first back

/-- The paths above a path, nearest first. -/
def parents (p : Path) : List Path := above p.first p.rest.reverse

/-- The path of a name inside the directory at a path. -/
def join (p : Path) (name : String) : Path :=
  match p.rest.reverse with
  | [] => if p.first = "" then ⟨name, []⟩ else ⟨p.first, [name]⟩
  | s :: back => if s = "" then ⟨p.first, (name :: back).reverse⟩ else ⟨p.first, p.rest ++ [name]⟩

/-- The same relative path without the segments at its start that do not count. -/
def bare (p : Path) : Path :=
  if p.first = "." then
    match p.rest.dropWhile isBlank with
    | [] => empty
    | s :: r => ⟨s, r⟩
  else p

end Path

end Sema
