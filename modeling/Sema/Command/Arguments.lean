import Sema.Text.Decimal

/-!
# The command line

Words are read from left to right and the first thing that is wrong, or asks for help,
settles what the line means.
-/

namespace Sema.Command

inductive Format where
  | human | json
  deriving DecidableEq

def Format.ofName? : String → Option Format
  | "human" => some .human
  | "json" => some .json
  | _ => none

/-- What to check and how. -/
structure Options where
  path : String
  /-- The text that the program was read from. -/
  source : Option String
  format : Format
  noOwnership : Bool
  noEffects : Bool
  maxErrors : Option Nat
  verbose : Bool

inductive Request where
  | help
  | checkHelp
  | version
  | check (o : Options)

inductive Word where
  /-- Two hyphens: what follows are plain words. -/
  | stop
  | long (name : String) (value : Option String)
  | short (letters : List Char)
  | plain

def Word.ofText (s : String) : Word :=
  match s.toList with
  | ['-', '-'] => .stop
  | '-' :: '-' :: r =>
    .long (String.ofList (r.takeWhile (· != '=')))
      (match r.dropWhile (· != '=') with
        | [] => none
        | _ :: v => some (String.ofList v))
  | '-' :: c :: r => .short (c :: r)
  | _ => .plain

/-- What one word of letters leads to. -/
inductive Step where
  | next (verbose : Bool)
  | done (r : Request)

/-- Flags of one letter; each may be given once. -/
def letters (usage : Request) (hasVersion : Bool) (verbose : Bool) : List Char → Option Step
  | [] => some (.next verbose)
  | c :: cs =>
    if c = 'v' then if verbose then none else letters usage hasVersion true cs
    else if c = 'h' then some (.done usage)
    else if c = 'V' && hasVersion then some (.done .version)
    else none

/-- The options of a check as far as they have been given. -/
structure Draft where
  path : Option String := none
  source : Option String := none
  format : Option Format := none
  noOwnership : Bool := false
  noEffects : Bool := false
  maxErrors : Option Nat := none
  verbose : Bool := false

namespace Draft

def addPath (d : Draft) (s : String) : Option Draft :=
  if d.path.isSome || s = "" then none else some { d with path := some s }

/-- The options that take a value. -/
def valued : List String := ["source", "format", "max-errors"]

/-- Give an option its value, once. -/
def set (d : Draft) (name value : String) : Option Draft :=
  match name with
  | "source" =>
    if d.source.isSome || value = "" then none else some { d with source := some value }
  | "format" =>
    if d.format.isSome then none
    else (Format.ofName? value).map fun f => { d with format := some f }
  | "max-errors" =>
    if d.maxErrors.isSome then none
    else (word? value).map fun n => { d with maxErrors := some n }
  | _ => none

/-- Raise a flag, once. -/
def raise (d : Draft) (name : String) : Option Draft :=
  match name with
  | "no-ownership" => if d.noOwnership then none else some { d with noOwnership := true }
  | "no-effects" => if d.noEffects then none else some { d with noEffects := true }
  | "verbose" => if d.verbose then none else some { d with verbose := true }
  | _ => none

def request? (d : Draft) (verbose : Bool) : Option Request :=
  d.path.map fun path => .check {
    path
    source := d.source
    format := d.format.getD .human
    noOwnership := d.noOwnership
    noEffects := d.noEffects
    maxErrors := d.maxErrors
    verbose := verbose || d.verbose }

/-- Read the words after `check`. -/
def read (verbose : Bool) (d : Draft) : List String → Option Request
  | [] => d.request? verbose
  | s :: r =>
    match Word.ofText s with
    | .stop => (r.foldlM addPath d).bind (·.request? verbose)
    | .plain => (d.addPath s).bind fun d => read verbose d r
    | .short cs =>
      match letters .checkHelp false d.verbose cs with
      | none => none
      | some (.done req) => some req
      | some (.next v) => read verbose { d with verbose := v } r
    | .long name (some value) => (d.set name value).bind fun d => read verbose d r
    | .long name none =>
      if name = "help" then some .checkHelp
      else if valued.contains name then
        match r with
        | [] => none
        | value :: r =>
          match Word.ofText value with
          | .plain => (d.set name value).bind fun d => read verbose d r
          | _ => none
      else (d.raise name).bind fun d => read verbose d r

end Draft

/-- Read a command line; `verbose` is whether its flag has been seen. -/
def read (verbose : Bool) : List String → Option Request
  | [] => none
  | s :: r =>
    match Word.ofText s with
    | .plain =>
      match s, r with
      | "check", _ => Draft.read verbose {} r
      | "help", [] => some .help
      | "help", ["help"] => some .help
      | "help", ["check"] => some .checkHelp
      | _, _ => none
    | .short cs =>
      match letters .help true verbose cs with
      | none => none
      | some (.done req) => some req
      | some (.next v) => read v r
    | .long "verbose" none => if verbose then none else read true r
    | .long "help" none => some .help
    | .long "version" none => some .version
    | _ => none

/-- What a command line asks for, if it is right. -/
def request? (args : List String) : Option Request := read false args

end Sema.Command
