import Sema.Config
import Sema.Files.Tree
import Sema.Toml.Reader

/-!
# Manifests

The nearest manifest at a path or above it configures an analysis of what stands
there. Of its contents only `check` is read.
-/

namespace Sema

/-- A configuration from its fields in order; those that are missing have their default. -/
def Config.ofFields? (ownership effects trackLifetimes maxErrors : Option Toml.Value) :
    Option Config := do
  return {
    ownership := ← flag true ownership
    effects := ← flag true effects
    trackLifetimes := ← flag false trackLifetimes
    maxErrors := ← count maxErrors }
where
  flag (default : Bool) : Option Toml.Value → Option Bool
    | none => some default
    | some (.bool b) => some b
    | some _ => none
  count : Option Toml.Value → Option Nat
    | none => some 0
    | some (.int n) => if 0 ≤ n then some n.toNat else none
    | some _ => none

/-- A configuration is a table with no keys but its fields, or an array of the fields, of
which more may follow. -/
def Config.ofToml? : Toml.Value → Option Config
  | .table _ entries => do
    guard (entries.all fun e => Config.keys.contains e.1)
    Config.ofFields? (entries.lookup "ownership") (entries.lookup "effects")
      (entries.lookup "track_lifetimes") (entries.lookup "max_errors")
  | .arr elems => Config.ofFields? elems[0]? elems[1]? elems[2]? elems[3]?
  | _ => none

/-- The manifest in force. -/
structure Manifest where
  /-- Where it was found; `none` for the defaults. -/
  path : Option Path := none
  check : Config := {}

inductive ManifestFault where
  | unreadable (path : Path)
  | malformed (path : Path)

namespace ManifestFault

/-- What could not be done with the manifest. -/
def verb : ManifestFault → String
  | .unreadable _ => "read"
  | .malformed _ => "parse"

def path : ManifestFault → Path
  | .unreadable p | .malformed p => p

def message (f : ManifestFault) : String := s!"manifest error: failed to {f.verb} {f.path.text}"

def code : String := "veritas::manifest"

end ManifestFault

namespace Manifest

def fileName : String := "veritas.toml"

/-- Where to look for the manifest, in order. What a file denotes is no directory. -/
def candidates (start : Path) (isFile : Bool) : List Path :=
  (if isFile then start.parents else start :: start.parents).map (·.join fileName)

variable {m : Type → Type} [Monad m]

/-- The first of the paths at which there is a file. -/
def firstFile (disk : Disk m) : List Path → m (Option (Path × Entry))
  | [] => return none
  | p :: r => do
    let e ← disk.look p
    if e.isFile then return some (p, e) else firstFile disk r

/-- The nearest manifest at a path or above it. -/
def find (disk : Disk m) (start : Path) : m (Option (Path × Entry)) := do
  firstFile disk (candidates start (← disk.look start).isFile)

/-- What a manifest says. -/
def ofText? (text : String) : Option Config := do
  let entries ← Toml.parse? text
  match entries.lookup "check" with
  | none => some {}
  | some v => Config.ofToml? v

def ofEntry (path : Path) (e : Entry) : Except ManifestFault Manifest :=
  match e.text? with
  | none => .error (.unreadable path)
  | some text =>
    match ofText? text with
    | none => .error (.malformed path)
    | some check => .ok { path, check }

/-- The manifest in force at a path. -/
def load (disk : Disk m) (start : Path) : m (Except ManifestFault Manifest) := do
  match ← find disk start with
  | none => return .ok {}
  | some (path, e) => return ofEntry path e

end Manifest

end Sema
