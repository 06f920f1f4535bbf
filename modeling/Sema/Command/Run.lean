import Sema.Command.Arguments
import Sema.Json.Printer
import Sema.Manifest
import Sema.Report
import Sema.Syntax.Decode

/-!
# Running the command line

A run sees files through a `Disk` and comes to an `Outcome`.
-/

namespace Sema.Command

structure Outcome where
  /-- `0` for success, `1` for failure, `2` for a wrong command line. -/
  exit : UInt32
  out : String := ""
  /-- Lines for whoever runs the command. -/
  notes : List String := []

def version : String := "veritas 0.1.0\n"

def usage : String :=
  "Usage: veritas [OPTIONS] <COMMAND>\n\n" ++
  "Commands:\n" ++
  "  check  Type-check and ownership-check a serialized program\n" ++
  "  help   Print this message or the help of a command\n\n" ++
  "Options:\n" ++
  "  -v, --verbose  Say which manifest is used\n" ++
  "  -h, --help     Print help\n" ++
  "  -V, --version  Print version\n"

def checkUsage : String :=
  "Usage: veritas check [OPTIONS] <PATH>\n\n" ++
  "Options:\n" ++
  "      --source <SOURCE>          Source text the program's spans point into\n" ++
  "      --format <FORMAT>          human (default) or json\n" ++
  "      --no-ownership             Skip the ownership check\n" ++
  "      --no-effects               Skip the effect check\n" ++
  "      --max-errors <MAX_ERRORS>  Report at most so many errors of each kind (0 = all)\n" ++
  "  -v, --verbose                  Say which manifest is used\n" ++
  "  -h, --help                     Print help\n"

/-- The command line has the last word on the configuration. -/
def Options.configure (o : Options) (c : Config) : Config where
  ownership := c.ownership && !o.noOwnership
  effects := c.effects && !o.noEffects
  trackLifetimes := c.trackLifetimes
  maxErrors := o.maxErrors.getD c.maxErrors

/-- The outcome of an analysis, written as asked for. -/
def Options.outcome (o : Options) (a : Analysis) : Outcome :=
  let out :=
    match o.format with
    | .json => (a.report o.path).pretty ++ "\n"
    | .human => if a.ok then s!"ok: {o.path}\n" else ""
  let notes :=
    match o.format with
    | .json => []
    | .human => a.diagnostics.map fun d => s!"{d.code}: {d.text}"
  if a.ok then { exit := 0, out }
  else { exit := 1, out, notes := notes ++ [s!"check failed: {a.summary}"] }

def failure (note : String) : Outcome := { exit := 1, notes := [note] }

variable {m : Type → Type} [Monad m]

def check (disk : Disk m) (o : Options) : m Outcome := do
  match ← Manifest.load disk (.ofText o.path) with
  | .error fault => return failure fault.message
  | .ok manifest =>
    let config := o.configure manifest.check
    let some text := (← disk.look (.ofText o.path)).text?
      | return failure s!"failed to read {o.path}"
    let some program := Program.parse? text
      | return failure s!"failed to parse {o.path}"
    if let some source := o.source then
      if (← disk.look (.ofText source)).text?.isNone then
        return failure s!"failed to read {source}"
    let outcome := o.outcome ((analyze program.renumber config).limited config)
    match o.verbose, manifest.path with
    | true, some path => return { outcome with notes := s!"using {path.text}" :: outcome.notes }
    | _, _ => return outcome

/-- Do what a command line asks for. -/
def run (disk : Disk m) (args : List String) : m Outcome :=
  match request? args with
  | none => return { exit := 2, notes := [usage] }
  | some .help => return { exit := 0, out := usage }
  | some .checkHelp => return { exit := 0, out := checkUsage }
  | some .version => return { exit := 0, out := version }
  | some (.check o) => check disk o

end Sema.Command
