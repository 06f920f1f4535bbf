import Sema.Command.Run

/-!
# The program

Files are read from disk, relative paths starting at the working directory.
-/

namespace Sema

def realDisk : Disk IO where
  look p := do
    let path := (← IO.currentDir) / p.text
    if p = .empty then return .missing
    if ← path.isDir then return .directory
    if !(← path.pathExists) then return .missing
    try return .file (some (← IO.FS.readFile path)) catch _ => return .file none

end Sema

def main (args : List String) : IO UInt32 := do
  let outcome ← Sema.Command.run Sema.realDisk args
  IO.print outcome.out
  for note in outcome.notes do
    IO.eprintln note
  return outcome.exit
