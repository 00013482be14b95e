import Torrent.Cli.Command
import Torrent.Machine.Live

/-!
# The program

The command line carried out on the machine that it was given on.
-/

namespace Torrent.Machine

/-- The log of a run opened.  A log of an earlier run is emptied. -/
def openLog (directory : List Char) : IO (Except IoError Unit) := do
  let log := Path.join directory Cli.logName.toList
  let old ← treeOf [directory, log]
  let (made, new) := old.makeDirectories directory
  match ← attempt (makeNew old new) with
  | .error e => return .error e
  | .ok () =>
    match made with
    | .error e => return .error e
    | .ok () => attempt (IO.FS.writeBinFile (String.ofList log) .empty)

/-- This machine. -/
def host : Cli.Host IO where
  readFile path := read (String.ofList path)
  env name := IO.getEnv name
  say line := IO.println line
  openLog directory _ := openLog directory
  fetch := fetch

end Torrent.Machine

/-- The command line carried out. -/
def main (args : List String) : IO UInt32 := do
  let exit ← Torrent.Cli.execute Torrent.Machine.host args
  IO.eprint exit.message
  return UInt32.ofNat exit.code
