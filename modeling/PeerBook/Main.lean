import PeerBook.Command.Run
import Std.Time.DateTime.Timestamp

/-! # The command line program

Reads the log of the data directory, runs the command and writes the log back
if the command changed it.
-/

namespace PeerBook.Command

/-- The bytes of a log, if there is one. -/
def readLog (path : String) : IO (Option Journal.LogFile) := do
  try
    let bytes ← IO.FS.readBinFile path
    return some (.ofBytes bytes.toList)
  catch _ =>
    return none

/-- Milliseconds since the Unix epoch; zero for a clock set before it. -/
def wallClock : IO UInt64 := do
  let now ← Std.Time.Timestamp.now
  return UInt64.ofNat now.toMillisecondsSinceUnixEpoch.toInt.toNat

/-- Runs an invocation on its data directory and prints the outcome; gives the exit code. -/
def execute (inv : Invocation) : IO UInt32 := do
  IO.FS.createDirAll inv.dataDir
  let path := inv.dataDir ++ "/wal.log"
  let before ← readLog path
  let ((lines, result), log) := run inv (← wallClock) before
  if log ≠ before then
    IO.FS.writeBinFile path ⟨((log.map (·.bytes)).getD []).toArray⟩
  for line in lines do
    IO.println line
  match result with
  | .ok () => return 0
  | .error err =>
    IO.eprintln err.message
    return 1

end PeerBook.Command

open PeerBook

def main (args : List String) : IO UInt32 := do
  match Command.read args with
  | .ok inv => Command.execute inv
  | .error .version =>
    IO.println Command.version
    return 0
  | .error .help =>
    IO.println Command.usage
    return 0
  | .error .usage =>
    IO.eprintln Command.usage
    return 2
