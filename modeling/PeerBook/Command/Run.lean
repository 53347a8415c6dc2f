import PeerBook.Command.Arguments
import PeerBook.Engine.Mounted
import PeerBook.Store.Lookup
import PeerBook.Store.Scan
import PeerBook.Store.Write

/-! # Running a command

A command opens the store of a data directory, acts on it, and forces the log
to disk. What it prints before it fails stays printed.
-/

namespace PeerBook

open Journal

/-- A peer on one line; a hyphen stands for what it does not have. -/
def Peer.line (p : Peer) : String :=
  p.identity.toText ++ "\thash=" ++ Numeral.integer p.accessHash.toInt ++
    "\tusername=" ++ p.username.getD "-" ++ "\tphone=" ++ p.phone.getD "-" ++
    "\tname=" ++ Quoted.quote p.displayName

namespace Command

/-- Lines printed, and how a command ended. -/
abbrev Outcome := List String × Except StoreError Unit

def shown (r : Except StoreError Peer) : Outcome :=
  match r with
  | .ok p => ([p.line], .ok ())
  | .error err => if err.isNotFound then (["(not found)"], .ok ()) else ([], .error err)

def confirmed (r : Except StoreError Unit) : Outcome :=
  match r with
  | .ok () => (["OK"], .ok ())
  | .error err => ([], .error err)

/-- Acts on the store of a layout; new peers are stamped with `clock`. -/
def act (l : Layout) (clock : UInt64) : Action → StateM (Session Mounted) Outcome
  | .add key accessHash username phone displayName => do
    let p := { Peer.new key accessHash clock with username, phone, displayName }
    return confirmed (← (Store.add l .background p).run)
  | .assign a key => do
    let op : StoreM Mounted Unit := do
      let p ← Store.find l .background key
      Store.assign l .background a p
    return confirmed (← op.run)
  | .find key => do
    return shown (← (Store.find l .background key).run)
  | .resolve a => do
    return shown (← (Store.resolve l .background a).run)
  | .list => do
    let (lines, result) ←
      Store.forEach l .background (fun lines p => pure (lines ++ [p.line])) []
    match result with
    | .ok () => return (lines ++ ["(" ++ Numeral.natural lines.length ++ " peers)"], .ok ())
    | .error err => return (lines, .error err)

/-- Runs an invocation on the log of its data directory; gives the log as it is afterwards. -/
def run (inv : Invocation) (clock : UInt64) (log : Option LogFile) : Outcome × Option LogFile :=
  let settings := { Settings.standard with dataDir := inv.dataDir, layout := inv.layout }
  let mounted := Mounted.load settings.pageSize settings.sync clock log
  match Store.opening settings.dataDir mounted with
  | .error err => (([], .error err), log)
  | .ok m =>
    match act settings.layout clock inv.action (.start m) with
    | ((lines, .error err), s) => ((lines, .error err), some s.engine.file)
    | ((lines, .ok ()), s) =>
      let synced := s.engine.sync.1.mapError fun source => .release "wal" source
      ((lines, synced), some s.engine.file)

def version : String := "peerkv 0.1.0"

def usage : String := "usage: peerkv [--data-dir <dir>] [--flat] add|assign|find|resolve|list ..."

end Command

end PeerBook
