import PeerBook.Error
import PeerBook.Journal.Frame
import PeerBook.Journal.LogFile
import PeerBook.Settings

/-! # Appending to a log

An appender numbers entries and writes their frames at the end of a log. An
append that fails on the way cuts the file back to the length it had and
uses no number.
-/

namespace PeerBook.Journal

structure Appender where
  /-- The sequence number of the last entry. -/
  lsn : UInt64
  /-- The length of the log as the appender wrote it. -/
  length : Nat
  policy : SyncPolicy
  /-- Entries written since the log was last forced to disk. -/
  unsynced : Nat
  deriving DecidableEq, Repr

namespace Appender

def noSpace : String := "No space left on device (os error 28)"

def invalidArgument : String := "Invalid argument (os error 22)"

/-- Goes on after `lsn` at the end of a file. -/
def start (policy : SyncPolicy) (lsn : UInt64) (f : LogFile) : Appender where
  lsn
  length := f.size
  policy
  unsynced := 0

def isEmpty (w : Appender) : Bool :=
  w.length = 0

/-- Whether the policy asks for a sync after `count` entries without one. -/
def isDue (w : Appender) (count : Nat) : Bool :=
  match w.policy with
  | .everyWrite => true
  | .everyEntries n => n ≤ count

def oversize (size : Nat) : EngineError :=
  .logWrite ("entry of " ++ Numeral.natural size ++ " bytes exceeds limit of " ++
    Numeral.natural maxPayload ++ " bytes")

def failure (verb : String) (lsn : UInt64) (cause : String) : EngineError :=
  .logWrite (verb ++ " LSN " ++ Numeral.natural lsn.toNat ++ ": " ++ cause)

/-- Writes an operation as the next entry, forcing it to disk when that is due. -/
def append (timestamp : UInt64) (operation : Operation) (w : Appender) (f : LogFile) :
    Except EngineError Entry × Appender × LogFile :=
  let e : Entry := { lsn := w.lsn + 1, operation, timestamp }
  match e.frame with
  | .error size => (.error (oversize size), w, f)
  | .ok frame =>
    match f.append frame with
    | (false, f) => (.error (failure "append" e.lsn noSpace), w, f.setSize w.length)
    | (true, f) =>
      let w' := { w with lsn := e.lsn, length := w.length + frame.length }
      if w.isDue (w.unsynced + 1) then
        if f.syncs then (.ok e, { w' with unsynced := 0 }, f)
        else (.error (failure "sync" e.lsn invalidArgument),
          { w with unsynced := w.unsynced + 1 }, f.setSize w.length)
      else (.ok e, { w' with unsynced := w.unsynced + 1 }, f)

/-- Forces the log to disk. -/
def sync (w : Appender) (f : LogFile) : Except EngineError Unit × Appender :=
  if f.syncs then (.ok (), { w with unsynced := 0 }) else (.error (.io invalidArgument), w)

end Appender

end PeerBook.Journal
