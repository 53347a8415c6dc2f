import PeerBook.Journal.Frame
import PeerBook.Journal.LogFile

/-! # Recovery

Following the length fields, the bytes of a log split into complete frames
and a tail. The sound frames give the recovered entries, the others are
skipped, and recovering cuts the tail off.
-/

namespace PeerBook.Journal

/-- What stands at the front of the bytes of a log. -/
inductive Front where
  | finish
  /-- Bytes in which no complete frame starts. -/
  | torn
  | frame (header : Header) (payload rest : Bytes)

def front (bs : Bytes) : Front :=
  let h := Header.ofBytes bs
  let body := bs.drop headerSize
  if bs.isEmpty then .finish
  else if bs.length < headerSize then .torn
  else if !h.isFramed then .torn
  else if body.length < h.length.toNat then .torn
  else .frame h (body.take h.length.toNat) (body.drop h.length.toNat)

theorem length_lt_of_front {bs payload rest : Bytes} {h : Header}
    (hf : front bs = .frame h payload rest) : rest.length < bs.length := by
  unfold front headerSize at hf
  grind

structure Recovery where
  entries : List Entry
  corrupted : Nat
  /-- The length of the complete frames. -/
  kept : Nat
  truncated : Bool
  deriving DecidableEq, Repr

namespace Recovery

def none : Recovery where
  entries := []
  corrupted := 0
  kept := 0
  truncated := false

/-- One more complete frame in front. -/
def cons (h : Header) (payload : Bytes) (r : Recovery) : Recovery :=
  let r := { r with kept := headerSize + payload.length + r.kept }
  match h.verify payload with
  | .ok e => { r with entries := e :: r.entries }
  | .error _ => { r with corrupted := r.corrupted + 1 }

def ofBytes (bs : Bytes) : Recovery :=
  match hf : front bs with
  | .finish => none
  | .torn => { none with truncated := true }
  | .frame h payload rest =>
    have := length_lt_of_front hf
    cons h payload (ofBytes rest)
termination_by bs.length

/-- The largest sequence number recovered, or 0. -/
def lastLsn (r : Recovery) : UInt64 :=
  r.entries.foldl (fun last e => if last < e.lsn then e.lsn else last) 0

end Recovery

namespace LogFile

/-- What can be recovered from a file; the file stays as it is. -/
def verify (f : LogFile) : Recovery :=
  .ofBytes f.bytes

/-- Recovers from a file and cuts a torn tail off. -/
def recover (f : LogFile) : Recovery × LogFile :=
  let r := f.verify
  (r, if r.truncated then f.setSize r.kept else f)

end LogFile

end PeerBook.Journal
