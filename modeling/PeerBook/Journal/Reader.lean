import PeerBook.Journal.Recovery

/-! # Reading a log entry by entry

A reader fetches the file in blocks and takes frames from what it fetched.
Bytes that it fetched stay as they were when the file changes; bytes that it
took from a torn frame are gone, though its position stays.
-/

namespace PeerBook.Journal

def blockSize : Nat := 8192

structure Reader where
  /-- Fetched and not yet taken. -/
  ahead : Bytes
  /-- How many bytes of the file were fetched. -/
  fetched : Nat
  /-- Where the next frame starts. -/
  position : Nat
  deriving DecidableEq, Repr

namespace Reader

def start : Reader where
  ahead := []
  fetched := 0
  position := 0

/-- Takes `n` bytes, or all that are left. A request that is short of less than a block fetches a
whole block; a larger one fetches what it is short of. -/
def take (f : LogFile) (n : Nat) (r : Reader) : Bytes × Reader :=
  let short := n - r.ahead.length
  let block := if short = 0 then [] else f.read r.fetched (max short blockSize)
  let bytes := r.ahead ++ block
  (bytes.take n, { r with ahead := bytes.drop n, fetched := r.fetched + block.length })

/-- What a reader finds at its position. -/
inductive Found where
  | entry (e : Entry)
  | finish
  | torn (offset : Nat)
  | corrupt (offset : Nat) (defect : Defect)
  deriving DecidableEq, Repr

def find (f : LogFile) (r : Reader) : Found × Reader :=
  let (header, afterHeader) := r.take f headerSize
  let h := Header.ofBytes header
  if header.isEmpty then (.finish, afterHeader)
  else if header.length < headerSize then (.torn r.position, afterHeader)
  else if !h.isFramed then (.torn r.position, afterHeader)
  else
    let (payload, afterPayload) := afterHeader.take f h.length.toNat
    if payload.length < h.length.toNat then (.torn r.position, afterPayload)
    else
      let next := { afterPayload with position := r.position + (headerSize + payload.length) }
      match h.verify payload with
      | .ok e => (.entry e, next)
      | .error defect => (.corrupt r.position defect, next)

/-- Why a log cannot be read on. -/
inductive Trouble where
  | torn (offset : Nat)
  | corrupt (offset : Nat) (defect : Defect)
  deriving DecidableEq, Repr

def Trouble.message : Trouble → String
  | .torn offset => "truncated frame at offset " ++ Numeral.natural offset
  | .corrupt offset defect => "offset " ++ Numeral.natural offset ++ ": " ++ defect.message

/-- The next entry, or none at the end. -/
def next (f : LogFile) (r : Reader) : Except Trouble (Option Entry) × Reader :=
  match r.find f with
  | (.entry e, r) => (.ok (some e), r)
  | (.finish, r) => (.ok none, r)
  | (.torn offset, r) => (.error (.torn offset), r)
  | (.corrupt offset defect, r) => (.error (.corrupt offset defect), r)

/-- The entries up to the end or the first trouble, `fuel` of them at most. -/
def entriesWithin (f : LogFile) : Nat → Reader → List Entry × Option Trouble
  | 0, _ => ([], none)
  | fuel + 1, r =>
    match r.next f with
    | (.ok (some e), r) =>
      let (es, trouble) := entriesWithin f fuel r
      (e :: es, trouble)
    | (.ok none, _) => ([], none)
    | (.error trouble, _) => ([], some trouble)

/-- The entries up to the end or the first trouble. -/
def entries (f : LogFile) (r : Reader) : List Entry × Option Trouble :=
  entriesWithin f (r.ahead.length + f.size + 1) r

end Reader

end PeerBook.Journal
