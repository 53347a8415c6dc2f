import PeerBook.Bytes.Basic

/-! # Log files

The file that a journal is kept in: its bytes, the room that is left on its
device, and whether the device confirms that it has stored them.
-/

namespace PeerBook.Journal

structure LogFile where
  bytes : Bytes
  /-- How many bytes the device still takes; without a number, all. -/
  room : Option Nat
  /-- Whether forcing the file to disk succeeds. -/
  syncs : Bool
  /-- Whether the file reads as zeros without end, as a device may. -/
  endless : Bool
  deriving DecidableEq, Repr

namespace LogFile

def ofBytes (bytes : Bytes) : LogFile where
  bytes
  room := none
  syncs := true
  endless := false

def empty : LogFile := ofBytes []

/-- A device that takes nothing and reads as zeros. -/
def fullDevice : LogFile where
  bytes := []
  room := some 0
  syncs := false
  endless := true

def size (f : LogFile) : Nat :=
  f.bytes.length

/-- Up to `n` bytes at `offset`. -/
def read (f : LogFile) (offset n : Nat) : Bytes :=
  if f.endless then List.replicate n 0 else (f.bytes.drop offset).take n

/-- Writes at the end as much of `bs` as there is room for; says whether that was all. -/
def append (f : LogFile) (bs : Bytes) : Bool × LogFile :=
  match f.room with
  | none => (true, { f with bytes := f.bytes ++ bs })
  | some room =>
    (bs.length ≤ room,
      { f with bytes := f.bytes ++ bs.take room, room := some (room - bs.length) })

/-- Cuts the file, or fills it up with zeros, to `n` bytes. -/
def setSize (f : LogFile) (n : Nat) : LogFile :=
  { f with bytes := f.bytes.take n ++ List.replicate (n - f.size) 0 }

/-- Loses the last `n` bytes. -/
def cutEnd (f : LogFile) (n : Nat) : LogFile :=
  { f with bytes := f.bytes.take (f.size - n) }

/-- Changes the bits of `mask` in the byte at `offset`. -/
def flip (f : LogFile) (offset : Nat) (mask : UInt8) : LogFile :=
  { f with bytes := f.bytes.modify offset (· ^^^ mask) }

end LogFile

end PeerBook.Journal
