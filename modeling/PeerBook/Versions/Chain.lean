import PeerBook.Bytes.Basic

/-! # Version chains

A chain holds the versions of one key in the order in which they were
written. A read at a point takes the version nearest to the end that is not
newer than the point. Pruning at a floor drops the versions that no read at
or above the floor can take.
-/

namespace PeerBook

structure Version where
  seq : UInt64
  value : Bytes
  deriving DecidableEq, Repr

abbrev Chain := List Version

namespace Chain

/-- The value that a read at point `s` takes. -/
def readAt (s : UInt64) : Chain → Option Bytes
  | [] => none
  | v :: rest =>
    match readAt s rest with
    | some value => some value
    | none => if v.seq ≤ s then some v.value else none

/-- Writes a value at the end, over the last version if it has the same sequence number. Also
gives the number of bytes written over. -/
def write (seq : UInt64) (value : Bytes) : Chain → Chain × Nat
  | [] => ([⟨seq, value⟩], 0)
  | [v] => if v.seq = seq then ([⟨seq, value⟩], v.value.length) else ([v, ⟨seq, value⟩], 0)
  | v :: rest =>
    let (chain, replaced) := write seq value rest
    (v :: chain, replaced)

/-- Splits a chain into the versions that pruning at `floor` drops and those that it keeps: the
kept ones start at the last version at or below the floor. -/
def split (floor : UInt64) : Chain → Chain × Chain
  | [] => ([], [])
  | v :: rest =>
    if rest.any (·.seq ≤ floor) then
      let (dropped, kept) := split floor rest
      (v :: dropped, kept)
    else ([], v :: rest)

/-- The number of value bytes in a chain. -/
def bytes : Chain → Nat
  | [] => 0
  | v :: rest => v.value.length + bytes rest

/-- The pruned chain and the number of value bytes dropped. -/
def prune (floor : UInt64) (chain : Chain) : Chain × Nat :=
  let (dropped, kept) := chain.split floor
  (kept, Chain.bytes dropped)

end Chain

end PeerBook
