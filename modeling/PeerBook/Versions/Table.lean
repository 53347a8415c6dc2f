import PeerBook.SortedMap
import PeerBook.Versions.Chain

/-! # Multi-version tables

A table maps every key to its chain of versions and counts the bytes it
holds. Groups of writes are applied under one sequence number; scans read
the keys of a range in order at one point.
-/

namespace PeerBook

/-- A key with its value. -/
abbrev Binding := Bytes × Bytes

/-- Where a scan starts. -/
inductive Start where
  | first
  | at (key : Bytes)
  | after (key : Bytes)
  deriving DecidableEq, Repr

def Start.admits : Start → Bytes → Bool
  | .first, _ => true
  | .at key, k => !decide (k < key)
  | .after key, k => key < k

/-- Whether a key lies below the end of a range. -/
def isBelow (upper : Option Bytes) (k : Bytes) : Bool :=
  upper.all fun u => k < u

structure Table where
  chains : SortedMap Bytes Chain
  /-- Bytes of the keys and of the values kept. -/
  size : Nat

namespace Table

def empty : Table where
  chains := .empty
  size := 0

def keyCount (t : Table) : Nat :=
  t.chains.size

def versionCount (t : Table) : Nat :=
  t.chains.toList.foldl (fun n b => n + b.2.length) 0

def isEmpty (t : Table) : Bool :=
  t.chains.isEmpty

def readAt (t : Table) (key : Bytes) (s : UInt64) : Option Bytes :=
  (t.chains.find? key).bind (Chain.readAt s)

def readLatest (t : Table) (key : Bytes) : Option Bytes :=
  t.readAt key 0xFFFFFFFFFFFFFFFF

/-- The chains while a group of writes is applied, with the bytes added and removed so far. -/
structure Progress where
  chains : SortedMap Bytes Chain
  added : Nat
  removed : Nat

def Progress.write (seq floor : UInt64) (p : Progress) (b : Binding) : Progress :=
  let (chain, keyBytes) := match p.chains.find? b.1 with
    | some chain => (chain, 0)
    | none => ([], b.1.length)
  let (written, replaced) := Chain.write seq b.2 chain
  let (kept, released) := Chain.prune floor written
  { chains := p.chains.insert b.1 kept
    added := p.added + b.2.length + keyBytes
    removed := p.removed + replaced + released }

/-- Runs the writes of one group over the chains. -/
def progress (t : Table) (seq floor : UInt64) (writes : List Binding) : Progress :=
  writes.foldl (Progress.write seq floor) ⟨t.chains, 0, 0⟩

/-- Applies a group of writes under one sequence number, pruning each chain written at `floor`. -/
def apply (t : Table) (seq : UInt64) (writes : List Binding) (floor : UInt64) : Table :=
  let p := t.progress seq floor writes
  { chains := p.chains, size := t.size + p.added - p.removed }

/-- What a read at point `s` sees, in order of keys. -/
def viewAt (t : Table) (s : UInt64) : List Binding :=
  t.chains.toList.filterMap fun (key, chain) => (Chain.readAt s chain).map fun value => (key, value)

/-- Reads up to `limit` bindings of a range at point `s`, but at least one if there is one. -/
def scanAt (t : Table) (s : UInt64) (start : Start) (upper : Option Bytes) (limit : Nat) :
    List Binding :=
  (((t.viewAt s).filter fun b => start.admits b.1).takeWhile fun b => isBelow upper b.1).take
    (max limit 1)

end Table

end PeerBook
