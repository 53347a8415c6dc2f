import PeerBook.Proofs.Engine.Sound

/-! # Engines in use

A desk is an engine with all that its users have opened: snapshots, cursors
and batches, each named by its place. Users act in any order; time passes
between their actions, and the device that the log is kept on may fail.
-/

namespace PeerBook

open Journal

structure Desk where
  mounted : Mounted
  /-- The snapshots opened so far, with nothing in the place of a closed one. -/
  snapshots : List (Option Snapshot)
  cursors : List (Option Cursor)
  batches : List Batch

inductive Action where
  | set (key value : Bytes)
  | newBatch
  | put (batch : Nat) (key value : Bytes)
  | commit (batch : Nat)
  | openSnapshot
  | closeSnapshot (snapshot : Nat)
  | openCursor (snapshot : Nat) (lower : Bytes) (upper : Option Bytes)
  | first (cursor : Nat)
  | next (cursor : Nat)
  | closeCursor (cursor : Nat)
  | sync
  | tick (clock : UInt64)
  /-- The log's device changes its mind on what it takes and whether it stores it. -/
  | device (room : Option Nat) (syncs : Bool)
  deriving DecidableEq, Repr

/-- Whether an action has nothing to do with the log. -/
def Action.isQuiet : Action → Bool
  | .set _ _ | .commit _ | .sync => false
  | _ => true

namespace Desk

def start (m : Mounted) : Desk where
  mounted := m
  snapshots := []
  cursors := []
  batches := []

def engine (d : Desk) : Engine :=
  d.mounted.engine

def snapshot? (d : Desk) (i : Nat) : Option Snapshot :=
  d.snapshots[i]?.join

def cursor? (d : Desk) (i : Nat) : Option Cursor :=
  d.cursors[i]?.join

def commit (d : Desk) (i : Nat) : Desk :=
  match d.batches[i]? with
  | some b =>
    let ((_, b), m) := d.mounted.commit b
    { d with mounted := m, batches := d.batches.set i b }
  | none => d

def openSnapshot (d : Desk) : Desk :=
  let (s, m) := d.mounted.openSnapshot
  { d with mounted := m, snapshots := d.snapshots ++ [some s] }

def closeSnapshot (d : Desk) (i : Nat) : Desk :=
  match d.snapshot? i with
  | some s => { d with mounted := d.mounted.unpin s.seq, snapshots := d.snapshots.set i none }
  | none => d

def openCursor (d : Desk) (i : Nat) (lower : Bytes) (upper : Option Bytes) : Desk :=
  match d.snapshot? i with
  | some s =>
    let (c, m) := d.mounted.openCursor s lower upper
    { d with mounted := m, cursors := d.cursors ++ [some c] }
  | none => d

def move (d : Desk) (i : Nat) (f : Table → Cursor → Cursor) : Desk :=
  match d.cursor? i with
  | some c => { d with cursors := d.cursors.set i (some (f d.engine.table c)) }
  | none => d

def closeCursor (d : Desk) (i : Nat) : Desk :=
  match d.cursor? i with
  | some c => { d with mounted := d.mounted.unpin c.seq, cursors := d.cursors.set i none }
  | none => d

def step (d : Desk) : Action → Desk
  | .set key value => { d with mounted := (d.mounted.set key value).2 }
  | .newBatch => { d with batches := d.batches ++ [.empty] }
  | .put i key value => { d with batches := d.batches.modify i (·.put key value) }
  | .commit i => d.commit i
  | .openSnapshot => d.openSnapshot
  | .closeSnapshot i => d.closeSnapshot i
  | .openCursor i lower upper => d.openCursor i lower upper
  | .first i => d.move i Cursor.first
  | .next i => d.move i Cursor.next
  | .closeCursor i => d.closeCursor i
  | .sync => { d with mounted := d.mounted.sync.2 }
  | .tick clock => { d with mounted := { d.mounted with clock } }
  | .device room syncs =>
    { d with mounted := { d.mounted with file := { d.mounted.file with room, syncs } } }

def run (d : Desk) (as : List Action) : Desk :=
  as.foldl step d

/-- The operation that an action commits, if the engine takes it. -/
def committed (d : Desk) : Action → Option Operation
  | .set key value =>
    match (d.mounted.set key value).1 with
    | .ok () => some (.put key value)
    | .error _ => none
  | .commit i =>
    match d.batches[i]? with
    | some b =>
      match (d.mounted.commit b).1.1 with
      | .ok () => if b.writes.isEmpty then none else some (.batch b.writes)
      | .error _ => none
    | none => none
  | _ => none

/-- Every commit of a run finds a sequence number left. -/
def CommitsLast : Desk → List Action → Prop
  | _, [] => True
  | d, a :: as => (d.committed a ≠ none → d.engine.Lasts) ∧ (d.step a).CommitsLast as

instance decidableCommitsLast : (d : Desk) → (as : List Action) → Decidable (d.CommitsLast as)
  | _, [] => .isTrue trivial
  | d, a :: as =>
    have := decidableCommitsLast (d.step a) as
    inferInstanceAs (Decidable (_ ∧ _))

/-- How many of the things in their places have a sequence number. -/
def standing {α : Type} (seq : α → UInt64) (l : List (Option α)) (s : UInt64) : Nat :=
  l.countP (·.any (seq · = s))

/-- How many snapshots and cursors are open at a sequence number. -/
def holders (d : Desk) (s : UInt64) : Nat :=
  standing Snapshot.seq d.snapshots s + standing Cursor.seq d.cursors s

end Desk

end PeerBook
