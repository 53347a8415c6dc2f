import PeerBook.Backend

/-! # The rehearsal engine

An ordered engine over a plain sorted map that counts what it hands out and
fails where it is told to. A snapshot copies the map, and a cursor copies its
range.
-/

namespace PeerBook

inductive Fault where
  | get
  | commit
  | newSnapshot
  | newCursor
  | snapshotClose
  | cursorClose
  | batchClose
  /-- Cursors walk every key, whatever their bounds. -/
  | ignoreBounds
  deriving DecidableEq, Repr

/-- How many were opened and closed. -/
structure Tally where
  opened : Nat
  closed : Nat
  deriving DecidableEq, Repr

def Tally.zero : Tally where
  opened := 0
  closed := 0

def Tally.opening (t : Tally) : Tally :=
  { t with opened := t.opened + 1 }

def Tally.closing (t : Tally) : Tally :=
  { t with closed := t.closed + 1 }

structure Rehearsal where
  data : SortedMap Bytes Bytes
  faults : List Fault
  snapshots : Tally
  cursors : Tally
  batches : Tally
  commits : Nat

namespace Rehearsal

def empty : Rehearsal where
  data := .empty
  faults := []
  snapshots := .zero
  cursors := .zero
  batches := .zero
  commits := 0

def fails (r : Rehearsal) (f : Fault) : Bool :=
  r.faults.contains f

def injected (what : String) : EngineError :=
  .io ("injected " ++ what ++ " failure")

/-- `a`, unless the engine is told to fail. -/
def guarded {α : Type} (r : Rehearsal) (f : Fault) (what : String) (a : α) : Except EngineError α :=
  if r.fails f then .error (injected what) else .ok a

def writeAll (data : SortedMap Bytes Bytes) (writes : List Binding) : SortedMap Bytes Bytes :=
  writes.foldl (fun data b => data.insert b.1 b.2) data

def isWithin (lower : Bytes) (upper : Option Bytes) (key : Bytes) : Bool :=
  !decide (key < lower) && isBelow upper key

/-- The bindings that a cursor opened now walks. -/
def range (r : Rehearsal) (data : SortedMap Bytes Bytes) (lower : Bytes) (upper : Option Bytes) :
    List Binding :=
  data.toList.filter fun b => r.fails .ignoreBounds || isWithin lower upper b.1

/-- A copied range and what is left of it from where the cursor stands. -/
structure Cursor where
  entries : List Binding
  rest : List Binding

end Rehearsal

instance : Backend Rehearsal where
  Snapshot := SortedMap Bytes Bytes
  Cursor := Rehearsal.Cursor
  Batch := List Binding
  get r key := r.guarded .get "get" (r.data.find? key)
  set key value r := (.ok (), { r with data := r.data.insert key value })
  newBatch r := ([], { r with batches := r.batches.opening })
  put b key value := b ++ [(key, value)]
  commit b r :=
    if r.fails .commit then ((.error (Rehearsal.injected "commit"), b), r)
    else ((.ok (), []),
      { r with data := Rehearsal.writeAll r.data b, commits := r.commits + 1 })
  closeBatch _ r :=
    (r.guarded .batchClose "batch close" (), { r with batches := r.batches.closing })
  openSnapshot r :=
    if r.fails .newSnapshot then (.error (Rehearsal.injected "snapshot"), r)
    else (.ok r.data, { r with snapshots := r.snapshots.opening })
  read r s key := r.guarded .get "get" (s.find? key)
  closeSnapshot _ r :=
    (r.guarded .snapshotClose "snapshot close" (), { r with snapshots := r.snapshots.closing })
  openCursor s lower upper r :=
    if r.fails .newCursor then (.error (Rehearsal.injected "iterator"), r)
    else (.ok ⟨r.range s lower upper, []⟩, { r with cursors := r.cursors.opening })
  first _ c := { c with rest := c.entries }
  next _ c := { c with rest := c.rest.tail }
  entry? c := c.rest.head?
  remaining _ c := c.rest.length
  closeCursor _ r :=
    (r.guarded .cursorClose "iterator close" (), { r with cursors := r.cursors.closing })

end PeerBook
