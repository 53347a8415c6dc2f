import PeerBook.Error
import PeerBook.Versions.Table

/-! # Ordered engines

What a store asks of an ordered key-value engine `ε`: point reads, atomic
batches, and snapshots with cursors over ranges of keys. Everything that is
opened is also closed, and closing may fail.
-/

namespace PeerBook

class Backend (ε : Type) where
  Snapshot : Type
  Cursor : Type
  Batch : Type
  get : ε → Bytes → Except EngineError (Option Bytes)
  set : Bytes → Bytes → StateM ε (Except EngineError Unit)
  newBatch : StateM ε Batch
  /-- Adds a write to a batch. -/
  put : Batch → Bytes → Bytes → Batch
  commit : Batch → StateM ε (Except EngineError Unit × Batch)
  closeBatch : Batch → StateM ε (Except EngineError Unit)
  openSnapshot : StateM ε (Except EngineError Snapshot)
  /-- Reads from a snapshot. -/
  read : ε → Snapshot → Bytes → Except EngineError (Option Bytes)
  closeSnapshot : Snapshot → StateM ε (Except EngineError Unit)
  /-- Opens a cursor over the keys from `lower` on and below `upper`. It stands nowhere yet. -/
  openCursor : Snapshot → (lower : Bytes) → (upper : Option Bytes) →
    StateM ε (Except EngineError Cursor)
  first : ε → Cursor → Cursor
  next : ε → Cursor → Cursor
  /-- The binding that a cursor stands on. -/
  entry? : Cursor → Option Binding
  /-- No fewer than the bindings that a cursor can still come to stand on. -/
  remaining : ε → Cursor → Nat
  closeCursor : Cursor → StateM ε (Except EngineError Unit)

namespace Backend

variable {ε : Type} [Backend ε]

def walkFrom (e : ε) : Nat → Cursor ε → List Binding × Cursor ε
  | 0, c => ([], c)
  | n + 1, c =>
    match entry? c with
    | some b =>
      let (bs, c) := walkFrom e n (next e c)
      (b :: bs, c)
    | none => ([], c)

/-- Walks a cursor from the first binding of its range to the end. -/
def walk (e : ε) (c : Cursor ε) : List Binding × Cursor ε :=
  let c := first e c
  walkFrom e (remaining e c + 1) c

end Backend

end PeerBook
