import PeerBook.Backend
import PeerBook.Engine.Batch
import PeerBook.Engine.Cursor

/-! # Mounted engines

An engine together with the log file it writes to and the time that new
entries are stamped with, as an ordered engine for a store.
-/

namespace PeerBook

open Journal

structure Mounted where
  engine : Engine
  file : LogFile
  /-- Milliseconds since 1970. -/
  clock : UInt64

namespace Mounted

def volatile : Mounted where
  engine := .volatile
  file := .empty
  clock := 0

/-- Opens a durable engine on a log, which is created if there is none. -/
def load (pageSize : Nat) (policy : SyncPolicy) (clock : UInt64) (log : Option LogFile) :
    Except EngineError Mounted :=
  (Engine.load pageSize policy log).map fun (engine, file) => { engine, file, clock }

/-- What an engine tells of itself. -/
structure Stats where
  seq : UInt64
  pins : Nat
  keys : Nat
  versions : Nat
  deriving DecidableEq, Repr

def stats (m : Mounted) : Stats where
  seq := m.engine.visible
  pins := m.engine.pins.total
  keys := m.engine.table.keyCount
  versions := m.engine.table.versionCount

def sync (m : Mounted) : Except EngineError Unit × Mounted :=
  let (result, engine) := m.engine.sync m.file
  (result, { m with engine })

def set (key value : Bytes) (m : Mounted) : Except EngineError Unit × Mounted :=
  let (result, engine, file) := m.engine.commit m.clock (.put key value) m.file
  (result, { m with engine, file })

def commit (b : Batch) (m : Mounted) : (Except EngineError Unit × Batch) × Mounted :=
  let (result, b, engine, file) := b.commit m.clock m.engine m.file
  ((result, b), { m with engine, file })

def openSnapshot (m : Mounted) : Snapshot × Mounted :=
  let (seq, engine) := m.engine.pinLatest
  (⟨seq⟩, { m with engine })

/-- A cursor pins for itself, so it outlives its snapshot. -/
def openCursor (s : Snapshot) (lower : Bytes) (upper : Option Bytes) (m : Mounted) :
    Cursor × Mounted :=
  (.start s.seq m.engine.pageSize lower upper, { m with engine := m.engine.pin s.seq })

def unpin (seq : UInt64) (m : Mounted) : Mounted :=
  { m with engine := m.engine.unpin seq }

end Mounted

instance : Backend Mounted where
  Snapshot := Snapshot
  Cursor := Cursor
  Batch := Batch
  get m key := .ok (m.engine.get key)
  set key value m := m.set key value
  newBatch m := (.empty, m)
  put b key value := b.put key value
  commit b m := m.commit b
  closeBatch _ m := (.ok (), m)
  openSnapshot m :=
    let (s, m) := m.openSnapshot
    (.ok s, m)
  read m s key := .ok (s.get key m.engine)
  closeSnapshot s m := (.ok (), m.unpin s.seq)
  openCursor s lower upper m :=
    let (c, m) := m.openCursor s lower upper
    (.ok c, m)
  first m c := c.first m.engine.table
  next m c := c.next m.engine.table
  entry? c := c.current
  remaining m c := c.remaining m.engine.table
  closeCursor c m := (.ok (), m.unpin c.seq)

end PeerBook
