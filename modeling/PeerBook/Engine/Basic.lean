import PeerBook.Engine.Pins
import PeerBook.Journal.Appender
import PeerBook.Journal.Recovery
import PeerBook.Settings
import PeerBook.Versions.Table

/-! # The engine

An engine keeps the committed versions in a table, publishes them by a
sequence number and, when it is durable, logs every commit before it becomes
visible. A commit prunes the chains it writes at the oldest pin, or at the
sequence number visible before it when nothing is pinned.
-/

namespace PeerBook

open Journal

structure Engine where
  /-- How many entries a cursor fetches at a time. -/
  pageSize : Nat
  /-- Absent in an engine that keeps nothing. -/
  appender : Option Appender
  table : Table
  /-- The sequence number of the last commit. -/
  visible : UInt64
  pins : Pins

namespace Engine

/-- An engine without a log. -/
def volatile : Engine where
  pageSize := Settings.standard.pageSize
  appender := none
  table := .empty
  visible := 0
  pins := .empty

/-- Applies recovered entries in their order. Nothing is pinned yet, so each prunes at its own
sequence number. -/
def replay (t : Table) (entries : List Entry) : Table :=
  entries.foldl (fun t e => t.apply e.lsn e.operation.writes e.lsn) t

def emptyPages : EngineError := .settings "iter_page_size must be positive"

/-- Opens a durable engine on a log, which is created if there is none. -/
def load (pageSize : Nat) (policy : SyncPolicy) (log : Option LogFile) :
    Except EngineError (Engine × LogFile) :=
  if pageSize = 0 then .error emptyPages
  else
    let (recovery, file) := match log with
      | some f => f.recover
      | none => (Recovery.none, .empty)
    let lsn := recovery.lastLsn
    let engine : Engine :=
      { pageSize
        appender := some (.start policy lsn file)
        table := replay .empty recovery.entries
        visible := lsn
        pins := .empty }
    .ok (engine, file)

/-- The sequence number below which no reader asks for superseded versions. -/
def floor (e : Engine) : UInt64 :=
  e.pins.oldest?.getD e.visible

/-- Makes a group of writes visible under `seq`. -/
def publish (e : Engine) (seq : UInt64) (writes : List Binding) : Engine :=
  { e with table := e.table.apply seq writes e.floor, visible := seq }

/-- Logs an operation, if there is a log, and publishes it. -/
def commit (timestamp : UInt64) (operation : Operation) (e : Engine) (f : LogFile) :
    Except EngineError Unit × Engine × LogFile :=
  match e.appender with
  | none => (.ok (), e.publish (e.visible + 1) operation.writes, f)
  | some w =>
    match w.append timestamp operation f with
    | (.ok entry, w, f) =>
      (.ok (), { e with appender := some w }.publish entry.lsn entry.operation.writes, f)
    | (.error err, w, f) => (.error err, { e with appender := some w }, f)

def get (e : Engine) (key : Bytes) : Option Bytes :=
  e.table.readLatest key

/-- Forces the log to disk. -/
def sync (e : Engine) (f : LogFile) : Except EngineError Unit × Engine :=
  match e.appender with
  | none => (.ok (), e)
  | some w =>
    let (result, w) := w.sync f
    (result, { e with appender := some w })

/-- Pins the present state; gives its sequence number. -/
def pinLatest (e : Engine) : UInt64 × Engine :=
  (e.visible, { e with pins := e.pins.pin e.visible })

def pin (e : Engine) (seq : UInt64) : Engine :=
  { e with pins := e.pins.pin seq }

def unpin (e : Engine) (seq : UInt64) : Engine :=
  { e with pins := e.pins.unpin seq }

end Engine

/-- A view of an engine at a pinned sequence number. -/
structure Snapshot where
  seq : UInt64
  deriving DecidableEq, Repr

def Snapshot.get (s : Snapshot) (key : Bytes) (e : Engine) : Option Bytes :=
  e.table.readAt key s.seq

end PeerBook
