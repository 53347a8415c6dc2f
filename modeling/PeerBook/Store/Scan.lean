import PeerBook.Store.Basic

/-! # Scanning peers

A scan walks the records of one snapshot in the order of their keys. It ends
at the end of the records, at a record that cannot be decoded, or when its
context is done; the error that ended it stays with it.
-/

namespace PeerBook

structure Scan (ε : Type) [Backend ε] where
  snapshot : Option (Backend.Snapshot ε)
  cursor : Option (Backend.Cursor ε)
  layout : Layout
  context : Context
  current : Option Peer
  failure : Option StoreError

namespace Scan

variable {ε β : Type} [Backend ε]

def isClosed (c : Scan ε) : Bool :=
  c.cursor.isNone && c.snapshot.isNone

/-- Moves a cursor past keys that are no record keys, `fuel` of them at most. -/
def skipForeign (l : Layout) (e : ε) : Nat → Backend.Cursor ε → Backend.Cursor ε
  | 0, cursor => cursor
  | fuel + 1, cursor =>
    match Backend.entry? cursor with
    | some (key, _) =>
      if l.isRecordKey key then cursor else skipForeign l e fuel (Backend.next e cursor)
    | none => cursor

/-- Moves to the next record; says whether there is one. At the end the context is not asked. -/
def advance (c : Scan ε) : StateM (Session ε) (Bool × Scan ε) := fun s =>
  let c := { c with current := none }
  match c.failure, c.cursor with
  | some _, _ => ((false, c), s)
  | none, none => ((false, c), s)
  | none, some cursor =>
    let cursor := skipForeign c.layout s.engine (Backend.remaining s.engine cursor) cursor
    let c := { c with cursor := some cursor }
    match Backend.entry? cursor with
    | none => ((false, c), s)
    | some (key, value) =>
      match c.context.check "advance" s.ambient with
      | .error err => ((false, { c with failure := some err }), s)
      | .ok () =>
        match Session.decode value s with
        | (.error source, s) =>
          ((false, { c with failure := some (.decoding (c.layout.describe key) source) }), s)
        | (.ok peer, s) =>
          ((true, { c with current := some peer, cursor := some (Backend.next s.engine cursor) }), s)

/-- Releases cursor and snapshot if they are still held. -/
def close (c : Scan ε) : StateM (Session ε) (Except StoreError Unit × Scan ε) := do
  let cursorReleased ← match c.cursor with
    | some cursor => Store.release "iterator" (Backend.closeCursor cursor)
    | none => pure (.ok ())
  let snapshotReleased ← match c.snapshot with
    | some snapshot => Store.release "snapshot" (Backend.closeSnapshot snapshot)
    | none => pure (.ok ())
  return (StoreError.append cursorReleased snapshotReleased,
    { c with cursor := none, snapshot := none })

/-- Visits the remaining records, `fuel` of them at most. -/
def drainWithin (visit : β → Peer → StateM (Session ε) β) :
    Nat → β → Scan ε → StateM (Session ε) (β × Scan ε)
  | 0, b, c => pure (b, c)
  | fuel + 1, b, c => do
    let (more, c) ← c.advance
    match more, c.current with
    | true, some p => drainWithin visit fuel (← visit b p) c
    | _, _ => pure (b, c)

/-- Visits the remaining records. -/
def drain (visit : β → Peer → StateM (Session ε) β) (b : β) (c : Scan ε) :
    StateM (Session ε) (β × Scan ε) := fun s =>
  let fuel := match c.cursor with
    | some cursor => Backend.remaining s.engine cursor + 1
    | none => 1
  drainWithin visit fuel b c s

/-- Visits the remaining records and closes. Also gives what the visits made of `b` when the scan
failed. -/
def finish (visit : β → Peer → StateM (Session ε) β) (b : β) (c : Scan ε) :
    StateM (Session ε) (β × Except StoreError Unit) := do
  let (b, c) ← c.drain visit b
  let outcome := match c.failure with
    | some err => .error err
    | none => .ok ()
  let (released, _) ← c.close
  return (b, StoreError.append outcome released)

/-- The remaining records; closes. -/
def collect (c : Scan ε) : StoreM ε (List Peer) :=
  ExceptT.mk do
    let (peers, result) ← c.finish (fun peers p => pure (peers ++ [p])) []
    return result.map fun () => peers

end Scan

namespace Store

variable {ε β : Type} [Backend ε]

/-- A scan of all records as they are now. -/
def iterate (l : Layout) (ctx : Context) : StoreM ε (Scan ε) := do
  check ctx "iterate"
  let lower := l.recordLead
  let snapshot ← ExceptT.mk do
    return reading "snapshot" lower (← Session.call .snapshot Backend.openSnapshot)
  let opened ← (Session.call .cursor (Backend.openCursor snapshot lower (Bytes.bound? lower)) :
    StateM (Session ε) _)
  match opened with
  | .ok cursor =>
    return {
      snapshot := some snapshot
      cursor := some (Backend.first (← get).engine cursor)
      layout := l
      context := ctx
      current := none
      failure := none }
  | .error source =>
    releasing (throw (.read "iterate" (Quoted.showBytes lower) source))
      (release "snapshot" (Backend.closeSnapshot snapshot))

/-- Visits every record. -/
def forEach (l : Layout) (ctx : Context) (visit : β → Peer → StateM (Session ε) β) (b : β) :
    StateM (Session ε) (β × Except StoreError Unit) := do
  match ← (iterate l ctx).run with
  | .ok c => c.finish visit b
  | .error err => return (b, .error err)

/-- Every record. -/
def list (l : Layout) (ctx : Context) : StoreM ε (List Peer) := do
  (← iterate l ctx).collect

end Store

end PeerBook
