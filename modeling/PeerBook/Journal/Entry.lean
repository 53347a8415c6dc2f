import PeerBook.Versions.Table
import PeerBook.Wire

/-! # Journal entries

An entry records one commit, a single write or a batch, under its log
sequence number. Its payload is its written form.
-/

namespace PeerBook.Journal

inductive Operation where
  | put (key value : Bytes)
  | batch (writes : List Binding)
  deriving DecidableEq, Repr

def Operation.writes : Operation → List Binding
  | .put key value => [(key, value)]
  | .batch writes => writes

structure Entry where
  lsn : UInt64
  operation : Operation
  /-- Milliseconds since 1970. -/
  timestamp : UInt64
  deriving DecidableEq, Repr

open Wire

def Operation.encode : Operation → Bytes
  | .put key value => putUInt32 0 ++ putBytes key ++ putBytes value
  | .batch writes => putUInt32 1 ++ putList (putPair putBytes putBytes) writes

def Operation.get : Reader Operation := do
  let get ← getVariant [
    do
      let key ← getBytes
      let value ← getBytes
      return .put key value,
    do
      let writes ← getList (getPair getBytes getBytes)
      return .batch writes]
  get

namespace Entry

def payload (e : Entry) : Bytes :=
  putUInt64 e.lsn ++ e.operation.encode ++ putUInt64 e.timestamp

def get : Reader Entry := do
  let lsn ← getUInt64
  let operation ← Operation.get
  let timestamp ← getUInt64
  return { lsn, operation, timestamp }

end Entry

end PeerBook.Journal
