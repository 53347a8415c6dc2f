import PeerBook.Store.Basic

/-! # Looking peers up

By identity with one read; by alias with two reads of one snapshot.
-/

namespace PeerBook.Store

variable {ε : Type} [Backend ε]

/-- A value that must be there. -/
def present (r : Except StoreError (Option Bytes)) : Except StoreError Bytes :=
  match r with
  | .ok (some data) => .ok data
  | .ok none => .error .notFound
  | .error err => .error err

def find (l : Layout) (ctx : Context) (i : Identity) : StoreM ε Peer := do
  check ctx "find"
  let key := l.recordKey i
  let data ← ExceptT.mk do
    return present (reading "get" key (← Session.ask .get fun e => Backend.get e key))
  decode l key data

/-- Reads a key that must be there from a snapshot. -/
def readPresent (snapshot : Backend.Snapshot ε) (key : Bytes) : StoreM ε Bytes :=
  ExceptT.mk do
    return present (reading "get" key (← Session.ask .read fun e => Backend.read e snapshot key))

/-- Follows an alias to a record; what the alias stands for is used as a key as it is. -/
def follow (l : Layout) (ctx : Context) (snapshot : Backend.Snapshot ε) (a : Bytes) :
    StoreM ε Peer := do
  let key ← readPresent snapshot a
  check ctx "resolve"
  let data ← readPresent snapshot key
  decode l key data

def resolve (l : Layout) (ctx : Context) (a : String) : StoreM ε Peer := do
  check ctx "resolve"
  let key := aliasKey a
  let snapshot ← ExceptT.mk do
    return reading "snapshot" key (← Session.call .snapshot Backend.openSnapshot)
  releasing (follow l ctx snapshot key) (release "snapshot" (Backend.closeSnapshot snapshot))

end PeerBook.Store
