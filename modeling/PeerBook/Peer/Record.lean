import PeerBook.Peer.Identity
import PeerBook.SortedMap
import PeerBook.Wire

/-! # Peer records

What is stored of a peer, the aliases it is found by, and its written form.
-/

namespace PeerBook

structure Peer where
  identity : Identity
  accessHash : Int64
  username : Option String
  phone : Option String
  displayName : String
  /-- Milliseconds since 1970. -/
  createdAt : UInt64
  metadata : SortedMap String String
  deriving DecidableEq, Inhabited

namespace Peer

def new (identity : Identity) (accessHash : Int64) (createdAt : UInt64) : Peer where
  identity
  accessHash
  username := none
  phone := none
  displayName := ""
  createdAt
  metadata := .empty

def withMetadata (p : Peer) (key value : String) : Peer :=
  { p with metadata := p.metadata.insert key value }

/-- The username, then the phone number; an empty one is no alias. -/
def aliases (p : Peer) : List String :=
  [p.username, p.phone].filterMap fun
    | some "" => none
    | a => a

open Wire

def encode (p : Peer) : Bytes :=
  putUInt32 (UInt32.ofNat p.identity.kind.rank) ++ putInt64 p.identity.id ++
    putInt64 p.accessHash ++ putOption putText p.username ++ putOption putText p.phone ++
    putText p.displayName ++ putUInt64 p.createdAt ++
    putList (putPair putText putText) p.metadata.toList

def get : Reader Peer := do
  let kind ← getVariant Kind.all
  let id ← getInt64
  let accessHash ← getInt64
  let username ← getOption getText
  let phone ← getOption getText
  let displayName ← getText
  let createdAt ← getUInt64
  let metadata ← getList (getPair getText getText)
  return {
    identity := ⟨kind, id⟩, accessHash, username, phone, displayName, createdAt
    metadata := .ofList metadata }

def decode (bs : Bytes) : Except Failure Peer :=
  read get bs

end Peer

end PeerBook
