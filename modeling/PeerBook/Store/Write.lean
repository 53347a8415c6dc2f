import PeerBook.Store.Basic

/-! # Storing peers

A peer's record and all its aliases are written in one batch.
-/

namespace PeerBook.Store

variable {ε : Type} [Backend ε]

/-- The writes that store a peer: its record, then each alias with the record's key. -/
def entries (key data : Bytes) (aliases : List String) : List Binding :=
  (key, data) :: aliases.map fun a => (aliasKey a, key)

/-- Commits entries in a batch, unless the context is done. -/
def commitEntries (l : Layout) (ctx : Context) (batch : Backend.Batch ε) (key : Bytes)
    (writes : List Binding) : StoreM ε Unit := do
  let batch := writes.foldl (fun b w => Backend.put b w.1 w.2) batch
  check ctx "commit"
  let (result, _) ← (Session.call .commit (Backend.commit batch) : StateM (Session ε) _)
  liftExcept (result.mapError fun source => .commit (l.describe key) source)
where
  liftExcept (r : Except StoreError Unit) : StoreM ε Unit := ExceptT.mk (pure r)

/-- Stores a peer under its identity and the aliases given. -/
def put (l : Layout) (ctx : Context) (op : String) (aliases : List String) (p : Peer) :
    StoreM ε Unit := do
  check ctx op
  let data ← ExceptT.mk do
    return (← Session.encode p).mapError fun source => .encoding p.identity.toText source
  let key := l.recordKey p.identity
  let batch ← (Session.call .batch Backend.newBatch : StateM (Session ε) _)
  releasing (commitEntries l ctx batch key (entries key data aliases))
    (release "batch" (Backend.closeBatch batch))

/-- Stores a peer under its own aliases. -/
def add (l : Layout) (ctx : Context) (p : Peer) : StoreM ε Unit :=
  put l ctx "add" p.aliases p

/-- Stores a peer under its own aliases and one more, which it may take from another peer. -/
def assign (l : Layout) (ctx : Context) (a : String) (p : Peer) : StoreM ε Unit :=
  put l ctx "assign" (p.aliases ++ [a]) p

end PeerBook.Store
