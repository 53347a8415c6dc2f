import PeerBook.Engine.Basic

/-! # Batches

Writes that are committed together, once.
-/

namespace PeerBook

structure Batch where
  writes : List Binding
  committed : Bool
  deriving DecidableEq, Repr

namespace Batch

def empty : Batch where
  writes := []
  committed := false

def put (b : Batch) (key value : Bytes) : Batch :=
  { b with writes := b.writes ++ [(key, value)] }

/-- Commits the writes. The batch counts as committed, and is empty, even when the engine fails; a
batch without writes takes no sequence number. -/
def commit (timestamp : UInt64) (b : Batch) (e : Engine) (f : Journal.LogFile) :
    Except EngineError Unit × Batch × Engine × Journal.LogFile :=
  if b.committed then (.error .batchCommitted, b, e, f)
  else
    let done : Batch := { writes := [], committed := true }
    if b.writes.isEmpty then (.ok (), done, e, f)
    else
      let (result, e, f) := e.commit timestamp (.batch b.writes) f
      (result, done, e, f)

end Batch

end PeerBook
