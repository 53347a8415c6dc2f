import PeerBook.Keyspace

/-! # Settings

Where a store keeps its data, how often its log is forced to disk, how many
entries a cursor fetches at a time and how record keys are laid out.
-/

namespace PeerBook

inductive SyncPolicy where
  | everyWrite
  | everyEntries (count : Nat)
  deriving DecidableEq, Repr

structure Settings where
  dataDir : String
  sync : SyncPolicy
  pageSize : Nat
  layout : Layout
  deriving DecidableEq, Repr

namespace Settings

def standard : Settings where
  dataDir := "./peerkv_data"
  sync := .everyEntries 100
  pageSize := 64
  layout := .scoped

/-- A cursor fetches at least one entry at a time. -/
def withPageSize (s : Settings) (size : Nat) : Settings :=
  { s with pageSize := max size 1 }

end Settings

end PeerBook
