import PeerBook.Keyspace
import PeerBook.Store.Session

/-! # Store operations

The shape common to all operations of a store: they may fail, they leave the
session changed either way, and an error of a release is appended to the
outcome of what it follows.
-/

namespace PeerBook

abbrev StoreM (ε : Type) := ExceptT StoreError (StateM (Session ε))

namespace Store

variable {ε α : Type}

/-- Fails if the context is done. -/
def check (ctx : Context) (op : String) : StoreM ε Unit :=
  ExceptT.mk fun s => (ctx.check op s.ambient, s)

/-- An engine failure as one of a read at a key. -/
def reading (op : String) (key : Bytes) (r : Except EngineError α) : Except StoreError α :=
  r.mapError fun source => .read op (Quoted.showBytes key) source

/-- An engine failure as one of opening a store on a directory. -/
def opening (dir : String) (r : Except EngineError α) : Except StoreError α :=
  r.mapError fun source => .read "open" dir source

/-- Releases a resource. -/
def release (resource : String) (f : StateM ε (Except EngineError Unit)) :
    StateM (Session ε) (Except StoreError Unit) := do
  return (← Session.quietly f).mapError fun source => .release resource source

/-- Runs an operation, then a release, and joins their outcomes. -/
def releasing (op : StoreM ε α) (after : StateM (Session ε) (Except StoreError Unit)) :
    StoreM ε α :=
  ExceptT.mk do
    let outcome ← op.run
    let released ← after
    return StoreError.append outcome released

/-- Decodes the record found under a key. -/
def decode (l : Layout) (key data : Bytes) : StoreM ε Peer :=
  ExceptT.mk do
    return (← Session.decode data).mapError fun source => .decoding (l.describe key) source

end Store

end PeerBook
