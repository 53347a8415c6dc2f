import PeerBook.Engine.Mounted
import PeerBook.Proofs.Store.Contents
import PeerBook.Proofs.Store.Monad

/-! # Running a write

Storing a peer checks the context, encodes the peer, checks the context once
more and commits the record and all its aliases in one batch, which it closes
whatever became of it.
-/

namespace PeerBook

theorem Codec.encode_eq_ok_iff {c : Codec} {p : Peer} {data : Bytes} :
    c.encode p = .ok data ↔ c.encodeFailure = none ∧ p.encode = data := by
  unfold Codec.encode
  cases c.encodeFailure <;> simp

namespace Store

open StoreM

section Run

variable {ε : Type} [Backend ε]

def closing (r : Except EngineError Unit) : Except StoreError Unit :=
  r.mapError fun source => .release "batch" source

def filled (batch : Backend.Batch ε) (ws : List Binding) : Backend.Batch ε :=
  ws.foldl (fun b w => Backend.put b w.1 w.2) batch

theorem exec_commitEntries (l : Layout) (ctx : Context) (batch : Backend.Batch ε) (key : Bytes)
    (ws : List Binding) (s : Session ε) :
    (commitEntries l ctx batch key ws).exec s =
      match ctx.check "commit" s.ambient with
      | .error err => (.error err, s)
      | .ok () =>
        let c := Backend.commit (filled batch ws) s.engine
        (c.1.1.mapError fun source => .commit (l.describe key) source,
          { s.reach .commit with engine := c.2 }) := by
  rw [commitEntries, exec_bind, exec_check]
  cases ctx.check "commit" s.ambient with
  | error err => rfl
  | ok u =>
    dsimp only
    rw [exec_bind, exec_lift, Session.call_eq]
    rfl

theorem exec_put (l : Layout) (ctx : Context) (op : String) (aliases : List String) (p : Peer)
    (s : Session ε) :
    (put l ctx op aliases p).exec s =
      match ctx.check op s.ambient, s.codec.encode p with
      | .error err, _ => (.error err, s)
      | .ok (), .error source => (.error (.encoding p.identity.toText source), s.reach .encode)
      | .ok (), .ok data =>
        let key := l.recordKey p.identity
        let b := Backend.newBatch s.engine
        let r := (commitEntries l ctx b.1 key (entries key data aliases)).exec
          { (s.reach .encode).reach .batch with engine := b.2 }
        let c := Backend.closeBatch b.1 r.2.engine
        (StoreError.append r.1 (closing c.1), { r.2 with engine := c.2 }) := by
  have he : StoreM.exec (ExceptT.mk do
        return (← Session.encode p).mapError fun source =>
          StoreError.encoding p.identity.toText source) s =
      ((s.codec.encode p).mapError fun source => .encoding p.identity.toText source,
        s.reach .encode) := by
    rw [← Session.codec_reach .encode s]
    rfl
  rw [put, exec_bind, exec_check]
  cases ctx.check op s.ambient with
  | error err => rfl
  | ok u =>
    dsimp only
    rw [exec_bind, he]
    cases s.codec.encode p with
    | error source => rfl
    | ok data =>
      change ((liftM (Session.call .batch Backend.newBatch) >>= _ : StoreM ε Unit)).exec _ = _
      rw [exec_bind, exec_lift, Session.call_eq, Session.engine_reach]
      rfl

def Call.perform (l : Layout) (c : Call) : StoreM ε Unit :=
  match c.extra with
  | some a => assign l c.context a c.peer
  | none => add l c.context c.peer

/-- What a call names itself by when its context is done. -/
def Call.name (c : Call) : String :=
  match c.extra with
  | some _ => "assign"
  | none => "add"

theorem Call.perform_eq_put (l : Layout) (c : Call) :
    c.perform (ε := ε) l = put l c.context c.name c.aliases c.peer := by
  unfold Call.perform Call.name Call.aliases
  cases c.extra with
  | none => simp [add]
  | some a => rfl

theorem Call.codec_perform (l : Layout) (c : Call) (s : Session ε) :
    ((c.perform l).exec s).2.codec = s.codec := by
  rw [c.perform_eq_put, exec_put]
  split
  · rfl
  · exact Session.codec_reach _ _
  · dsimp only
    rw [exec_commitEntries]
    split <;> simp

end Run

theorem filled_mounted (b : Batch) (ws : List Binding) :
    filled (ε := Mounted) b ws = { b with writes := b.writes ++ ws } := by
  induction ws generalizing b with
  | nil => simp [filled]
  | cons w ws ih =>
    refine (ih (b.put w.1 w.2)).trans ?_
    simp [Batch.put]

end Store

end PeerBook
