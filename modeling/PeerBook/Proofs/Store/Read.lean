import PeerBook.Proofs.Engine.Sound
import PeerBook.Proofs.Peer.Record
import PeerBook.Proofs.Store.Monad

/-! # What a lookup gives

A lookup gives the record under a key, or what keeps it from being there or
from being read, unless its context stops it. By alias it reads twice, and a
snapshot of a sound engine answers both reads as the engine would.
-/

namespace PeerBook.Store

open StoreM

variable {l : Layout}

/-- A record as it is read from its bytes. -/
def decoded (l : Layout) (key data : Bytes) : Except StoreError Peer :=
  (Codec.working.decode data).mapError fun source => .decoding (l.describe key) source

theorem decoded_of_decode {data : Bytes} {p : Peer} (h : Peer.decode data = .ok p) (key : Bytes) :
    decoded l key data = .ok p := by
  rw [decoded, Codec.decode, Codec.working, h]
  rfl

theorem decoded_encode {p : Peer} (h : p.encode.length < 2 ^ 64) (key : Bytes) :
    decoded l key p.encode = .ok p :=
  decoded_of_decode (Peer.decode_encode h) key

section Run

variable {ε : Type} [Backend ε]

omit [Backend ε] in
theorem exec_decode (l : Layout) (key data : Bytes) (s : Session ε) :
    (decode l key data).exec s =
      ((s.codec.decode data).mapError fun source => .decoding (l.describe key) source,
        s.reach .decode) := by
  rw [← Session.codec_reach .decode s]
  rfl

omit [Backend ε] in
theorem fst_decode {s : Session ε} (hc : s.codec.decodeFailure = none) (key data : Bytes) :
    ((decode l key data).exec s).1 = decoded l key data := by
  rw [exec_decode, Codec.decode, hc]
  rfl

theorem exec_readPresent (o : Backend.Snapshot ε) (key : Bytes) (s : Session ε) :
    (readPresent o key).exec s =
      (present (reading "get" key (Backend.read s.engine o key)), s.reach .read) := by
  rw [← Session.engine_reach .read s]
  rfl

omit [Backend ε] in
theorem keepsEngine_decode (l : Layout) (key data : Bytes) :
    (decode (ε := ε) l key data).KeepsEngine := fun s => by
  rw [exec_decode]
  exact Session.engine_reach _ _

theorem keepsEngine_find (l : Layout) (ctx : Context) (i : Identity) :
    (find (ε := ε) l ctx i).KeepsEngine :=
  .bind (fun _ => rfl) fun _ => .bind (fun s => Session.engine_reach .get s) fun data =>
    keepsEngine_decode l _ data

theorem keepsEngine_follow (l : Layout) (ctx : Context) (o : Backend.Snapshot ε) (a : Bytes) :
    (follow l ctx o a).KeepsEngine := by
  have hr (key : Bytes) : (readPresent o key).KeepsEngine := fun s => by
    rw [exec_readPresent]
    exact Session.engine_reach _ _
  exact (hr a).bind fun key => .bind (fun _ => rfl) fun _ => (hr key).bind fun data =>
    keepsEngine_decode l key data

/-- Both reads of a followed alias see the snapshot; the context is asked in between. -/
theorem fst_follow (l : Layout) (ctx : Context) (o : Backend.Snapshot ε) (a : Bytes)
    (s : Session ε) :
    ((follow l ctx o a).exec s).1 =
      present (reading "get" a (Backend.read s.engine o a)) >>= fun key =>
        ctx.check "resolve" (s.reach .read).ambient >>= fun _ =>
          present (reading "get" key (Backend.read s.engine o key)) >>= fun data =>
            (s.codec.decode data).mapError fun source => .decoding (l.describe key) source := by
  rw [follow, fst_bind, exec_readPresent]
  refine bind_congr fun key => ?_
  rw [fst_bind, exec_check]
  refine bind_congr fun _ => ?_
  rw [fst_bind, exec_readPresent, Session.engine_reach]
  refine bind_congr fun data => ?_
  rw [exec_decode, Session.codec_reach, Session.codec_reach]

theorem fst_follow_of_decodes (l : Layout) (ctx : Context) (o : Backend.Snapshot ε) (a : Bytes)
    {s : Session ε} (hc : s.codec.decodeFailure = none) :
    ((follow l ctx o a).exec s).1 =
      present (reading "get" a (Backend.read s.engine o a)) >>= fun key =>
        ctx.check "resolve" (s.reach .read).ambient >>= fun _ =>
          present (reading "get" key (Backend.read s.engine o key)) >>= decoded l key := by
  rw [fst_follow]
  unfold Codec.decode
  rw [hc]
  rfl

theorem exec_resolve (l : Layout) (ctx : Context) (a : String) (s : Session ε) :
    (resolve l ctx a).exec s =
      match ctx.check "resolve" s.ambient with
      | .error err => (.error err, s)
      | .ok () =>
        let k := Backend.openSnapshot s.engine
        let s' := { s.reach .snapshot with engine := k.2 }
        match k.1 with
        | .error source => (.error (.read "snapshot" (Quoted.showBytes (aliasKey a)) source), s')
        | .ok o =>
          let r := (follow l ctx o (aliasKey a)).exec s'
          let c := Backend.closeSnapshot o r.2.engine
          (StoreError.append r.1 (c.1.mapError fun source => .release "snapshot" source),
            { r.2 with engine := c.2 }) := by
  rw [resolve, exec_bind, exec_check]
  cases ctx.check "resolve" s.ambient with
  | error err => rfl
  | ok u =>
    dsimp only
    rw [exec_bind, exec_openSnapshot]
    cases (Backend.openSnapshot s.engine).1 with
    | error source => rfl
    | ok o => rfl

theorem fst_resolve_of_view {s : Session ε} {o : Backend.Snapshot ε} {e : ε}
    {view : Bytes → Option Bytes} (ho : Backend.openSnapshot s.engine = (.ok o, e))
    (hr : ∀ key, Backend.read e o key = .ok (view key))
    (hk : (Backend.closeSnapshot o e).1 = .ok ()) (hc : s.codec.decodeFailure = none)
    (ctx : Context) (a : String) :
    ((resolve l ctx a).exec s).1 =
      ctx.check "resolve" s.ambient >>= fun _ =>
        present (.ok (view (aliasKey a))) >>= fun key =>
          ctx.check "resolve" ((s.reach .snapshot).reach .read).ambient >>= fun _ =>
            present (.ok (view key)) >>= decoded l key := by
  have he := keepsEngine_follow l ctx o (aliasKey a) { s.reach .snapshot with engine := e }
  have hf := fst_follow_of_decodes l ctx o (aliasKey a) (s := { s.reach .snapshot with engine := e })
    ((congrArg _ (Session.codec_reach _ s)).trans hc)
  simp only [hr, Session.reach_withEngine] at hf
  rw [exec_resolve, ho]
  cases ctx.check "resolve" s.ambient with
  | error err => rfl
  | ok u =>
    dsimp only
    rw [he, hk]
    exact (StoreError.append_ok _).trans hf

end Run

/-- What is under a key that must be there. -/
def lookup (e : Engine) (key : Bytes) : Except StoreError Bytes :=
  present (.ok (e.get key))

/-- The record under a key that must be there. -/
def stored (l : Layout) (e : Engine) (key : Bytes) : Except StoreError Peer :=
  lookup e key >>= decoded l key

variable {s : Session Mounted} {e : Engine} {key data : Bytes}

theorem lookup_of_none (h : e.get key = none) : lookup e key = .error .notFound := by
  rw [lookup, h]
  rfl

theorem lookup_of_some (h : e.get key = some data) : lookup e key = .ok data := by
  rw [lookup, h]
  rfl

theorem stored_of_none (h : e.get key = none) : stored l e key = .error .notFound := by
  rw [stored, lookup_of_none h]
  rfl

theorem stored_of_some (h : e.get key = some data) : stored l e key = decoded l key data := by
  rw [stored, lookup_of_some h]
  rfl

theorem exec_find (l : Layout) (ctx : Context) (i : Identity) (s : Session Mounted) :
    (find l ctx i).exec s =
      match ctx.check "find" s.ambient with
      | .error err => (.error err, s)
      | .ok () =>
        match lookup s.engine.engine (l.recordKey i) with
        | .error err => (.error err, s.reach .get)
        | .ok data => (decode l (l.recordKey i) data).exec (s.reach .get) := by
  have hr : StoreM.exec (ExceptT.mk do
        return present (reading "get" (l.recordKey i)
          (← Session.ask .get fun e => Backend.get (ε := Mounted) e (l.recordKey i)))) s =
      (lookup s.engine.engine (l.recordKey i), s.reach .get) := by
    rw [← Session.engine_reach .get s]
    rfl
  rw [find, exec_bind, exec_check]
  cases ctx.check "find" s.ambient with
  | error err => rfl
  | ok u =>
    dsimp only
    rw [exec_bind, hr]
    cases lookup s.engine.engine (l.recordKey i) <;> rfl

theorem codec_find (l : Layout) (ctx : Context) (i : Identity) (s : Session Mounted) :
    ((find l ctx i).exec s).2.codec = s.codec := by
  rw [exec_find]
  split
  · rfl
  · split
    · exact Session.codec_reach _ _
    · rw [exec_decode, Session.codec_reach, Session.codec_reach]

theorem fst_find (hc : s.codec.decodeFailure = none) (ctx : Context) (i : Identity) :
    ((find l ctx i).exec s).1 =
      ctx.check "find" s.ambient >>= fun _ => stored l s.engine.engine (l.recordKey i) := by
  rw [exec_find, stored]
  cases ctx.check "find" s.ambient with
  | error err => rfl
  | ok u =>
    dsimp only
    cases lookup s.engine.engine (l.recordKey i) with
    | error err => rfl
    | ok data => exact fst_decode (by rw [Session.codec_reach, hc]) _ _

theorem read_openSnapshot {m : Mounted} (h : m.engine.Sound) (key : Bytes) :
    Backend.read (ε := Mounted) m.openSnapshot.2 m.openSnapshot.1 key = .ok (m.engine.get key) :=
  congrArg Except.ok (h.get_eq key).symm

theorem fst_resolve (hc : s.codec = .working) (he : s.engine.engine.Sound)
    (ctx : Context) (a : String) :
    ((resolve l ctx a).exec s).1 =
      ctx.check "resolve" s.ambient >>= fun _ =>
        lookup s.engine.engine (aliasKey a) >>= fun key =>
          ctx.check "resolve" ((s.reach .snapshot).reach .read).ambient >>= fun _ =>
            stored l s.engine.engine key :=
  fst_resolve_of_view rfl (read_openSnapshot he) rfl (hc ▸ rfl) ctx a

end PeerBook.Store
