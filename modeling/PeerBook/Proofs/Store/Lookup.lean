import PeerBook.Proofs.Store.Read
import PeerBook.Proofs.Store.Run

/-! # Lookups after writes

After any successful calls a peer is found by its identity as it was stored
last, and by an alias as the owner of the alias is stored now.
-/

namespace PeerBook.Store

open StoreM

variable {l : Layout} {s₀ s : Session Mounted} {calls : List Call}

/-- What may happen between two calls: everything but a write. -/
structure Meanwhile (s s' : Session Mounted) : Prop where
  codec : s'.codec = s.codec
  engine : ∃ pins, s'.engine.engine = { s.engine.engine with pins }

/-- The sessions that successful calls lead to. -/
inductive Stored (l : Layout) (s₀ : Session Mounted) : List Call → Session Mounted → Prop where
  | start : Stored l s₀ [] s₀
  | call {calls : List Call} {c : Call} {s s' : Session Mounted} (before : Stored l s₀ calls s)
      (ok : (c.perform l).exec s = (.ok (), s')) : Stored l s₀ (calls ++ [c]) s'
  | meanwhile {calls : List Call} {s s' : Session Mounted} (before : Stored l s₀ calls s)
      (between : Meanwhile s s') : Stored l s₀ calls s'

/-- The engine of a session holds what calls wrote. -/
structure Holds (l : Layout) (calls : List Call) (s : Session Mounted) : Prop where
  codec : s.codec = .working
  sound : s.engine.engine.Sound
  get : ∀ key, s.engine.engine.get key = (contents l calls).find? key

theorem Stored.ran (h : Stored l s₀ calls s) : Ran l Mounted.Idle s₀ calls s := by
  induction h with
  | start => exact .start
  | call before ok ih =>
    obtain rfl := congrArg Prod.snd ok
    exact ih.took (.inl (congrArg Prod.fst ok))
  | meanwhile before between ih => exact ih.meanwhile between.engine

theorem Stored.codec_eq (h : Stored l s₀ calls s) : s.codec = s₀.codec := by
  induction h with
  | start => rfl
  | call before ok ih =>
    obtain rfl := congrArg Prod.snd ok
    exact (Call.codec_perform l _ _).trans ih
  | meanwhile before between ih => exact between.codec.trans ih

theorem Stored.holds {m : Mounted} (hm : m.Opened) (he : ∀ key, m.engine.get key = none)
    (hs : Stored l (.start m) calls s)
    (hl : m.engine.visible.toNat + calls.length < 2 ^ 64) : Holds l calls s where
  codec := hs.codec_eq
  sound := (hs.ran.sound hm.sound.1 hl).1
  get := hs.ran.view_eq (.mounted l) he

theorem stored_recordKey {e : Engine} (hg : ∀ key, e.get key = (contents l calls).find? key)
    (hp : ∀ c ∈ calls, c.peer.encode.length < 2 ^ 64) (i : Identity) :
    stored l e (l.recordKey i) =
      match latest calls i with
      | some p => .ok p
      | none => .error .notFound := by
  have hr := (hg _).trans (contents_recordKey l calls i)
  cases hi : latest calls i with
  | none => exact stored_of_none (hr.trans (congrArg _ hi))
  | some p =>
    obtain ⟨c, hc, rfl⟩ := mem_of_latest hi
    rw [stored_of_some (hr.trans (congrArg _ hi)), decoded_encode (hp c hc)]

theorem Holds.stored_recordKey (h : Holds l calls s)
    (hp : ∀ c ∈ calls, c.peer.encode.length < 2 ^ 64) (i : Identity) :
    stored l s.engine.engine (l.recordKey i) =
      match latest calls i with
      | some p => .ok p
      | none => .error .notFound :=
  Store.stored_recordKey h.get hp i

/-- After any successful calls on an empty store, a lookup by identity gives the peer of the last
call about it; a lookup by alias gives the peer of the last call about the identity that the last
call with this alias was about. Both miss what no call was about, and nothing else keeps them from
it than a context that is done when they ask it: at first, and by alias between the two reads. -/
theorem lookups_after_calls {m : Mounted} (hm : m.Opened) (he : ∀ key, m.engine.get key = none)
    (hs : Stored l (.start m) calls s) (hl : m.engine.visible.toNat + calls.length < 2 ^ 64)
    (hp : ∀ c ∈ calls, c.peer.encode.length < 2 ^ 64) (ctx : Context) :
    (∀ i, ((find l ctx i).exec s).1 =
      ctx.check "find" s.ambient >>= fun _ =>
        match latest calls i with
        | some p => .ok p
        | none => .error .notFound) ∧
    (∀ a, owner calls a = none →
      ((resolve l ctx a).exec s).1 =
        ctx.check "resolve" s.ambient >>= fun _ => .error .notFound) ∧
    ∀ a i, owner calls a = some i →
      ∃ p, latest calls i = some p ∧
        ((resolve l ctx a).exec s).1 =
          ctx.check "resolve" s.ambient >>= fun _ =>
            ctx.check "resolve" ((s.reach .snapshot).reach .read).ambient >>= fun _ => .ok p := by
  have h := hs.holds hm he hl
  have ha (a : String) := (h.get _).trans (contents_aliasKey l calls a)
  refine ⟨fun i => ?_, fun a ho => ?_, fun a i ho => ?_⟩
  · rw [fst_find (congrArg _ h.codec), h.stored_recordKey hp]
  · rw [fst_resolve h.codec h.sound, lookup_of_none ((ha a).trans (congrArg _ ho))]
    rfl
  · obtain ⟨p, hi⟩ := Option.ne_none_iff_exists'.mp (latest_ne_none_of_owner ho)
    refine ⟨p, hi, ?_⟩
    have hr := h.stored_recordKey hp i
    rw [hi] at hr
    rw [fst_resolve h.codec h.sound, lookup_of_some ((ha a).trans (congrArg _ ho))]
    exact bind_congr fun _ => bind_congr fun _ => hr

/-- An alias that has passed to another peer, whose record is then stored again without it. -/
theorem lookups_after_calls_reassigned :
    let ann : Peer := .new ⟨.user, 1⟩ 10 0
    let bob (hash : Int64) : Peer := .new ⟨.chat, -1⟩ hash 0
    let calls : List Call :=
      [⟨.background, ann, some "x"⟩, ⟨.background, bob 20, some "x"⟩, ⟨.background, bob 30, none⟩]
    ∃ s, Stored .flat (.start .volatile) calls s ∧
      ((find .flat .background ⟨.user, 1⟩).exec s).1 = .ok ann ∧
      ((resolve .flat .background "x").exec s).1 = .ok (bob 30) ∧
      ((resolve .flat .background "y").exec s).1 = .error .notFound := by
  intro ann bob calls
  have hs : Stored .flat (.start .volatile) calls _ :=
    ((Stored.start.call (c := ⟨.background, ann, some "x"⟩)
      (exec_of_isOk (by decide +kernel))).call (c := ⟨.background, bob 20, some "x"⟩)
      (exec_of_isOk (by decide +kernel))).call (c := ⟨.background, bob 30, none⟩)
      (exec_of_isOk (by decide +kernel))
  obtain ⟨hf, hn, hr⟩ := lookups_after_calls .volatile (fun _ => rfl) hs (by decide)
    (by decide +kernel) .background
  obtain ⟨p, hp, hx⟩ := hr "x" ⟨.chat, -1⟩ (by decide +kernel)
  obtain rfl : bob 30 = p := Option.some.inj ((show some (bob 30) = _ by decide +kernel).trans hp)
  exact ⟨_, hs, hf _, hx, hn "y" (by decide +kernel)⟩

end PeerBook.Store
