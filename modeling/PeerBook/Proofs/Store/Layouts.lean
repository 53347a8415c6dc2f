import PeerBook.Proofs.Desk.Contents
import PeerBook.Proofs.Store.Listing
import PeerBook.Proofs.Store.Read

/-! # Stores of both layouts on one engine

Calls through stores of both layouts keep records apart: what is found under a
layout was stored under it. A scoped listing shows exactly this as well. The
range of the flat records encloses the scoped ones, so that a flat listing
shows these too, behind the flat ones.
-/

namespace PeerBook

open Journal

/-- Snapshots and cursors are opened and closed, the log is forced to disk, time passes, and the
device changes its mind. -/
structure Mounted.Waits (m m' : Mounted) : Prop where
  engine : ∃ pins w, m'.engine = { m.engine with pins := pins, appender := w } ∧
    w.map Appender.place = m.engine.appender.map Appender.place
  file : m'.file.bytes = m.file.bytes

/-- An engine whose log, if it has one, holds all that the engine holds. -/
def Mounted.Kept (m : Mounted) : Prop :=
  m.engine.appender = none ∨ ∃ es, (Desk.start m).Complete es

variable {m m' : Mounted}

theorem Mounted.Waits.lsn (h : m.Waits m') :
    m'.engine.appender.map (·.lsn) = m.engine.appender.map (·.lsn) := by
  obtain ⟨pins, w, he, hw⟩ := h.engine
  have hl := congrArg (Option.map Prod.fst) hw
  rw [Option.map_map, Option.map_map] at hl
  rw [he]
  exact hl

theorem Mounted.Waits.kept (h : m.Waits m') (hk : m.Kept) : m'.Kept := by
  obtain ⟨pins, w, he, hw⟩ := h.engine
  refine hk.imp (fun hn => ?_) ?_
  · rw [hn] at hw
    rw [he]
    exact Option.map_eq_none_iff.mp hw
  · rintro ⟨es, hc⟩
    have hv : m'.engine.visible = m.engine.visible := by rw [he]
    have hp : m'.engine.appender.map Appender.place = m.engine.appender.map Appender.place := by
      rw [he, hw]
    have hl := (Engine.logged_iff.mp hc.logged).congr hv hp h.file
    refine ⟨es, Engine.logged_iff.mpr hl, hc.count.trans (congrArg UInt64.toNat hv.symm), ?_⟩
    intro key
    refine Eq.trans ?_ (hc.get key)
    change m'.engine.get key = m.engine.get key
    rw [he]
    rfl

namespace Store

open StoreM

variable {l : Layout} {calls : List (Layout × Call)} {s : Session Mounted}

/-- The sessions that calls through stores of both layouts lead to on an engine that was new, with
the calls that took effect. An engine with a log may be closed and opened again in between. -/
inductive Shared : List (Layout × Call) → Session Mounted → Prop where
  | volatile : Shared [] (.start .volatile)
  | created {pageSize : Nat} {policy : SyncPolicy} {clock : UInt64} {m : Mounted}
      (opened : Mounted.load pageSize policy clock none = .ok m) : Shared [] (.start m)
  | took {calls : List (Layout × Call)} {l : Layout} {c : Call} {s : Session Mounted}
      (before : Shared calls s) (effect : TookEffect ((c.perform l).exec s).1) :
      Shared (calls ++ [(l, c)]) ((c.perform l).exec s).2
  | failed {calls : List (Layout × Call)} {l : Layout} {c : Call} {s : Session Mounted}
      (before : Shared calls s) (noEffect : ¬ TookEffect ((c.perform l).exec s).1) :
      Shared calls ((c.perform l).exec s).2
  | meanwhile {calls : List (Layout × Call)} {s s' : Session Mounted} (before : Shared calls s)
      (between : s.engine.Waits s'.engine) : Shared calls s'
  | reopened {calls : List (Layout × Call)} {s : Session Mounted} {pageSize : Nat}
      {policy : SyncPolicy} {clock : UInt64} {m : Mounted} (before : Shared calls s)
      (durable : s.engine.engine.appender ≠ none)
      (opened : Mounted.load pageSize policy clock (some s.engine.file) = .ok m) :
      Shared calls (.start m)

theorem Shared.restart (h : Shared calls s) : Shared calls (.start s.engine) :=
  h.meanwhile ⟨⟨_, _, rfl, rfl⟩, rfl⟩

/-- The engine of a session holds what the calls wrote, and so does its log if it has one. -/
structure HoldsJoint (calls : List (Layout × Call)) (s : Session Mounted) : Prop where
  sound : s.engine.engine.Sound
  visible : s.engine.engine.visible.toNat = calls.length
  get : ∀ key, s.engine.engine.get key = (joint calls).find? key
  kept : s.engine.Kept

theorem Call.kept_perform (l : Layout) (c : Call) (h : s.engine.Kept) (hs : s.engine.engine.Sound)
    (hl : TookEffect ((c.perform l).exec s).1 → s.engine.engine.Lasts) :
    ((c.perform l).exec s).2.engine.Kept := by
  rcases c.perform_mounted l s with ⟨-, -, he⟩ | ⟨-, hx, he⟩
  · rwa [he]
  · rw [he]
    refine h.imp (fun hn => ?_) ?_
    · rw [Mounted.commit_batch _ (writes_ne_nil l c), Engine.commit, hn]
      exact hn
    · rintro ⟨es, hc⟩
      apply hc.commit hs
      intro hr
      apply hl
      rw [hx, hr]
      exact .inl rfl

theorem Shared.holds (h : Shared calls s) (hl : calls.length < 2 ^ 64) : HoldsJoint calls s := by
  induction h with
  | volatile => exact ⟨.volatile, rfl, fun _ => rfl, .inl rfl⟩
  | @created pageSize policy clock m opened =>
    have hc := Desk.complete_of_created opened
    exact ⟨(Mounted.Opened.load opened).sound.1, hc.count.symm, hc.get, .inr ⟨[], hc⟩⟩
  | @took calls l c s before effect ih =>
    rw [List.length_append, List.length_singleton] at hl
    obtain ⟨hs, hv, hg, hk⟩ := ih (by omega)
    rw [← hv] at hl
    have hgrow := Call.grows_of_tookEffect hs hl effect
    refine ⟨hgrow.sound, ?_, fun key => ?_, ?_⟩
    · rw [hgrow.visible, hv, List.length_append, List.length_singleton]
    · rw [(Atomic.mounted l).took c s effect, hg, find?_joint_concat]
    · exact c.kept_perform l hk hs fun _ => Engine.lasts_of_toNat_lt hl
  | @failed calls l c s before noEffect ih =>
    obtain ⟨hs, hv, hg, hk⟩ := ih hl
    have hgrow := Call.grows_of_not_tookEffect hs noEffect
    refine ⟨hgrow.sound, hgrow.visible.trans hv, fun key => ?_, ?_⟩
    · rw [(Atomic.mounted l).failed c s noEffect, hg]
    · exact c.kept_perform l hk hs fun h => absurd h noEffect
  | @meanwhile calls s s' before between ih =>
    obtain ⟨hs, hv, hg, hk⟩ := ih hl
    have hlsn := between.lsn
    have hkept := between.kept hk
    obtain ⟨pins, w, he, hw⟩ := between.engine
    rw [he] at hlsn
    refine ⟨?_, ?_, fun key => ?_, hkept⟩
    · rw [he]
      exact (hs.withPins pins).appender (hs.lsn_eq hlsn)
    · rw [he]
      exact hv
    · rw [he]
      exact hg key
  | @reopened calls s pageSize policy clock m before durable opened ih =>
    obtain ⟨hs, hv, hg, hk⟩ := ih hl
    obtain ⟨es, hc⟩ := hk.resolve_left durable
    obtain ⟨m', hm, -, hv', hc'⟩ := hc.load (Mounted.pos_of_load opened) policy clock
    obtain rfl := Except.ok.inj (opened.symm.trans hm)
    refine ⟨(Mounted.Opened.load opened).sound.1, ?_, fun key => ?_, .inr ⟨es, hc'⟩⟩
    · exact (congrArg UInt64.toNat hv').trans hv
    · exact ((hc'.get key).trans (hc.get key).symm).trans (hg key)

/-- For each layout the peers stored last under it, in the order of their identities. -/
structure Found (calls : List (Layout × Call)) (found : Layout → List Peer) : Prop where
  order : ∀ l, (found l).Pairwise fun p q => p.identity.Before q.identity
  mem : ∀ l p, p ∈ found l ↔ latest (under l calls) p.identity = some p

namespace Found

variable {found : Layout → List Peer}

theorem exists_of_calls (hp : ∀ c ∈ calls, c.2.peer.encode.length < 2 ^ 64) :
    ∃ found, Found calls found := by
  have he (l : Layout) := exists_latest fun c hc => hp (l, c) (mem_under.mp hc)
  choose found order mem using he
  exact ⟨found, order, mem⟩

theorem pairwise_bindings (h : Found calls found) (l : Layout) :
    ((found l).map (Peer.binding l)).Pairwise (·.1 < ·.1) :=
  List.pairwise_map.mpr ((h.order l).imp Layout.recordKey_lt_recordKey_iff.mpr)

theorem mem_bindings (h : Found calls found) {b : Binding} :
    b ∈ (found l).map (Peer.binding l) ↔
      ∃ p, latest (under l calls) p.identity = some p ∧ p.binding l = b := by
  rw [List.mem_map]
  simp only [h.mem]

theorem decode_bindings (h : Found calls found) (hp : ∀ c ∈ calls, c.2.peer.encode.length < 2 ^ 64)
    (l : Layout) :
    ((found l).map (Peer.binding l)).map (fun b => Peer.decode b.2) = (found l).map .ok := by
  rw [List.map_map, List.map_inj_left]
  intro p hm
  obtain ⟨c, hc, rfl⟩ := mem_of_latest ((h.mem l p).mp hm)
  rw [Function.comp_apply, Peer.binding]
  exact Peer.decode_encode (hp (l, c) (mem_under.mp hc))

end Found

namespace HoldsJoint

variable {found : Layout → List Peer}

theorem mem_recordRange (h : HoldsJoint calls s) {b : Binding} :
    b ∈ recordRange l s.engine.engine ↔
      l.recordLead <+: b.1 ∧ (joint calls).find? b.1 = some b.2 := by
  rw [Store.mem_recordRange h.sound, h.get]

theorem recordRange_scoped (h : HoldsJoint calls s) (hf : Found calls found) :
    recordRange .scoped s.engine.engine = (found .scoped).map (Peer.binding .scoped) := by
  refine SortedMap.eq_of_mem_iff (Table.pairwise_range ..) (hf.pairwise_bindings _) fun b => ?_
  rw [h.mem_recordRange, joint_eq_some_iff, hf.mem_bindings]
  simp only [Layout.scopedLead_isPrefix_iff, exists_and_left, exists_eq_left]

theorem recordRange_flat (h : HoldsJoint calls s) (hf : Found calls found) :
    recordRange .flat s.engine.engine =
      (found .flat).map (Peer.binding .flat) ++ (found .scoped).map (Peer.binding .scoped) := by
  refine SortedMap.eq_of_mem_iff (Table.pairwise_range ..) ?_ fun b => ?_
  · refine List.pairwise_append.mpr ⟨hf.pairwise_bindings _, hf.pairwise_bindings _, ?_⟩
    intro b hb b' hb'
    obtain ⟨p, -, rfl⟩ := List.mem_map.mp hb
    obtain ⟨q, -, rfl⟩ := List.mem_map.mp hb'
    exact Layout.flat_recordKey_lt_scoped _ _
  · rw [h.mem_recordRange, joint_eq_some_iff, List.mem_append, hf.mem_bindings, hf.mem_bindings]
    simp only [Layout.flatLead_isPrefix, true_and]
    constructor
    · rintro ⟨l, hl⟩
      match l with
      | .scoped => exact .inr hl
      | .flat => exact .inl hl
    · rintro (hl | hl)
      · exact ⟨.flat, hl⟩
      · exact ⟨.scoped, hl⟩

theorem fst_find_eq_ok_iff (h : HoldsJoint calls s)
    (hp : ∀ c ∈ calls, c.2.peer.encode.length < 2 ^ 64) {ctx : Context} (hs : s.Calm ctx)
    {i : Identity} {p : Peer} :
    ((find l ctx i).exec s).1 = .ok p ↔ latest (under l calls) i = some p := by
  have hg : s.engine.engine.get (l.recordKey i) =
      (latest (under l calls) i).map Peer.encode := (h.get _).trans (joint_recordKey ..)
  rw [fst_find hs.decodes, Context.check_eq_ok_iff.mpr hs.context]
  change stored l s.engine.engine (l.recordKey i) = _ ↔ _
  cases hc : latest (under l calls) i with
  | none =>
    rw [hc] at hg
    simp [stored_of_none hg]
  | some q =>
    obtain ⟨c, hm, rfl⟩ := mem_of_latest hc
    rw [hc] at hg
    rw [stored_of_some hg, decoded_encode (hp (l, c) (mem_under.mp hm)), Except.ok.injEq,
      Option.some.injEq]

end HoldsJoint

/-- After calls through stores of both layouts on one engine, a scoped listing shows what is found
under the scoped layout. A flat listing shows what is found under the flat layout, and then the
scoped listing over again. Of either layout every identity is shown once, in the order of the
identities. -/
theorem listings_of_layouts (h : Shared calls s) (hl : calls.length < 2 ^ 64)
    (hp : ∀ c ∈ calls, c.2.peer.encode.length < 2 ^ 64) (ctx : Context) (hs : s.Calm ctx) :
    ∃ found : Layout → List Peer,
      (∀ l, (found l).Pairwise (fun p q => p.identity.Before q.identity) ∧
        ∀ p, p ∈ found l ↔ ((find l ctx p.identity).exec s).1 = .ok p) ∧
      Lists .scoped ctx s (found .scoped) ∧
      Lists .flat ctx s (found .flat ++ found .scoped) := by
  have hh := h.holds hl
  obtain ⟨found, hf⟩ := Found.exists_of_calls hp
  refine ⟨found, fun l => ⟨hf.order l, fun p => ?_⟩, ?_, ?_⟩
  · rw [hf.mem, hh.fst_find_eq_ok_iff hp hs]
  · apply lists_of_recordRange hh.sound hs
    rw [hh.recordRange_scoped hf, hf.decode_bindings hp]
  · apply lists_of_recordRange hh.sound hs
    rw [hh.recordRange_flat hf, List.map_append, List.map_append, hf.decode_bindings hp,
      hf.decode_bindings hp]

/-- A peer under either layout, with the log opened again in between. -/
theorem listings_of_layouts_reopened :
    let ann : Peer := .new ⟨.user, 1⟩ 10 0
    let bob : Peer := .new ⟨.chat, -1⟩ 20 0
    ∃ s, Shared [(.scoped, ⟨.background, ann, some "x"⟩), (.flat, ⟨.background, bob, none⟩)] s ∧
      Lists .scoped .background s [ann] ∧ Lists .flat .background s [bob, ann] ∧
      ((find .flat .background bob.identity).exec s).1 = .ok bob := by
  intro ann bob
  let c : Call := ⟨.background, ann, some "x"⟩
  let m : Mounted := ⟨⟨1, some (.start .everyWrite 0 .empty), .empty, 0, .empty⟩, .empty, 0⟩
  have hm : Mounted.load 1 .everyWrite 0 none = .ok m := rfl
  let f : LogFile := ((c.perform .scoped).exec (.start m)).2.engine.file
  let es : List Entry := [⟨1, .batch (c.writes .scoped), 0⟩]
  have hr := LogFile.recover_frames (f := f) (show ∀ e ∈ es, e.Fits by decide +kernel) (by rfl)
  have hload := Mounted.load_of_recover hr Nat.one_pos .everyWrite 0
  have hcreated : Shared [(.scoped, c)] ((c.perform .scoped).exec (.start m)).2 :=
    (Shared.created hm).took (by decide +kernel)
  have hreopened : Shared [(.scoped, c)] _ := hcreated.reopened (by decide +kernel) hload
  have hs := (hreopened.took (l := .flat) (c := ⟨.background, bob, none⟩)
    (by decide +kernel)).restart
  obtain ⟨found, hf, hscoped, hflat⟩ := listings_of_layouts hs (by decide) (by decide +kernel)
    .background ⟨rfl, rfl, rfl⟩
  have hann : found .scoped = [ann] :=
    Option.some.inj ((congrArg Except.toOption hscoped.1).symm.trans (by decide +kernel))
  have hboth : found .flat ++ found .scoped = [bob] ++ [ann] :=
    Option.some.inj ((congrArg Except.toOption hflat.1).symm.trans (by decide +kernel))
  have hbob : found .flat = [bob] := List.append_cancel_right (hann ▸ hboth)
  rw [hann] at hscoped hflat
  rw [hbob] at hflat
  exact ⟨_, hs, hscoped, hflat, ((hf .flat).2 bob).mp (by simp [hbob])⟩

/-- What only the scoped layout finds is shown by a flat listing too. -/
theorem flat_listing_shows_scoped :
    let ann : Peer := .new ⟨.user, 1⟩ 10 0
    let c : Call := ⟨.background, ann, none⟩
    let s := ((c.perform .scoped).exec (.start .volatile)).2
    Shared [(.scoped, c)] s ∧
      ¬ ∃ peers, ((list .flat .background).exec s).1 = .ok peers ∧
        (∀ p, p ∈ peers ↔ ((find .flat .background p.identity).exec s).1 = .ok p) ∧
        (peers.map Peer.identity).Nodup := by
  intro ann c s
  refine ⟨Shared.volatile.took (l := .scoped) (c := c) (by decide +kernel), ?_⟩
  rintro ⟨peers, hl, hf, -⟩
  have hp : peers = [ann] :=
    Option.some.inj ((congrArg Except.toOption hl).symm.trans (by decide +kernel))
  have hann : ((find .flat .background ann.identity).exec s).1 = .ok ann :=
    (hf ann).mp (by simp [hp])
  have hnone : ((find .flat .background ann.identity).exec s).1.toOption = none := by
    decide +kernel
  rw [hann] at hnone
  cases hnone

end Store

end PeerBook
