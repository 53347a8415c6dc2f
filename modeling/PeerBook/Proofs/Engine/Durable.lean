import PeerBook.Proofs.Engine.Sound
import PeerBook.Proofs.Journal.Split

/-! # Durable engines

The log of a durable engine holds the frames it was opened on and, behind
them, those of its commits, numbered from one on where there were none. A
commit that succeeds adds a frame; one that fails leaves the log as it was. An
engine that is opened on the first bytes of such a log continues it behind the
last frame that is whole, with what its entries wrote.
-/

namespace PeerBook.Engine

open Journal

variable {e : Engine} {f : LogFile} {gs : List Bytes} {last : UInt64} {es : List Entry} {n : Nat}

def writes (es : List Entry) : List Binding :=
  es.flatMap (·.operation.writes)

theorem readLatest_replay (t : Table) (es : List Entry) (key : Bytes) :
    (replay t es).readLatest key =
      ((SortedMap.ofList (writes es)).find? key).or (t.readLatest key) := by
  induction es generalizing t with
  | nil => rfl
  | cons e es ih =>
    have hw : writes (e :: es) = e.operation.writes ++ writes es := rfl
    rw [hw, SortedMap.find?_ofList_append, Option.or_assoc, ← Table.readLatest_apply t e.lsn e.lsn]
    exact ih _

theorem find?_chains_replay (t : Table) (es : List Entry) (key : Bytes) :
    (replay t es).chains.find? key = none ↔
      (SortedMap.ofList (writes es)).find? key = none ∧ t.chains.find? key = none := by
  induction es generalizing t with
  | nil => simp [replay, writes, SortedMap.ofList]
  | cons e es ih =>
    have hw : writes (e :: es) = e.operation.writes ++ writes es := rfl
    rw [hw, SortedMap.find?_ofList_append, Option.or_eq_none_iff, and_assoc,
      ← Table.find?_chains_apply t e.lsn e.lsn]
    exact ih _

/-- The log holds the frames of these entries, and the engine goes on behind them. -/
structure Logged (e : Engine) (f : LogFile) (es : List Entry) : Prop where
  bytes : f.bytes = frames es
  fits : ∀ entry ∈ es, entry.Fits
  numbered : Numbered es
  visible : e.visible = UInt64.ofNat es.length
  appended : ∃ w, e.appender = some w ∧ w.lsn = e.visible ∧ w.length = f.size

/-- The log holds complete frames and behind them the frames of entries that count on from `last`,
and the engine goes on behind these. -/
structure Continued (e : Engine) (f : LogFile) (gs : List Bytes) (last : UInt64)
    (es : List Entry) : Prop where
  bytes : f.bytes = gs.flatten ++ frames es
  frames : ∀ g ∈ gs, IsFrame g
  fits : ∀ entry ∈ es, entry.Fits
  numbered : NumberedFrom last es
  visible : e.visible = last + UInt64.ofNat es.length
  appended : ∃ w, e.appender = some w ∧ w.lsn = e.visible ∧ w.length = f.size

theorem logged_iff : e.Logged f es ↔ e.Continued f [] 0 es := by
  have hv : UInt64.ofNat es.length = 0 + UInt64.ofNat es.length := (UInt64.zero_add _).symm
  constructor
  · intro h
    exact ⟨h.bytes, by simp, h.fits, numbered_iff.mp h.numbered, h.visible.trans hv, h.appended⟩
  · intro h
    exact ⟨h.bytes, h.fits, numbered_iff.mpr h.numbered, h.visible.trans hv.symm, h.appended⟩

theorem Continued.congr (h : e.Continued f gs last es) {e' : Engine} {f' : LogFile}
    (hv : e'.visible = e.visible)
    (ha : e'.appender.map Appender.place = e.appender.map Appender.place)
    (hb : f'.bytes = f.bytes) : e'.Continued f' gs last es where
  bytes := hb.trans h.bytes
  frames := h.frames
  fits := h.fits
  numbered := h.numbered
  visible := hv.trans h.visible
  appended := by
    obtain ⟨w, hw, hlsn, hlen⟩ := h.appended
    rw [hw, Option.map_some] at ha
    obtain ⟨w', hw', hp⟩ := Option.map_eq_some_iff.mp ha
    obtain ⟨hlsn', hlen'⟩ := Prod.mk.inj hp
    rw [hv, LogFile.size, hb]
    exact ⟨w', hw', hlsn'.trans hlsn, hlen'.trans hlen⟩

theorem place_sync (e : Engine) (f : LogFile) :
    (e.sync f).2.appender.map Appender.place = e.appender.map Appender.place := by
  unfold sync
  cases ha : e.appender with
  | none => exact congrArg _ ha
  | some w => exact congrArg some (w.place_sync f)

theorem Continued.sync (h : e.Continued f gs last es) :
    (e.sync f).2.Continued f gs last es := by
  have hv : (e.sync f).2.visible = e.visible := by
    unfold Engine.sync
    cases e.appender <;> rfl
  exact h.congr hv (e.place_sync f) rfl

def nextEntry (e : Engine) (timestamp : UInt64) (operation : Operation) : Entry where
  lsn := e.visible + 1
  operation
  timestamp

theorem Continued.commit_cases (h : e.Continued f gs last es) (timestamp : UInt64)
    (operation : Operation) :
    (∃ e' f', e.commit timestamp operation f = (.ok (), e', f') ∧
      e'.Continued f' gs last (es ++ [e.nextEntry timestamp operation])) ∨
    (∃ err e' f', e.commit timestamp operation f = (.error err, e', f') ∧
      e'.Continued f' gs last es) := by
  obtain ⟨w, hw, hlsn, hlen⟩ := h.appended
  have hne : w.nextEntry timestamp operation = e.nextEntry timestamp operation := by
    rw [nextEntry, Appender.nextEntry, hlsn]
  have hnext : e.visible + 1 = last + UInt64.ofNat (es.length + 1) := by
    rw [h.visible, UInt64.ofNat_add, UInt64.add_assoc]
    rfl
  unfold commit
  rw [hw]
  rcases Appender.append_at_end hlen timestamp operation with
    ⟨w', f', hok, hfits, hb, hlsn', hlen'⟩ | ⟨err, w', f', herr, hb, hp⟩
  · left
    rw [hne] at hok hfits hb hlsn'
    simp only [hok]
    refine ⟨_, f', rfl, ?_, h.frames, ?_, h.numbered.concat hnext, ?_, w', rfl, hlsn', hlen'⟩
    · rw [hb, h.bytes, frames_concat, List.append_assoc]
    · simpa [or_imp, forall_and, hfits] using h.fits
    · rw [List.length_append]
      exact hnext
  · right
    simp only [herr]
    have ha : (some w').map Appender.place = e.appender.map Appender.place := by
      rw [hw, Option.map_some, Option.map_some, hp]
    exact ⟨_, _, _, rfl, h.congr rfl ha hb⟩

theorem Logged.commit_cases (h : e.Logged f es) (timestamp : UInt64) (operation : Operation) :
    (∃ e' f', e.commit timestamp operation f = (.ok (), e', f') ∧
      e'.Logged f' (es ++ [e.nextEntry timestamp operation])) ∨
    (∃ err e' f', e.commit timestamp operation f = (.error err, e', f') ∧ e'.Logged f' es) := by
  simp only [logged_iff] at h ⊢
  exact h.commit_cases timestamp operation

/-- Recovering leaves the log as it is, and gives what the frames in front still hold, then the
entries behind them. -/
theorem Continued.recover (h : e.Continued f gs last es) :
    f.recover =
      ({ entries := gs.filterMap Entry.ofFrame? ++ es
         corrupted := gs.countP fun g => (Entry.ofFrame? g).isNone
         kept := f.size
         truncated := false }, f) :=
  LogFile.recover_continued h.frames h.fits h.bytes

theorem load_splits {tail : Bytes} (h : Splits f.bytes gs tail) {pageSize : Nat}
    (hp : 0 < pageSize) (policy : SyncPolicy) :
    ∃ e, load pageSize policy (some f) = .ok (e, f.recover.2) ∧
      e.visible = f.recover.1.lastLsn ∧
      e.Continued f.recover.2 gs f.recover.1.lastLsn [] ∧
      e.table = replay .empty f.recover.1.entries := by
  rw [load, if_neg (Nat.ne_of_gt hp)]
  refine ⟨_, rfl, rfl, ⟨?_, h.frames, by simp, .nil _, ?_, _, rfl, rfl, rfl⟩, rfl⟩
  · rw [LogFile.recover_splits h]
    exact (List.append_nil _).symm
  · exact (UInt64.add_zero _).symm

theorem load_absent (pageSize : Nat) (policy : SyncPolicy) (log : Option LogFile) :
    load pageSize policy log = load pageSize policy (some (log.getD .empty)) := by
  cases log with
  | some f => rfl
  | none =>
    have hr : LogFile.empty.recover = (Recovery.none, .empty) := by
      have hv : LogFile.empty.verify = .none := Recovery.ofBytes_finish rfl
      rw [LogFile.recover, hv]
      rfl
    simp only [load, Option.getD_none, hr]

theorem load_cut (hf : ∀ entry ∈ es, entry.Fits) (hn : Numbered es) (hl : es.length < 2 ^ 64)
    {log : Option LogFile} (h : (log.getD .empty).bytes = (frames es).take n) {pageSize : Nat}
    (hp : 0 < pageSize) (policy : SyncPolicy) :
    ∃ e f, load pageSize policy log = .ok (e, f) ∧ e.Logged f (surviving n es) ∧
      e.table = replay .empty (surviving n es) := by
  have hs := prefix_surviving n es
  obtain ⟨hr, hb⟩ := LogFile.recover_take hf h
  have hv : (log.getD .empty).recover.1.lastLsn = UInt64.ofNat (surviving n es).length := by
    have hl' : (surviving n es).length < 2 ^ 64 := Nat.lt_of_le_of_lt hs.length_le hl
    rw [← hr] at hl' ⊢
    exact Numbered.lastLsn (hr ▸ hn.take hs) hl'
  rw [load_absent, load, if_neg (Nat.ne_of_gt hp)]
  refine ⟨_, _, rfl, ⟨?_, ?_, hn.take hs, hv, _, rfl, rfl, rfl⟩, ?_⟩
  · exact congrArg LogFile.bytes hb
  · exact fun entry hm => hf entry (hs.subset hm)
  · exact congrArg (replay .empty) hr

theorem load_frames (hf : ∀ entry ∈ es, entry.Fits) (hn : Numbered es) (hl : es.length < 2 ^ 64)
    (h : f.bytes = frames es) {pageSize : Nat} (hp : 0 < pageSize) (policy : SyncPolicy) :
    ∃ e, load pageSize policy (some f) = .ok (e, f) ∧ e.Logged f es ∧
      e.table = replay .empty es := by
  have ht : ((some f).getD .empty).bytes = (frames es).take (frames es).length :=
    h.trans List.take_length.symm
  obtain ⟨e, f', he, hlog, htable⟩ := load_cut hf hn hl ht hp policy
  have hf' : f = f' := by
    rw [load, if_neg (Nat.ne_of_gt hp), LogFile.recover_frames hf h] at he
    exact (Prod.mk.inj (Except.ok.inj he)).2
  rw [surviving_of_length_le (Nat.le_refl _)] at hlog htable
  exact ⟨e, hf' ▸ he, hf' ▸ hlog, htable⟩

end PeerBook.Engine
