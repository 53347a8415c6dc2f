import PeerBook.Proofs.Engine.Durable
import PeerBook.Proofs.Error

/-! # Appends that fail

An append is refused if the entry is too long, if the device does not take all
of its frame, or if a sync that is due fails. What it wrote by then is cut off
again. So whatever is refused on the way, the file holds the frames of the
entries that were written, in step with the appender, and all of them are
recovered. A commit that is refused changes nothing that a reader of the engine
sees.
-/

namespace PeerBook.Journal

namespace Appender

/-- Why an append is refused, if it is. -/
def refusal? (timestamp : UInt64) (operation : Operation) (w : Appender) (f : LogFile) :
    Option EngineError :=
  let e := w.nextEntry timestamp operation
  if maxPayload < e.payload.length then some (oversize e.payload.length)
  else if f.room.any (· < e.bytes.length) then some (failure "append" e.lsn noSpace)
  else if w.isDue (w.unsynced + 1) && !f.syncs then some (failure "sync" e.lsn invalidArgument)
  else none

theorem failure?_append (timestamp : UInt64) (operation : Operation) (w : Appender) (f : LogFile) :
    failure? (w.append timestamp operation f).1 = w.refusal? timestamp operation f := by
  unfold refusal?
  by_cases hl : maxPayload < (w.nextEntry timestamp operation).payload.length
  · rw [append_of_oversize hl, if_pos hl]
    rfl
  · have he : (⟨w.lsn + 1, operation, timestamp⟩ : Entry) = w.nextEntry timestamp operation := rfl
    have hf : (w.nextEntry timestamp operation).frame =
        .ok (w.nextEntry timestamp operation).bytes :=
      Entry.frame_eq_ok_iff.mpr ⟨Nat.not_lt.mp hl, rfl⟩
    rw [if_neg hl]
    simp only [append, he, hf, LogFile.append]
    cases f.room with
    | none =>
      cases w.isDue (w.unsynced + 1) <;> cases f.syncs <;> simp
    | some room =>
      by_cases hr : (w.nextEntry timestamp operation).bytes.length ≤ room
      · cases w.isDue (w.unsynced + 1) <;> cases f.syncs <;> simp [hr, Nat.not_lt.mpr hr]
      · simp [hr, Nat.not_le.mp hr]

end Appender

/-- One append, with the device as it finds it. -/
structure Attempt where
  timestamp : UInt64
  operation : Operation
  /-- How many bytes the device takes; without a number, all. -/
  room : Option Nat
  /-- Whether forcing the file to disk succeeds. -/
  syncs : Bool
  deriving DecidableEq, Repr

/-- An appender at work on its file, and the entries that it wrote so far. -/
structure Appending where
  appender : Appender
  file : LogFile
  written : List Entry
  deriving DecidableEq, Repr

namespace Appending

variable {w : Appender} {f : LogFile} {s : Appending}

/-- The file on the device as the attempt finds it. -/
def device (a : Attempt) (s : Appending) : LogFile :=
  { s.file with room := a.room, syncs := a.syncs }

def attempt (a : Attempt) (s : Appending) : Except EngineError Entry × Appending :=
  match s.appender.append a.timestamp a.operation (s.device a) with
  | (.ok e, appender, file) => (.ok e, { appender, file, written := s.written ++ [e] })
  | (.error err, appender, file) => (.error err, { s with appender, file })

def run (as : List Attempt) (s : Appending) : Appending :=
  as.foldl (fun s a => (s.attempt a).2) s

/-- Behind what the file held at the start are the frames of the entries that were written, and the
appender is at their end, in numbers and in bytes. -/
structure InStep (w : Appender) (f : LogFile) (s : Appending) : Prop where
  bytes : s.file.bytes = f.bytes ++ frames s.written
  fits : ∀ e ∈ s.written, e.Fits
  numbered : NumberedFrom w.lsn s.written
  lsn : s.appender.lsn = w.lsn + UInt64.ofNat s.written.length
  length : s.appender.length = s.file.size

theorem inStep_start (h : w.length = f.size) : InStep w f ⟨w, f, []⟩ where
  bytes := (List.append_nil _).symm
  fits := by simp
  numbered := .nil _
  lsn := (UInt64.add_zero _).symm
  length := h

theorem attempt_cases (h : s.appender.length = s.file.size) (a : Attempt) :
    let e := s.appender.nextEntry a.timestamp a.operation
    (∃ w' f', s.attempt a = (.ok e, ⟨w', f', s.written ++ [e]⟩) ∧ e.Fits ∧
      f'.bytes = s.file.bytes ++ e.bytes ∧ w'.lsn = e.lsn ∧ w'.length = f'.size) ∨
    (∃ err w' f', s.attempt a = (.error err, ⟨w', f', s.written⟩) ∧ f'.bytes = s.file.bytes ∧
      w'.place = s.appender.place) := by
  intro e
  unfold attempt
  rcases Appender.append_at_end (f := s.device a) h a.timestamp a.operation with
    ⟨w', f', hok, he⟩ | ⟨err, w', f', herr, hb⟩
  · exact .inl ⟨w', f', by rw [hok], he⟩
  · exact .inr ⟨err, w', f', by rw [herr], hb⟩

theorem failure?_attempt (a : Attempt) (s : Appending) :
    failure? (s.attempt a).1 = s.appender.refusal? a.timestamp a.operation (s.device a) := by
  rw [← Appender.failure?_append]
  unfold attempt
  rcases s.appender.append a.timestamp a.operation (s.device a) with ⟨_ | _, _, _⟩ <;> rfl

theorem InStep.attempt (h : InStep w f s) (a : Attempt) : InStep w f (s.attempt a).2 := by
  rcases attempt_cases h.length a with
    ⟨w', f', hok, he, hb, hlsn, hlen⟩ | ⟨err, w', f', herr, hb, hp⟩
  · have hnext : s.appender.lsn + 1 = w.lsn + UInt64.ofNat (s.written.length + 1) := by
      rw [h.lsn, UInt64.ofNat_add, UInt64.add_assoc]
      rfl
    rw [hok]
    constructor
    · rw [hb, h.bytes, frames_concat, List.append_assoc]
    · simpa [or_imp, forall_and, he] using h.fits
    · exact h.numbered.concat hnext
    · rw [List.length_append]
      exact hlsn.trans hnext
    · exact hlen
  · obtain ⟨hlsn, hlen⟩ := Prod.mk.inj hp
    rw [herr]
    constructor
    · exact hb.trans h.bytes
    · exact h.fits
    · exact h.numbered
    · exact hlsn.trans h.lsn
    · exact hlen.trans (h.length.trans (congrArg List.length hb).symm)

theorem InStep.run (h : InStep w f s) (as : List Attempt) : InStep w f (s.run as) := by
  induction as generalizing s with
  | nil => exact h
  | cons a as ih => exact ih (h.attempt a)

theorem InStep.recover (h : InStep w f s) (hf : f.recover.1.truncated = false) :
    s.file.recover =
      ({ f.recover.1 with entries := f.recover.1.entries ++ s.written, kept := s.file.size },
        s.file) := by
  obtain ⟨gs, tail, hs⟩ := exists_splits f.bytes
  have hr := LogFile.recover_splits hs
  rw [hr] at hf ⊢
  have ht : tail = [] := by simpa using hf
  subst ht
  have hb := h.bytes
  rw [hs.bytes, List.append_nil] at hb
  exact LogFile.recover_continued hs.frames h.fits hb

end Appending

end PeerBook.Journal

namespace PeerBook.Engine

open Journal

theorem commit_of_refused {engine : Engine} {a : Attempt} {s s' : Appending} {err : EngineError}
    (hw : engine.appender = some s.appender) (h : s.attempt a = (.error err, s')) :
    engine.commit a.timestamp a.operation (s.device a) =
      (.error err, { engine with appender := some s'.appender }, s'.file) := by
  unfold Appending.attempt at h
  unfold commit
  rw [hw]
  rcases happend : s.appender.append a.timestamp a.operation (s.device a) with ⟨_ | _, w', f'⟩
  · simp only [happend] at h ⊢
    cases h
    rfl
  · simp only [happend] at h
    cases h

/-- An appender at the end of its file has made some attempts and makes one more. Before it, the
file holds what it held at the start and the frames of the entries that were written, which count on
from the first, and the appender is at their end. They are all recovered, behind what could be
recovered at the start; behind frames, nothing is corrupted or cut off. If the attempt is refused,
the file, the number and the length stay as they were, and an engine that commits with this appender
shows what it showed. Otherwise the frame of the next number is put at the end. -/
theorem refused_appends_undone {w : Appender} {f : LogFile} (h : w.length = f.size)
    (as : List Attempt) (a : Attempt) :
    let s := Appending.run as ⟨w, f, []⟩
    let s' := (s.attempt a).2
    let e := s.appender.nextEntry a.timestamp a.operation
    let refusal? := s.appender.refusal? a.timestamp a.operation (s.device a)
    (s.file.bytes = f.bytes ++ frames s.written ∧ s.appender.length = s.file.size ∧
      NumberedFrom w.lsn s.written ∧ s.appender.lsn = w.lsn + UInt64.ofNat s.written.length) ∧
    (f.recover.1.truncated = false →
      s.file.recover =
        ({ f.recover.1 with entries := f.recover.1.entries ++ s.written, kept := s.file.size },
          s.file)) ∧
    (∀ before, (∀ e ∈ before, e.Fits) → f.bytes = frames before →
      s.file.recover = (⟨before ++ s.written, 0, s.file.size, false⟩, s.file)) ∧
    (refusal? = none → (s.attempt a).1 = .ok e ∧ e.frame = .ok e.bytes ∧
      s'.file.bytes = s.file.bytes ++ e.bytes ∧ e.lsn = s.appender.lsn + 1 ∧
      s'.appender.lsn = e.lsn ∧ s'.appender.length = s'.file.size ∧
      s'.written = s.written ++ [e]) ∧
    ∀ err, refusal? = some err → (s.attempt a).1 = .error err ∧
      s'.file.bytes = s.file.bytes ∧ s'.appender.lsn = s.appender.lsn ∧
      s'.appender.length = s.appender.length ∧ s'.written = s.written ∧
      ∀ engine : Engine, engine.appender = some s.appender →
        let result := engine.commit a.timestamp a.operation (s.device a)
        let engine' := { engine with appender := some s'.appender }
        result = (.error err, engine', s'.file) ∧ engine'.visible = engine.visible ∧
          (∀ key, engine'.get key = engine.get key) ∧
          ∀ (snapshot : Snapshot) key, snapshot.get key engine' = snapshot.get key engine := by
  intro s s' e refusal?
  have hs : s.InStep w f := (Appending.inStep_start h).run as
  have hfailure : failure? (s.attempt a).1 = refusal? := Appending.failure?_attempt a s
  refine ⟨⟨hs.bytes, hs.length, hs.numbered, hs.lsn⟩, hs.recover, ?_, ?_, ?_⟩
  · intro before hb hf
    have hr := LogFile.recover_frames hb hf
    rw [hs.recover (by rw [hr]), hr]
  · intro hn
    rcases Appending.attempt_cases hs.length a with
      ⟨w', f', hok, he, hb, hlsn, hlen⟩ | ⟨err, w', f', herr, -⟩
    · have hs' : s' = ⟨w', f', s.written ++ [e]⟩ := congrArg Prod.snd hok
      rw [hok, hs']
      exact ⟨rfl, Entry.frame_eq_ok_iff.mpr ⟨he, rfl⟩, hb, rfl, hlsn, hlen, rfl⟩
    · rw [herr, hn] at hfailure
      cases hfailure
  · intro err hsome
    rcases Appending.attempt_cases hs.length a with
      ⟨w', f', hok, -⟩ | ⟨err', w', f', herr, hb, hp⟩
    · rw [hok, hsome] at hfailure
      cases hfailure
    · rw [herr, hsome] at hfailure
      cases hfailure
      obtain ⟨hlsn, hlen⟩ := Prod.mk.inj hp
      have hs' : s' = ⟨w', f', s.written⟩ := congrArg Prod.snd herr
      rw [herr, hs']
      refine ⟨rfl, hb, hlsn, hlen, rfl, ?_⟩
      intro engine hw
      exact ⟨commit_of_refused hw herr, rfl, fun _ => rfl, fun _ _ => rfl⟩

/-- Between two entries the device takes twenty bytes of a frame and does not confirm another; then
it has room for a header only. -/
theorem refused_appends_undone_between :
    let w := Appender.start .everyWrite 0 .empty
    let as : List Attempt :=
      [⟨5, .put [1] [10], none, true⟩, ⟨6, .put [2] [20], some 20, true⟩,
        ⟨7, .put [3] [30], none, false⟩, ⟨8, .batch [([2], [21]), ([], [])], none, true⟩]
    let a : Attempt := ⟨9, .put [1] [11], some 16, true⟩
    let s := Appending.run as ⟨w, .empty, []⟩
    let es : List Entry := [⟨1, .put [1] [10], 5⟩, ⟨2, .batch [([2], [21]), ([], [])], 8⟩]
    let engine : Engine :=
      { volatile with appender := some s.appender, table := replay .empty es, visible := 2 }
    s.file.recover = (⟨es, 0, s.file.size, false⟩, s.file) ∧
      (s.attempt a).2.file.bytes = frames es ∧ (s.attempt a).2.appender.lsn = 2 ∧
      (engine.commit a.timestamp a.operation (s.device a)).2.1.get [1] = some [10] := by
  intro w as a s es engine
  obtain ⟨⟨hb, -⟩, -, hrecover, -, hrefused⟩ :=
    refused_appends_undone (w := w) (f := .empty) rfl as a
  have hw : s.written = es := by decide +kernel
  have hlsn : s.appender.lsn = 2 := by decide +kernel
  have hget : engine.get [1] = some [10] := by decide +kernel
  obtain ⟨-, hb', hlsn', -, -, hcommit⟩ :=
    hrefused (Appender.failure "append" 3 Appender.noSpace) (by decide +kernel)
  obtain ⟨hresult, -, hget', -⟩ := hcommit engine rfl
  have hr : s.file.recover = (⟨[] ++ s.written, 0, s.file.size, false⟩, s.file) :=
    hrecover [] (by simp) rfl
  have hbytes : (s.attempt a).2.file.bytes = [] ++ frames s.written := hb'.trans hb
  rw [hw, List.nil_append] at hr hbytes
  refine ⟨hr, hbytes, hlsn'.trans hlsn, ?_⟩
  rw [hresult]
  exact (hget' [1]).trans hget

end PeerBook.Engine
