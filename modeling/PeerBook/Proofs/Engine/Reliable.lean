import PeerBook.Proofs.Engine.Durable

/-! # Commits that succeed

On a device that takes everything and confirms it, only the size of an entry
can keep it from being appended. So a commit of an operation that fits
succeeds, with a log or without one.
-/

namespace PeerBook

open Journal

namespace Journal

variable {f : LogFile} {o : Operation}

/-- The payload of an entry of the operation is within the limit. Beside the operation it holds two
numbers of eight bytes. -/
def Operation.Fits (o : Operation) : Prop :=
  o.encode.length + 16 ≤ maxPayload

instance (o : Operation) : Decidable o.Fits :=
  inferInstanceAs (Decidable (_ ≤ _))

theorem Entry.fits_iff {e : Entry} : e.Fits ↔ e.operation.Fits := by
  have hl : e.payload.length = e.operation.encode.length + 16 := by
    simp [payload]
    omega
  rw [Fits, hl, Operation.Fits]

/-- The device takes everything and confirms it. -/
def LogFile.IsReliable (f : LogFile) : Prop :=
  f.room = none ∧ f.syncs = true

theorem LogFile.isReliable_iff : f.IsReliable ↔ f.device = (true, true) := by
  simp [IsReliable, device]

theorem Appender.append_of_fits (hf : f.IsReliable) (ho : o.Fits) (timestamp : UInt64)
    (w : Appender) :
    let e := w.nextEntry timestamp o
    ∃ n, w.append timestamp o f =
      (.ok e, { w with lsn := e.lsn, length := w.length + e.bytes.length, unsynced := n },
        { f with bytes := f.bytes ++ e.bytes }) := by
  intro e
  have hframe : e.frame = .ok e.bytes := Entry.frame_eq_ok_iff.mpr ⟨Entry.fits_iff.mpr ho, rfl⟩
  have happend : f.append e.bytes = (true, { f with bytes := f.bytes ++ e.bytes }) := by
    rw [LogFile.append, hf.1]
  have he : (⟨w.lsn + 1, o, timestamp⟩ : Entry) = e := rfl
  simp only [append, he, hframe, happend, hf.2]
  split
  · exact ⟨0, rfl⟩
  · exact ⟨w.unsynced + 1, rfl⟩

end Journal

namespace Engine

variable {e : Engine} {f : LogFile} {o : Operation}

/-- The engine has no log, or one on a reliable device. -/
def IsReliable (e : Engine) (f : LogFile) : Prop :=
  e.appender = none ∨ f.IsReliable

theorem IsReliable.congr (h : e.IsReliable f) {e' : Engine}
    (ha : e'.appender.isSome = e.appender.isSome) : e'.IsReliable f := by
  refine h.imp_left fun hn => ?_
  rw [hn] at ha
  exact Option.not_isSome_iff_eq_none.mp (Bool.eq_false_iff.mp ha)

theorem commit_of_fits (h : e.IsReliable f) (ho : o.Fits) (timestamp : UInt64) :
    ∃ a f', e.commit timestamp o f =
        (.ok (), { e with appender := a }.publish e.nextSeq o.writes, f') ∧
      IsReliable { e with appender := a } f' ∧ ∀ w, a = some w → w.lsn = e.nextSeq := by
  unfold commit nextSeq
  cases ha : e.appender with
  | none => exact ⟨none, f, by simp [publish, floor, ha], .inl rfl, by simp⟩
  | some w =>
    have hf : f.IsReliable := h.resolve_left (by simp [ha])
    obtain ⟨n, hok⟩ := Appender.append_of_fits hf ho timestamp w
    dsimp only
    rw [hok]
    refine ⟨some _, _, rfl, .inr hf, ?_⟩
    rintro w' hw'
    obtain rfl := Option.some.inj hw'
    rfl

theorem sync_of_isReliable (h : e.IsReliable f) :
    (e.sync f).1 = .ok () ∧ (e.sync f).2.IsReliable f := by
  unfold sync
  cases ha : e.appender with
  | none => exact ⟨rfl, h⟩
  | some w =>
    have hf : f.IsReliable := h.resolve_left (by simp [ha])
    simp only [Appender.sync, hf.2]
    exact ⟨rfl, .inr hf⟩

end Engine

namespace Mounted

variable {m : Mounted}

def IsReliable (m : Mounted) : Prop :=
  m.engine.IsReliable m.file

theorem set_of_fits (h : m.IsReliable) {key value : Bytes} (ho : (Operation.put key value).Fits) :
    (m.set key value).1 = .ok () ∧ (m.set key value).2.IsReliable ∧
      ∃ a, (m.set key value).2.engine =
          { m.engine with appender := a }.publish m.engine.nextSeq [(key, value)] ∧
        ∀ w, a = some w → w.lsn = m.engine.nextSeq := by
  obtain ⟨a, f', hc, hr, ha⟩ := m.engine.commit_of_fits h ho m.clock
  have hm : m.set key value = (.ok (), { m with
      engine := { m.engine with appender := a }.publish m.engine.nextSeq [(key, value)]
      file := f' }) := by
    simp [set, hc, Operation.writes]
  rw [hm]
  exact ⟨rfl, hr, a, rfl, ha⟩

theorem commit_of_fits (h : m.IsReliable) {ws : List Binding} (hw : ws ≠ [])
    (ho : (Operation.batch ws).Fits) :
    (m.commit ⟨ws, false⟩).1 = (.ok (), ⟨[], true⟩) ∧ (m.commit ⟨ws, false⟩).2.IsReliable ∧
      ∃ a, (m.commit ⟨ws, false⟩).2.engine =
          { m.engine with appender := a }.publish m.engine.nextSeq ws ∧
        ∀ w, a = some w → w.lsn = m.engine.nextSeq := by
  obtain ⟨a, f', hc, hr, ha⟩ := m.engine.commit_of_fits h ho m.clock
  have he : ws.isEmpty = false := by simpa using hw
  have hm : m.commit ⟨ws, false⟩ = ((.ok (), ⟨[], true⟩), { m with
      engine := { m.engine with appender := a }.publish m.engine.nextSeq ws, file := f' }) := by
    simp [commit, Batch.commit, he, hc, Operation.writes]
  rw [hm]
  exact ⟨rfl, hr, a, rfl, ha⟩

theorem commit_of_idle (m : Mounted) {b : Batch} (h : (b.committed || b.writes.isEmpty) = true) :
    m.commit b = ((if b.committed then .error .batchCommitted else .ok (),
      if b.committed then b else ⟨[], true⟩), m) := by
  simp only [commit, Batch.commit]
  by_cases hc : b.committed
  · simp [hc]
  · have hw : b.writes.isEmpty = true := by simpa [hc] using h
    simp [hc, hw]

end Mounted

end PeerBook
