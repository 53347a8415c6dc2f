import PeerBook.Journal.Appender

/-! # What an append does

An append either writes the frame of the next entry at the end of the log and
takes its number, or it fails and keeps number and length.
-/

namespace PeerBook.Journal

namespace LogFile

variable {f f' : LogFile} {bs : Bytes}

theorem bytes_append (h : f.append bs = (true, f')) : f'.bytes = f.bytes ++ bs := by
  unfold append at h
  split at h
  · obtain rfl := (Prod.mk.inj h).2
    rfl
  · obtain ⟨hr, rfl⟩ := Prod.mk.inj h
    rw [List.take_of_length_le (of_decide_eq_true hr)]

/-- Cutting a file back to the length it had undoes an append, whether or not that succeeded. -/
theorem bytes_setSize_append (f : LogFile) (bs : Bytes) :
    ((f.append bs).2.setSize f.size).bytes = f.bytes := by
  have h : ∃ bs', (f.append bs).2.bytes = f.bytes ++ bs' := by
    unfold append
    split
    · exact ⟨bs, rfl⟩
    · exact ⟨_, rfl⟩
  obtain ⟨bs', h⟩ := h
  have hz : f.bytes.length - (f.bytes ++ bs').length = 0 := by
    rw [List.length_append]
    omega
  simp only [setSize, size, h, List.take_left, hz, List.replicate_zero, List.append_nil]

/-- Whether the device takes everything, and whether it confirms that it has stored it. -/
def device (f : LogFile) : Bool × Bool :=
  (f.room.isNone, f.syncs)

theorem device_append (f : LogFile) (bs : Bytes) : (f.append bs).2.device = f.device := by
  unfold append device
  cases f.room <;> rfl

end LogFile

namespace Appender

variable {timestamp : UInt64} {operation : Operation} {w : Appender} {f : LogFile}

/-- How far an appender has come, in numbers and in bytes. -/
def place (w : Appender) : UInt64 × Nat :=
  (w.lsn, w.length)

theorem place_sync (w : Appender) (f : LogFile) : (w.sync f).2.place = w.place := by
  unfold sync
  split <;> rfl

def nextEntry (timestamp : UInt64) (operation : Operation) (w : Appender) : Entry where
  lsn := w.lsn + 1
  operation
  timestamp

@[simp] theorem lsn_nextEntry (timestamp : UInt64) (operation : Operation) (w : Appender) :
    (w.nextEntry timestamp operation).lsn = w.lsn + 1 := rfl

theorem append_cases (timestamp : UInt64) (operation : Operation) (w : Appender) (f : LogFile) :
    (∃ frame f' unsynced, (w.nextEntry timestamp operation).frame = .ok frame ∧
      f.append frame = (true, f') ∧
      w.append timestamp operation f = (.ok (w.nextEntry timestamp operation),
        { w with lsn := w.lsn + 1, length := w.length + frame.length, unsynced }, f')) ∨
    (∃ err unsynced f', w.append timestamp operation f = (.error err, { w with unsynced }, f') ∧
      (f' = f ∨ ∃ frame, (w.nextEntry timestamp operation).frame = .ok frame ∧
        f' = (f.append frame).2.setSize w.length)) := by
  have he : (⟨w.lsn + 1, operation, timestamp⟩ : Entry) = w.nextEntry timestamp operation := rfl
  simp only [append, he]
  generalize w.nextEntry timestamp operation = e
  cases e.frame with
  | error size => exact .inr ⟨_, w.unsynced, f, rfl, .inl rfl⟩
  | ok frame =>
    dsimp only
    rcases ha : f.append frame with ⟨written, f'⟩
    cases written with
    | false => exact .inr ⟨_, w.unsynced, _, rfl, .inr ⟨frame, rfl, by rw [ha]⟩⟩
    | true =>
      dsimp only
      split
      · split
        · exact .inl ⟨frame, f', 0, rfl, ha, rfl⟩
        · exact .inr ⟨_, w.unsynced + 1, _, rfl, .inr ⟨frame, rfl, by rw [ha]⟩⟩
      · exact .inl ⟨frame, f', w.unsynced + 1, rfl, ha, rfl⟩

theorem device_append (timestamp : UInt64) (operation : Operation) (w : Appender) (f : LogFile) :
    (w.append timestamp operation f).2.2.device = f.device := by
  rcases w.append_cases timestamp operation f with
    ⟨frame, f', n, -, ha, hok⟩ | ⟨err, n, f', herr, rfl | ⟨frame, -, rfl⟩⟩
  · rw [hok, ← f.device_append frame, ha]
  · rw [herr]
  · rw [herr]
    exact f.device_append frame

theorem append_of_oversize {timestamp : UInt64} {operation : Operation} {w : Appender}
    (h : maxPayload < (w.nextEntry timestamp operation).payload.length) (f : LogFile) :
    w.append timestamp operation f =
      (.error (oversize (w.nextEntry timestamp operation).payload.length), w, f) := by
  have he : (⟨w.lsn + 1, operation, timestamp⟩ : Entry) = w.nextEntry timestamp operation := rfl
  have hf : (w.nextEntry timestamp operation).frame = .error _ := if_neg (Nat.not_le.mpr h)
  simp only [append, he, hf]

end Appender

end PeerBook.Journal
