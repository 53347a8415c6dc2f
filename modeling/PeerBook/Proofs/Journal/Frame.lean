import PeerBook.Proofs.Journal.Entry
import PeerBook.Proofs.Journal.Appender
import PeerBook.Journal.Recovery

/-! # Frames in a log

At the front of a log a frame is recognized, whatever stands behind it, and
its entry is read back. What is left of a frame that has been cut off is not
taken for one.
-/

namespace PeerBook.Journal

open Wire

attribute [ext] Header

theorem Header.length_encode (h : Header) : h.encode.length = headerSize := by
  simp [encode, headerSize]

theorem Header.ofBytes_encode (h : Header) (rest : Bytes) : ofBytes (h.encode ++ rest) = h := by
  have hlsn := length_putUInt64 h.lsn
  have hcrc := length_putUInt32 h.crc
  have hlen := length_putUInt32 h.length
  have h12 (bs : Bytes) : bs.drop 12 = (bs.drop 8).drop 4 := by rw [List.drop_drop]
  simp only [ofBytes, encode, List.append_assoc, h12, List.take_left' hlsn, List.drop_left' hlsn,
    List.take_left' hcrc, List.drop_left' hcrc, List.take_left' hlen, ofLittleEndian_putUInt64,
    ofLittleEndian_putUInt32, UInt64.ofNat_toNat, UInt32.ofNat_toNat]

theorem Header.encode_ofBytes {bs : Bytes} (h : headerSize ≤ bs.length) :
    (ofBytes bs).encode = bs.take headerSize := by
  unfold headerSize at h ⊢
  have h4 (i : Nat) (hi : i + 4 ≤ 16) : ((bs.drop i).take 4).length = 4 := by
    rw [List.length_take, List.length_drop]
    omega
  have h8 : (bs.take 8).length = 8 := List.length_take_of_le (by omega)
  rw [encode, ofBytes, putUInt64_ofLittleEndian h8, putUInt32_ofLittleEndian (h4 8 (by omega)),
    putUInt32_ofLittleEndian (h4 12 (by omega)), ← List.take_add, ← List.take_add]

theorem front_short {bs : Bytes} (h : bs.length < headerSize) :
    front bs = if bs = [] then .finish else .torn := by
  unfold front
  by_cases hb : bs = []
  · simp [hb]
  · simp [hb, h]

theorem front_header (h : Header) (body : Bytes) :
    front (h.encode ++ body) =
      if h.isFramed ∧ h.length.toNat ≤ body.length then
        .frame h (body.take h.length.toNat) (body.drop h.length.toNat)
      else .torn := by
  have hl : (h.encode ++ body).length = headerSize + body.length := by
    rw [List.length_append, h.length_encode]
  have he : (h.encode ++ body).isEmpty = false := by
    rw [List.isEmpty_eq_false_iff, ← List.length_pos_iff, hl, headerSize]
    omega
  have hs : ¬ (h.encode ++ body).length < headerSize := by omega
  unfold front
  rw [h.ofBytes_encode, List.drop_left' h.length_encode, if_neg (by simp [he]), if_neg hs]
  cases h.isFramed with
  | false => simp
  | true =>
    rw [if_neg (show ¬ (!true) = true by decide)]
    by_cases hb : body.length < h.length.toNat
    · rw [if_pos hb, if_neg (fun hc => Nat.not_le.mpr hb hc.2)]
    · rw [if_neg hb, if_pos ⟨rfl, Nat.not_lt.mp hb⟩]

namespace Entry

variable {e : Entry} {n : Nat}

/-- The payload is within the limit. -/
def Fits (e : Entry) : Prop :=
  e.payload.length ≤ maxPayload

instance (e : Entry) : Decidable e.Fits :=
  inferInstanceAs (Decidable (_ ≤ _))

def bytes (e : Entry) : Bytes :=
  e.header.encode ++ e.payload

theorem frame_eq_ok_iff {frame : Bytes} : e.frame = .ok frame ↔ e.Fits ∧ frame = e.bytes := by
  unfold Entry.frame
  split
  · simp [Fits, bytes, eq_comm, *]
  · simp [Fits, *]

theorem length_bytes (e : Entry) : e.bytes.length = headerSize + e.payload.length := by
  rw [bytes, List.length_append, Header.length_encode]

theorem Fits.toNat_length (h : e.Fits) : e.header.length.toNat = e.payload.length := by
  refine UInt32.toNat_ofNat_of_lt' (Nat.lt_of_le_of_lt h ?_)
  decide

theorem Fits.isFramed (h : e.Fits) : e.header.isFramed = true := by
  rw [Header.isFramed, h.toNat_length]
  exact decide_eq_true h

theorem Fits.length_value_lt (h : e.Fits) {b : Binding} (hb : b ∈ e.operation.writes) :
    b.2.length < 2 ^ 64 := by
  have ho : b.2.length ≤ e.operation.encode.length := by
    cases hop : e.operation with
    | put key value =>
      rw [hop] at hb
      obtain rfl := List.mem_singleton.mp hb
      simp only [Operation.encode, List.length_append, length_putBytes]
      omega
    | batch writes =>
      rw [hop] at hb
      change b ∈ writes at hb
      have hl := length_le_flatMap (putPair putBytes putBytes) hb
      rw [length_put_binding] at hl
      simp only [Operation.encode, List.length_append, length_putList]
      omega
  have hp : e.operation.encode.length ≤ e.payload.length := by
    simp only [payload, List.length_append]
    omega
  exact Nat.lt_of_le_of_lt (Nat.le_trans ho (Nat.le_trans hp h)) (by decide)

theorem Fits.verify (h : e.Fits) : e.header.verify e.payload = .ok e := by
  have hr := (Entry.reads (Nat.lt_of_le_of_lt h (by decide))).read []
  rw [List.append_nil] at hr
  simp [Header.verify, header, hr]

theorem Fits.front (h : e.Fits) (rest : Bytes) :
    front (e.bytes ++ rest) = .frame e.header e.payload rest := by
  have hl : e.header.length.toNat ≤ (e.payload ++ rest).length := by
    rw [h.toNat_length, List.length_append]
    omega
  rw [bytes, List.append_assoc, front_header, if_pos ⟨h.isFramed, hl⟩, h.toNat_length,
    List.take_left, List.drop_left]

theorem Fits.front_take (h : e.Fits) (hn : n < e.bytes.length) :
    Journal.front (e.bytes.take n) = if n = 0 then .finish else .torn := by
  have hl : (e.bytes.take n).length = n := List.length_take_of_le (Nat.le_of_lt hn)
  by_cases hs : n < headerSize
  · rw [front_short (by rwa [hl])]
    simp only [← List.length_eq_zero_iff, hl]
  · have ht : e.bytes.take n = e.header.encode ++ e.payload.take (n - headerSize) := by
      rw [bytes, List.take_append, Header.length_encode, List.take_of_length_le]
      rw [Header.length_encode]
      exact Nat.not_lt.mp hs
    have hc : ¬ (e.header.isFramed ∧
        e.header.length.toNat ≤ (e.payload.take (n - headerSize)).length) := by
      rintro ⟨-, hc⟩
      rw [h.toNat_length, List.length_take] at hc
      rw [length_bytes] at hn
      omega
    have h0 : n ≠ 0 := by
      rintro rfl
      exact hs (by decide)
    rw [ht, front_header, if_neg hc, if_neg h0]

end Entry

/-- An appender at the end of its file writes the frame of the next entry there, or it fails and
leaves the file as long as it was. -/
theorem Appender.append_at_end {w : Appender} {f : LogFile} (h : w.length = f.size)
    (timestamp : UInt64) (operation : Operation) :
    let e := w.nextEntry timestamp operation
    (∃ w' f', w.append timestamp operation f = (.ok e, w', f') ∧ e.Fits ∧
      f'.bytes = f.bytes ++ e.bytes ∧ w'.lsn = e.lsn ∧ w'.length = f'.size) ∨
    (∃ err w' f', w.append timestamp operation f = (.error err, w', f') ∧ f'.bytes = f.bytes ∧
      w'.place = w.place) := by
  intro e
  rcases w.append_cases timestamp operation f with
    ⟨frame, f', n, hf, ha, hok⟩ | ⟨err, n, f', herr, hf'⟩
  · left
    obtain ⟨he, rfl⟩ := Entry.frame_eq_ok_iff.mp hf
    have hb := LogFile.bytes_append ha
    refine ⟨_, f', hok, he, hb, rfl, ?_⟩
    rw [LogFile.size, hb, List.length_append, h]
    rfl
  · right
    refine ⟨err, _, f', herr, ?_, rfl⟩
    rcases hf' with rfl | ⟨frame, -, rfl⟩
    · rfl
    · rw [h, LogFile.bytes_setSize_append]

end PeerBook.Journal
