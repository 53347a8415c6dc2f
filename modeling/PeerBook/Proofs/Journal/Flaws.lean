import Mathlib.Data.List.Basic
import PeerBook.Proofs.Checksum
import PeerBook.Proofs.Journal.Split

/-! # What tells a changed byte

The checksum tells any change of one byte of a payload, and a header is all
that its bytes say. So a frame in which one byte is changed is not sound, and
the flaw that it is refused for is told by where the byte stands.
-/

namespace PeerBook.Journal

variable {g : Bytes} {e : Entry} {i : Nat} {f : UInt8 → UInt8}

/-- The places in a frame where the length of the payload stands. -/
def IsLengthByte (i : Nat) : Prop :=
  12 ≤ i ∧ i < headerSize

instance (i : Nat) : Decidable (IsLengthByte i) :=
  inferInstanceAs (Decidable (_ ∧ _))

theorem not_isLengthByte_of_lt (hi : i < 12) : ¬ IsLengthByte i :=
  fun h => Nat.not_lt.mpr h.1 hi

theorem slice_modify (g : Bytes) (start size : Nat) (hi : i < start ∨ start + size ≤ i)
    (f : UInt8 → UInt8) : ((g.modify i f).drop start).take size = (g.drop start).take size := by
  rcases hi with hi | hi
  · rw [List.drop_modify_of_lt f i start g hi]
  · have hl : ((g.drop start).take size).length ≤ i - start := by
      rw [List.length_take]
      omega
    rw [List.drop_modify_of_ge f i start g (by omega), List.take_modify, List.modify_eq_self hl]

namespace Header

theorem lsn_ofBytes_modify (hi : 8 ≤ i) (f : UInt8 → UInt8) :
    (ofBytes (g.modify i f)).lsn = (ofBytes g).lsn := by
  have hs := slice_modify g 0 8 (.inr (by omega)) f
  rw [List.drop_zero, List.drop_zero] at hs
  simp only [ofBytes, hs]

theorem crc_ofBytes_modify (hi : i < 8 ∨ 12 ≤ i) (f : UInt8 → UInt8) :
    (ofBytes (g.modify i f)).crc = (ofBytes g).crc := by
  simp only [ofBytes, slice_modify g 8 4 hi f]

theorem length_ofBytes_modify (hi : ¬ IsLengthByte i) (f : UInt8 → UInt8) :
    (ofBytes (g.modify i f)).length = (ofBytes g).length := by
  have hs : i < 12 ∨ 12 + 4 ≤ i := by
    simp only [IsLengthByte, headerSize] at hi
    omega
  simp only [ofBytes, slice_modify g 12 4 hs f]

theorem ofBytes_modify (hi : headerSize ≤ i) (f : UInt8 → UInt8) :
    ofBytes (g.modify i f) = ofBytes g := by
  have hlen : ¬ IsLengthByte i := fun h => Nat.not_lt.mpr hi h.2
  unfold headerSize at hi
  ext1
  · exact lsn_ofBytes_modify (by omega) f
  · exact crc_ofBytes_modify (.inr (by omega)) f
  · exact length_ofBytes_modify hlen f

theorem ofBytes_modify_ne (h : headerSize ≤ g.length) (hi : i < headerSize)
    (hne : g.modify i f ≠ g) : ofBytes (g.modify i f) ≠ ofBytes g := by
  intro hh
  have hl : headerSize ≤ (g.modify i f).length := by rwa [List.length_modify]
  apply hne
  rw [← List.take_append_drop headerSize (g.modify i f), ← encode_ofBytes hl, hh,
    encode_ofBytes h, List.drop_modify_of_lt f i headerSize g hi, List.take_append_drop]

theorem lsn_ofBytes_modify_ne (h : headerSize ≤ g.length) (hi : i < 8)
    (hne : g.modify i f ≠ g) : (ofBytes (g.modify i f)).lsn ≠ (ofBytes g).lsn := by
  intro hlsn
  have hlen : ¬ IsLengthByte i := not_isLengthByte_of_lt (Nat.lt_trans hi (by decide))
  apply ofBytes_modify_ne h (Nat.lt_trans hi (by decide)) hne
  exact Header.ext hlsn (crc_ofBytes_modify (.inl hi) f) (length_ofBytes_modify hlen f)

theorem crc_ofBytes_modify_ne (h : headerSize ≤ g.length) (hi : 8 ≤ i) (hi' : i < 12)
    (hne : g.modify i f ≠ g) : (ofBytes (g.modify i f)).crc ≠ (ofBytes g).crc := by
  intro hcrc
  have hlen := length_ofBytes_modify (g := g) (not_isLengthByte_of_lt hi') f
  apply ofBytes_modify_ne h (Nat.lt_trans hi' (by decide)) hne
  exact Header.ext (lsn_ofBytes_modify hi f) hcrc hlen

theorem length_ofBytes_modify_ne (h : headerSize ≤ g.length) (hi : IsLengthByte i)
    (hne : g.modify i f ≠ g) : (ofBytes (g.modify i f)).length ≠ (ofBytes g).length := by
  intro hlen
  have hlsn : 8 ≤ i := Nat.le_trans (by decide) hi.1
  apply ofBytes_modify_ne h hi.2 hne
  exact Header.ext (lsn_ofBytes_modify hlsn f) (crc_ofBytes_modify (.inr hi.1) f) hlen

theorem verify_of_crc_ne {h : Header} {payload : Bytes} (hc : Checksum.crc32 payload ≠ h.crc) :
    h.verify payload = .error (.checksum h.lsn h.crc (Checksum.crc32 payload)) :=
  if_neg hc

theorem verify_of_lsn_ne {h : Header} {payload : Bytes} (hc : Checksum.crc32 payload = h.crc)
    (hr : Wire.read Entry.get payload = .ok e) (hl : e.lsn ≠ h.lsn) :
    h.verify payload = .error (.sequence h.lsn e.lsn) := by
  simp only [verify, hc, hr, hl, if_true, if_false]

end Header

theorem IsFrame.modify (hg : IsFrame g) (hi : ¬ IsLengthByte i) (f : UInt8 → UInt8) :
    IsFrame (g.modify i f) :=
  hg.congr (List.length_modify _ _ _) (Header.length_ofBytes_modify hi f)

theorem modify_drop_ne {start : Nat} (hi : start ≤ i) (hne : g.modify i f ≠ g) :
    (g.drop start).modify (i - start) f ≠ g.drop start := by
  intro hd
  have ht : (g.take start).length ≤ i := by
    rw [List.length_take]
    omega
  apply hne
  rw [← List.take_append_drop start (g.modify i f), List.take_modify, List.modify_eq_self ht,
    List.drop_modify_of_ge f i start g hi, hd, List.take_append_drop]

namespace Entry

/-- The flaw of bytes that were the frame of an entry before the byte at `i` was changed. -/
def flawAt (i : Nat) (e : Entry) (g : Bytes) : Flaw :=
  let h := Header.ofBytes g
  let payload := g.drop headerSize
  if i < 8 then .unsound (.sequence h.lsn e.lsn)
  else if IsLengthByte i then .length payload.length h.length.toNat
  else .unsound (.checksum h.lsn h.crc (Checksum.crc32 payload))

theorem Fits.ofFrame_modify_lsn (he : e.Fits) (hi : i < 8)
    (hne : e.bytes.modify i f ≠ e.bytes) :
    ofFrame (e.bytes.modify i f) =
      .error (.unsound (.sequence (Header.ofBytes (e.bytes.modify i f)).lsn e.lsn)) := by
  have hs := he.isFrame.headerSize_le
  have hg := he.isFrame.modify (not_isLengthByte_of_lt (Nat.lt_trans hi (by decide))) f
  have hd : (e.bytes.modify i f).drop headerSize = e.payload := by
    rw [List.drop_modify_of_lt f i headerSize _ (Nat.lt_trans hi (by decide)), e.drop_bytes]
  obtain ⟨hc, hr, -⟩ := Header.verify_eq_ok_iff.mp he.verify
  have hl := Header.lsn_ofBytes_modify_ne hs hi hne
  rw [← e.ofBytes_bytes, ← Header.crc_ofBytes_modify (.inl hi) f] at hc
  rw [e.ofBytes_bytes] at hl
  rw [ofFrame_eq hg.headerSize_le hg.length_drop, hd, Header.verify_of_lsn_ne hc hr hl.symm]
  rfl

theorem Fits.ofFrame_modify_length (he : e.Fits) (hi : IsLengthByte i)
    (hne : e.bytes.modify i f ≠ e.bytes) :
    ofFrame (e.bytes.modify i f) =
      .error (.length ((e.bytes.modify i f).drop headerSize).length
        (Header.ofBytes (e.bytes.modify i f)).length.toNat) := by
  have hs := he.isFrame.headerSize_le
  apply ofFrame_of_length_ne
  · rwa [List.length_modify]
  · rw [List.drop_modify_of_lt f i headerSize _ hi.2, e.drop_bytes, ← he.toNat_length,
      ← e.ofBytes_bytes]
    intro hl
    exact Header.length_ofBytes_modify_ne hs hi hne (UInt32.toNat_inj.mp hl.symm)

theorem Fits.crc_ne_of_modify (he : e.Fits) (hi : 8 ≤ i) (hlen : ¬ IsLengthByte i)
    (hne : e.bytes.modify i f ≠ e.bytes) :
    Checksum.crc32 ((e.bytes.modify i f).drop headerSize) ≠
      (Header.ofBytes (e.bytes.modify i f)).crc := by
  have hcrc : Checksum.crc32 e.payload = (Header.ofBytes e.bytes).crc := by
    rw [e.ofBytes_bytes, header]
  by_cases hlt : i < headerSize
  · have hi' : i < 12 := by
      simp only [IsLengthByte] at hlen
      omega
    rw [List.drop_modify_of_lt f i headerSize _ hlt, e.drop_bytes, hcrc]
    exact (Header.crc_ofBytes_modify_ne he.isFrame.headerSize_le hi hi' hne).symm
  · have hle := Nat.not_lt.mp hlt
    rw [List.drop_modify_of_ge f i headerSize _ hle, Header.ofBytes_modify hle, ← hcrc,
      ← e.drop_bytes]
    exact Checksum.crc32_modify_ne (modify_drop_ne hle hne)

theorem Fits.ofFrame_modify_checksum (he : e.Fits) (hi : 8 ≤ i) (hlen : ¬ IsLengthByte i)
    (hne : e.bytes.modify i f ≠ e.bytes) :
    ofFrame (e.bytes.modify i f) =
      .error (.unsound (.checksum (Header.ofBytes (e.bytes.modify i f)).lsn
        (Header.ofBytes (e.bytes.modify i f)).crc
        (Checksum.crc32 ((e.bytes.modify i f).drop headerSize)))) := by
  have hg := he.isFrame.modify hlen f
  rw [ofFrame_eq hg.headerSize_le hg.length_drop,
    Header.verify_of_crc_ne (he.crc_ne_of_modify hi hlen hne)]
  rfl

theorem Fits.ofFrame_modify (he : e.Fits) (hne : e.bytes.modify i f ≠ e.bytes) :
    ofFrame (e.bytes.modify i f) = .error (flawAt i e (e.bytes.modify i f)) := by
  unfold flawAt
  split_ifs with hi hlen
  · exact he.ofFrame_modify_lsn hi hne
  · exact he.ofFrame_modify_length hlen hne
  · exact he.ofFrame_modify_checksum (Nat.not_lt.mp hi) hlen hne

/-- An entry that fits has a frame. When any byte of the frame is replaced by another, the bytes
are refused: for the sequence number that the payload says, for the length, or for the checksum. -/
theorem replaced_byte_refused (he : e.Fits) :
    e.frame = .ok e.bytes ∧ ∀ (i : Nat) (hi : i < e.bytes.length) (b : UInt8), b ≠ e.bytes[i] →
      ofFrame (e.bytes.set i b) = .error (flawAt i e (e.bytes.set i b)) := by
  constructor
  · exact frame_eq_ok_iff.mpr ⟨he, rfl⟩
  · intro i hi b hb
    rw [List.set_eq_modify]
    apply he.ofFrame_modify
    intro hm
    have hself := List.getElem?_set_self (a := b) hi
    rw [List.set_eq_modify, hm, List.getElem?_eq_getElem hi] at hself
    exact hb (Option.some.inj hself).symm

theorem replaced_byte_refused_at :
    let e : Entry := ⟨1, .put [1] [10], 0⟩
    e.Fits ∧ ofFrame (e.bytes.set 0 3) = .error (.unsound (.sequence 3 1)) ∧
      ofFrame (e.bytes.set 12 39) = .error (.length 38 39) ∧
      ofFrame (e.bytes.set 45 11) = .error (.unsound (.checksum 1 0x0FB637FA 0x18CD23B9)) := by
  intro e
  have he : e.Fits := by decide
  have h := (replaced_byte_refused he).2
  refine ⟨he, ?_, ?_, ?_⟩
  · rw [h 0 (by decide) 3 (by decide)]
    decide +kernel
  · rw [h 12 (by decide) 39 (by decide)]
    decide +kernel
  · rw [h 45 (by decide) 11 (by decide)]
    decide +kernel

end Entry

end PeerBook.Journal
