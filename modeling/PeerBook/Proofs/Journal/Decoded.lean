import PeerBook.Proofs.Journal.Calls

/-! # What is decoded from a frame

Bytes that an entry is decoded from are its frame but for what stands behind
the payload of the entry, which is counted in the header and not looked at.
A reader that has such bytes for its file, and a length within the limit in
them, gives the entry and has come to the end.
-/

namespace PeerBook.Journal

variable {bs rest : Bytes} {e : Entry}

namespace Entry

theorem read_get_eq_ok_iff (h : bs.length < 2 ^ 64) :
    Wire.read Entry.get bs = .ok e ↔ e.payload <+: bs := by
  apply exact_get.read_eq_ok_iff
  intro hp
  exact Entry.reads (Nat.lt_of_le_of_lt hp.length_le h)

theorem ofFrame_eq_ok_iff_prefix :
    ofFrame bs = .ok e ↔
      headerSize ≤ bs.length ∧ (Header.ofBytes bs).lsn = e.lsn ∧
        (Header.ofBytes bs).length.toNat = (bs.drop headerSize).length ∧
        (Header.ofBytes bs).crc = Checksum.crc32 (bs.drop headerSize) ∧
        e.payload <+: bs.drop headerSize := by
  rw [ofFrame_eq_ok_iff, Header.verify_eq_ok_iff]
  have hread (hl : (bs.drop headerSize).length = (Header.ofBytes bs).length.toNat) :
      Wire.read Entry.get (bs.drop headerSize) = .ok e ↔ e.payload <+: bs.drop headerSize := by
    apply read_get_eq_ok_iff
    rw [hl]
    exact Nat.lt_trans (UInt32.toNat_lt _) (by decide)
  constructor
  · rintro ⟨hs, hl, hc, hr, hlsn⟩
    exact ⟨hs, hlsn.symm, hl.symm, hc.symm, (hread hl).mp hr⟩
  · rintro ⟨hs, hlsn, hl, hc, hp⟩
    exact ⟨hs, hl.symm, hc.symm, (hread hl.symm).mpr hp, hlsn.symm⟩

theorem frame_eq_ok_iff_of_ofFrame (h : ofFrame bs = .ok e)
    (hp : bs.drop headerSize = e.payload ++ rest) :
    e.frame = .ok bs ↔ rest = [] ∧ (bs.drop headerSize).length ≤ maxPayload := by
  obtain ⟨hs, hlsn, hl, hc, -⟩ := ofFrame_eq_ok_iff_prefix.mp h
  rw [frame_eq_ok_iff]
  constructor
  · rintro ⟨he, rfl⟩
    rw [e.drop_bytes] at hp ⊢
    exact ⟨List.self_eq_append_right.mp hp, he⟩
  · rintro ⟨rfl, hm⟩
    rw [List.append_nil] at hp
    rw [hp] at hl hc hm
    have hh : Header.ofBytes bs = e.header := by
      ext1
      · exact hlsn
      · exact hc
      · rw [header, ← hl, UInt32.ofNat_toNat]
    refine ⟨hm, ?_⟩
    rw [bytes, ← hh, ← hp, Header.encode_ofBytes hs, List.take_append_drop]

end Entry

namespace Reader

theorem next_start_iff_of_isFrame (hg : IsFrame bs) :
    (∃ r, start.next (.ofBytes bs) = (.ok (some e), r) ∧ r.position = bs.length) ↔
      Entry.ofFrame bs = .ok e := by
  have hu : start.unread (.ofBytes bs) = bs ++ [] :=
    (unread_start _).trans (List.append_nil _).symm
  obtain ⟨r, hr, hp, -⟩ := next_of_isFrame rfl hg hu
  have hend : r.position = bs.length := hp.trans (Nat.zero_add _)
  rw [← Entry.ofFrame?_eq_some_iff]
  rcases hr with ⟨e', he, hr⟩ | ⟨he, t, hr⟩
  · simp [hr, he, hend]
  · simp [hr, he]

theorem isFrame_of_next_start {r : Reader} (h : start.next (.ofBytes bs) = (.ok (some e), r))
    (hp : r.position = bs.length) : IsFrame bs := by
  have hu : start.unread (.ofBytes bs) = bs := unread_start _
  cases hfront : front bs with
  | finish =>
    obtain ⟨r', hr⟩ := next_of_finish rfl (hu.trans (front_eq_finish_iff.mp hfront))
    rw [hr] at h
    cases h
  | torn =>
    obtain ⟨r', hr, -⟩ := next_of_torn rfl (hu.symm ▸ hfront)
    rw [hr] at h
    cases h
  | frame header payload rest =>
    obtain ⟨g, hg, rfl⟩ := isFrame_of_front hfront
    obtain ⟨r', hr, hp', -⟩ := next_of_isFrame rfl hg hu
    have hrest : rest = [] := by
      rcases hr with ⟨e', -, hr⟩ | ⟨-, t, hr⟩
      · rw [hr] at h
        cases h
        simpa [start] using hp.symm.trans hp'
      · rw [hr] at h
        cases h
    rwa [hrest, List.append_nil]

end Reader

namespace Entry

/-- An entry is decoded from the bytes that have a header with its sequence number, and with the
length and the checksum of what stands behind the header, if this starts with the payload of the
entry. They are its frame if nothing more stands there and the length is within the limit. If the
length is, then a reader of these bytes gives the entry first and comes to their end if and only if
it is decoded from them. -/
theorem ofFrame_determines (bs : Bytes) (e : Entry) :
    let h := Header.ofBytes bs
    let payload := bs.drop headerSize
    (ofFrame bs = .ok e ↔
      headerSize ≤ bs.length ∧ h.lsn = e.lsn ∧ h.length.toNat = payload.length ∧
        h.crc = Checksum.crc32 payload ∧ ∃ rest, payload = e.payload ++ rest) ∧
      (ofFrame bs = .ok e → ∀ rest, payload = e.payload ++ rest →
        (e.frame = .ok bs ↔ rest = [] ∧ payload.length ≤ maxPayload)) ∧
      (h.length.toNat ≤ maxPayload →
        ((∃ r, Reader.start.next (.ofBytes bs) = (.ok (some e), r) ∧ r.position = bs.length) ↔
          ofFrame bs = .ok e)) := by
  intro h payload
  refine ⟨?_, ?_, ?_⟩
  · simp only [eq_comm (a := payload)]
    exact ofFrame_eq_ok_iff_prefix
  · intro ho rest hp
    exact frame_eq_ok_iff_of_ofFrame ho hp
  · intro hm
    constructor
    · rintro ⟨r, hr, hp⟩
      exact (Reader.next_start_iff_of_isFrame (Reader.isFrame_of_next_start hr hp)).mp ⟨r, hr, hp⟩
    · intro ho
      obtain ⟨hs, hl, -⟩ := ofFrame_eq_ok_iff.mp ho
      apply (Reader.next_start_iff_of_isFrame ⟨hm, ?_⟩).mpr ho
      rw [← hl, List.length_drop]
      omega

/-- One byte more than the payload takes, counted in the header. -/
theorem ofFrame_determines_trailing :
    let e : Entry := ⟨1, .put [1] [10], 0⟩
    let payload := e.payload ++ [9]
    let bs := (Header.mk 1 (Checksum.crc32 payload) 39).encode ++ payload
    ofFrame bs = .ok e ∧ e.frame ≠ .ok bs ∧
      ∃ r, Reader.start.next (.ofBytes bs) = (.ok (some e), r) ∧ r.position = bs.length := by
  intro e payload bs
  obtain ⟨hdecode, hframe, hnext⟩ := ofFrame_determines bs e
  have hh : Header.ofBytes bs = ⟨1, Checksum.crc32 payload, 39⟩ := Header.ofBytes_encode _ _
  have hp : bs.drop headerSize = payload := List.drop_left' (Header.length_encode _)
  rw [hh, hp] at hdecode
  have ho : ofFrame bs = .ok e := hdecode.mpr ⟨by decide, rfl, by decide, rfl, [9], rfl⟩
  refine ⟨ho, ?_, (hnext (by rw [hh]; decide)).mpr ho⟩
  intro h
  have hnil := ((hframe ho [9] hp).mp h).1
  cases hnil

end Entry

end PeerBook.Journal
