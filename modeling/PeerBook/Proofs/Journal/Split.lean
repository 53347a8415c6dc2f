import PeerBook.Proofs.Journal.Recovery

/-! # Recovering any file

Following the length fields, any bytes split in one way into complete frames
and a tail that does not start with one. Recovering gives the entries of the
sound frames and leaves the frames; recovering once more changes nothing.
-/

namespace PeerBook.Journal

variable {bs g rest tail : Bytes} {gs : List Bytes}

/-- A header whose length is within the limit, and so many bytes behind it. -/
structure IsFrame (g : Bytes) : Prop where
  framed : (Header.ofBytes g).length.toNat ≤ maxPayload
  length : g.length = headerSize + (Header.ofBytes g).length.toNat

/-- Complete frames one after another, and a tail that does not start with one. -/
structure Splits (bs : Bytes) (gs : List Bytes) (tail : Bytes) : Prop where
  bytes : bs = gs.flatten ++ tail
  frames : ∀ g ∈ gs, IsFrame g
  tail : ∀ g, IsFrame g → ¬ g <+: tail

theorem Header.ofBytes_append (h : headerSize ≤ bs.length) (rest : Bytes) :
    ofBytes (bs ++ rest) = ofBytes bs := by
  unfold headerSize at h
  have ht (i n : Nat) (hi : i + n ≤ 16) :
      ((bs ++ rest).drop i).take n = (bs.drop i).take n := by
    rw [List.drop_append_of_le_length (by omega), List.take_append_of_le_length]
    rw [List.length_drop]
    omega
  have h0 := ht 0 8 (by omega)
  rw [List.drop_zero, List.drop_zero] at h0
  simp only [ofBytes, h0, ht 8 4 (by omega), ht 12 4 (by omega)]

theorem Header.ofBytes_take (bs : Bytes) : ofBytes (bs.take headerSize) = ofBytes bs := by
  simp [ofBytes, headerSize, List.take_take, List.drop_take]

theorem front_eq_frame_iff {h : Header} {payload : Bytes} :
    front bs = .frame h payload rest ↔
      headerSize + h.length.toNat ≤ bs.length ∧ h = Header.ofBytes bs ∧ h.isFramed = true ∧
        payload = (bs.drop headerSize).take h.length.toNat ∧
        rest = (bs.drop headerSize).drop h.length.toNat := by
  unfold front headerSize
  grind

theorem front_eq_finish_iff : front bs = .finish ↔ bs = [] := by
  unfold front
  grind

theorem front_eq_torn_iff :
    front bs = .torn ↔ bs ≠ [] ∧
      (bs.length < headerSize ∨ (Header.ofBytes bs).isFramed = false ∨
        bs.length < headerSize + (Header.ofBytes bs).length.toNat) := by
  unfold front headerSize
  grind

/-- Whether bytes are a frame is told by how many they are and by the length in their header. -/
theorem IsFrame.congr {g g' : Bytes} (hg : IsFrame g) (hl : g'.length = g.length)
    (hh : (Header.ofBytes g').length = (Header.ofBytes g).length) : IsFrame g' := by
  constructor
  · rw [hh]
    exact hg.framed
  · rw [hh, hl]
    exact hg.length

theorem IsFrame.headerSize_le (hg : IsFrame g) : headerSize ≤ g.length := by
  rw [hg.length]
  exact Nat.le_add_right _ _

theorem IsFrame.length_drop (hg : IsFrame g) :
    (g.drop headerSize).length = (Header.ofBytes g).length.toNat := by
  rw [List.length_drop, hg.length, Nat.add_sub_cancel_left]

theorem IsFrame.front (hg : IsFrame g) (rest : Bytes) :
    front (g ++ rest) = .frame (Header.ofBytes g) (g.drop headerSize) rest := by
  have hs := hg.headerSize_le
  have hp := hg.length_drop
  rw [front_eq_frame_iff, Header.ofBytes_append hs, List.drop_append_of_le_length hs, ← hp,
    List.take_left, List.drop_left, List.length_append, hp, hg.length]
  exact ⟨Nat.le_add_right _ _, rfl, decide_eq_true hg.framed, rfl, rfl⟩

theorem IsFrame.not_prefix_nil (hg : IsFrame g) : ¬ g <+: [] := by
  intro hp
  have hl := hg.length
  rw [List.prefix_nil.mp hp, List.length_nil, headerSize] at hl
  omega

@[simp] theorem Entry.ofBytes_bytes (e : Entry) : Header.ofBytes e.bytes = e.header :=
  e.header.ofBytes_encode e.payload

@[simp] theorem Entry.drop_bytes (e : Entry) : e.bytes.drop headerSize = e.payload :=
  List.drop_left' e.header.length_encode

theorem Entry.Fits.isFrame {e : Entry} (h : e.Fits) : IsFrame e.bytes := by
  constructor
  · rw [e.ofBytes_bytes]
    exact of_decide_eq_true h.isFramed
  · rw [e.ofBytes_bytes, h.toNat_length, e.length_bytes]

theorem isFrame_of_front {h : Header} {payload : Bytes} (hf : front bs = .frame h payload rest) :
    ∃ g, IsFrame g ∧ bs = g ++ rest := by
  obtain ⟨hl, rfl, hh, -, hr⟩ := front_eq_frame_iff.mp hf
  generalize hn : headerSize + (Header.ofBytes bs).length.toNat = n at hl
  rw [List.drop_drop, hn] at hr
  have ht : (bs.take n).length = n := List.length_take_of_le hl
  have hb : Header.ofBytes (bs.take n ++ rest) = Header.ofBytes (bs.take n) :=
    Header.ofBytes_append (by omega) rest
  rw [hr, List.take_append_drop] at hb
  refine ⟨bs.take n, ⟨?_, ?_⟩, ?_⟩
  · rw [← hb]
    exact of_decide_eq_true hh
  · rw [← hb, ht, hn]
  · rw [hr, List.take_append_drop]

theorem not_prefix_of_front (hf : ∀ h payload rest, front bs ≠ .frame h payload rest)
    (hg : IsFrame g) : ¬ g <+: bs := by
  rintro ⟨rest, rfl⟩
  exact hf _ _ _ (hg.front rest)

theorem front_eq_torn_of_tail (h : ∀ g, IsFrame g → ¬ g <+: tail) (hne : tail ≠ []) :
    front tail = .torn := by
  cases hf : front tail with
  | finish => exact absurd (front_eq_finish_iff.mp hf) hne
  | torn => rfl
  | frame header payload rest =>
    obtain ⟨g, hg, hb⟩ := isFrame_of_front hf
    exact absurd ⟨rest, hb.symm⟩ (h g hg)

theorem Splits.cons (hg : IsFrame g) (h : Splits bs gs tail) : Splits (g ++ bs) (g :: gs) tail where
  bytes := by rw [h.bytes, List.flatten_cons, List.append_assoc]
  frames := List.forall_mem_cons.mpr ⟨hg, h.frames⟩
  tail := h.tail

theorem Splits.uncons (h : Splits bs (g :: gs) tail) :
    ∃ rest, IsFrame g ∧ bs = g ++ rest ∧ Splits rest gs tail := by
  obtain ⟨hg, hgs⟩ := List.forall_mem_cons.mp h.frames
  refine ⟨gs.flatten ++ tail, hg, ?_, rfl, hgs, h.tail⟩
  rw [h.bytes, List.flatten_cons, List.append_assoc]

theorem exists_splits (bs : Bytes) : ∃ gs tail, Splits bs gs tail := by
  induction bs using Recovery.ofBytes.induct with
  | case1 bs hf =>
    exact ⟨[], bs, rfl, by simp, fun g hg => not_prefix_of_front (by simp [hf]) hg⟩
  | case2 bs hf =>
    exact ⟨[], bs, rfl, by simp, fun g hg => not_prefix_of_front (by simp [hf]) hg⟩
  | case3 bs h payload rest hf hlt ih =>
    obtain ⟨g, hg, rfl⟩ := isFrame_of_front hf
    obtain ⟨gs, tail, hs⟩ := ih
    exact ⟨g :: gs, tail, hs.cons hg⟩

theorem IsFrame.eq_of_append {g' rest' : Bytes} (hg : IsFrame g) (hg' : IsFrame g')
    (h : g ++ rest = g' ++ rest') : g = g' ∧ rest = rest' := by
  have hf := hg.front rest
  rw [h, hg'.front rest'] at hf
  injection hf with hh hp hr
  subst hr
  exact ⟨List.append_cancel_right h, rfl⟩

theorem IsFrame.not_prefix_cut {g' rest' : Bytes} (hg : IsFrame g) (hg' : IsFrame (g' ++ rest'))
    (hr : rest' ≠ []) : ¬ g <+: g' := by
  rintro ⟨rest, rfl⟩
  have he : g ++ rest ++ rest' ++ [] = g ++ (rest ++ rest') := by
    rw [List.append_nil, List.append_assoc]
  have hn := (hg'.eq_of_append hg he).2
  exact hr (List.append_eq_nil_iff.mp hn.symm).2

theorem Splits.append {gs' : List Bytes} (h : ∀ g ∈ gs, IsFrame g) (h' : Splits bs gs' tail) :
    Splits (gs.flatten ++ bs) (gs ++ gs') tail where
  bytes := by rw [h'.bytes, List.flatten_append, List.append_assoc]
  frames := List.forall_mem_append.mpr ⟨h, h'.frames⟩
  tail := h'.tail

theorem splits_flatten (h : ∀ g ∈ gs, IsFrame g) : Splits gs.flatten gs [] where
  bytes := (List.append_nil _).symm
  frames := h
  tail _ hg := hg.not_prefix_nil

theorem splits_frames {es : List Entry} (hes : ∀ e ∈ es, e.Fits) :
    Splits (frames es) (es.map Entry.bytes) [] := by
  have hframes : ∀ g ∈ es.map Entry.bytes, IsFrame g :=
    List.forall_mem_map.mpr fun e he => (hes e he).isFrame
  rw [Journal.frames, List.flatMap_def]
  exact splits_flatten hframes

theorem Splits.unique {gs' : List Bytes} {tail' : Bytes} (h : Splits bs gs tail)
    (h' : Splits bs gs' tail') : gs' = gs ∧ tail' = tail := by
  induction gs generalizing bs gs' with
  | nil =>
    cases gs' with
    | nil => exact ⟨rfl, h'.bytes.symm.trans h.bytes⟩
    | cons g' gs' =>
      obtain ⟨rest', hg', rfl, -⟩ := h'.uncons
      exact absurd ⟨rest', h.bytes⟩ (h.tail g' hg')
  | cons g gs ih =>
    obtain ⟨rest, hg, hb, hs⟩ := h.uncons
    cases gs' with
    | nil => exact absurd ⟨rest, hb.symm.trans h'.bytes⟩ (h'.tail g hg)
    | cons g' gs' =>
      obtain ⟨rest', hg', hb', hs'⟩ := h'.uncons
      obtain ⟨rfl, rfl⟩ := hg.eq_of_append hg' (hb.symm.trans hb')
      obtain ⟨rfl, rfl⟩ := ih hs hs'
      exact ⟨rfl, rfl⟩

/-- The entry of a frame that is sound. -/
def Entry.ofFrame? (g : Bytes) : Option Entry :=
  (Entry.ofFrame g).toOption

theorem Entry.ofFrame?_eq_some_iff {e : Entry} : ofFrame? g = some e ↔ ofFrame g = .ok e := by
  unfold ofFrame?
  cases ofFrame g <;> simp [Except.toOption]

theorem Entry.ofFrame_eq (hs : headerSize ≤ g.length)
    (hl : (g.drop headerSize).length = (Header.ofBytes g).length.toNat) :
    Entry.ofFrame g = ((Header.ofBytes g).verify (g.drop headerSize)).mapError .unsound := by
  rw [Entry.ofFrame, if_neg (Nat.not_lt.mpr hs), if_pos hl]

theorem Entry.ofFrame_of_length_ne (hs : headerSize ≤ g.length)
    (hl : (g.drop headerSize).length ≠ (Header.ofBytes g).length.toNat) :
    Entry.ofFrame g =
      .error (.length (g.drop headerSize).length (Header.ofBytes g).length.toNat) := by
  rw [Entry.ofFrame, if_neg (Nat.not_lt.mpr hs), if_neg hl]

theorem Entry.ofFrame_eq_ok_iff {e : Entry} :
    Entry.ofFrame g = .ok e ↔
      headerSize ≤ g.length ∧ (g.drop headerSize).length = (Header.ofBytes g).length.toNat ∧
        (Header.ofBytes g).verify (g.drop headerSize) = .ok e := by
  by_cases hs : headerSize ≤ g.length
  · by_cases hl : (g.drop headerSize).length = (Header.ofBytes g).length.toNat
    · rw [ofFrame_eq hs hl]
      cases (Header.ofBytes g).verify (g.drop headerSize) <;> simp [Except.mapError, hs, hl]
    · rw [ofFrame_of_length_ne hs hl]
      constructor
      · intro h
        cases h
      · rintro ⟨-, h, -⟩
        exact absurd h hl
  · simp [ofFrame, Nat.not_le.mp hs, hs]

theorem Entry.Fits.ofFrame_bytes {e : Entry} (h : e.Fits) : Entry.ofFrame e.bytes = .ok e := by
  rw [Entry.ofFrame_eq_ok_iff, e.ofBytes_bytes, e.drop_bytes]
  exact ⟨h.isFrame.headerSize_le, h.toNat_length.symm, h.verify⟩

theorem Entry.Fits.ofFrame?_bytes {e : Entry} (h : e.Fits) : Entry.ofFrame? e.bytes = some e :=
  Entry.ofFrame?_eq_some_iff.mpr h.ofFrame_bytes

theorem filterMap_ofFrame?_map {es : List Entry} (hf : ∀ e ∈ es, e.Fits) :
    (es.map Entry.bytes).filterMap Entry.ofFrame? = es := by
  induction es with
  | nil => rfl
  | cons e es ih =>
    obtain ⟨he, hf⟩ := List.forall_mem_cons.mp hf
    rw [List.map_cons, List.filterMap_cons_some he.ofFrame?_bytes, ih hf]

theorem countP_isNone_map {es : List Entry} (hf : ∀ e ∈ es, e.Fits) :
    ((es.map Entry.bytes).countP fun g => (Entry.ofFrame? g).isNone) = 0 := by
  rw [List.countP_eq_zero, List.forall_mem_map]
  intro e he
  simp [(hf e he).ofFrame?_bytes]

theorem IsFrame.ofFrame?_eq (hg : IsFrame g) :
    Entry.ofFrame? g = ((Header.ofBytes g).verify (g.drop headerSize)).toOption := by
  rw [Entry.ofFrame?, Entry.ofFrame_eq hg.headerSize_le hg.length_drop]
  cases (Header.ofBytes g).verify (g.drop headerSize) <;> rfl

theorem Header.verify_eq_ok_iff {h : Header} {payload : Bytes} {e : Entry} :
    h.verify payload = .ok e ↔
      Checksum.crc32 payload = h.crc ∧ Wire.read Entry.get payload = .ok e ∧ e.lsn = h.lsn := by
  unfold verify
  grind

theorem IsFrame.ofFrame?_eq_some_iff (hg : IsFrame g) {e : Entry} :
    Entry.ofFrame? g = some e ↔
      Checksum.crc32 (g.drop headerSize) = (Header.ofBytes g).crc ∧
        Wire.read Entry.get (g.drop headerSize) = .ok e ∧ e.lsn = (Header.ofBytes g).lsn := by
  rw [Entry.ofFrame?_eq_some_iff, Entry.ofFrame_eq_ok_iff, Header.verify_eq_ok_iff]
  simp only [hg.headerSize_le, hg.length_drop, true_and]

namespace Recovery

theorem lastLsn_eq (r : Recovery) : r.lastLsn = (r.entries.map (·.lsn)).max?.getD 0 := by
  have hm (a b : UInt64) : (if a < b then b else a) = max a b := by
    change _ = if a ≤ b then b else a
    grind
  have h0 (a : UInt64) : max 0 a = a := by
    change (if 0 ≤ a then a else 0) = a
    grind
  unfold lastLsn
  cases r.entries with
  | nil => rfl
  | cons e es => simp [List.max?_cons', hm, List.foldl_map, h0]

theorem ofBytes_splits (h : Splits bs gs tail) :
    ofBytes bs =
      { entries := gs.filterMap Entry.ofFrame?
        corrupted := gs.countP fun g => (Entry.ofFrame? g).isNone
        kept := gs.flatten.length
        truncated := !tail.isEmpty } := by
  induction gs generalizing bs with
  | nil =>
    obtain rfl : bs = tail := h.bytes
    by_cases hb : bs = []
    · rw [ofBytes_finish (front_eq_finish_iff.mpr hb), hb]
      rfl
    · rw [ofBytes_torn (front_eq_torn_of_tail h.tail hb)]
      simp [none, hb]
  | cons g gs ih =>
    obtain ⟨rest, hg, rfl, hs⟩ := h.uncons
    have hl : headerSize + (g.drop headerSize).length = g.length := by
      rw [hg.length_drop, hg.length]
    rw [ofBytes_frame (hg.front rest), ih hs, cons, hl, List.filterMap_cons, List.countP_cons,
      List.flatten_cons, List.length_append, hg.ofFrame?_eq]
    cases (Header.ofBytes g).verify (g.drop headerSize) with
    | ok e => simp [Except.toOption]
    | error defect => simp [Except.toOption]

end Recovery

theorem LogFile.recover_splits {f : LogFile} (h : Splits f.bytes gs tail) :
    f.recover =
      ({ entries := gs.filterMap Entry.ofFrame?
         corrupted := gs.countP fun g => (Entry.ofFrame? g).isNone
         kept := gs.flatten.length
         truncated := !tail.isEmpty },
        { f with bytes := gs.flatten }) := by
  have hz : gs.flatten.length - f.size = 0 := by
    rw [size, h.bytes, List.length_append]
    omega
  rw [recover, verify, Recovery.ofBytes_splits h]
  refine Prod.ext rfl ?_
  dsimp only
  rw [setSize, hz, List.replicate_zero, List.append_nil, h.bytes, List.take_left]
  cases tail with
  | nil =>
    have hb : gs.flatten = f.bytes := (List.append_nil _).symm.trans h.bytes.symm
    rw [hb]
    rfl
  | cons b tail => rfl

/-- A file of complete frames and the frames of entries behind them is left as it is. -/
theorem LogFile.recover_continued {f : LogFile} {es : List Entry} (hgs : ∀ g ∈ gs, IsFrame g)
    (hes : ∀ e ∈ es, e.Fits) (h : f.bytes = gs.flatten ++ Journal.frames es) :
    f.recover =
      ({ entries := gs.filterMap Entry.ofFrame? ++ es
         corrupted := gs.countP fun g => (Entry.ofFrame? g).isNone
         kept := f.size
         truncated := false }, f) := by
  have hs : Splits f.bytes (gs ++ es.map Entry.bytes) [] :=
    h ▸ Splits.append hgs (splits_frames hes)
  have hb : (gs ++ es.map Entry.bytes).flatten = f.bytes := by
    rw [hs.bytes, List.append_nil]
  rw [LogFile.recover_splits hs, hb, List.filterMap_append, List.countP_append,
    filterMap_ofFrame?_map hes, countP_isNone_map hes]
  rfl

/-- Any bytes split in exactly one way into complete frames and a tail that does not start with one.
Recovering a file of these bytes gives the entries of the sound frames in their order, one for each,
the number of the other frames, the greatest sequence number of the entries, or 0, and whether there
is a tail; it leaves the frames. Verifying gives the same, and recovering once more as well, but for
the tail. -/
theorem recover_any (bs : Bytes) :
    ∃ gs tail, Splits bs gs tail ∧ (∀ gs' tail', Splits bs gs' tail' → gs' = gs ∧ tail' = tail) ∧
      (∀ g ∈ gs, ∀ e, Entry.ofFrame? g = some e ↔
        Checksum.crc32 (g.drop headerSize) = (Header.ofBytes g).crc ∧
          Wire.read Entry.get (g.drop headerSize) = .ok e ∧ e.lsn = (Header.ofBytes g).lsn) ∧
      let r := (LogFile.ofBytes bs).recover.1
      let f := (LogFile.ofBytes bs).recover.2
      r.entries = gs.filterMap Entry.ofFrame? ∧
        r.entries.length = (gs.countP fun g => (Entry.ofFrame? g).isSome) ∧
        r.corrupted = (gs.countP fun g => (Entry.ofFrame? g).isNone) ∧
        r.lastLsn = (r.entries.map (·.lsn)).max?.getD 0 ∧
        (r.truncated = true ↔ tail ≠ []) ∧
        f = .ofBytes gs.flatten ∧
        (LogFile.ofBytes bs).verify = r ∧
        f.recover = ({ r with truncated := false }, f) := by
  obtain ⟨gs, tail, h⟩ := exists_splits bs
  have hr := LogFile.recover_splits (f := .ofBytes bs) h
  have hr' := LogFile.recover_splits (f := .ofBytes gs.flatten) (splits_flatten h.frames)
  refine ⟨gs, tail, h, fun gs' tail' h' => h.unique h', fun g hg e => ?_, ?_⟩
  · exact (h.frames g hg).ofFrame?_eq_some_iff
  · dsimp only
    rw [hr]
    refine ⟨rfl, List.length_filterMap_eq_countP, rfl, Recovery.lastLsn_eq _, ?_, rfl,
      congrArg Prod.fst hr, hr'⟩
    simp

/-- Sixteen zeros are a complete frame with the right checksum, but no entry. -/
example : IsFrame (List.replicate 16 0) ∧ Entry.ofFrame? (List.replicate 16 0) = none :=
  ⟨⟨by decide, by decide⟩, by decide⟩

end PeerBook.Journal
