import PeerBook.Journal.Reader
import PeerBook.Proofs.Journal.Split

/-! # Reading frames back

A reader is judged by what it has still to take, whether it has fetched that or
not. Where the frame of an entry is next, reading gives the entry and goes on
behind the frame. So frames one after another are read back whatever stands
behind them, by a reader and by recovery alike.
-/

namespace PeerBook.Journal

namespace Reader

variable {f : LogFile} {r : Reader} {rest : Bytes}

/-- What a reader has still to take from a file that ends. -/
def unread (f : LogFile) (r : Reader) : Bytes :=
  r.ahead ++ f.bytes.drop r.fetched

theorem unread_start (f : LogFile) : start.unread f = f.bytes := by
  simp [unread, start]

/-- What is fetched to take `n` bytes makes up for those that are short, or it is all there is. -/
theorem exists_block (hf : f.endless = false) (n : Nat) (r : Reader) :
    ∃ block left, f.bytes.drop r.fetched = block ++ left ∧
      (n ≤ (r.ahead ++ block).length ∨ left = []) ∧
      r.take f n = ((r.ahead ++ block).take n,
        { r with ahead := (r.ahead ++ block).drop n, fetched := r.fetched + block.length }) := by
  generalize hs : n - r.ahead.length = short
  by_cases h0 : short = 0
  · refine ⟨[], _, rfl, .inl ?_, by simp [take, hs, h0]⟩
    simp only [List.append_nil]
    omega
  · refine ⟨_, _, (List.take_append_drop (max short blockSize) _).symm, ?_, ?_⟩
    · simp only [List.length_append, List.length_take, List.drop_eq_nil_iff]
      omega
    · simp [take, hs, h0, LogFile.read, hf]

/-- Taking splits what is unread, however much of it has been fetched. -/
theorem exists_take (hf : f.endless = false) (n : Nat) (r : Reader) :
    ∃ r', r.take f n = ((r.unread f).take n, r') ∧ r'.position = r.position ∧
      r'.unread f = (r.unread f).drop n := by
  obtain ⟨block, left, hb, hn, ht⟩ := exists_block hf n r
  have hl : f.bytes.drop (r.fetched + block.length) = left := by
    rw [← List.drop_drop, hb, List.drop_left]
  have hu : r.unread f = (r.ahead ++ block) ++ left := by
    rw [unread, hb, List.append_assoc]
  refine ⟨_, ht.trans (Prod.ext ?_ rfl), rfl, ?_⟩
  · rcases hn with hn | rfl
    · rw [hu, List.take_append_of_le_length hn]
    · rw [hu, List.append_nil]
  · rw [hu]
    unfold unread
    rw [hl]
    rcases hn with hn | rfl
    · exact (List.drop_append_of_le_length hn).symm
    · rw [List.append_nil, List.append_nil]

/-- What is found depends on what is unread alone. -/
theorem find_eq (hf : f.endless = false) {bs body : Bytes} {h : Header} (hu : r.unread f = bs)
    (hh : Header.ofBytes bs = h) (hb : bs.drop headerSize = body) :
    ∃ r₁ r₂, r₁.position = r.position ∧ r₁.unread f = body ∧ r₂.position = r.position ∧
      r₂.unread f = body.drop h.length.toNat ∧
      r.find f =
        if bs = [] then (.finish, r₁)
        else if bs.length < headerSize then (.torn r.position, r₁)
        else if h.isFramed = false then (.torn r.position, r₁)
        else if body.length < h.length.toNat then (.torn r.position, r₂)
        else
          (match h.verify (body.take h.length.toNat) with
            | .ok e => .entry e
            | .error defect => .corrupt r.position defect,
            { r₂ with position := r.position + (headerSize + h.length.toNat) }) := by
  obtain ⟨r₁, hr₁, hp₁, hu₁⟩ := exists_take hf headerSize r
  obtain ⟨r₂, hr₂, hp₂, hu₂⟩ := exists_take hf h.length.toNat r₁
  rw [hu] at hr₁ hu₁
  rw [hu₁, hb] at hr₂ hu₂
  refine ⟨r₁, r₂, hp₁, hu₁.trans hb, hp₂.trans hp₁, hu₂, ?_⟩
  have he : (bs.take headerSize).isEmpty = true ↔ bs = [] := by
    simp [headerSize]
  have hs : (bs.take headerSize).length < headerSize ↔ bs.length < headerSize := by
    rw [List.length_take]
    omega
  have hl : (body.take h.length.toNat).length < h.length.toNat ↔ body.length < h.length.toNat := by
    rw [List.length_take]
    omega
  simp only [find, hr₁, Header.ofBytes_take, hh, he, hs, Bool.not_eq_true', hr₂, hl]
  split_ifs with _ _ _ hn
  · rfl
  · rfl
  · rfl
  · rfl
  · rw [List.length_take_of_le (Nat.not_lt.mp hn)]
    cases h.verify (body.take h.length.toNat) <;> rfl

theorem find_of_finish (hf : f.endless = false) (hu : r.unread f = []) :
    ∃ r', r.find f = (.finish, r') := by
  obtain ⟨r₁, _, -, -, -, -, h⟩ := find_eq (r := r) hf rfl rfl rfl
  exact ⟨r₁, by rw [h, if_pos hu]⟩

/-- What a reader that found no frame in these bytes has still to take: all behind the header if its
length cannot be that of a frame, and otherwise nothing. -/
def leftover (bs : Bytes) : Bytes :=
  if (Header.ofBytes bs).isFramed then [] else bs.drop headerSize

theorem find_of_torn (hf : f.endless = false) (hu : front (r.unread f) = .torn) :
    ∃ r', r.find f = (.torn r.position, r') ∧ r'.position = r.position ∧
      r'.unread f = leftover (r.unread f) := by
  obtain ⟨hne, hcut⟩ := front_eq_torn_iff.mp hu
  obtain ⟨r₁, r₂, hp₁, hu₁, hp₂, hu₂, h⟩ := find_eq (r := r) hf rfl rfl rfl
  rw [if_neg hne] at h
  unfold leftover
  by_cases hs : (r.unread f).length < headerSize
  · have hd : (r.unread f).drop headerSize = [] := List.drop_eq_nil_of_le (Nat.le_of_lt hs)
    refine ⟨r₁, by rw [h, if_pos hs], hp₁, ?_⟩
    rw [hu₁, hd, ite_self]
  · rw [if_neg hs] at h
    cases hframed : (Header.ofBytes (r.unread f)).isFramed with
    | false => exact ⟨r₁, by rw [h, if_pos hframed], hp₁, hu₁⟩
    | true =>
      have hb : ((r.unread f).drop headerSize).length <
          (Header.ofBytes (r.unread f)).length.toNat := by
        rw [List.length_drop]
        simp only [hs, hframed, false_or, Bool.true_eq_false] at hcut
        omega
      refine ⟨r₂, by rw [h, if_neg (by simp [hframed]), if_pos hb], hp₂, ?_⟩
      rw [hu₂, if_pos rfl]
      exact List.drop_eq_nil_of_le (Nat.le_of_lt hb)

theorem find_of_front {h : Header} {payload : Bytes} (hf : f.endless = false)
    (hu : front (r.unread f) = .frame h payload rest) :
    ∃ r', r.find f =
        ((match h.verify payload with
          | .ok e => .entry e
          | .error defect => .corrupt r.position defect), r') ∧
      r'.position = r.position + (headerSize + payload.length) ∧ r'.unread f = rest := by
  obtain ⟨hl, rfl, hframed, rfl, rfl⟩ := front_eq_frame_iff.mp hu
  obtain ⟨_, r₂, -, -, -, hu₂, hfind⟩ := find_eq (r := r) hf rfl rfl rfl
  have hb : (Header.ofBytes (r.unread f)).length.toNat ≤
      ((r.unread f).drop headerSize).length := by
    rw [List.length_drop]
    omega
  have hne : r.unread f ≠ [] := by
    intro hu
    rw [hu, List.length_nil, headerSize] at hl
    omega
  rw [if_neg hne, if_neg (by omega), if_neg (by simp [hframed]), if_neg (by omega)] at hfind
  refine ⟨_, hfind, ?_, hu₂⟩
  rw [List.length_take_of_le hb]

theorem next_of_bytes {e : Entry} (he : e.Fits) (hf : f.endless = false)
    (hu : r.unread f = e.bytes ++ rest) :
    ∃ r', r.next f = (.ok (some e), r') ∧ r'.position = r.position + e.bytes.length ∧
      r'.unread f = rest := by
  have hfront : front (r.unread f) = .frame e.header e.payload rest := hu ▸ he.front rest
  obtain ⟨r', hr, hp, hu'⟩ := find_of_front hf hfront
  rw [he.verify] at hr
  refine ⟨r', ?_, ?_, hu'⟩
  · rw [next, hr]
  · rw [hp, e.length_bytes]

end Reader

variable {es : List Entry} {bs tail : Bytes} {gs : List Bytes}

theorem Splits.frames_append (hf : ∀ e ∈ es, e.Fits) (h : Splits bs gs tail) :
    Splits (Journal.frames es ++ bs) (es.map Entry.bytes ++ gs) tail :=
  h.append (List.forall_mem_map.mpr fun e he => (hf e he).isFrame)

theorem LogFile.recover_frames_append (hf : ∀ e ∈ es, e.Fits) (h : Splits bs gs tail) :
    (LogFile.ofBytes (frames es ++ bs)).recover =
      ({ entries := es ++ gs.filterMap Entry.ofFrame?
         corrupted := gs.countP fun g => (Entry.ofFrame? g).isNone
         kept := (frames es ++ gs.flatten).length
         truncated := !tail.isEmpty },
        .ofBytes (frames es ++ gs.flatten)) := by
  have hs := LogFile.recover_splits (f := .ofBytes (frames es ++ bs)) (h.frames_append hf)
  have hb : (es.map Entry.bytes ++ gs).flatten = frames es ++ gs.flatten := List.flatten_append
  rw [hs, hb, List.filterMap_append, List.countP_append, filterMap_ofFrame?_map hf,
    countP_isNone_map hf, Nat.zero_add]
  rfl

/-- An entry whose payload is within the limit has a frame, and the entry is read back from it: by
itself, and by a reader that has the frame and any bytes behind it still to take, which it leaves.
So a file that starts with frames is recovered as their entries and what can be recovered of the
rest; and where the rest is part of a frame, as the entries alone, and the file is cut back to
their frames. -/
theorem frames_read_back :
    (∀ e : Entry, e.payload.length ≤ maxPayload →
      e.frame = .ok e.bytes ∧ Entry.ofFrame e.bytes = .ok e ∧
        ∀ (f : LogFile) (r : Reader) (rest : Bytes), f.endless = false →
          r.unread f = e.bytes ++ rest →
          ∃ r', r.next f = (.ok (some e), r') ∧ r'.position = r.position + e.bytes.length ∧
            r'.unread f = rest) ∧
    ∀ es : List Entry, (∀ e ∈ es, e.payload.length ≤ maxPayload) →
      (∀ bs, es <+: (LogFile.ofBytes (frames es ++ bs)).recover.1.entries) ∧
        ∀ part lost, part ≠ [] → lost ≠ [] → IsFrame (part ++ lost) →
          (LogFile.ofBytes (frames es ++ part)).recover =
            ({ entries := es, corrupted := 0, kept := (frames es).length, truncated := true },
              .ofBytes (frames es)) := by
  constructor
  · intro e he
    exact ⟨Entry.frame_eq_ok_iff.mpr ⟨he, rfl⟩, Entry.Fits.ofFrame_bytes he,
      fun f r rest hf hu => Reader.next_of_bytes he hf hu⟩
  · intro es hes
    constructor
    · intro bs
      obtain ⟨gs, tail, h⟩ := exists_splits bs
      rw [LogFile.recover_frames_append hes h]
      exact List.prefix_append _ _
    · intro part lost hpart hlost hframe
      have h : Splits part [] part := ⟨rfl, by simp, fun g hg => hg.not_prefix_cut hframe hlost⟩
      rw [LogFile.recover_frames_append hes h]
      simp [hpart]

/-- A payload of exactly the greatest length, and a log that was cut inside its last header. -/
theorem frames_read_back_cut :
    (∃ e : Entry, e.payload.length = maxPayload ∧ Entry.ofFrame e.bytes = .ok e ∧
      ∃ r, Reader.start.next (.ofBytes (e.bytes ++ [1, 2, 3])) = (.ok (some e), r) ∧
        r.position = 16 + maxPayload) ∧
    let es : List Entry := [⟨1, .put [1] [10], 0⟩, ⟨2, .batch [([], []), ([2], [20, 21])], 3⟩]
    let next : Entry := ⟨3, .batch [], 4⟩
    (LogFile.ofBytes (frames es ++ next.bytes.take 12)).recover.1.entries = es ∧
      (LogFile.ofBytes (frames es ++ next.bytes.take 12)).recover.2.bytes = frames es := by
  constructor
  · obtain ⟨value, hv⟩ : ∃ value : Bytes, value.length = maxPayload - 36 :=
      ⟨List.replicate _ 0, List.length_replicate⟩
    have hl : (⟨7, .put [] value, 5⟩ : Entry).payload.length = maxPayload := by
      simp [Entry.payload, Operation.encode, hv, maxPayload]
    obtain ⟨-, ho, hr⟩ := frames_read_back.1 ⟨7, .put [] value, 5⟩ (Nat.le_of_eq hl)
    obtain ⟨r, hn, hp, -⟩ := hr (.ofBytes _) .start [1, 2, 3] rfl (Reader.unread_start _)
    rw [Entry.length_bytes, hl] at hp
    exact ⟨_, hl, ho, r, hn, hp.trans (Nat.zero_add _)⟩
  · intro es next
    have hf : IsFrame (next.bytes.take 12 ++ next.bytes.drop 12) := by
      rw [List.take_append_drop]
      exact Entry.Fits.isFrame (by decide +kernel)
    have hc := (frames_read_back.2 es (by decide +kernel)).2 (next.bytes.take 12)
      (next.bytes.drop 12) (by decide +kernel) (by decide +kernel) hf
    constructor
    · rw [hc]
    · rw [hc]
      rfl

end PeerBook.Journal
