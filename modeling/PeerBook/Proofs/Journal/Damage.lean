import PeerBook.Proofs.Journal.Flaws
import PeerBook.Proofs.Journal.Reader

/-! # A changed byte in a log

A frame in which a byte is changed is not sound. So a changed byte costs the
entry of its frame and no other. Only the length leads to the next frame:
when it is changed, what stands behind it is framed anew.
-/

namespace PeerBook.Journal

variable {g : Bytes} {e : Entry} {es : List Entry} {i offset : Nat} {mask : UInt8}

theorem ne_of_flip (hi : i < g.length) (hm : mask ≠ 0) : g.modify i (· ^^^ mask) ≠ g := by
  intro h
  have hb := List.getElem?_modify_eq (· ^^^ mask) i g
  rw [h, List.getElem?_eq_getElem hi, Option.map_eq_map, Option.map_some, Option.some.injEq] at hb
  exact hm ((UInt8.xor_right_inj g[i]).mp (hb.symm.trans UInt8.xor_zero.symm))

theorem Entry.Fits.ofFrame?_flip (he : e.Fits) (hi : i < e.bytes.length) (hm : mask ≠ 0) :
    Entry.ofFrame? (e.bytes.modify i (· ^^^ mask)) = none := by
  rw [ofFrame?, he.ofFrame_modify (ne_of_flip hi hm)]
  rfl

theorem exists_frame_at (h : offset < (frames es).length) :
    ∃ before e after i, es = before ++ e :: after ∧ i < e.bytes.length ∧
      offset = (frames before).length + i := by
  induction es generalizing offset with
  | nil => simp [frames] at h
  | cons e es ih =>
    rw [frames_cons, List.length_append] at h
    by_cases hlt : offset < e.bytes.length
    · exact ⟨[], e, es, offset, rfl, hlt, (Nat.zero_add _).symm⟩
    · have hrest : offset - e.bytes.length < (frames es).length := by omega
      obtain ⟨before, e', after, i, rfl, hi, ho⟩ := ih hrest
      refine ⟨e :: before, e', after, i, rfl, hi, ?_⟩
      rw [frames_cons, List.length_append]
      omega

theorem frames_append (es es' : List Entry) : frames (es ++ es') = frames es ++ frames es' :=
  List.flatMap_append

theorem modify_append_of_lt (h : i < g.length) (rest : Bytes) (f : UInt8 → UInt8) :
    (g ++ rest).modify i f = g.modify i f ++ rest := by
  induction g generalizing i with
  | nil => simp at h
  | cons b g ih =>
    cases i with
    | zero => rfl
    | succ i => simp [ih (Nat.lt_of_succ_lt_succ h)]

theorem frames_modify (before after : List Entry) (hi : i < e.bytes.length) (f : UInt8 → UInt8) :
    (frames (before ++ e :: after)).modify ((frames before).length + i) f =
      frames before ++ (e.bytes.modify i f ++ frames after) := by
  rw [frames_append, frames_cons, ← modify_append_of_lt hi]
  exact List.modifyTailIdx_add ..

namespace LogFile

theorem recover_replaced {before after : List Entry} (hb : ∀ e ∈ before, e.Fits)
    (ha : ∀ e ∈ after, e.Fits) (hg : IsFrame g) (hn : Entry.ofFrame? g = none) :
    (ofBytes (frames before ++ (g ++ frames after))).recover =
      (⟨before ++ after, 1, (frames before ++ (g ++ frames after)).length, false⟩,
        .ofBytes (frames before ++ (g ++ frames after))) := by
  have hf : (g :: after.map Entry.bytes).flatten = g ++ frames after := by
    rw [List.flatten_cons, ← List.flatMap_def, frames]
  rw [recover_frames_append hb ((splits_frames ha).cons hg), hf, List.filterMap_cons_none hn,
    filterMap_ofFrame?_map ha, List.countP_cons_of_pos (by rw [hn]; rfl), countP_isNone_map ha]
  rfl

theorem recover_unframed {before : List Entry} {rest : Bytes} (hb : ∀ e ∈ before, e.Fits)
    (hr : rest ≠ [])
    (hn : maxPayload < (Header.ofBytes rest).length.toNat ∨
      rest.length < headerSize + (Header.ofBytes rest).length.toNat) :
    (ofBytes (frames before ++ rest)).recover =
      (⟨before, 0, (frames before).length, true⟩, .ofBytes (frames before)) := by
  have hf (h : Header) (payload left : Bytes) : front rest ≠ .frame h payload left := by
    intro hf
    obtain ⟨hl, rfl, hframed, -⟩ := front_eq_frame_iff.mp hf
    have := of_decide_eq_true hframed
    omega
  have hs : Splits rest [] rest := ⟨rfl, by simp, fun g hg => not_prefix_of_front hf hg⟩
  rw [recover_frames_append hb hs]
  simp [hr]

/-- Each place in a log of frames is in one of them. When a byte is changed that is not one of a
length, all entries are recovered but that of its frame, and the file is left as it is. With another
length, the frames before it are recovered as ever, and what stands from it on is framed anew; if
the length is over the limit, or more than is left of the file, then that is cut off. -/
theorem recover_flip (hes : ∀ e ∈ es, e.Fits) :
    (∀ offset < (frames es).length, ∃ before e after i, es = before ++ e :: after ∧
      i < e.bytes.length ∧ offset = (frames before).length + i) ∧
    ∀ before e after i mask, es = before ++ e :: after → i < e.bytes.length → mask ≠ 0 →
      let f := (ofBytes (frames es)).flip ((frames before).length + i) mask
      let rest := f.bytes.drop (frames before).length
      let n := (Header.ofBytes rest).length.toNat
      (¬ IsLengthByte i → f.recover = (⟨before ++ after, 1, f.size, false⟩, f)) ∧
      (IsLengthByte i →
        f.recover.1.entries = before ++ (ofBytes rest).recover.1.entries ∧
          f.recover.2.bytes = frames before ++ (ofBytes rest).recover.2.bytes ∧
          (maxPayload < n ∨ rest.length < headerSize + n →
            f.recover = (⟨before, 0, (frames before).length, true⟩, .ofBytes (frames before)))) := by
  constructor
  · intro offset ho
    exact exists_frame_at ho
  · intro before e after i mask hsplit hi hm f rest n
    subst hsplit
    obtain ⟨hb, hea⟩ := List.forall_mem_append.mp hes
    obtain ⟨he, ha⟩ := List.forall_mem_cons.mp hea
    have hf : f = ofBytes (frames before ++ (e.bytes.modify i (· ^^^ mask) ++ frames after)) :=
      congrArg ofBytes (frames_modify before after hi (· ^^^ mask))
    have hr : rest = e.bytes.modify i (· ^^^ mask) ++ frames after := by
      simp only [rest, hf, ofBytes, List.drop_left]
    constructor
    · intro hn
      rw [hf]
      exact recover_replaced hb ha (he.isFrame.modify hn _) (he.ofFrame?_flip hi hm)
    · intro _
      obtain ⟨gs, tail, hs⟩ := exists_splits rest
      have hrest := recover_splits (f := ofBytes rest) hs
      rw [hf, ← hr, hrest, recover_frames_append hb hs]
      refine ⟨rfl, rfl, fun hn => ?_⟩
      rw [← recover_frames_append hb hs]
      refine recover_unframed hb ?_ hn
      rw [hr, ← List.length_pos_iff, List.length_append, List.length_modify]
      omega

theorem recover_flip_at :
    let e₁ : Entry := ⟨1, .put [1] [10], 0⟩
    let e₂ : Entry := ⟨2, .batch [([2], []), ([], [20])], 7⟩
    let f := ofBytes (frames [e₁, e₂])
    (f.flip 0 3).recover.1.entries = [e₂] ∧ (f.flip (f.size - 9) 128).recover.1.entries = [e₁] ∧
      (f.flip 68 1).recover = (⟨[e₁], 0, 54, true⟩, ofBytes e₁.bytes) := by
  intro e₁ e₂ f
  have hes : ∀ e ∈ [e₁, e₂], e.Fits := by decide
  have h₁ := (recover_flip hes).2 [] e₁ [e₂] 0 3 rfl (by decide) (by decide)
  have h₂ := (recover_flip hes).2 [e₁] e₂ [] 69 128 rfl (by decide) (by decide)
  have h₃ := (recover_flip hes).2 [e₁] e₂ [] 14 1 rfl (by decide) (by decide)
  refine ⟨congrArg (·.1.entries) (h₁.1 (by decide)), congrArg (·.1.entries) (h₂.1 (by decide)), ?_⟩
  have hl : (frames [e₁]).length = 54 := by decide
  rw [hl] at h₃
  rw [(h₃.2 (by decide)).2.2 (by decide)]
  simp [frames]

/-- With its length changed to more than is left, a frame takes those behind it with it. -/
theorem recover_flip_length :
    let e₁ : Entry := ⟨1, .put [1] [10], 0⟩
    let e₂ : Entry := ⟨2, .put [2] [20], 0⟩
    let r := ((ofBytes (frames [e₁, e₂])).flip 15 255).recover
    (∀ e ∈ [e₁, e₂], e.Fits) ∧ r.1.entries = [] ∧ (∀ k, r.1.entries ≠ [e₁, e₂].eraseIdx k) ∧
      r.2.bytes = [] := by
  intro e₁ e₂ r
  have hr : r.1.entries = [] := by decide +kernel
  refine ⟨by decide, hr, fun k h => ?_, by decide +kernel⟩
  have hl := congrArg List.length h
  rw [hr, List.length_eraseIdx, List.length_nil] at hl
  split at hl <;> simp at hl

end LogFile

end PeerBook.Journal
