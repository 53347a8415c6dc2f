import PeerBook.Proofs.Versions.Size

/-! # What pruning keeps

A read at a point selects the version nearest to the end that is not newer.
Pruning a chain that is in order keeps exactly the versions that some read at
or above the floor selects. Pruning at two floors, one after the other, is
pruning once at the greater one, whether or not the chain is in order.
-/

namespace PeerBook.Chain

variable {s floor floor' : UInt64} {v : Version} {c : Chain}

/-- The version that a read at point `s` takes. -/
def selected? (s : UInt64) (c : Chain) : Option Version :=
  c.reverse.find? (·.seq ≤ s)

theorem selected?_cons (s : UInt64) (v : Version) (c : Chain) :
    selected? s (v :: c) = (selected? s c).or (if v.seq ≤ s then some v else none) := by
  by_cases h : v.seq ≤ s <;> simp [selected?, h]

theorem readAt_eq_selected (s : UInt64) (c : Chain) :
    readAt s c = (selected? s c).map (·.value) := by
  induction c with
  | nil => rfl
  | cons v c ih =>
    rw [readAt_cons, selected?_cons, ih]
    cases selected? s c with
    | none => by_cases h : v.seq ≤ s <;> simp [h]
    | some w => rfl

theorem selected?_eq_none_iff : selected? s c = none ↔ ∀ v ∈ c, ¬ v.seq ≤ s := by
  simp [selected?]

theorem mem_of_selected (h : selected? s c = some v) : v ∈ c :=
  List.mem_reverse.mp (List.mem_of_find?_eq_some h)

theorem selected?_cons_of_lt (hv : v.seq ≤ s) (hc : ∀ w ∈ c, s < w.seq) :
    selected? s (v :: c) = some v := by
  have hn : selected? s c = none :=
    selected?_eq_none_iff.mpr fun w hw => UInt64.not_le.mpr (hc w hw)
  rw [selected?_cons, hn, if_pos hv, Option.none_or]

theorem selected?_cons_of_le {w : Version} (hw : w ∈ c) (hs : w.seq ≤ s) (v : Version) :
    selected? s (v :: c) = selected? s c := by
  have hne : selected? s c ≠ none := fun hn => selected?_eq_none_iff.mp hn w hw hs
  obtain ⟨u, hu⟩ := Option.ne_none_iff_exists'.mp hne
  rw [selected?_cons, hu, Option.some_or]

theorem Ordered.selected?_seq (h : c.Ordered) (hv : v ∈ c) : selected? v.seq c = some v := by
  induction c with
  | nil => cases hv
  | cons w c ih =>
    obtain ⟨hw, hc⟩ := List.pairwise_cons.mp h
    rcases List.mem_cons.mp hv with rfl | hv
    · exact selected?_cons_of_lt (UInt64.le_refl _) hw
    · rw [selected?_cons_of_le hv (UInt64.le_refl _)]
      exact ih hc hv

theorem le_max_floor_iff : s ≤ max floor floor' ↔ s ≤ floor ∨ s ≤ floor' := by
  change s ≤ (if floor ≤ floor' then floor' else floor) ↔ _
  grind

/-- A chain is kept from its first version on, or a version of the rest is at or below the floor
and what is kept of the rest is all. -/
theorem prune_cons_cases (floor : UInt64) (v : Version) (c : Chain) :
    ((∃ w ∈ c, w.seq ≤ floor) ∧ (prune floor (v :: c)).1 = (prune floor c).1) ∨
      (∀ w ∈ c, floor < w.seq) ∧ (prune floor (v :: c)).1 = v :: c := by
  change (_ ∧ (split floor (v :: c)).2 = (split floor c).2) ∨ _ ∧ (split floor (v :: c)).2 = v :: c
  rw [split]
  by_cases ha : c.any (·.seq ≤ floor)
  · rw [if_pos ha]
    exact .inl ⟨by simpa using ha, rfl⟩
  · rw [if_neg ha]
    exact .inr ⟨by simpa using ha, rfl⟩

theorem mem_prune_iff (h : c.Ordered) (floor : UInt64) (v : Version) :
    v ∈ (prune floor c).1 ↔ ∃ s, floor ≤ s ∧ selected? s c = some v := by
  induction c with
  | nil => simp [prune, split, selected?]
  | cons w c ih =>
    obtain ⟨hw, hc⟩ := List.pairwise_cons.mp h
    rcases prune_cons_cases floor w c with ⟨⟨u, hu, hf⟩, he⟩ | ⟨hlt, he⟩
    · -- The version `u` hides `w` from every read at or above the floor.
      rw [he, ih hc]
      refine exists_congr fun s => and_congr_right fun hs => ?_
      rw [selected?_cons_of_le hu (UInt64.le_trans hf hs)]
    · rw [he]
      constructor
      · intro hv
        rcases List.mem_cons.mp hv with rfl | hvc
        · refine ⟨max floor v.seq, le_max_floor_iff.mpr (.inl (UInt64.le_refl _)), ?_⟩
          apply selected?_cons_of_lt (le_max_floor_iff.mpr (.inr (UInt64.le_refl _)))
          intro u hu
          rw [← UInt64.not_le, le_max_floor_iff, not_or, UInt64.not_le, UInt64.not_le]
          exact ⟨hlt u hu, hw u hu⟩
        · exact ⟨v.seq, UInt64.le_of_lt (hlt v hvc), h.selected?_seq hv⟩
      · rintro ⟨s, -, hs⟩
        exact mem_of_selected hs

theorem prune_congr (h : ∀ v ∈ c.tail, (v.seq ≤ floor ↔ v.seq ≤ floor')) :
    (prune floor c).1 = (prune floor' c).1 := by
  induction c with
  | nil => rfl
  | cons v c ih =>
    rw [List.tail_cons] at h
    rcases prune_cons_cases floor v c with ⟨⟨w, hw, hf⟩, he⟩ | ⟨hlt, he⟩ <;>
      rcases prune_cons_cases floor' v c with ⟨⟨w', hw', hf'⟩, he'⟩ | ⟨hlt', he'⟩
    · rw [he, he', ih fun u hu => h u (List.mem_of_mem_tail hu)]
    · exact absurd ((h w hw).mp hf) (UInt64.not_le.mpr (hlt' w hw))
    · exact absurd ((h w' hw').mpr hf') (UInt64.not_le.mpr (hlt w' hw'))
    · rw [he, he']

theorem fst_prune_prune (floor floor' : UInt64) (c : Chain) :
    (prune floor' (prune floor c).1).1 = (prune (max floor floor') c).1 := by
  induction c with
  | nil => rfl
  | cons v c ih =>
    rcases prune_cons_cases floor v c with ⟨⟨w, hw, hf⟩, he⟩ | ⟨hlt, he⟩
    · rcases prune_cons_cases (max floor floor') v c with ⟨-, he'⟩ | ⟨hlt', -⟩
      · rw [he, he', ih]
      · exact absurd (le_max_floor_iff.mpr (.inl hf)) (UInt64.not_le.mpr (hlt' w hw))
    · -- Nothing behind `v` is at or below the first floor, so that only the second one counts.
      rw [he]
      apply prune_congr
      intro w hw
      rw [le_max_floor_iff, or_iff_right (UInt64.not_le.mpr (hlt w hw))]

theorem snd_prune_prune (floor floor' : UInt64) (c : Chain) :
    (prune floor c).2 + (prune floor' (prune floor c).1).2 = (prune (max floor floor') c).2 := by
  have h := bytes_prune floor c
  have h' := bytes_prune floor' (prune floor c).1
  have hmax := bytes_prune (max floor floor') c
  rw [fst_prune_prune] at h'
  omega

/-- Pruning a chain that is in order keeps the versions that a read at or above the floor selects,
and no others. They stay in order, behind the dropped ones, whose bytes are counted. Pruning again
at the same floor drops nothing, and pruning at another floor keeps and drops, all in all, what
pruning once at the greater of the two does. -/
theorem prune_keeps_selected (h : c.Ordered) (floor : UInt64) :
    let kept := (prune floor c).1
    (∀ s, readAt s c = (selected? s c).map (·.value)) ∧
    (∀ v, v ∈ kept ↔ ∃ s, floor ≤ s ∧ selected? s c = some v) ∧
    (∃ dropped, c = dropped ++ kept ∧
      (prune floor c).2 = (dropped.map (·.value.length)).sum) ∧
    prune floor kept = (kept, 0) ∧
    ∀ floor', (prune floor' kept).1 = (prune (max floor floor') c).1 ∧
      (prune floor c).2 + (prune floor' kept).2 = (prune (max floor floor') c).2 := by
  intro kept
  have hself : max floor floor = floor := ite_self floor
  refine ⟨fun s => readAt_eq_selected s c, mem_prune_iff h floor, ?_, ?_, ?_⟩
  · exact ⟨(split floor c).1, (split_append floor c).symm, bytes_eq_sum _⟩
  · have hfst := fst_prune_prune floor floor c
    have hsnd := snd_prune_prune floor floor c
    rw [hself] at hfst hsnd
    exact Prod.ext hfst (Nat.add_eq_left.mp hsnd)
  · exact fun floor' => ⟨fst_prune_prune floor floor' c, snd_prune_prune floor floor' c⟩

/-- The floor lies between two versions: the one below it stays for the reads in between, and a
second floor above all leaves the last. -/
theorem prune_keeps_selected_between :
    let c : Chain := [⟨1, [1]⟩, ⟨3, [2, 2]⟩, ⟨7, [3]⟩]
    c.Ordered ∧ selected? 5 c = some ⟨3, [2, 2]⟩ ∧ ⟨3, [2, 2]⟩ ∈ (prune 5 c).1 ∧
      ⟨1, [1]⟩ ∉ (prune 5 c).1 ∧ (prune 5 c).2 = 1 ∧
      (prune 9 (prune 5 c).1).1 = [⟨7, [3]⟩] ∧ (prune 9 (prune 5 c).1).2 = 2 := by
  intro c
  have ho : c.Ordered := by simp [c, Ordered]
  obtain ⟨-, hmem, -, -, htwice⟩ := prune_keeps_selected ho 5
  obtain ⟨hfst, hsnd⟩ := htwice 9
  refine ⟨ho, by decide, (hmem _).mpr ⟨5, by decide⟩, by decide, by decide, ?_, ?_⟩
  · rw [hfst]
    decide
  · exact Nat.add_left_cancel (hsnd.trans rfl)

end PeerBook.Chain
