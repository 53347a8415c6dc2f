import PeerBook.Versions.Chain

/-! # Reading, writing and pruning chains

A write is seen by the reads at or above its sequence number and by no other,
and pruning at a floor changes no read at or above it. Neither needs the
chain to be in order.
-/

namespace PeerBook.Chain

variable {s floor seq : UInt64} {value : Bytes} {c : Chain}

theorem readAt_cons (s : UInt64) (v : Version) (c : Chain) :
    readAt s (v :: c) = (readAt s c).or (if v.seq ≤ s then some v.value else none) := by
  rw [readAt]
  cases readAt s c <;> rfl

theorem readAt_concat (s : UInt64) (c : Chain) (v : Version) :
    readAt s (c ++ [v]) = if v.seq ≤ s then some v.value else readAt s c := by
  induction c with
  | nil => rfl
  | cons w c ih =>
    rw [List.cons_append, readAt_cons, ih, readAt_cons]
    split <;> rfl

theorem readAt_eq_none_iff : readAt s c = none ↔ ∀ v ∈ c, ¬ v.seq ≤ s := by
  induction c with
  | nil => simp [readAt]
  | cons v c ih =>
    rw [readAt_cons, Option.or_eq_none_iff, ih]
    simp [and_comm]

theorem readAt_ne_none {v : Version} (hv : v ∈ c) (hs : v.seq ≤ s) : readAt s c ≠ none :=
  fun h => readAt_eq_none_iff.mp h v hv hs

theorem readAt_eq_of_le {s' : UInt64} (h : ∀ v ∈ c, v.seq ≤ s) (hs : s ≤ s') :
    readAt s' c = readAt s c := by
  induction c with
  | nil => rfl
  | cons v c ih =>
    obtain ⟨hv, hc⟩ := List.forall_mem_cons.mp h
    rw [readAt_cons, readAt_cons, ih hc, if_pos hv, if_pos (UInt64.le_trans hv hs)]

/-- A write puts a version at the end, after all the others or in place of one with the same
sequence number. -/
theorem write_cases (seq : UInt64) (value : Bytes) (c : Chain) :
    ∃ kept : Chain, (write seq value c).1 = kept ++ [⟨seq, value⟩] ∧
      (c = kept ∨ ∃ v : Version, v.seq = seq ∧ c = kept ++ [v]) := by
  fun_induction write seq value c with
  | case1 => exact ⟨[], rfl, .inl rfl⟩
  | case2 v h => exact ⟨[], rfl, .inr ⟨v, h, rfl⟩⟩
  | case3 v h => exact ⟨[v], rfl, .inl rfl⟩
  | case4 v rest hne chain replaced hw ih =>
    obtain ⟨kept, he, hk⟩ := ih
    rw [hw] at he
    refine ⟨v :: kept, congrArg (v :: ·) he, ?_⟩
    rcases hk with rfl | ⟨w, hs, rfl⟩
    · exact .inl rfl
    · exact .inr ⟨w, hs, rfl⟩

theorem readAt_write (s seq : UInt64) (value : Bytes) (c : Chain) :
    readAt s (write seq value c).1 = if seq ≤ s then some value else readAt s c := by
  obtain ⟨kept, he, hk⟩ := write_cases seq value c
  rw [he, readAt_concat]
  rcases hk with rfl | ⟨v, rfl, rfl⟩
  · split <;> rfl
  · rw [readAt_concat]
    split <;> rfl

theorem seq_of_mem_write {v : Version} (hv : v ∈ (write seq value c).1) : v.seq = seq ∨ v ∈ c := by
  obtain ⟨kept, he, hk⟩ := write_cases seq value c
  rw [he, List.mem_append, List.mem_singleton] at hv
  rcases hv with hv | rfl
  · right
    rcases hk with rfl | ⟨w, -, rfl⟩
    · exact hv
    · exact List.mem_append_left _ hv
  · exact .inl rfl

theorem split_append (floor : UInt64) (c : Chain) : (split floor c).1 ++ (split floor c).2 = c := by
  induction c with
  | nil => rfl
  | cons v c ih =>
    unfold split
    split
    · simp [ih]
    · rfl

theorem split_concat {v : Version} (h : v.seq ≤ floor) (c : Chain) :
    split floor (c ++ [v]) = (c, [v]) := by
  induction c with
  | nil => rfl
  | cons w c ih =>
    have ha : (c ++ [v]).any (·.seq ≤ floor) = true :=
      List.any_eq_true.mpr ⟨v, by simp, decide_eq_true h⟩
    rw [List.cons_append, split, if_pos ha, ih]

theorem readAt_prune (h : floor ≤ s) (c : Chain) : readAt s (prune floor c).1 = readAt s c := by
  change readAt s (split floor c).2 = readAt s c
  induction c with
  | nil => rfl
  | cons v c ih =>
    unfold split
    split
    · rename_i ha
      obtain ⟨w, hw, hf⟩ := List.any_eq_true.mp ha
      have hn : readAt s c ≠ none :=
        readAt_ne_none hw (UInt64.le_trans (of_decide_eq_true hf) h)
      obtain ⟨r, hr⟩ := Option.ne_none_iff_exists'.mp hn
      simp [readAt_cons, ih, hr]
    · rfl

theorem prune_suffix (floor : UInt64) (c : Chain) : (prune floor c).1 <:+ c :=
  ⟨_, split_append floor c⟩

theorem prune_ne_nil (floor : UInt64) (h : c ≠ []) : (prune floor c).1 ≠ [] := by
  change (split floor c).2 ≠ []
  induction c with
  | nil => exact absurd rfl h
  | cons v c ih =>
    unfold split
    split
    · rename_i ha
      apply ih
      rintro rfl
      simp at ha
    · simp

/-- Later versions have greater sequence numbers. -/
def Ordered (c : Chain) : Prop :=
  c.Pairwise (·.seq < ·.seq)

theorem ordered_of_length_eq_one (h : c.length = 1) : Ordered c := by
  obtain ⟨v, rfl⟩ := List.length_eq_one_iff.mp h
  exact List.pairwise_singleton ..

theorem Ordered.prune (h : Ordered c) (floor : UInt64) : Ordered (prune floor c).1 :=
  h.sublist (prune_suffix floor c).sublist

theorem write_ne_nil (seq : UInt64) (value : Bytes) (c : Chain) : (write seq value c).1 ≠ [] := by
  obtain ⟨kept, he, -⟩ := write_cases seq value c
  simp [he]

theorem Ordered.write (h : Ordered c) (hs : ∀ v ∈ c, v.seq ≤ seq) (value : Bytes) :
    Ordered (write seq value c).1 := by
  fun_induction Chain.write seq value c with
  | case1 => exact List.pairwise_singleton ..
  | case2 v hv => exact List.pairwise_singleton ..
  | case3 v hv =>
    have hlt : v.seq < seq := UInt64.lt_of_le_of_ne (hs v (by simp)) hv
    simpa [Ordered] using hlt
  | case4 v rest hne chain replaced hw ih =>
    obtain ⟨hv, hr⟩ := List.pairwise_cons.mp h
    obtain ⟨-, hs⟩ := List.forall_mem_cons.mp hs
    rw [hw] at ih
    refine List.pairwise_cons.mpr ⟨fun w hwm => ?_, ih hr hs⟩
    have hm : w ∈ (Chain.write seq value rest).1 := hw ▸ hwm
    rcases seq_of_mem_write hm with hseq | hm
    · obtain ⟨u, hu⟩ := List.exists_mem_of_ne_nil rest hne
      rw [hseq]
      exact UInt64.lt_of_lt_of_le (hv u hu) (hs u hu)
    · exact hv w hm

theorem Ordered.length_le {next : UInt64} (h : Ordered c)
    (hn : ∀ v ∈ c, v.seq ≤ s ∨ v.seq = next) : c.length ≤ c.countP (·.seq ≤ s) + 1 := by
  induction c with
  | nil => simp
  | cons v c ih =>
    obtain ⟨hv, hc⟩ := List.pairwise_cons.mp h
    obtain ⟨hnv, hnc⟩ := List.forall_mem_cons.mp hn
    by_cases hle : v.seq ≤ s
    · simpa [hle] using ih hc hnc
    · have hnil : c = [] := by
        rw [List.eq_nil_iff_forall_not_mem]
        intro w hw
        have hlt := hv w hw
        rcases hnc w hw with hs | he
        · exact hle (UInt64.le_of_lt (UInt64.lt_of_lt_of_le hlt hs))
        · rw [he, hnv.resolve_left hle] at hlt
          exact UInt64.lt_irrefl _ hlt
      simp [hnil]

end PeerBook.Chain
