import PeerBook.Proofs.Versions.Table

/-! # Views and scans

A view lists what a read point sees in ascending order of keys, so it is
determined by the reads. A range keeps the bindings between two bounds; a
scan of it gives its front, and going on after a key gives what is left.
-/

namespace PeerBook

theorem isBelow_eq_true_iff {upper : Option Bytes} {k : Bytes} :
    isBelow upper k = true ↔ ∀ u ∈ upper, k < u := by
  cases upper with
  | none => simp [isBelow]
  | some u => simp [isBelow]

theorem isBelow_of_lt {upper : Option Bytes} {k k' : Bytes} (h : k < k')
    (hu : isBelow upper k' = true) : isBelow upper k = true := by
  cases upper with
  | none => rfl
  | some u => exact decide_eq_true (Std.lt_trans h (of_decide_eq_true hu))

theorem takeWhile_isBelow {l : List Binding} (hl : l.Pairwise (·.1 < ·.1)) (upper : Option Bytes) :
    l.takeWhile (fun b => isBelow upper b.1) = l.filter fun b => isBelow upper b.1 := by
  induction l with
  | nil => rfl
  | cons b l ih =>
    obtain ⟨hb, hl⟩ := List.pairwise_cons.mp hl
    cases h : isBelow upper b.1 with
    | true => simp [h, ih hl]
    | false =>
      rw [List.takeWhile_cons, List.filter_cons, h]
      refine (List.filter_eq_nil_iff.mpr fun b' hb' h' => ?_).symm
      simp [isBelow_of_lt (hb b' hb') h'] at h

theorem eq_filter_of_append_cons {l pre suf : List Binding} {b : Binding}
    (hl : l.Pairwise (·.1 < ·.1)) (h : l = pre ++ b :: suf) :
    suf = l.filter fun b' => (Start.after b.1).admits b'.1 := by
  subst h
  obtain ⟨-, hs, hps⟩ := List.pairwise_append.mp hl
  have hpre : pre.filter (fun b' => (Start.after b.1).admits b'.1) = [] := by
    refine List.filter_eq_nil_iff.mpr fun b' hb' h' => ?_
    exact Std.lt_irrefl (Std.lt_trans (hps b' hb' b List.mem_cons_self) (of_decide_eq_true h'))
  have hb : (Start.after b.1).admits b.1 = false := decide_eq_false Std.lt_irrefl
  have hsuf : suf.filter (fun b' => (Start.after b.1).admits b'.1) = suf :=
    List.filter_eq_self.mpr fun b' hb' => decide_eq_true ((List.pairwise_cons.mp hs).1 b' hb')
  rw [List.filter_append, hpre, List.filter_cons, hb, hsuf]
  rfl

namespace Table

variable {t t' : Table} {s s' : UInt64}

theorem mem_viewAt {b : Binding} : b ∈ t.viewAt s ↔ t.readAt b.1 s = some b.2 := by
  simp only [viewAt, List.mem_filterMap, Option.map_eq_some_iff, readAt, Option.bind_eq_some_iff,
    SortedMap.find?_eq_some_iff]
  constructor
  · rintro ⟨⟨key, chain⟩, hm, value, hv, rfl⟩
    exact ⟨chain, hm, hv⟩
  · rintro ⟨chain, hm, hv⟩
    exact ⟨(b.1, chain), hm, b.2, hv, rfl⟩

theorem pairwise_viewAt (t : Table) (s : UInt64) : (t.viewAt s).Pairwise (·.1 < ·.1) := by
  refine List.pairwise_filterMap.mpr (t.chains.sorted.imp ?_)
  rintro ⟨key, chain⟩ ⟨key', chain'⟩ hlt b hb b' hb'
  obtain ⟨value, -, rfl⟩ := Option.map_eq_some_iff.mp hb
  obtain ⟨value', -, rfl⟩ := Option.map_eq_some_iff.mp hb'
  exact hlt

theorem viewAt_congr (h : ∀ key, t.readAt key s = t'.readAt key s') : t.viewAt s = t'.viewAt s' :=
  SortedMap.eq_of_mem_iff (t.pairwise_viewAt s) (t'.pairwise_viewAt s')
    fun b => by rw [mem_viewAt, mem_viewAt, h]

/-- What a read at point `s` sees from `lower` on and below `upper`. -/
def range (t : Table) (s : UInt64) (lower : Bytes) (upper : Option Bytes) : List Binding :=
  (t.viewAt s).filter fun b => (Start.at lower).admits b.1 && isBelow upper b.1

theorem mem_range {lower : Bytes} {upper : Option Bytes} {b : Binding} :
    b ∈ t.range s lower upper ↔
      lower ≤ b.1 ∧ isBelow upper b.1 = true ∧ t.readAt b.1 s = some b.2 := by
  simp only [range, List.mem_filter, mem_viewAt, Start.admits, Bool.and_eq_true, Bool.not_eq_true',
    decide_eq_false_iff_not, Std.not_lt]
  exact ⟨fun h => ⟨h.2.1, h.2.2, h.1⟩, fun h => ⟨h.2.2, h.1, h.2.1⟩⟩

theorem pairwise_range (t : Table) (s : UInt64) (lower : Bytes) (upper : Option Bytes) :
    (t.range s lower upper).Pairwise (·.1 < ·.1) :=
  (t.pairwise_viewAt s).filter _

theorem range_congr (h : ∀ key, t.readAt key s = t'.readAt key s) (lower : Bytes)
    (upper : Option Bytes) : t.range s lower upper = t'.range s lower upper := by
  rw [range, viewAt_congr h, range]

theorem scanAt_eq (t : Table) (s : UInt64) (start : Start) (upper : Option Bytes) (limit : Nat) :
    t.scanAt s start upper limit =
      ((t.viewAt s).filter fun b => start.admits b.1 && isBelow upper b.1).take (max limit 1) := by
  rw [scanAt, takeWhile_isBelow ((t.pairwise_viewAt s).filter _), List.filter_filter]
  simp only [Bool.and_comm]

theorem scanAt_lower (t : Table) (s : UInt64) (lower : Bytes) (upper : Option Bytes)
    {limit : Nat} (hl : 1 ≤ limit) :
    t.scanAt s (.at lower) upper limit = (t.range s lower upper).take limit := by
  rw [scanAt_eq, Nat.max_eq_left hl, range]

/-- Going on after a key of a range gives what stands behind it there. -/
theorem scanAt_after {lower : Bytes} {upper : Option Bytes} {limit : Nat} (hl : 1 ≤ limit)
    {pre suf : List Binding} {b : Binding} (h : t.range s lower upper = pre ++ b :: suf) :
    t.scanAt s (.after b.1) upper limit = suf.take limit := by
  have hb : lower ≤ b.1 := (mem_range.mp (h ▸ List.mem_append_right _ List.mem_cons_self)).1
  have hs := eq_filter_of_append_cons (t.pairwise_range s lower upper) h
  rw [scanAt_eq, Nat.max_eq_left hl, hs, range, List.filter_filter]
  congr 1
  refine List.filter_congr fun b' _ => ?_
  by_cases hlt : b.1 < b'.1
  · have hge : ¬ b'.1 < lower := Std.not_lt.mpr (Std.le_trans hb (Std.le_of_lt hlt))
    simp [Start.admits, hlt, hge]
  · simp [Start.admits, hlt]

end Table

end PeerBook
