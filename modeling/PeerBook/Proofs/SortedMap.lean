import Mathlib.Algebra.GroupWithZero.Nat
import Mathlib.Data.List.Induction
import PeerBook.SortedMap

/-! # Laws of sorted maps

Looking a key up after an insertion or an erasure, the least key, and
extensionality: a map is determined by what it finds. Sums over the bindings
change with an insertion by the new binding and the one that it replaces.
-/

namespace PeerBook.SortedMap

variable {κ ν : Type} [LT κ] [DecidableLT κ]

@[simp] theorem find?_empty (k : κ) : (empty : SortedMap κ ν).find? k = none := rfl

variable [LE κ] [Std.IsLinearOrder κ] [Std.LawfulOrderLT κ] {m m' : SortedMap κ ν}

theorem findIn_eq_some_iff {l : List (κ × ν)} (hl : l.Pairwise (·.1 < ·.1)) (k : κ) (v : ν) :
    findIn k l = some v ↔ (k, v) ∈ l := by
  induction l with
  | nil => simp [findIn]
  | cons b rest ih =>
    obtain ⟨k', v'⟩ := b
    obtain ⟨hb, hr⟩ := List.pairwise_cons.mp hl
    have hn : ∀ w, (k, w) ∈ rest → k' < k := fun w hw => hb _ hw
    have ih := ih hr
    simp only [findIn, List.mem_cons, Prod.mk.injEq]
    grind

theorem find?_eq_some_iff {k : κ} {v : ν} : m.find? k = some v ↔ (k, v) ∈ m.toList :=
  findIn_eq_some_iff m.sorted k v

theorem findIn_insertIn (k k' : κ) (v : ν) (l : List (κ × ν)) [DecidableEq κ] :
    findIn k' (insertIn k v l) = if k' = k then some v else findIn k' l := by
  induction l with
  | nil => grind [insertIn, findIn]
  | cons b rest ih => grind [insertIn, findIn]

@[simp] theorem find?_insert (m : SortedMap κ ν) (k k' : κ) (v : ν) [DecidableEq κ] :
    (m.insert k v).find? k' = if k' = k then some v else m.find? k' :=
  findIn_insertIn k k' v m.toList

@[simp] theorem find?_erase (m : SortedMap κ ν) (k k' : κ) [DecidableEq κ] :
    (m.erase k).find? k' = if k' = k then none else m.find? k' := by
  ext v
  rw [find?_eq_some_iff]
  simp only [erase, List.mem_filter, ← find?_eq_some_iff]
  grind

theorem ofList_concat (l : List (κ × ν)) (b : κ × ν) :
    ofList (l ++ [b]) = (ofList l).insert b.1 b.2 := by
  simp only [ofList, List.foldl_append, List.foldl_cons, List.foldl_nil]

/-- What is bound later wins. -/
theorem find?_ofList_append (l l' : List (κ × ν)) (k : κ) [DecidableEq κ] :
    (ofList (l ++ l')).find? k = ((ofList l').find? k).or ((ofList l).find? k) := by
  induction l' using List.reverseRecOn with
  | nil => simp [ofList]
  | append_singleton l' b ih =>
    rw [← List.append_assoc, ofList_concat, ofList_concat, find?_insert, find?_insert, ih]
    split <;> rfl

theorem find?_ofList_eq_none_iff {l : List (κ × ν)} {k : κ} [DecidableEq κ] :
    (ofList l).find? k = none ↔ k ∉ l.map (·.1) := by
  induction l using List.reverseRecOn with
  | nil => simp [ofList]
  | append_singleton l b ih =>
    rw [ofList_concat, find?_insert, List.map_append, List.mem_append, not_or, ← ih]
    by_cases hk : k = b.1
    · simp [hk]
    · simp [hk]

theorem find?_ofList (l : List (κ × ν)) (k : κ) [DecidableEq κ] [BEq κ] [LawfulBEq κ] :
    (ofList l).find? k = l.reverse.lookup k := by
  induction l using List.reverseRecOn with
  | nil => rfl
  | append_singleton l b ih =>
    rw [ofList_concat, find?_insert, ih, List.reverse_concat, List.lookup_cons]
    split
    · rename_i hk
      simp [hk]
    · rename_i hk
      rw [beq_false_of_ne hk]

omit [DecidableLT κ] in
theorem eq_of_mem_iff {l l' : List (κ × ν)} (hl : l.Pairwise (·.1 < ·.1))
    (hl' : l'.Pairwise (·.1 < ·.1)) (h : ∀ b, b ∈ l ↔ b ∈ l') : l = l' := by
  have hp : ∀ {a b : κ × ν}, a.1 < b.1 → a ≠ b := fun hab he => Std.lt_irrefl (he ▸ hab)
  have hperm : l.Perm l' := (List.perm_ext_iff_of_nodup (hl.imp hp) (hl'.imp hp)).mpr h
  exact hperm.eq_of_pairwise (fun a b _ _ hab hba => absurd (Std.lt_trans hab hba) Std.lt_irrefl)
    hl hl'

theorem find?_ofList_eq_some_iff {l : List (κ × ν)} (hl : l.Pairwise (·.1 < ·.1)) {k : κ} {v : ν}
    [DecidableEq κ] : (ofList l).find? k = some v ↔ (k, v) ∈ l := by
  induction l using List.reverseRecOn with
  | nil => simp [ofList]
  | append_singleton l b ih =>
    obtain ⟨hl, -, hb⟩ := List.pairwise_append.mp hl
    rw [ofList_concat, find?_insert, List.mem_append, List.mem_singleton]
    by_cases hk : k = b.1
    · subst hk
      have hn : (b.1, v) ∉ l := by
        intro hm
        exact Std.lt_irrefl (hb _ hm b (List.mem_singleton_self b))
      simp [hn, Prod.ext_iff, eq_comm]
    · simp [hk, ih hl, Prod.ext_iff]

theorem ext_find? (h : ∀ k, m.find? k = m'.find? k) : m = m' := by
  refine ext_toList (eq_of_mem_iff m.sorted m'.sorted fun b => ?_)
  obtain ⟨k, v⟩ := b
  rw [← find?_eq_some_iff, ← find?_eq_some_iff, h]

theorem ofList_toList [DecidableEq κ] (m : SortedMap κ ν) : ofList m.toList = m := by
  refine ext_find? fun k => ?_
  ext v
  rw [find?_ofList_eq_some_iff m.sorted, find?_eq_some_iff]

theorem toList_ofList [DecidableEq κ] {l : List (κ × ν)} (hl : l.Pairwise (·.1 < ·.1)) :
    (ofList l).toList = l := by
  apply eq_of_mem_iff (ofList l).sorted hl
  rintro ⟨k, v⟩
  rw [← find?_eq_some_iff, find?_ofList_eq_some_iff hl]

theorem mem_of_mem_ofList [DecidableEq κ] {l : List (κ × ν)} {b : κ × ν}
    (h : b ∈ (ofList l).toList) : b ∈ l := by
  obtain ⟨k, v⟩ := b
  rw [← find?_eq_some_iff, find?_ofList, List.lookup_eq_some_iff] at h
  obtain ⟨l₁, l₂, hl, -⟩ := h
  rw [← List.mem_reverse, hl]
  simp

theorem minKey?_le {k least : κ} (h : m.minKey? = some least) (hk : m.find? k ≠ none) :
    least ≤ k := by
  obtain ⟨v, hv⟩ := Option.ne_none_iff_exists'.mp hk
  have hm := find?_eq_some_iff.mp hv
  have hs := m.sorted
  unfold minKey? at h
  cases hl : m.toList with
  | nil => simp [hl] at hm
  | cons b rest =>
    rw [hl] at hm hs
    obtain rfl : b.1 = least := by simpa [hl] using h
    rcases List.mem_cons.mp hm with rfl | hm
    · exact Std.le_refl _
    · exact Std.le_of_lt ((List.pairwise_cons.mp hs).1 _ hm)

theorem find?_ne_none_iff {k : κ} : m.find? k ≠ none ↔ k ∈ m.toList.map (·.1) := by
  rw [Option.ne_none_iff_exists', List.mem_map]
  constructor
  · rintro ⟨v, hv⟩
    exact ⟨(k, v), find?_eq_some_iff.mp hv, rfl⟩
  · rintro ⟨⟨k', v⟩, hb, rfl⟩
    exact ⟨v, find?_eq_some_iff.mpr hb⟩

omit [DecidableLT κ] [Std.IsLinearOrder κ] in
theorem nodup_keys (m : SortedMap κ ν) : (m.toList.map (·.1)).Nodup := by
  refine List.pairwise_map.mpr (m.sorted.imp ?_)
  intro b b' hlt he
  exact Std.lt_irrefl (he ▸ hlt)

omit [DecidableLT κ] [LE κ] [Std.IsLinearOrder κ] [Std.LawfulOrderLT κ] in
theorem eq_empty_of_minKey? (h : m.minKey? = none) : m = empty :=
  ext_toList (show m.toList = [] by simpa [minKey?] using h)

omit [DecidableLT κ] [LE κ] [Std.IsLinearOrder κ] [Std.LawfulOrderLT κ] in
/-- The sum of `f` over the bindings. -/
def weight (f : κ × ν → Nat) (m : SortedMap κ ν) : Nat :=
  (m.toList.map f).sum

theorem sum_insertIn (f : κ × ν → Nat) (k : κ) (v : ν) (l : List (κ × ν)) :
    ((insertIn k v l).map f).sum + ((findIn k l).elim 0 fun w => f (k, w)) =
      (l.map f).sum + f (k, v) := by
  induction l with
  | nil => simp [insertIn, findIn]
  | cons b rest ih =>
    obtain ⟨k', w⟩ := b
    unfold insertIn findIn
    split
    · simp
      omega
    · split
      · simp
        omega
      · obtain rfl : k = k' := by grind
        simp
        omega

theorem weight_insert (f : κ × ν → Nat) (m : SortedMap κ ν) (k : κ) (v : ν) :
    (m.insert k v).weight f + ((m.find? k).elim 0 fun w => f (k, w)) = m.weight f + f (k, v) :=
  sum_insertIn f k v m.toList

theorem weight_ofList_le (f : κ × ν → Nat) (l : List (κ × ν)) :
    (ofList l).weight f ≤ (l.map f).sum := by
  induction l using List.reverseRecOn with
  | nil => exact Nat.le_refl _
  | append_singleton l b ih =>
    obtain ⟨k, v⟩ := b
    have h := weight_insert f (ofList l) k v
    rw [ofList_concat]
    simp
    omega

end PeerBook.SortedMap
