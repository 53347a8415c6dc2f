import PeerBook.Proofs.Versions.Groups

/-! # The bytes of a table

A table counts the bytes of its keys and of the values that it keeps. Each
write adds and takes off what it changes of them, so a group of writes never
takes off more than the table held and the group added.
-/

namespace PeerBook

namespace Chain

variable {c : Chain}

theorem bytes_eq_sum (c : Chain) : c.bytes = (c.map (·.value.length)).sum := by
  induction c with
  | nil => rfl
  | cons v c ih => simp [bytes, ih]

theorem bytes_write (seq : UInt64) (value : Bytes) (c : Chain) :
    bytes (write seq value c).1 + (write seq value c).2 = bytes c + value.length := by
  fun_induction write seq value c with
  | case1 => simp [bytes]
  | case2 v h =>
    simp [bytes]
    omega
  | case3 v h => simp [bytes]
  | case4 v rest hne chain replaced hw ih =>
    simp only [hw, bytes] at ih ⊢
    omega

theorem bytes_prune (floor : UInt64) (c : Chain) :
    bytes (prune floor c).1 + (prune floor c).2 = bytes c := by
  have h := congrArg bytes (split_append floor c)
  simp only [bytes_eq_sum, List.map_append, List.sum_append] at h
  simp only [prune, bytes_eq_sum]
  omega

theorem bytes_update (seq floor : UInt64) (value : Bytes) (c : Chain) :
    bytes (update seq floor value c) + (write seq value c).2 +
        (prune floor (write seq value c).1).2 = bytes c + value.length := by
  have hw := bytes_write seq value c
  have hp := bytes_prune floor (write seq value c).1
  unfold update
  omega

end Chain

namespace Table

variable {n : Nat} {p : Progress}

/-- The bytes of the keys and of all values in the chains. -/
def held (chains : SortedMap Bytes Chain) : Nat :=
  chains.weight fun b => b.1.length + (b.2.map (·.value.length)).sum

theorem held_insert (chains : SortedMap Bytes Chain) (key : Bytes) (c : Chain) :
    held (chains.insert key c) + ((chains.find? key).elim 0 fun c' => key.length + c'.bytes) =
      held chains + (key.length + c.bytes) := by
  simp only [held, Chain.bytes_eq_sum]
  apply SortedMap.weight_insert

/-- What is held and what was removed make up what was held at first and what was added. -/
def Progress.Balanced (n : Nat) (p : Progress) : Prop :=
  held p.chains + p.removed = n + p.added

theorem Progress.Balanced.write (h : p.Balanced n) (seq floor : UInt64) (b : Binding) :
    (p.write seq floor b).Balanced n := by
  unfold Balanced Progress.write at *
  cases hc : p.chains.find? b.1 with
  | none =>
    have hu := Chain.bytes_update seq floor b.2 []
    have hi := held_insert p.chains b.1 (Chain.update seq floor b.2 [])
    simp only [hc, Option.elim_none, Chain.bytes, Chain.update] at hi hu ⊢
    omega
  | some c =>
    have hu := Chain.bytes_update seq floor b.2 c
    have hi := held_insert p.chains b.1 (Chain.update seq floor b.2 c)
    simp only [hc, Option.elim_some, Chain.update] at hi hu ⊢
    omega

theorem progress_balanced (t : Table) (seq floor : UInt64) (ws : List Binding) :
    (t.progress seq floor ws).Balanced (held t.chains) := by
  induction ws using List.reverseRecOn with
  | nil => rfl
  | append_singleton ws b ih =>
    simp only [progress, List.foldl_append, List.foldl_cons, List.foldl_nil] at ih ⊢
    exact ih.write seq floor b

/-- The counter says what is held. -/
def Counted (t : Table) : Prop :=
  t.size = held t.chains

theorem Counted.applied {t : Table} (h : t.Counted) (g : Group) : (t.applied g).Counted := by
  have hb := progress_balanced t g.seq g.floor g.writes
  unfold Progress.Balanced at hb
  simp only [Counted, Table.applied, apply] at h ⊢
  omega

theorem counted_ofGroups (gs : List Group) : (ofGroups gs).Counted := by
  induction gs using List.reverseRecOn with
  | nil => rfl
  | append_singleton gs g ih =>
    rw [ofGroups_concat]
    exact ih.applied g

/-- After any groups the counter is the sum, over the keys, of the length of the key and of its
values. What the next group removes is at most that and what it adds, so that no number falls below
zero; nor does a counter of 64 bits wrap, as long as what it counts fits in it. -/
theorem size_counts_held (gs : List Group) (g : Group) :
    let t := ofGroups gs
    let p := t.progress g.seq g.floor g.writes
    let word := UInt64.ofNat t.size + UInt64.ofNat p.added
    t.size = (t.chains.toList.map fun b => b.1.length + (b.2.map (·.value.length)).sum).sum ∧
      p.removed ≤ t.size + p.added ∧
      (ofGroups (gs ++ [g])).size + p.removed = t.size + p.added ∧
      (t.size + p.added < 2 ^ 64 →
        word.toNat = t.size + p.added ∧ UInt64.ofNat p.removed ≤ word ∧
          (word - UInt64.ofNat p.removed).toNat = (ofGroups (gs ++ [g])).size) := by
  intro t p word
  have ht : t.Counted := counted_ofGroups gs
  have hb : held p.chains + p.removed = held t.chains + p.added :=
    progress_balanced t g.seq g.floor g.writes
  have hle : p.removed ≤ t.size + p.added := by
    unfold Counted at ht
    omega
  have hsize : (ofGroups (gs ++ [g])).size = t.size + p.added - p.removed := by
    rw [ofGroups_concat]
    rfl
  refine ⟨ht, hle, by omega, ?_⟩
  intro hlt
  have hword : word.toNat = t.size + p.added := by
    rw [UInt64.toNat_add, UInt64.toNat_ofNat', UInt64.toNat_ofNat']
    omega
  have hremoved : (UInt64.ofNat p.removed).toNat = p.removed :=
    UInt64.toNat_ofNat_of_lt' (Nat.lt_of_le_of_lt hle hlt)
  have hword' : UInt64.ofNat p.removed ≤ word := by
    rw [UInt64.le_iff_toNat_le]
    omega
  refine ⟨hword, hword', ?_⟩
  rw [UInt64.toNat_sub_of_le _ _ hword']
  omega

/-- The group prunes a value of the group before and writes over one of its own; a key and its
values are empty. -/
theorem size_counts_held_pruned :
    let gs : List Group := [⟨1, [([107], [1, 2]), ([], [])], 0⟩]
    let g : Group := ⟨2, [([107], [3]), ([107], [4, 5, 6]), ([], [])], 2⟩
    let p := (ofGroups gs).progress g.seq g.floor g.writes
    (ofGroups gs).size = 3 ∧ p.removed = 3 ∧ (ofGroups gs).size + p.added < 2 ^ 64 ∧
      (UInt64.ofNat (ofGroups gs).size + UInt64.ofNat p.added - UInt64.ofNat p.removed).toNat = 4 := by
  intro gs g p
  obtain ⟨-, -, -, hword⟩ := size_counts_held gs g
  have hlt : (ofGroups gs).size + p.added < 2 ^ 64 := by decide
  exact ⟨by decide, by decide, hlt, (hword hlt).2.2⟩

end Table

end PeerBook
