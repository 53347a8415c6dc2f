import PeerBook.Proofs.Versions.Table

/-! # Tables made by groups of writes

A table is made by applying groups of writes to an empty one, with sequence
numbers and floors in any order. Whatever groups came before, a further one is
seen from its sequence number on, changes no other read at or above its floor,
adds its keys, and leaves every key a version.
-/

namespace PeerBook

/-- A group of writes, its sequence number and the floor that it is applied with. -/
structure Group where
  seq : UInt64
  writes : List Binding
  floor : UInt64

namespace Table

def applied (t : Table) (g : Group) : Table :=
  t.apply g.seq g.writes g.floor

def ofGroups (gs : List Group) : Table :=
  gs.foldl applied empty

theorem ofGroups_concat (gs : List Group) (g : Group) :
    ofGroups (gs ++ [g]) = (ofGroups gs).applied g := by
  simp [ofGroups]

variable {t : Table} {key : Bytes}

def keys (t : Table) : List Bytes :=
  t.chains.toList.map (·.1)

theorem mem_keys_iff : key ∈ t.keys ↔ t.chains.find? key ≠ none :=
  SortedMap.find?_ne_none_iff.symm

theorem mem_keys_of_readAt {s : UInt64} {value : Bytes} (h : t.readAt key s = some value) :
    key ∈ t.keys := by
  obtain ⟨c, hc, -⟩ := Option.bind_eq_some_iff.mp h
  simp [mem_keys_iff, hc]

theorem mem_keys_applied (t : Table) (g : Group) (key : Bytes) :
    key ∈ (t.applied g).keys ↔ key ∈ t.keys ∨ key ∈ g.writes.map (·.1) := by
  simp only [mem_keys_iff, applied, ne_eq, find?_chains_apply,
    SortedMap.find?_ofList_eq_none_iff]
  tauto

/-- Every key has a version. -/
def Filled (t : Table) : Prop :=
  ∀ key c, t.chains.find? key = some c → c ≠ []

theorem filled_empty : empty.Filled := by
  intro key c h
  cases h

theorem Filled.applied (h : t.Filled) (g : Group) : (t.applied g).Filled := by
  unfold Table.applied
  induction g.writes using List.reverseRecOn with
  | nil => exact h
  | append_singleton ws b ih =>
    intro key c hc
    rw [chains_apply_concat, SortedMap.find?_insert] at hc
    split at hc
    · cases hc
      apply Chain.prune_ne_nil
      apply Chain.write_ne_nil
    · exact ih key c hc

theorem filled_ofGroups (gs : List Group) : (ofGroups gs).Filled := by
  induction gs using List.reverseRecOn with
  | nil => exact filled_empty
  | append_singleton gs g ih =>
    rw [ofGroups_concat]
    exact ih.applied g

/-- Reads at or above the floor of a group see the last value that it gives to the key, from its
sequence number on, and otherwise what they saw before it. -/
theorem group_law (gs : List Group) (g : Group) :
    let t := ofGroups gs
    let t' := ofGroups (gs ++ [g])
    (∀ key s, g.floor ≤ s →
      t'.readAt key s =
        if g.seq ≤ s then (g.writes.reverse.lookup key).or (t.readAt key s)
        else t.readAt key s) ∧
      (∀ key, key ∈ t'.keys ↔ key ∈ t.keys ∨ key ∈ g.writes.map (·.1)) ∧
      ∀ key c, t'.chains.find? key = some c → c ≠ [] := by
  intro t t'
  have ht : t' = t.applied g := ofGroups_concat gs g
  refine ⟨?_, ?_, filled_ofGroups (gs ++ [g])⟩
  · intro key s hs
    rw [ht, ← SortedMap.find?_ofList]
    exact readAt_apply t key g.seq g.writes hs
  · intro key
    rw [ht]
    exact mem_keys_applied t g key

/-- The chain of the key is not in order, and the last group gives the key two values and drops the
first version of the chain. -/
theorem group_law_unordered :
    let t := ofGroups [⟨5, [([107], [5])], 0⟩, ⟨3, [([107], [3])], 2⟩]
    let t' := ofGroups [⟨5, [([107], [5])], 0⟩, ⟨3, [([107], [3])], 2⟩,
      ⟨7, [([107], [1]), ([106], []), ([107], [7])], 4⟩]
    (4 : UInt64) ≤ 5 ∧ t.readAt [107] 5 = some [3] ∧ t'.readAt [107] 5 = some [3] ∧
      (4 : UInt64) ≤ 7 ∧ t'.readAt [107] 7 = some [7] ∧ [106] ∈ t'.keys := by
  intro t t'
  obtain ⟨hread, hkeys, -⟩ := group_law [⟨5, [([107], [5])], 0⟩, ⟨3, [([107], [3])], 2⟩]
    ⟨7, [([107], [1]), ([106], []), ([107], [7])], 4⟩
  refine ⟨by decide, by decide, ?_, by decide, ?_, ?_⟩
  · exact hread [107] 5 (by decide)
  · exact hread [107] 7 (by decide)
  · apply (hkeys [106]).mpr
    decide

end Table

end PeerBook
