import PeerBook.Proofs.SortedMap
import PeerBook.Proofs.Versions.Chain
import PeerBook.Versions.Table

/-! # What a table holds after a group of writes

A group of writes is seen, last write first, by the reads at or above its
sequence number; the other reads at or above the floor see what they saw
before. A view lists what a read point sees in ascending order of keys, and a
scan gives the front of a range of it.
-/

namespace PeerBook

/-- What becomes of a chain when one value is written to its key. -/
def Chain.update (seq floor : UInt64) (value : Bytes) (c : Chain) : Chain :=
  (Chain.prune floor (Chain.write seq value c).1).1

namespace Chain

variable {s seq floor : UInt64} {value : Bytes} {c : Chain}

theorem readAt_update (h : floor ≤ s) :
    readAt s (update seq floor value c) = if seq ≤ s then some value else readAt s c := by
  rw [update, readAt_prune h, readAt_write]

theorem seq_of_mem_update {v : Version} (hv : v ∈ update seq floor value c) :
    v.seq = seq ∨ v ∈ c :=
  seq_of_mem_write ((prune_suffix floor _).mem hv)

theorem update_self (seq : UInt64) (value : Bytes) (c : Chain) :
    update seq seq value c = [⟨seq, value⟩] := by
  obtain ⟨kept, he, -⟩ := write_cases seq value c
  have hs : (⟨seq, value⟩ : Version).seq ≤ seq := UInt64.le_refl seq
  rw [update, he, prune, split_concat hs]

end Chain

namespace Table

variable {t : Table} {s seq floor : UInt64} {key : Bytes} {ws : List Binding}

/-- The chain of a key, empty for a key that the table does not hold. -/
def chain (t : Table) (key : Bytes) : Chain :=
  (t.chains.find? key).getD []

theorem readAt_eq (t : Table) (key : Bytes) (s : UInt64) :
    t.readAt key s = Chain.readAt s (t.chain key) := by
  unfold readAt chain
  cases t.chains.find? key <;> rfl

@[simp] theorem chain_empty (key : Bytes) : empty.chain key = [] := rfl

theorem chains_write (seq floor : UInt64) (p : Progress) (b : Binding) :
    (p.write seq floor b).chains =
      p.chains.insert b.1 (Chain.update seq floor b.2 ((p.chains.find? b.1).getD [])) := by
  unfold Progress.write Chain.update
  cases p.chains.find? b.1 <;> rfl

theorem chains_apply_nil (t : Table) (seq floor : UInt64) :
    (t.apply seq [] floor).chains = t.chains := rfl

theorem chains_apply_concat (t : Table) (seq floor : UInt64) (ws : List Binding) (b : Binding) :
    (t.apply seq (ws ++ [b]) floor).chains = (t.apply seq ws floor).chains.insert b.1
      (Chain.update seq floor b.2 ((t.apply seq ws floor).chain b.1)) := by
  simp only [apply, progress, chain, List.foldl_append, List.foldl_cons, List.foldl_nil,
    chains_write]

theorem chain_apply_concat (t : Table) (seq floor : UInt64) (ws : List Binding) (b : Binding)
    (key : Bytes) :
    (t.apply seq (ws ++ [b]) floor).chain key =
      if key = b.1 then Chain.update seq floor b.2 ((t.apply seq ws floor).chain key)
      else (t.apply seq ws floor).chain key := by
  rw [chain, chains_apply_concat, SortedMap.find?_insert]
  split
  · rename_i h
    rw [h]
    rfl
  · rfl

theorem readAt_apply (t : Table) (key : Bytes) (seq : UInt64) (ws : List Binding)
    (h : floor ≤ s) :
    (t.apply seq ws floor).readAt key s =
      if seq ≤ s then ((SortedMap.ofList ws).find? key).or (t.readAt key s)
      else t.readAt key s := by
  simp only [readAt_eq]
  induction ws using List.reverseRecOn with
  | nil =>
    have hc : (t.apply seq [] floor).chain key = t.chain key := rfl
    rw [hc]
    split <;> rfl
  | append_singleton ws b ih =>
    rw [chain_apply_concat, SortedMap.ofList_concat, SortedMap.find?_insert]
    by_cases hk : key = b.1
    · rw [if_pos hk, if_pos hk, Chain.readAt_update h, ih]
      split <;> rfl
    · rw [if_neg hk, if_neg hk, ih]

theorem readLatest_apply (t : Table) (seq floor : UInt64) (ws : List Binding) (key : Bytes) :
    (t.apply seq ws floor).readLatest key =
      ((SortedMap.ofList ws).find? key).or (t.readLatest key) := by
  have hle (s : UInt64) : s ≤ 0xFFFFFFFFFFFFFFFF := by grind
  rw [readLatest, readAt_apply t key seq ws (hle floor), if_pos (hle seq)]
  rfl

theorem find?_chains_apply (t : Table) (seq floor : UInt64) (ws : List Binding) (key : Bytes) :
    (t.apply seq ws floor).chains.find? key = none ↔
      (SortedMap.ofList ws).find? key = none ∧ t.chains.find? key = none := by
  induction ws using List.reverseRecOn with
  | nil => simp [chains_apply_nil, SortedMap.ofList]
  | append_singleton ws b ih =>
    rw [chains_apply_concat, SortedMap.ofList_concat, SortedMap.find?_insert,
      SortedMap.find?_insert]
    split
    · simp
    · exact ih

theorem seq_of_mem_chain_apply {v : Version} (hv : v ∈ (t.apply seq ws floor).chain key) :
    v.seq = seq ∨ v ∈ t.chain key := by
  induction ws using List.reverseRecOn with
  | nil => exact .inr hv
  | append_singleton ws b ih =>
    rw [chain_apply_concat] at hv
    split at hv
    · rcases Chain.seq_of_mem_update hv with h | h
      · exact .inl h
      · exact ih h
    · exact ih hv

/-- No chain is empty, and the versions of each are in order. -/
def Ordered (t : Table) : Prop :=
  ∀ key c, t.chains.find? key = some c → c ≠ [] ∧ c.Ordered

theorem Ordered.chain (h : t.Ordered) (key : Bytes) : (t.chain key).Ordered := by
  unfold Table.chain
  cases hc : t.chains.find? key with
  | none => exact List.Pairwise.nil
  | some c => exact (h key c hc).2

theorem Ordered.apply (h : t.Ordered) (hs : ∀ key, ∀ v ∈ t.chain key, v.seq ≤ seq)
    (ws : List Binding) (floor : UInt64) : (t.apply seq ws floor).Ordered := by
  induction ws using List.reverseRecOn with
  | nil => exact h
  | append_singleton ws b ih =>
    intro key c hc
    rw [chains_apply_concat, SortedMap.find?_insert] at hc
    split at hc
    · obtain rfl := Option.some.inj hc
      have hle : ∀ v ∈ (t.apply seq ws floor).chain b.1, v.seq ≤ seq := by
        intro v hv
        rcases seq_of_mem_chain_apply hv with he | hv
        · exact UInt64.le_of_eq he
        · exact hs b.1 v hv
      constructor
      · exact Chain.prune_ne_nil floor (Chain.write_ne_nil seq b.2 _)
      · exact ((ih.chain b.1).write hle b.2).prune floor
    · exact ih key c hc

end Table

end PeerBook
