import PeerBook.Engine.Pins
import PeerBook.Proofs.SortedMap

/-! # Counting pins

A pin adds one to the count at its sequence number, a release takes one
away, and the oldest pin is at or below every pin.
-/

namespace PeerBook.Pins

@[simp] theorem count_empty (s : UInt64) : count SortedMap.empty s = 0 := rfl

theorem count_insert (p : Pins) (seq s : UInt64) (n : Nat) :
    count (SortedMap.insert p seq n) s = if s = seq then n else p.count s := by
  unfold count
  rw [SortedMap.find?_insert]
  split <;> rfl

theorem count_erase (p : Pins) (seq s : UInt64) :
    count (SortedMap.erase p seq) s = if s = seq then 0 else p.count s := by
  unfold count
  rw [SortedMap.find?_erase]
  split <;> rfl

theorem count_pin (p : Pins) (seq s : UInt64) :
    (p.pin seq).count s = p.count s + if seq = s then 1 else 0 := by
  rw [pin, count_insert]
  grind

theorem count_unpin (p : Pins) (seq s : UInt64) :
    (p.unpin seq).count s = p.count s - if seq = s then 1 else 0 := by
  have hc : p.count seq = (p.find? seq).getD 0 := rfl
  unfold unpin
  cases hf : p.find? seq with
  | none => grind
  | some n =>
    dsimp only
    split
    · rw [count_erase]
      grind
    · rw [count_insert]
      grind

theorem oldest?_le {p : Pins} {s : UInt64} (h : 0 < p.count s) :
    ∃ oldest, p.oldest? = some oldest ∧ oldest ≤ s := by
  have hs : p.find? s ≠ none := by
    intro hn
    simp [count, hn] at h
  cases ho : p.oldest? with
  | none =>
    rw [SortedMap.eq_empty_of_minKey? ho] at hs
    exact absurd rfl hs
  | some oldest => exact ⟨oldest, rfl, SortedMap.minKey?_le ho hs⟩

variable {p : Pins} {s : UInt64} {n : Nat}

def Positive (p : Pins) : Prop :=
  ∀ s, p.find? s ≠ some 0

theorem positive_empty : Positive SortedMap.empty := by
  intro s
  simp

theorem Positive.pin (h : p.Positive) (seq : UInt64) : (p.pin seq).Positive := by
  intro s
  rw [Pins.pin, SortedMap.find?_insert]
  split
  · simp
  · exact h s

theorem Positive.unpin (h : p.Positive) (seq : UInt64) : (p.unpin seq).Positive := by
  intro s
  unfold Pins.unpin
  cases p.find? seq with
  | none => exact h s
  | some n =>
    dsimp only
    split
    · rw [SortedMap.find?_erase]
      split
      · simp
      · exact h s
    · rw [SortedMap.find?_insert]
      split
      · simpa using ‹¬ n - 1 = 0›
      · exact h s

theorem Positive.find?_eq_some_iff (h : p.Positive) :
    p.find? s = some n ↔ n = p.count s ∧ 0 < n := by
  have hs := h s
  unfold count
  cases hf : p.find? s with
  | none => simp
  | some m =>
    rw [hf] at hs
    simp only [Option.some.injEq, ne_eq, Option.getD_some] at hs ⊢
    omega

end PeerBook.Pins
