import Mathlib.Logic.Function.Basic
import PeerBook.Bytes.Checksum

/-! # Detecting a changed byte

No step of the checksum loses anything: from the register behind a step and
the byte it took, the register before it can be told, and so can the byte from
both registers. So byte strings that differ in one byte have different checksums.
-/

namespace PeerBook.Checksum

open Function

variable {bs : Bytes} {i : Nat} {f : UInt8 → UInt8}

theorem toNat_shiftRight_one (r : UInt32) : (r >>> 1).toNat = r.toNat / 2 := by
  simp [UInt32.toNat_shiftRight, Nat.shiftRight_eq_div_pow]

theorem and_one_eq_one_iff (r : UInt32) : r &&& 1 = 1 ↔ r.toNat % 2 = 1 := by
  rw [← UInt32.toNat_inj, UInt32.toNat_and]
  simp [Nat.and_one_is_mod]

/-- The polynomial tells by its highest bit whether it was added. -/
theorem shiftRight_ne_xor_polynomial (r r' : UInt32) : r >>> 1 ≠ (r' >>> 1) ^^^ polynomial := by
  intro h
  have hp : polynomial = (r >>> 1) ^^^ (r' >>> 1) := by
    rw [h, UInt32.xor_comm, ← UInt32.xor_assoc, UInt32.xor_self, UInt32.zero_xor]
  have hlt (r : UInt32) : (r >>> 1).toNat < 2 ^ 31 := by
    have := r.toNat_lt
    rw [toNat_shiftRight_one]
    omega
  have hx : polynomial.toNat < 2 ^ 31 := by
    rw [hp, UInt32.toNat_xor]
    exact Nat.xor_lt_two_pow (hlt r) (hlt r')
  exact absurd hx (by decide)

theorem shift_injective : Injective shift := by
  intro r r' h
  -- what is shifted out is known from the highest bit, the rest from the others
  have hr : r >>> 1 = r' >>> 1 → (r &&& 1 = 1 ↔ r' &&& 1 = 1) → r = r' := by
    intro hs ho
    rw [and_one_eq_one_iff, and_one_eq_one_iff] at ho
    have hd := congrArg UInt32.toNat hs
    rw [toNat_shiftRight_one, toNat_shiftRight_one] at hd
    apply UInt32.toNat_inj.mp
    omega
  unfold shift at h
  split at h <;> split at h
  · rename_i ho ho'
    exact hr ((UInt32.xor_left_inj polynomial).mp h) (iff_of_true ho ho')
  · exact absurd h.symm (shiftRight_ne_xor_polynomial r' r)
  · exact absurd h (shiftRight_ne_xor_polynomial r r')
  · rename_i ho ho'
    exact hr h (iff_of_false ho ho')

theorem shifts_injective (n : Nat) : Injective (shifts n) := by
  induction n with
  | zero => exact injective_id
  | succ n ih => exact ih.comp shift_injective

theorem absorb_left_injective (b : UInt8) : Injective (absorb · b) := by
  intro r r' h
  exact (UInt32.xor_left_inj b.toUInt32).mp (shifts_injective 8 h)

theorem absorb_right_injective (r : UInt32) : Injective (absorb r) := by
  intro b b' h
  have hx := (UInt32.xor_right_inj r).mp (shifts_injective 8 h)
  simpa using congrArg UInt32.toUInt8 hx

theorem register_injective (bs : Bytes) : Injective (register · bs) := by
  induction bs with
  | nil => exact injective_id
  | cons b bs ih => exact ih.comp (absorb_left_injective b)

theorem register_modify_ne (r : UInt32) (h : bs.modify i f ≠ bs) :
    register r (bs.modify i f) ≠ register r bs := by
  induction bs generalizing r i with
  | nil => simp at h
  | cons b bs ih =>
    cases i with
    | zero =>
      rw [List.modify_zero_cons] at h ⊢
      intro hr
      rw [absorb_right_injective r (register_injective bs hr)] at h
      exact h rfl
    | succ i =>
      rw [List.modify_succ_cons] at h ⊢
      apply ih (absorb r b)
      intro hbs
      rw [hbs] at h
      exact h rfl

theorem crc32_modify_ne (h : bs.modify i f ≠ bs) : crc32 (bs.modify i f) ≠ crc32 bs := by
  intro hc
  exact register_modify_ne _ h ((UInt32.xor_left_inj 0xFFFFFFFF).mp hc)

/-- The digits from one to nine have the checksum by which this code is known. -/
example : crc32 [0x31, 0x32, 0x33, 0x34, 0x35, 0x36, 0x37, 0x38, 0x39] = 0xCBF43926 := by
  decide +kernel

end PeerBook.Checksum
