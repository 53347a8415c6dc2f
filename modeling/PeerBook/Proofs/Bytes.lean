import Mathlib.Algebra.Group.Nat.Defs
import PeerBook.Bytes.Basic

/-! # Numbers in bytes

Writing a number in a fixed width and reading it back gives its remainder,
and with the most significant byte first the order of the numbers is that of
the bytes. The byte strings with a common start are a range, which has an end
unless the start consists of 0xFF bytes.
-/

namespace PeerBook.Bytes

theorem ofLittleEndian_littleEndian (width n : Nat) :
    ofLittleEndian (littleEndian width n) = n % 256 ^ width := by
  induction width generalizing n with
  | zero => simp [littleEndian, ofLittleEndian, Nat.mod_one]
  | succ width ih =>
    have hd : (UInt8.ofNat (n % 256)).toNat = n % 256 :=
      UInt8.toNat_ofNat_of_lt' (Nat.mod_lt n (by decide))
    rw [littleEndian, ofLittleEndian, ih, hd, Nat.pow_succ', Nat.mod_mul]

theorem ofLittleEndian_littleEndian_of_lt (width : Nat) {n : Nat} (h : n < 256 ^ width) :
    ofLittleEndian (littleEndian width n) = n := by
  rw [ofLittleEndian_littleEndian, Nat.mod_eq_of_lt h]

theorem ofLittleEndian_lt (bs : Bytes) : ofLittleEndian bs < 256 ^ bs.length := by
  induction bs with
  | nil => exact Nat.one_pos
  | cons b bs ih =>
    have := b.toNat_lt
    rw [ofLittleEndian, List.length_cons, Nat.pow_succ]
    omega

theorem littleEndian_ofLittleEndian (bs : Bytes) :
    littleEndian bs.length (ofLittleEndian bs) = bs := by
  induction bs with
  | nil => rfl
  | cons b bs ih =>
    have hb := b.toNat_lt
    have hm : (b.toNat + 256 * ofLittleEndian bs) % 256 = b.toNat := by omega
    have hd : (b.toNat + 256 * ofLittleEndian bs) / 256 = ofLittleEndian bs := by omega
    rw [ofLittleEndian, List.length_cons, littleEndian, hm, hd, ih, UInt8.ofNat_toNat]

theorem ofBigEndian_bigEndian_of_lt (width : Nat) {n : Nat} (h : n < 256 ^ width) :
    ofBigEndian (bigEndian width n) = n := by
  rw [ofBigEndian, bigEndian, List.reverse_reverse, ofLittleEndian_littleEndian_of_lt width h]

theorem ofBigEndian_lt (bs : Bytes) : ofBigEndian bs < 256 ^ bs.length := by
  rw [← List.length_reverse]
  exact ofLittleEndian_lt bs.reverse

theorem bigEndian_ofBigEndian (bs : Bytes) : bigEndian bs.length (ofBigEndian bs) = bs := by
  rw [bigEndian, ofBigEndian, ← List.length_reverse, littleEndian_ofLittleEndian,
    List.reverse_reverse]

theorem bigEndian_inj (width : Nat) {m n : Nat} (hm : m < 256 ^ width) (hn : n < 256 ^ width)
    (h : bigEndian width m = bigEndian width n) : m = n := by
  have h := congrArg ofBigEndian h
  rwa [ofBigEndian_bigEndian_of_lt width hm, ofBigEndian_bigEndian_of_lt width hn] at h

theorem append_lt_append_iff (start : Bytes) {bs cs : Bytes} :
    start ++ bs < start ++ cs ↔ bs < cs := by
  induction start with
  | nil => rfl
  | cons b start ih => simp [ih]

theorem concat_lt_concat_iff {bs cs : Bytes} (h : bs.length = cs.length) (b c : UInt8) :
    bs ++ [b] < cs ++ [c] ↔ bs < cs ∨ bs = cs ∧ b < c := by
  induction bs generalizing cs with
  | nil =>
    obtain rfl := List.length_eq_zero_iff.mp h.symm
    simp [List.cons_lt_cons_iff]
  | cons b' bs ih =>
    cases cs with
    | nil => simp at h
    | cons c' cs =>
      have ih := ih (Nat.succ.inj h)
      simp only [List.cons_append, List.cons_lt_cons_iff, ih, List.cons.injEq]
      grind

theorem bigEndian_succ (width n : Nat) :
    bigEndian (width + 1) n = bigEndian width (n / 256) ++ [UInt8.ofNat (n % 256)] := by
  rw [bigEndian, littleEndian, List.reverse_cons, bigEndian]

theorem bigEndian_lt_bigEndian_iff (width : Nat) {m n : Nat} (hm : m < 256 ^ width)
    (hn : n < 256 ^ width) : bigEndian width m < bigEndian width n ↔ m < n := by
  induction width generalizing m n with
  | zero =>
    have h0 : m = n := by omega
    simp [h0, Std.lt_irrefl]
  | succ width ih =>
    rw [Nat.pow_succ] at hm hn
    have hm' : m / 256 < 256 ^ width := by omega
    have hn' : n / 256 < 256 ^ width := by omega
    have he : bigEndian width (m / 256) = bigEndian width (n / 256) ↔ m / 256 = n / 256 :=
      ⟨bigEndian_inj width hm' hn', congrArg _⟩
    have hd (k : Nat) : (UInt8.ofNat (k % 256)).toNat = k % 256 :=
      UInt8.toNat_ofNat_of_lt' (Nat.mod_lt k (by decide))
    rw [bigEndian_succ, bigEndian_succ, concat_lt_concat_iff (by simp), ih hm' hn', he,
      UInt8.lt_iff_toNat_lt, hd, hd]
    omega

theorem prefix_iff_le_and_lt_bound {start bs : Bytes} :
    start <+: bs ↔ start ≤ bs ∧ ∀ u ∈ bound? start, bs < u := by
  induction start generalizing bs with
  | nil => simp [bound?]
  | cons b start ih =>
    cases bs with
    | nil => simp
    | cons c bs =>
      rw [List.cons_prefix_cons, ih, List.cons_le_cons_iff, bound?]
      cases hu : bound? start with
      | some upper =>
        simp only [Option.mem_def, Option.some.injEq, forall_eq', List.cons_lt_cons_iff]
        grind
      | none =>
        dsimp only
        split
        · grind
        · have hc : c :: bs < [b + 1] ↔ c ≤ b := by
            rw [List.cons_lt_cons_iff, iff_false_intro (List.not_lt_nil bs)]
            grind
          simp only [Option.mem_def, Option.some.injEq, forall_eq', hc]
          grind

theorem bound?_eq_none_iff {start : Bytes} : bound? start = none ↔ ∀ b ∈ start, b = 0xFF := by
  induction start with
  | nil => simp [bound?]
  | cons b start ih =>
    rw [bound?, List.forall_mem_cons, ← ih]
    cases bound? start with
    | some upper => simp
    | none => simp

/-- Whether a byte string has a given start is told by comparing it: it is from the start on and,
where the start has a bound, below the bound. There is no bound for the empty start and for a start
of 0xFF bytes, and for no other. -/
theorem isPrefix_iff_in_range (start bs : Bytes) :
    (start <+: bs ↔
      start ≤ bs ∧ (bound? start = none ∨ ∃ upper, bound? start = some upper ∧ bs < upper)) ∧
    (bound? start = none ↔ start = [] ∨ ∀ b ∈ start, b = 0xFF) := by
  constructor
  · rw [prefix_iff_le_and_lt_bound]
    refine and_congr_right fun _ => ?_
    cases bound? start <;> simp
  · rw [bound?_eq_none_iff]
    constructor
    · exact .inr
    · rintro (rfl | h)
      · simp
      · exact h

end PeerBook.Bytes
