import Mathlib.Data.List.Induction
import Mathlib.Data.Nat.Digits.Defs
import PeerBook.Proofs.Text.Utf8

/-! # Spellings of integers

An integer is spelled by an optional sign and one or more decimal digits, with
any number of zeros in front. Exactly its spellings are read, and what is
written is one of them. Digits in any base determine the number.
-/

namespace PeerBook.Numeral

variable {base d e m n v : Nat} {c : Char} {cs ds : List Char} {z : Int} {i : Int64}

theorem toNat_digit (hd : d < 36) : (digit d).toNat = if d < 10 then 48 + d else 87 + d := by
  unfold digit
  split <;> exact Utf8.toNat_val_ofNat (.inl (by omega))

theorem digit_inj (hd : d < 36) (he : e < 36) (h : digit d = digit e) : d = e := by
  have hn := congrArg Char.toNat h
  rw [toNat_digit hd, toNat_digit he] at hn
  grind

theorem digits_of_lt (hn : n < base) : digits base n = [digit n] := by
  rw [digits, if_neg (by omega)]

theorem digits_of_le (hb : 2 ≤ base) (hn : base ≤ n) :
    digits base n = digits base (n / base) ++ [digit (n % base)] := by
  rw [digits, if_pos ⟨hb, hn⟩]

theorem digits_ne_nil (base n : Nat) : digits base n ≠ [] := by
  rw [digits]
  split <;> simp

theorem digits_ne_singleton (hb : 2 ≤ base) (hn : base ≤ n) (c : Char) : digits base n ≠ [c] := by
  rw [digits_of_le hb hn, ← List.nil_append [c]]
  exact fun h => digits_ne_nil _ _ (List.append_inj' h rfl).1

theorem exists_of_mem_digits (hb : 2 ≤ base) (h : c ∈ digits base n) :
    ∃ d < base, c = digit d := by
  induction n using Nat.strongRecOn with
  | _ n ih =>
    rcases Nat.lt_or_ge n base with hn | hn
    · rw [digits_of_lt hn, List.mem_singleton] at h
      exact ⟨n, hn, h⟩
    · rw [digits_of_le hb hn, List.mem_append, List.mem_singleton] at h
      rcases h with h | h
      · exact ih (n / base) (Nat.div_lt_self (by omega) hb) h
      · exact ⟨n % base, Nat.mod_lt n (by omega), h⟩

theorem digits_inj (hb : 2 ≤ base) (hb' : base ≤ 36) (h : digits base m = digits base n) :
    m = n := by
  induction m using Nat.strongRecOn generalizing n with
  | _ m ih =>
    rcases Nat.lt_or_ge m base with hm | hm <;> rcases Nat.lt_or_ge n base with hn | hn
    · rw [digits_of_lt hm, digits_of_lt hn] at h
      exact digit_inj (by omega) (by omega) (List.head_eq_of_cons_eq h)
    · exact absurd (h.symm.trans (digits_of_lt hm)) (digits_ne_singleton hb hn _)
    · exact absurd (h.trans (digits_of_lt hn)) (digits_ne_singleton hb hm _)
    · rw [digits_of_le hb hm, digits_of_le hb hn] at h
      obtain ⟨hinit, hlast⟩ := List.append_inj' h rfl
      have hlt (k : Nat) : k % base < 36 := Nat.lt_of_lt_of_le (Nat.mod_lt k (by omega)) hb'
      have hq := ih (m / base) (Nat.div_lt_self (by omega) hb) hinit
      have hr := digit_inj (hlt m) (hlt n) (List.head_eq_of_cons_eq hlast)
      rw [← Nat.div_add_mod m base, ← Nat.div_add_mod n base, hq, hr]

/-- One or more ASCII digits. -/
structure IsDigits (ds : List Char) : Prop where
  ne_nil : ds ≠ []
  isDigit : ∀ c ∈ ds, c.isDigit = true

/-- The number that decimal digits spell. -/
def decimal (ds : List Char) : Nat :=
  Nat.ofDigits 10 (ds.reverse.map fun c => c.toNat - '0'.toNat)

theorem decimal_nil : decimal [] = 0 := rfl

theorem decimal_concat (ds : List Char) (c : Char) :
    decimal (ds ++ [c]) = decimal ds * 10 + (c.toNat - '0'.toNat) := by
  simp only [decimal, List.reverse_append, List.reverse_singleton, List.singleton_append,
    List.map_cons, Nat.ofDigits_cons]
  omega

theorem value_digit (hd : d < 10) : (digit d).toNat - '0'.toNat = d := by
  rw [toNat_digit (by omega), if_pos hd]
  exact Nat.add_sub_cancel_left 48 d

theorem isDigit_digit (hd : d < 10) : (digit d).isDigit = true := by
  revert hd
  revert d
  decide

theorem digitValue?_eq_some_iff :
    digitValue? c = some d ↔ c.isDigit = true ∧ c.toNat - '0'.toNat = d := by
  have hdigit : c.isDigit = true ↔ '0' ≤ c ∧ c ≤ '9' := by
    simp [Char.isDigit, Char.le_def]
  rw [hdigit, digitValue?]
  split
  · rename_i h
    rw [Option.some_inj]
    exact (and_iff_right h).symm
  · rename_i h
    exact iff_of_false (by simp) fun h' => h h'.1

theorem readFrom_append (v : Nat) (cs ds : List Char) :
    readFrom v (cs ++ ds) = (readFrom v cs).bind (readFrom · ds) := by
  induction cs generalizing v with
  | nil => rfl
  | cons c cs ih =>
    rw [List.cons_append, readFrom, readFrom]
    cases digitValue? c with
    | none => rfl
    | some d => exact ih _

theorem readFrom_singleton_eq_some_iff :
    readFrom v [c] = some n ↔ c.isDigit = true ∧ v * 10 + (c.toNat - '0'.toNat) = n := by
  rw [readFrom]
  cases h : digitValue? c with
  | none =>
    refine iff_of_false (by simp) ?_
    rintro ⟨hc, -⟩
    rw [digitValue?_eq_some_iff.mpr ⟨hc, rfl⟩] at h
    cases h
  | some d =>
    obtain ⟨hc, rfl⟩ := digitValue?_eq_some_iff.mp h
    simp [readFrom, hc]

theorem readFrom_eq_some_iff :
    readFrom 0 ds = some n ↔ (∀ c ∈ ds, c.isDigit = true) ∧ decimal ds = n := by
  induction ds using List.reverseRecOn generalizing n with
  | nil => simp [readFrom, decimal_nil]
  | append_singleton ds c ih =>
    rw [readFrom_append, Option.bind_eq_some_iff, decimal_concat, List.forall_mem_append,
      List.forall_mem_singleton]
    constructor
    · rintro ⟨w, hw, hn⟩
      obtain ⟨hds, rfl⟩ := ih.mp hw
      obtain ⟨hc, rfl⟩ := readFrom_singleton_eq_some_iff.mp hn
      exact ⟨⟨hds, hc⟩, rfl⟩
    · rintro ⟨⟨hds, hc⟩, rfl⟩
      exact ⟨decimal ds, ih.mpr ⟨hds, rfl⟩, readFrom_singleton_eq_some_iff.mpr ⟨hc, rfl⟩⟩

theorem readNatural?_eq_some_iff : readNatural? ds = some n ↔ IsDigits ds ∧ decimal ds = n := by
  cases ds with
  | nil => exact iff_of_false (by simp [readNatural?]) fun h => h.1.ne_nil rfl
  | cons c ds =>
    change readFrom 0 (c :: ds) = some n ↔ _
    rw [readFrom_eq_some_iff]
    exact and_congr_left fun _ => ⟨fun h => ⟨List.cons_ne_nil c ds, h⟩, fun h => h.isDigit⟩

inductive Spells : List Char → Int → Prop
  | unsigned {ds : List Char} (h : IsDigits ds) : Spells ds (decimal ds)
  | plus {ds : List Char} (h : IsDigits ds) : Spells ('+' :: ds) (decimal ds)
  | minus {ds : List Char} (h : IsDigits ds) : Spells ('-' :: ds) (-(decimal ds))

theorem map_cast_eq_some_iff {o : Option Nat} {f : Int → Int} :
    (do let n ← o; pure (n : Int)).map f = some z ↔ ∃ n : Nat, o = some n ∧ f n = z := by
  cases o <;> simp

theorem readInteger?_eq_some_iff : readInteger? cs = some z ↔ Spells cs z := by
  constructor
  · intro h
    unfold readInteger? at h
    split at h <;> obtain ⟨n, hn, rfl⟩ := map_cast_eq_some_iff.mp h <;>
      obtain ⟨hds, rfl⟩ := readNatural?_eq_some_iff.mp hn
    · exact .minus hds
    · exact .plus hds
    · exact .unsigned hds
  · intro h
    cases h with
    | unsigned h =>
      unfold readInteger?
      split
      · exact absurd (h.isDigit '-' List.mem_cons_self) (by decide)
      · exact absurd (h.isDigit '+' List.mem_cons_self) (by decide)
      · exact map_cast_eq_some_iff.mpr ⟨_, readNatural?_eq_some_iff.mpr ⟨h, rfl⟩, rfl⟩
    | plus h =>
      exact map_cast_eq_some_iff.mpr ⟨_, readNatural?_eq_some_iff.mpr ⟨h, rfl⟩, rfl⟩
    | minus h =>
      exact map_cast_eq_some_iff.mpr ⟨_, readNatural?_eq_some_iff.mpr ⟨h, rfl⟩, rfl⟩

theorem readInt64?_eq_some_iff : readInt64? cs = some i ↔ Spells cs i.toInt := by
  rw [← readInteger?_eq_some_iff, readInt64?]
  constructor
  · intro h
    split at h
    · rename_i z hz
      split at h
      · rename_i hrange
        obtain rfl := Option.some.inj h
        rw [hz, Int64.toInt_ofInt_of_le hrange.1 (Int.lt_of_le_sub_one hrange.2)]
      · cases h
    · cases h
  · intro h
    rw [h]
    dsimp only
    rw [if_pos ⟨i.minValue_le_toInt, i.toInt_le⟩, Int64.ofInt_toInt]

theorem isDigits_digits (n : Nat) : IsDigits (digits 10 n) where
  ne_nil := digits_ne_nil 10 n
  isDigit c hc := by
    obtain ⟨d, hd, rfl⟩ := exists_of_mem_digits (by omega) hc
    exact isDigit_digit hd

theorem decimal_digits (n : Nat) : decimal (digits 10 n) = n := by
  induction n using Nat.strongRecOn with
  | _ n ih =>
    rcases Nat.lt_or_ge n 10 with hn | hn
    · rw [digits_of_lt hn, ← List.nil_append [digit n], decimal_concat, decimal_nil,
        value_digit hn]
      omega
    · rw [digits_of_le (by omega) hn, decimal_concat, ih _ (by omega),
        value_digit (Nat.mod_lt n (by omega))]
      omega

theorem spells_integer (z : Int) : Spells (integer z).toList z := by
  cases z with
  | ofNat n =>
    have h := Spells.unsigned (isDigits_digits n)
    rw [decimal_digits] at h
    rwa [integer, natural, String.toList_ofList]
  | negSucc n =>
    have h := Spells.minus (isDigits_digits (n + 1))
    rw [decimal_digits] at h
    rwa [integer, String.toList_ofList]

end PeerBook.Numeral
