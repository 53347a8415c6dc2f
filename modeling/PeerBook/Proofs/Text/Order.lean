import Mathlib.Tactic.SplitIfs
import PeerBook.Proofs.Bytes
import PeerBook.Proofs.Text.Utf8

/-! # The order of texts

Texts are in the order of their encodings: of two characters the greater one has
the greater bytes, whatever comes behind them.
-/

namespace PeerBook.Utf8

variable {m n : Nat} {bs cs : Bytes}

theorem cons_ofNat_lt (hn : n < 256) (hle : m ≤ n) (h : m = n → bs < cs) :
    UInt8.ofNat m :: bs < UInt8.ofNat n :: cs := by
  rw [List.cons_lt_cons_iff, UInt8.lt_iff_toNat_lt, toNat_ofNat hn, toNat_ofNat (by omega)]
  rcases Nat.lt_or_eq_of_le hle with hlt | rfl
  · exact .inl hlt
  · exact .inr ⟨rfl, h rfl⟩

theorem cons_tail_lt (hle : m % 64 ≤ n % 64) (h : m % 64 = n % 64 → bs < cs) :
    UInt8.ofNat (m % 64 + 0x80) :: bs < UInt8.ofNat (n % 64 + 0x80) :: cs := by
  apply cons_ofNat_lt (by omega) (by omega)
  intro he
  exact h (by omega)

theorem encodeChar_append_lt {c d : Char} (h : c < d) (bs cs : Bytes) :
    String.utf8EncodeChar c ++ bs < String.utf8EncodeChar d ++ cs := by
  have hlt : c.val.toNat < d.val.toNat := h
  have hd : d.val.toNat < 0xD800 ∨ 0xDFFF < d.val.toNat ∧ d.val.toNat < 0x110000 := d.valid
  unfold String.utf8EncodeChar
  generalize c.val.toNat = v at hlt
  generalize d.val.toNat = w at hlt hd
  dsimp only
  split_ifs
  -- A longer encoding has a greater first byte, so only equal lengths are left.
  all_goals try omega
  all_goals try exact cons_ofNat_lt (by omega) (by omega) fun he => absurd he (by omega)
  · apply cons_ofNat_lt (by omega) (by omega)
    intro hfirst
    apply cons_tail_lt (by omega)
    omega
  · apply cons_ofNat_lt (by omega) (by omega)
    intro hfirst
    apply cons_tail_lt (by omega)
    intro hsecond
    apply cons_tail_lt (by omega)
    omega
  · apply cons_ofNat_lt (by omega) (by omega)
    intro hfirst
    apply cons_tail_lt (by omega)
    intro hsecond
    apply cons_tail_lt (by omega)
    intro hthird
    apply cons_tail_lt (by omega)
    omega

theorem flatMap_encodeChar_lt {l l' : List Char} (h : l < l') :
    l.flatMap String.utf8EncodeChar < l'.flatMap String.utf8EncodeChar := by
  induction l generalizing l' with
  | nil =>
    cases l' with
    | nil => cases h
    | cons d l' =>
      obtain ⟨lead, tail, he, -⟩ := exists_head_encodeChar d
      simp [he]
  | cons c l ih =>
    cases l' with
    | nil => cases h
    | cons d l' =>
      rw [List.flatMap_cons, List.flatMap_cons]
      rcases List.cons_lt_cons_iff.mp h with hlt | ⟨rfl, hlt⟩
      · exact encodeChar_append_lt hlt _ _
      · exact (Bytes.append_lt_append_iff _).mpr (ih hlt)

theorem encode_lt_encode_iff {s t : String} : encode s < encode t ↔ s < t := by
  have hlt {s t : String} (h : s < t) : encode s < encode t := flatMap_encodeChar_lt h
  constructor
  · intro h
    rcases Std.lt_trichotomy s t with h' | rfl | h'
    · exact h'
    · exact absurd h Std.lt_irrefl
    · exact absurd (Std.lt_trans h (hlt h')) Std.lt_irrefl
  · exact hlt

end PeerBook.Utf8
