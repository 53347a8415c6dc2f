import Mathlib.Data.List.TakeDrop
import Mathlib.Data.List.TakeWhile
import PeerBook.Proofs.Text.Numeral
import PeerBook.Text.Quoted

/-! # Quoted text tells the text

No way to write a character between quotes is the start of another one, and
each stands for one character, so texts that are quoted alike are the same.
-/

namespace PeerBook.Quoted

variable {c d mark : Char} {cs ds x y : List Char} {s t : String}

/-- The character that a letter behind a backslash stands for. -/
def letter? : Char → Option Char
  | '0' => some '\x00'
  | 't' => some '\t'
  | 'n' => some '\n'
  | 'r' => some '\x0d'
  | '"' => some '"'
  | '\\' => some '\\'
  | _ => none

/-- The ways to write a character between quotes. -/
inductive Escapes (c : Char) : List Char → Prop
  | plain (h : c ≠ '\\') : Escapes c [c]
  | letter {e : Char} (h : letter? e = some c) : Escapes c ['\\', e]
  | number : Escapes c ('\\' :: 'u' :: '\x7b' :: (Numeral.digits 16 c.toNat ++ ['\x7d']))

theorem escapes_escapeChar (c : Char) : Escapes c (escapeChar c) := by
  unfold escapeChar
  split_ifs with h0 ht hn hr hq hb
  · exact .letter (h0 ▸ rfl)
  · exact .letter (ht ▸ rfl)
  · exact .letter (hn ▸ rfl)
  · exact .letter (hr ▸ rfl)
  · subst hq
    exact .letter rfl
  · subst hb
    exact .letter rfl
  · exact .number
  · exact .plain hb

theorem Escapes.ne_nil (h : Escapes c cs) : cs ≠ [] := by
  cases h <;> exact List.cons_ne_nil _ _

theorem ne_mark (h : mark ∉ cs) : ∀ c ∈ cs, decide (c ≠ mark) = true :=
  fun _ hc => decide_eq_true fun he => h (he ▸ hc)

theorem span_append_mark (h : mark ∉ cs) (x : List Char) :
    (cs ++ mark :: x).span (· ≠ mark) = (cs, mark :: x) := by
  rw [List.span_eq_takeWhile_dropWhile, List.takeWhile_append_of_pos (ne_mark h),
    List.dropWhile_append_of_pos (ne_mark h)]
  simp

theorem span_of_not_mem (h : mark ∉ cs) : cs.span (· ≠ mark) = (cs, []) := by
  rw [List.span_eq_takeWhile_dropWhile, List.takeWhile_eq_self_iff.mpr (ne_mark h),
    List.dropWhile_eq_nil_iff.mpr (ne_mark h)]

theorem brace_not_mem_digits (n : Nat) : '\x7d' ∉ Numeral.digits 16 n := by
  intro h
  obtain ⟨d, hd, he⟩ := Numeral.exists_of_mem_digits (by omega) h
  have hn : 125 = (Numeral.digit d).toNat := congrArg Char.toNat he
  rw [Numeral.toNat_digit (by omega)] at hn
  grind

theorem Escapes.append_inj (hc : Escapes c cs) (hd : Escapes d ds) (h : cs ++ x = ds ++ y) :
    c = d ∧ x = y := by
  cases hc with
  | plain hc =>
    cases hd with
    | plain hd => exact List.cons.inj h
    | letter hd => exact absurd (List.cons.inj h).1 hc
    | number => exact absurd (List.cons.inj h).1 hc
  | @letter e hc =>
    cases hd with
    | plain hd => exact absurd (List.cons.inj h).1.symm hd
    | letter hd =>
      obtain ⟨rfl, hxy⟩ := List.cons.inj (List.cons.inj h).2
      exact ⟨Option.some.inj (hc.symm.trans hd), hxy⟩
    | number =>
      obtain ⟨rfl, -⟩ := List.cons.inj (List.cons.inj h).2
      cases hc
  | number =>
    cases hd with
    | plain hd => exact absurd (List.cons.inj h).1.symm hd
    | letter hd =>
      obtain ⟨rfl, -⟩ := List.cons.inj (List.cons.inj h).2
      cases hd
    | number =>
      -- Both numbers end at the first closing brace.
      have hdigits : Numeral.digits 16 c.toNat ++ '\x7d' :: x =
          Numeral.digits 16 d.toNat ++ '\x7d' :: y := by
        simpa using h
      have hspan := congrArg (List.span (· ≠ '\x7d')) hdigits
      rw [span_append_mark (brace_not_mem_digits _),
        span_append_mark (brace_not_mem_digits _)] at hspan
      obtain ⟨hn, hxy⟩ := Prod.mk.inj hspan
      exact ⟨Char.toNat_inj.mp (Numeral.digits_inj (by omega) (by omega) hn), (List.cons.inj hxy).2⟩

theorem flatMap_escapeChar_inj (h : cs.flatMap escapeChar = ds.flatMap escapeChar) : cs = ds := by
  induction cs generalizing ds with
  | nil =>
    cases ds with
    | nil => rfl
    | cons d ds => exact absurd (List.append_eq_nil_iff.mp h.symm).1 (escapes_escapeChar d).ne_nil
  | cons c cs ih =>
    cases ds with
    | nil => exact absurd (List.append_eq_nil_iff.mp h).1 (escapes_escapeChar c).ne_nil
    | cons d ds =>
      obtain ⟨rfl, hrest⟩ := (escapes_escapeChar c).append_inj (escapes_escapeChar d) h
      rw [ih hrest]

theorem quote_inj (h : quote s = quote t) : s = t := by
  have hchars := (List.cons.inj (String.ofList_inj.mp h)).2
  exact String.toList_inj.mp (flatMap_escapeChar_inj (List.append_cancel_right hchars))

end PeerBook.Quoted
