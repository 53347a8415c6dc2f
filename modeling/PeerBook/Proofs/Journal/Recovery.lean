import Mathlib.Data.List.Induction
import PeerBook.Proofs.Journal.Frame

/-! # Recovering a log that was cut off

Recovering the first bytes of a log gives the entries whose frames lie whole
within them, and leaves these frames. Entries numbered from one on stay so.
-/

namespace PeerBook.Journal

variable {n : Nat} {e : Entry} {es : List Entry}

def frames (es : List Entry) : Bytes :=
  es.flatMap Entry.bytes

/-- The entries whose frames lie whole within the first `n` bytes of a log. -/
def surviving (n : Nat) : List Entry → List Entry
  | [] => []
  | e :: es => if e.bytes.length ≤ n then e :: surviving (n - e.bytes.length) es else []

theorem frames_cons (e : Entry) (es : List Entry) : frames (e :: es) = e.bytes ++ frames es :=
  List.flatMap_cons

theorem frames_concat (es : List Entry) (e : Entry) :
    frames (es ++ [e]) = frames es ++ e.bytes := by
  simp [frames]

theorem length_le_frames (es : List Entry) : es.length ≤ (frames es).length := by
  induction es with
  | nil => exact Nat.zero_le _
  | cons e es ih =>
    rw [frames_cons, List.length_append, List.length_cons, e.length_bytes, headerSize]
    omega

theorem prefix_surviving (n : Nat) (es : List Entry) : surviving n es <+: es := by
  induction es generalizing n with
  | nil => exact List.prefix_refl _
  | cons e es ih =>
    unfold surviving
    split
    · exact List.cons_prefix_cons.mpr ⟨rfl, ih _⟩
    · exact ⟨e :: es, rfl⟩

theorem surviving_of_length_le (h : (frames es).length ≤ n) : surviving n es = es := by
  induction es generalizing n with
  | nil => rfl
  | cons e es ih =>
    rw [frames_cons, List.length_append] at h
    rw [surviving, if_pos (by omega), ih (by omega)]

theorem length_frames_surviving (n : Nat) (es : List Entry) :
    (frames (surviving n es)).length ≤ n := by
  induction es generalizing n with
  | nil => exact Nat.zero_le _
  | cons e es ih =>
    unfold surviving
    split
    · have := ih (n - e.bytes.length)
      rw [frames_cons, List.length_append]
      omega
    · exact Nat.zero_le _

theorem prefix_frames_surviving (n : Nat) (es : List Entry) :
    frames (surviving n es) <+: (frames es).take n := by
  obtain ⟨lost, he⟩ := prefix_surviving n es
  refine List.prefix_take_iff.mpr ⟨⟨frames lost, ?_⟩, length_frames_surviving n es⟩
  conv => rhs; rw [← he]
  exact List.flatMap_append.symm

namespace Recovery

variable {bs payload rest : Bytes} {h : Header}

theorem ofBytes_finish (hf : front bs = .finish) : ofBytes bs = none := by
  rw [ofBytes]
  split <;> simp_all

theorem ofBytes_torn (hf : front bs = .torn) : ofBytes bs = { none with truncated := true } := by
  rw [ofBytes]
  split <;> simp_all

theorem ofBytes_frame (hf : front bs = .frame h payload rest) :
    ofBytes bs = cons h payload (ofBytes rest) := by
  rw [ofBytes]
  split <;> simp_all

theorem ofBytes_take (hf : ∀ e ∈ es, e.Fits) (n : Nat) :
    ofBytes ((frames es).take n) =
      { entries := surviving n es
        corrupted := 0
        kept := (frames (surviving n es)).length
        truncated := (frames (surviving n es)).length < ((frames es).take n).length } := by
  induction es generalizing n with
  | nil =>
    rw [ofBytes_finish (by simp [frames, front])]
    simp [none, surviving, frames]
  | cons e es ih =>
    obtain ⟨he, hes⟩ := List.forall_mem_cons.mp hf
    rw [frames_cons, List.take_append, surviving]
    by_cases hn : e.bytes.length ≤ n
    · rw [List.take_of_length_le hn, ofBytes_frame (he.front _), ih hes, if_pos hn]
      simp only [cons, he.verify, frames_cons, List.length_append, e.length_bytes]
      simp
    · have h0 : n - e.bytes.length = 0 := by omega
      rw [if_neg hn, h0, List.take_zero, List.append_nil]
      have ht := he.front_take (Nat.not_le.mp hn)
      split at ht
      · rename_i hz
        rw [ofBytes_finish ht]
        simp [none, frames, hz]
      · rw [ofBytes_torn ht]
        simp [none, frames]
        omega

end Recovery

theorem LogFile.recover_take {f : LogFile} (hf : ∀ e ∈ es, e.Fits)
    (h : f.bytes = (frames es).take n) :
    f.recover.1.entries = surviving n es ∧
      f.recover.2 = { f with bytes := frames (surviving n es) } := by
  have hr : f.verify = _ := (congrArg Recovery.ofBytes h).trans (Recovery.ofBytes_take hf n)
  have hp := prefix_frames_surviving n es
  rw [← h] at hr hp
  have ht := List.prefix_iff_eq_take.mp hp
  unfold recover
  rw [hr]
  refine ⟨rfl, ?_⟩
  dsimp only
  split
  · have hz : (frames (surviving n es)).length - f.size = 0 := Nat.sub_eq_zero_of_le hp.length_le
    simp only [setSize, hz, ← ht, List.replicate_zero, List.append_nil]
  · rename_i hn
    have hl : f.bytes.length ≤ (frames (surviving n es)).length := by simpa using hn
    rw [List.take_of_length_le hl] at ht
    rw [ht]

theorem LogFile.recover_frames {f : LogFile} (hf : ∀ e ∈ es, e.Fits) (h : f.bytes = frames es) :
    f.recover =
      ({ entries := es, corrupted := 0, kept := (frames es).length, truncated := false }, f) := by
  have hr := Recovery.ofBytes_take hf (frames es).length
  rw [surviving_of_length_le (Nat.le_refl _), List.take_length, ← h] at hr
  rw [recover, verify, hr, h]
  simp

theorem ofNat_lt_ofNat {i j : Nat} (h : i < j) (hj : j < 2 ^ 64) :
    UInt64.ofNat i < UInt64.ofNat j := by
  rw [UInt64.lt_iff_toNat_lt, UInt64.toNat_ofNat_of_lt' hj,
    UInt64.toNat_ofNat_of_lt' (Nat.lt_trans h hj)]
  exact h

/-- The sequence numbers count the entries, from one on. -/
def Numbered (es : List Entry) : Prop :=
  ∀ i e, es[i]? = some e → e.lsn = UInt64.ofNat (i + 1)

/-- The sequence numbers count on from `last`. -/
def NumberedFrom (last : UInt64) (es : List Entry) : Prop :=
  ∀ i e, es[i]? = some e → e.lsn = last + UInt64.ofNat (i + 1)

theorem numbered_iff : Numbered es ↔ NumberedFrom 0 es := by
  simp only [Numbered, NumberedFrom, UInt64.zero_add]

theorem NumberedFrom.nil (last : UInt64) : NumberedFrom last [] := by
  intro i e h
  simp at h

theorem NumberedFrom.concat {last : UInt64} (h : NumberedFrom last es)
    (he : e.lsn = last + UInt64.ofNat (es.length + 1)) : NumberedFrom last (es ++ [e]) := by
  intro i e' hi
  rcases Nat.lt_or_ge i es.length with hlt | hge
  · rw [List.getElem?_append_left hlt] at hi
    exact h i e' hi
  · rw [List.getElem?_append_right hge, List.getElem?_singleton] at hi
    split at hi
    · obtain rfl := Option.some.inj hi
      rw [he]
      congr 3
      omega
    · simp at hi

theorem Numbered.nil : Numbered [] :=
  numbered_iff.mpr (.nil 0)

theorem Numbered.take (h : Numbered es) {es' : List Entry} (hp : es' <+: es) : Numbered es' := by
  intro i e hi
  obtain ⟨rest, rfl⟩ := hp
  refine h i e ?_
  rw [List.getElem?_append_left (List.getElem?_eq_some_iff.mp hi).1, hi]

theorem Numbered.pairwise (h : Numbered es) (hl : es.length < 2 ^ 64) :
    es.Pairwise (·.lsn < ·.lsn) := by
  rw [List.pairwise_iff_getElem]
  intro i j hi hj hij
  rw [h i _ (List.getElem?_eq_getElem hi), h j _ (List.getElem?_eq_getElem hj)]
  exact ofNat_lt_ofNat (by omega) (by omega)

theorem Numbered.last (h : Numbered es) :
    ((es.getLast?).map (·.lsn)).getD 0 = UInt64.ofNat es.length := by
  cases hl : es.getLast? with
  | none =>
    rw [List.getLast?_eq_none_iff.mp hl]
    rfl
  | some e =>
    rw [List.getLast?_eq_getElem?] at hl
    have hp := (List.getElem?_eq_some_iff.mp hl).1
    have hi : es.length - 1 + 1 = es.length := by omega
    rw [Option.map_some, Option.getD_some, h _ e hl, hi]

theorem Numbered.lastLsn {r : Recovery} (h : Numbered r.entries) (hl : r.entries.length < 2 ^ 64) :
    r.lastLsn = UInt64.ofNat r.entries.length := by
  unfold Recovery.lastLsn
  generalize r.entries = es at h hl
  induction es using List.reverseRecOn with
  | nil => rfl
  | append_singleton es e ih =>
    have he : e.lsn = UInt64.ofNat (es.length + 1) := h es.length e (by simp)
    rw [List.length_append, List.length_singleton] at hl ⊢
    have hlt : UInt64.ofNat es.length < e.lsn := he ▸ ofNat_lt_ofNat (Nat.lt_succ_self _) hl
    rw [List.foldl_append, ih (h.take (List.prefix_append _ _)) (by omega), List.foldl_cons,
      List.foldl_nil, if_pos hlt, he]

end PeerBook.Journal
