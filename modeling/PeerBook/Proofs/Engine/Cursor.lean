import PeerBook.Engine.Cursor
import PeerBook.Proofs.Versions.View

/-! # Steps of a paged cursor

A cursor has handed out a part of its range, holds a page of what follows and
has the rest still to fetch. A step hands out the next binding, whether it
stands on the page or has to be fetched, and at the end of the range nothing.
-/

namespace PeerBook.Cursor

variable {t : Table} {c : Cursor} {taken rest : List Binding}

theorem bounds_step (t : Table) (c : Cursor) :
    (c.step t).seq = c.seq ∧ (c.step t).lower = c.lower ∧ (c.step t).upper = c.upper ∧
      (c.step t).pageSize = c.pageSize := by
  unfold Cursor.step Cursor.fill
  split <;> exact ⟨rfl, rfl, rfl, rfl⟩

theorem seq_first (t : Table) (c : Cursor) : (c.first t).seq = c.seq :=
  (bounds_step t _).1

theorem seq_next (t : Table) (c : Cursor) : (c.next t).seq = c.seq := by
  unfold Cursor.next
  split
  · rfl
  · exact (bounds_step t c).1

/-- Of the range that a cursor walks in a table it has handed out `taken` and not fetched `rest`. -/
structure Between (t : Table) (c : Cursor) (taken rest : List Binding) : Prop where
  range : t.range c.seq c.lower c.upper = taken ++ (c.page ++ rest)
  resume : c.resumeAfter = (taken ++ c.page).getLast?.map (·.1)
  done : c.scanDone = true → rest = []

def scanStart (c : Cursor) : Start :=
  match c.resumeAfter with
  | some key => .after key
  | none => .at c.lower

theorem fill_eq (t : Table) (c : Cursor) :
    c.fill t =
      let entries := t.scanAt c.seq c.scanStart c.upper c.pageSize
      { c with
        page := c.page ++ entries
        resumeAfter := (entries.getLast?.map (·.1)).or c.resumeAfter
        scanDone := c.scanDone || entries.length < c.pageSize } := rfl

/-- The next scan gives the front of what has not been fetched. -/
theorem Between.scanAt (h : c.Between t taken rest) (hp : c.page = []) (hs : 1 ≤ c.pageSize) :
    t.scanAt c.seq c.scanStart c.upper c.pageSize = rest.take c.pageSize := by
  have hr : t.range c.seq c.lower c.upper = taken ++ rest := by simpa [hp] using h.range
  have hk : c.resumeAfter = taken.getLast?.map (·.1) := by simpa [hp] using h.resume
  rcases List.eq_nil_or_concat taken with rfl | ⟨init, b, rfl⟩
  · have hb : c.scanStart = .at c.lower := by simp [scanStart, hk]
    rw [hb, Table.scanAt_lower _ _ _ _ hs, hr]
    rfl
  · have hb : c.scanStart = .after b.1 := by simp [scanStart, hk]
    rw [hb]
    exact Table.scanAt_after hs (by simpa using hr)

theorem Between.fill (h : c.Between t taken rest) (hp : c.page = []) (hs : 1 ≤ c.pageSize) :
    (c.fill t).page = rest.take c.pageSize ∧
      (c.fill t).Between t taken (rest.drop c.pageSize) := by
  rw [fill_eq, h.scanAt hp hs]
  dsimp only
  refine ⟨by rw [hp, List.nil_append], ?_, ?_, ?_⟩
  · simpa [hp] using h.range
  · have hk : c.resumeAfter = taken.getLast?.map (·.1) := by simpa [hp] using h.resume
    rw [hp, List.nil_append, List.getLast?_append, Option.map_or, hk]
  · intro hd
    rcases Bool.or_eq_true_iff.mp hd with hd | hd
    · rw [h.done hd, List.drop_nil]
    · have hlt := of_decide_eq_true hd
      rw [List.length_take] at hlt
      exact List.drop_eq_nil_of_le (by omega)

theorem Between.take (h : c.Between t taken rest) {b : Binding} {page : List Binding}
    (hp : c.page = b :: page) (current : Option Binding) :
    Between t { c with page, current } (taken ++ [b]) rest where
  range := by simpa [hp] using h.range
  resume := by simpa [hp] using h.resume
  done := h.done

theorem Between.step (h : c.Between t taken rest) (hs : 1 ≤ c.pageSize) :
    (c.step t).current = (c.page ++ rest).head? ∧
      ∀ b, (c.page ++ rest).head? = some b →
        ∃ rest', (c.step t).Between t (taken ++ [b]) rest' := by
  unfold Cursor.step
  cases hp : c.page with
  | cons b page =>
    refine ⟨by simp [hp], ?_⟩
    rintro b' hb'
    obtain rfl := Option.some.inj hb'
    refine ⟨rest, ?_⟩
    simpa [hp] using h.take hp (some b)
  | nil =>
    cases hd : c.scanDone with
    | true => simp [hp, h.done hd]
    | false =>
      obtain ⟨hf, hb⟩ := h.fill hp hs
      have hh : (rest.take c.pageSize).head? = rest.head? := by
        rw [List.head?_take, if_neg (by omega)]
      simp only [List.isEmpty_nil, Bool.not_false, Bool.and_true, if_true, List.nil_append, hf, hh]
      refine ⟨trivial, ?_⟩
      intro b hr
      obtain ⟨page, hp'⟩ : ∃ page, (c.fill t).page = b :: page := by
        rw [hf]
        exact List.head?_eq_some_iff.mp (hh.trans hr)
      refine ⟨rest.drop c.pageSize, ?_⟩
      simpa [← hf, hp'] using hb.take hp' rest.head?

/-- A cursor stands at a position of its range, or nowhere yet. -/
structure Stands (t : Table) (c : Cursor) (entries : List Binding) (position : Option Nat) :
    Prop where
  range : t.range c.seq c.lower c.upper = entries
  paged : 1 ≤ c.pageSize
  current : c.current = position.bind (entries[·]?)
  between : ∀ n, position = some n → n < entries.length →
    ∃ rest, c.Between t (entries.take (n + 1)) rest

variable {entries : List Binding} {position : Option Nat}

theorem Stands.congr (h : c.Stands t entries position) {t' : Table}
    (hr : ∀ key, t'.readAt key c.seq = t.readAt key c.seq) : c.Stands t' entries position where
  range := (Table.range_congr hr _ _).trans h.range
  paged := h.paged
  current := h.current
  between n hp hn := by
    obtain ⟨rest, hb⟩ := h.between n hp hn
    exact ⟨rest, (Table.range_congr hr _ _).trans hb.range, hb.resume, hb.done⟩

theorem Stands.start (t : Table) (seq : UInt64) {pageSize : Nat} (hs : 1 ≤ pageSize)
    (lower : Bytes) (upper : Option Bytes) :
    (Cursor.start seq pageSize lower upper).Stands t (t.range seq lower upper) none where
  range := rfl
  paged := hs
  current := rfl
  between n hn := by simp at hn

theorem Between.stands {n : Nat} (h : c.Between t (entries.take n) rest) (hs : 1 ≤ c.pageSize)
    (hr : t.range c.seq c.lower c.upper = entries) :
    (c.step t).Stands t entries (some n) := by
  obtain ⟨hseq, hlower, hupper, hpage⟩ := bounds_step t c
  obtain ⟨hc, hb⟩ := h.step hs
  have hd : c.page ++ rest = entries.drop n := by
    have he := hr.symm.trans h.range
    conv at he => lhs; rw [← List.take_append_drop n entries]
    exact (List.append_cancel_left he).symm
  rw [hd, List.head?_drop] at hc hb
  refine ⟨?_, hpage ▸ hs, hc, ?_⟩
  · rw [hseq, hlower, hupper, hr]
  · rintro n' hn' hlt
    obtain rfl := Option.some.inj hn'
    obtain ⟨rest', hb'⟩ := hb _ (List.getElem?_eq_getElem hlt)
    exact ⟨rest', by rwa [List.take_add_one, List.getElem?_eq_getElem hlt]⟩

theorem Stands.first (h : c.Stands t entries position) :
    (c.first t).Stands t entries (some 0) := by
  have hb : Between t { c with page := [], resumeAfter := none, scanDone := false }
      (entries.take 0) entries := ⟨h.range, rfl, by simp⟩
  exact hb.stands h.paged h.range

theorem Stands.next (h : c.Stands t entries position) :
    (c.next t).Stands t entries (position.map (· + 1)) := by
  cases position with
  | none =>
    have hc : c.current = none := h.current
    simpa [Cursor.next, hc] using h
  | some n =>
    have hc : c.current = entries[n]? := h.current
    by_cases hn : n < entries.length
    · obtain ⟨rest, hb⟩ := h.between n rfl hn
      rw [List.getElem?_eq_getElem hn] at hc
      simpa [Cursor.next, hc] using hb.stands h.paged h.range
    · rw [List.getElem?_eq_none (by omega)] at hc
      have he : c.next t = c := by simp [Cursor.next, hc]
      rw [he]
      refine ⟨h.range, h.paged, ?_, ?_⟩
      · simp [hc, List.getElem?_eq_none (show entries.length ≤ n + 1 by omega)]
      · intro n' hn' hlt
        have he : n + 1 = n' := Option.some.inj hn'
        omega

theorem Stands.length_le (h : c.Stands t entries position) : entries.length ≤ t.keyCount :=
  calc entries.length ≤ (t.viewAt c.seq).length := by rw [← h.range]; exact List.length_filter_le _ _
    _ ≤ t.keyCount := List.length_filterMap_le _ _

end PeerBook.Cursor
