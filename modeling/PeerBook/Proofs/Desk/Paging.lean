import PeerBook.Proofs.Desk.Isolation

/-! # Paged cursors

Whatever is committed, pruned and released between its steps, a cursor visits
exactly the bindings between its bounds that its snapshot sees, in ascending
order, and starts over when it is asked for the first one again.
-/

namespace PeerBook.Desk

variable {d : Desk} {i : Nat} {c : Cursor}

/-- What an action makes of the position of a cursor. -/
def advance (i : Nat) (position : Option Nat) (a : Action) : Option Nat :=
  if a = .first i then some 0
  else if a = .next i then position.map (· + 1)
  else position

/-- How far actions have asked a cursor to go: after being asked for the first binding, so many
times for the next one. -/
def position (i : Nat) (as : List Action) (before : Option Nat) : Option Nat :=
  as.foldl (advance i) before

theorem cursor?_move (hc : d.cursor? i = some c) (f : Table → Cursor → Cursor) :
    (d.move i f).cursor? i = some (f d.engine.table c) := by
  have hi := (List.getElem?_eq_some_iff.mp (Option.join_eq_some_iff.mp hc)).1
  rw [move_eq hc]
  simp [cursor?, List.getElem?_set_self hi]

theorem cursor?_move_of_ne (hc : d.cursor? i = some c) {j : Nat} (hne : j ≠ i)
    (f : Table → Cursor → Cursor) : (d.move j f).cursor? i = some c := by
  unfold move
  split
  · exact join_set_of_ne hc hne _
  · exact hc

theorem cursor?_step (hc : d.cursor? i = some c) {a : Action} (hf : a ≠ .first i)
    (hn : a ≠ .next i) (hx : a ≠ .closeCursor i) : (d.step a).cursor? i = some c := by
  cases a with
  | commit j =>
    obtain ⟨m, bs, he, -⟩ := d.commit_cases j
    exact (congrArg (fun d => d.cursor? i) he).trans hc
  | closeSnapshot j =>
    simp only [step, closeSnapshot]
    split <;> exact hc
  | openCursor j lower upper =>
    cases hj : d.snapshot? j with
    | none => simpa [step, openCursor, hj] using hc
    | some s =>
      simp only [step, openCursor_eq hj]
      exact join_concat hc _
  | first j => exact cursor?_move_of_ne hc (fun h => hf (h ▸ rfl)) _
  | next j => exact cursor?_move_of_ne hc (fun h => hn (h ▸ rfl)) _
  | closeCursor j =>
    cases hj : d.cursor? j with
    | none => simpa [step, closeCursor, hj] using hc
    | some c' =>
      have hne : j ≠ i := fun h => hx (h ▸ rfl)
      simp only [step, closeCursor_eq hj]
      exact join_set_of_ne hc hne _
  | set | newBatch | put | openSnapshot | sync | tick | device => exact hc

theorem Sound.stands_step (h : d.Sound) {a : Action}
    (hl : d.committed a ≠ none → d.engine.Lasts) (hc : d.cursor? i = some c)
    {entries : List Binding} {p : Option Nat} (hs : c.Stands d.engine.table entries p)
    (hx : a ≠ .closeCursor i) :
    ∃ c', (d.step a).cursor? i = some c' ∧
      c'.Stands (d.step a).engine.table entries (advance i p a) := by
  have hr := h.readAt_step hl (holders_of_cursor? hc)
  by_cases hf : a = .first i
  · subst hf
    refine ⟨_, cursor?_move hc _, ?_⟩
    rw [advance, if_pos rfl]
    exact hs.first.congr (by rwa [Cursor.seq_first])
  · by_cases hn : a = .next i
    · subst hn
      refine ⟨_, cursor?_move hc _, ?_⟩
      rw [advance, if_neg hf, if_pos rfl]
      exact hs.next.congr (by rwa [Cursor.seq_next])
    · refine ⟨c, cursor?_step hc hf hn hx, ?_⟩
      rw [advance, if_neg hf, if_neg hn]
      exact hs.congr hr

theorem Sound.stands_run (h : d.Sound) {as : List Action} (hl : d.CommitsLast as)
    (hc : d.cursor? i = some c) {entries : List Binding} {p : Option Nat}
    (hs : c.Stands d.engine.table entries p) (hx : .closeCursor i ∉ as) :
    ∃ c', (d.run as).cursor? i = some c' ∧
      c'.Stands (d.run as).engine.table entries (position i as p) := by
  induction as generalizing d c p with
  | nil => exact ⟨c, hc, hs⟩
  | cons a as ih =>
    obtain ⟨ha, hx⟩ := not_or.mp (mt List.mem_cons.mpr hx)
    obtain ⟨c', hc', hs'⟩ := h.stands_step hl.1 hc hs (Ne.symm ha)
    exact ih (h.step hl.1) hl.2 hc' hs' hx

theorem cursor?_openCursor {s : Snapshot} (hs : d.snapshot? i = some s) (lower : Bytes)
    (upper : Option Bytes) :
    (d.openCursor i lower upper).cursor? d.cursors.length =
      some (.start s.seq d.engine.pageSize lower upper) := by
  rw [openCursor_eq hs]
  simp [cursor?]

theorem Sound.stands_openCursor (h : d.Sound) {s : Snapshot} (hs : d.snapshot? i = some s)
    (lower : Bytes) (upper : Option Bytes) :
    (Cursor.start s.seq d.engine.pageSize lower upper).Stands
      (d.openCursor i lower upper).engine.table (d.engine.table.range s.seq lower upper) none := by
  rw [openCursor_eq hs]
  exact .start _ _ h.engine.paged lower upper

/-- The bindings that a cursor visits are those between its bounds that its snapshot sees when the
cursor is opened, in ascending order: asked for the first one and then `n` times for the next one,
with anything else done in between, it stands on the one at position `n`, and nowhere if there are
no more than `n`. -/
theorem cursor_visits_range {m : Mounted} (hm : m.Opened) (as : List Action) {i : Nat}
    {s : Snapshot} (hs : ((start m).run as).snapshot? i = some s) (lower : Bytes)
    (upper : Option Bytes) (hl : (start m).CommitsLast as) :
    let opened := (start m).run as
    ∃ entries : List Binding, entries.Pairwise (·.1 < ·.1) ∧
      (∀ key value, (key, value) ∈ entries ↔
        lower ≤ key ∧ (∀ u ∈ upper, key < u) ∧ s.get key opened.engine = some value) ∧
      ∀ bs, opened.CommitsLast (.openCursor i lower upper :: bs) →
        .closeCursor opened.cursors.length ∉ bs →
        ∃ c, ((opened.openCursor i lower upper).run bs).cursor? opened.cursors.length = some c ∧
          c.current = (position opened.cursors.length bs none).bind (entries[·]?) := by
  intro opened
  have ho : opened.Sound := (Sound.start hm).run hl
  refine ⟨opened.engine.table.range s.seq lower upper, Table.pairwise_range _ _ _ _, ?_, ?_⟩
  · rintro key value
    rw [Table.mem_range, isBelow_eq_true_iff]
    rfl
  · rintro bs hb hx
    have hc := cursor?_openCursor hs lower upper
    have hst := ho.stands_openCursor hs lower upper
    obtain ⟨c, hc', hst'⟩ := (ho.openCursor i lower upper).stands_run hb.2 hc hst hx
    exact ⟨c, hc', hst'.current⟩

theorem cursor_visits_range_paged :
    ∃ m, Mounted.load 2 .everyWrite 0 none = .ok m ∧
      let opened := (start m).run [.set [1] [10], .set [2] [20], .set [3] [30], .openSnapshot,
        .set [2] [21]]
      let now := (opened.openCursor 0 [1] (some [4])).run [.first 0, .closeSnapshot 0,
        .set [2] [22], .next 0, .set [4] [40], .set [3] [31], .next 0]
      ∃ entries : List Binding, ([2], [20]) ∈ entries ∧
        ∃ c, now.cursor? 0 = some c ∧ c.current = some ([3], [30]) ∧ entries[2]? = c.current := by
  have hm : Mounted.load 2 .everyWrite 0 none =
      .ok ⟨⟨2, some (.start .everyWrite 0 .empty), .empty, 0, .empty⟩, .empty, 0⟩ := rfl
  refine ⟨_, hm, ?_⟩
  obtain ⟨entries, -, he, hv⟩ := cursor_visits_range (.load hm) (i := 0) (s := ⟨3⟩)
    [.set [1] [10], .set [2] [20], .set [3] [30], .openSnapshot, .set [2] [21]]
    (by decide +kernel) [1] (some [4]) (by decide +kernel)
  obtain ⟨c, hc, hp⟩ := hv [.first 0, .closeSnapshot 0, .set [2] [22], .next 0, .set [4] [40],
    .set [3] [31], .next 0] (by decide +kernel) (by decide +kernel)
  refine ⟨entries, (he [2] [20]).mpr (by decide +kernel), c, hc, ?_, hp.symm⟩
  exact (congrArg (·.bind (·.current)) hc).symm.trans
    (show _ = some (([3], [30]) : Binding) by decide +kernel)

end PeerBook.Desk
