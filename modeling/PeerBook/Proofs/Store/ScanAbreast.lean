import Mathlib.Data.List.TakeWhile
import PeerBook.Proofs.Engine.Cursor
import PeerBook.Proofs.Store.Held
import PeerBook.Proofs.Store.Interchange
import PeerBook.Proofs.Store.Scan

/-! # Scans on two engines

The cursor of a rehearsal walks a copied list, perhaps of all keys; that of an
engine fetches pages of the range of the records. What is left of both is the
same, as far as it is records, and a scan passes over everything else. So
scans end alike that were opened on engines that hold the same.
-/

namespace PeerBook

variable {t : Table} {l : Layout} {left : List Binding}

namespace Rehearsal

theorem filter_dropWhile_not {α : Type} (p : α → Bool) (as : List α) :
    (as.dropWhile fun a => !p a).filter p = as.filter p := by
  induction as with
  | nil => rfl
  | cons a as ih =>
    cases h : p a with
    | true => simp [h]
    | false => simp [h, ih]

/-- Skipping takes a copied range to its next record. -/
theorem skipForeign_eq (l : Layout) (r : Rehearsal) (k : Cursor) {fuel : Nat}
    (hf : k.rest.length ≤ fuel) :
    Scan.skipForeign (ε := Rehearsal) l r fuel k =
      { k with rest := k.rest.dropWhile fun b => !l.isRecordKey b.1 } := by
  obtain ⟨entries, rest⟩ := k
  induction fuel generalizing rest with
  | zero =>
    obtain rfl := List.length_eq_zero_iff.mp (Nat.le_zero.mp hf)
    rfl
  | succ fuel ih =>
    unfold Scan.skipForeign
    cases rest with
    | nil => rfl
    | cons b rest =>
      change (if l.isRecordKey b.1 then _ else _) = _
      cases hb : l.isRecordKey b.1 with
      | true => simp [hb]
      | false =>
        rw [if_neg Bool.false_ne_true, List.dropWhile_cons_of_pos (by simp [hb])]
        exact ih rest (Nat.le_of_succ_le_succ hf)

end Rehearsal

/-- Two cursors have the same records left. -/
structure Ahead (t : Table) (l : Layout) (left : List Binding) (k : Rehearsal.Cursor)
    (k' : Cursor) : Prop where
  rest : k.rest.filter (fun b => l.isRecordKey b.1) = left
  stands : ∃ entries n, k'.Stands t entries (some n) ∧ entries.drop n = left

namespace Ahead

variable {k : Rehearsal.Cursor} {k' : Cursor}

theorem isRecordKey (h : Ahead t l left k k') {b : Binding} (hb : b ∈ left) :
    l.isRecordKey b.1 = true := by
  rw [← h.rest] at hb
  exact (List.mem_filter.mp hb).2

theorem current (h : Ahead t l left k k') : k'.current = left.head? := by
  obtain ⟨entries, n, hs, hd⟩ := h.stands
  rw [hs.current, ← hd, List.head?_drop]
  rfl

theorem length_le (h : Ahead t l left k k') : left.length ≤ k.rest.length ∧
    left.length ≤ t.keyCount := by
  refine ⟨h.rest ▸ List.length_filter_le _ _, ?_⟩
  obtain ⟨entries, n, hs, hd⟩ := h.stands
  have hl := hs.length_le
  rw [← hd, List.length_drop]
  omega

theorem congr (h : Ahead t l left k k') {t' : Table}
    (hr : ∀ key, t'.readAt key k'.seq = t.readAt key k'.seq) : Ahead t' l left k k' := by
  obtain ⟨entries, n, hs, hd⟩ := h.stands
  exact ⟨h.rest, entries, n, hs.congr hr, hd⟩

theorem skip' (h : Ahead t l left k k') (m : Mounted) (fuel : Nat) :
    Scan.skipForeign l m fuel k' = k' := by
  refine Store.skipForeign_eq_self (fun b hb => ?_) fuel
  exact h.isRecordKey (List.mem_of_head? (h.current.symm.trans hb))

theorem skip (h : Ahead t l left k k') (r : Rehearsal) :
    let k₁ := Scan.skipForeign (ε := Rehearsal) l r (Backend.remaining r k) k
    Ahead t l left k₁ k' ∧ k₁.rest.head? = left.head? := by
  intro k₁
  have hk : k₁ = _ := Rehearsal.skipForeign_eq l r k (Nat.le_refl _)
  rw [hk]
  refine ⟨⟨?_, h.stands⟩, ?_⟩
  · exact (Rehearsal.filter_dropWhile_not _ _).trans h.rest
  · rw [← h.rest, List.head?_filter, List.find?_eq_head?_dropWhile_not]

theorem next {b : Binding} (h : Ahead t l (b :: left) k k') (hb : k.rest.head? = some b) :
    Ahead t l left { k with rest := k.rest.tail } (k'.next t) := by
  obtain ⟨entries, n, hs, hd⟩ := h.stands
  refine ⟨?_, entries, n + 1, hs.next, ?_⟩
  · have hr := h.rest
    obtain ⟨rest, hk⟩ := List.head?_eq_some_iff.mp hb
    rw [hk, List.filter_cons, if_pos (h.isRecordKey List.mem_cons_self)] at hr
    rw [hk]
    exact (List.cons.inj hr).2
  · rw [← List.tail_drop, hd, List.tail_cons]

end Ahead

namespace Scan

/-- How many pins the snapshot of a scan holds at a sequence number. -/
def holdsSnapshot (c : Scan Mounted) (s : UInt64) : Nat :=
  c.snapshot.elim 0 fun (o : Snapshot) => if o.seq = s then 1 else 0

def holdsCursor (c : Scan Mounted) (s : UInt64) : Nat :=
  c.cursor.elim 0 fun (k : Cursor) => if k.seq = s then 1 else 0

/-- How many pins a scan holds at a sequence number. -/
def holds (c : Scan Mounted) (s : UInt64) : Nat :=
  c.holdsSnapshot s + c.holdsCursor s

theorem holds_congr {c d : Scan Mounted} {k k₁ : Cursor} (ho : d.snapshot = c.snapshot)
    (hk : c.cursor = some k) (hk₁ : d.cursor = some k₁) (hs : k₁.seq = k.seq) :
    d.holds = c.holds := by
  funext s
  rw [holds, holds, holdsSnapshot, holdsCursor, ho, hk₁, holdsSnapshot, holdsCursor, hk]
  simp only [Option.elim_some, hs]

/-- Two scans tell the same and have the same records left. -/
structure Matches (t : Table) (left : List Binding) (c : Scan Rehearsal) (c' : Scan Mounted) :
    Prop where
  layout : c.layout = c'.layout
  context : c.context = c'.context
  current : c.current = c'.current
  failure : c.failure = c'.failure
  snapshot : c.snapshot.isSome = c'.snapshot.isSome
  cursor : c.cursor = none ∧ c'.cursor = none ∧ left = [] ∨
    ∃ k k', c.cursor = some k ∧ c'.cursor = some k' ∧ Ahead t c'.layout left k k'

/-- Two scans tell the same, now and when they go on. -/
def Alike (t : Table) (c : Scan Rehearsal) (c' : Scan Mounted) : Prop :=
  ∃ left, c.Matches t left c'

namespace Matches

variable {c : Scan Rehearsal} {c' : Scan Mounted} {s : Session Rehearsal} {s' : Session Mounted}

theorem congr (h : c.Matches t left c') {t' : Table}
    (hr : ∀ s, 0 < c'.holds s → ∀ key, t'.readAt key s = t.readAt key s) :
    c.Matches t' left c' := by
  refine ⟨h.layout, h.context, h.current, h.failure, h.snapshot, h.cursor.imp_right ?_⟩
  rintro ⟨k, k', hk, hk', ha⟩
  refine ⟨k, k', hk, hk', ha.congr (hr k'.seq ?_)⟩
  rw [holds, holdsCursor, hk', Option.elim_some, if_pos rfl]
  exact Nat.succ_pos _

theorem closed (h : c.Matches t left c') :
    Matches t [] { c with cursor := none, snapshot := none }
      { c' with cursor := none, snapshot := none } :=
  ⟨h.layout, h.context, h.current, h.failure, rfl, .inl ⟨rfl, rfl, rfl⟩⟩

/-- Scans that advance say the same and match again, and with each record there is one less. -/
theorem advance (h : c.Matches t left c') (hl : s.Level s') (ht : s'.engine.engine.table = t) :
    let r := c.advance s
    let r' := c'.advance s'
    r.1.1 = r'.1.1 ∧ r.2.Level r'.2 ∧ r'.1.2.holds = c'.holds ∧
      ∃ left', r.1.2.Matches t left' r'.1.2 ∧ (r.1.1 = true → left'.length < left.length) := by
  cases hf : c'.failure with
  | some err =>
    rw [advance_of_failed (h.failure.trans hf), advance_of_failed hf]
    exact ⟨rfl, hl, rfl, left, ⟨h.layout, h.context, rfl, h.failure, h.snapshot, h.cursor⟩, nofun⟩
  | none =>
    rcases h.cursor with ⟨hk, hk', -⟩ | ⟨k, k', hk, hk', ha⟩
    · rw [advance_of_closed hk, advance_of_closed hk']
      exact ⟨rfl, hl, rfl, left, ⟨h.layout, h.context, rfl, h.failure, h.snapshot, h.cursor⟩, nofun⟩
    · obtain ⟨ha₁, hh⟩ := ha.skip s.engine
      rw [advance_of_open (h.failure.trans hf) hk, advance_of_open hf hk', h.layout, h.context,
        hl.ambient, hl.codec, ha.skip']
      dsimp only
      have he : Backend.entry? (ε := Rehearsal) (skipForeign c'.layout s.engine
        (Backend.remaining s.engine k) k) = left.head? := hh
      have he' : Backend.entry? (ε := Mounted) k' = left.head? := ha.current
      rw [he, he']
      cases left with
      | nil =>
        exact ⟨rfl, hl, holds_congr rfl hk' rfl rfl, [],
          ⟨rfl, rfl, rfl, h.failure, h.snapshot, .inr ⟨_, _, rfl, rfl, ha₁⟩⟩, nofun⟩
      | cons b left =>
        dsimp only [List.head?_cons]
        cases c'.context.check "advance" s'.ambient with
        | error err =>
          exact ⟨rfl, hl, holds_congr rfl hk' rfl rfl, b :: left,
            ⟨rfl, rfl, rfl, rfl, h.snapshot, .inr ⟨_, _, rfl, rfl, ha₁⟩⟩, nofun⟩
        | ok u =>
          have hl' := hl.reach .decode
          cases s'.codec.decode b.2 with
          | error source =>
            exact ⟨rfl, hl', holds_congr rfl hk' rfl rfl, b :: left,
              ⟨rfl, rfl, rfl, rfl, h.snapshot, .inr ⟨_, _, rfl, rfl, ha₁⟩⟩, nofun⟩
          | ok p =>
            refine ⟨rfl, hl', holds_congr rfl hk' rfl (Cursor.seq_next _ _), left,
              ⟨rfl, rfl, rfl, h.failure, h.snapshot, .inr ⟨_, _, rfl, rfl, ?_⟩⟩,
              fun _ => Nat.lt_succ_self _⟩
            exact ht ▸ ha₁.next hh

section Drain

variable {β : Type} {visit : β → Peer → StateM (Session Rehearsal) β}
  {visit' : β → Peer → StateM (Session Mounted) β}

theorem drainWithin
    (hv : ∀ b p, Abreast (fun _ _ => True) (fun a a' _ _ => a = a') (visit b p) (visit' b p))
    (hs' : Spares visit') {fuel fuel' : Nat} (h : c.Matches t left c') (hl : s.Level s')
    (ht : s'.engine.engine.table = t) (hf : left.length < fuel) (hf' : left.length < fuel')
    (b : β) :
    let r := Scan.drainWithin visit fuel b c s
    let r' := Scan.drainWithin visit' fuel' b c' s'
    r.1.1 = r'.1.1 ∧ r.2.Level r'.2 ∧ r'.1.2.holds = c'.holds ∧
      ∃ left', r.1.2.Matches t left' r'.1.2 := by
  -- either fuel outlasts the records that are left, and each visit uses up one of all three
  induction fuel generalizing fuel' left c c' s s' b with
  | zero => cases hf
  | succ fuel ih =>
    obtain ⟨fuel', rfl⟩ := Nat.exists_eq_succ_of_ne_zero (Nat.ne_zero_of_lt hf')
    obtain ⟨hm, hl₁, hh, left', h₁, hlt⟩ := h.advance hl ht
    have he := (c'.advance_holdsAs s').2
    rw [drainWithin_succ, drainWithin_succ]
    dsimp only
    rw [← hm, h₁.current]
    split
    · rename_i p hmore _
      obtain ⟨hb, hl₂⟩ := hv b p _ _ trivial hl₁
      have hlt' := hlt hmore
      rw [hb]
      obtain ⟨hr, hl₃, hh', hm'⟩ := ih h₁ hl₂ (by rw [hs', he]; exact ht)
        (show left'.length < fuel by omega) (show left'.length < fuel' by omega)
        (visit' b p (c'.advance s').2).1
      exact ⟨hr, hl₃, hh'.trans hh, hm'⟩
    · exact ⟨rfl, hl₁, hh, left', h₁⟩

theorem drain (hv : ∀ b p, Abreast (fun _ _ => True) (fun a a' _ _ => a = a') (visit b p)
      (visit' b p)) (hs' : Spares visit') (h : c.Matches t left c') (hl : s.Level s')
    (ht : s'.engine.engine.table = t) (b : β) :
    let r := c.drain visit b s
    let r' := c'.drain visit' b s'
    r.1.1 = r'.1.1 ∧ r.2.Level r'.2 ∧ r'.1.2.holds = c'.holds ∧
      ∃ left', r.1.2.Matches t left' r'.1.2 := by
  refine h.drainWithin hv hs' hl ht ?_ ?_ b
  · rcases h.cursor with ⟨hk, -, rfl⟩ | ⟨k, k', hk, -, ha⟩
    · rw [hk]
      exact Nat.zero_lt_one
    · rw [hk]
      exact Nat.lt_succ_of_le ha.length_le.1
  · rcases h.cursor with ⟨-, hk', rfl⟩ | ⟨k, k', -, hk', ha⟩
    · rw [hk']
      exact Nat.zero_lt_one
    · rw [hk']
      have hn : left.length ≤ s'.engine.engine.table.keyCount := ht ▸ ha.length_le.2
      change left.length < 1 + k'.page.length + s'.engine.engine.table.keyCount + 1
      omega

end Drain

variable {m₀ : Mounted} {h₀ : UInt64 → Nat}

theorem closeCursor (h : c.Matches t left c') {r : Rehearsal} {m : Mounted}
    (hs : Still m₀ (fun s => h₀ s + c'.holdsCursor s) r m) :
    ∃ r' m', c.cursor.elim (.ok (), r) (fun k => Backend.closeCursor k r) = (.ok (), r') ∧
      c'.cursor.elim (.ok (), m) (fun k => Backend.closeCursor k m) = (.ok (), m') ∧
      Still m₀ h₀ r' m' := by
  rcases h.cursor with ⟨hk, hk', -⟩ | ⟨k, k', hk, hk', -⟩
  · rw [hk, hk']
    exact ⟨r, m, rfl, rfl, hs.congr fun s => by rw [holdsCursor, hk']; rfl⟩
  · have hp : Still m₀ (pinned h₀ k'.seq) r m := hs.congr fun s => by rw [holdsCursor, hk']; rfl
    obtain ⟨hr, hs'⟩ := hp.closeCursor k
    rw [hk, hk']
    exact ⟨_, _, Prod.ext hr rfl, rfl, hs'⟩

theorem closeSnapshot (h : c.Matches t left c') {r : Rehearsal} {m : Mounted}
    (hs : Still m₀ (fun s => h₀ s + c'.holdsSnapshot s) r m) :
    ∃ r' m', c.snapshot.elim (.ok (), r) (fun o => Backend.closeSnapshot o r) = (.ok (), r') ∧
      c'.snapshot.elim (.ok (), m) (fun o => Backend.closeSnapshot o m) = (.ok (), m') ∧
      Still m₀ h₀ r' m' := by
  have hi := h.snapshot
  cases ho' : c'.snapshot with
  | none =>
    rw [ho'] at hi
    rw [Option.not_isSome_iff_eq_none.mp (Bool.eq_false_iff.mp hi)]
    exact ⟨r, m, rfl, rfl, hs.congr fun s => by rw [holdsSnapshot, ho']; rfl⟩
  | some o' =>
    rw [ho'] at hi
    obtain ⟨o, ho⟩ := Option.isSome_iff_exists.mp hi
    have hp : Still m₀ (pinned h₀ o'.seq) r m :=
      hs.congr fun s => by rw [holdsSnapshot, ho']; rfl
    obtain ⟨hr, hs'⟩ := hp.closeSnapshot o
    rw [ho]
    exact ⟨_, _, Prod.ext hr rfl, rfl, hs'⟩

theorem close (h : c.Matches t left c') :
    Abreast (Still m₀ fun s => h₀ s + c'.holds s)
      (fun a a' r m => (a = (.ok (), { c with cursor := none, snapshot := none }) ∧
        a' = (.ok (), { c' with cursor := none, snapshot := none })) ∧ Still m₀ h₀ r m)
      c.close c'.close := by
  intro s s' hs hl
  obtain ⟨r, m, hr, hm, hs₁⟩ := h.closeCursor (hs.congr fun s => (Nat.add_assoc _ _ _).symm)
  obtain ⟨r', m', hr', hm', hs₂⟩ := h.closeSnapshot hs₁
  rw [close_eq, close_eq, hr, hm]
  dsimp only
  rw [hr', hm']
  exact ⟨⟨⟨rfl, rfl⟩, hs₂⟩, hl.withEngine _ _⟩

end Matches

section Finish

variable {β : Type} {visit : β → Peer → StateM (Session Rehearsal) β}
  {visit' : β → Peer → StateM (Session Mounted) β} {m₀ : Mounted} {h₀ : UInt64 → Nat}
  {c : Scan Rehearsal} {c' : Scan Mounted}

theorem Matches.finish
    (hv : ∀ b p, Abreast (fun _ _ => True) (fun a a' _ _ => a = a') (visit b p) (visit' b p))
    (hs : Spares visit) (hs' : Spares visit') (h : c.Matches m₀.engine.table left c') (b : β) :
    Abreast (Still m₀ fun s => h₀ s + c'.holds s) (Same (Still m₀ h₀)) (c.finish visit b)
      (c'.finish visit' b) := by
  intro s s' hst hl
  obtain ⟨hr, hl₁, hh, left', h₁⟩ := h.drain hv hs' hl hst.table_eq b
  have he := (c.drain_holdsAs hs b s).2
  have he' := (c'.drain_holdsAs hs' b s').2
  rw [← hh, ← he, ← he'] at hst
  obtain ⟨⟨⟨hc, hc'⟩, hst'⟩, hl₂⟩ := h₁.close _ _ hst hl₁
  rw [finish_eq, finish_eq]
  refine ⟨⟨?_, hst'⟩, hl₂⟩
  dsimp only
  rw [hr, hc, hc', h₁.failure]

theorem Matches.collect (h : c.Matches m₀.engine.table left c') :
    StoreM.Abreast (Still m₀ fun s => h₀ s + c'.holds s) (Still m₀ h₀) (Same (Still m₀ h₀))
      c.collect c'.collect := by
  refine .mk (h.finish (fun b p => ?_) (fun _ _ _ => rfl) (fun _ _ _ => rfl) []) ?_
  · exact .pure fun _ _ _ => rfl
  · rintro b _ r m ⟨rfl, hs⟩
    exact agree_same.mpr ⟨rfl, hs⟩

end Finish

end Scan

namespace Store

variable {m₀ : Mounted} {h₀ : UInt64 → Nat}

/-- A scan that is opened on both engines, and holds nothing newer than the last commit. -/
def Opened (m₀ : Mounted) (h₀ : UInt64 → Nat) (c : Scan Rehearsal) (c' : Scan Mounted)
    (r : Rehearsal) (m : Mounted) : Prop :=
  (c.Alike m₀.engine.table c' ∧ ∀ s, 0 < c'.holds s → s ≤ m₀.engine.visible) ∧
    Still m₀ (fun s => h₀ s + c'.holds s) r m

theorem filter_range (he : m₀.engine.Sound) {r : Rehearsal}
    (hg : ∀ key, r.data.find? key = m₀.engine.get key) :
    (r.range r.data l.recordLead (Bytes.bound? l.recordLead)).filter
        (fun b => l.isRecordKey b.1) = recordRange l m₀.engine := by
  refine SortedMap.eq_of_mem_iff ((r.data.sorted.filter _).filter _)
    (m₀.engine.table.pairwise_range _ _ _) fun b => ?_
  rw [mem_recordRange he, List.mem_filter, Rehearsal.range, List.mem_filter, ← hg,
    SortedMap.find?_eq_some_iff, Layout.isRecordKey_iff]
  constructor
  · rintro ⟨⟨hb, -⟩, hp⟩
    exact ⟨hp, hb⟩
  · rintro ⟨hp, hb⟩
    refine ⟨⟨hb, ?_⟩, hp⟩
    obtain ⟨hle, hlt⟩ := Bytes.prefix_iff_le_and_lt_bound.mp hp
    simp [Rehearsal.isWithin, hle, isBelow_eq_true_iff.mpr hlt]

theorem holds_openedOn (ctx : Context) (e : Engine) (s : UInt64) :
    (openedOn l ctx e).holds s =
      (if e.visible = s then 1 else 0) + if e.visible = s then 1 else 0 := by
  rw [Scan.holds, Scan.holdsSnapshot, Scan.holdsCursor]
  simp only [openedOn, Option.elim_some, Cursor.seq_first]
  rfl

theorem alike_openedOn (he : m₀.engine.Sound) (ctx : Context) {r : Rehearsal}
    (hg : ∀ key, r.data.find? key = m₀.engine.get key) (o : SortedMap Bytes Bytes) :
    let entries := r.range r.data l.recordLead (Bytes.bound? l.recordLead)
    Scan.Alike m₀.engine.table (.opened l ctx o ⟨entries, entries⟩) (openedOn l ctx m₀.engine) := by
  intro entries
  have ha : Ahead m₀.engine.table l
      (m₀.engine.table.range m₀.engine.visible l.recordLead (Bytes.bound? l.recordLead))
      ⟨entries, entries⟩
      ((Cursor.start m₀.engine.visible m₀.engine.pageSize l.recordLead
        (Bytes.bound? l.recordLead)).first m₀.engine.table) :=
    ⟨filter_range he hg, _, 0, (Cursor.Stands.start m₀.engine.table m₀.engine.visible he.paged
      l.recordLead (Bytes.bound? l.recordLead)).first, rfl⟩
  exact ⟨_, rfl, rfl, rfl, rfl, rfl, .inr ⟨_, _, rfl, rfl, ha⟩⟩

theorem iterate_abreast (he : m₀.engine.Sound) (ctx : Context) :
    StoreM.Abreast (Still m₀ h₀) (Still m₀ h₀) (Opened m₀ h₀) (iterate l ctx) (iterate l ctx) := by
  refine StoreM.abreast_iff.mpr fun s s' hs hl => ?_
  rw [exec_iterate_eq, exec_iterate_eq, hl.ambient]
  cases ctx.check "iterate" s'.ambient with
  | error err => exact ⟨⟨rfl, hs⟩, hl⟩
  | ok u =>
    obtain ⟨hr, hm, hs₁⟩ := hs.openSnapshot
    obtain ⟨hk, hk', hs₂⟩ := hs₁.openCursor s.engine.data ⟨m₀.engine.visible⟩ l.recordLead
      (Bytes.bound? l.recordLead)
    have ht := hs₂.table_eq
    rw [hr] at hk hs₂
    rw [hk] at hs₂
    dsimp only
    rw [hr, hm]
    dsimp only
    rw [hk, hk']
    generalize Backend.openCursor (ε := Mounted) (⟨m₀.engine.visible⟩ : Snapshot) l.recordLead
      (Bytes.bound? l.recordLead) (Backend.openSnapshot s'.engine).2 = k at ht hs₂ ⊢
    obtain ⟨_, ⟨⟨pageSize, appender, table, visible, pins⟩, file, clock⟩⟩ := k
    obtain rfl : table = _ := ht
    refine ⟨⟨⟨alike_openedOn he ctx hs.get _, fun t ht => ?_⟩, hs₂.congr fun t => ?_⟩,
      ((hl.reach .snapshot).reach .cursor).withEngine _ _⟩
    · change 0 < (openedOn l ctx m₀.engine).holds t at ht
      rw [holds_openedOn] at ht
      by_cases he : m₀.engine.visible = t
      · exact he ▸ UInt64.le_refl _
      · simp [he] at ht
    · change _ = h₀ t + (openedOn l ctx m₀.engine).holds t
      rw [holds_openedOn, pinned, pinned, Nat.add_assoc]

theorem forEach_abreast (he : m₀.engine.Sound) (ctx : Context) {β : Type}
    {visit : β → Peer → StateM (Session Rehearsal) β}
    {visit' : β → Peer → StateM (Session Mounted) β}
    (hv : ∀ b p, Abreast (fun _ _ => True) (fun a a' _ _ => a = a') (visit b p) (visit' b p))
    (hs : Scan.Spares visit) (hs' : Scan.Spares visit') (b : β) :
    Abreast (Still m₀ h₀) (Same (Still m₀ h₀)) (forEach l ctx visit b)
      (forEach l ctx visit' b) := by
  refine .bind (iterate_abreast he ctx) fun r r' s s' h hl => ?_
  rcases h.cases with ⟨err, rfl, rfl, hst⟩ | ⟨c, c', rfl, rfl, ⟨⟨left, hm⟩, -⟩, hst⟩
  · exact ⟨⟨rfl, hst⟩, hl⟩
  · exact hm.finish hv hs hs' b s s' hst hl

end Store

end PeerBook
