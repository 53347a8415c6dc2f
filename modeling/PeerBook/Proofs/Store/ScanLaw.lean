import PeerBook.Proofs.Rehearsal
import PeerBook.Proofs.Store.ScanAbreast

/-! # The law of scans

A cursor is judged by the bindings that it still gives. A scan answers with
the records among them, one after another, until there is none left, its
context is done or a record cannot be decoded. From then on, and from when it
is closed, it stays as it is, whatever is asked of it.
-/

namespace PeerBook

namespace Scan

variable {ε : Type} [Backend ε] {E : ε → Prop} {left rs : List Binding} {k : Backend.Cursor ε}
  {l : Layout} {e : ε} {c : Scan ε} {s : Session ε}

/-- A cursor gives these bindings, first the one that it stands on, as long as the states of its
engine are among `E` when it is moved. -/
def Gives (E : ε → Prop) : List Binding → Backend.Cursor ε → Prop
  | [], k => Backend.entry? k = none
  | b :: left, k =>
    Backend.entry? k = some b ∧
      ∀ e, E e → left.length < Backend.remaining e k ∧ Gives E left (Backend.next e k)

theorem Gives.entry?_eq (h : Gives E left k) : Backend.entry? k = left.head? := by
  cases left with
  | nil => exact h
  | cons b left => exact h.1

theorem Gives.length_le (h : Gives E left k) (he : E e) :
    left.length ≤ Backend.remaining e k := by
  cases left with
  | nil => exact Nat.zero_le _
  | cons b left => exact (h.2 e he).1

theorem Gives.skipForeign (h : Gives E left k) (he : E e) {n : Nat} (hn : left.length ≤ n) :
    Gives E (left.dropWhile fun b => !l.isRecordKey b.1) (skipForeign l e n k) := by
  induction left generalizing k n with
  | nil =>
    have hk : Scan.skipForeign l e n k = k :=
      Store.skipForeign_eq_self (fun b hb => by cases h.symm.trans hb) n
    rw [hk]
    exact h
  | cons b left ih =>
    obtain ⟨n, rfl⟩ := Nat.exists_eq_succ_of_ne_zero (Nat.ne_zero_of_lt hn)
    obtain ⟨hb, hnext⟩ := h
    cases hr : l.isRecordKey b.1 with
    | true =>
      have hk : Scan.skipForeign l e (n + 1) k = k :=
        Store.skipForeign_eq_self (fun b' hb' => by cases hb.symm.trans hb'; exact hr) _
      rw [hk, List.dropWhile_cons_of_neg (by simp [hr])]
      exact ⟨hb, hnext⟩
    | false =>
      rw [List.dropWhile_cons_of_pos (by simp [hr]), Scan.skipForeign, hb]
      dsimp only
      rw [hr, if_neg Bool.false_ne_true]
      exact ih (hnext e he).2 (Nat.le_of_succ_le_succ hn)

/-- What is told by a scan that was asked to advance. -/
structure Reply where
  more : Bool
  current : Option Peer
  failure : Option StoreError

/-- There is no record any more. -/
def Reply.ended (failure : Option StoreError) : Reply where
  more := false
  current := none
  failure

def reply (c : Scan ε) (s : Session ε) : Reply where
  more := (c.advance s).1.1
  current := (c.advance s).1.2.current
  failure := (c.advance s).1.2.failure

/-- The answer where this record is the next one. At the end nobody asks the context, and it is
asked before the record is decoded. -/
def replyTo (l : Layout) (ctx : Context) (s : Session ε) : Option Binding → Reply
  | none => .ended none
  | some b =>
    match ctx.interruption? s.ambient with
    | some i => .ended (some (i.toError "advance"))
    | none =>
      match s.codec.decode b.2 with
      | .ok p => ⟨true, some p, none⟩
      | .error source => .ended (some (.decoding (l.describe b.1) source))

/-- What is done with a scan, and the session in which that is done. -/
inductive Turn (ε : Type) where
  | advance (s : Session ε)
  | close (s : Session ε)

def Turn.isClose : Turn ε → Bool
  | .advance _ => false
  | .close _ => true

def turn (c : Scan ε) : Turn ε → Scan ε
  | .advance s => (c.advance s).1.2
  | .close s => (c.close s).1.2

def after (c : Scan ε) (ts : List (Turn ε)) : Scan ε :=
  ts.foldl turn c

theorem after_append (c : Scan ε) (ts ts' : List (Turn ε)) :
    c.after (ts ++ ts') = (c.after ts).after ts' :=
  List.foldl_append

/-- What a scan does on a cursor that gives these records. -/
structure Law (E : ε → Prop) (rs : List Binding) (c : Scan ε) : Prop where
  /-- The records are answered with one after another, as long as each of them is given. -/
  gives : ∀ ss : List (Session ε), (∀ s ∈ ss, E s.engine) →
    (∀ (i : Nat) s, ss[i]? = some s → (replyTo c.layout c.context s rs[i]?).more = true) →
    ∀ s, E s.engine →
      (c.after (ss.map .advance)).reply s = replyTo c.layout c.context s rs[ss.length]?
  /-- After an advance that gave none nothing changes any more. -/
  ended : ∀ ts s, ((c.after ts).reply s).more = false → ∀ ts' s',
    (c.after (ts ++ .advance s :: ts')).reply s' = .ended ((c.after ts).reply s).failure
  latched : ∀ ts err, (c.after ts).failure = some err → ∀ ts',
    (c.after (ts ++ ts')).failure = some err ∧
      ∀ s, (c.after (ts ++ ts')).reply s = .ended (some err)
  closed : ∀ ts s ts' s',
    (c.after (ts ++ .close s :: ts')).reply s' = .ended (c.after ts).failure
  /-- A record is there exactly from the advance that gave it until the next one. -/
  current : ∀ ts p, (c.after ts).current = some p ↔
    ∃ before s closes, ts = before ++ .advance s :: closes ∧
      (∀ t ∈ closes, t.isClose = true) ∧ (c.after before).reply s = ⟨true, some p, none⟩

theorem Stopped.advance (h : c.Stopped) (s : Session ε) :
    (c.advance s).1 = (false, { c with current := none }) := by
  cases hf : c.failure with
  | some err => rw [advance_of_failed hf, hf]
  | none =>
    cases hk : c.cursor with
    | none => rw [advance_of_closed hk, hf, hk]
    | some k =>
      have he := h hf k hk
      have hskip : skipForeign c.layout s.engine (Backend.remaining s.engine k) k = k :=
        Store.skipForeign_eq_self (fun b hb => by cases he.symm.trans hb) _
      rw [advance_of_open hf hk, hskip]
      dsimp only
      rw [he, hf]

theorem Stopped.reply (h : c.Stopped) (s : Session ε) : c.reply s = .ended c.failure := by
  rw [Scan.reply, h.advance]
  rfl

theorem turn_close (c : Scan ε) (s : Session ε) :
    c.turn (.close s) = { c with cursor := none, snapshot := none } := by
  rw [turn, close_eq]

theorem stopped_turn_close (c : Scan ε) (s : Session ε) : (c.turn (.close s)).Stopped := by
  rw [turn_close]
  exact stopped_of_cursor rfl

theorem Stopped.turn (h : c.Stopped) (t : Turn ε) :
    (c.turn t).Stopped ∧ (c.turn t).failure = c.failure := by
  cases t with
  | advance s =>
    rw [Scan.turn, h.advance]
    exact ⟨h, rfl⟩
  | close s =>
    refine ⟨stopped_turn_close c s, ?_⟩
    rw [turn_close]

theorem Stopped.after (h : c.Stopped) (ts : List (Turn ε)) :
    (c.after ts).Stopped ∧ (c.after ts).failure = c.failure := by
  induction ts generalizing c with
  | nil => exact ⟨h, rfl⟩
  | cons t ts ih =>
    obtain ⟨ht, hf⟩ := h.turn t
    obtain ⟨hs, hf'⟩ := ih ht
    exact ⟨hs, hf'.trans hf⟩

theorem Stopped.reply_after (h : c.Stopped) (ts : List (Turn ε)) (s : Session ε) :
    (c.after ts).reply s = .ended c.failure := by
  obtain ⟨hs, hf⟩ := h.after ts
  rw [hs.reply, hf]

theorem reply_cases (c : Scan ε) (s : Session ε) :
    (∃ p, c.reply s = ⟨true, some p, none⟩) ∨
      ((c.reply s).more = false ∧ (c.reply s).current = none ∧
        (c.turn (.advance s)).Stopped) := by
  unfold reply turn
  dsimp only
  obtain ⟨k, -, ⟨h, hs⟩ | ⟨-, err, -, h⟩ | ⟨-, key, source, h⟩ | ⟨hf, p, h⟩⟩ := c.advance_cases s
  · rw [h]
    exact .inr ⟨rfl, rfl, hs⟩
  · rw [h]
    exact .inr ⟨rfl, rfl, stopped_of_failure rfl⟩
  · rw [h]
    exact .inr ⟨rfl, rfl, stopped_of_failure rfl⟩
  · rw [h]
    exact .inl ⟨p, by rw [hf]⟩

theorem stopped_of_reply (h : (c.reply s).more = false) : (c.turn (.advance s)).Stopped := by
  rcases c.reply_cases s with ⟨p, hp⟩ | ⟨-, -, hs⟩
  · rw [hp] at h
    cases h
  · exact hs

/-- A scan that has not stopped stands before these records. -/
structure Before (E : ε → Prop) (l : Layout) (ctx : Context) (rs : List Binding) (c : Scan ε) :
    Prop where
  layout : c.layout = l
  context : c.context = ctx
  failure : c.failure = none
  cursor : ∃ k left, c.cursor = some k ∧ Gives E left k ∧
    left.filter (fun b => l.isRecordKey b.1) = rs

/-- A scan answers with the next record, and if it gives it, goes on behind it. -/
theorem Before.advance {ctx : Context} (h : Before E l ctx rs c) (he : E s.engine) :
    c.reply s = replyTo l ctx s rs.head? ∧
      ((c.reply s).more = true → Before E l ctx rs.tail (c.turn (.advance s))) := by
  obtain ⟨rfl, rfl, hf, k, left, hk, hg, rfl⟩ := h
  have hskip := hg.skipForeign (l := c.layout) he (hg.length_le he)
  have hhead : (left.filter fun b => c.layout.isRecordKey b.1).head? =
      (left.dropWhile fun b => !c.layout.isRecordKey b.1).head? := by
    rw [List.head?_filter, List.find?_eq_head?_dropWhile_not]
  have hfilter := Rehearsal.filter_dropWhile_not (fun b : Binding => c.layout.isRecordKey b.1) left
  change Reply.mk (c.advance s).1.1 (c.advance s).1.2.current (c.advance s).1.2.failure = _ ∧
    ((c.advance s).1.1 = true → Before E c.layout c.context _ (c.advance s).1.2)
  rw [advance_of_open hf hk]
  dsimp only
  rw [hskip.entry?_eq, hhead]
  cases hd : left.dropWhile fun b => !c.layout.isRecordKey b.1 with
  | nil =>
    constructor
    · rw [hf]
      rfl
    · exact fun hm => absurd hm Bool.false_ne_true
  | cons b rest =>
    rw [hd] at hskip hhead hfilter
    have hrec : c.layout.isRecordKey b.1 = true :=
      (List.mem_filter.mp (List.mem_of_head? hhead)).2
    rw [List.filter_cons, if_pos hrec] at hfilter
    simp only [List.head?_cons, replyTo, Context.check]
    cases c.context.interruption? s.ambient with
    | some i => exact ⟨rfl, fun hm => absurd hm Bool.false_ne_true⟩
    | none =>
      cases s.codec.decode b.2 with
      | error source => exact ⟨rfl, fun hm => absurd hm Bool.false_ne_true⟩
      | ok p =>
        refine ⟨by rw [hf], fun _ => ⟨rfl, rfl, hf, _, rest, rfl, (hskip.2 _ he).2, ?_⟩⟩
        rw [← hfilter, List.tail_cons]

theorem Before.gives {ctx : Context} (h : Before E l ctx rs c) (ss : List (Session ε))
    (hss : ∀ s ∈ ss, E s.engine)
    (hmore : ∀ (i : Nat) s, ss[i]? = some s → (replyTo l ctx s rs[i]?).more = true) :
    Before E l ctx (rs.drop ss.length) (c.after (ss.map .advance)) := by
  induction ss generalizing c rs with
  | nil => exact h
  | cons s ss ih =>
    obtain ⟨hs, hss⟩ := List.forall_mem_cons.mp hss
    obtain ⟨hr, hnext⟩ := h.advance hs
    have hm : (c.reply s).more = true := by
      rw [hr, List.head?_eq_getElem?]
      exact hmore 0 s rfl
    have := ih (hnext hm) hss fun i s' hi => by
      rw [List.getElem?_tail]
      exact hmore (i + 1) s' hi
    rwa [← List.drop_one, List.drop_drop, Nat.add_comm] at this

theorem current_after_eq_some_iff (hc : c.current = none) (ts : List (Turn ε)) (p : Peer) :
    (c.after ts).current = some p ↔
      ∃ before s closes, ts = before ++ .advance s :: closes ∧
        (∀ t ∈ closes, t.isClose = true) ∧ (c.after before).reply s = ⟨true, some p, none⟩ := by
  induction ts using List.reverseRecOn with
  | nil => simp [after, hc]
  | append_singleton ts t ih =>
    rw [after_append]
    cases t with
    | advance s =>
      change ((c.after ts).reply s).current = some p ↔ _
      constructor
      · intro hp
        refine ⟨ts, s, [], rfl, by simp, ?_⟩
        rcases (c.after ts).reply_cases s with ⟨p', hr⟩ | ⟨-, hn, -⟩
        · rw [hr] at hp ⊢
          rw [← hp]
        · cases hn.symm.trans hp
      · rintro ⟨before, s', closes, hts, hcloses, hr⟩
        rcases List.eq_nil_or_concat closes with rfl | ⟨closes, t, rfl⟩
        · obtain ⟨rfl, ht⟩ := List.append_inj' hts rfl
          cases ht
          rw [hr]
        · rw [List.concat_eq_append, ← List.cons_append, ← List.append_assoc] at hts
          obtain ⟨-, ht⟩ := List.append_inj' hts rfl
          cases ht
          have := hcloses (.advance s) (by simp)
          cases this
    | close s =>
      change ((c.after ts).turn (.close s)).current = some p ↔ _
      rw [turn_close]
      change (c.after ts).current = some p ↔ _
      rw [ih]
      constructor
      · rintro ⟨before, s', closes, rfl, hcloses, hr⟩
        refine ⟨before, s', closes ++ [.close s], by simp, ?_, hr⟩
        exact List.forall_mem_append.mpr ⟨hcloses, by simp [Turn.isClose]⟩
      · rintro ⟨before, s', closes, hts, hcloses, hr⟩
        rcases List.eq_nil_or_concat closes with rfl | ⟨closes, t, rfl⟩
        · obtain ⟨-, ht⟩ := List.append_inj' hts rfl
          cases ht
        · rw [List.concat_eq_append, ← List.cons_append, ← List.append_assoc] at hts
          obtain ⟨rfl, -⟩ := List.append_inj' hts rfl
          exact ⟨before, s', closes, rfl, fun t ht => hcloses t (by simp [ht]), hr⟩

theorem Gives.law (h : Gives E left k) (l : Layout) (ctx : Context)
    (snapshot : Backend.Snapshot ε) :
    Law E (left.filter fun b => l.isRecordKey b.1) (opened l ctx snapshot k) where
  gives ss hss hmore s he := by
    have hb : Before E l ctx (left.filter fun b => l.isRecordKey b.1) (opened l ctx snapshot k) :=
      ⟨rfl, rfl, rfl, k, left, rfl, h, rfl⟩
    have hr := ((hb.gives ss hss hmore).advance he).1
    rwa [List.head?_drop] at hr
  ended ts s hmore ts' s' := by
    rw [after_append]
    exact (stopped_of_reply hmore).reply_after ts' s'
  latched ts err hf ts' := by
    obtain ⟨hs, hf'⟩ := (stopped_of_failure hf).after ts'
    rw [after_append, hf', hf]
    refine ⟨rfl, fun s => ?_⟩
    rw [hs.reply, hf', hf]
  closed ts s ts' s' := by
    rw [after_append]
    have hs := stopped_turn_close ((opened l ctx snapshot k).after ts) s
    have hf := congrArg failure (turn_close ((opened l ctx snapshot k).after ts) s)
    exact (hs.reply_after ts' s').trans (congrArg Reply.ended hf)
  current ts p := current_after_eq_some_iff rfl ts p

end Scan

namespace Rehearsal

theorem gives (k : Cursor) : Scan.Gives (ε := Rehearsal) (fun _ => True) k.rest k := by
  obtain ⟨entries, rest⟩ := k
  induction rest with
  | nil => rfl
  | cons b rest ih => exact ⟨rfl, fun _ _ => ⟨Nat.lt_succ_self _, ih⟩⟩

end Rehearsal

/-- What reads at the cursor's sequence number see is as in this table. -/
def Mounted.Reads (t : Table) (seq : UInt64) (m : Mounted) : Prop :=
  ∀ key, m.engine.table.readAt key seq = t.readAt key seq

theorem Cursor.Stands.gives {t : Table} {k : Cursor} {entries : List Binding} {n : Nat}
    (h : k.Stands t entries (some n)) :
    Scan.Gives (ε := Mounted) (Mounted.Reads t k.seq) (entries.drop n) k := by
  generalize hleft : entries.drop n = left
  induction left generalizing k n with
  | nil =>
    have hn : entries[n]? = none := List.getElem?_eq_none (List.drop_eq_nil_iff.mp hleft)
    exact h.current.trans hn
  | cons b left ih =>
    have hb : entries[n]? = some b := by
      rw [← List.head?_drop, hleft, List.head?_cons]
    have hrest : entries.drop (n + 1) = left := by
      rw [← List.tail_drop, hleft, List.tail_cons]
    refine ⟨h.current.trans hb, fun m hm => ⟨?_, ?_⟩⟩
    · have hle := (h.congr hm).length_le
      have hlen := congrArg List.length hleft
      rw [List.length_drop, List.length_cons] at hlen
      change left.length < 1 + k.page.length + m.engine.table.keyCount
      omega
    · have hnext : (k.next m.engine.table).Stands t entries (some (n + 1)) := by
        have hback : ∀ key, t.readAt key (k.next m.engine.table).seq =
            m.engine.table.readAt key (k.next m.engine.table).seq := by
          intro key
          rw [Cursor.seq_next]
          exact (hm key).symm
        exact (h.congr hm).next.congr hback
      have hg := ih hnext hrest
      rwa [Cursor.seq_next] at hg

namespace Store

variable {l : Layout} {ctx : Context}

theorem filter_recordRange {e : Engine} (he : e.Sound) :
    (recordRange l e).filter (fun b => l.isRecordKey b.1) = recordRange l e := by
  rw [List.filter_eq_self]
  intro b hb
  exact Layout.isRecordKey_iff.mpr ((mem_recordRange he).mp hb).1

theorem eq_opened_of_iterate {ε : Type} [Backend ε] {s s' : Session ε} {c : Scan ε}
    (h : (iterate l ctx).exec s = (.ok c, s')) :
    ctx.interruption? s.ambient = none ∧ ∃ snapshot cursor,
      (Backend.openSnapshot s.engine).1 = .ok snapshot ∧
      let o := Backend.openCursor snapshot l.recordLead (Bytes.bound? l.recordLead)
        (Backend.openSnapshot s.engine).2
      o.1 = .ok cursor ∧ c = .opened l ctx snapshot (Backend.first o.2 cursor) := by
  rw [exec_iterate_eq] at h
  cases hc : ctx.check "iterate" s.ambient with
  | error err => simp [hc] at h
  | ok u =>
    rw [hc] at h
    dsimp only at h
    cases ho : (Backend.openSnapshot s.engine).1 with
    | error source => simp [ho] at h
    | ok snapshot =>
      rw [ho] at h
      dsimp only at h
      cases hk : (Backend.openCursor snapshot l.recordLead (Bytes.bound? l.recordLead)
        (Backend.openSnapshot s.engine).2).1 with
      | error source =>
        rw [hk] at h
        obtain ⟨err, he⟩ := StoreError.exists_append_error (α := Scan ε)
          (.read "iterate" (Quoted.showBytes l.recordLead) source) (Scan.releasing "snapshot"
            (Backend.closeSnapshot snapshot (Backend.openCursor snapshot l.recordLead
              (Bytes.bound? l.recordLead) (Backend.openSnapshot s.engine).2).2).1)
        cases he.symm.trans (congrArg Prod.fst h)
      | ok cursor =>
        rw [hk] at h
        refine ⟨Context.check_eq_ok_iff.mp hc, snapshot, cursor, rfl, hk, ?_⟩
        exact (Except.ok.inj (congrArg Prod.fst h)).symm

/-- A scan keeps to the law whatever its engine: it gives the records among what its cursor gives.
On a rehearsal these are the records of the moment when it was opened, whether or not the cursor
keeps to its bounds. On a sound engine they are those that it held then, as long as reads at that
sequence number stay as they were, and so they do whatever calls are made meanwhile. -/
theorem scan_law :
    (∀ (ε : Type) [Backend ε] (E : ε → Prop) (left : List Binding) (k : Backend.Cursor ε)
      (l : Layout) (ctx : Context) (snapshot : Backend.Snapshot ε), Scan.Gives E left k →
      Scan.Law E (left.filter fun b => l.isRecordKey b.1) (.opened l ctx snapshot k)) ∧
    (∀ (l : Layout) (ctx : Context) (s s' : Session Rehearsal) (c : Scan Rehearsal),
      (iterate l ctx).exec s = (.ok c, s') →
      Scan.Law (fun _ => True) ((s.engine.range s.engine.data l.recordLead
        (Bytes.bound? l.recordLead)).filter fun b => l.isRecordKey b.1) c) ∧
    ∀ (l : Layout) (ctx : Context) (s s' : Session Mounted) (c : Scan Mounted),
      s.engine.engine.Sound → (iterate l ctx).exec s = (.ok c, s') →
      let e := s.engine.engine
      Scan.Law (Mounted.Reads e.table e.visible) (recordRange l e) c ∧
        ∀ l' calls t, Ran l' Mounted.Rests s' calls t →
          e.visible.toNat + calls.length < 2 ^ 64 → t.engine.Reads e.table e.visible := by
  refine ⟨fun ε _ E left k l ctx snapshot h => h.law l ctx snapshot, ?_, ?_⟩
  · intro l ctx s s' c hi
    obtain ⟨-, snapshot, cursor, ho, hk, rfl⟩ := eq_opened_of_iterate hi
    rw [Rehearsal.fst_openSnapshot, Rehearsal.guarded_eq_ok_iff] at ho
    obtain ⟨-, rfl⟩ := ho
    rw [Rehearsal.fst_openCursor, Rehearsal.guarded_eq_ok_iff,
      Rehearsal.range_congr (Rehearsal.faults_openSnapshot s.engine)] at hk
    obtain ⟨-, rfl⟩ := hk
    let range := s.engine.range s.engine.data l.recordLead (Bytes.bound? l.recordLead)
    exact (Rehearsal.gives ⟨range, range⟩).law l ctx _
  · intro l ctx s s' c he hi e
    obtain ⟨s'', hi', hpins⟩ := exec_iterate (l := l) (eq_opened_of_iterate hi).1
    obtain ⟨hc, rfl⟩ := Prod.mk.inj (hi'.symm.trans hi)
    obtain rfl := Except.ok.inj hc
    constructor
    · have hst := (Cursor.Stands.start e.table e.visible he.paged l.recordLead
        (Bytes.bound? l.recordLead)).first
      rw [← filter_recordRange he]
      exact hst.gives.law l ctx _
    · intro l' calls t ht hl key
      have hs : s''.engine.engine.Sound := hpins ▸ (he.withPins _).withPins _
      have hv : s''.engine.engine.visible = e.visible := by rw [hpins]; rfl
      have hg := ht.grows hs (by rwa [hv])
      have hcount : 0 < s''.engine.engine.pins.count e.visible := by
        rw [hpins]
        change 0 < ((e.pins.pin e.visible).pin e.visible).count e.visible
        rw [Pins.count_pin, if_pos rfl]
        exact Nat.succ_pos _
      have htable : s''.engine.engine.table = e.table := by rw [hpins]; rfl
      exact htable ▸ hg.reads e.visible hcount (UInt64.le_of_eq hv.symm) key

/-- A cursor that does not keep to its bounds, a record, and behind it a value that is none; and a
scan of an engine that holds nothing, overtaken by a call. -/
theorem scan_law_undecodable :
    let ann : Peer := .new ⟨.user, 1⟩ 10 0
    let r : Rehearsal := { Rehearsal.empty with
      data := .ofList [([97], [1]), (Layout.flat.recordKey ⟨.user, 1⟩, ann.encode),
        (Layout.flat.recordKey ⟨.user, 2⟩, [7])]
      faults := [.ignoreBounds] }
    let s : Session Rehearsal := { Session.start r with ambient := Ambient.start.newRoot.2 }
    let cancelled : Session Rehearsal := { s with ambient := s.ambient.cancel 0 }
    let call : Call := ⟨.background, ann, none⟩
    (∃ c s', (iterate .flat (.ofRoot 0)).exec s = (.ok c, s') ∧
      c.reply s = ⟨true, some ann, none⟩ ∧
      (c.after [.advance s]).reply cancelled = .ended (some (.cancelled "advance")) ∧
      (∀ ts, (c.after ([.advance s, .advance cancelled] ++ ts)).failure =
        some (.cancelled "advance")) ∧
      (c.after [.advance s]).reply s =
        .ended (some (.decoding "user:2" ⟨"io error: unexpected end of file"⟩)) ∧
      (c.after [.advance s, .close s]).current = some ann ∧
      (c.after [.advance s, .close s]).reply s = .ended none) ∧
    ∃ c s', (iterate .flat .background).exec (.start Mounted.volatile) = (.ok c, s') ∧
      ((call.perform .flat).exec s').1 = .ok () ∧
      c.reply ((call.perform .flat).exec s').2 = .ended none := by
  intro ann r s cancelled call
  constructor
  · let range := r.range r.data Layout.flat.recordLead (Bytes.bound? Layout.flat.recordLead)
    let c : Scan Rehearsal := .opened .flat (.ofRoot 0) r.data ⟨range, range⟩
    obtain ⟨s', hi⟩ : ∃ s', (iterate .flat (.ofRoot 0)).exec s = (.ok c, s') := ⟨_, rfl⟩
    have h : Scan.Law (fun _ => True) (range.filter fun b => Layout.flat.isRecordKey b.1) c :=
      scan_law.2.1 _ _ s _ c hi
    have h' : Scan.Law (fun _ => True) (range.filter fun b => Layout.flat.isRecordKey b.1) c :=
      scan_law.1 _ _ range _ _ _ r.data (Rehearsal.gives ⟨range, range⟩)
    have hrs : (range.filter fun b => Layout.flat.isRecordKey b.1) =
        [(Layout.flat.recordKey ⟨.user, 1⟩, ann.encode),
          (Layout.flat.recordKey ⟨.user, 2⟩, [7])] := by
      decide +kernel
    rw [hrs] at h
    have hann : s.codec.decode ann.encode = .ok ann := by decide +kernel
    have hbad : s.codec.decode [7] = .error ⟨"io error: unexpected end of file"⟩ := by
      decide +kernel
    have hname : Layout.flat.describe (Layout.flat.recordKey ⟨.user, 2⟩) = "user:2" := by
      decide +kernel
    have hon : (Context.ofRoot 0).interruption? s.ambient = none := by decide
    have hoff : (Context.ofRoot 0).interruption? cancelled.ambient = some .cancelled := by decide
    have hcontext : c.context = .ofRoot 0 := rfl
    have hfirst : c.reply s = ⟨true, some ann, none⟩ := by
      refine (h.gives [] (by simp) (by simp) s trivial).trans ?_
      rw [List.length_nil, List.getElem?_cons_zero]
      simp only [hcontext, Scan.replyTo, hon, hann]
    have hsecond (t : Session Rehearsal) :
        (c.after [.advance s]).reply t =
          Scan.replyTo .flat (.ofRoot 0) t (some (Layout.flat.recordKey ⟨.user, 2⟩, [7])) := by
      refine h.gives [s] (by simp) ?_ t trivial
      rintro (_ | i) s' hs
      · obtain rfl := Option.some.inj hs
        rw [List.getElem?_cons_zero]
        simp only [hcontext, Scan.replyTo, hon, hann]
      · cases hs
    clear_value c cancelled s
    have hgiven : (c.after [.advance s]).failure = none := congrArg Scan.Reply.failure hfirst
    have hstopped : (c.after [.advance s]).reply cancelled =
        .ended (some (.cancelled "advance")) := by
      rw [hsecond]
      simp only [Scan.replyTo, hoff, Interruption.toError]
    refine ⟨c, s', hi, hfirst, hstopped, fun ts => ?_, ?_, ?_, ?_⟩
    · have hf : (c.after [.advance s, .advance cancelled]).failure = some (.cancelled "advance") :=
        congrArg Scan.Reply.failure hstopped
      exact (h'.latched _ _ hf ts).1
    · rw [hsecond]
      simp only [Scan.replyTo, hon, hbad, hname]
    · exact (h.current _ ann).mpr ⟨[], s, [.close s], rfl, by simp [Scan.Turn.isClose], hfirst⟩
    · exact (h.closed [.advance s] s [] s).trans (congrArg Scan.Reply.ended hgiven)
  · obtain ⟨s', hi, hok⟩ : ∃ s', (iterate .flat .background).exec (.start Mounted.volatile) =
          (.ok (openedOn .flat .background .volatile), s') ∧
        ((call.perform .flat).exec s').1 = .ok () := ⟨_, rfl, rfl⟩
    obtain ⟨hlaw, hreads⟩ := scan_law.2.2 .flat .background _ s' _ Engine.Sound.volatile hi
    have ht := hreads .flat _ _ (Ran.start.took (.inl hok)) (by decide)
    have hnone : (recordRange .flat Engine.volatile)[0]? = none := by decide
    have hr := hlaw.gives [] (by simp) (by simp) _ ht
    exact ⟨_, s', hi, hok, hr.trans (congrArg (Scan.replyTo _ _ _) hnone)⟩

end Store

end PeerBook
