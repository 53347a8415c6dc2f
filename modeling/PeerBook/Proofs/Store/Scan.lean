import Mathlib.Data.Set.List
import PeerBook.Proofs.Engine.Cursor
import PeerBook.Proofs.Peer.Record
import PeerBook.Proofs.Store.Held
import PeerBook.Proofs.Store.Run

/-! # Scans see the records of one moment

A scan walks the range of the record keys at the sequence number at which it
was opened. There it finds the record of every identity stored by then, in
the order of the keys, and calls made while it goes on do not change that.
-/

namespace PeerBook

def Peer.binding (l : Layout) (p : Peer) : Binding :=
  (l.recordKey p.identity, p.encode)

namespace Store

open StoreM

variable {l : Layout} {calls : List Call}

/-- What an engine holds in the range of the record keys. -/
def recordRange (l : Layout) (e : Engine) : List Binding :=
  e.table.range e.visible l.recordLead (Bytes.bound? l.recordLead)

theorem mem_recordRange {e : Engine} (he : e.Sound) {b : Binding} :
    b ∈ recordRange l e ↔ l.recordLead <+: b.1 ∧ e.get b.1 = some b.2 := by
  rw [recordRange, Table.mem_range, isBelow_eq_true_iff, ← and_assoc,
    ← Bytes.prefix_iff_le_and_lt_bound, he.get_eq]

theorem joint_eq_some_iff {calls : List (Layout × Call)} {b : Binding} :
    l.recordLead <+: b.1 ∧ (joint calls).find? b.1 = some b.2 ↔
      ∃ l' p, l.recordLead <+: l'.recordKey p.identity ∧
        latest (under l' calls) p.identity = some p ∧ p.binding l' = b := by
  constructor
  · rintro ⟨hk, hv⟩
    rcases record_or_alias (hv ▸ Option.some_ne_none b.2) with ⟨c, -, hc⟩ | ⟨a, ha⟩
    · rw [hc, joint_recordKey] at hv
      obtain ⟨p, hp, he⟩ := Option.map_eq_some_iff.mp hv
      have hi := identity_of_latest hp
      rw [← hi] at hp hc
      exact ⟨c.1, p, hc ▸ hk, hp, Prod.ext hc.symm he⟩
    · exact absurd (ha ▸ hk) (not_recordLead_prefix_aliasKey l a)
  · rintro ⟨l', p, hk, hp, rfl⟩
    refine ⟨hk, ?_⟩
    rw [Peer.binding, joint_recordKey, hp]
    rfl

theorem contents_eq_some_iff {b : Binding} :
    l.recordLead <+: b.1 ∧ (contents l calls).find? b.1 = some b.2 ↔
      ∃ p, latest calls p.identity = some p ∧ p.binding l = b := by
  rw [contents_eq_joint, joint_eq_some_iff]
  constructor
  · rintro ⟨l', p, -, hp, hb⟩
    obtain ⟨c, hc, -⟩ := mem_of_latest hp
    obtain ⟨c', -, he⟩ := List.mem_map.mp (mem_under.mp hc)
    obtain ⟨rfl, -⟩ := Prod.mk.inj he
    rw [under_map] at hp
    exact ⟨p, hp, hb⟩
  · rintro ⟨p, hp, hb⟩
    refine ⟨l, p, List.prefix_append _ _, ?_, hb⟩
    rwa [under_map]

theorem exists_records_of_mem {bs : List Binding} (ho : bs.Pairwise (·.1 < ·.1))
    (hm : ∀ b, b ∈ bs ↔ ∃ p, latest calls p.identity = some p ∧ p.binding l = b)
    (hp : ∀ c ∈ calls, c.peer.encode.length < 2 ^ 64) :
    ∃ records : List Peer, bs = records.map (Peer.binding l) ∧
      records.Pairwise (fun p q => p.identity.Before q.identity) ∧
      ∀ p, p ∈ records ↔ latest calls p.identity = some p := by
  have hr : bs ∈ Set.range (List.map (Peer.binding l)) := by
    rw [Set.range_list_map]
    intro b hb
    obtain ⟨p, -, rfl⟩ := (hm b).mp hb
    exact ⟨p, rfl⟩
  obtain ⟨records, rfl⟩ := hr
  have hinj {p q : Peer} (hq : latest calls q.identity = some q)
      (h : q.binding l = p.binding l) : q = p := by
    obtain ⟨c, hc, rfl⟩ := mem_of_latest hq
    exact Peer.encode_inj (hp c hc) (Prod.mk.inj h).2
  refine ⟨records, rfl, ?_, fun p => ⟨fun h => ?_, fun h => ?_⟩⟩
  · rw [List.pairwise_map] at ho
    exact ho.imp Layout.recordKey_lt_recordKey_iff.mp
  · obtain ⟨q, hq, hb⟩ := (hm _).mp (List.mem_map_of_mem h)
    exact hinj hq hb ▸ hq
  · obtain ⟨q, hq, hb⟩ := List.mem_map.mp ((hm _).mpr ⟨p, h, rfl⟩)
    exact hinj h hb.symm ▸ hq

theorem exists_records {e : Engine} (he : e.Sound)
    (hg : ∀ key, e.get key = (contents l calls).find? key)
    (hp : ∀ c ∈ calls, c.peer.encode.length < 2 ^ 64) :
    ∃ records : List Peer,
      recordRange l e = records.map (Peer.binding l) ∧
      records.Pairwise (fun p q => p.identity.Before q.identity) ∧
      ∀ p, p ∈ records ↔ latest calls p.identity = some p := by
  refine exists_records_of_mem (Table.pairwise_range ..) (fun b => ?_) hp
  rw [mem_recordRange he, hg, contents_eq_some_iff]

theorem exists_latest (hp : ∀ c ∈ calls, c.peer.encode.length < 2 ^ 64) :
    ∃ records : List Peer, records.Pairwise (fun p q => p.identity.Before q.identity) ∧
      ∀ p, p ∈ records ↔ latest calls p.identity = some p := by
  -- records of any layout serve
  let bs := (contents .scoped calls).toList.filter fun b => Layout.scoped.isRecordKey b.1
  have ho : bs.Pairwise (·.1 < ·.1) := (contents .scoped calls).sorted.filter _
  have hm (b : Binding) :
      b ∈ bs ↔ ∃ p, latest calls p.identity = some p ∧ p.binding .scoped = b := by
    rw [List.mem_filter, Layout.isRecordKey_iff, and_comm, ← contents_eq_some_iff,
      SortedMap.find?_eq_some_iff]
  obtain ⟨records, -, hr⟩ := exists_records_of_mem ho hm hp
  exact ⟨records, hr⟩

def openedOn (l : Layout) (ctx : Context) (e : Engine) : Scan Mounted where
  snapshot := some ⟨e.visible⟩
  cursor := some ((Cursor.start e.visible e.pageSize l.recordLead
    (Bytes.bound? l.recordLead)).first e.table)
  layout := l
  context := ctx
  current := none
  failure := none

/-- Opening a scan pins the present state twice, for its snapshot and for its cursor. -/
theorem exec_iterate {s : Session Mounted} {ctx : Context}
    (h : ctx.interruption? s.ambient = none) :
    let e := s.engine.engine
    ∃ s', (iterate l ctx).exec s = (.ok (openedOn l ctx e), s') ∧
      s'.engine.engine = (e.pin e.visible).pin e.visible := by
  intro e
  rw [iterate, exec_bind, exec_check, Context.check_eq_ok_iff.mpr h]
  dsimp only
  rw [exec_bind_of_ok (exec_openSnapshot (ε := Mounted) l.recordLead s), exec_bind, exec_lift,
    Session.call_eq]
  exact ⟨_, rfl, rfl⟩

/-- A scan stands before a position of the records it walks, and its cursor is pinned. -/
structure Stands (l : Layout) (records : List Peer) (n : Nat) (c : Scan Mounted) (e : Engine) :
    Prop where
  layout : c.layout = l
  failure : c.failure = none
  cursor : ∃ k, c.cursor = some k ∧ 0 < e.pins.count k.seq ∧ k.seq ≤ e.visible ∧
    k.Stands e.table (records.map (Peer.binding l)) (some n)

variable {records : List Peer} {n : Nat} {c : Scan Mounted} {e e' : Engine}

theorem stands_openedOn (he : e.Sound) (ctx : Context)
    (hr : e.table.range e.visible l.recordLead (Bytes.bound? l.recordLead) =
      records.map (Peer.binding l)) :
    Stands l records 0 (openedOn l ctx e) ((e.pin e.visible).pin e.visible) where
  layout := rfl
  failure := rfl
  cursor := by
    refine ⟨_, rfl, ?_, ?_, ?_⟩
    · rw [Cursor.seq_first]
      change 0 < ((e.pins.pin e.visible).pin e.visible).count e.visible
      rw [Pins.count_pin, if_pos rfl]
      exact Nat.succ_pos _
    · rw [Cursor.seq_first]
      exact UInt64.le_refl _
    · exact hr ▸ (Cursor.Stands.start e.table e.visible he.paged _ _).first

theorem Stands.grows (h : Stands l records n c e) {m : Nat} (hg : e.Grows m e') :
    Stands l records n c e' where
  layout := h.layout
  failure := h.failure
  cursor := by
    obtain ⟨k, hk, hp, hv, hs⟩ := h.cursor
    refine ⟨k, hk, Nat.lt_of_lt_of_le hp (hg.pins k.seq), ?_, hs.congr (hg.reads k.seq hp hv)⟩
    rw [UInt64.le_iff_toNat_le] at hv ⊢
    have := hg.visible
    omega

theorem skipForeign_eq_self {ε : Type} [Backend ε] {e : ε} {cursor : Backend.Cursor ε}
    (h : ∀ b, Backend.entry? cursor = some b → l.isRecordKey b.1 = true) (fuel : Nat) :
    Scan.skipForeign l e fuel cursor = cursor := by
  cases fuel with
  | zero => rfl
  | succ fuel =>
    unfold Scan.skipForeign
    split
    · rename_i hb
      rw [if_pos (h _ hb)]
    · rfl

section Advance

variable {s : Session Mounted} {k : Cursor}

theorem advance_eq_of_end (hf : c.failure = none) (hk : c.cursor = some k)
    (hskip : ∀ fuel, Scan.skipForeign c.layout s.engine fuel k = k) (hb : k.current = none) :
    c.advance s = ((false, { c with current := none, cursor := some k }), s) := by
  have he : Backend.entry? (ε := Mounted) k = none := hb
  rw [Scan.advance_of_open hf hk]
  dsimp only
  rw [hskip, he]

theorem advance_eq_of_record (hf : c.failure = none) (hk : c.cursor = some k)
    (hskip : ∀ fuel, Scan.skipForeign c.layout s.engine fuel k = k) {b : Binding}
    (hb : k.current = some b) {p : Peer} (hp : Peer.decode b.2 = .ok p)
    (hc : c.context.interruption? s.ambient = none) (hd : s.codec.decodeFailure = none) :
    c.advance s = ((true, { c with
      current := some p, cursor := some (k.next s.engine.engine.table) }), s.reach .decode) := by
  have he : Backend.entry? (ε := Mounted) k = some b := hb
  have hdec : s.codec.decode b.2 = .ok p := by
    rw [Codec.decode, hd, hp]
    rfl
  rw [Scan.advance_of_open hf hk]
  dsimp only
  rw [hskip, he, Context.check_eq_ok_iff.mpr hc]
  dsimp only
  rw [hdec]
  rfl

theorem Stands.advance (h : Stands l records n c s.engine.engine)
    (hp : ∀ p ∈ records, p.encode.length < 2 ^ 64)
    (hc : c.context.interruption? s.ambient = none) (hd : s.codec.decodeFailure = none) :
    let r := c.advance s
    (r.1.1, r.1.2.current) = (records[n]?.isSome, records[n]?) ∧
      Stands l records (n + 1) r.1.2 s.engine.engine ∧ r.2.engine = s.engine := by
  intro r
  obtain ⟨k, hk, hpin, hv, hs⟩ := h.cursor
  have hb : k.current = records[n]?.map (Peer.binding l) := by
    rw [hs.current, Option.bind_some, List.getElem?_map]
  have hskip (fuel : Nat) : Scan.skipForeign c.layout s.engine fuel k = k := by
    refine skipForeign_eq_self (fun b he => ?_) fuel
    obtain ⟨p, -, rfl⟩ := Option.map_eq_some_iff.mp (hb.symm.trans he)
    exact Layout.isRecordKey_iff.mpr (h.layout ▸ List.prefix_append _ _)
  cases hn : records[n]? with
  | none =>
    rw [hn] at hb
    -- At the end the cursor stays, and to stand there is to stand at every later position.
    have hnext : k.next s.engine.engine.table = k := by
      rw [Cursor.next, show k.current = none from hb]
    have hr : r = _ := advance_eq_of_end h.failure hk hskip hb
    rw [hr]
    exact ⟨rfl, ⟨h.layout, h.failure, k, rfl, hpin, hv, hnext ▸ hs.next⟩, rfl⟩
  | some p =>
    rw [hn] at hb
    have hr : r = _ := advance_eq_of_record h.failure hk hskip hb
      (Peer.decode_encode (hp p (List.mem_of_getElem? hn))) hc hd
    rw [hr]
    refine ⟨rfl, ⟨h.layout, h.failure, _, rfl, ?_, ?_, hs.next⟩, Session.engine_reach _ _⟩
    · rwa [Cursor.seq_next]
    · rwa [Cursor.seq_next]

end Advance

/-- The answers and records that a scan has given since it was opened, by advances with calls in
between. -/
inductive Walk (l : Layout) (scan : Scan Mounted) (opened : Session Mounted) :
    List Call → List (Bool × Option Peer) → Scan Mounted → Session Mounted → Prop where
  | start : Walk l scan opened [] [] scan opened
  | calls {later calls : List Call} {given : List (Bool × Option Peer)} {c : Scan Mounted}
      {s s' : Session Mounted} (before : Walk l scan opened later given c s)
      (between : Ran l Mounted.Rests s calls s') : Walk l scan opened (later ++ calls) given c s'
  | advance {later : List Call} {given : List (Bool × Option Peer)} {c : Scan Mounted}
      {s : Session Mounted} (before : Walk l scan opened later given c s)
      (undisturbed : c.context.interruption? s.ambient = none)
      (decodes : s.codec.decodeFailure = none) :
      Walk l scan opened later (given ++ [((c.advance s).1.1, (c.advance s).1.2.current)])
        (c.advance s).1.2 (c.advance s).2

/-- What a scan of `records` answers to `n` advances, and the records it gives. -/
def answers (records : List Peer) (n : Nat) : List (Bool × Option Peer) :=
  (List.range n).map fun i => (records[i]?.isSome, records[i]?)

theorem answers_succ (records : List Peer) (n : Nat) :
    answers records (n + 1) = answers records n ++ [(records[n]?.isSome, records[n]?)] := by
  rw [answers, List.range_succ, List.map_append]
  rfl

theorem Walk.stands {scan : Scan Mounted} {opened s : Session Mounted} {later : List Call}
    {given : List (Bool × Option Peer)} (h : Walk l scan opened later given c s)
    (he : opened.engine.engine.Sound) (hs : Stands l records 0 scan opened.engine.engine)
    (hp : ∀ p ∈ records, p.encode.length < 2 ^ 64)
    (hl : opened.engine.engine.visible.toNat + later.length < 2 ^ 64) :
    opened.engine.engine.Grows later.length s.engine.engine ∧
      Stands l records given.length c s.engine.engine ∧ given = answers records given.length := by
  induction h with
  | start => exact ⟨.refl he, hs, rfl⟩
  | calls before between ih =>
    rw [List.length_append] at hl ⊢
    obtain ⟨hg, hs, ha⟩ := ih (by omega)
    -- The pin of the cursor outlives the calls, so it goes on in the range it was opened on.
    have hb := between.grows hg.sound (by rw [hg.visible]; omega)
    exact ⟨hg.trans hb, hs.grows hb, ha⟩
  | advance before undisturbed decodes ih =>
    obtain ⟨hg, hs, ha⟩ := ih hl
    obtain ⟨hv, hs', he'⟩ := hs.advance hp undisturbed decodes
    rw [he', List.length_append, List.length_singleton, answers_succ, ← ha, ← hv]
    exact ⟨hg, hs', rfl⟩

/-- A scan opened after any calls on an empty store, with further calls made between its advances,
gives each identity stored when it was opened once, with the peer stored last under it by then, in
the order of kinds and then of ids as unsigned numbers. Then it gives nothing more, and it has not
failed. -/
theorem scan_yields_records {m : Mounted} (hm : m.Opened)
    (he : ∀ key, m.engine.get key = none) {s : Session Mounted}
    (hs : Ran l Mounted.Idle (.start m) calls s)
    (hp : ∀ c ∈ calls, c.peer.encode.length < 2 ^ 64)
    (hl : m.engine.visible.toNat + calls.length < 2 ^ 64) {ctx : Context}
    (hc : ctx.interruption? s.ambient = none) :
    ∃ scan opened records, (iterate l ctx).exec s = (.ok scan, opened) ∧
      records.Pairwise (fun p q => p.identity.Before q.identity) ∧
      (∀ p, p ∈ records ↔ latest calls p.identity = some p) ∧
      ∀ later given c s', Walk l scan opened later given c s' →
        m.engine.visible.toNat + calls.length + later.length < 2 ^ 64 →
        given = answers records given.length ∧ c.failure = none := by
  obtain ⟨hse, hv⟩ := hs.sound hm.sound.1 hl
  obtain ⟨records, hr, ho, hmem⟩ := exists_records (l := l) hse (hs.view_eq (.mounted l) he) hp
  obtain ⟨opened, hi, hpin⟩ := exec_iterate (l := l) hc
  have hpr : ∀ p ∈ records, p.encode.length < 2 ^ 64 := fun p h => by
    obtain ⟨c, hc, rfl⟩ := mem_of_latest ((hmem p).mp h)
    exact hp c hc
  refine ⟨_, opened, records, hi, ho, hmem, fun later given c s' hw hl' => ?_⟩
  have hso : opened.engine.engine.Sound := hpin ▸ (hse.withPins _).withPins _
  have hvo : opened.engine.engine.visible = s.engine.engine.visible := by
    rw [hpin]
    rfl
  obtain ⟨-, hst, ha⟩ := hw.stands hso (hpin ▸ stands_openedOn hse ctx hr) hpr (by
    rw [hvo, hv]
    exact hl')
  exact ⟨ha, hst.failure⟩

/-- A scan in pages of one, overtaken by a call that replaces the record that it gives next. -/
theorem scan_yields_records_overtaken :
    let ann : Peer := .new ⟨.user, 1⟩ 10 0
    let eve (hash : Int64) : Peer := .new ⟨.user, -5⟩ hash 0
    let calls : List Call := [⟨.background, eve 30, some "x"⟩, ⟨.background, ann, none⟩]
    ∃ m s, Mounted.load 1 .everyWrite 0 none = .ok m ∧ Ran .flat Mounted.Idle (.start m) calls s ∧
      ∃ scan opened records, (iterate .flat .background).exec s = (.ok scan, opened) ∧
        (∀ p, p ∈ records ↔ latest calls p.identity = some p) ∧
        ∃ given c s', Walk .flat scan opened [⟨.background, eve 31, none⟩] given c s' ∧
          given = [(true, some ann), (true, some (eve 30)), (false, none)] ∧
          given = answers records 3 ∧ c.failure = none := by
  intro ann eve calls
  let m : Mounted := ⟨⟨1, some (.start .everyWrite 0 .empty), .empty, 0, .empty⟩, .empty, 0⟩
  have hm : Mounted.load 1 .everyWrite 0 none = .ok m := rfl
  have hs : Ran .flat Mounted.Idle (.start m) calls _ :=
    (Ran.start.took (c := ⟨.background, eve 30, some "x"⟩) (by decide +kernel)).took
      (c := ⟨.background, ann, none⟩) (by decide +kernel)
  have hc (a : Ambient) : Context.background.interruption? a = none := rfl
  obtain ⟨scan, opened, records, hi, -, hr, hw⟩ := scan_yields_records (.load hm) (fun _ => rfl) hs
    (by decide +kernel) (by decide) (hc _)
  refine ⟨m, _, hm, hs, scan, opened, records, hi, hr, ?_⟩
  obtain ⟨_, hi', -⟩ := exec_iterate (l := .flat) (hc _)
  have hscan := Except.ok.inj (congrArg Prod.fst (hi.symm.trans hi'))
  have hopened := congrArg Prod.snd hi
  obtain ⟨given, c, s', hwalk, hgiven⟩ : ∃ given c s',
      Walk .flat scan opened [⟨.background, eve 31, none⟩] given c s' ∧
        given = [(true, some ann), (true, some (eve 30)), (false, none)] := by
    subst hscan hopened
    exact ⟨_, _, _, (((Walk.start.advance (by decide +kernel) (by decide +kernel)).calls
      (.took .start (c := ⟨.background, eve 31, none⟩) (by decide +kernel))).advance
      (by decide +kernel) (by decide +kernel)).advance (by decide +kernel) (by decide +kernel),
      by decide +kernel⟩
  obtain ⟨ha, hf⟩ := hw _ _ _ _ hwalk (by decide)
  refine ⟨given, c, s', hwalk, hgiven, ?_, hf⟩
  rwa [hgiven] at ha ⊢

end Store

end PeerBook
