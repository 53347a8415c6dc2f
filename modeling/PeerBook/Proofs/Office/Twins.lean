import Mathlib.Algebra.GroupWithZero.Nat
import Mathlib.Data.List.Perm.Basic
import PeerBook.Proofs.Office.Basic
import PeerBook.Proofs.Store.ScanAbreast

/-! # The same errands on two engines

Nobody can tell a store on the rehearsal engine from one on an engine that
held the same at first. Errand by errand the replies are the same, also those
of scans that stay open across writes, and no matter whether the cursors of
the rehearsal mind their bounds.
-/

namespace PeerBook

open Journal

/-- What an errand has the engine log fits. -/
def Errand.Fits (l : Layout) : Errand → Prop
  | .store c => (Operation.batch (c.writes l)).Fits
  | .set key value => (Operation.put key value).Fits
  | _ => True

instance (l : Layout) : DecidablePred (Errand.Fits l)
  | .store c => inferInstanceAs (Decidable (Operation.batch (c.writes l)).Fits)
  | .set key value => inferInstanceAs (Decidable (Operation.put key value).Fits)
  | .find .. | .resolve .. | .iterate _ | .advance _ | .current _ | .failure _ | .close _ | .drop _
  | .collect _ | .forEach .. | .ambient _ | .codec _ | .strike _ => .isTrue trivial

namespace Office

variable {o : Office Rehearsal} {q : Office Mounted}

/-- How many pins the scan in a place holds at a sequence number. -/
def holdsIn (c : Option (Scan Mounted)) (s : UInt64) : Nat :=
  c.elim 0 (·.holds s)

/-- How many pins all scans hold at a sequence number. -/
def holders (q : Office Mounted) (s : UInt64) : Nat :=
  (q.scans.map (holdsIn · s)).sum

/-- What a scan holds comes on top of what the others hold, whatever it becomes. -/
theorem holders_eq_add {i : Nat} {c : Scan Mounted} (h : q.scan? i = some c) :
    ∃ others : UInt64 → Nat, (∀ s, q.holders s = others s + c.holds s) ∧
      ∀ x session s, holders ⟨session, q.scans.set i x⟩ s = others s + holdsIn x s := by
  obtain ⟨hi, hc⟩ := List.getElem?_eq_some_iff.mp (Option.join_eq_some_iff.mp h)
  have hp (cs : List (Option (Scan Mounted))) (hj : i < cs.length) (s : UInt64) :
      (cs.map (holdsIn · s)).sum = ((cs.eraseIdx i).map (holdsIn · s)).sum + holdsIn cs[i] s := by
    rw [← ((List.getElem_cons_eraseIdx_perm hj).map _).sum_nat, List.map_cons, List.sum_cons,
      Nat.add_comm]
  refine ⟨fun s => ((q.scans.eraseIdx i).map (holdsIn · s)).sum, fun s => ?_, fun x session s => ?_⟩
  · rw [holders, hp q.scans hi, hc]
    rfl
  · rw [holders, hp _ (by simpa using hi), List.eraseIdx_set_eq, List.getElem_set_self]

theorem holders_concat (q : Office Mounted) (c : Scan Mounted) (session : Session Mounted)
    (s : UInt64) : holders ⟨session, q.scans ++ [some c]⟩ s = q.holders s + c.holds s := by
  simp [holders, holdsIn]

theorem holds_le_holders {i : Nat} {c : Scan Mounted} (h : q.scan? i = some c) (s : UInt64) :
    c.holds s ≤ q.holders s := by
  obtain ⟨others, ho, -⟩ := holders_eq_add h
  rw [ho]
  exact Nat.le_add_left _ _

/-- Two offices that hold the same and have scans alike in the same places. The engine of the one
is told to fail nowhere; the other one's pins what its scans read, and its log takes what fits. -/
structure Twins (o : Office Rehearsal) (q : Office Mounted) : Prop where
  level : o.session.Level q.session
  faultless : o.session.engine.Faultless
  get : ∀ key, o.session.engine.data.find? key = q.session.engine.engine.get key
  reliable : q.session.engine.IsReliable
  sound : q.session.engine.engine.Sound
  pinned : ∀ s, q.session.engine.engine.pins.count s = q.holders s
  visible : ∀ s, 0 < q.holders s → s ≤ q.session.engine.engine.visible
  length : o.scans.length = q.scans.length
  scans : ∀ i, Option.Rel (Scan.Alike q.session.engine.engine.table) (o.scan? i) (q.scan? i)

/-- Replies to an errand that are the same, and offices that are twins again. There was one commit
at most. -/
structure Follows (q : Office Mounted) (r : Reply × Office Rehearsal)
    (r' : Reply × Office Mounted) : Prop where
  reply : r.1 = r'.1
  twins : r.2.Twins r'.2
  visible : r'.2.session.engine.engine.visible.toNat ≤ q.session.engine.engine.visible.toNat + 1

namespace Twins

theorem start {m : Mounted} (hm : m.Opened) (hr : m.IsReliable) {data : SortedMap Bytes Bytes}
    (hd : ∀ key, data.find? key = m.engine.get key) :
    Twins (.start { Rehearsal.empty with data }) (.start m) where
  level := ⟨rfl, rfl, rfl⟩
  faultless f hf := by cases hf
  get := hd
  reliable := hr
  sound := hm.sound.1
  pinned s := by
    change m.engine.pins.count s = 0
    rw [hm.sound.2, Pins.count_empty]
  visible s hs := by cases hs
  length := rfl
  scans i := .none

theorem withFaults (h : o.Twins q) {faults : List Fault} (hf : ∀ f ∈ faults, f = .ignoreBounds) :
    (o.withFaults faults).Twins q :=
  ⟨⟨h.level.ambient, h.level.codec, h.level.strike⟩, hf, h.get, h.reliable, h.sound, h.pinned,
    h.visible, h.length, h.scans⟩

theorem still (h : o.Twins q) :
    Still q.session.engine q.holders o.session.engine q.session.engine :=
  ⟨h.faultless, h.get, _, rfl, h.pinned⟩

theorem keep (h : o.Twins q) {s : Session Rehearsal} {s' : Session Mounted}
    {cs : List (Option (Scan Rehearsal))} {cs' : List (Option (Scan Mounted))}
    {reply reply' : Reply} (hr : reply = reply') (hl : s.Level s')
    (hs : Still q.session.engine (holders ⟨s', cs'⟩) s.engine s'.engine)
    (hv : ∀ t, 0 < holders ⟨s', cs'⟩ t → t ≤ q.session.engine.engine.visible)
    (hn : cs.length = cs'.length)
    (hc : ∀ i, Option.Rel (Scan.Alike q.session.engine.engine.table) (scan? ⟨s, cs⟩ i)
      (scan? ⟨s', cs'⟩ i)) :
    Follows q (reply, ⟨s, cs⟩) (reply', ⟨s', cs'⟩) := by
  obtain ⟨s', ambient, codec, strike⟩ := s'
  obtain ⟨p, rfl, hp⟩ := hs.pins
  exact ⟨hr, ⟨hl, hs.faultless, hs.get, hs.reliable h.reliable, h.sound.withPins p, hp, hv, hn, hc⟩,
    Nat.le_succ _⟩

theorem keepScans (h : o.Twins q) {s : Session Rehearsal} {s' : Session Mounted}
    {reply reply' : Reply} (hr : reply = reply') (hl : s.Level s')
    (hs : Still q.session.engine q.holders s.engine s'.engine) :
    Follows q (reply, { o with session := s }) (reply', { q with session := s' }) :=
  h.keep hr hl hs h.visible h.length h.scans

theorem wrote (h : o.Twins q) (hn : q.session.engine.engine.Lasts) {ws : List Binding}
    {s : Session Rehearsal} {s' : Session Mounted} {reply reply' : Reply} (hr : reply = reply')
    (hl : s.Level s') (hw : Wrote q.session.engine q.holders ws s.engine s'.engine) :
    Follows q (reply, { o with session := s }) (reply', { q with session := s' }) := by
  obtain ⟨⟨e, file, clock⟩, ambient, codec, strike⟩ := s'
  obtain ⟨a, p, he, ha, hp⟩ := hw.engine
  rw [h.sound.nextSeq_eq] at he ha
  obtain rfl : e = _ := he
  have hlt := hn.lt_add_one
  -- what a scan reads is pinned and older than the commit, so it is neither pruned nor covered
  have hread (t : UInt64) (ht : 0 < q.holders t) (key : Bytes) :
      ({ q.session.engine.engine with appender := a, pins := p }.publish
        (q.session.engine.engine.visible + 1) ws).table.readAt key t =
      q.session.engine.engine.table.readAt key t := by
    refine Engine.readAt_publish _ ws key (Engine.floor_le ?_) ?_
    · exact (hp t).symm ▸ ht
    · exact UInt64.lt_of_le_of_lt (h.visible t ht) hlt
  refine ⟨hr, ⟨hl, hw.faultless, hw.get, hw.reliable, (h.sound.withPins p).publish hn ha ws, hp,
    fun t ht => UInt64.le_trans (h.visible t ht) (UInt64.le_of_lt hlt), h.length, fun i => ?_⟩,
    Nat.le_of_eq hn.toNat_add_one⟩
  have hi := h.scans i
  change Option.Rel _ (o.scan? i) (q.scan? i)
  generalize o.scan? i = x at hi ⊢
  generalize hy : q.scan? i = y at hi ⊢
  cases hi with
  | none => exact .none
  | some ha =>
    obtain ⟨left, hm⟩ := ha
    refine .some ⟨left, hm.congr fun t ht => hread t ?_⟩
    exact Nat.lt_of_lt_of_le ht (holds_le_holders hy t)

theorem perform (h : o.Twins q) (hn : q.session.engine.engine.Lasts) {l : Layout} {c : Store.Call}
    (hf : (Operation.batch (c.writes l)).Fits) :
    Follows q (o.step l (.store c)) (q.step l (.store c)) := by
  obtain ⟨hr, hl⟩ := StoreM.abreast_iff.mp (Store.perform_abreast h.reliable c hf) _ _ h.still
    h.level
  simp only [step]
  rcases hr.cases with ⟨err, hx, hy, hs⟩ | ⟨u, u', hx, hy, hw⟩
  · rw [hx, hy]
    exact h.keepScans rfl hl hs
  · rw [hx, hy]
    exact h.wrote hn rfl hl hw

theorem ask (h : o.Twins q) {α : Type} (reply : Except StoreError α → Reply)
    (x : StoreM Rehearsal α) (x' : StoreM Mounted α)
    (hx : StoreM.Abreast (Still q.session.engine q.holders) (Still q.session.engine q.holders)
      (Same (Still q.session.engine q.holders)) x x') :
    Follows q (reply (x.exec o.session).1, { o with session := (x.exec o.session).2 })
      (reply (x'.exec q.session).1, { q with session := (x'.exec q.session).2 }) := by
  obtain ⟨hr, hl⟩ := StoreM.abreast_iff.mp hx _ _ h.still h.level
  obtain ⟨hr, hs⟩ := agree_same.mp hr
  exact h.keepScans (congrArg reply hr) hl hs

theorem iterate (h : o.Twins q) (l : Layout) (ctx : Context) :
    Follows q (o.step l (.iterate ctx)) (q.step l (.iterate ctx)) := by
  obtain ⟨hr, hl⟩ := StoreM.abreast_iff.mp (Store.iterate_abreast (l := l) h.sound ctx) _ _ h.still
    h.level
  simp only [step]
  generalize (Store.iterate l ctx).exec o.session = x at hr hl ⊢
  generalize (Store.iterate l ctx).exec q.session = y at hr hl ⊢
  obtain ⟨x, s⟩ := x
  obtain ⟨y, s'⟩ := y
  rcases hr.cases with ⟨err, hx, hy, hs⟩ | ⟨c, c', hx, hy, ⟨hc, hv⟩, hs⟩
  · obtain rfl : x = _ := hx
    obtain rfl : y = _ := hy
    exact h.keepScans rfl hl hs
  · obtain rfl : x = _ := hx
    obtain rfl : y = _ := hy
    refine h.keep (congrArg Reply.opened h.length) hl (hs.congr fun t => ?_) (fun t ht => ?_)
      (by simp [h.length]) fun i => ?_
    · rw [holders_concat]
    · rw [holders_concat] at ht
      rcases Nat.add_pos_iff_pos_or_pos.mp ht with ht | ht
      · exact h.visible t ht
      · exact hv t ht
    · rw [scan?_concat, scan?_concat, h.length]
      split
      · exact .some hc
      · exact h.scans i

end Twins

/-- To scans that are alike two errands reply the same and leave them alike, with no more pins than
they had. -/
def AtScan.Abreast (f : AtScan Rehearsal) (f' : AtScan Mounted) : Prop :=
  ∀ (m₀ : Mounted) (h₀ : UInt64 → Nat) (c : Scan Rehearsal) (c' : Scan Mounted)
    (s : Session Rehearsal) (s' : Session Mounted), c.Alike m₀.engine.table c' →
    Still m₀ (fun t => h₀ t + c'.holds t) s.engine s'.engine → s.Level s' →
    let r := f c s
    let r' := f' c' s'
    r.1 = r'.1 ∧ Option.Rel (Scan.Alike m₀.engine.table) r.2.1 r'.2.1 ∧
      (∀ t, holdsIn r'.2.1 t ≤ c'.holds t) ∧
      Still m₀ (fun t => h₀ t + holdsIn r'.2.1 t) r.2.2.engine r'.2.2.engine ∧ r.2.2.Level r'.2.2

namespace AtScan.Abreast

theorem advance : Abreast advance advance := by
  rintro m₀ h₀ c c' s s' ⟨left, hm⟩ hs hl
  obtain ⟨hr, hl', hh, left', hm', -⟩ := hm.advance hl hs.table_eq
  refine ⟨congrArg Reply.moved hr, .some ⟨left', hm'⟩, fun t => Nat.le_of_eq (congrFun hh t), ?_,
    hl'⟩
  change Still m₀ (fun t => h₀ t + (c'.advance s').1.2.holds t) (c.advance s).2.engine
    (c'.advance s').2.engine
  rw [hh, (c.advance_holdsAs s).2, (c'.advance_holdsAs s').2]
  exact hs

theorem current : Abreast current current := by
  rintro m₀ h₀ c c' s s' ⟨left, hm⟩ hs hl
  exact ⟨congrArg Reply.current hm.current, .some ⟨left, hm⟩, fun t => Nat.le_refl _, hs, hl⟩

theorem failure : Abreast failure failure := by
  rintro m₀ h₀ c c' s s' ⟨left, hm⟩ hs hl
  exact ⟨congrArg Reply.failure hm.failure, .some ⟨left, hm⟩, fun t => Nat.le_refl _, hs, hl⟩

theorem close : Abreast close close := by
  rintro m₀ h₀ c c' s s' ⟨left, hm⟩ hs hl
  obtain ⟨⟨⟨hc, hc'⟩, hs'⟩, hl'⟩ := hm.close _ _ hs hl
  simp only [Office.close]
  generalize c.close s = x at hc hs' hl' ⊢
  generalize c'.close s' = y at hc' hs' hl' ⊢
  obtain ⟨x, s₁⟩ := x
  obtain ⟨y, s₁'⟩ := y
  obtain rfl : x = _ := hc
  obtain rfl : y = _ := hc'
  exact ⟨rfl, .some ⟨[], hm.closed⟩, fun t => Nat.zero_le _, hs', hl'⟩

theorem drop : Abreast drop drop := by
  rintro m₀ h₀ c c' s s' ⟨left, hm⟩ hs hl
  obtain ⟨⟨-, hs'⟩, hl'⟩ := hm.close _ _ hs hl
  exact ⟨rfl, .none, fun t => Nat.zero_le _, hs', hl'⟩

theorem collect : Abreast collect collect := by
  rintro m₀ h₀ c c' s s' ⟨left, hm⟩ hs hl
  obtain ⟨hr, hl'⟩ := hm.collect _ _ hs hl
  obtain ⟨hr, hs'⟩ := agree_same.mp hr
  exact ⟨congrArg Reply.peers hr, .none, fun t => Nat.zero_le _, hs', hl'⟩

end AtScan.Abreast

namespace Twins

theorem atScan (h : o.Twins q) (i : Nat) {f : AtScan Rehearsal} {f' : AtScan Mounted}
    (hf : AtScan.Abreast f f') : Follows q (o.atScan i f) (q.atScan i f') := by
  have hi := h.scans i
  unfold Office.atScan
  generalize hx : o.scan? i = x at hi
  generalize hy : q.scan? i = y at hi
  cases hi with
  | none => exact h.keepScans rfl h.level h.still
  | some ha =>
    rename_i c c'
    obtain ⟨others, hq, hset⟩ := holders_eq_add hy
    obtain ⟨hr, hc, hle, hs, hl⟩ := hf _ others c c' _ _ ha (h.still.congr hq) h.level
    refine h.keep hr hl (hs.congr fun t => (hset _ _ t).symm) (fun t ht => ?_)
      (by simp [h.length]) fun j => ?_
    · rw [hset] at ht
      refine h.visible t (Nat.lt_of_lt_of_le ht ?_)
      rw [hq]
      exact Nat.add_le_add_left (hle t) _
    · rw [scan?_set hx, scan?_set hy]
      split
      · exact hc
      · exact h.scans j

theorem step (h : o.Twins q) (hn : q.session.engine.engine.Lasts) {l : Layout} {e : Errand}
    (hf : e.Fits l) : Follows q (o.step l e) (q.step l e) := by
  cases e with
  | store c => exact h.perform hn hf
  | find ctx i =>
    exact h.ask .peer (Store.find l ctx i) (Store.find l ctx i) (Store.find_abreast ctx i)
  | resolve ctx a =>
    exact h.ask .peer (Store.resolve l ctx a) (Store.resolve l ctx a)
      (Store.resolve_abreast h.sound ctx a)
  | iterate ctx => exact h.iterate l ctx
  | advance i => exact h.atScan i .advance
  | current i => exact h.atScan i .current
  | failure i => exact h.atScan i .failure
  | close i => exact h.atScan i .close
  | drop i => exact h.atScan i .drop
  | collect i => exact h.atScan i .collect
  | forEach ctx meanwhile =>
    have hv (peers : List Peer) (p : Peer) : PeerBook.Abreast (fun _ _ => True)
        (fun a a' _ _ => a = a') (visit (ε := Rehearsal) meanwhile peers p)
        (visit (ε := Mounted) meanwhile peers p) :=
      fun s s' _ hl => ⟨rfl, congrArg (meanwhile p) hl.ambient, hl.codec, hl.strike⟩
    obtain ⟨⟨hr, hs⟩, hl⟩ := Store.forEach_abreast (l := l) h.sound ctx hv (fun _ _ _ => rfl)
      (fun _ _ _ => rfl) [] _ _ h.still h.level
    exact h.keepScans (congrArg (fun v => Reply.visited v.1 v.2) hr) hl hs
  | set key value =>
    obtain ⟨⟨hr, hw⟩, hl⟩ := Store.set_abreast h.reliable hf _ _ h.still h.level
    exact h.wrote hn (congrArg Reply.written hr) hl hw
  | ambient change =>
    exact h.keepScans rfl ⟨congrArg change h.level.ambient, h.level.codec, h.level.strike⟩ h.still
  | codec codec => exact h.keepScans rfl ⟨h.level.ambient, rfl, h.level.strike⟩ h.still
  | strike strike => exact h.keepScans rfl ⟨h.level.ambient, h.level.codec, rfl⟩ h.still

theorem rehearse_eq_run (h : o.Twins q) (l : Layout) {steps : List (List Fault × Errand)}
    (hf : ∀ step ∈ steps, ∀ f ∈ step.1, f = .ignoreBounds) (hs : ∀ step ∈ steps, step.2.Fits l)
    (hn : q.session.engine.engine.visible.toNat + steps.length < 2 ^ 64) :
    (o.rehearse l steps).1 = (q.run l (steps.map (·.2))).1 := by
  induction steps generalizing o q with
  | nil => rfl
  | cons a steps ih =>
    obtain ⟨hfa, hf⟩ := List.forall_mem_cons.mp hf
    obtain ⟨hsa, hs⟩ := List.forall_mem_cons.mp hs
    rw [List.length_cons] at hn
    have hl : q.session.engine.engine.Lasts := by
      rw [Engine.Lasts, UInt64.lt_iff_toNat_lt]
      change _ < 2 ^ 64 - 1
      omega
    have hw := (h.withFaults hfa).step hl hsa
    have hn' : (q.step l a.2).2.session.engine.engine.visible.toNat + steps.length < 2 ^ 64 := by
      have := hw.visible
      omega
    exact congrArg₂ List.cons hw.reply (ih hw.twins hf hs hn')

end Twins

/-- A store on the rehearsal engine, told to ignore bounds at most and that anew for each errand,
replies to any errands as one on an engine that held the same when it was opened, if what they
write fits and there are sequence numbers for it. -/
theorem rehearsed_eq_run (l : Layout) {m : Mounted} (hm : m.Opened) (hr : m.IsReliable)
    {data : SortedMap Bytes Bytes} (hd : ∀ key, data.find? key = m.engine.get key)
    {steps : List (List Fault × Errand)} (hf : ∀ step ∈ steps, ∀ f ∈ step.1, f = .ignoreBounds)
    (hs : ∀ step ∈ steps, step.2.Fits l)
    (hn : m.engine.visible.toNat + steps.length < 2 ^ 64) :
    ((start { Rehearsal.empty with data }).rehearse l steps).1 =
      ((start m).run l (steps.map (·.2))).1 :=
  (Twins.start hm hr hd).rehearse_eq_run l hf hs hn

/-- A scan of a cursor that ignores its bounds, and of one in pages of one, past an alias and over
a record that is replaced meanwhile. What cannot be decoded ends only a scan opened later. -/
theorem rehearsed_eq_run_paged :
    let ann : Peer := .new ⟨.user, 1⟩ 10 0
    let eve (hash : Int64) : Peer := .new ⟨.user, -5⟩ hash 0
    let steps : List (List Fault × Errand) :=
      [([], .store ⟨.background, eve 30, some "x"⟩), ([], .store ⟨.background, ann, none⟩),
        ([.ignoreBounds], .iterate .background), ([], .advance 0), ([], .current 0),
        ([.ignoreBounds], .store ⟨.background, eve 31, none⟩),
        ([], .set (Layout.flat.recordKey ⟨.user, 9⟩) [1]), ([], .advance 0), ([], .current 0),
        ([], .advance 0), ([], .close 0), ([], .forEach .background fun _ a => a)]
    ∃ m, Mounted.load 1 .everyWrite 0 none = .ok m ∧
      ((start Rehearsal.empty).rehearse .flat steps).1 =
        ((start m).run .flat (steps.map (·.2))).1 ∧
      (((start m).run .flat (steps.map (·.2))).1.map fun
        | .current p => p.toList
        | .visited peers _ => peers
        | _ => []) = [[], [], [], [], [ann], [], [], [], [eve 30], [], [], [ann]] := by
  intro ann eve steps
  let m : Mounted := ⟨⟨1, some (.start .everyWrite 0 .empty), .empty, 0, .empty⟩, .empty, 0⟩
  have hm : Mounted.load 1 .everyWrite 0 none = .ok m := rfl
  refine ⟨m, hm, ?_, by decide +kernel⟩
  exact rehearsed_eq_run .flat (.load hm) (.inr ⟨rfl, rfl⟩) (fun _ => rfl) (by decide +kernel)
    (by decide +kernel) (by decide +kernel)

end Office

end PeerBook
