import PeerBook.Proofs.Rehearsal
import PeerBook.Proofs.Store.Read
import PeerBook.Proofs.Store.ScanLaw
import PeerBook.Proofs.Store.Write

/-! # What the outcome of an operation tells

An operation stops at the first thing that goes wrong. What it has opened by
then it releases, whatever becomes of it, and its outcome tells of everything
that went wrong, in the order in which it did.
-/

namespace PeerBook

open StoreM StoreError

/-- What goes wrong in an operation: the first thing that keeps it from opening what it uses, or
else the first thing that goes wrong while it is open, and then whatever goes wrong when it is
released. -/
def failures (before within releases : List (Option StoreError)) : List StoreError :=
  match before.findSome? id with
  | some err => [err]
  | none => (within.findSome? id).toList ++ releases.filterMap id

/-- What must be there is not. -/
def missing? : Option Bytes → Option StoreError
  | some _ => none
  | none => some .notFound

/-- What may go wrong is not made of others. -/
def Plain (o : Option StoreError) : Prop :=
  ∀ err, o = some err → err.isPlain = true

theorem isPlain_of_check {c : Context} {op : String} {a : Ambient} {err : StoreError}
    (h : c.check op a = .error err) : err.isPlain = true := by
  obtain rfl | rfl := Context.eq_or_eq_of_check h <;> rfl

@[simp] theorem plain_check (c : Context) (op : String) (a : Ambient) :
    Plain (failure? (c.check op a)) := by
  intro err h
  cases hc : c.check op a with
  | ok u =>
    rw [hc] at h
    cases h
  | error err' =>
    rw [hc] at h
    obtain rfl := Option.some.inj h
    exact isPlain_of_check hc

theorem plain_map {ξ : Type} {f : ξ → StoreError} (hf : ∀ source, (f source).isPlain = true)
    (o : Option ξ) : Plain (o.map f) := by
  intro err h
  obtain ⟨source, -, rfl⟩ := Option.map_eq_some_iff.mp h
  exact hf source

@[simp] theorem plain_missing? (o : Option Bytes) : Plain (missing? o) := by
  cases o <;> simp [Plain, missing?, isPlain]

@[simp] theorem plain_bind {α : Type} {o : Option α} {f : α → Option StoreError}
    (h : ∀ a, Plain (f a)) : Plain (o.bind f) := by
  intro err he
  obtain ⟨a, -, ha⟩ := Option.bind_eq_some_iff.mp he
  exact h a err ha

theorem plain_findSome? {os : List (Option StoreError)} (h : ∀ o ∈ os, Plain o) :
    Plain (os.findSome? id) := by
  intro err he
  obtain ⟨o, ho, hoe⟩ := List.exists_of_findSome?_eq_some he
  exact h o ho err hoe

theorem filterMap_singleton (o : Option StoreError) : [o].filterMap id = o.toList := by
  cases o <;> rfl

section Outcomes

variable {α : Type} {before within releases : List (Option StoreError)}

theorem reports_stopped {err : StoreError} (h : before.findSome? id = some err)
    (hp : err.isPlain = true) :
    Reports (.error err : Except StoreError α) (failures before within releases) := by
  rw [failures, h]
  exact reports_toList (o := some err) (fun _ he => Option.some.inj he ▸ hp) rfl

theorem reports_released (h : before.findSome? id = none) (hp : ∀ o ∈ within, Plain o)
    {r : Except StoreError α} (hr : failure? r = within.findSome? id)
    {r' : Except StoreError Unit} (hr' : Reports r' (releases.filterMap id)) :
    Reports (append r r') (failures before within releases) := by
  rw [failures, h]
  exact (reports_toList (plain_findSome? hp) hr).append hr'

theorem reports_release (resource : String) {e e' : Rehearsal} (h : e'.faults = e.faults)
    (f : Fault) (what : String) :
    Reports ((e'.guarded f what ()).mapError fun source => .release resource source)
      ((e.fault? f what).map (.release resource)).toList := by
  apply reports_toList (plain_map (fun _ => rfl) _)
  rw [failure?_mapError, Rehearsal.failure?_guarded, Rehearsal.fault?_congr h]

end Outcomes

namespace Store

def Call.failures (l : Layout) (c : Call) (s : Session Rehearsal) : List StoreError :=
  PeerBook.failures
    [failure? (c.context.check c.name s.ambient),
      (failure? (s.codec.encode c.peer)).map (.encoding c.peer.identity.toText)]
    [failure? (c.context.check "commit" ((s.reach .encode).reach .batch).ambient),
      (s.engine.fault? .commit "commit").map
        (.commit (l.describe (l.recordKey c.peer.identity)))]
    [(s.engine.fault? .batchClose "batch close").map (.release "batch")]

theorem faults_commitEntries (l : Layout) (ctx : Context) (b : List Binding) (key : Bytes)
    (ws : List Binding) (s : Session Rehearsal) :
    ((commitEntries (ε := Rehearsal) l ctx b key ws).exec s).2.engine.faults = s.engine.faults := by
  rw [exec_commitEntries]
  cases ctx.check "commit" s.ambient with
  | error err => rfl
  | ok u => exact Rehearsal.faults_commit _ _

theorem Call.reports_failures (l : Layout) (c : Call) (s : Session Rehearsal) :
    Reports ((c.perform l).exec s).1 (c.failures l s) := by
  rw [c.perform_eq_put, exec_put, Call.failures]
  cases hc : c.context.check c.name s.ambient with
  | error err => exact reports_stopped rfl (isPlain_of_check hc)
  | ok u =>
    cases he : s.codec.encode c.peer with
    | error source => exact reports_stopped rfl rfl
    | ok data =>
      dsimp only
      apply reports_released rfl
      · simpa using plain_map (fun _ => rfl) _
      · rw [exec_commitEntries]
        dsimp only
        cases c.context.check "commit" ((s.reach .encode).reach .batch).ambient with
        | error err => rfl
        | ok u =>
          have hb : (Backend.newBatch s.engine).2.fault? .commit "commit" =
              s.engine.fault? .commit "commit" := Rehearsal.fault?_congr rfl _ _
          rw [failure?_mapError, Rehearsal.failure?_commit, hb]
          cases s.engine.fault? .commit "commit" <;> rfl
      · rw [filterMap_singleton]
        exact reports_release "batch" (faults_commitEntries l _ _ _ _ _) _ _

def resolveFailures (l : Layout) (ctx : Context) (a : String) (s : Session Rehearsal) :
    List StoreError :=
  let e := s.engine
  let key := e.data.find? (aliasKey a)
  failures
    [failure? (ctx.check "resolve" s.ambient),
      (e.fault? .newSnapshot "snapshot").map
        (.read "snapshot" (Quoted.showBytes (aliasKey a)))]
    [(e.fault? .get "get").map (.read "get" (Quoted.showBytes (aliasKey a))),
      missing? key,
      failure? (ctx.check "resolve" ((s.reach .snapshot).reach .read).ambient),
      key.bind fun key => missing? (e.data.find? key),
      key.bind fun key => (e.data.find? key).bind fun data =>
        (failure? (s.codec.decode data)).map (.decoding (l.describe key))]
    [(e.fault? .snapshotClose "snapshot close").map (.release "snapshot")]

theorem failure?_follow (l : Layout) (ctx : Context) (data : SortedMap Bytes Bytes) (a : Bytes)
    (s : Session Rehearsal) :
    failure? ((follow (ε := Rehearsal) l ctx data a).exec s).1 =
      [(s.engine.fault? .get "get").map (.read "get" (Quoted.showBytes a)),
        missing? (data.find? a),
        failure? (ctx.check "resolve" (s.reach .read).ambient),
        (data.find? a).bind fun key => missing? (data.find? key),
        (data.find? a).bind fun key => (data.find? key).bind fun data =>
          (failure? (s.codec.decode data)).map (.decoding (l.describe key))].findSome? id := by
  have hread (key : Bytes) : Backend.read (ε := Rehearsal) s.engine data key =
      s.engine.guarded .get "get" (data.find? key) := rfl
  rw [fst_follow]
  simp only [hread, Rehearsal.guarded, Rehearsal.fault?]
  -- an engine that fails to read fails at the alias already
  cases s.engine.fails .get with
  | true => rfl
  | false =>
    cases data.find? a with
    | none => rfl
    | some key =>
      cases ctx.check "resolve" (s.reach .read).ambient with
      | error err => rfl
      | ok u =>
        cases hk : data.find? key with
        | none => simp [present, reading, missing?, hk, bind, Except.bind, Except.mapError]
        | some value =>
          cases hd : s.codec.decode value <;>
            simp [present, reading, missing?, hk, hd, bind, Except.bind, Except.mapError]

theorem reports_resolve (l : Layout) (ctx : Context) (a : String) (s : Session Rehearsal) :
    Reports ((resolve l ctx a).exec s).1 (resolveFailures l ctx a s) := by
  rw [exec_resolve, resolveFailures, ← Rehearsal.failure?_openSnapshot]
  cases hc : ctx.check "resolve" s.ambient with
  | error err => exact reports_stopped rfl (isPlain_of_check hc)
  | ok u =>
    dsimp only
    cases ho : (Backend.openSnapshot s.engine).1 with
    | error source => exact reports_stopped rfl rfl
    | ok data =>
      rw [Rehearsal.fst_openSnapshot, Rehearsal.guarded_eq_ok_iff] at ho
      obtain ⟨-, rfl⟩ := ho
      dsimp only
      apply reports_released rfl
      · simpa using ⟨plain_map (fun _ => rfl) _,
          plain_bind fun _ => plain_bind fun _ => plain_map (fun _ => rfl) _⟩
      · rw [failure?_follow, Session.reach_withEngine .read (s.reach .snapshot),
          Rehearsal.fault?_congr (Rehearsal.faults_openSnapshot s.engine)]
        dsimp only
        rw [Session.codec_reach]
      · rw [filterMap_singleton]
        refine reports_release "snapshot" ?_ _ _
        rw [keepsEngine_follow]
        exact Rehearsal.faults_openSnapshot _

/-- What goes wrong when a scan is opened. One that could be opened holds on to its snapshot. -/
def iterateFailures (l : Layout) (ctx : Context) (s : Session Rehearsal) : List StoreError :=
  let e := s.engine
  failures
    [failure? (ctx.check "iterate" s.ambient),
      (e.fault? .newSnapshot "snapshot").map
        (.read "snapshot" (Quoted.showBytes l.recordLead))]
    [(e.fault? .newCursor "iterator").map (.read "iterate" (Quoted.showBytes l.recordLead))]
    [(e.fault? .newCursor "iterator").bind fun _ =>
      (e.fault? .snapshotClose "snapshot close").map (.release "snapshot")]

theorem reports_iterate (l : Layout) (ctx : Context) (s : Session Rehearsal) :
    Reports ((iterate l ctx).exec s).1 (iterateFailures l ctx s) := by
  have hk (data : SortedMap Bytes Bytes) :
      s.engine.fault? .newCursor "iterator" =
        failure? (Backend.openCursor (ε := Rehearsal) data l.recordLead (Bytes.bound? l.recordLead)
          (Backend.openSnapshot s.engine).2).1 := by
    rw [Rehearsal.failure?_openCursor, Rehearsal.fault?_congr (Rehearsal.faults_openSnapshot _)]
  rw [exec_iterate_eq, iterateFailures, ← Rehearsal.failure?_openSnapshot]
  cases hc : ctx.check "iterate" s.ambient with
  | error err => exact reports_stopped rfl (isPlain_of_check hc)
  | ok u =>
    dsimp only
    cases (Backend.openSnapshot s.engine).1 with
    | error source => exact reports_stopped rfl rfl
    | ok data =>
      dsimp only
      rw [hk data]
      cases (Backend.openCursor (ε := Rehearsal) data l.recordLead (Bytes.bound? l.recordLead)
        (Backend.openSnapshot s.engine).2).1 with
      | ok cursor => exact reports_ok _
      | error source =>
        apply reports_released rfl
        · exact List.forall_mem_singleton.mpr (plain_map (fun _ => rfl) _)
        · rfl
        · rw [filterMap_singleton]
          exact reports_release "snapshot" ((Rehearsal.faults_openCursor _ _ _ _).trans
            (Rehearsal.faults_openSnapshot _)) _ _

end Store

namespace Scan

/-- What goes wrong when a scan is released. What it does not hold needs no release. -/
def releases (c : Scan Rehearsal) (e : Rehearsal) : List (Option StoreError) :=
  [c.cursor.bind fun _ => (e.fault? .cursorClose "iterator close").map (.release "iterator"),
    c.snapshot.bind fun _ => (e.fault? .snapshotClose "snapshot close").map (.release "snapshot")]

theorem reports_close (c : Scan Rehearsal) (s : Session Rehearsal) :
    Reports (c.close s).1.1 ((c.releases s.engine).filterMap id) := by
  rw [close_eq, releases, ← List.singleton_append, List.filterMap_append, filterMap_singleton,
    filterMap_singleton]
  dsimp only
  apply Reports.append
  · cases c.cursor with
    | none => exact reports_ok ()
    | some k => exact reports_release "iterator" rfl _ _
  · cases c.snapshot with
    | none => exact reports_ok ()
    | some o =>
      refine reports_release "snapshot" ?_ _ _
      cases c.cursor <;> rfl

/-- A scan is advanced, and what it gives is visited, until it gives nothing more. -/
inductive RunsOut {ε β : Type} [Backend ε] (visit : β → Peer → StateM (Session ε) β) :
    β → Scan ε → Session ε → (β × Scan ε) × Session ε → Prop
  | stop {b c s} (h : (c.advance s).1.1 = false) :
    RunsOut visit b c s ((b, (c.advance s).1.2), (c.advance s).2)
  | visit {b c s p r} (hm : (c.advance s).1.1 = true) (hp : (c.advance s).1.2.current = some p)
    (h : RunsOut visit (visit b p (c.advance s).2).1 (c.advance s).1.2
      (visit b p (c.advance s).2).2 r) : RunsOut visit b c s r

section RunsOut

variable {ε β : Type} [Backend ε] {visit : β → Peer → StateM (Session ε) β} {b : β} {c : Scan ε}
  {s : Session ε} {r : (β × Scan ε) × Session ε}

theorem RunsOut.holdsAs (h : RunsOut visit b c s r) : r.1.2.HoldsAs c := by
  induction h with
  | stop h => exact (advance_holdsAs _ _).1
  | visit hm hp h ih => exact ih.trans (advance_holdsAs _ _).1

theorem plain_advance (hp : Plain c.failure) (s : Session ε) :
    Plain (c.advance s).1.2.failure := by
  obtain ⟨k, -, ⟨h, -⟩ | ⟨-, err, hc, h⟩ | ⟨-, key, source, h⟩ | ⟨-, p, h⟩⟩ := c.advance_cases s
  · rw [h]
    exact hp
  · rw [h]
    exact fun _ he => Option.some.inj he ▸ isPlain_of_check hc
  · rw [h]
    exact fun _ he => Option.some.inj he ▸ rfl
  · rw [h]
    exact hp

theorem RunsOut.plain (h : RunsOut visit b c s r) (hp : Plain c.failure) :
    Plain r.1.2.failure := by
  induction h with
  | stop h => exact plain_advance hp _
  | visit hm hp' h ih => exact ih (plain_advance hp _)

theorem Stopped.runsOut (h : c.Stopped) (fuel : Nat) :
    RunsOut visit b c s (drainWithin visit (fuel + 1) b c s) := by
  have hm : (c.advance s).1.1 = false := congrArg Reply.more (h.reply s)
  rw [drainWithin_succ]
  dsimp only
  rw [hm]
  exact .stop hm

theorem Before.runsOut {E : ε → Prop} {l : Layout} {ctx : Context} {rs : List Binding}
    (h : Before E l ctx rs c) (hv : ∀ b p s, E s.engine → E (visit b p s).2.engine)
    (he : E s.engine) {fuel : Nat} (hl : rs.length < fuel) :
    RunsOut visit b c s (drainWithin visit fuel b c s) := by
  induction fuel generalizing rs b c s with
  | zero => cases hl
  | succ fuel ih =>
    obtain ⟨hr, hnext⟩ := h.advance he
    rw [drainWithin_succ]
    dsimp only
    rcases c.reply_cases s with ⟨p, hp⟩ | ⟨hm, -, -⟩
    · have hm : (c.advance s).1.1 = true := congrArg Reply.more hp
      have hc : (c.advance s).1.2.current = some p := congrArg Reply.current hp
      rw [hm, hc]
      refine .visit hm hc (ih (hnext (congrArg Reply.more hp)) (hv _ _ _ ?_) ?_)
      · rw [(advance_holdsAs c s).2]
        exact he
      · cases rs with
        | nil =>
          have := (congrArg Reply.more hp).symm.trans (congrArg Reply.more hr)
          cases this
        | cons b rs => exact Nat.lt_of_succ_lt_succ hl
    · have hm' : (c.advance s).1.1 = false := hm
      rw [hm']
      exact .stop hm'

end RunsOut

/-- A copied range suffices to tell how often a scan can be advanced. -/
theorem runsOut_drain {β : Type} (visit : β → Peer → StateM (Session Rehearsal) β) (b : β)
    (c : Scan Rehearsal) (s : Session Rehearsal) : RunsOut visit b c s (c.drain visit b s) := by
  unfold drain
  dsimp only
  cases hk : c.cursor with
  | none => exact (stopped_of_cursor hk).runsOut _
  | some k =>
    cases hf : c.failure with
    | some err => exact (stopped_of_failure hf).runsOut _
    | none =>
      have hb : Before (fun _ => True) c.layout c.context
          (k.rest.filter fun b => c.layout.isRecordKey b.1) c :=
        ⟨rfl, rfl, hf, k, k.rest, hk, Rehearsal.gives k, rfl⟩
      exact hb.runsOut (fun _ _ _ _ => trivial) trivial
        (Nat.lt_succ_of_le (List.length_filter_le _ _))

theorem releases_congr {c c' : Scan Rehearsal} (h : c'.HoldsAs c) (e : Rehearsal) :
    c'.releases e = c.releases e := by
  have hk : c'.cursor.isSome = c.cursor.isSome := h.cursor
  unfold releases
  rw [h.snapshot]
  cases hc : c.cursor <;> cases hc' : c'.cursor <;> simp_all

theorem reports_finish {β : Type} (visit : β → Peer → StateM (Session Rehearsal) β) (b : β)
    {c : Scan Rehearsal} (hp : Plain c.failure) (s : Session Rehearsal) :
    let r := c.drain visit b s
    Reports (c.finish visit b s).1.2 (failures [] [r.1.2.failure] (c.releases r.2.engine)) := by
  intro r
  have hr : RunsOut visit b c s r := runsOut_drain visit b c s
  rw [finish_eq]
  apply reports_released rfl
  · exact List.forall_mem_singleton.mpr (hr.plain hp)
  · change failure? (r.1.2.failure.elim (.ok ()) .error) = _
    cases r.1.2.failure <;> rfl
  · rw [← releases_congr hr.holdsAs]
    exact reports_close _ _

theorem plain_turn {c : Scan Rehearsal} (h : Plain c.failure) (t : Turn Rehearsal) :
    Plain (c.turn t).failure := by
  cases t with
  | advance s => exact plain_advance h s
  | close s =>
    rw [turn_close]
    exact h

theorem plain_after {c : Scan Rehearsal} (h : Plain c.failure) (ts : List (Turn Rehearsal)) :
    Plain (c.after ts).failure := by
  induction ts generalizing c with
  | nil => exact h
  | cons t ts ih => exact ih (plain_turn h t)

theorem after_holdsAs {c : Scan Rehearsal} {ts : List (Turn Rehearsal)}
    (h : ∀ t ∈ ts, t.isClose = false) : (c.after ts).HoldsAs c := by
  induction ts generalizing c with
  | nil => exact .refl c
  | cons t ts ih =>
    obtain ⟨ht, hts⟩ := List.forall_mem_cons.mp h
    cases t with
    | advance s => exact (ih hts).trans (advance_holdsAs c s).1
    | close s => cases ht

/-- To collect is to visit, with a list that what is visited is appended to. -/
theorem reports_collect {c : Scan Rehearsal} (hp : Plain c.failure) (s : Session Rehearsal) :
    let r := c.drain (fun peers p => pure (peers ++ [p])) [] s
    Reports (c.collect.exec s).1 (failures [] [r.1.2.failure] (c.releases s.engine)) := by
  intro r
  have hf := reports_finish (fun (peers : List Peer) p => pure (peers ++ [p])) [] hp s
  have he : r.2.engine = s.engine := (drain_holdsAs (fun _ _ _ => rfl) [] c s).2
  rw [← he]
  exact hf.congr (failure?_map _ _)

end Scan

namespace Store

/-- No failure gets lost, hidden or out of order: the outcome of every operation tells of all that
went wrong, in the order in which it did. -/
theorem failures_told (l : Layout) (ctx : Context) (s : Session Rehearsal) :
    (∀ c : Call, Reports ((c.perform l).exec s).1 (c.failures l s)) ∧
    (∀ a, Reports ((resolve l ctx a).exec s).1 (resolveFailures l ctx a s)) ∧
    Reports ((iterate l ctx).exec s).1 (iterateFailures l ctx s) ∧
    (∀ c s', (iterate l ctx).exec s = (.ok c, s') →
      (∀ ts t,
        let c' := c.after ts
        let r := c'.drain (fun peers p => pure (peers ++ [p])) [] t
        ((∀ x ∈ ts, x.isClose = false) → c'.cursor.isSome ∧ c'.snapshot.isSome) ∧
        Reports (c'.close t).1.1 (failures [] [] (c'.releases t.engine)) ∧
        Scan.RunsOut (fun peers p => pure (peers ++ [p])) [] c' t r ∧
        Reports (c'.collect.exec t).1 (failures [] [r.1.2.failure] (c'.releases t.engine))) ∧
      ∀ (β : Type) (visit : β → Peer → StateM (Session Rehearsal) β) b,
        let r := c.drain visit b s'
        let x := forEach l ctx visit b s
        Scan.RunsOut visit b c s' r ∧ x.1.1 = r.1.1 ∧
        Reports x.1.2 (failures [] [r.1.2.failure] (c.releases r.2.engine))) ∧
    ∀ e f g : StoreError, (e.combine f).combine g = e.combine (f.combine g) ∧
      (e.combine f).parts = e.parts ++ f.parts := by
  refine ⟨fun c => c.reports_failures l s, fun a => reports_resolve l ctx a s,
    reports_iterate l ctx s, fun c s' hi => ?_,
    fun e f g => ⟨combine_assoc e f g, parts_combine e f⟩⟩
  obtain ⟨-, o, k, -, -, hc⟩ := eq_opened_of_iterate hi
  have hp : Plain c.failure := by
    rw [hc]
    nofun
  constructor
  · intro ts t c' r
    refine ⟨fun hts => ?_, Scan.reports_close c' t, Scan.runsOut_drain _ _ _ _,
      Scan.reports_collect (Scan.plain_after hp ts) t⟩
    have hh : c'.HoldsAs c := Scan.after_holdsAs hts
    rw [hh.cursor, hh.snapshot, hc]
    exact ⟨rfl, rfl⟩
  · intro β visit b r x
    have hx : x = c.finish visit b s' := by
      change forEach l ctx visit b s = _
      rw [forEach_eq, hi]
    refine ⟨Scan.runsOut_drain _ _ _ _, ?_, ?_⟩
    · rw [hx, Scan.finish_eq]
    · rw [hx]
      exact Scan.reports_finish visit b hp s'

/-- An alias nobody has, and a value that is no record, on an engine that fails to release. -/
theorem failures_told_released :
    let r : Rehearsal := { Rehearsal.empty with
      data := .ofList [(Layout.flat.recordKey ⟨.user, 1⟩, [7])]
      faults := [.cursorClose, .snapshotClose] }
    let s : Session Rehearsal := .start r
    let snapshot : StoreError := .release "snapshot" (Rehearsal.injected "snapshot close")
    let iterator : StoreError := .release "iterator" (Rehearsal.injected "iterator close")
    ((resolve .flat .background "ghost").exec s).1 = .error (.multiple [.notFound, snapshot]) ∧
      (forEach .flat .background (fun n _ => pure (n + 1)) 0 s).1.2 = .error (.multiple
        [.decoding "user:1" ⟨"io error: unexpected end of file"⟩, iterator, snapshot]) := by
  intro r s snapshot iterator
  obtain ⟨-, hresolve, -, hscan, -⟩ := failures_told .flat .background s
  constructor
  · have hghost : r.data.find? (aliasKey "ghost") = none := by decide +kernel
    have hes : resolveFailures .flat .background "ghost" s = [.notFound, snapshot] := by
      simp only [resolveFailures]
      rw [show s.engine.data.find? (aliasKey "ghost") = none from hghost]
      rfl
    have h := hresolve "ghost"
    rw [hes] at h
    exact h.more (Nat.le_refl 2)
  · let range := r.range r.data Layout.flat.recordLead (Bytes.bound? Layout.flat.recordLead)
    let c : Scan Rehearsal := .opened .flat .background r.data ⟨range, range⟩
    obtain ⟨s', hi, hs, hcodec⟩ : ∃ s', (iterate .flat .background).exec s = (.ok c, s') ∧
        c.releases s'.engine = [some iterator, some snapshot] ∧ s'.codec = .working :=
      ⟨_, rfl, rfl, rfl⟩
    obtain ⟨hr, -, h⟩ := (hscan c s' hi).2 Nat (fun n _ => pure (n + 1)) 0
    have hreply : c.reply s' =
        .ended (some (.decoding "user:1" ⟨"io error: unexpected end of file"⟩)) := by
      have hlaw := (Rehearsal.gives ⟨range, range⟩).law .flat .background r.data
      have hhead : (range.filter fun b => Layout.flat.isRecordKey b.1)[0]? =
          some (Layout.flat.recordKey ⟨.user, 1⟩, [7]) := by decide +kernel
      have hbad : Codec.working.decode [7] = .error ⟨"io error: unexpected end of file"⟩ := by
        decide +kernel
      have hname : Layout.flat.describe (Layout.flat.recordKey ⟨.user, 1⟩) = "user:1" := by
        decide +kernel
      have hon : Context.background.interruption? s'.ambient = none := rfl
      refine (hlaw.gives [] (by simp) (by simp) s' trivial).trans ?_
      rw [List.length_nil, hhead]
      simp only [Scan.opened, Scan.replyTo, hon, hcodec, hbad, hname]
    generalize c.drain (fun n _ => pure (n + 1)) 0 s' = x at hr h
    clear_value c
    cases hr with
    | visit hm => cases hm.symm.trans (congrArg Scan.Reply.more hreply)
    | stop hm =>
      rw [(Scan.advance_holdsAs c s').2, hs] at h
      have hf : (c.advance s').1.2.failure = _ := congrArg Scan.Reply.failure hreply
      dsimp only at h
      rw [hf] at h
      exact h.more (Nat.le_of_ble_eq_true rfl)

end Store

end PeerBook
