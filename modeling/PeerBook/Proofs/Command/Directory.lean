import PeerBook.Command.Run
import PeerBook.Proofs.Engine.Reliable
import PeerBook.Proofs.Store.Listing
import PeerBook.Proofs.Store.Lookup

/-! # Data directories

Commands leave in a data directory the log of the calls that took effect. A
command opens an engine on it that holds what these calls wrote. If it makes a
call that succeeds, the log has one more entry; if the call fails, or if the
command only reads, the log stays as it was.
-/

namespace PeerBook

open Journal StoreM

/-- Nothing but pins changes. -/
def Mounted.Repinned (m m' : Mounted) : Prop :=
  ∃ pins, m' = { m with engine := { m.engine with pins } }

theorem Mounted.Repinned.refl (m : Mounted) : m.Repinned m :=
  ⟨m.engine.pins, rfl⟩

theorem Mounted.Repinned.trans {m m' m'' : Mounted} (h : m.Repinned m') (h' : m'.Repinned m'') :
    m.Repinned m'' := by
  obtain ⟨pins, rfl⟩ := h
  obtain ⟨pins', rfl⟩ := h'
  exact ⟨pins', rfl⟩

namespace Store

variable (l : Layout) (ctx : Context) (s : Session Mounted)

theorem repinned_find (i : Identity) : s.engine.Repinned ((find l ctx i).exec s).2.engine := by
  rw [keepsEngine_find]
  exact .refl _

theorem repinned_resolve (a : String) : s.engine.Repinned ((resolve l ctx a).exec s).2.engine := by
  rw [exec_resolve]
  cases ctx.check "resolve" s.ambient with
  | error err => exact .refl _
  | ok u =>
    dsimp only
    rw [show Backend.openSnapshot s.engine = (.ok s.engine.openSnapshot.1, s.engine.openSnapshot.2)
      from rfl]
    dsimp only
    rw [keepsEngine_follow]
    exact ⟨_, rfl⟩

theorem repinned_iterate : s.engine.Repinned ((iterate l ctx).exec s).2.engine := by
  rw [exec_iterate_eq]
  cases ctx.check "iterate" s.ambient with
  | error err => exact .refl _
  | ok u => exact ⟨_, rfl⟩

theorem repinned_close (c : Scan Mounted) : s.engine.Repinned (c.close s).2.engine := by
  rw [Scan.close_eq]
  cases c.cursor <;> cases c.snapshot <;> exact ⟨_, rfl⟩

theorem repinned_forEach {β : Type} {visit : β → Peer → StateM (Session Mounted) β}
    (hv : Scan.Spares visit) (b : β) :
    s.engine.Repinned (forEach l ctx visit b s).2.engine := by
  have hi := repinned_iterate l ctx s
  rw [forEach_eq]
  rcases hr : (iterate l ctx).exec s with ⟨_ | c, s'⟩
  · rwa [hr] at hi
  · rw [hr] at hi
    have hc := repinned_close (c.drain visit b s').2 (c.drain visit b s').1.2
    rw [(c.drain_holdsAs hv b s').2] at hc
    dsimp only
    rw [Scan.finish_eq]
    exact hi.trans hc

end Store

namespace Command

open Store

variable {l : Layout} {calls : List Call} {c : Call} {es : List Entry} {f : LogFile}
  {log : Option LogFile} {m : Mounted} {clock : UInt64}

/-- The entries that these calls write. -/
structure Entries (l : Layout) (calls : List Call) (es : List Entry) : Prop where
  fits : ∀ e ∈ es, e.Fits
  operations : es.map (·.operation) = calls.map fun c => .batch (c.writes l)

/-- A log of these calls. -/
def Logs (l : Layout) (calls : List Call) (f : LogFile) : Prop :=
  ∃ es, Entries l calls es ∧ f.bytes = frames es

theorem Entries.nil (l : Layout) : Entries l [] [] :=
  ⟨by simp, rfl⟩

theorem Entries.append (h : Entries l calls es) {calls' : List Call} {es' : List Entry}
    (h' : Entries l calls' es') : Entries l (calls ++ calls') (es ++ es') where
  fits := List.forall_mem_append.mpr ⟨h.fits, h'.fits⟩
  operations := by rw [List.map_append, List.map_append, h.operations, h'.operations]

theorem Entries.writes_eq (h : Entries l calls es) :
    Engine.writes es = calls.flatMap (·.writes l) := by
  have hw := congrArg (List.flatMap Operation.writes) h.operations
  rwa [List.flatMap_map, List.flatMap_map] at hw

theorem Logs.empty (l : Layout) : Logs l [] .empty :=
  ⟨[], .nil l, rfl⟩

theorem Logs.length_encode_lt (h : Logs l calls f) :
    ∀ c ∈ calls, c.peer.encode.length < 2 ^ 64 := by
  obtain ⟨es, h, -⟩ := h
  intro c hc
  have hm : .batch (c.writes l) ∈ es.map (·.operation) := h.operations ▸ List.mem_map_of_mem hc
  obtain ⟨e, he, ho⟩ := List.mem_map.mp hm
  apply (h.fits e he).length_value_lt (b := (l.recordKey c.peer.identity, c.peer.encode))
  rw [ho]
  exact List.mem_cons_self

/-- An engine that goes on behind the entries of calls, and has written more of them. -/
theorem Entries.logs {e : Engine} {last : UInt64} (h : Entries l calls es) {es' : List Entry}
    (hc : e.Continued f (es.map Entry.bytes) last es') {calls' : List Call}
    (h' : Entries l calls' es') : Logs l (calls ++ calls') f :=
  ⟨es ++ es', h.append h', hc.bytes.trans (by simp [frames, List.flatMap_def])⟩

def mount (clock : UInt64) (log : Option LogFile) : Except EngineError Mounted :=
  Mounted.load Settings.standard.pageSize Settings.standard.sync clock log

/-- An engine that holds what calls wrote, and goes on behind them in its log. -/
structure Mounts (l : Layout) (calls : List Call) (m : Mounted) : Prop where
  sound : m.engine.Sound
  get : ∀ key, m.engine.get key = (contents l calls).find? key
  continued : ∃ es last, Entries l calls es ∧
    m.engine.Continued m.file (es.map Entry.bytes) last []

theorem Mounts.logs (h : Mounts l calls m) : Logs l calls m.file := by
  obtain ⟨es, last, hes, hc⟩ := h.continued
  have hl := hes.logs hc (.nil l)
  rwa [List.append_nil] at hl

theorem Logs.mount (h : Logs l calls (log.getD .empty)) (clock : UInt64) :
    ∃ m, mount clock log = .ok m ∧ m.file = log.getD .empty ∧ Mounts l calls m := by
  obtain ⟨es, h, hb⟩ := h
  have hr := LogFile.recover_frames h.fits hb
  obtain ⟨e, he, -, hc, ht⟩ := Engine.load_splits (hb ▸ splits_frames h.fits)
    (show 0 < Settings.standard.pageSize by decide) Settings.standard.sync
  rw [hr] at he hc ht
  have hm : Command.mount clock log = .ok ⟨e, log.getD .empty, clock⟩ := by
    rw [Command.mount, Mounted.load, Engine.load_absent, he]
    rfl
  refine ⟨_, hm, rfl, (Mounted.Opened.load hm).sound.1, ?_, es, _, h, hc⟩
  intro key
  rw [Engine.get, ht, Engine.readLatest_replay, h.writes_eq]
  exact Option.or_none

/-- What a call leaves: a log with it if it succeeded, and the log as it was if it failed. -/
def Leaves {ε : Type} (l : Layout) (calls : List Call) (c : Call) (f : LogFile) :
    Except ε Unit → Prop
  | .ok () => Logs l (calls ++ [c]) f
  | .error _ => Logs l calls f

theorem Leaves.mapError {ε ε' : Type} {r : Except ε Unit} (h : Leaves l calls c f r)
    (g : ε → ε') : Leaves l calls c f (r.mapError g) := by
  cases r <;> exact h

theorem Leaves.exists_logs {ε : Type} {r : Except ε Unit} (h : Leaves l calls c f r) :
    ∃ calls', Logs l calls' f := by
  cases r <;> exact ⟨_, h⟩

theorem Mounts.leaves_commit (h : Mounts l calls m) (c : Call) :
    let r := m.commit ⟨c.writes l, false⟩
    Leaves l calls c r.2.file r.1.1 := by
  obtain ⟨es, last, hes, hc⟩ := h.continued
  rw [Mounted.commit_batch m (writes_ne_nil l c)]
  rcases hc.commit_cases m.clock (.batch (c.writes l)) with
    ⟨e', f', hk, hc'⟩ | ⟨err, e', f', hk, hc'⟩
  · rw [hk]
    exact hes.logs hc' ⟨hc'.fits, rfl⟩
  · rw [hk]
    have hl := hes.logs hc' (.nil l)
    rwa [List.append_nil] at hl

theorem Mounts.leaves_perform (h : Mounts l calls m) (c : Call) {s : Session Mounted}
    (hs : s.engine = m) :
    let x := (c.perform l).exec s
    Leaves l calls c x.2.engine.file x.1 := by
  intro x
  subst hs
  rcases c.perform_mounted l s with ⟨-, ⟨err, -, hr⟩, he⟩ | ⟨-, hx, he⟩
  · rw [show x.2.engine = _ from he]
    rcases hr with hr | ⟨source, hr⟩
    · rw [show x.1 = _ from hr]
      exact h.logs
    · rw [show x.1 = _ from hr]
      exact h.logs
  · rw [show x.2.engine = _ from he, show x.1 = _ from hx]
    exact (h.leaves_commit c).mapError _

theorem Mounts.perform_of_fits (h : Mounts l calls m) (hr : m.file.IsReliable)
    (hc : c.context = .background) (hf : (Operation.batch (c.writes l)).Fits)
    {s : Session Mounted} (hs : s.engine = m) (hw : s.codec = .working) :
    let x := (c.perform l).exec s
    x.1 = .ok () ∧ Logs l (calls ++ [c]) x.2.engine.file ∧ x.2.engine.file.IsReliable := by
  intro x
  have hl : Leaves l calls c x.2.engine.file x.1 := h.leaves_perform c hs
  have hd : x.2.engine.file.device = m.file.device := hs ▸ c.device_perform l s
  have hx : x.1 = .ok () := by
    have hk := (Mounted.commit_of_fits (.inr hr) (writes_ne_nil l c) hf).1
    rcases c.perform_mounted l s with ⟨hn, -⟩ | ⟨-, hx, -⟩
    · refine absurd ?_ hn
      rw [Call.Passes, hc, hw]
      exact ⟨rfl, rfl, rfl⟩
    · rw [show x.1 = _ from hx, hs, hk]
      rfl
  rw [hx] at hl
  exact ⟨hx, hl, LogFile.isReliable_iff.mpr (hd.trans (LogFile.isReliable_iff.mp hr))⟩

/-- The call of a command that adds a peer. -/
def addition (clock : UInt64) (key : Identity) (accessHash : Int64) (username phone : Option String)
    (name : String) : Call where
  context := .background
  peer := { Peer.new key accessHash clock with username, phone, displayName := name }
  extra := none

/-- The call of a command that has found the peer to which it assigns an alias. -/
def assignment (a : String) (p : Peer) : Call where
  context := .background
  peer := p
  extra := some a

theorem act_add (l : Layout) (clock : UInt64) (key : Identity) (accessHash : Int64)
    (username phone : Option String) (name : String) (s : Session Mounted) :
    act l clock (.add key accessHash username phone name) s =
      let x := ((addition clock key accessHash username phone name).perform l).exec s
      (confirmed x.1, x.2) := rfl

theorem act_assign (l : Layout) (clock : UInt64) (a : String) (key : Identity)
    (s : Session Mounted) :
    act l clock (.assign a key) s =
      match (find l .background key).exec s with
      | (.ok p, s') =>
        let x := ((assignment a p).perform l).exec s'
        (confirmed x.1, x.2)
      | (.error err, s') => (([], .error err), s') := by
  have hx : act l clock (.assign a key) s =
      let x := (find l .background key >>= fun p => (assignment a p).perform l).exec s
      (confirmed x.1, x.2) := rfl
  rw [hx, exec_bind]
  rcases (find l .background key).exec s with ⟨_ | p, s'⟩ <;> rfl

theorem act_list (l : Layout) (clock : UInt64) (s : Session Mounted) :
    act l clock .list s =
      let r := forEach l .background (fun lines p => pure (lines ++ [p.line])) [] s
      match r.1.2 with
      | .ok () =>
        ((r.1.1 ++ ["(" ++ Numeral.natural r.1.1.length ++ " peers)"], .ok ()), r.2)
      | .error err => ((r.1.1, .error err), r.2) := by
  simp only [act, bind, StateT.bind]
  rcases forEach l .background (fun lines p => pure (lines ++ [p.line])) [] s with
    ⟨⟨lines, _ | _⟩, s'⟩ <;> rfl

theorem repinned_list (l : Layout) (clock : UInt64) (s : Session Mounted) :
    s.engine.Repinned (act l clock .list s).2.engine := by
  have hv : Scan.Spares (ε := Mounted) fun (lines : List String) p => pure (lines ++ [p.line]) :=
    fun _ _ _ => rfl
  have hr := repinned_forEach l .background s hv []
  rw [act_list]
  dsimp only
  split
  · exact hr
  · exact hr

theorem run_of_mount (hm : mount clock log = .ok m) (dataDir : String) (action : Action) :
    run ⟨dataDir, l, action⟩ clock log =
      match act l clock action (.start m) with
      | ((lines, .error err), s) => ((lines, .error err), some s.engine.file)
      | ((lines, .ok ()), s) =>
        ((lines, s.engine.sync.1.mapError fun source => .release "wal" source),
          some s.engine.file) := by
  unfold run
  dsimp only
  rw [show Mounted.load _ _ clock log = _ from hm]
  rfl

theorem lines_run (hm : mount clock log = .ok m) (dataDir : String) (action : Action) :
    (run ⟨dataDir, l, action⟩ clock log).1.1 = (act l clock action (.start m)).1.1 := by
  rw [run_of_mount hm]
  rcases act l clock action (.start m) with ⟨⟨lines, _ | _⟩, s⟩ <;> rfl

theorem log_run (hm : mount clock log = .ok m) (dataDir : String) (action : Action) :
    (run ⟨dataDir, l, action⟩ clock log).2 =
      some (act l clock action (.start m)).2.engine.file := by
  rw [run_of_mount hm]
  rcases act l clock action (.start m) with ⟨⟨lines, _ | _⟩, s⟩ <;> rfl

/-- Whatever a command does, it leaves a log of calls. -/
theorem Mounts.logs_act (h : Mounts l calls m) (clock : UInt64) (action : Action) :
    ∃ calls', Logs l calls' (act l clock action (.start m)).2.engine.file := by
  have hk {m' : Mounted} (hr : m.Repinned m') : ∃ calls', Logs l calls' m'.file := by
    obtain ⟨pins, rfl⟩ := hr
    exact ⟨calls, h.logs⟩
  cases action with
  | add key accessHash username phone name =>
    rw [act_add]
    exact (h.leaves_perform (s := .start m) _ rfl).exists_logs
  | assign a key =>
    have he := keepsEngine_find l .background key (.start m)
    rw [act_assign]
    rcases hf : (find l .background key).exec (.start m) with ⟨_ | p, s⟩
    · rw [hf] at he
      exact hk (he ▸ .refl m)
    · rw [hf] at he
      exact (h.leaves_perform (assignment a p) he).exists_logs
  | find key => exact hk (repinned_find l .background (.start m) key)
  | resolve a => exact hk (repinned_resolve l .background (.start m) a)
  | list => exact hk (repinned_list l clock (.start m))

/-- The logs that commands of one layout leave, from none at all. In between the device may change
its mind on what it takes and on whether it confirms that it has stored it. -/
inductive Reached (l : Layout) : Option LogFile → Prop where
  | fresh : Reached l none
  | ran {log : Option LogFile} (before : Reached l log) (dataDir : String) (action : Action)
      (clock : UInt64) : Reached l (run ⟨dataDir, l, action⟩ clock log).2
  | device {f : LogFile} (before : Reached l (some f)) (room : Option Nat) (syncs : Bool) :
      Reached l (some { f with room, syncs })

theorem Reached.exists_logs (h : Reached l log) : ∃ calls, Logs l calls (log.getD .empty) := by
  induction h with
  | fresh => exact ⟨[], .empty l⟩
  | ran before dataDir action clock ih =>
    obtain ⟨calls, hl⟩ := ih
    obtain ⟨m, hm, -, h⟩ := hl.mount clock
    rw [log_run hm]
    exact h.logs_act clock action
  | device before room syncs ih => exact ih

end Command

end PeerBook
