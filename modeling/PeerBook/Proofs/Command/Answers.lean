import PeerBook.Proofs.Command.Directory

/-! # What commands tell

What a command shows is told from the calls that its data directory holds, and
from whether forcing the log to disk succeeds: a lookup shows the peer stored
last, a listing all of them. Directories of calls that lead to the same
records tell the same.
-/

namespace PeerBook.Command

open Journal Store StoreM

variable {l : Layout} {calls calls' : List Call} {log log' : Option LogFile} {m m' : Mounted}
  {clock : UInt64} {k : Identity}

def forced (f : LogFile) : Except StoreError Unit :=
  if f.syncs then .ok () else .error (.release "wal" (.io Appender.invalidArgument))

theorem Mounts.forced_eq (h : Mounts l calls m) (hr : m.Repinned m') :
    (m'.sync.1.mapError fun source => StoreError.release "wal" source) = forced m.file := by
  obtain ⟨pins, rfl⟩ := hr
  obtain ⟨es, last, -, hc⟩ := h.continued
  obtain ⟨w, hw, -⟩ := hc.appended
  unfold Mounted.sync Engine.sync Appender.sync forced
  dsimp only
  rw [hw]
  cases m.file.syncs <;> rfl

/-- A command that only reads prints its lines, unless forcing the log to disk fails. -/
theorem run_of_repinned (hm : mount clock log = .ok m) (h : Mounts l calls m) (action : Action)
    {lines : List String} (ha : (act l clock action (.start m)).1 = (lines, .ok ()))
    (hr : m.Repinned (act l clock action (.start m)).2.engine) (dataDir : String) :
    (run ⟨dataDir, l, action⟩ clock log).1 = (lines, forced m.file) := by
  have hs := h.forced_eq hr
  rw [run_of_mount hm]
  rcases hx : act l clock action (.start m) with ⟨r, s⟩
  rw [hx] at ha hs
  obtain rfl : r = (lines, .ok ()) := ha
  exact congrArg (Prod.mk lines) hs

def found (o : Option Peer) : Except StoreError Peer :=
  match o with
  | some p => .ok p
  | none => .error .notFound

theorem found_eq_ok_iff {o : Option Peer} {p : Peer} : found o = .ok p ↔ o = some p := by
  cases o <;> simp [found]

theorem snd_shown_found (o : Option Peer) : (shown (found o)).2 = .ok () := by
  cases o <;> rfl

theorem Mounts.fst_find (h : Mounts l calls m) (i : Identity) :
    ((find l .background i).exec (.start m)).1 = found (latest calls i) := by
  rw [Store.fst_find rfl]
  exact stored_recordKey h.get h.logs.length_encode_lt i

theorem Mounts.fst_resolve (h : Mounts l calls m) (a : String) :
    ((resolve l .background a).exec (.start m)).1 =
      found ((owner calls a).bind (latest calls)) := by
  have ha := (h.get _).trans (contents_aliasKey l calls a)
  rw [Store.fst_resolve rfl h.sound]
  change lookup m.engine (aliasKey a) >>= stored l m.engine = _
  cases ho : owner calls a with
  | none =>
    rw [lookup_of_none (ha.trans (congrArg _ ho))]
    rfl
  | some i =>
    rw [lookup_of_some (ha.trans (congrArg _ ho))]
    exact stored_recordKey h.get h.logs.length_encode_lt i

theorem run_find (hm : mount clock log = .ok m) (h : Mounts l calls m) (dataDir : String)
    (i : Identity) :
    (run ⟨dataDir, l, .find i⟩ clock log).1 =
      ((shown (found (latest calls i))).1, forced m.file) := by
  refine run_of_repinned hm h (.find i) ?_ (repinned_find l .background (.start m) i) dataDir
  rw [← snd_shown_found (latest calls i), ← h.fst_find]
  rfl

theorem run_resolve (hm : mount clock log = .ok m) (h : Mounts l calls m) (dataDir : String)
    (a : String) :
    (run ⟨dataDir, l, .resolve a⟩ clock log).1 =
      ((shown (found ((owner calls a).bind (latest calls)))).1, forced m.file) := by
  refine run_of_repinned hm h (.resolve a) ?_
    (repinned_resolve l .background (.start m) a) dataDir
  rw [← snd_shown_found ((owner calls a).bind (latest calls)), ← h.fst_resolve]
  rfl

theorem run_list (hm : mount clock log = .ok m) (h : Mounts l calls m) (dataDir : String)
    {peers : List Peer}
    (hd : (recordRange l m.engine).map (fun b => Peer.decode b.2) = peers.map .ok) :
    (run ⟨dataDir, l, .list⟩ clock log).1 =
      (peers.map Peer.line ++ ["(" ++ Numeral.natural peers.length ++ " peers)"],
        forced m.file) := by
  have hl : Lists l .background (.start m) peers :=
    lists_of_recordRange h.sound ⟨rfl, rfl, rfl⟩ hd
  have hl := hl.2 _ (fun lines p => lines ++ [p.line]) []
  have hf : peers.foldl (fun lines p => lines ++ [p.line]) [] = peers.map Peer.line := by
    rw [List.map_eq_flatMap]
    simp [← List.flatMap_def]
  rw [hf] at hl
  apply run_of_repinned hm h .list ?_ (repinned_list l clock (.start m))
  rw [act_list]
  dsimp only
  rw [hl]
  simp

/-- Two logs of calls that lead to the same records, on devices that are alike in whether they
confirm what they store. -/
structure Agree (l : Layout) (calls calls' : List Call) (log log' : Option LogFile) : Prop where
  logs : Logs l calls (log.getD .empty)
  logs' : Logs l calls' (log'.getD .empty)
  syncs : (log'.getD .empty).syncs = (log.getD .empty).syncs
  latest : Store.latest calls' = Store.latest calls

namespace Agree

variable (h : Agree l calls calls' log log') (dataDir : String) (clock : UInt64)
include h

theorem mount : ∃ m m', Command.mount clock log = .ok m ∧ Command.mount clock log' = .ok m' ∧
    Mounts l calls m ∧ Mounts l calls' m' ∧ forced m'.file = forced m.file := by
  obtain ⟨m, hm, hf, hmounts⟩ := h.logs.mount clock
  obtain ⟨m', hm', hf', hmounts'⟩ := h.logs'.mount clock
  refine ⟨m, m', hm, hm', hmounts, hmounts', ?_⟩
  rw [forced, forced, hf, hf', h.syncs]

theorem find_eq (i : Identity) :
    (run ⟨dataDir, l, .find i⟩ clock log').1 = (run ⟨dataDir, l, .find i⟩ clock log).1 := by
  obtain ⟨m, m', hm, hm', hs, hs', hf⟩ := h.mount clock
  rw [run_find hm hs, run_find hm' hs', h.latest, hf]

theorem resolve_eq {b : String} (hb : owner calls' b = owner calls b) :
    (run ⟨dataDir, l, .resolve b⟩ clock log').1 = (run ⟨dataDir, l, .resolve b⟩ clock log).1 := by
  obtain ⟨m, m', hm, hm', hs, hs', hf⟩ := h.mount clock
  rw [run_resolve hm hs, run_resolve hm' hs', h.latest, hb, hf]

theorem resolve_eq_find {b : String} (hb : owner calls' b = some k) :
    (run ⟨dataDir, l, .resolve b⟩ clock log').1 = (run ⟨dataDir, l, .find k⟩ clock log).1 := by
  obtain ⟨m, m', hm, hm', hs, hs', hf⟩ := h.mount clock
  rw [run_find hm hs, run_resolve hm' hs', h.latest, hb, hf]
  rfl

theorem list_eq :
    (run ⟨dataDir, l, .list⟩ clock log').1 = (run ⟨dataDir, l, .list⟩ clock log).1 := by
  obtain ⟨m, m', hm, hm', hs, hs', hf⟩ := h.mount clock
  obtain ⟨peers, hr, -, hmem⟩ := exists_records hs.sound hs.get hs.logs.length_encode_lt
  have hr' : recordRange l m'.engine = recordRange l m.engine := by
    refine SortedMap.eq_of_mem_iff (Table.pairwise_range ..) (Table.pairwise_range ..) fun b => ?_
    rw [mem_recordRange hs.sound, mem_recordRange hs'.sound, hs.get, hs'.get,
      contents_eq_some_iff, contents_eq_some_iff, h.latest]
  have hd : (recordRange l m.engine).map (fun b => Peer.decode b.2) = peers.map .ok := by
    rw [hr, List.map_map, List.map_inj_left]
    intro p hp
    obtain ⟨c, hc, rfl⟩ := mem_of_latest ((hmem p).mp hp)
    rw [Function.comp_apply, Peer.binding]
    exact Peer.decode_encode (hs.logs.length_encode_lt c hc)
  rw [run_list hm hs dataDir hd, run_list hm' hs' dataDir (hr' ▸ hd), hf]

end Agree

/-- A log of calls on a device that takes everything and confirms it. -/
structure Keeps (l : Layout) (calls : List Call) (log : Option LogFile) : Prop where
  logs : Logs l calls (log.getD .empty)
  reliable : (log.getD .empty).IsReliable

theorem Keeps.fresh (l : Layout) : Keeps l [] none :=
  ⟨.empty l, rfl, rfl⟩

theorem Keeps.add (h : Keeps l calls log) (dataDir : String) (clock : UInt64) (key : Identity)
    (accessHash : Int64) (username phone : Option String) (name : String)
    (hf : (Operation.batch
      ((addition clock key accessHash username phone name).writes l)).Fits) :
    let r := run ⟨dataDir, l, .add key accessHash username phone name⟩ clock log
    r.1.1 = ["OK"] ∧
      Keeps l (calls ++ [addition clock key accessHash username phone name]) r.2 := by
  intro r
  obtain ⟨m, hm, hfile, hmounts⟩ := h.logs.mount clock
  obtain ⟨hx, hl, hr⟩ := hmounts.perform_of_fits (hfile ▸ h.reliable) rfl hf (s := .start m) rfl rfl
  constructor
  · rw [lines_run hm, act_add]
    exact congrArg (fun r => (confirmed r).1) hx
  · rw [log_run hm, act_add]
    exact ⟨hl, hr⟩

theorem Keeps.assign (h : Keeps l calls log) (dataDir : String) (clock : UInt64) (a : String)
    (key : Identity) {p : Peer} (hp : latest calls key = some p)
    (hf : (Operation.batch ((assignment a p).writes l)).Fits) :
    let r := run ⟨dataDir, l, .assign a key⟩ clock log
    r.1.1 = ["OK"] ∧ Keeps l (calls ++ [assignment a p]) r.2 := by
  intro r
  obtain ⟨m, hm, hfile, hmounts⟩ := h.logs.mount clock
  have he := keepsEngine_find l .background key (.start m)
  have hw := codec_find l .background key (.start m)
  have hfind := (hmounts.fst_find key).trans (found_eq_ok_iff.mpr hp)
  have ha := act_assign l clock a key (.start m)
  rcases hs : (find l .background key).exec (.start m) with ⟨o, s⟩
  rw [hs] at he hw hfind ha
  obtain rfl : o = .ok p := hfind
  obtain ⟨hx, hl, hr⟩ := hmounts.perform_of_fits (hfile ▸ h.reliable) (c := assignment a p) rfl hf
    he hw
  constructor
  · rw [lines_run hm, ha]
    exact congrArg (fun r => (confirmed r).1) hx
  · rw [log_run hm, ha]
    exact ⟨hl, hr⟩

theorem Keeps.resolve (h : Keeps l calls log) (dataDir : String) (clock : UInt64) (a : String) :
    (run ⟨dataDir, l, .resolve a⟩ clock log).1 =
      ((shown (found ((owner calls a).bind (latest calls)))).1, .ok ()) := by
  obtain ⟨m, hm, hfile, hmounts⟩ := h.logs.mount clock
  rw [run_resolve hm hmounts, forced, hfile, h.reliable.2, if_pos rfl]

end PeerBook.Command
