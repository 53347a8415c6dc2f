import PeerBook.Proofs.Command.Answers

/-! # Assigning an alias

To assign an alias the command finds the peer of an identity and stores it
again, under its own aliases and one more. No record changes by that, and no
alias of other peers but those that the stored peer has itself.
-/

namespace PeerBook.Command

open Journal Store StoreM

variable {l : Layout} {calls : List Call} {log : Option LogFile} {m : Mounted} {clock : UInt64}
  {a : String} {k : Identity}

theorem eq_ok_of_confirmed {r : Except StoreError Unit} (h : (confirmed r).1 = ["OK"]) :
    r = .ok () := by
  cases r with
  | ok u => rfl
  | error err => cases h

theorem Mounts.assign (h : Mounts l calls m)
    (ok : (act l clock (.assign a k) (.start m)).1.1 = ["OK"]) :
    ∃ p, latest calls k = some p ∧
      let file := (act l clock (.assign a k) (.start m)).2.engine.file
      file.device = m.file.device ∧ Logs l (calls ++ [assignment a p]) file := by
  have hf := h.fst_find k
  have he := keepsEngine_find l .background k (.start m)
  rw [act_assign] at ok ⊢
  rcases hr : (find l .background k).exec (.start m) with ⟨r, s⟩
  rw [hr] at hf he ok
  cases r with
  | error err => cases ok
  | ok p =>
    have hl := h.leaves_perform (assignment a p) he
    dsimp only at hl
    rw [eq_ok_of_confirmed ok] at hl
    refine ⟨p, found_eq_ok_iff.mp hf.symm, ?_, hl⟩
    exact ((assignment a p).device_perform l s).trans (congrArg _ (congrArg _ he))

theorem latest_concat_self {c : Call} (h : latest calls c.peer.identity = some c.peer) :
    latest (calls ++ [c]) = latest calls := by
  funext i
  rw [latest_concat]
  split
  · rename_i hi
    rw [← hi, h]
  · rfl

/-- An alias is assigned to a peer that is stored. Afterwards every other alias answers as before,
but for the own aliases of that peer that another one had taken over: like the one assigned, all its
own aliases lead to the peer. What is found and what is listed stays as it was. -/
theorem assign_keeps_answers (h : Reached l log) {dataDir : String} {clock : UInt64} {a : String}
    {k : Identity} (ok : (run ⟨dataDir, l, .assign a k⟩ clock log).1.1 = ["OK"]) :
    let log' := (run ⟨dataDir, l, .assign a k⟩ clock log).2
    ∃ m p, mount clock log = .ok m ∧ ((find l .background k).exec (.start m)).1 = .ok p ∧
      ∀ (dataDir : String) (clock : UInt64),
        let told (action : Action) (log : Option LogFile) :=
          (run ⟨dataDir, l, action⟩ clock log).1
        (∀ b, b ≠ a → (b ∈ p.aliases → told (.resolve b) log = told (.find k) log) →
          told (.resolve b) log' = told (.resolve b) log) ∧
        (∀ b, b = a ∨ b ∈ p.aliases → told (.resolve b) log' = told (.find k) log) ∧
        (∀ i, told (.find i) log' = told (.find i) log) ∧
        told .list log' = told .list log := by
  intro log'
  obtain ⟨calls, hl⟩ := h.exists_logs
  obtain ⟨m, hm, hfile, hmounts⟩ := hl.mount clock
  rw [lines_run hm] at ok
  obtain ⟨p, hp, hdevice, hl'⟩ := hmounts.assign ok
  have hlog : log' = _ := log_run hm dataDir (.assign a k)
  have hk := identity_of_latest hp
  have ha : (assignment a p).aliases = p.aliases ++ [a] := rfl
  have hagree : Agree l calls (calls ++ [assignment a p]) log log' := by
    rw [hlog]
    refine ⟨hl, hl', ?_, latest_concat_self (hk ▸ hp)⟩
    exact (congrArg Prod.snd hdevice).trans (congrArg LogFile.syncs hfile)
  refine ⟨m, p, hm, (hmounts.fst_find k).trans (found_eq_ok_iff.mpr hp), ?_⟩
  intro dataDir clock
  have hown (b : String) (hb : b = a ∨ b ∈ p.aliases) :
      (run ⟨dataDir, l, .resolve b⟩ clock log').1 = (run ⟨dataDir, l, .find k⟩ clock log).1 := by
    apply hagree.resolve_eq_find
    rw [owner_concat, ha, if_pos (by simpa [or_comm] using hb), ← hk]
    rfl
  refine ⟨?_, hown, hagree.find_eq dataDir clock, hagree.list_eq dataDir clock⟩
  intro b hb hkept
  by_cases hm : b ∈ p.aliases
  · exact (hown b (.inr hm)).trans (hkept hm).symm
  · apply hagree.resolve_eq
    rw [owner_concat, ha, if_neg (by simp [hb, hm])]

/-- The first of two peers that share a name gets an alias, and with it the name that the second one
had taken over. The phone number of the second one stays its own. -/
theorem assign_keeps_answers_shared :
    let ann : Identity := ⟨.user, 1⟩
    let eve : Identity := ⟨.user, 2⟩
    let first := (run ⟨"peers", .scoped, .add ann 0 (some "ann") none ""⟩ 0 none).2
    let log := (run ⟨"peers", .scoped, .add eve 0 (some "ann") (some "+41") ""⟩ 0 first).2
    let log' := (run ⟨"peers", .scoped, .assign "x" ann⟩ 0 log).2
    let told (action : Action) (log : Option LogFile) := (run ⟨"peers", .scoped, action⟩ 0 log).1
    Reached .scoped log ∧ (run ⟨"peers", .scoped, .assign "x" ann⟩ 0 log).1.1 = ["OK"] ∧
      told (.resolve "x") log' = told (.find ann) log ∧
      told (.resolve "ann") log' = told (.find ann) log ∧
      told (.resolve "+41") log' = told (.resolve "+41") log ∧
      told (.find eve) log' = told (.find eve) log ∧ told .list log' = told .list log := by
  intro ann eve first log log' told
  have hann : Keeps .scoped _ first :=
    ((Keeps.fresh .scoped).add "peers" 0 ann 0 (some "ann") none "" (by decide +kernel)).2
  have heve : Keeps .scoped _ log :=
    (hann.add "peers" 0 eve 0 (some "ann") (some "+41") "" (by decide +kernel)).2
  have h : Reached .scoped log := (Reached.fresh.ran _ _ _).ran _ _ _
  clear_value log
  let p : Peer := (addition 0 ann 0 (some "ann") none "").peer
  have ok := (heve.assign "peers" 0 "x" ann (p := p) (by decide +kernel) (by decide +kernel)).1
  obtain ⟨m, p, hm, hfind, htold⟩ := assign_keeps_answers h ok
  obtain ⟨m', hm', -, hmounts⟩ := heve.logs.mount 0
  obtain rfl := Except.ok.inj (hm.symm.trans hm')
  obtain rfl := Except.ok.inj (hfind.symm.trans (hmounts.fst_find ann))
  obtain ⟨hothers, hown, hfind, hlist⟩ := htold "peers" 0
  have hn : "+41" ∉ Peer.aliases p := by decide
  exact ⟨h, ok, hown "x" (by decide), hown "ann" (by decide),
    hothers "+41" (by decide) (fun hm => absurd hm hn), hfind eve, hlist⟩

/-- Another alias than the one assigned can change hands. -/
theorem assign_takes_alias_back :
    let ann : Identity := ⟨.user, 1⟩
    let eve : Identity := ⟨.user, 2⟩
    let first := (run ⟨"peers", .scoped, .add ann 0 (some "ann") none ""⟩ 0 none).2
    let log := (run ⟨"peers", .scoped, .add eve 0 (some "ann") none ""⟩ 0 first).2
    let log' := (run ⟨"peers", .scoped, .assign "x" ann⟩ 0 log).2
    Reached .scoped log ∧ (run ⟨"peers", .scoped, .assign "x" ann⟩ 0 log).1.1 = ["OK"] ∧
      "ann" ≠ "x" ∧
      (run ⟨"peers", .scoped, .resolve "ann"⟩ 0 log).1 =
        (["user:2\thash=0\tusername=ann\tphone=-\tname=\"\""], .ok ()) ∧
      (run ⟨"peers", .scoped, .resolve "ann"⟩ 0 log').1 =
        (["user:1\thash=0\tusername=ann\tphone=-\tname=\"\""], .ok ()) := by
  intro ann eve first log log'
  have hann : Keeps .scoped _ first :=
    ((Keeps.fresh .scoped).add "peers" 0 ann 0 (some "ann") none "" (by decide +kernel)).2
  have heve : Keeps .scoped _ log :=
    (hann.add "peers" 0 eve 0 (some "ann") none "" (by decide +kernel)).2
  have h : Reached .scoped log := (Reached.fresh.ran _ _ _).ran _ _ _
  clear_value log
  let p : Peer := (addition 0 ann 0 (some "ann") none "").peer
  obtain ⟨ok, hassign⟩ :=
    heve.assign "peers" 0 "x" ann (p := p) (by decide +kernel) (by decide +kernel)
  have hb := heve.resolve "peers" 0 "ann"
  have ha := hassign.resolve "peers" 0 "ann"
  exact ⟨h, ok, by decide, hb.trans (congrArg₂ Prod.mk (by decide +kernel) rfl),
    ha.trans (congrArg₂ Prod.mk (by decide +kernel) rfl)⟩

end PeerBook.Command
