import PeerBook.Proofs.Store.Scan

/-! # Scans that run to their end

A scan that nothing interrupts visits the records of its whole range, whatever
layouts they were stored under, and is released without an error. So it lists
what the values in its range stand for, in the order of their keys.
-/

namespace PeerBook

open StoreM

/-- Nothing keeps an operation from going on: nothing happens meanwhile, its context is not done,
and the codec decodes. -/
structure Session.Calm {ε : Type} (s : Session ε) (ctx : Context) : Prop where
  strike : s.strike = none
  context : ctx.interruption? s.ambient = none
  decodes : s.codec.decodeFailure = none

variable {ctx : Context} {s : Session Mounted}

theorem Session.reach_of_calm {ε : Type} {s : Session ε} (h : s.Calm ctx) (point : CallPoint) :
    s.reach point = s := by
  rw [reach, h.strike]

namespace Scan

variable {β : Type} {c : Scan Mounted} {k : Cursor} {entries : List Binding} {peers : List Peer}
  {n fuel : Nat}

theorem skipForeign_of_stands {l : Layout} {m : Mounted}
    (hst : k.Stands m.engine.table entries (some n))
    (hr : ∀ b ∈ entries, l.isRecordKey b.1 = true) (fuel : Nat) :
    skipForeign l m fuel k = k := by
  refine Store.skipForeign_eq_self (fun b hb => hr b ?_) fuel
  exact List.mem_of_getElem? (hst.current.symm.trans hb)

theorem drainWithin_eq (visit : β → Peer → β) (hs : s.Calm c.context) (hf : c.failure = none)
    (hk : c.cursor = some k) (hst : k.Stands s.engine.engine.table entries (some n))
    (hr : ∀ b ∈ entries, c.layout.isRecordKey b.1 = true)
    (hd : (entries.drop n).map (fun b => Peer.decode b.2) = peers.map .ok)
    (hl : peers.length < fuel) (b : β) :
    ∃ k', drainWithin (fun b p => pure (visit b p)) fuel b c s =
      ((peers.foldl visit b, { c with current := none, cursor := some k' }), s) := by
  -- the peers and the bindings that are left get used up together
  induction peers generalizing c k n fuel b with
  | nil =>
    obtain ⟨fuel, rfl⟩ := Nat.exists_eq_succ_of_ne_zero (Nat.ne_zero_of_lt hl)
    have hn : entries[n]? = none :=
      List.getElem?_eq_none (List.drop_eq_nil_iff.mp (List.map_eq_nil_iff.mp hd))
    rw [drainWithin_succ, Store.advance_eq_of_end hf hk (skipForeign_of_stands hst hr)
      (hst.current.trans hn)]
    exact ⟨k, rfl⟩
  | cons p peers ih =>
    obtain ⟨fuel, rfl⟩ := Nat.exists_eq_succ_of_ne_zero (Nat.ne_zero_of_lt hl)
    obtain ⟨e, rest, he, hp, hd⟩ := List.map_eq_cons_iff.mp hd
    have hn : entries[n]? = some e := by
      rw [← List.head?_drop, he]
      rfl
    have hrest : entries.drop (n + 1) = rest := by
      rw [← List.tail_drop, he, List.tail_cons]
    rw [drainWithin_succ, Store.advance_eq_of_record hf hk (skipForeign_of_stands hst hr)
      (hst.current.trans hn) hp hs.context hs.decodes, Session.reach_of_calm hs]
    exact ih (c := { c with current := some p, cursor := some _ }) hs hf rfl hst.next hr
      (hrest ▸ hd) (Nat.lt_of_succ_lt_succ hl) (visit b p)

theorem fst_finish (visit : β → Peer → β) (hs : s.Calm c.context) (hf : c.failure = none)
    (hk : c.cursor = some k) (hst : k.Stands s.engine.engine.table entries (some n))
    (hr : ∀ b ∈ entries, c.layout.isRecordKey b.1 = true)
    (hd : (entries.drop n).map (fun b => Peer.decode b.2) = peers.map .ok) (b : β) :
    (c.finish (fun b p => pure (visit b p)) b s).1 = (peers.foldl visit b, .ok ()) := by
  have hl : peers.length < k.remaining s.engine.engine.table + 1 := by
    have hle := hst.length_le
    have he := congrArg List.length hd
    rw [List.length_map, List.length_map, List.length_drop] at he
    rw [Cursor.remaining]
    omega
  obtain ⟨k', hx⟩ := drainWithin_eq visit hs hf hk hst hr hd hl b
  have hdrain : c.drain (fun b p => pure (visit b p)) b s =
      ((peers.foldl visit b, { c with current := none, cursor := some k' }), s) := by
    rw [← hx]
    unfold drain
    rw [hk]
    rfl
  rw [finish_eq, hdrain]
  dsimp only
  rw [close_eq]
  dsimp only
  rw [hf]
  cases c.snapshot <;> rfl

theorem fst_collect (hs : s.Calm c.context) (hf : c.failure = none)
    (hk : c.cursor = some k) (hst : k.Stands s.engine.engine.table entries (some n))
    (hr : ∀ b ∈ entries, c.layout.isRecordKey b.1 = true)
    (hd : (entries.drop n).map (fun b => Peer.decode b.2) = peers.map .ok) :
    (c.collect.exec s).1 = .ok peers := by
  have hx := fst_finish (fun (peers : List Peer) p => peers ++ [p]) hs hf hk hst hr hd []
  change Except.map (fun _ => (c.finish _ [] s).1.1) (c.finish _ [] s).1.2 = _
  rw [hx]
  simp [Except.map, ← List.flatMap_def]

end Scan

namespace Store

variable {l : Layout}

theorem exec_iterate_of_calm (l : Layout) (he : s.engine.engine.Sound) (hs : s.Calm ctx) :
    ∃ c k s', (iterate l ctx).exec s = (.ok c, s') ∧ s'.Calm c.context ∧ c.failure = none ∧
      c.layout = l ∧ c.cursor = some k ∧
      k.Stands s'.engine.engine.table (recordRange l s.engine.engine) (some 0) := by
  have hst := (Cursor.Stands.start s.engine.engine.table s.engine.engine.visible he.paged
    l.recordLead (Bytes.bound? l.recordLead)).first
  have hi := exec_iterate_eq l ctx s
  rw [Context.check_eq_ok_iff.mpr hs.context, Session.reach_of_calm hs,
    Session.reach_of_calm hs] at hi
  exact ⟨_, _, _, hi, ⟨hs.strike, hs.context, hs.decodes⟩, rfl, rfl, rfl, hst⟩

/-- A scan that is not interrupted gives these peers, whether they are collected or visited one
after another. -/
def Lists (l : Layout) (ctx : Context) (s : Session Mounted) (peers : List Peer) : Prop :=
  ((list l ctx).exec s).1 = .ok peers ∧
    ∀ (β : Type) (visit : β → Peer → β) (b : β),
      (forEach l ctx (fun b p => pure (visit b p)) b s).1 = (peers.foldl visit b, .ok ())

/-- Listed are the peers that the values in the range of the record keys stand for. -/
theorem lists_of_recordRange (he : s.engine.engine.Sound) (hs : s.Calm ctx) {peers : List Peer}
    (hd : (recordRange l s.engine.engine).map (fun b => Peer.decode b.2) = peers.map .ok) :
    Lists l ctx s peers := by
  have hr : ∀ b ∈ recordRange l s.engine.engine, l.isRecordKey b.1 = true := fun b hb =>
    Layout.isRecordKey_iff.mpr ((mem_recordRange he).mp hb).1
  obtain ⟨c, k, s', hi, hc, hf, rfl, hk, hst⟩ := exec_iterate_of_calm l he hs
  constructor
  · rw [list, exec_bind_of_ok hi]
    exact Scan.fst_collect hc hf hk hst hr hd
  · intro β visit b
    rw [forEach_eq, hi]
    exact Scan.fst_finish visit hc hf hk hst hr hd b

end Store

end PeerBook
