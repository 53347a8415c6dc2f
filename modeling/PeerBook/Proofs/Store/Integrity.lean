import PeerBook.Proofs.Store.Read
import PeerBook.Proofs.Store.Run

/-! # Aliases lead to records

Calls of one layout, failed ones among them, leave nothing but records under
the keys of their identities and aliases for records that are there. So an
alias that is there can be resolved, unless a read or a release fails or the
context is done.
-/

namespace PeerBook

/-- A read or a release that fails, or a context that is done. -/
def StoreError.isOutage : StoreError → Bool
  | .read _ _ _ | .release _ _ | .cancelled _ | .deadlineExceeded _ => true
  | _ => false

theorem Context.isOutage_of_check {c : Context} {op : String} {a : Ambient} {err : StoreError}
    (h : c.check op a = .error err) : err.isOutage = true := by
  obtain rfl | rfl := eq_or_eq_of_check h <;> rfl

/-- No read through a snapshot is told to fail. -/
def Rehearsal.Readable (r : Rehearsal) : Prop :=
  r.fails .newSnapshot = false ∧ r.fails .get = false ∧ r.fails .snapshotClose = false

instance (r : Rehearsal) : Decidable r.Readable :=
  inferInstanceAs (Decidable (_ ∧ _))

namespace Store

open StoreM

/-- Every key is the record key of an identity, with a record of this identity, or the key of an
alias, with the record key of an identity that has a record. -/
def Intact (l : Layout) (view : Bytes → Option Bytes) : Prop :=
  ∀ key value, view key = some value →
    (∃ i p, key = l.recordKey i ∧ Peer.decode value = .ok p ∧ p.identity = i) ∨
    ∃ a i, key = aliasKey a ∧ value = l.recordKey i ∧ view (l.recordKey i) ≠ none

/-- An alias stands for the key of a peer's record. -/
def LeadsTo (l : Layout) (view : Bytes → Option Bytes) (a : String) (p : Peer) : Prop :=
  view (aliasKey a) = some (l.recordKey p.identity) ∧
    ∃ data, view (l.recordKey p.identity) = some data ∧ Peer.decode data = .ok p

variable {l : Layout} {view : Bytes → Option Bytes} {a : String} {p : Peer}

theorem Intact.exists_leadsTo (h : Intact l view) (ha : view (aliasKey a) ≠ none) :
    ∃ p, LeadsTo l view a p := by
  obtain ⟨value, hv⟩ := Option.ne_none_iff_exists'.mp ha
  -- No key is both of a record and of an alias, so one of the two cases is out each time.
  obtain ⟨i, p, hk, -⟩ | ⟨-, i, -, rfl, hi⟩ := h _ _ hv
  · exact absurd hk (aliasKey_ne_recordKey a l i)
  · obtain ⟨data, hd⟩ := Option.ne_none_iff_exists'.mp hi
    obtain ⟨j, p, hk, hp, rfl⟩ | ⟨b, j, hk, -⟩ := h _ _ hd
    · obtain rfl := Layout.recordKey_inj hk
      exact ⟨p, hv, data, hd, hp⟩
    · exact absurd hk.symm (aliasKey_ne_recordKey b l i)

theorem intact_contents (l : Layout) {calls : List Call}
    (hp : ∀ c ∈ calls, c.peer.encode.length < 2 ^ 64) : Intact l (contents l calls).find? := by
  intro key value hv
  rcases recordKey_or_aliasKey (hv ▸ Option.some_ne_none value) with ⟨i, rfl⟩ | ⟨a, rfl⟩
  · rw [contents_recordKey] at hv
    obtain ⟨p, hi, rfl⟩ := Option.map_eq_some_iff.mp hv
    obtain ⟨c, hc, rfl⟩ := mem_of_latest hi
    exact .inl ⟨i, c.peer, rfl, Peer.decode_encode (hp c hc), identity_of_latest hi⟩
  · rw [contents_aliasKey] at hv
    obtain ⟨i, ho, rfl⟩ := Option.map_eq_some_iff.mp hv
    refine .inr ⟨a, i, rfl, rfl, ?_⟩
    rw [contents_recordKey, Ne, Option.map_eq_none_iff]
    exact latest_ne_none_of_owner ho

/-- Success with `a`, or an outage. -/
def OkOrOutage {α : Type} (r : Except StoreError α) (a : α) : Prop :=
  r = .ok a ∨ ∃ err, err.isOutage = true ∧ r = .error err

theorem OkOrOutage.bind {α β : Type} {r : Except StoreError α} {f : α → Except StoreError β}
    {a : α} {b : β} (h : OkOrOutage r a) (hf : OkOrOutage (f a) b) : OkOrOutage (r >>= f) b := by
  obtain rfl | ⟨err, he, rfl⟩ := h
  · exact hf
  · exact .inr ⟨err, he, rfl⟩

theorem okOrOutage_check (ctx : Context) (op : String) (a : Ambient) :
    OkOrOutage (ctx.check op a) () := by
  cases h : ctx.check op a with
  | ok u => exact .inl rfl
  | error err => exact .inr ⟨err, Context.isOutage_of_check h, rfl⟩

theorem okOrOutage_read {r : Except EngineError (Option Bytes)} {data : Bytes} (key : Bytes)
    (h : r = .ok (some data) ∨ ∃ err, r = .error err) :
    OkOrOutage (present (reading "get" key r)) data := by
  obtain rfl | ⟨err, rfl⟩ := h
  · exact .inl rfl
  · exact .inr ⟨_, rfl, rfl⟩

/-- An error that is an outage, perhaps with a failure to release the snapshot behind it. -/
def Outage (r : Except StoreError Peer) : Prop :=
  ∃ err, err.isOutage = true ∧
    (r = .error err ∨ ∃ source, r = .error (.multiple [err, .release "snapshot" source]))

theorem OkOrOutage.append {r : Except StoreError Peer} (h : OkOrOutage r p)
    (released : Except EngineError Unit) :
    let x := StoreError.append r (released.mapError fun source => .release "snapshot" source)
    x = .ok p ∨ Outage x := by
  obtain rfl | ⟨err, he, rfl⟩ := h
  · cases released with
    | ok u => exact .inl rfl
    | error source => exact .inr ⟨_, rfl, .inl rfl⟩
  · cases released with
    | ok u => exact .inr ⟨err, he, .inl rfl⟩
    | error source =>
      refine .inr ⟨err, he, .inr ⟨source, ?_⟩⟩
      cases err <;> first | rfl | cases he

section Resolve

variable {ε : Type} [Backend ε] {s : Session ε}

/-- A snapshot of an engine shows a view of it, where reading does not fail. -/
def Shows (e : ε) (view : Bytes → Option Bytes) : Prop :=
  ∀ o e', Backend.openSnapshot e = (.ok o, e') → ∀ key,
    Backend.read e' o key = .ok (view key) ∨ ∃ err, Backend.read e' o key = .error err

theorem okOrOutage_follow {o : Backend.Snapshot ε}
    (ho : ∀ key, Backend.read s.engine o key = .ok (view key) ∨
      ∃ err, Backend.read s.engine o key = .error err)
    (hc : s.codec.decodeFailure = none) (h : LeadsTo l view a p) (ctx : Context) :
    OkOrOutage ((follow l ctx o (aliasKey a)).exec s).1 p := by
  obtain ⟨ha, data, hd, hp⟩ := h
  rw [fst_follow_of_decodes l ctx o _ hc]
  refine (okOrOutage_read _ (ha ▸ ho _)).bind ((okOrOutage_check _ _ _).bind ?_)
  exact (okOrOutage_read _ (hd ▸ ho _)).bind (.inl (decoded_of_decode hp _))

theorem resolve_cases (hs : Shows s.engine view) (hc : s.codec.decodeFailure = none)
    (h : LeadsTo l view a p) (ctx : Context) :
    let x := ((resolve l ctx a).exec s).1
    x = .ok p ∨ Outage x := by
  intro x
  have hx := congrArg Prod.fst (exec_resolve l ctx a s)
  cases hk : ctx.check "resolve" s.ambient with
  | error err =>
    rw [hk] at hx
    exact .inr ⟨err, Context.isOutage_of_check hk, .inl hx⟩
  | ok u =>
    rw [hk] at hx
    rcases ho : Backend.openSnapshot s.engine with ⟨r, e⟩
    rw [ho] at hx
    cases r with
    | error source => exact .inr ⟨_, rfl, .inl hx⟩
    | ok o =>
      have hf := okOrOutage_follow (s := { s.reach .snapshot with engine := e }) (hs o e ho)
        ((congrArg _ (Session.codec_reach _ s)).trans hc) h ctx
      rw [show x = _ from hx]
      exact hf.append _

/-- The context is not done when resolving asks it, at first and between the two reads. -/
def Undisturbed (ctx : Context) (s : Session ε) : Prop :=
  ctx.interruption? s.ambient = none ∧
    ctx.interruption? ((s.reach .snapshot).reach .read).ambient = none

omit [Backend ε] in
instance (ctx : Context) (s : Session ε) : Decidable (Undisturbed ctx s) :=
  inferInstanceAs (Decidable (_ ∧ _))

theorem resolve_eq_ok {o : Backend.Snapshot ε} {e : ε}
    (ho : Backend.openSnapshot s.engine = (.ok o, e))
    (hr : ∀ key, Backend.read e o key = .ok (view key))
    (hk : (Backend.closeSnapshot o e).1 = .ok ()) (hc : s.codec.decodeFailure = none)
    (h : LeadsTo l view a p) {ctx : Context} (hx : Undisturbed ctx s) :
    ((resolve l ctx a).exec s).1 = .ok p := by
  obtain ⟨ha, data, hd, hp⟩ := h
  rw [fst_resolve_of_view ho hr hk hc, Context.check_eq_ok_iff.mpr hx.1,
    Context.check_eq_ok_iff.mpr hx.2, ha]
  change present (.ok (view (l.recordKey p.identity))) >>= decoded l _ = _
  rw [hd]
  exact decoded_of_decode hp _

end Resolve

theorem shows_rehearsal (r : Rehearsal) : Shows r r.data.find? := by
  intro o e ho key
  change (if r.fails .newSnapshot then _ else _) = _ at ho
  split at ho
  · cases ho
  · cases ho
    change Rehearsal.guarded _ _ _ _ = _ ∨ ∃ err, Rehearsal.guarded _ _ _ _ = _
    unfold Rehearsal.guarded
    split
    · exact .inr ⟨_, rfl⟩
    · exact .inl rfl

theorem shows_mounted {m : Mounted} (h : m.engine.Sound) : Shows m m.engine.get := by
  intro o e ho key
  cases ho
  exact .inl (read_openSnapshot h key)

theorem resolve_rehearsal_eq_ok {s : Session Rehearsal} (hf : s.engine.Readable)
    (hc : s.codec.decodeFailure = none) (h : LeadsTo l s.engine.data.find? a p) {ctx : Context}
    (hx : Undisturbed ctx s) : ((resolve l ctx a).exec s).1 = .ok p := by
  obtain ⟨hn, hg, hk⟩ := hf
  have hr (key : Bytes) : Rehearsal.guarded { s.engine with
      snapshots := s.engine.snapshots.opening } .get "get" (s.engine.data.find? key) =
      .ok (s.engine.data.find? key) := if_neg (Bool.eq_false_iff.mp hg)
  exact resolve_eq_ok (if_neg (Bool.eq_false_iff.mp hn)) hr (if_neg (Bool.eq_false_iff.mp hk))
    hc h hx

theorem resolve_mounted_eq_ok {s : Session Mounted} (he : s.engine.engine.Sound)
    (hc : s.codec.decodeFailure = none) (h : LeadsTo l s.engine.engine.get a p) {ctx : Context}
    (hx : Undisturbed ctx s) : ((resolve l ctx a).exec s).1 = .ok p :=
  resolve_eq_ok rfl (read_openSnapshot he) rfl hc h hx

/-- Whatever calls of one layout have been made on an empty engine, and wherever they have failed,
every key is that of a record or of an alias for a record that is there. So every alias that is
there leads to a peer: with a codec that decodes, to resolve it gives this peer or fails by an
outage, and gives the peer when the engine reads without fault and the context is not done. -/
theorem keys_stay_intact (l : Layout) {calls : List Call}
    (hp : ∀ c ∈ calls, c.peer.encode.length < 2 ^ 64) :
    (∀ (r : Rehearsal) (s : Session Rehearsal), (∀ key, r.data.find? key = none) →
      Ran l Rehearsal.Idle (.start r) calls s →
      let view := s.engine.data.find?
      Intact l view ∧
        ∀ a, view (aliasKey a) ≠ none → ∃ p, LeadsTo l view a p ∧
          (s.codec.decodeFailure = none → ∀ ctx,
            let x := ((resolve l ctx a).exec s).1
            (x = .ok p ∨ Outage x) ∧ (s.engine.Readable → Undisturbed ctx s → x = .ok p))) ∧
    ∀ (m : Mounted) (s : Session Mounted), m.Opened → (∀ key, m.engine.get key = none) →
      Ran l Mounted.Idle (.start m) calls s →
      let view := s.engine.engine.get
      Intact l view ∧
        ∀ a, view (aliasKey a) ≠ none → ∃ p, LeadsTo l view a p ∧
          (m.engine.visible.toNat + calls.length < 2 ^ 64 → s.codec.decodeFailure = none →
            ∀ ctx, let x := ((resolve l ctx a).exec s).1
            (x = .ok p ∨ Outage x) ∧ (Undisturbed ctx s → x = .ok p)) := by
  refine ⟨fun r s he hs => ?_, fun m s hm he hs => ?_⟩
  · intro view
    have hv : view = (contents l calls).find? := funext (hs.view_eq (.rehearsal l) he)
    have hi : Intact l view := hv ▸ intact_contents l hp
    refine ⟨hi, fun a ha => ?_⟩
    obtain ⟨p, h⟩ := hi.exists_leadsTo ha
    refine ⟨p, h, fun hc ctx => ⟨?_, fun hf hx => ?_⟩⟩
    · exact resolve_cases (shows_rehearsal s.engine) hc h ctx
    · exact resolve_rehearsal_eq_ok hf hc h hx
  · intro view
    have hv : view = (contents l calls).find? := funext (hs.view_eq (.mounted l) he)
    have hi : Intact l view := hv ▸ intact_contents l hp
    refine ⟨hi, fun a ha => ?_⟩
    obtain ⟨p, h⟩ := hi.exists_leadsTo ha
    refine ⟨p, h, fun hl hc ctx => ?_⟩
    have hse := (hs.sound hm.sound.1 hl).1
    exact ⟨resolve_cases (shows_mounted hse) hc h ctx, fun hx => resolve_mounted_eq_ok hse hc h hx⟩

/-- Between two calls that take effect, one with a failed release behind it, a call that is refused
by the engine or the codec. -/
theorem keys_stay_intact_refused :
    let ann : Peer := .new ⟨.user, 1⟩ 10 0
    let bob : Peer := .new ⟨.chat, -1⟩ 20 0
    let calls : List Call := [⟨.background, ann, some "x"⟩, ⟨.background, bob, some "y"⟩]
    (∃ s : Session Rehearsal, Ran .flat Rehearsal.Idle (.start .empty) calls s ∧
      Intact .flat s.engine.data.find? ∧
      ∃ p, LeadsTo .flat s.engine.data.find? "y" p ∧
        ((resolve .flat .background "y").exec s).1 = .ok p) ∧
    ∃ s : Session Mounted, Ran .flat Mounted.Idle (.start .volatile) calls s ∧
      Intact .flat s.engine.engine.get ∧
      ∃ p, LeadsTo .flat s.engine.engine.get "x" p ∧
        ((resolve .flat .background "x").exec s).1 = .ok p := by
  intro ann bob calls
  obtain ⟨hr, hm⟩ := keys_stay_intact .flat (show ∀ c ∈ calls, _ by decide +kernel)
  refine ⟨?_, ?_⟩
  · have hs : Ran .flat Rehearsal.Idle (.start .empty) calls _ :=
      ((((Ran.start.took (c := ⟨.background, ann, some "x"⟩) (by decide +kernel)).withFaults
        [.commit, .batchClose]).failed (c := ⟨.background, bob, some "x"⟩)
        (by decide +kernel)).withFaults [.batchClose]).took (c := ⟨.background, bob, some "y"⟩)
        (by decide +kernel)
    obtain ⟨hi, hl⟩ := hr .empty _ (fun _ => rfl) hs
    obtain ⟨p, hp, hx⟩ := hl "y" (by decide +kernel)
    exact ⟨_, hs, hi, p, hp, (hx rfl .background).2 (by decide +kernel) (by decide +kernel)⟩
  · have hs : Ran .flat Mounted.Idle (.start .volatile) calls _ :=
      ((((Ran.start.took (c := ⟨.background, ann, some "x"⟩) (by decide +kernel)).withCodec
        ⟨some "out of memory", none⟩).failed (c := ⟨.background, bob, some "x"⟩)
        (by decide +kernel)).withCodec .working).took (c := ⟨.background, bob, some "y"⟩)
        (by decide +kernel)
    obtain ⟨hi, hl⟩ := hm .volatile _ .volatile (fun _ => rfl) hs
    obtain ⟨p, hp, hx⟩ := hl "x" (by decide +kernel)
    exact ⟨_, hs, hi, p, hp, (hx (by decide) rfl .background).2 (by decide +kernel)⟩

end Store

end PeerBook
