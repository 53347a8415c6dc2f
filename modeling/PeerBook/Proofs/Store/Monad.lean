import PeerBook.Proofs.Context
import PeerBook.Store.Lookup
import PeerBook.Store.Write

/-! # Running store operations

An operation that is run after another goes on where that one succeeds, and
what both do is what one does after the other.
-/

namespace PeerBook

namespace StoreM

variable {ε α β : Type} {x : StoreM ε α} {f : α → StoreM ε β} {s s' : Session ε} {a : α} {b : β}

/-- What an operation gives in a session, and the session afterwards. -/
def exec (x : StoreM ε α) (s : Session ε) : Except StoreError α × Session ε :=
  x.run s

theorem exec_bind (x : StoreM ε α) (f : α → StoreM ε β) (s : Session ε) :
    (x >>= f).exec s = match x.exec s with
      | (.ok a, s') => (f a).exec s'
      | (.error err, s') => (.error err, s') := by
  change (match x.exec s with | (r, s') => ExceptT.bindCont f r s') = _
  rcases x.exec s with ⟨r, s'⟩
  cases r <;> rfl

theorem fst_bind (x : StoreM ε α) (f : α → StoreM ε β) (s : Session ε) :
    ((x >>= f).exec s).1 = (x.exec s).1 >>= fun a => ((f a).exec (x.exec s).2).1 := by
  rw [exec_bind]
  rcases x.exec s with ⟨r, s'⟩
  cases r <;> rfl

theorem exec_bind_of_ok (h : x.exec s = (.ok a, s')) : (x >>= f).exec s = (f a).exec s' := by
  rw [exec_bind, h]

theorem exec_lift (f : Session ε → α × Session ε) (s : Session ε) :
    (liftM (m := StateM (Session ε)) f : StoreM ε α).exec s = (.ok (f s).1, (f s).2) := rfl

/-- An operation that leaves the engine alone. -/
def KeepsEngine (x : StoreM ε α) : Prop :=
  ∀ s, (x.exec s).2.engine = s.engine

theorem KeepsEngine.bind (hx : x.KeepsEngine) (hf : ∀ a, (f a).KeepsEngine) :
    (x >>= f).KeepsEngine := by
  intro s
  have hs := hx s
  rw [exec_bind]
  rcases hxs : x.exec s with ⟨r, s'⟩
  rw [hxs] at hs
  cases r with
  | error err => exact hs
  | ok a => exact (hf a s').trans hs

theorem exec_of_isOk {x : StoreM ε Unit} (h : (x.exec s).1.isOk = true) :
    x.exec s = (.ok (), (x.exec s).2) := by
  rcases hx : x.exec s with ⟨r, s'⟩
  rw [hx] at h
  cases r with
  | error err => cases h
  | ok u => rfl

end StoreM

namespace Session

variable {ε α : Type}

@[simp] theorem engine_reach (point : CallPoint) (s : Session ε) :
    (s.reach point).engine = s.engine := by
  unfold reach
  split
  · split
    · split <;> rfl
    · rfl
  · rfl

@[simp] theorem codec_reach (point : CallPoint) (s : Session ε) :
    (s.reach point).codec = s.codec := by
  unfold reach
  split
  · split
    · split <;> rfl
    · rfl
  · rfl

theorem call_eq (point : CallPoint) (f : StateM ε α) (s : Session ε) :
    call point f s = ((f s.engine).1, { s.reach point with engine := (f s.engine).2 }) := by
  change ((f (s.reach point).engine).1,
    { s.reach point with engine := (f (s.reach point).engine).2 }) = _
  rw [engine_reach]

theorem reach_withEngine (point : CallPoint) (s : Session ε) (engine : ε) :
    { s with engine }.reach point = { s.reach point with engine } := by
  unfold reach
  dsimp only
  split
  · split
    · split <;> rfl
    · rfl
  · rfl

end Session

theorem StoreError.append_ok {α : Type} (r : Except StoreError α) : append r (.ok ()) = r := by
  cases r <;> rfl

theorem StoreError.exists_append_error {α : Type} (err : StoreError) (r : Except StoreError Unit) :
    ∃ err', append (.error err : Except StoreError α) r = .error err' := by
  cases r <;> exact ⟨_, rfl⟩

theorem Store.exec_check {ε : Type} (ctx : Context) (op : String) (s : Session ε) :
    (check ctx op).exec s = (ctx.check op s.ambient, s) := rfl

theorem Store.exec_openSnapshot {ε : Type} [Backend ε] (key : Bytes) (s : Session ε) :
    StoreM.exec (ExceptT.mk do
        return reading "snapshot" key
          (← Session.call .snapshot (Backend.openSnapshot (ε := ε)))) s =
      (reading "snapshot" key (Backend.openSnapshot s.engine).1,
        { s.reach .snapshot with engine := (Backend.openSnapshot s.engine).2 }) := by
  change (reading _ _ (Session.call .snapshot Backend.openSnapshot s).1,
    (Session.call .snapshot Backend.openSnapshot s).2) = _
  rw [Session.call_eq]

end PeerBook
