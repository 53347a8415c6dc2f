import PeerBook.Proofs.Store.Write

/-! # One operation on two engines

A store asks nothing of an engine but what every engine offers. So when two
engines answer alike at every call, an operation ends alike on both, and what
the contexts, the codec and the strikes do is the same.
-/

namespace PeerBook

variable {ε ε' α α' β β' : Type}

/-- Two sessions that differ in their engines at most. -/
structure Session.Level (s : Session ε) (s' : Session ε') : Prop where
  ambient : s.ambient = s'.ambient
  codec : s.codec = s'.codec
  strike : s.strike = s'.strike

namespace Session.Level

variable {s : Session ε} {s' : Session ε'}

theorem reach (h : s.Level s') (point : CallPoint) : (s.reach point).Level (s'.reach point) := by
  unfold Session.reach
  rw [h.strike]
  cases s'.strike with
  | none => exact h
  | some k =>
    dsimp only
    split
    · split
      · exact ⟨congrArg k.effect h.ambient, h.codec, rfl⟩
      · exact ⟨h.ambient, h.codec, rfl⟩
    · exact h

theorem withEngine (h : s.Level s') (e : ε) (e' : ε') :
    Session.Level { s with engine := e } { s' with engine := e' } :=
  ⟨h.ambient, h.codec, h.strike⟩

end Session.Level

/-- From level sessions with engines in `R`, two computations lead to level sessions with results
and engines in `S`. -/
def Abreast (R : ε → ε' → Prop) (S : α → α' → ε → ε' → Prop) (f : StateM (Session ε) α)
    (f' : StateM (Session ε') α') : Prop :=
  ∀ s s', R s.engine s'.engine → s.Level s' →
    S (f s).1 (f' s').1 (f s).2.engine (f' s').2.engine ∧ (f s).2.Level (f' s').2

/-- The same result, and engines in `R`. -/
def Same (R : ε → ε' → Prop) (a a' : α) (e : ε) (e' : ε') : Prop :=
  a = a' ∧ R e e'

/-- Both operations fail with the same error and leave engines in `E`, or both give results and
engines in `S`. -/
def Agree (E : ε → ε' → Prop) (S : α → α' → ε → ε' → Prop) :
    Except StoreError α → Except StoreError α' → ε → ε' → Prop
  | .error err, .error err', e, e' => err = err' ∧ E e e'
  | .ok a, .ok a', e, e' => S a a' e e'
  | _, _, _, _ => False

/-- Both releases succeed and leave engines in `R`. -/
def Released (R : ε → ε' → Prop) (r r' : Except StoreError Unit) (e : ε) (e' : ε') : Prop :=
  r = .ok () ∧ r' = .ok () ∧ R e e'

variable {R E E' : ε → ε' → Prop} {S S' : α → α' → ε → ε' → Prop} {T : β → β' → ε → ε' → Prop}

theorem agree_same {r r' : Except StoreError α} {e : ε} {e' : ε'} :
    Agree R (Same R) r r' e e' ↔ r = r' ∧ R e e' := by
  cases r <;> cases r' <;> simp [Agree, Same]

theorem Agree.cases {r : Except StoreError α} {r' : Except StoreError α'} {e : ε} {e' : ε'}
    (h : Agree E S r r' e e') :
    (∃ err, r = .error err ∧ r' = .error err ∧ E e e') ∨
      ∃ a a', r = .ok a ∧ r' = .ok a' ∧ S a a' e e' := by
  cases r with
  | error err =>
    cases r' with
    | error err' => exact .inl ⟨err, rfl, congrArg _ h.1.symm, h.2⟩
    | ok a' => exact h.elim
  | ok a =>
    cases r' with
    | error err' => exact h.elim
    | ok a' => exact .inr ⟨a, a', rfl, rfl, h⟩

namespace Abreast

theorem pure {a : α} {a' : α'} (h : ∀ e e', R e e' → S a a' e e') :
    Abreast R S (Pure.pure a) (Pure.pure a') :=
  fun _ _ hr hl => ⟨h _ _ hr, hl⟩

theorem bind {f : StateM (Session ε) α} {f' : StateM (Session ε') α'}
    {g : α → StateM (Session ε) β} {g' : α' → StateM (Session ε') β'} (hf : Abreast R S f f')
    (hg : ∀ a a', Abreast (S a a') T (g a) (g' a')) : Abreast R T (f >>= g) (f' >>= g') := by
  intro s s' hr hl
  obtain ⟨hs, hl'⟩ := hf s s' hr hl
  exact hg _ _ _ _ hs hl'

theorem quietly {f : StateM ε α} {f' : StateM ε' α'}
    (h : ∀ e e', R e e' → S (f e).1 (f' e').1 (f e).2 (f' e').2) :
    Abreast R S (Session.quietly f) (Session.quietly f') :=
  fun _ _ hr hl => ⟨h _ _ hr, hl.withEngine _ _⟩

theorem call (point : CallPoint) {f : StateM ε α} {f' : StateM ε' α'}
    (h : ∀ e e', R e e' → S (f e).1 (f' e').1 (f e).2 (f' e').2) :
    Abreast R S (Session.call point f) (Session.call point f') := by
  intro s s' hr hl
  rw [Session.call_eq, Session.call_eq]
  exact ⟨h _ _ hr, (hl.reach point).withEngine _ _⟩

theorem ask (point : CallPoint) {f : ε → α} {f' : ε' → α'}
    (h : ∀ e e', R e e' → S (f e) (f' e') e e') :
    Abreast R S (Session.ask point f) (Session.ask point f') := by
  intro s s' hr hl
  refine ⟨?_, hl.reach point⟩
  rw [← Session.engine_reach point s, ← Session.engine_reach point s'] at hr
  exact h _ _ hr

theorem decode (data : Bytes) : Abreast R (Same R) (Session.decode data) (Session.decode data) := by
  intro s s' hr hl
  have hl' := hl.reach .decode
  refine ⟨⟨?_, ?_⟩, hl'⟩
  · change (s.reach .decode).codec.decode data = (s'.reach .decode).codec.decode data
    rw [hl'.codec]
  · rw [← Session.engine_reach .decode s, ← Session.engine_reach .decode s'] at hr
    exact hr

theorem encode (p : Peer) :
    Abreast R (fun r r' e e' => r = r' ∧ (∀ data, r = .ok data → data = p.encode) ∧ R e e')
      (Session.encode p) (Session.encode p) := by
  intro s s' hr hl
  have hl' := hl.reach .encode
  refine ⟨⟨?_, fun data hd => ?_, ?_⟩, hl'⟩
  · change (s.reach .encode).codec.encode p = (s'.reach .encode).codec.encode p
    rw [hl'.codec]
  · change (s.reach .encode).codec.encode p = .ok data at hd
    exact (Codec.encode_eq_ok_iff.mp hd).2.symm
  · rw [← Session.engine_reach .encode s, ← Session.engine_reach .encode s'] at hr
    exact hr

theorem given {P : Prop} {f : StateM (Session ε) α} {f' : StateM (Session ε') α'}
    (h : P → Abreast R S f f') : Abreast (fun e e' => P ∧ R e e') S f f' :=
  fun s s' hr hl => h hr.1 s s' hr.2 hl

end Abreast

namespace StoreM

/-- From level sessions with engines in `R`, two operations fail alike with engines in `E` or give
results and engines in `S`. -/
def Abreast (R E : ε → ε' → Prop) (S : α → α' → ε → ε' → Prop) (x : StoreM ε α)
    (x' : StoreM ε' α') : Prop :=
  PeerBook.Abreast R (Agree E S) x.run x'.run

theorem abreast_iff {x : StoreM ε α} {x' : StoreM ε' α'} :
    Abreast R E S x x' ↔ ∀ s s', R s.engine s'.engine → s.Level s' →
      Agree E S (x.exec s).1 (x'.exec s').1 (x.exec s).2.engine (x'.exec s').2.engine ∧
        (x.exec s).2.Level (x'.exec s').2 :=
  .rfl

namespace Abreast

variable {x : StoreM ε α} {x' : StoreM ε' α'} {f : α → StoreM ε β} {f' : α' → StoreM ε' β'}

theorem bind (hx : Abreast R E S x x') (hf : ∀ a a', Abreast (S a a') E T (f a) (f' a')) :
    Abreast R E T (x >>= f) (x' >>= f') := by
  change PeerBook.Abreast R (Agree E T) (x.run >>= ExceptT.bindCont f)
    (x'.run >>= ExceptT.bindCont f')
  refine .bind hx fun r r' s s' h hl => ?_
  rcases h.cases with ⟨err, rfl, rfl, he⟩ | ⟨a, a', rfl, rfl, ha⟩
  · exact ⟨⟨rfl, he⟩, hl⟩
  · exact hf a a' s s' ha hl

theorem bindSame {y : StoreM ε α} {y' : StoreM ε' α} {g : α → StoreM ε β} {g' : α → StoreM ε' β'}
    (hy : Abreast R E (Same R) y y') (hg : ∀ a, Abreast R E T (g a) (g' a)) :
    Abreast R E T (y >>= g) (y' >>= g') := by
  refine bind hy fun a a' => ?_
  rintro s s' ⟨rfl, hr⟩
  exact hg a s s' hr

theorem lift {f : StateM (Session ε) α} {f' : StateM (Session ε') α'}
    (hf : PeerBook.Abreast R S f f') : Abreast R E S (liftM f) (liftM f') :=
  PeerBook.Abreast.bind hf fun _ _ => .pure fun _ _ h => h

theorem mk {f : StateM (Session ε) β} {f' : StateM (Session ε') β'} (hf : PeerBook.Abreast R T f f')
    {g : β → Except StoreError α} {g' : β' → Except StoreError α'}
    (hg : ∀ b b' e e', T b b' e e' → Agree E S (g b) (g' b') e e') :
    Abreast R E S (ExceptT.mk do return g (← f)) (ExceptT.mk do return g' (← f')) :=
  PeerBook.Abreast.bind hf fun b b' => .pure fun _ _ h => hg b b' _ _ h

theorem check (ctx : Context) (op : String) :
    Abreast R R (Same R) (Store.check ctx op) (Store.check ctx op) := by
  intro s s' hr hl
  refine ⟨agree_same.mpr ⟨?_, hr⟩, hl⟩
  exact congrArg (ctx.check op) hl.ambient

theorem decode (l : Layout) (key data : Bytes) :
    Abreast R R (Same R) (Store.decode l key data) (Store.decode l key data) :=
  mk (.decode data) fun _ _ _ _ h => agree_same.mpr ⟨by rw [h.1], h.2⟩

theorem releasing {after : StateM (Session ε) (Except StoreError Unit)}
    {after' : StateM (Session ε') (Except StoreError Unit)} (hx : Abreast R E S x x')
    (he : PeerBook.Abreast E (Released E') after after')
    (hs : ∀ a a', PeerBook.Abreast (S a a') (Released (S' a a')) after after') :
    Abreast R E' S' (Store.releasing x after) (Store.releasing x' after') := by
  -- a release that succeeds changes nothing of the outcome
  have ho {γ : Type} (r : Except StoreError γ) : StoreError.append r (.ok ()) = r :=
    StoreError.append_ok r
  refine PeerBook.Abreast.bind hx fun r r' => .bind (S := fun o o' e e' =>
    o = .ok () ∧ o' = .ok () ∧ Agree E' S' r r' e e') ?_ fun o o' => ?_
  · intro s s' h hl
    rcases h.cases with ⟨err, rfl, rfl, hf⟩ | ⟨a, a', rfl, rfl, hf⟩
    · obtain ⟨⟨h₁, h₂, h₃⟩, hl'⟩ := he s s' hf hl
      exact ⟨⟨h₁, h₂, rfl, h₃⟩, hl'⟩
    · exact hs a a' s s' hf hl
  · refine .pure ?_
    rintro e e' ⟨rfl, rfl, h⟩
    rwa [ho, ho]

theorem releasingSame {y : StoreM ε α} {y' : StoreM ε' α}
    {after : StateM (Session ε) (Except StoreError Unit)}
    {after' : StateM (Session ε') (Except StoreError Unit)} (hy : Abreast R E (Same E) y y')
    (he : PeerBook.Abreast E (Released E') after after') :
    Abreast R E' (Same E') (Store.releasing y after) (Store.releasing y' after') := by
  refine releasing hy he fun a a' => ?_
  rintro s s' ⟨ha, h⟩ hl
  obtain ⟨⟨ho, ho', h'⟩, hl'⟩ := he s s' h hl
  exact ⟨⟨ho, ho', ha, h'⟩, hl'⟩

end Abreast

end StoreM

theorem Abreast.release (resource : String) {f : StateM ε (Except EngineError Unit)}
    {f' : StateM ε' (Except EngineError Unit)}
    (h : ∀ e e', R e e' → (f e).1 = .ok () ∧ (f' e').1 = .ok () ∧ E (f e).2 (f' e').2) :
    Abreast R (Released E) (Store.release resource f) (Store.release resource f') := by
  intro s s' hr hl
  obtain ⟨ho, ho', he⟩ := h _ _ hr
  exact ⟨⟨congrArg (Except.mapError _) ho, congrArg (Except.mapError _) ho', he⟩,
    hl.withEngine _ _⟩

end PeerBook
