import Mathlib.Data.List.Induction
import Mathlib.Data.List.Perm.Basic
import PeerBook.Context

/-! # Families of contexts

Contexts are made at a root, which may have a handle, and derived from each
other, while time passes and handles cancel their roots. The deadline of a
context is the earliest of those given on the way to it, and a check of it
depends on nothing but this deadline, the time and the handle of its own root.
-/

namespace PeerBook

namespace Context

variable {c : Context} {a a' : Ambient} {op : String}

theorem check_eq_ok_iff : c.check op a = .ok () ↔ c.interruption? a = none := by
  unfold check
  cases c.interruption? a <;> simp

theorem eq_or_eq_of_check {err : StoreError} (h : c.check op a = .error err) :
    err = .cancelled op ∨ err = .deadlineExceeded op := by
  unfold Context.check at h
  split at h
  · rename_i i _
    obtain rfl := Except.error.inj h
    cases i
    · exact .inl rfl
    · exact .inr rfl
  · cases h

/-- The result of a check by whether the root is cancelled and the deadline has come. -/
structure Verdict (op : String) (cancelled exceeded : Prop) (r : Except StoreError Unit) :
    Prop where
  cancelled_iff : r = .error (.cancelled op) ↔ cancelled
  exceeded_iff : r = .error (.deadlineExceeded op) ↔ ¬ cancelled ∧ exceeded
  ok_iff : r = .ok () ↔ ¬ cancelled ∧ ¬ exceeded

theorem verdict_check (c : Context) (op : String) (a : Ambient) :
    Verdict op (∃ r ∈ c.root, a.isCancelled r = true) (∃ d ∈ c.deadline, d ≤ a.now)
      (c.check op a) := by
  have hroot : c.root.any a.isCancelled = true ↔ ∃ r ∈ c.root, a.isCancelled r = true :=
    Option.any_eq_true ..
  have hdeadline : c.deadline.any (· ≤ a.now) = true ↔ ∃ d ∈ c.deadline, d ≤ a.now := by
    simp [Option.any_eq_true]
  rw [← hroot, ← hdeadline]
  unfold check interruption?
  cases c.root.any a.isCancelled <;> cases c.deadline.any (· ≤ a.now) <;>
    constructor <;> simp [Interruption.toError]

theorem check_congr (hnow : a'.now = a.now)
    (hroot : ∀ r ∈ c.root, a'.isCancelled r = a.isCancelled r) : c.check op a' = c.check op a := by
  have hany : c.root.any a'.isCancelled = c.root.any a.isCancelled := by
    cases h : c.root with
    | none => rfl
    | some r => exact hroot r h
  unfold check interruption?
  rw [hany, hnow]

theorem deadline_withDeadline (c : Context) (d : Nat) :
    (c.withDeadline d).deadline = some (c.deadline.elim d (min · d)) := by
  unfold withDeadline
  cases c.deadline with
  | none => rfl
  | some e =>
    dsimp only [Option.elim_some]
    split <;> congr 1 <;> omega

theorem withDeadline_comm (c : Context) (d e : Nat) :
    (c.withDeadline d).withDeadline e = (c.withDeadline e).withDeadline d := by
  have h : ((c.withDeadline d).withDeadline e).deadline =
      ((c.withDeadline e).withDeadline d).deadline := by
    simp only [deadline_withDeadline, Option.elim_some]
    cases c.deadline with
    | none => exact congrArg some (Nat.min_comm d e)
    | some f => exact congrArg some (Nat.min_right_comm f d e)
  exact congrArg (Context.mk c.root) h

instance : RightCommutative withDeadline :=
  ⟨withDeadline_comm⟩

theorem root_foldl (c : Context) (ds : List Nat) : (ds.foldl withDeadline c).root = c.root := by
  induction ds generalizing c with
  | nil => rfl
  | cons d ds ih => exact ih (c.withDeadline d)

theorem deadline_foldl (c : Context) (ds : List Nat) :
    (ds.foldl withDeadline c).deadline = (c.deadline.toList ++ ds).min? := by
  induction ds generalizing c with
  | nil => cases h : c.deadline <;> simp [h]
  | cons d ds ih =>
    rw [List.foldl_cons, ih, deadline_withDeadline]
    cases c.deadline with
    | none => rfl
    | some e =>
      change (min e d :: ds).min? = (e :: d :: ds).min?
      rw [List.min?_cons', List.min?_cons', List.foldl_cons]

theorem check_ne_ok_iff : c.check op a ≠ .ok () ↔
    (∃ r ∈ c.root, a.isCancelled r = true) ∨ ∃ d ∈ c.deadline, d ≤ a.now := by
  rw [Ne, (verdict_check c op a).ok_iff, not_and_or, not_not, not_not]

theorem check_ne_ok_of_le (h : c.check op a ≠ .ok ()) (hnow : a.now ≤ a'.now)
    (hcancelled : ∀ r, a.isCancelled r = true → a'.isCancelled r = true) (op' : String) :
    c.check op' a' ≠ .ok () := by
  rw [check_ne_ok_iff] at h ⊢
  rcases h with ⟨r, hr, hc⟩ | ⟨d, hd, hle⟩
  · exact .inl ⟨r, hr, hcancelled r hc⟩
  · exact .inr ⟨d, hd, Nat.le_trans hle hnow⟩

theorem check_withDeadline_ne_ok (h : c.check op a ≠ .ok ()) (d : Nat) :
    (c.withDeadline d).check op a ≠ .ok () := by
  rw [check_ne_ok_iff] at h ⊢
  rcases h with hroot | ⟨e, he, hle⟩
  · exact .inl hroot
  · refine .inr ⟨min e d, ?_, Nat.le_trans (Nat.min_le_left e d) hle⟩
    rw [Option.mem_def] at he
    rw [deadline_withDeadline, he]
    rfl

theorem check_foldl_ne_ok (h : c.check op a ≠ .ok ()) (ds : List Nat) :
    (ds.foldl withDeadline c).check op a ≠ .ok () := by
  induction ds generalizing c with
  | nil => exact h
  | cons d ds ih => exact ih (check_withDeadline_ne_ok h d)

end Context

namespace Family

/-- How a context was made: at a root, which is none for one that cannot be cancelled, or from
another context, with or without a deadline. -/
inductive Birth where
  | origin (root : Option Nat)
  | derived (parent : Nat) (deadline : Option Nat)
  deriving DecidableEq

structure Member where
  context : Context
  birth : Birth
  deriving DecidableEq

/-- What happens around contexts. These are numbered as they are made; a handle and its clones are
the number of their root. Time is counted from the start and has no end. -/
inductive Event where
  | background
  | cancellable
  | clone (parent : Nat)
  | withDeadline (parent deadline : Nat)
  | withTimeout (parent timeout : Nat)
  | cancel (root : Nat)
  | wait (time : Nat)
  deriving DecidableEq

/-- Whether an event matters to the contexts of a root: all do but to cancel another one. -/
def Event.concerns (root : Option Nat) : Event → Bool
  | .cancel r => root = some r
  | _ => true

def Event.time : Event → Nat
  | .wait t => t
  | _ => 0

end Family

open Family in
structure Family where
  ambient : Ambient
  members : List Member
  deriving DecidableEq

namespace Family

variable {f g : Family} {e : Event} {es fs : List Event} {root d : Option Nat} {i j k o r : Nat}
  {ds : List Nat} {m p : Member}

def start : Family where
  ambient := .start
  members := []

def add (f : Family) (context : Context) (birth : Birth) : Family :=
  { f with members := f.members ++ [⟨context, birth⟩] }

/-- Makes a context from a member of the family, if there is this member. -/
def derive (f : Family) (parent : Nat) (deadline : Option Nat) (make : Context → Context) :
    Family :=
  match f.members[parent]? with
  | some p => f.add (make p.context) (.derived parent deadline)
  | none => f

def step (f : Family) : Event → Family
  | .background => f.add .background (.origin none)
  | .cancellable =>
    let (root, ambient) := f.ambient.newRoot
    { f with ambient }.add (.ofRoot root) (.origin (some root))
  | .clone i => f.derive i none id
  | .withDeadline i d => f.derive i (some d) (·.withDeadline d)
  | .withTimeout i t => f.derive i (some (f.ambient.now + t)) (·.withTimeout f.ambient t)
  | .cancel r => if r < f.ambient.roots then { f with ambient := f.ambient.cancel r } else f
  | .wait t => { f with ambient := { f.ambient with now := f.ambient.now + t } }

def run (es : List Event) : Family :=
  es.foldl step start

theorem run_concat (es : List Event) (e : Event) : run (es ++ [e]) = (run es).step e := by
  simp [run]

def birth? (f : Family) (i : Nat) : Option Birth :=
  f.members[i]?.map (·.birth)

/-- Context `j` was derived from context `i`, and on the way was given the deadlines `ds`. -/
inductive Derives (f : Family) (i : Nat) : List Nat → Nat → Prop
  | self : Derives f i [] i
  | step {ds : List Nat} {j k : Nat} {d : Option Nat} (h : Derives f i ds j)
      (hk : f.birth? k = some (.derived j d)) : Derives f i (ds ++ d.toList) k

/-- Context `j` was derived from one made at the root, and was given the deadlines `ds`. -/
def Stems (f : Family) (root : Option Nat) (ds : List Nat) (j : Nat) : Prop :=
  ∃ o, f.birth? o = some (.origin root) ∧ f.Derives o ds j

/-- The handle of a root was used, once there was one. -/
def Cancelled (es : List Event) (r : Nat) : Prop :=
  ∃ before after, es = before ++ .cancel r :: after ∧ r < before.count .cancellable

@[simp] theorem ambient_add (f : Family) (c : Context) (b : Birth) :
    (f.add c b).ambient = f.ambient := rfl

@[simp] theorem ambient_derive (f : Family) (i : Nat) (d : Option Nat) (make : Context → Context) :
    (f.derive i d make).ambient = f.ambient := by
  unfold derive
  split <;> rfl

theorem members_derive (f : Family) (i : Nat) (d : Option Nat) (make : Context → Context) :
    (f.derive i d make).members =
      f.members ++ (f.members[i]?.map fun p => ⟨make p.context, .derived i d⟩).toList := by
  unfold derive
  cases f.members[i]? with
  | none => exact (List.append_nil _).symm
  | some p => rfl

theorem now_step (f : Family) (e : Event) :
    (f.step e).ambient.now = f.ambient.now + e.time := by
  cases e with
  | cancel r =>
    rw [step]
    split <;> rfl
  | _ => simp [step, Ambient.newRoot, Event.time]

theorem roots_step (f : Family) (e : Event) :
    (f.step e).ambient.roots = f.ambient.roots + if e = .cancellable then 1 else 0 := by
  cases e with
  | cancel r =>
    rw [step]
    split <;> rfl
  | _ => simp [step, Ambient.newRoot]

theorem isCancelled_step (f : Family) (e : Event) (r : Nat) :
    (f.step e).ambient.isCancelled r = true ↔
      f.ambient.isCancelled r = true ∨ e = .cancel r ∧ r < f.ambient.roots := by
  cases e with
  | cancel q =>
    rw [step]
    split
    · simp only [Ambient.cancel, Ambient.isCancelled, List.contains_cons, Bool.or_eq_true,
        beq_iff_eq, Event.cancel.injEq]
      grind
    · simp only [Event.cancel.injEq]
      grind
  | _ => simp [step, Ambient.newRoot, Ambient.isCancelled]

/-- A context is what its birth says, in a family that it is to stand in at place `j`. -/
inductive Accounts (f : Family) (j : Nat) : Member → Prop
  | origin (root : Option Nat) : Accounts f j ⟨⟨root, none⟩, .origin root⟩
  | derived {i : Nat} {p : Member} (d : Option Nat) (hi : i < j) (hp : f.members[i]? = some p) :
    Accounts f j ⟨d.toList.foldl .withDeadline p.context, .derived i d⟩

theorem members_derive_cases (f : Family) (i : Nat) (d : Option Nat) {make : Context → Context}
    (hmake : ∀ c, make c = d.toList.foldl .withDeadline c) :
    (f.derive i d make).members = f.members ∨
      ∃ m, (f.derive i d make).members = f.members ++ [m] ∧ f.Accounts f.members.length m := by
  rw [members_derive]
  cases hp : f.members[i]? with
  | none => exact .inl (List.append_nil _)
  | some p =>
    right
    refine ⟨_, rfl, ?_⟩
    dsimp only
    rw [hmake]
    exact .derived d (List.getElem?_eq_some_iff.mp hp).1 hp

/-- An event leaves the contexts as they are, or adds one. -/
theorem members_step_cases (f : Family) (e : Event) :
    (f.step e).members = f.members ∨
      ∃ m, (f.step e).members = f.members ++ [m] ∧ f.Accounts f.members.length m := by
  cases e with
  | background => exact .inr ⟨_, rfl, .origin none⟩
  | cancellable => exact .inr ⟨_, rfl, .origin (some f.ambient.roots)⟩
  | clone i => exact f.members_derive_cases i none fun _ => rfl
  | withDeadline i d => exact f.members_derive_cases i (some d) fun _ => rfl
  | withTimeout i t => exact f.members_derive_cases i (some (f.ambient.now + t)) fun _ => rfl
  | cancel r =>
    left
    rw [step]
    split <;> rfl
  | wait t => exact .inl rfl

theorem members_prefix_step (f : Family) (e : Event) : f.members <+: (f.step e).members := by
  rcases members_step_cases f e with h | ⟨m, h, -⟩
  · exact h ▸ List.prefix_rfl
  · exact ⟨[m], h.symm⟩

theorem roots_run (es : List Event) : (run es).ambient.roots = es.count .cancellable := by
  induction es using List.reverseRecOn with
  | nil => rfl
  | append_singleton es e ih =>
    rw [run_concat, roots_step, ih, List.count_append, List.count_singleton]
    simp only [beq_iff_eq]

theorem cancelled_concat_iff :
    Cancelled (es ++ [e]) r ↔ Cancelled es r ∨ e = .cancel r ∧ r < es.count .cancellable := by
  constructor
  · rintro ⟨before, after, h, hr⟩
    rcases List.eq_nil_or_concat after with rfl | ⟨after, e', rfl⟩
    · obtain ⟨rfl, he⟩ := List.append_inj' h rfl
      exact .inr ⟨List.head_eq_of_cons_eq he, hr⟩
    · rw [List.concat_eq_append, ← List.cons_append, ← List.append_assoc] at h
      exact .inl ⟨before, after, (List.append_inj' h rfl).1, hr⟩
  · rintro (⟨before, after, rfl, hr⟩ | ⟨rfl, hr⟩)
    · exact ⟨before, after ++ [e], by simp, hr⟩
    · exact ⟨es, [], rfl, hr⟩

theorem isCancelled_run : (run es).ambient.isCancelled r = true ↔ Cancelled es r := by
  induction es using List.reverseRecOn with
  | nil =>
    constructor
    · intro h
      cases h
    · rintro ⟨before, after, h, -⟩
      simp at h
  | append_singleton es e ih =>
    rw [run_concat, isCancelled_step, ih, roots_run, cancelled_concat_iff]

theorem now_le_run (es fs : List Event) : (run es).ambient.now ≤ (run (es ++ fs)).ambient.now := by
  induction fs using List.reverseRecOn with
  | nil => simp
  | append_singleton fs e ih =>
    rw [← List.append_assoc, run_concat, now_step]
    exact Nat.le_add_right_of_le ih

theorem isCancelled_run_append (fs : List Event) (h : (run es).ambient.isCancelled r = true) :
    (run (es ++ fs)).ambient.isCancelled r = true := by
  induction fs using List.reverseRecOn with
  | nil => rwa [List.append_nil]
  | append_singleton fs e ih =>
    rw [← List.append_assoc, run_concat, isCancelled_step]
    exact .inl ih

theorem members_prefix_run (es fs : List Event) :
    (run es).members <+: (run (es ++ fs)).members := by
  induction fs using List.reverseRecOn with
  | nil => simp
  | append_singleton fs e ih =>
    rw [← List.append_assoc, run_concat]
    exact ih.trans (members_prefix_step _ e)

theorem getElem?_mono (h : f.members <+: g.members) (hj : f.members[j]? = some m) :
    g.members[j]? = some m := by
  obtain ⟨rest, hrest⟩ := h
  rw [← hrest, List.getElem?_append_left (List.getElem?_eq_some_iff.mp hj).1, hj]

theorem Accounts.mono (h : f.Accounts j m) (hfg : f.members <+: g.members) : g.Accounts j m := by
  cases h with
  | origin root => exact .origin root
  | derived d hi hp => exact .derived d hi (getElem?_mono hfg hp)

theorem accounts_run (h : (run es).members[j]? = some m) : (run es).Accounts j m := by
  induction es using List.reverseRecOn with
  | nil => cases h
  | append_singleton es e ih =>
    have hpre := members_prefix_step (run es) e
    rw [run_concat] at h ⊢
    rcases members_step_cases (run es) e with he | ⟨m', he, hm'⟩
    · rw [he] at h
      exact (ih h).mono hpre
    · rw [he] at h
      rcases Nat.lt_or_ge j (run es).members.length with hlt | hge
      · rw [List.getElem?_append_left hlt] at h
        exact (ih h).mono hpre
      · rw [List.getElem?_append_right hge, List.getElem?_singleton] at h
        split at h
        · obtain rfl := Option.some.inj h
          obtain rfl : j = (run es).members.length := by omega
          exact hm'.mono hpre
        · cases h

theorem accounts_of_birth {b : Birth} (h : (run es).birth? j = some b) :
    ∃ m, (run es).members[j]? = some m ∧ m.birth = b ∧ (run es).Accounts j m := by
  obtain ⟨m, hm, hb⟩ := Option.map_eq_some_iff.mp h
  exact ⟨m, hm, hb, accounts_run hm⟩

/-- A context is what giving the deadlines to its ancestor makes of it. -/
theorem Derives.context_eq (h : (run es).Derives i ds j) (hi : (run es).members[i]? = some p)
    (hj : (run es).members[j]? = some m) : m.context = ds.foldl .withDeadline p.context := by
  induction h generalizing m with
  | self =>
    obtain rfl := Option.some.inj (hi.symm.trans hj)
    rfl
  | step h hk ih =>
    obtain ⟨m', hm', hb, ha⟩ := accounts_of_birth hk
    obtain rfl := Option.some.inj (hm'.symm.trans hj)
    cases ha with
    | origin root => cases hb
    | derived d hlt hp =>
      cases hb
      rw [ih hp, List.foldl_append]

theorem Stems.context_eq (h : (run es).Stems root ds j) (hj : (run es).members[j]? = some m) :
    m.context = ds.foldl .withDeadline ⟨root, none⟩ := by
  obtain ⟨o, ho, hd⟩ := h
  obtain ⟨p, hp, hb, ha⟩ := accounts_of_birth ho
  rw [hd.context_eq hp hj]
  cases ha with
  | origin root => cases hb; rfl
  | derived d hlt hp => cases hb

theorem exists_stems (h : (run es).members[j]? = some m) : ∃ root ds, (run es).Stems root ds j := by
  induction j using Nat.strongRecOn generalizing m with
  | _ j ih =>
    have hb : (run es).birth? j = some m.birth := congrArg (Option.map Member.birth) h
    cases accounts_run h with
    | origin root => exact ⟨root, [], j, hb, .self⟩
    | derived d hlt hp =>
      obtain ⟨root, ds, o, ho, hd⟩ := ih _ hlt hp
      exact ⟨root, ds ++ d.toList, o, ho, hd.step hb⟩

/-- Two families that differ only in which other roots are cancelled. -/
structure Alike (root : Option Nat) (f g : Family) : Prop where
  members : g.members = f.members
  now : g.ambient.now = f.ambient.now
  roots : g.ambient.roots = f.ambient.roots
  isCancelled : ∀ r ∈ root, g.ambient.isCancelled r = f.ambient.isCancelled r

theorem Alike.step (h : Alike root f g) (e : Event) : Alike root (f.step e) (g.step e) where
  members := by
    cases e with
    | cancel r =>
      rw [Family.step, Family.step]
      split <;> split <;> exact h.members
    | wait t => exact h.members
    | _ => simp [Family.step, Ambient.newRoot, add, members_derive, Context.withTimeout, h.members,
        h.now, h.roots]
  now := by rw [now_step, now_step, h.now]
  roots := by rw [roots_step, roots_step, h.roots]
  isCancelled r hr := by
    rw [Bool.eq_iff_iff, isCancelled_step, isCancelled_step, h.isCancelled r hr, h.roots]

theorem Alike.step_left (h : Alike root f g) (he : e.concerns root = false) :
    Alike root (f.step e) g := by
  cases e with
  | cancel q =>
    have hq : root ≠ some q := of_decide_eq_false he
    have hstep : (f.step (.cancel q)).members = f.members := by
      rw [Family.step]
      split <;> rfl
    refine ⟨h.members.trans hstep.symm, ?_, ?_, ?_⟩
    · rw [now_step, h.now]
      rfl
    · rw [roots_step, h.roots]
      rfl
    · intro r hr
      rw [h.isCancelled r hr, Bool.eq_iff_iff, isCancelled_step]
      refine (or_iff_left ?_).symm
      rintro ⟨heq, -⟩
      cases heq
      exact hq hr
  | _ => cases he

theorem alike_filter (root : Option Nat) (es : List Event) :
    Alike root (run es) (run (es.filter (Event.concerns root))) := by
  induction es using List.reverseRecOn with
  | nil => exact ⟨rfl, rfl, rfl, fun _ _ => rfl⟩
  | append_singleton es e ih =>
    rw [List.filter_append, run_concat]
    cases he : e.concerns root with
    | true =>
      rw [List.filter_cons_of_pos he, List.filter_nil, run_concat]
      exact ih.step e
    | false =>
      rw [List.filter_cons_of_neg (by simp [he]), List.filter_nil, List.append_nil]
      exact ih.step_left he

/-- After any run, every context has a derivation. Its deadline is the earliest of those given on
the way, whatever their order, and a check of it finds its root cancelled exactly if the handle of
the root was used, and else its deadline exceeded exactly if the time has come to it. A check that
fails fails ever after, and so do those of the contexts derived from this one; the use of handles of
other roots changes no check. -/
theorem contexts_judged (es : List Event) :
    let f := run es
    (∀ j m, f.members[j]? = some m → ∃ root ds, f.Stems root ds j) ∧
    ∀ root ds j m, f.Stems root ds j → f.members[j]? = some m →
      m.context.deadline = ds.min? ∧
      (∀ op, Context.Verdict op (∃ r ∈ root, Cancelled es r) (∃ d ∈ ds.min?, d ≤ f.ambient.now)
        (m.context.check op f.ambient)) ∧
      (∀ ds' j' m', f.Stems root ds' j' → f.members[j']? = some m' → ds'.Perm ds →
        m'.context = m.context) ∧
      (∀ op, m.context.check op f.ambient ≠ .ok () → ∀ fs,
        let g := run (es ++ fs)
        ∀ ds' j' m' op', g.Derives j ds' j' → g.members[j']? = some m' →
          m'.context.check op' g.ambient ≠ .ok ()) ∧
      let g := run (es.filter (Event.concerns root))
      g.members = f.members ∧ ∀ op, m.context.check op g.ambient = m.context.check op f.ambient := by
  intro f
  refine ⟨fun j m hm => exists_stems hm, ?_⟩
  intro root ds j m hs hm
  have hcontext : m.context = ds.foldl .withDeadline ⟨root, none⟩ := hs.context_eq hm
  have hroot : m.context.root = root := by rw [hcontext, Context.root_foldl]
  have hdeadline : m.context.deadline = ds.min? := by
    rw [hcontext, Context.deadline_foldl, Option.toList_none, List.nil_append]
  refine ⟨hdeadline, ?_, ?_, ?_, ?_⟩
  · intro op
    have hv := Context.verdict_check m.context op f.ambient
    simpa only [hroot, hdeadline, f, isCancelled_run] using hv
  · intro ds' j' m' hs' hm' hperm
    rw [hcontext, hs'.context_eq hm']
    exact hperm.foldl_eq _
  · intro op hop fs g ds' j' m' op' hd hm'
    have hmj := getElem?_mono (members_prefix_run es fs) hm
    rw [hd.context_eq hmj hm']
    apply Context.check_foldl_ne_ok
    exact Context.check_ne_ok_of_le hop (now_le_run es fs) (fun r => isCancelled_run_append fs) op'
  · intro g
    have ha : Alike root f g := alike_filter root es
    exact ⟨ha.members, fun op => Context.check_congr ha.now (hroot ▸ ha.isCancelled)⟩

/-- A timeout and a deadline in either order, which come to the time of the check. Then a copy is
made and the handle used, which a context of no root does not notice. -/
theorem contexts_judged_shared :
    let es : List Event := [.cancellable, .wait 2, .withTimeout 0 7, .withDeadline 1 5,
      .withDeadline 0 5, .withDeadline 3 9, .background, .wait 3]
    let later : List Event := [.clone 2, .cancel 0]
    let f := run es
    let g := run (es ++ later)
    let calm := run ((es ++ later).filter (Event.concerns none))
    let m : Member := ⟨⟨some 0, some 5⟩, .derived 1 (some 5)⟩
    let m' : Member := ⟨⟨some 0, some 5⟩, .derived 3 (some 9)⟩
    let copy : Member := ⟨⟨some 0, some 5⟩, .derived 2 none⟩
    f.members[2]? = some m ∧ f.Stems (some 0) [9, 5] 2 ∧ m.context.deadline = some 5 ∧
      m.context.check "find" f.ambient = .error (.deadlineExceeded "find") ∧
      f.members[4]? = some m' ∧ f.Stems (some 0) [5, 9] 4 ∧ [5, 9].Perm [9, 5] ∧
      m'.context = m.context ∧
      g.Derives 2 [] 6 ∧ g.members[6]? = some copy ∧ copy.context.check "add" g.ambient ≠ .ok () ∧
      g.Stems none [] 5 ∧ calm ≠ g ∧
      Context.background.check "add" calm.ambient = Context.background.check "add" g.ambient := by
  intro es later f g calm m m' copy
  have hstem : f.Stems (some 0) [9, 5] 2 :=
    ⟨0, rfl, Derives.step (d := some 5) (Derives.step (d := some 9) .self rfl) rfl⟩
  have hstem' : f.Stems (some 0) [5, 9] 4 :=
    ⟨0, rfl, Derives.step (d := some 9) (Derives.step (d := some 5) .self rfl) rfl⟩
  have hcopy : g.Derives 2 [] 6 := Derives.step (d := none) .self rfl
  have hplain : g.Stems none [] 5 := ⟨5, rfl, .self⟩
  have hperm : [5, 9].Perm [9, 5] := .swap 9 5 []
  obtain ⟨hdeadline, hverdict, horder, hlast, -⟩ :=
    (contexts_judged es).2 (some 0) [9, 5] 2 m hstem rfl
  obtain ⟨-, -, -, -, -, hcalm⟩ :=
    (contexts_judged (es ++ later)).2 none [] 5 ⟨.background, .origin none⟩ hplain rfl
  have hunused : ¬ ∃ r ∈ some 0, Cancelled es r := by
    rintro ⟨r, hr, hc⟩
    cases hr
    exact absurd (isCancelled_run.mpr hc) (by decide)
  have hfails : m.context.check "find" f.ambient = .error (.deadlineExceeded "find") :=
    (hverdict "find").exceeded_iff.mpr ⟨hunused, 5, rfl, Nat.le_refl 5⟩
  have hne : m.context.check "find" f.ambient ≠ .ok () := by
    rw [hfails]
    simp
  exact ⟨rfl, hstem, hdeadline, hfails, rfl, hstem', hperm, horder [5, 9] 4 m' hstem' rfl hperm,
    hcopy, rfl, hlast "find" hne later [] 6 copy "add" hcopy rfl, hplain, by decide, hcalm "add"⟩

end Family

end PeerBook
