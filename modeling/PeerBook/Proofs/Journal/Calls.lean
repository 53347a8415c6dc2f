import PeerBook.Proofs.Journal.Reader

/-! # Reading to the end

A reader that is asked again and again comes to the end of its file. As far as
the first bytes that it cannot frame it gives what recovery gives, and stands
where it says. Recovery stops there; the reader goes on when the length in the
header is beyond the limit, and from then on it does not stand where it says.
-/

namespace PeerBook.Journal.Reader

variable {f : LogFile} {r : Reader} {g rest tail : Bytes} {gs : List Bytes}

/-- A call that does not find the end: the reader before it, and what it gives. -/
structure Call where
  before : Reader
  outcome : Except Trouble Entry
  deriving DecidableEq, Repr

def Call.entry? (c : Call) : Option Entry :=
  c.outcome.toOption

variable {calls : List Call}

/-- Calls one after another, until the first that finds the end. -/
inductive ReadsOut (f : LogFile) : Reader → List Call → Prop where
  | finish {r r' : Reader} (h : r.next f = (.ok none, r')) : ReadsOut f r []
  | entry {r r' : Reader} {e : Entry} {calls : List Call} (h : r.next f = (.ok (some e), r'))
      (hs : ReadsOut f r' calls) : ReadsOut f r (⟨r, .ok e⟩ :: calls)
  | trouble {r r' : Reader} {t : Trouble} {calls : List Call} (h : r.next f = (.error t, r'))
      (hs : ReadsOut f r' calls) : ReadsOut f r (⟨r, .error t⟩ :: calls)

/-- The reader stands where it says: it has still to take what is in the file from its position
on. -/
def InPlace (f : LogFile) (r : Reader) : Prop :=
  r.unread f = f.bytes.drop r.position

theorem inPlace_start (f : LogFile) : start.InPlace f :=
  unread_start f

theorem next_of_finish (hf : f.endless = false) (hu : r.unread f = []) :
    ∃ r', r.next f = (.ok none, r') := by
  obtain ⟨r', hr⟩ := find_of_finish hf hu
  exact ⟨r', by rw [next, hr]⟩

theorem next_of_torn (hf : f.endless = false) (hu : front (r.unread f) = .torn) :
    ∃ r', r.next f = (.error (.torn r.position), r') ∧ r'.position = r.position ∧
      r'.unread f = leftover (r.unread f) := by
  obtain ⟨r', hr, hp, hu'⟩ := find_of_torn hf hu
  exact ⟨r', by rw [next, hr], hp, hu'⟩

theorem next_of_isFrame (hf : f.endless = false) (hg : IsFrame g) (hu : r.unread f = g ++ rest) :
    ∃ r', ((∃ e, Entry.ofFrame? g = some e ∧ r.next f = (.ok (some e), r')) ∨
        Entry.ofFrame? g = none ∧ ∃ t, r.next f = (.error t, r')) ∧
      r'.position = r.position + g.length ∧ r'.unread f = rest := by
  have hfront : front (r.unread f) = .frame (Header.ofBytes g) (g.drop headerSize) rest :=
    hu ▸ hg.front rest
  obtain ⟨r', hr, hp, hu'⟩ := find_of_front hf hfront
  rw [hg.length_drop, ← hg.length] at hp
  refine ⟨r', ?_, hp, hu'⟩
  rw [hg.ofFrame?_eq]
  cases hv : (Header.ofBytes g).verify (g.drop headerSize) with
  | ok e =>
    rw [hv] at hr
    exact .inl ⟨e, rfl, by rw [next, hr]⟩
  | error defect =>
    rw [hv] at hr
    exact .inr ⟨rfl, _, by rw [next, hr]⟩

theorem InPlace.step (hp : r.InPlace f) (hu : r.unread f = g ++ rest) {r' : Reader}
    (hp' : r'.position = r.position + g.length) (hu' : r'.unread f = rest) : r'.InPlace f := by
  unfold InPlace at hp ⊢
  rw [hp', hu', ← List.drop_drop, ← hp, hu, List.drop_left]

namespace ReadsOut

theorem nil_of_ok (h : ReadsOut f r calls) {r' : Reader} (hr : r.next f = (.ok none, r')) :
    calls = [] := by
  cases h <;> simp_all

theorem cons_of_ok (h : ReadsOut f r calls) {r' : Reader} {e : Entry}
    (hr : r.next f = (.ok (some e), r')) :
    ∃ calls', calls = ⟨r, .ok e⟩ :: calls' ∧ ReadsOut f r' calls' := by
  cases h <;> simp_all

theorem cons_of_error (h : ReadsOut f r calls) {r' : Reader} {t : Trouble}
    (hr : r.next f = (.error t, r')) :
    ∃ calls', calls = ⟨r, .error t⟩ :: calls' ∧ ReadsOut f r' calls' := by
  cases h <;> simp_all

theorem unique (h : ReadsOut f r calls) {calls' : List Call} (h' : ReadsOut f r calls') :
    calls' = calls := by
  induction h generalizing calls' with
  | finish h => exact h'.nil_of_ok h
  | entry h _ ih =>
    obtain ⟨calls', rfl, hs'⟩ := h'.cons_of_ok h
    rw [ih hs']
  | trouble h _ ih =>
    obtain ⟨calls', rfl, hs'⟩ := h'.cons_of_error h
    rw [ih hs']

theorem of_torn (h : ReadsOut f r calls) (hf : f.endless = false)
    (hu : front (r.unread f) = .torn) :
    ∃ r' calls', calls = ⟨r, .error (.torn r.position)⟩ :: calls' ∧ ReadsOut f r' calls' ∧
      r'.position = r.position ∧ r'.unread f = leftover (r.unread f) := by
  obtain ⟨r', hr, hp, hu'⟩ := next_of_torn hf hu
  obtain ⟨calls', rfl, hs⟩ := h.cons_of_error hr
  exact ⟨r', calls', rfl, hs, hp, hu'⟩

theorem of_isFrame (h : ReadsOut f r calls) (hf : f.endless = false) (hg : IsFrame g)
    (hu : r.unread f = g ++ rest) :
    ∃ r' c calls', calls = c :: calls' ∧ c.before = r ∧ c.entry? = Entry.ofFrame? g ∧
      ReadsOut f r' calls' ∧ r'.position = r.position + g.length ∧ r'.unread f = rest := by
  obtain ⟨r', hr, hp, hu'⟩ := next_of_isFrame hf hg hu
  rcases hr with ⟨e, he, hr⟩ | ⟨he, t, hr⟩
  · obtain ⟨calls', rfl, hs⟩ := h.cons_of_ok hr
    exact ⟨r', _, calls', rfl, rfl, he.symm, hs, hp, hu'⟩
  · obtain ⟨calls', rfl, hs⟩ := h.cons_of_error hr
    exact ⟨r', _, calls', rfl, rfl, he.symm, hs, hp, hu'⟩

theorem exists_cons (h : ReadsOut f r calls) (hf : f.endless = false) (hu : r.unread f ≠ []) :
    ∃ c calls', calls = c :: calls' ∧ c.before = r := by
  cases hfront : front (r.unread f) with
  | finish => exact absurd (front_eq_finish_iff.mp hfront) hu
  | torn =>
    obtain ⟨_, calls', rfl, -⟩ := h.of_torn hf hfront
    exact ⟨_, calls', rfl, rfl⟩
  | frame header payload rest =>
    obtain ⟨g, hg, hb⟩ := isFrame_of_front hfront
    obtain ⟨_, c, calls', rfl, hc, -⟩ := h.of_isFrame hf hg hb
    exact ⟨c, calls', rfl, hc⟩

end ReadsOut

theorem length_leftover_lt {bs : Bytes} (h : bs ≠ []) : (leftover bs).length < bs.length := by
  have hl := List.length_pos_iff.mpr h
  unfold leftover headerSize
  split
  · exact hl
  · rw [List.length_drop]
    omega

theorem leftover_eq_nil_iff {bs : Bytes} :
    leftover bs = [] ↔ (Header.ofBytes bs).length.toNat ≤ maxPayload ∨ bs.length ≤ headerSize := by
  unfold leftover
  split
  · rename_i h
    exact iff_of_true rfl (.inl (of_decide_eq_true h))
  · rename_i h
    have hn : ¬ (Header.ofBytes bs).length.toNat ≤ maxPayload := fun hn => h (decide_eq_true hn)
    rw [List.drop_eq_nil_iff, or_iff_right hn]

theorem exists_readsOut (hf : f.endless = false) (r : Reader) : ∃ calls, ReadsOut f r calls := by
  induction hn : (r.unread f).length using Nat.strongRecOn generalizing r with
  | ind n ih =>
    subst hn
    cases hfront : front (r.unread f) with
    | finish =>
      obtain ⟨r', hr⟩ := next_of_finish hf (front_eq_finish_iff.mp hfront)
      exact ⟨[], .finish hr⟩
    | torn =>
      obtain ⟨r', hr, -, hu'⟩ := next_of_torn hf hfront
      have hlt := length_leftover_lt (front_eq_torn_iff.mp hfront).1
      obtain ⟨calls, hs⟩ := ih _ (hu' ▸ hlt) r' rfl
      exact ⟨_, .trouble hr hs⟩
    | frame header payload rest =>
      obtain ⟨g, hg, hb⟩ := isFrame_of_front hfront
      obtain ⟨r', hr, -, hu'⟩ := next_of_isFrame hf hg hb
      obtain ⟨calls, hs⟩ := ih _ (hu' ▸ length_lt_of_front hfront) r' rfl
      rcases hr with ⟨e, -, hr⟩ | ⟨-, t, hr⟩
      · exact ⟨_, .entry hr hs⟩
      · exact ⟨_, .trouble hr hs⟩

/-- The calls for the complete frames at the front, and those for what stands behind them. -/
theorem ReadsOut.split (hf : f.endless = false) (h : ReadsOut f r calls)
    (hs : Splits (r.unread f) gs tail) (hp : r.InPlace f) :
    ∃ seen r' calls', calls = seen ++ calls' ∧ seen.length = gs.length ∧
      seen.filterMap Call.entry? = gs.filterMap Entry.ofFrame? ∧
      (∀ c ∈ seen, c.before.InPlace f) ∧ ReadsOut f r' calls' ∧ r'.unread f = tail ∧
      r'.position = r.position + gs.flatten.length ∧ r'.InPlace f := by
  induction gs generalizing r calls with
  | nil => exact ⟨[], r, calls, rfl, rfl, rfl, by simp, h, hs.bytes, rfl, hp⟩
  | cons g gs ih =>
    obtain ⟨rest, hg, hu, hs'⟩ := hs.uncons
    obtain ⟨r₁, c, calls₁, rfl, rfl, hc, h₁, hp₁, hu₁⟩ := h.of_isFrame hf hg hu
    obtain ⟨seen, r', calls', rfl, hl, he, hin, h', hu', hp', hin'⟩ :=
      ih h₁ (hu₁ ▸ hs') (hp.step hu hp₁ hu₁)
    refine ⟨c :: seen, r', calls', rfl, by simp [hl], ?_, ?_, h', hu', ?_, hin'⟩
    · simp only [List.filterMap_cons, hc, he]
    · exact List.forall_mem_cons.mpr ⟨hp, hin⟩
    · rw [hp', hp₁, List.flatten_cons, List.length_append, Nat.add_assoc]

/-- Bytes that cannot be framed are reported. If that leaves something to take, the reader does not
stand where it says any more. -/
theorem ReadsOut.of_tail (h : ReadsOut f r calls) (hf : f.endless = false) (hp : r.InPlace f)
    (ht : ∀ g, IsFrame g → ¬ g <+: r.unread f) (hne : r.unread f ≠ []) :
    ∃ calls', calls = ⟨r, .error (.torn r.position)⟩ :: calls' ∧
      (leftover (r.unread f) = [] → calls' = []) ∧
      (leftover (r.unread f) ≠ [] → ∃ c ∈ calls', ¬ c.before.InPlace f) := by
  obtain ⟨r', calls', rfl, h', hp', hu'⟩ := h.of_torn hf (front_eq_torn_of_tail ht hne)
  refine ⟨calls', rfl, ?_, ?_⟩
  · intro hl
    obtain ⟨_, hr⟩ := next_of_finish hf (hu'.trans hl)
    exact h'.nil_of_ok hr
  · intro hl
    obtain ⟨c, calls', rfl, rfl⟩ := h'.exists_cons hf (hu' ▸ hl)
    refine ⟨c, List.mem_cons_self, ?_⟩
    intro hin
    have hlt := length_leftover_lt hne
    rw [InPlace, hu', hp', ← hp] at hin
    rw [hin] at hlt
    exact Nat.lt_irrefl _ hlt

/-- A reader that is asked until it finds the end gives, up to and with its report of the first
bytes that it cannot frame, the entries that recovery gives, and stands where it says before every
call. This holds of all calls if and only if nothing stands behind such bytes that are a header with
a length beyond the limit. -/
theorem readsOut_as_recovered (bs : Bytes) :
    let f := LogFile.ofBytes bs
    ∃ calls gs tail, ReadsOut f .start calls ∧ (∀ calls', ReadsOut f .start calls' → calls' = calls) ∧
      Splits bs gs tail ∧
      (tail ≠ [] → ∃ c, calls[gs.length]? = some c ∧
        c.outcome = .error (.torn gs.flatten.length)) ∧
      ((calls.take (gs.length + 1)).filterMap Call.entry? = f.recover.1.entries ∧
        ∀ c ∈ calls.take (gs.length + 1), c.before.InPlace f) ∧
      (calls.filterMap Call.entry? = f.recover.1.entries ∧ (∀ c ∈ calls, c.before.InPlace f) ↔
        (Header.ofBytes tail).length.toNat ≤ maxPayload ∨ tail.length ≤ headerSize) := by
  intro f
  have hf : f.endless = false := rfl
  obtain ⟨gs, tail, hs⟩ := exists_splits bs
  obtain ⟨calls, h⟩ := exists_readsOut hf .start
  have hrec : f.recover.1.entries = gs.filterMap Entry.ofFrame? :=
    congrArg (·.1.entries) (LogFile.recover_splits (f := f) hs)
  have hu : start.unread f = bs := unread_start f
  obtain ⟨seen, r, calls', rfl, hl, he, hin, h', hu', hp', hin'⟩ :=
    h.split hf (hu.symm ▸ hs) (inPlace_start f)
  refine ⟨_, gs, tail, h, fun calls' h' => h.unique h', hs, ?_⟩
  rw [← leftover_eq_nil_iff, hrec, ← hl, List.getElem?_append_right (Nat.le_refl _), Nat.sub_self,
    List.take_length_add_append, List.filterMap_append, List.filterMap_append, he]
  by_cases ht : tail = []
  · obtain ⟨_, hr⟩ := next_of_finish hf (hu'.trans ht)
    obtain rfl := h'.nil_of_ok hr
    simpa [ht, leftover] using hin
  · obtain ⟨calls', rfl, hnil, hcons⟩ := h'.of_tail hf hin' (hu'.symm ▸ hs.tail) (hu'.symm ▸ ht)
    have hpos : r.position = gs.flatten.length := hp'.trans (Nat.zero_add _)
    rw [hu'] at hnil hcons
    refine ⟨fun _ => ⟨_, rfl, by rw [hpos]⟩, ⟨?_, ?_⟩, ?_, ?_⟩
    · simp [Call.entry?, Except.toOption]
    · simpa [or_imp, forall_and, hin'] using hin
    · rintro ⟨-, hall⟩
      by_contra hl
      obtain ⟨c, hc, hnot⟩ := hcons hl
      exact hnot (hall c (List.mem_append_right _ (List.mem_cons_of_mem _ hc)))
    · intro hl
      obtain rfl := hnil hl
      constructor
      · simp [Call.entry?, Except.toOption]
      · simpa [or_imp, forall_and, hin'] using hin

/-- Behind a header of sixteen bytes with a length beyond the limit an entry is read that recovery
does not reach, and the reader says that it stands sixteen bytes before it. -/
theorem readsOut_past_header :
    let e : Entry := ⟨1, .put [1] [10], 0⟩
    let f := LogFile.ofBytes ((Header.mk 0 0 0xFFFFFFFF).encode ++ e.bytes)
    f.recover.1.entries = [] ∧
      ∃ calls, ReadsOut f .start calls ∧ calls.filterMap Call.entry? = [e] ∧
        ∃ c ∈ calls, c.before.position = 0 ∧ c.before.unread f = f.bytes.drop 16 := by
  intro e f
  have hfront : front (start.unread f) = .torn := by
    rw [unread_start]
    exact front_eq_torn_iff.mpr (by decide +kernel)
  obtain ⟨r₁, hr₁, hp₁, hu₁⟩ := next_of_torn rfl hfront
  have hl : leftover f.bytes = e.bytes ++ [] := by decide +kernel
  rw [unread_start, hl] at hu₁
  obtain ⟨r₂, hr₂, -, hu₂⟩ := next_of_bytes (by decide) rfl hu₁
  obtain ⟨r₃, hr₃⟩ := next_of_finish rfl hu₂
  refine ⟨by decide +kernel, _, .trouble hr₁ (.entry hr₂ (.finish hr₃)), rfl, ⟨r₁, .ok e⟩, by simp,
    hp₁, ?_⟩
  rw [hu₁]
  decide +kernel

end PeerBook.Journal.Reader
