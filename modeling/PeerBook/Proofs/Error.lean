import PeerBook.Error

/-! # What an outcome tells

The failures that an outcome tells of are a list without nesting, in the order
in which they happened. Joining outcomes appends their lists.
-/

namespace PeerBook

def failure? {ξ α : Type} : Except ξ α → Option ξ
  | .ok _ => none
  | .error err => some err

@[simp] theorem failure?_ok {ξ α : Type} (a : α) : failure? (.ok a : Except ξ α) = none := rfl

@[simp] theorem failure?_error {ξ α : Type} (err : ξ) :
    failure? (.error err : Except ξ α) = some err := rfl

@[simp] theorem failure?_mapError {ξ ξ' α : Type} (f : ξ → ξ') (r : Except ξ α) :
    failure? (r.mapError f) = (failure? r).map f := by
  cases r <;> rfl

@[simp] theorem failure?_map {ξ α β : Type} (f : α → β) (r : Except ξ α) :
    failure? (r.map f) = failure? r := by
  cases r <;> rfl

namespace StoreError

variable {α β : Type} {e : StoreError} {es es' : List StoreError} {o : Option StoreError}
  {r : Except StoreError α} {r' : Except StoreError Unit}

def isPlain : StoreError → Bool
  | .multiple _ => false
  | _ => true

theorem parts_of_isPlain (h : e.isPlain = true) : e.parts = [e] := by
  cases e with
  | multiple parts => cases h
  | _ => rfl

theorem parts_combine (e f : StoreError) : (e.combine f).parts = e.parts ++ f.parts := rfl

theorem combine_assoc (e f g : StoreError) :
    (e.combine f).combine g = e.combine (f.combine g) := by
  simp only [combine, parts, List.append_assoc]

/-- Failures as one error. -/
def joined : List StoreError → Option StoreError
  | [] => none
  | [e] => some e
  | es => some (.multiple es)

/-- An outcome tells of these failures and of nothing else. -/
structure Reports (r : Except StoreError α) (es : List StoreError) : Prop where
  /-- None of them is made of others. -/
  plain : ∀ e ∈ es, e.isPlain = true
  ok_iff : r.isOk = true ↔ es = []
  parts : ∀ err, r = .error err → err.parts = es
  one : ∀ e, es = [e] → r = .error e
  more : 2 ≤ es.length → r = .error (.multiple es)
  notFound_iff : (∃ err, r = .error err ∧ err.isNotFound = true) ↔ es = [.notFound]

theorem Reports.failure?_eq (h : Reports r es) : failure? r = joined es := by
  match es with
  | [] =>
    cases r with
    | ok a => rfl
    | error err =>
      have := h.ok_iff.mpr rfl
      cases this
  | [e] => rw [h.one e rfl]; rfl
  | e :: f :: es => rw [h.more (by simp)]; rfl

theorem isNotFound_iff : e.isNotFound = true ↔ e = .notFound := by
  cases e <;> simp [isNotFound]

theorem reports_of_joined (hp : ∀ e ∈ es, e.isPlain = true) (h : failure? r = joined es) :
    Reports r es := by
  cases r with
  | ok a =>
    have hes : es = [] := by
      match es with
      | [] => rfl
      | [e] => cases h
      | e :: f :: es => cases h
    subst hes
    constructor <;> simp [Except.isOk, Except.toBool]
  | error err =>
    match es with
    | [] => cases h
    | [e] =>
      obtain rfl := Option.some.inj h
      have he := hp err (by simp)
      constructor <;> simp [Except.isOk, Except.toBool, he, parts_of_isPlain, isNotFound_iff]
    | e :: f :: es =>
      obtain rfl := Option.some.inj h
      constructor <;> simp [Except.isOk, Except.toBool, StoreError.parts, isNotFound]
      simpa using hp

theorem reports_ok (a : α) : Reports (.ok a) [] :=
  reports_of_joined (by simp) rfl

theorem reports_iff :
    Reports r es ↔ (∀ e ∈ es, e.isPlain = true) ∧ failure? r = joined es :=
  ⟨fun h => ⟨h.plain, h.failure?_eq⟩, fun h => reports_of_joined h.1 h.2⟩

theorem failure?_append (r : Except StoreError α) (r' : Except StoreError Unit) :
    failure? (append r r') = match failure? r, failure? r' with
      | none, o => o
      | some e, none => some e
      | some e, some f => some (e.combine f) := by
  cases r <;> cases r' <;> rfl

theorem joined_of_two_le (h : 2 ≤ es.length) : joined es = some (.multiple es) := by
  match es, h with
  | _ :: _ :: _, _ => rfl

theorem exists_joined (h : es ≠ []) (hp : ∀ e ∈ es, e.isPlain = true) :
    ∃ e, joined es = some e ∧ e.parts = es := by
  match es with
  | [] => exact absurd rfl h
  | [e] => exact ⟨e, rfl, parts_of_isPlain (hp e (by simp))⟩
  | e :: f :: es => exact ⟨_, rfl, rfl⟩

theorem joined_append (h : ∀ e ∈ es, e.isPlain = true) (h' : ∀ e ∈ es', e.isPlain = true) :
    joined (es ++ es') = match joined es, joined es' with
      | none, o => o
      | some e, none => some e
      | some e, some f => some (e.combine f) := by
  by_cases hn : es = []
  · subst hn
    rfl
  by_cases hn' : es' = []
  · subst hn'
    rw [List.append_nil]
    cases joined es <;> rfl
  obtain ⟨e, he, hes⟩ := exists_joined hn h
  obtain ⟨f, hf, hes'⟩ := exists_joined hn' h'
  have hl : 2 ≤ (es ++ es').length := by
    have := List.length_pos_iff.mpr hn
    have := List.length_pos_iff.mpr hn'
    rw [List.length_append]
    omega
  rw [he, hf, joined_of_two_le hl]
  dsimp only
  rw [combine, hes, hes']

theorem Reports.append (h : Reports r es) (h' : Reports r' es') :
    Reports (append r r') (es ++ es') := by
  rw [reports_iff] at h h' ⊢
  constructor
  · exact List.forall_mem_append.mpr ⟨h.1, h'.1⟩
  · rw [failure?_append, joined_append h.1 h'.1, h.2, h'.2]

theorem Reports.congr {r'' : Except StoreError β} (h : Reports r es)
    (hr : failure? r'' = failure? r) : Reports r'' es := by
  rw [reports_iff] at h ⊢
  rwa [hr]

theorem reports_toList (hp : ∀ e, o = some e → e.isPlain = true) (h : failure? r = o) :
    Reports r o.toList := by
  apply reports_of_joined
  · simpa using hp
  · cases o <;> exact h

end StoreError

end PeerBook
