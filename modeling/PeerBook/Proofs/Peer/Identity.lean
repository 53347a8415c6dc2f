import PeerBook.Peer.Identity
import PeerBook.Proofs.Text.Quoted

/-! # Reading identities

A text is read as an identity exactly if it spells one: the word for a kind, a
colon, and a spelling of a number of 64 bits. Any other text is given back,
and the message about it tells which text it was.
-/

namespace PeerBook

namespace Kind

/-- The word for a kind. -/
inductive Named : Kind → String → Prop
  | user : Named .user "user"
  | chat : Named .chat "chat"
  | channel : Named .channel "channel"

theorem named_name (k : Kind) : Named k k.name := by
  cases k <;> constructor

theorem ofName?_eq_some_iff {w : String} {k : Kind} : ofName? w = some k ↔ Named k w := by
  constructor
  · intro h
    have hname := List.find?_some h
    exact of_decide_eq_true hname ▸ named_name k
  · intro h
    cases h <;> rfl

theorem Named.colon_not_mem {w : String} {k : Kind} (h : Named k w) : ':' ∉ w.toList := by
  cases h <;> decide

end Kind

namespace Identity

variable {s t : String} {k : Identity}

/-- A text that spells a kind and an integer, which may be too large for an id. -/
def Spells (s : String) (kind : Kind) (z : Int) : Prop :=
  ∃ word cs, kind.Named word ∧ Numeral.Spells cs z ∧ s = word ++ ":" ++ String.ofList cs

theorem ofText?_append {word cs : List Char} (h : ':' ∉ word) (hs : s.toList = word ++ ':' :: cs) :
    ofText? s = some k ↔
      Kind.ofName? (String.ofList word) = some k.kind ∧ Numeral.readInt64? cs = some k.id := by
  rw [ofText?, hs, Quoted.span_append_mark h cs]
  dsimp only
  cases Kind.ofName? (String.ofList word) with
  | none => simp
  | some kind =>
    cases Numeral.readInt64? cs with
    | none => simp
    | some id =>
      obtain ⟨kind', id'⟩ := k
      simp

theorem ofText?_eq_none_of_not_mem (h : ':' ∉ s.toList) : ofText? s = none := by
  rw [ofText?, Quoted.span_of_not_mem h]

theorem ofText?_eq_some_iff : ofText? s = some k ↔ Spells s k.kind k.id.toInt := by
  constructor
  · intro h
    by_cases hm : ':' ∈ s.toList
    · obtain ⟨word, cs, hs, hword⟩ := List.eq_append_cons_of_mem hm
      obtain ⟨hkind, hid⟩ := (ofText?_append hword hs).mp h
      refine ⟨String.ofList word, cs, Kind.ofName?_eq_some_iff.mp hkind,
        Numeral.readInt64?_eq_some_iff.mp hid, ?_⟩
      rw [← String.toList_inj, hs]
      simp
    · rw [ofText?_eq_none_of_not_mem hm] at h
      cases h
  · rintro ⟨word, cs, hword, hcs, rfl⟩
    have hs : (word ++ ":" ++ String.ofList cs).toList = word.toList ++ ':' :: cs := by simp
    rw [ofText?_append hword.colon_not_mem hs, String.ofList_toList]
    exact ⟨Kind.ofName?_eq_some_iff.mpr hword, Numeral.readInt64?_eq_some_iff.mpr hcs⟩

theorem spells_toText (k : Identity) : Spells k.toText k.kind k.id.toInt := by
  refine ⟨k.kind.name, _, k.kind.named_name, Numeral.spells_integer k.id.toInt, ?_⟩
  rw [String.ofList_toList]
  rfl

theorem ofText_eq_ok_iff : ofText s = .ok k ↔ Spells s k.kind k.id.toInt := by
  rw [← ofText?_eq_some_iff, ofText]
  cases ofText? s <;> simp

theorem ofText_eq_error_iff {e : Misspelling} :
    ofText s = .error e ↔ e.text = s ∧ ¬ ∃ k : Identity, Spells s k.kind k.id.toInt := by
  simp only [← ofText?_eq_some_iff, ofText]
  cases ofText? s with
  | none =>
    constructor
    · rintro h
      obtain rfl := Except.error.inj h
      exact ⟨rfl, by simp⟩
    · rintro ⟨rfl, -⟩
      rfl
  | some k => exact iff_of_false (by simp) fun h => h.2 ⟨k, rfl⟩

theorem exists_spells_iff :
    (∃ k : Identity, Spells s k.kind k.id.toInt) ↔
      ∃ kind z, Spells s kind z ∧ -2 ^ 63 ≤ z ∧ z < 2 ^ 63 := by
  constructor
  · rintro ⟨k, h⟩
    exact ⟨k.kind, k.id.toInt, h, k.id.le_toInt, k.id.toInt_lt⟩
  · rintro ⟨kind, z, h, hle, hlt⟩
    refine ⟨⟨kind, Int64.ofInt z⟩, ?_⟩
    rwa [Int64.toInt_ofInt_of_le hle hlt]

theorem message_inj {e e' : Misspelling} (h : e.message = e'.message) : e = e' := by
  unfold Misspelling.message refusal at h
  have hquote := (String.append_right_inj _).mp ((String.append_left_inj _).mp h)
  exact congrArg Misspelling.mk (Quoted.quote_inj hquote)

/-- Every identity is read back from its text. A text is read as an identity exactly if it is
the word for the kind, a colon, and the id, spelled in one or more ASCII digits with or without a
sign in front. Any other text is refused, also where only the integer is out of range; the error
has the text as it was given, and its message tells which text this is. -/
theorem ofText_reads_spellings :
    (∀ k : Identity, ofText k.toText = .ok k) ∧
    (∀ s k, ofText s = .ok k ↔ Spells s k.kind k.id.toInt) ∧
    (∀ s e, ofText s = .error e ↔
      e.text = s ∧ ¬ ∃ kind z, Spells s kind z ∧ -2 ^ 63 ≤ z ∧ z < 2 ^ 63) ∧
    ∀ e e' : Misspelling, e.message = e'.message ↔ e.text = e'.text := by
  refine ⟨?_, fun s k => ofText_eq_ok_iff, ?_, ?_⟩
  · exact fun k => ofText_eq_ok_iff.mpr (spells_toText k)
  · intro s e
    rw [ofText_eq_error_iff, exists_spells_iff]
  · intro e e'
    constructor
    · intro h
      rw [message_inj h]
    · intro h
      rw [Misspelling.message, h, Misspelling.message]

example : ofText? "channel:-009223372036854775808" = some ⟨.channel, Int64.minValue⟩ := by decide

example : ofText? "user:9223372036854775808" = none := by decide

end Identity

end PeerBook
