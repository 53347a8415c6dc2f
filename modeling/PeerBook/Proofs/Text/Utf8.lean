import PeerBook.Text.Utf8

/-! # Decoding what was encoded

The bytes of a character are taken off the front of a byte string as that
character, so a text is decoded from its encoding, and texts with the same
encoding are the same. No byte of a text is above 0xF4. A character is only taken
off bytes that are its own, so a text is decoded from nothing but its encoding.
-/

namespace PeerBook.Utf8

variable {lead b c d : UInt8}

theorem toNat_ofNat {n : Nat} (h : n < 256) : (UInt8.ofNat n).toNat = n :=
  UInt8.toNat_ofNat_of_lt' h

theorem not_lt_of_toNat (h : c.toNat ≤ b.toNat) : ¬ b < c :=
  fun hl => Nat.not_lt.mpr h (UInt8.lt_iff_toNat_lt.mp hl)

theorem not_le_of_toNat (h : c.toNat < b.toNat) : ¬ b ≤ c :=
  fun hl => Nat.not_le.mpr h (UInt8.le_iff_toNat_le.mp hl)

theorem isTail_ofNat (n : Nat) : isTail (UInt8.ofNat (n % 64 + 0x80)) = true := by
  have hn : (UInt8.ofNat (n % 64 + 0x80)).toNat = n % 64 + 0x80 := toNat_ofNat (by omega)
  have hl : 0x80 ≤ UInt8.ofNat (n % 64 + 0x80) :=
    UInt8.le_iff_toNat_le.mpr (show 0x80 ≤ _ by omega)
  have hu : UInt8.ofNat (n % 64 + 0x80) ≤ 0xBF :=
    UInt8.le_iff_toNat_le.mpr (show _ ≤ 0xBF by omega)
  rw [isTail, Bool.and_eq_true, decide_eq_true_iff, decide_eq_true_iff]
  exact ⟨hl, hu⟩

theorem within_of_toNat {x y low low' high high' : UInt8} (h : low'.toNat ≤ b.toNat)
    (h' : b.toNat ≤ high'.toNat) (hl : lead.toNat = x.toNat → low.toNat ≤ b.toNat)
    (hh : lead.toNat = y.toNat → b.toNat ≤ high.toNat) :
    (decide ((if lead = x then low else low') ≤ b) &&
      decide (b ≤ if lead = y then high else high')) = true := by
  rw [Bool.and_eq_true, decide_eq_true_iff, decide_eq_true_iff, UInt8.le_iff_toNat_le,
    UInt8.le_iff_toNat_le]
  constructor
  · split
    · exact hl (congrArg UInt8.toNat ‹lead = x›)
    · exact h
  · split
    · exact hh (congrArg UInt8.toNat ‹lead = y›)
    · exact h'

theorem isSecondOfThree_of_toNat (h : 0x80 ≤ b.toNat) (h' : b.toNat ≤ 0xBF)
    (hl : lead.toNat = 0xE0 → 0xA0 ≤ b.toNat) (hh : lead.toNat = 0xED → b.toNat ≤ 0x9F) :
    isSecondOfThree lead b = true :=
  within_of_toNat h h' hl hh

theorem isSecondOfFour_of_toNat (h : 0x80 ≤ b.toNat) (h' : b.toNat ≤ 0xBF)
    (hl : lead.toNat = 0xF0 → 0x90 ≤ b.toNat) (hh : lead.toNat = 0xF4 → b.toNat ≤ 0x8F) :
    isSecondOfFour lead b = true :=
  within_of_toNat h h' hl hh

theorem head_one (h : lead.toNat < 0x80) (rest : Bytes) :
    head lead rest = .char (Char.ofNat lead.toNat) rest := by
  have hl : lead < 0x80 := UInt8.lt_iff_toNat_lt.mpr h
  rw [head, if_pos hl]

theorem head_two (h : 0xC2 ≤ lead.toNat) (h' : lead.toNat ≤ 0xDF) (hb : isTail b = true)
    (rest : Bytes) :
    head lead (b :: rest) =
      .char (Char.ofNat (lead.toNat % 32 * 64 + b.toNat % 64)) rest := by
  have h0 : ¬ lead < 0x80 := not_lt_of_toNat (show 0x80 ≤ lead.toNat by omega)
  have h1 : 0xC2 ≤ lead ∧ lead ≤ 0xDF :=
    ⟨UInt8.le_iff_toNat_le.mpr h, UInt8.le_iff_toNat_le.mpr h'⟩
  rw [head, if_neg h0, if_pos h1, headOfTwo, if_pos hb]

theorem head_three (h : 0xE0 ≤ lead.toNat) (h' : lead.toNat ≤ 0xEF)
    (hb : isSecondOfThree lead b = true) (hc : isTail c = true) (rest : Bytes) :
    head lead (b :: c :: rest) =
      .char (Char.ofNat (lead.toNat % 16 * 4096 + b.toNat % 64 * 64 + c.toNat % 64)) rest := by
  have h0 : ¬ lead < 0x80 := not_lt_of_toNat (show 0x80 ≤ lead.toNat by omega)
  have h1 : ¬ lead ≤ 0xDF := not_le_of_toNat (show 0xDF < lead.toNat by omega)
  have h2 : 0xE0 ≤ lead ∧ lead ≤ 0xEF :=
    ⟨UInt8.le_iff_toNat_le.mpr h, UInt8.le_iff_toNat_le.mpr h'⟩
  rw [head, if_neg h0, if_neg (fun hl => h1 hl.2), if_pos h2]
  simp only [headOfThree, if_pos hb, if_pos hc]

theorem head_four (h : 0xF0 ≤ lead.toNat) (h' : lead.toNat ≤ 0xF4)
    (hb : isSecondOfFour lead b = true) (hc : isTail c = true) (hd : isTail d = true)
    (rest : Bytes) :
    head lead (b :: c :: d :: rest) =
      .char (Char.ofNat (lead.toNat % 8 * 262144 + b.toNat % 64 * 4096 + c.toNat % 64 * 64 +
        d.toNat % 64)) rest := by
  have h0 : ¬ lead < 0x80 := not_lt_of_toNat (show 0x80 ≤ lead.toNat by omega)
  have h1 : ¬ lead ≤ 0xDF := not_le_of_toNat (show 0xDF < lead.toNat by omega)
  have h2 : ¬ lead ≤ 0xEF := not_le_of_toNat (show 0xEF < lead.toNat by omega)
  have h3 : 0xF0 ≤ lead ∧ lead ≤ 0xF4 :=
    ⟨UInt8.le_iff_toNat_le.mpr h, UInt8.le_iff_toNat_le.mpr h'⟩
  rw [head, if_neg h0, if_neg (fun hl => h1 hl.2), if_neg (fun hl => h2 hl.2), if_pos h3]
  simp only [headOfFour, if_pos hb, if_pos hc, if_pos hd]

theorem exists_head_encodeChar (c : Char) :
    ∃ lead tail, String.utf8EncodeChar c = lead :: tail ∧
      ∀ rest, head lead (tail ++ rest) = .char c rest := by
  have hc : Char.ofNat c.val.toNat = c := Char.ofNat_toNat c
  have hv : c.val.toNat < 0xD800 ∨ 0xDFFF < c.val.toNat ∧ c.val.toNat < 0x110000 := c.valid
  unfold String.utf8EncodeChar
  generalize c.val.toNat = v at hc hv
  have htail (n : Nat) : (UInt8.ofNat (n % 64 + 0x80)).toNat = n % 64 + 0x80 :=
    toNat_ofNat (by omega)
  by_cases h1 : v ≤ 0x7F
  · have hl : (UInt8.ofNat v).toNat = v := toNat_ofNat (by omega)
    refine ⟨_, [], if_pos h1, fun rest => ?_⟩
    rw [List.nil_append, head_one (by omega), hl, hc]
  by_cases h2 : v ≤ 0x7FF
  · have hl : (UInt8.ofNat (v / 64 % 32 + 0xC0)).toNat = v / 64 % 32 + 0xC0 :=
      toNat_ofNat (by omega)
    have he : (v / 64 % 32 + 0xC0) % 32 * 64 + (v % 64 + 0x80) % 64 = v := by omega
    refine ⟨_, [_], (if_neg h1).trans (if_pos h2), fun rest => ?_⟩
    rw [List.singleton_append, head_two (by omega) (by omega) (isTail_ofNat v), hl, htail, he, hc]
  by_cases h3 : v ≤ 0xFFFF
  · have hl : (UInt8.ofNat (v / 4096 % 16 + 0xE0)).toNat = v / 4096 % 16 + 0xE0 :=
      toNat_ofNat (by omega)
    have he : (v / 4096 % 16 + 0xE0) % 16 * 4096 + (v / 64 % 64 + 0x80) % 64 * 64 +
        (v % 64 + 0x80) % 64 = v := by omega
    have hs : isSecondOfThree (UInt8.ofNat (v / 4096 % 16 + 0xE0))
        (UInt8.ofNat (v / 64 % 64 + 0x80)) = true := by
      apply isSecondOfThree_of_toNat <;> rw [htail] <;> omega
    refine ⟨_, [_, _], (if_neg h1).trans ((if_neg h2).trans (if_pos h3)), fun rest => ?_⟩
    rw [List.cons_append, List.singleton_append,
      head_three (by omega) (by omega) hs (isTail_ofNat v), hl, htail, htail, he, hc]
  · have hl : (UInt8.ofNat (v / 262144 % 8 + 0xF0)).toNat = v / 262144 % 8 + 0xF0 :=
      toNat_ofNat (by omega)
    have he : (v / 262144 % 8 + 0xF0) % 8 * 262144 + (v / 4096 % 64 + 0x80) % 64 * 4096 +
        (v / 64 % 64 + 0x80) % 64 * 64 + (v % 64 + 0x80) % 64 = v := by omega
    have hs : isSecondOfFour (UInt8.ofNat (v / 262144 % 8 + 0xF0))
        (UInt8.ofNat (v / 4096 % 64 + 0x80)) = true := by
      apply isSecondOfFour_of_toNat <;> rw [htail] <;> omega
    refine ⟨_, [_, _, _], (if_neg h1).trans ((if_neg h2).trans (if_neg h3)), fun rest => ?_⟩
    rw [List.cons_append, List.cons_append, List.singleton_append,
      head_four (by omega) (by omega) hs (isTail_ofNat _) (isTail_ofNat v), hl, htail, htail, htail,
      he, hc]

theorem le_of_mem_encodeChar {c : Char} (h : b ∈ String.utf8EncodeChar c) : b.toNat ≤ 0xF4 := by
  have hv : c.val.toNat < 0xD800 ∨ 0xDFFF < c.val.toNat ∧ c.val.toNat < 0x110000 := c.valid
  unfold String.utf8EncodeChar at h
  generalize c.val.toNat = v at h hv
  have htail (n : Nat) : (UInt8.ofNat (n % 64 + 0x80)).toNat = n % 64 + 0x80 :=
    toNat_ofNat (by omega)
  dsimp only at h
  split at h
  · rw [List.mem_singleton.mp h, toNat_ofNat (by omega)]
    omega
  · simp only [apply_ite (b ∈ ·), List.mem_cons, List.not_mem_nil, or_false] at h
    split at h
    · rcases h with rfl | rfl
      · rw [toNat_ofNat (by omega)]
        omega
      · rw [htail]
        omega
    · split at h
      · rcases h with rfl | rfl | rfl
        · rw [toNat_ofNat (by omega)]
          omega
        all_goals
          rw [htail]
          omega
      · rcases h with rfl | rfl | rfl | rfl
        · rw [toNat_ofNat (by omega)]
          omega
        all_goals
          rw [htail]
          omega

theorem decodeFrom_char {start : Nat} {bs rest : Bytes} {ch : Char}
    (h : head lead bs = .char ch rest) :
    decodeFrom start (lead :: bs) =
      (decodeFrom (start + (bs.length + 1 - rest.length)) rest).map (ch :: ·) := by
  rw [decodeFrom]
  split
  · rename_i h'
    obtain ⟨rfl, rfl⟩ : ch = _ ∧ rest = _ := by simpa using h.symm.trans h'
    cases decodeFrom (start + (bs.length + 1 - rest.length)) rest <;> rfl
  · simp_all
  · simp_all

theorem decodeFrom_encode (start : Nat) (cs : List Char) :
    decodeFrom start (cs.flatMap String.utf8EncodeChar) = .ok cs := by
  induction cs generalizing start with
  | nil => simp [decodeFrom]
  | cons ch cs ih =>
    obtain ⟨lead, tail, he, hh⟩ := exists_head_encodeChar ch
    rw [List.flatMap_cons, he, List.cons_append, decodeFrom_char (hh _), ih]
    rfl

theorem decode_encode (s : String) : decode (encode s) = .ok s := by
  rw [decode, encode, decodeFrom_encode]
  exact congrArg Except.ok (String.ofList_toList)

theorem encode_inj {s t : String} (h : encode s = encode t) : s = t := by
  have hd := decode_encode s
  rw [h, decode_encode] at hd
  exact (Except.ok.inj hd).symm

theorem le_of_mem_encode {s : String} (h : b ∈ encode s) : b.toNat ≤ 0xF4 := by
  obtain ⟨ch, -, hb⟩ := List.mem_flatMap.mp h
  exact le_of_mem_encodeChar hb

theorem toNat_of_isTail (h : isTail b = true) : 0x80 ≤ b.toNat ∧ b.toNat ≤ 0xBF := by
  simpa [isTail, UInt8.le_iff_toNat_le] using h

theorem toNat_of_within {x y low low' high high' : UInt8} (hl : low' ≤ low) (hh : high ≤ high')
    (h : (decide ((if lead = x then low else low') ≤ b) &&
      decide (b ≤ if lead = y then high else high')) = true) :
    low'.toNat ≤ b.toNat ∧ b.toNat ≤ high'.toNat ∧ (lead.toNat = x.toNat → low.toNat ≤ b.toNat) ∧
      (lead.toNat = y.toNat → b.toNat ≤ high.toNat) := by
  simp only [Bool.and_eq_true, decide_eq_true_iff] at h
  simp only [UInt8.toNat_inj, UInt8.le_iff_toNat_le] at hl hh h ⊢
  grind

theorem toNat_of_isSecondOfThree (h : isSecondOfThree lead b = true) :
    0x80 ≤ b.toNat ∧ b.toNat ≤ 0xBF ∧ (lead.toNat = 0xE0 → 0xA0 ≤ b.toNat) ∧
      (lead.toNat = 0xED → b.toNat ≤ 0x9F) :=
  toNat_of_within (by decide) (by decide) h

theorem toNat_of_isSecondOfFour (h : isSecondOfFour lead b = true) :
    0x80 ≤ b.toNat ∧ b.toNat ≤ 0xBF ∧ (lead.toNat = 0xF0 → 0x90 ≤ b.toNat) ∧
      (lead.toNat = 0xF4 → b.toNat ≤ 0x8F) :=
  toNat_of_within (by decide) (by decide) h

theorem toNat_val_ofNat {n : Nat} (h : n.isValidChar) : (Char.ofNat n).val.toNat = n := by
  rw [Char.ofNat, dif_pos h]
  rfl

theorem ofNat_eq {n : Nat} (h : b.toNat = n) : UInt8.ofNat n = b := by
  rw [← h, UInt8.ofNat_toNat]

theorem encodeChar_one (h : lead.toNat < 0x80) :
    String.utf8EncodeChar (Char.ofNat lead.toNat) = [lead] := by
  have hv := toNat_val_ofNat (n := lead.toNat) (.inl (by omega))
  unfold String.utf8EncodeChar
  rw [hv, if_pos (by omega), UInt8.ofNat_toNat]

theorem encodeChar_two (h : 0xC2 ≤ lead.toNat) (h' : lead.toNat ≤ 0xDF) (hb : isTail b = true) :
    String.utf8EncodeChar (Char.ofNat (lead.toNat % 32 * 64 + b.toNat % 64)) = [lead, b] := by
  obtain ⟨hb, hb'⟩ := toNat_of_isTail hb
  have hv := toNat_val_ofNat (n := lead.toNat % 32 * 64 + b.toNat % 64) (.inl (by omega))
  unfold String.utf8EncodeChar
  rw [hv, if_neg (by omega), if_pos (by omega), ofNat_eq (b := lead) (by omega),
    ofNat_eq (b := b) (by omega)]

theorem encodeChar_three (h : 0xE0 ≤ lead.toNat) (h' : lead.toNat ≤ 0xEF)
    (hb : isSecondOfThree lead b = true) (hc : isTail c = true) :
    String.utf8EncodeChar (Char.ofNat (lead.toNat % 16 * 4096 + b.toNat % 64 * 64 +
      c.toNat % 64)) = [lead, b, c] := by
  obtain ⟨hb, hb', hlow, hhigh⟩ := toNat_of_isSecondOfThree hb
  obtain ⟨hc, hc'⟩ := toNat_of_isTail hc
  have hv := toNat_val_ofNat (n := lead.toNat % 16 * 4096 + b.toNat % 64 * 64 + c.toNat % 64)
    (by unfold Nat.isValidChar; omega)
  unfold String.utf8EncodeChar
  rw [hv, if_neg (by omega), if_neg (by omega), if_pos (by omega),
    ofNat_eq (b := lead) (by omega), ofNat_eq (b := b) (by omega), ofNat_eq (b := c) (by omega)]

theorem encodeChar_four (h : 0xF0 ≤ lead.toNat) (h' : lead.toNat ≤ 0xF4)
    (hb : isSecondOfFour lead b = true) (hc : isTail c = true) (hd : isTail d = true) :
    String.utf8EncodeChar (Char.ofNat (lead.toNat % 8 * 262144 + b.toNat % 64 * 4096 +
      c.toNat % 64 * 64 + d.toNat % 64)) = [lead, b, c, d] := by
  obtain ⟨hb, hb', hlow, hhigh⟩ := toNat_of_isSecondOfFour hb
  obtain ⟨hc, hc'⟩ := toNat_of_isTail hc
  obtain ⟨hd, hd'⟩ := toNat_of_isTail hd
  have hv := toNat_val_ofNat (n := lead.toNat % 8 * 262144 + b.toNat % 64 * 4096 +
    c.toNat % 64 * 64 + d.toNat % 64) (by unfold Nat.isValidChar; omega)
  unfold String.utf8EncodeChar
  rw [hv, if_neg (by omega), if_neg (by omega), if_neg (by omega),
    ofNat_eq (b := lead) (by omega), ofNat_eq (b := b) (by omega), ofNat_eq (b := c) (by omega),
    ofNat_eq (b := d) (by omega)]

variable {bs rest : Bytes} {ch : Char}

theorem of_headOfTwo (h : headOfTwo lead bs = .char ch rest) :
    ∃ b, bs = b :: rest ∧ isTail b = true ∧
      ch = Char.ofNat (lead.toNat % 32 * 64 + b.toNat % 64) := by
  unfold headOfTwo at h
  grind

theorem of_headOfThree (h : headOfThree lead bs = .char ch rest) :
    ∃ b c, bs = b :: c :: rest ∧ isSecondOfThree lead b = true ∧ isTail c = true ∧
      ch = Char.ofNat (lead.toNat % 16 * 4096 + b.toNat % 64 * 64 + c.toNat % 64) := by
  unfold headOfThree at h
  grind

theorem of_headOfFour (h : headOfFour lead bs = .char ch rest) :
    ∃ b c d, bs = b :: c :: d :: rest ∧ isSecondOfFour lead b = true ∧ isTail c = true ∧
      isTail d = true ∧
      ch = Char.ofNat (lead.toNat % 8 * 262144 + b.toNat % 64 * 4096 + c.toNat % 64 * 64 +
        d.toNat % 64) := by
  unfold headOfFour at h
  grind

theorem eq_encodeChar_of_head (h : head lead bs = .char ch rest) :
    lead :: bs = String.utf8EncodeChar ch ++ rest := by
  unfold head at h
  simp only [UInt8.lt_iff_toNat_lt, UInt8.le_iff_toNat_le] at h
  split at h
  · rename_i hlead
    cases h
    rw [encodeChar_one hlead]
    rfl
  split at h
  · rename_i hlead
    obtain ⟨b, rfl, hb, rfl⟩ := of_headOfTwo h
    rw [encodeChar_two hlead.1 hlead.2 hb]
    rfl
  split at h
  · rename_i hlead
    obtain ⟨b, c, rfl, hb, hc, rfl⟩ := of_headOfThree h
    rw [encodeChar_three hlead.1 hlead.2 hb hc]
    rfl
  split at h
  · rename_i hlead
    obtain ⟨b, c, d, rfl, hb, hc, hd, rfl⟩ := of_headOfFour h
    rw [encodeChar_four hlead.1 hlead.2 hb hc hd]
    rfl
  · cases h

theorem eq_flatMap_of_decodeFrom {start : Nat} {cs : List Char} (h : decodeFrom start bs = .ok cs) :
    bs = cs.flatMap String.utf8EncodeChar := by
  fun_induction decodeFrom start bs generalizing cs with
  | case1 =>
    cases h
    rfl
  | case2 start lead bs ch rest hhead _ cs' hrest ih =>
    cases h
    rw [eq_encodeChar_of_head hhead, List.flatMap_cons, ih hrest]
  | case3 | case4 | case5 => cases h

theorem decode_eq_ok_iff {s : String} : decode bs = .ok s ↔ bs = encode s := by
  constructor
  · intro h
    unfold decode at h
    cases hd : decodeFrom 0 bs with
    | error fault =>
      rw [hd] at h
      cases h
    | ok cs =>
      rw [hd] at h
      cases h
      rw [encode, String.toList_ofList]
      exact eq_flatMap_of_decodeFrom hd
  · rintro rfl
    exact decode_encode s

theorem ne_encode_of_decode {fault : Fault} (h : decode bs = .error fault) (s : String) :
    bs ≠ encode s := by
  intro he
  rw [decode_eq_ok_iff.mpr he] at h
  cases h

end PeerBook.Utf8
