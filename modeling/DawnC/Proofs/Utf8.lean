import DawnC.Text.Utf8

set_option autoImplicit false

namespace DawnC.Utf8

theorem toNat_ofNat {n : Nat} (small : n < 256) : (UInt8.ofNat n).toNat = n := by
  rw [UInt8.toNat_ofNat', Nat.mod_eq_of_lt small]

theorem between_iff {low high b : UInt8} :
    (decide (low ≤ b) && decide (b ≤ high)) = true ↔ low.toNat ≤ b.toNat ∧ b.toNat ≤ high.toNat := by
  rw [Bool.and_eq_true, decide_eq_true_eq, decide_eq_true_eq, UInt8.le_iff_toNat_le,
    UInt8.le_iff_toNat_le]

theorem isTail_ofNat (n : Nat) : isTail (UInt8.ofNat (n % 64 + 128)) = true := by
  refine between_iff.mpr ?_
  rw [toNat_ofNat (by omega)]
  constructor
  · exact Nat.le_add_left 128 _
  · change _ ≤ 191
    omega

theorem tailBits_ofNat (n : Nat) : tailBits (UInt8.ofNat (n % 64 + 128)) = n % 64 := by
  rw [tailBits, toNat_ofNat (by omega)]
  omega

/-- The code points of a character leave out the surrogates. -/
theorem scalar (c : Char) : c.toNat < 0xD800 ∨ 0xDFFF < c.toNat ∧ c.toNat < 0x110000 := c.valid

/-- The second byte of three- and four-byte forms is in bounds, since they are not overlong, no
surrogates and not past the last code point. -/
theorem isSecond_ofNat {lead : UInt8} {n : Nat}
    (low : lead.toNat = 0xE0 → 32 ≤ n % 64) (surrogate : lead.toNat = 0xED → n % 64 ≤ 31)
    (least : lead.toNat = 0xF0 → 16 ≤ n % 64) (most : lead.toNat = 0xF4 → n % 64 ≤ 15) :
    isSecond lead (UInt8.ofNat (n % 64 + 128)) = true := by
  refine between_iff.mpr ?_
  rw [toNat_ofNat (by omega)]
  simp only [secondBounds]
  split
  · have bound := low (congrArg UInt8.toNat ‹_›)
    exact ⟨by change 160 ≤ _; omega, by change _ ≤ 191; omega⟩
  split
  · have bound := surrogate (congrArg UInt8.toNat ‹_›)
    exact ⟨by change 128 ≤ _; omega, by change _ ≤ 159; omega⟩
  split
  · have bound := least (congrArg UInt8.toNat ‹_›)
    exact ⟨by change 144 ≤ _; omega, by change _ ≤ 191; omega⟩
  split
  · have bound := most (congrArg UInt8.toNat ‹_›)
    exact ⟨by change 128 ≤ _; omega, by change _ ≤ 143; omega⟩
  · exact ⟨by change 128 ≤ _; omega, by change _ ≤ 191; omega⟩

theorem not_ascii {lead : UInt8} (low : 128 ≤ lead.toNat) : ¬ lead < 0x80 := by
  rw [UInt8.lt_iff_toNat_lt]
  change ¬ lead.toNat < 128
  omega

theorem not_between {low high b : UInt8} (outside : b.toNat < low.toNat ∨ high.toNat < b.toNat) :
    ¬ (decide (low ≤ b) && decide (b ≤ high)) = true := by
  rw [between_iff]
  omega

theorem charAt?_two {lead b : UInt8} (rest : Bytes) (low : 0xC2 ≤ lead.toNat)
    (high : lead.toNat ≤ 0xDF) (tail : isTail b = true) :
    charAt? lead (b :: rest) = some (Char.ofNat (lead.toNat % 32 * 64 + tailBits b), 1) := by
  have two : (decide (0xC2 ≤ lead) && decide (lead ≤ 0xDF)) = true := between_iff.mpr ⟨low, high⟩
  simp only [charAt?, if_neg (not_ascii (by omega : 128 ≤ lead.toNat)), two, tail, if_true]

theorem charAt?_three {lead b c : UInt8} (rest : Bytes) (low : 0xE0 ≤ lead.toNat)
    (high : lead.toNat ≤ 0xEF) (second : isSecond lead b = true) (tail : isTail c = true) :
    charAt? lead (b :: c :: rest) =
      some (Char.ofNat ((lead.toNat % 16 * 64 + tailBits b) * 64 + tailBits c), 2) := by
  have two : ¬ (decide (0xC2 ≤ lead) && decide (lead ≤ 0xDF)) = true :=
    not_between (Or.inr (by change 223 < _; omega))
  have three : (decide (0xE0 ≤ lead) && decide (lead ≤ 0xEF)) = true := between_iff.mpr ⟨low, high⟩
  simp only [charAt?, if_neg (not_ascii (by omega : 128 ≤ lead.toNat)), if_neg two, three, second,
    tail, Bool.and_self, if_true]

theorem charAt?_four {lead b c d : UInt8} (rest : Bytes) (low : 0xF0 ≤ lead.toNat)
    (high : lead.toNat ≤ 0xF4) (second : isSecond lead b = true) (third : isTail c = true)
    (tail : isTail d = true) :
    charAt? lead (b :: c :: d :: rest) =
      some (Char.ofNat (((lead.toNat % 8 * 64 + tailBits b) * 64 + tailBits c) * 64 + tailBits d),
        3) := by
  have two : ¬ (decide (0xC2 ≤ lead) && decide (lead ≤ 0xDF)) = true :=
    not_between (Or.inr (by change 223 < _; omega))
  have three : ¬ (decide (0xE0 ≤ lead) && decide (lead ≤ 0xEF)) = true :=
    not_between (Or.inr (by change 239 < _; omega))
  have four : (decide (0xF0 ≤ lead) && decide (lead ≤ 0xF4)) = true := between_iff.mpr ⟨low, high⟩
  simp only [charAt?, if_neg (not_ascii (by omega : 128 ≤ lead.toNat)), if_neg two, if_neg three,
    four, second, third, tail, Bool.and_self, if_true]

/-- A character is read back from the bytes it is encoded as, whatever follows them. -/
theorem charAt?_encodeChar (c : Char) (rest : Bytes) :
    ∃ lead tail, String.utf8EncodeChar c = lead :: tail ∧
      charAt? lead (tail ++ rest) = some (c, tail.length) := by
  have valid := scalar c
  change c.val.toNat < _ ∨ _ < c.val.toNat ∧ c.val.toNat < _ at valid
  have back : Char.ofNat c.val.toNat = c := Char.ofNat_toNat c
  simp only [String.utf8EncodeChar]
  split
  · refine ⟨_, [], rfl, ?_⟩
    have value : (UInt8.ofNat c.val.toNat).toNat = c.val.toNat := toNat_ofNat (by omega)
    have ascii : UInt8.ofNat c.val.toNat < 0x80 := by
      rw [UInt8.lt_iff_toNat_lt, value]
      change _ < 128
      omega
    simp only [charAt?, if_pos ascii, value, back, List.length_nil]
  split
  · have value : (UInt8.ofNat (c.val.toNat / 64 % 32 + 192)).toNat = c.val.toNat / 64 % 32 + 192 :=
      toNat_ofNat (by omega)
    refine ⟨_, [_], rfl, (charAt?_two rest ?_ ?_ (isTail_ofNat _)).trans ?_⟩
    · omega
    · omega
    · rw [value, tailBits_ofNat]
      refine congrArg some (Prod.ext ?_ rfl)
      refine Eq.trans (congrArg Char.ofNat ?_) back
      omega
  split
  · have value : (UInt8.ofNat (c.val.toNat / 4096 % 16 + 224)).toNat =
        c.val.toNat / 4096 % 16 + 224 := toNat_ofNat (by omega)
    have second : isSecond (UInt8.ofNat (c.val.toNat / 4096 % 16 + 224))
        (UInt8.ofNat (c.val.toNat / 64 % 64 + 128)) = true := by
      refine isSecond_ofNat ?_ ?_ ?_ ?_ <;>
      · rw [value]
        omega
    refine ⟨_, [_, _], rfl, (charAt?_three rest ?_ ?_ second (isTail_ofNat _)).trans ?_⟩
    · omega
    · omega
    · rw [value, tailBits_ofNat, tailBits_ofNat]
      refine congrArg some (Prod.ext ?_ rfl)
      refine Eq.trans (congrArg Char.ofNat ?_) back
      omega
  · have value : (UInt8.ofNat (c.val.toNat / 262144 % 8 + 240)).toNat =
        c.val.toNat / 262144 % 8 + 240 := toNat_ofNat (by omega)
    have second : isSecond (UInt8.ofNat (c.val.toNat / 262144 % 8 + 240))
        (UInt8.ofNat (c.val.toNat / 4096 % 64 + 128)) = true := by
      refine isSecond_ofNat ?_ ?_ ?_ ?_ <;>
      · rw [value]
        omega
    refine ⟨_, [_, _, _], rfl,
      (charAt?_four rest ?_ ?_ second (isTail_ofNat _) (isTail_ofNat _)).trans ?_⟩
    · omega
    · omega
    · rw [value, tailBits_ofNat, tailBits_ofNat, tailBits_ofNat]
      refine congrArg some (Prod.ext ?_ rfl)
      refine Eq.trans (congrArg Char.ofNat ?_) back
      omega

theorem decodeFrom_skip (done : List Char) (skipped rest : Bytes) :
    decodeFrom done skipped.length (skipped ++ rest) = decodeFrom done 0 rest := by
  induction skipped with
  | nil => rfl
  | cons b skipped ih =>
      rw [List.length_cons, List.cons_append, decodeFrom, ih]

theorem decodeFrom_encode (done chars : List Char) :
    decodeFrom done 0 (chars.flatMap String.utf8EncodeChar) = done.reverse ++ chars := by
  induction chars generalizing done with
  | nil => rw [List.flatMap_nil, decodeFrom, List.append_nil]
  | cons c chars ih =>
      obtain ⟨lead, tail, encoded, read⟩ :=
        charAt?_encodeChar c (chars.flatMap String.utf8EncodeChar)
      rw [List.flatMap_cons, encoded, List.cons_append, decodeFrom, read]
      simp only
      rw [decodeFrom_skip, ih, List.reverse_cons, List.append_assoc, List.singleton_append]

theorem decode_encode (text : String) : decode (encode text) = text.toList := by
  have bytes : encode text = text.toList.flatMap String.utf8EncodeChar := by
    rw [encode, String.toUTF8, ← String.utf8Encode_toList, List.utf8Encode]
    simp
  rw [decode, bytes, decodeFrom_encode, List.reverse_nil, List.nil_append]

end DawnC.Utf8
