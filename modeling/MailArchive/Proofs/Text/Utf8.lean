import MailArchive.Text.Utf8

/-!
# MailArchive.Proofs.Text.Utf8

Bytes of UTF-8 read back, and no other bytes read. `next_encodeChar` takes one character off the
front, whatever its form is long, and `eq_of_next` says that nothing but the form of a character is
taken for one. So bytes are read as a text exactly if they are written for it (`decode_eq_ok_iff`),
and the bytes that can be read are the valid ones (`isValidUTF8_iff`).
-/

namespace MailArchive
namespace Utf8

/-! ## Bytes as numbers -/

theorem toNat_byte {n : Nat} (h : n < 256) : (UInt8.ofNat n).toNat = n := by
  rw [UInt8.toNat_ofNat']
  exact Nat.mod_eq_of_lt h

theorem byte_eq {n : Nat} {b : UInt8} (h : n = b.toNat) : UInt8.ofNat n = b := by
  rw [h, UInt8.ofNat_toNat]

theorem sequenceLength_eq (b : UInt8) :
    sequenceLength b =
      if b.toNat < 0x80 then 1 else if b.toNat < 0xC2 then 0 else if b.toNat < 0xE0 then 2
      else if b.toNat < 0xF0 then 3 else if b.toNat < 0xF5 then 4 else 0 := by
  unfold sequenceLength
  simp only [UInt8.lt_iff_toNat_lt]
  rfl

/-- The length of a sequence tells between which bytes its first byte is. -/
theorem sequenceLength_cases (b : UInt8) :
    sequenceLength b = 0 ∨ (sequenceLength b = 1 ∧ b.toNat < 0x80) ∨
      (sequenceLength b = 2 ∧ 0xC2 ≤ b.toNat ∧ b.toNat < 0xE0) ∨
      (sequenceLength b = 3 ∧ 0xE0 ≤ b.toNat ∧ b.toNat < 0xF0) ∨
      (sequenceLength b = 4 ∧ 0xF0 ≤ b.toNat ∧ b.toNat < 0xF5) := by
  rw [sequenceLength_eq]
  grind

theorem isContinuation_iff {b : UInt8} :
    isContinuation b = true ↔ 0x80 ≤ b.toNat ∧ b.toNat ≤ 0xBF := by
  simp [isContinuation, UInt8.le_iff_toNat_le]

theorem mayFollow_iff {a b : UInt8} :
    mayFollow a b = true ↔
      (0x80 ≤ b.toNat ∧ b.toNat ≤ 0xBF) ∧ (a.toNat = 0xE0 → 0xA0 ≤ b.toNat) ∧
        (a.toNat = 0xED → b.toNat < 0xA0) ∧ (a.toNat = 0xF0 → 0x90 ≤ b.toNat) ∧
        (a.toNat = 0xF4 → b.toNat < 0x90) := by
  unfold mayFollow
  simp [isContinuation_iff, UInt8.le_iff_toNat_le, UInt8.lt_iff_toNat_lt, ← UInt8.toNat_inj,
    and_assoc, Decidable.imp_iff_not_or]

theorem charOf_eq {lead : UInt8} {leadBits : Nat} {tail : Bytes} {c : Char}
    (h : tail.foldl (fun n b => 64 * n + b.toNat % 64) (lead.toNat % leadBits) = c.toNat) :
    charOf lead leadBits tail = c := by
  rw [charOf, h, Char.ofNat_toNat]

theorem toNat_charOf {lead : UInt8} {leadBits : Nat} {tail : Bytes} {n : Nat}
    (h : tail.foldl (fun n b => 64 * n + b.toNat % 64) (lead.toNat % leadBits) = n)
    (hn : n.isValidChar) : (charOf lead leadBits tail).toNat = n := by
  rw [charOf, h, Char.ofNat, dif_pos hn]
  rfl

/-! ## One character read back -/

variable {index : Nat} {a b c d : UInt8} {bytes rest : Bytes} {v : Char}

theorem next_two (ha : sequenceLength a = 2) (hb : mayFollow a b = true)
    (hv : charOf a 32 [b] = v) : next index (a :: b :: rest) = .ok (some (v, rest)) := by
  simp [next, ha, hb, hv]

theorem next_three (ha : sequenceLength a = 3) (hb : mayFollow a b = true)
    (hc : isContinuation c = true) (hv : charOf a 16 [b, c] = v) :
    next index (a :: b :: c :: rest) = .ok (some (v, rest)) := by
  simp [next, ha, hb, hc, hv]

theorem next_four (ha : sequenceLength a = 4) (hb : mayFollow a b = true)
    (hc : isContinuation c = true) (hd : isContinuation d = true)
    (hv : charOf a 8 [b, c, d] = v) :
    next index (a :: b :: c :: d :: rest) = .ok (some (v, rest)) := by
  simp [next, ha, hb, hc, hd, hv]

/-- A character is taken off the front of the bytes that begin with its form. -/
theorem next_encodeChar (index : Nat) (c : Char) (rest : Bytes) :
    next index (String.utf8EncodeChar c ++ rest) = .ok (some (c, rest)) := by
  have hvalid : c.toNat < 0xD800 ∨ 0xDFFF < c.toNat ∧ c.toNat < 0x110000 := c.valid
  have hlow : (UInt8.ofNat (c.toNat % 0x40 + 0x80)).toNat = c.toNat % 0x40 + 0x80 :=
    toNat_byte (by omega)
  have hmiddle : (UInt8.ofNat (c.toNat / 64 % 0x40 + 0x80)).toNat = c.toNat / 64 % 0x40 + 0x80 :=
    toNat_byte (by omega)
  have hhigh : (UInt8.ofNat (c.toNat / 4096 % 0x40 + 0x80)).toNat = c.toNat / 4096 % 0x40 + 0x80 :=
    toNat_byte (by omega)
  unfold String.utf8EncodeChar
  rw [← Char.toNat]
  simp only
  split
  · have hlead : (UInt8.ofNat c.toNat).toNat = c.toNat := toNat_byte (by omega)
    have hlen : sequenceLength (UInt8.ofNat c.toNat) = 1 := by
      rw [sequenceLength_eq, hlead, if_pos (by omega)]
    have hchar : charOf (UInt8.ofNat c.toNat) 128 [] = c := by
      refine charOf_eq ?_
      rw [List.foldl_nil, hlead]
      omega
    simp [next, hlen, hchar]
  split
  · have hlead : (UInt8.ofNat (c.toNat / 64 % 0x20 + 0xC0)).toNat = c.toNat / 64 % 0x20 + 0xC0 :=
      toNat_byte (by omega)
    refine next_two ?_ ?_ (charOf_eq ?_)
    · rw [sequenceLength_eq, hlead, if_neg (by omega), if_neg (by omega), if_pos (by omega)]
    · rw [mayFollow_iff, hlead, hlow]
      omega
    · rw [List.foldl_cons, List.foldl_nil, hlead, hlow]
      omega
  split
  · have hlead :
        (UInt8.ofNat (c.toNat / 4096 % 0x10 + 0xE0)).toNat = c.toNat / 4096 % 0x10 + 0xE0 :=
      toNat_byte (by omega)
    refine next_three ?_ ?_ ?_ (charOf_eq ?_)
    · rw [sequenceLength_eq, hlead, if_neg (by omega), if_neg (by omega), if_neg (by omega),
        if_pos (by omega)]
    · rw [mayFollow_iff, hlead, hmiddle]
      omega
    · rw [isContinuation_iff, hlow]
      omega
    · rw [List.foldl_cons, List.foldl_cons, List.foldl_nil, hlead, hmiddle, hlow]
      omega
  · have hlead : (UInt8.ofNat (c.toNat / 262144 % 0x08 + 0xF0)).toNat =
        c.toNat / 262144 % 0x08 + 0xF0 := toNat_byte (by omega)
    refine next_four ?_ ?_ ?_ ?_ (charOf_eq ?_)
    · rw [sequenceLength_eq, hlead, if_neg (by omega), if_neg (by omega), if_neg (by omega),
        if_neg (by omega), if_pos (by omega)]
    · rw [mayFollow_iff, hlead, hhigh]
      omega
    · rw [isContinuation_iff, hmiddle]
      omega
    · rw [isContinuation_iff, hlow]
      omega
    · rw [List.foldl_cons, List.foldl_cons, List.foldl_cons, List.foldl_nil, hlead, hhigh, hmiddle,
        hlow]
      omega

/-! ## Nothing else read

Each sequence that is read is the form of the character it is read as. The bounds on the second byte
are what makes the form no longer than it must be and the character one that exists. -/

theorem encodeChar_one (ha : sequenceLength a = 1) :
    String.utf8EncodeChar (charOf a 128 []) = [a] := by
  have hlead := sequenceLength_cases a
  have hchar : (charOf a 128 []).toNat = a.toNat := by
    refine toNat_charOf ?_ (.inl (by omega))
    rw [List.foldl_nil]
    omega
  unfold String.utf8EncodeChar
  rw [← Char.toNat, hchar]
  simp only
  rw [if_pos (by omega), byte_eq rfl]

theorem encodeChar_two (ha : sequenceLength a = 2) (hb : mayFollow a b = true) :
    String.utf8EncodeChar (charOf a 32 [b]) = [a, b] := by
  have hlead := sequenceLength_cases a
  rw [mayFollow_iff] at hb
  have hchar : (charOf a 32 [b]).toNat = 64 * (a.toNat % 32) + b.toNat % 64 :=
    toNat_charOf rfl (.inl (by omega))
  unfold String.utf8EncodeChar
  rw [← Char.toNat, hchar]
  simp only
  rw [if_neg (by omega), if_pos (by omega), byte_eq (b := a) (by omega),
    byte_eq (b := b) (by omega)]

theorem encodeChar_three (ha : sequenceLength a = 3) (hb : mayFollow a b = true)
    (hc : isContinuation c = true) :
    String.utf8EncodeChar (charOf a 16 [b, c]) = [a, b, c] := by
  have hlead := sequenceLength_cases a
  rw [mayFollow_iff] at hb
  rw [isContinuation_iff] at hc
  have hchar : (charOf a 16 [b, c]).toNat =
      64 * (64 * (a.toNat % 16) + b.toNat % 64) + c.toNat % 64 := by
    refine toNat_charOf rfl ?_
    unfold Nat.isValidChar
    omega
  unfold String.utf8EncodeChar
  rw [← Char.toNat, hchar]
  simp only
  rw [if_neg (by omega), if_neg (by omega), if_pos (by omega), byte_eq (b := a) (by omega),
    byte_eq (b := b) (by omega), byte_eq (b := c) (by omega)]

theorem encodeChar_four (ha : sequenceLength a = 4) (hb : mayFollow a b = true)
    (hc : isContinuation c = true) (hd : isContinuation d = true) :
    String.utf8EncodeChar (charOf a 8 [b, c, d]) = [a, b, c, d] := by
  have hlead := sequenceLength_cases a
  rw [mayFollow_iff] at hb
  rw [isContinuation_iff] at hc hd
  have hchar : (charOf a 8 [b, c, d]).toNat =
      64 * (64 * (64 * (a.toNat % 8) + b.toNat % 64) + c.toNat % 64) + d.toNat % 64 := by
    refine toNat_charOf rfl ?_
    unfold Nat.isValidChar
    omega
  unfold String.utf8EncodeChar
  rw [← Char.toNat, hchar]
  simp only
  rw [if_neg (by omega), if_neg (by omega), if_neg (by omega), byte_eq (b := a) (by omega),
    byte_eq (b := b) (by omega), byte_eq (b := c) (by omega), byte_eq (b := d) (by omega)]

/-- A character is read only where the bytes begin with its form. -/
theorem eq_of_next (h : next index bytes = .ok (some (v, rest))) :
    bytes = String.utf8EncodeChar v ++ rest := by
  revert h
  fun_cases next index bytes with
  | case2 a tail ha =>
    rintro ⟨⟩
    rw [encodeChar_one ha]
    rfl
  | case4 a ha b tail hb =>
    rintro ⟨⟩
    rw [encodeChar_two ha hb]
    rfl
  | case9 a ha b hb c tail hc =>
    rintro ⟨⟩
    rw [encodeChar_three ha (by simpa using hb) hc]
    rfl
  | case16 a ha b hb c hc d tail hd =>
    rintro ⟨⟩
    rw [encodeChar_four ha (by simpa using hb) (by simpa using hc) hd]
    rfl
  | _ => nofun

/-- Reading ends only where the bytes do. -/
theorem eq_nil_of_next (h : next index bytes = .ok none) : bytes = [] := by
  revert h
  fun_cases next index bytes with
  | case1 => exact fun _ => rfl
  | _ => nofun

/-! ## A whole text -/

theorem decodeAfter_encode (read : Text) (index : Nat) (t : Text) :
    decodeAfter read index (encode t) = .ok (read.reverse ++ t) := by
  induction t generalizing read index with
  | nil =>
    rw [decodeAfter]
    split <;> simp_all [encode, next]
  | cons c t ih =>
    have hnext : next index (encode (c :: t)) = .ok (some (c, encode t)) :=
      next_encodeChar index c (encode t)
    rw [decodeAfter]
    split
    · rename_i h
      rw [hnext] at h
      cases h
    · rename_i h
      rw [hnext] at h
      cases h
    · rename_i d rest h
      rw [hnext] at h
      cases h
      rw [ih]
      simp

/-- The bytes of a text read back as that text. -/
theorem decode_encode (t : Text) : decode (encode t) = .ok t := decodeAfter_encode [] 0 t

theorem of_decodeAfter {read t : Text} (h : decodeAfter read index bytes = .ok t) :
    ∃ u, t = read.reverse ++ u ∧ bytes = encode u := by
  revert h
  fun_induction decodeAfter read index bytes with
  | case1 => nofun
  | case2 read index bytes hnext =>
    rintro ⟨⟩
    exact ⟨[], (List.append_nil _).symm, eq_nil_of_next hnext⟩
  | case3 read index bytes c rest hnext ih =>
    intro h
    obtain ⟨u, rfl, rfl⟩ := ih h
    refine ⟨c :: u, ?_, eq_of_next hnext⟩
    rw [List.reverse_cons, List.append_assoc, List.singleton_append]

/-- Bytes are read as a text exactly if they are the bytes of that text. -/
theorem decode_eq_ok_iff {t : Text} : decode bytes = .ok t ↔ bytes = encode t := by
  constructor
  · intro h
    obtain ⟨u, rfl, rfl⟩ := of_decodeAfter h
    rfl
  · rintro rfl
    exact decode_encode t

theorem encode_injective {t u : Text} (h : encode t = encode u) : t = u := by
  have hread : decode (encode t) = .ok u := decode_eq_ok_iff.mpr h
  rw [decode_encode] at hread
  exact Except.ok.inj hread

/-- The bytes of a text behind bytes that can be read add that text. -/
theorem decode_append {bytes : Bytes} {t : Text} (h : decode bytes = .ok t) (more : Text) :
    decode (bytes ++ encode more) = .ok (t ++ more) := by
  rw [decode_eq_ok_iff] at h ⊢
  rw [h, encode, encode, encode, List.flatMap_append]

/-- Bytes can be read exactly if they are valid. -/
theorem isValidUTF8_iff : bytes.toByteArray.IsValidUTF8 ↔ ∃ t, decode bytes = .ok t := by
  constructor
  · rintro ⟨t, ht⟩
    exact ⟨t, decode_eq_ok_iff.mpr (List.toByteArray_inj.mp ht)⟩
  · rintro ⟨t, ht⟩
    obtain rfl := decode_eq_ok_iff.mp ht
    exact ⟨t, rfl⟩

/-- A character of ASCII is one byte. -/
theorem encode_of_isAscii {t : Text} (h : ∀ c ∈ t, Text.isAscii c = true) :
    encode t = t.map fun c => UInt8.ofNat c.toNat := by
  induction t with
  | nil => rfl
  | cons c t ih =>
    have hc : c.toNat < 128 := by simpa [Text.isAscii] using h c List.mem_cons_self
    have hchar : String.utf8EncodeChar c = [UInt8.ofNat c.toNat] := by
      unfold String.utf8EncodeChar
      rw [← Char.toNat, if_pos (by omega)]
    rw [encode, List.flatMap_cons, hchar, ← encode, ih fun d hd => h d (List.mem_cons_of_mem _ hd)]
    rfl

end Utf8
end MailArchive
