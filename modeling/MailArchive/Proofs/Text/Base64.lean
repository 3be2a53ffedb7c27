import MailArchive.Proofs.Text.Utf8
import MailArchive.Text.Base64

/-!
# MailArchive.Proofs.Text.Base64

Base64 read back, and nothing else read. Nothing is wrong with a base64 form if its groups but the
last hold symbols only and nothing is wrong with the last (`fault?_eq_none_iff`), so a group can be
taken off the front (`fault?_append`) down to the last one, of which there are three kinds
(`fault?_full`, `fault?_three`, `fault?_two`). With the regrouping of bits in both directions
(`unpack_encode`, `encode_unpack`) this says that bytes are read exactly if they are the base64 form
of what is read from them (`decode_eq_ok_iff`).
-/

namespace MailArchive
namespace Base64

/-! ## Symbols -/

/-- The byte of a symbol. -/
def symbolByte (n : Nat) : UInt8 := UInt8.ofNat (symbol n).toNat

/-- The bytes of a base64 form. -/
def octets (t : Text) : Bytes := t.map fun c => UInt8.ofNat c.toNat

theorem value?_symbolByte : ∀ n < 64, value? (symbolByte n) = some n := by decide

theorem value?_padding : value? padding = none := rfl

theorem isSymbol_symbolByte {n : Nat} (h : n < 64) : isSymbol (symbolByte n) = true := by
  rw [isSymbol, value?_symbolByte n h]
  rfl

theorem symbolByte_ne_padding {n : Nat} (h : n < 64) : symbolByte n ≠ padding := by
  intro he
  have hv := value?_symbolByte n h
  rw [he, value?_padding] at hv
  cases hv

theorem isSymbol_padding : isSymbol padding = false := rfl

theorem of_value? {b : UInt8} {n : Nat} (h : value? b = some n) : n < 64 ∧ symbolByte n = b := by
  have hall : ∀ k < 256, ∀ n ∈ value? (UInt8.ofNat k), n < 64 ∧ symbolByte n = UInt8.ofNat k := by
    decide +kernel
  rw [← UInt8.ofNat_toNat (x := b)] at h ⊢
  exact hall _ b.toNat_lt n h

/-- The bytes that are symbols are those of the 64 symbols. -/
theorem isSymbol_iff {b : UInt8} : isSymbol b = true ↔ ∃ n < 64, symbolByte n = b := by
  constructor
  · intro h
    obtain ⟨n, hn⟩ := Option.isSome_iff_exists.mp h
    exact ⟨n, of_value? hn⟩
  · rintro ⟨n, hn, rfl⟩
    exact isSymbol_symbolByte hn

theorem filterMap_symbolByte {n : Nat} (h : n < 64) (bytes : Bytes) :
    (symbolByte n :: bytes).filterMap value? = n :: bytes.filterMap value? :=
  List.filterMap_cons_some (value?_symbolByte n h)

/-- A base64 form consists of symbols and padding. -/
theorem of_mem_encode {bytes : Bytes} {c : Char} (h : c ∈ encode bytes) :
    c = '=' ∨ ∃ n < 64, c = symbol n := by
  fun_induction encode bytes with
  | case1 x y z rest ih =>
    have hx := x.toNat_lt
    have hy := y.toNat_lt
    have hz := z.toNat_lt
    simp only [List.mem_cons] at h
    rcases h with h | h | h | h | h
    · exact .inr ⟨_, by omega, h⟩
    · exact .inr ⟨_, by omega, h⟩
    · exact .inr ⟨_, by omega, h⟩
    · exact .inr ⟨_, by omega, h⟩
    · exact ih h
  | case2 x y =>
    have hx := x.toNat_lt
    have hy := y.toNat_lt
    simp only [List.mem_cons, List.not_mem_nil, or_false] at h
    rcases h with h | h | h | h
    · exact .inr ⟨_, by omega, h⟩
    · exact .inr ⟨_, by omega, h⟩
    · exact .inr ⟨_, by omega, h⟩
    · exact .inl h
  | case3 x =>
    have hx := x.toNat_lt
    simp only [List.mem_cons, List.not_mem_nil, or_false] at h
    rcases h with h | h | h | h
    · exact .inr ⟨_, by omega, h⟩
    · exact .inr ⟨_, by omega, h⟩
    · exact .inl h
    · exact .inl h
  | case4 => cases h

theorem symbol_plain :
    ∀ n < 64, Text.isAscii (symbol n) = true ∧ symbol n ∉ ['?', '\r', '\n', '>'] := by decide

/-- A base64 form is in ASCII, on one line, and without a question mark. -/
theorem encode_plain {bytes : Bytes} {c : Char} (h : c ∈ encode bytes) :
    Text.isAscii c = true ∧ c ∉ ['?', '\r', '\n', '>'] := by
  rcases of_mem_encode h with rfl | ⟨n, hn, rfl⟩
  · decide
  · exact symbol_plain n hn

/-! ## Where a base64 form can be wrong -/

variable {bytes rest : Bytes}

theorem symbolFault?_eq_none_iff (offset : Nat) :
    symbolFault? offset bytes = none ↔ ∀ b ∈ bytes, isSymbol b = true := by
  induction bytes generalizing offset with
  | nil => simp [symbolFault?]
  | cons b bytes ih =>
    unfold symbolFault?
    split
    · rename_i hb
      rw [ih]
      simp [hb]
    · rename_i hb
      simp [hb]

theorem groupFault?_eq_none_iff (start start' i : Nat) (padded : Option Nat) :
    groupFault? start i padded bytes = none ↔ groupFault? start' i padded bytes = none := by
  induction bytes generalizing i padded with
  | nil => rfl
  | cons b bytes ih =>
    unfold groupFault?
    split
    · split
      · simp
      · exact ih _ _
    · split
      · simp
      · split
        · exact ih _ _
        · simp

theorem endFault?_eq_none_iff (start start' : Nat) :
    endFault? start bytes = none ↔ endFault? start' bytes = none := by
  unfold endFault?
  simp only
  split
  · simp
  · split
    · rfl
    · split
      · split
        · simp
        · rfl
      · rfl

theorem fault?_eq_none_iff :
    fault? bytes = none ↔
      strayFault? bytes = none ∧ (∀ b ∈ bytes.take (lastGroup bytes), isSymbol b = true) ∧
        groupFault? 0 0 none (bytes.drop (lastGroup bytes)) = none ∧
        endFault? 0 (bytes.drop (lastGroup bytes)) = none := by
  unfold fault?
  simp only [Option.orElse_eq_orElse, Option.orElse_eq_or, Option.or_eq_none_iff]
  rw [symbolFault?_eq_none_iff, groupFault?_eq_none_iff _ 0, endFault?_eq_none_iff _ 0]

/-- A group in front of another one can only be wrong by a byte that is no symbol. -/
theorem fault?_append {a b c d : UInt8} (hne : rest ≠ []) :
    fault? (a :: b :: c :: d :: rest) = none ↔
      (isSymbol a ∧ isSymbol b ∧ isSymbol c ∧ isSymbol d) ∧ fault? rest = none := by
  have hlen : 0 < rest.length := List.length_pos_iff.mpr hne
  have hlast : lastGroup (a :: b :: c :: d :: rest) = lastGroup rest + 4 := by
    simp only [lastGroup, List.length_cons]
    omega
  have hstray : strayFault? (a :: b :: c :: d :: rest) = none ↔ strayFault? rest = none := by
    have hmod : (rest.length + 1 + 1 + 1 + 1) % 4 = rest.length % 4 := by omega
    obtain ⟨l, hl⟩ := Option.isSome_iff_exists.mp (List.getLast?_isSome.mpr hne)
    simp only [strayFault?, List.getLast?_cons, hl, Option.getD_some, List.length_cons, hmod]
    split <;> simp
  rw [fault?_eq_none_iff, fault?_eq_none_iff, hlast, hstray]
  simp only [List.take_succ_cons, List.drop_succ_cons, List.forall_mem_cons]
  constructor
  · rintro ⟨hs, ⟨ha, hb, hc, hd, hall⟩, hg, he⟩
    exact ⟨⟨ha, hb, hc, hd⟩, hs, hall, hg, he⟩
  · rintro ⟨⟨ha, hb, hc, hd⟩, hs, hall, hg, he⟩
    exact ⟨hs, ⟨ha, hb, hc, hd, hall⟩, hg, he⟩

/-! ## The last group -/

variable {i j k l : Nat}

theorem fault?_nil : fault? [] = none := rfl

theorem lastGroup_of_length (h : bytes.length = 4) : lastGroup bytes = 0 := by
  rw [lastGroup, h]

theorem fault?_full (hi : i < 64) (hj : j < 64) (hk : k < 64) (hl : l < 64) :
    fault? [symbolByte i, symbolByte j, symbolByte k, symbolByte l] = none := by
  rw [fault?_eq_none_iff, lastGroup_of_length rfl]
  simp [strayFault?, groupFault?, endFault?, isSymbol_symbolByte, symbolByte_ne_padding,
    value?_symbolByte, hi, hj, hk, hl]

theorem fault?_three (hi : i < 64) (hj : j < 64) (hk : k < 64) :
    fault? [symbolByte i, symbolByte j, symbolByte k, padding] = none ↔ k % 4 = 0 := by
  have hvalues : [padding].filterMap value? = [] := rfl
  rw [fault?_eq_none_iff, lastGroup_of_length rfl]
  simp [strayFault?, groupFault?, endFault?, isSymbol_symbolByte, symbolByte_ne_padding,
    value?_symbolByte, hi, hj, hk, isSymbol_padding, hvalues]

theorem fault?_two (hi : i < 64) (hj : j < 64) :
    fault? [symbolByte i, symbolByte j, padding, padding] = none ↔ j % 16 = 0 := by
  have hvalues : [padding, padding].filterMap value? = [] := rfl
  rw [fault?_eq_none_iff, lastGroup_of_length rfl]
  simp [strayFault?, groupFault?, endFault?, isSymbol_symbolByte, symbolByte_ne_padding,
    value?_symbolByte, hi, hj, isSymbol_padding, hvalues]

/-- A last group of four bytes has two to four symbols and then padding. -/
theorem group_cases {a b c d : UInt8} (h : fault? [a, b, c, d] = none) :
    (isSymbol a = true ∧ isSymbol b = true) ∧
      (isSymbol c = true ∧ isSymbol d = true ∨ isSymbol c = true ∧ d = padding ∨
        c = padding ∧ d = padding) := by
  rw [fault?_eq_none_iff, lastGroup_of_length rfl] at h
  have hgroup := h.2.2.1
  simp only [List.drop_zero, groupFault?] at hgroup
  grind

/-- The last group is full, so all groups are. -/
theorem length_of_fault? (h : fault? bytes = none) : bytes.length % 4 = 0 := by
  have hend := (fault?_eq_none_iff.mp h).2.2.2
  have hgroup : (bytes.drop (lastGroup bytes)).length % 4 = 0 := by
    unfold endFault? at hend
    simp only at hend
    split at hend
    · cases hend
    split at hend
    · cases hend
    omega
  rw [List.length_drop, lastGroup] at hgroup
  omega

/-! ## Reading back -/

theorem octets_cons (n : Nat) (t : Text) : octets (symbol n :: t) = symbolByte n :: octets t := rfl

theorem fault?_encode (bytes : Bytes) : fault? (octets (encode bytes)) = none := by
  fun_induction encode bytes with
  | case1 x y z rest ih =>
    have hx := x.toNat_lt
    have hy := y.toNat_lt
    have hz := z.toNat_lt
    rw [octets_cons, octets_cons, octets_cons, octets_cons]
    cases rest with
    | nil => exact fault?_full (by omega) (by omega) (by omega) (by omega)
    | cons w rest =>
      refine (fault?_append ?_).mpr ⟨⟨?_, ?_, ?_, ?_⟩, ih⟩
      · cases rest with
        | nil => simp [encode, octets]
        | cons v rest => cases rest <;> simp [encode, octets]
      all_goals exact isSymbol_symbolByte (by omega)
  | case2 x y =>
    have hx := x.toNat_lt
    have hy := y.toNat_lt
    rw [octets_cons, octets_cons, octets_cons]
    exact (fault?_three (by omega) (by omega) (by omega)).mpr (by omega)
  | case3 x =>
    have hx := x.toNat_lt
    rw [octets_cons, octets_cons]
    exact (fault?_two (by omega) (by omega)).mpr (by omega)
  | case4 => exact fault?_nil

theorem unpack_encode (bytes : Bytes) :
    unpack ((octets (encode bytes)).filterMap value?) = bytes := by
  fun_induction encode bytes with
  | case1 x y z rest ih =>
    have hx := x.toNat_lt
    have hy := y.toNat_lt
    have hz := z.toNat_lt
    rw [octets_cons, octets_cons, octets_cons, octets_cons, filterMap_symbolByte (by omega),
      filterMap_symbolByte (by omega), filterMap_symbolByte (by omega),
      filterMap_symbolByte (by omega), unpack, ih]
    rw [Utf8.byte_eq (b := x) (by omega), Utf8.byte_eq (b := y) (by omega),
      Utf8.byte_eq (b := z) (by omega)]
  | case2 x y =>
    have hx := x.toNat_lt
    have hy := y.toNat_lt
    rw [octets_cons, octets_cons, octets_cons, filterMap_symbolByte (by omega),
      filterMap_symbolByte (by omega), filterMap_symbolByte (by omega)]
    show unpack [x.toNat / 4, x.toNat % 4 * 16 + y.toNat / 16, y.toNat % 16 * 4] = [x, y]
    rw [unpack, Utf8.byte_eq (b := x) (by omega), Utf8.byte_eq (b := y) (by omega)]
  | case3 x =>
    have hx := x.toNat_lt
    rw [octets_cons, octets_cons, filterMap_symbolByte (by omega),
      filterMap_symbolByte (by omega)]
    show unpack [x.toNat / 4, x.toNat % 4 * 16] = [x]
    rw [unpack, Utf8.byte_eq (b := x) (by omega)]
  | case4 => rfl

/-- The base64 form of some bytes reads back as these bytes. -/
theorem decode_encode (bytes : Bytes) : decode (octets (encode bytes)) = .ok bytes := by
  rw [decode, fault?_encode]
  simp only
  rw [unpack_encode]

/-! ## Nothing else read -/

/-- The bytes that four symbols hold have these symbols as their base64 form. -/
theorem encode_unpack_full (hi : i < 64) (hj : j < 64) (hk : k < 64) (hl : l < 64)
    (values : List Nat) :
    octets (encode (unpack (i :: j :: k :: l :: values))) =
      symbolByte i :: symbolByte j :: symbolByte k :: symbolByte l ::
        octets (encode (unpack values)) := by
  have hi' : (i * 4 + j / 16) / 4 = i := by omega
  have hj' : (i * 4 + j / 16) % 4 * 16 + (j % 16 * 16 + k / 4) / 16 = j := by omega
  have hk' : (j % 16 * 16 + k / 4) % 16 * 4 + (k % 4 * 64 + l) / 64 = k := by omega
  have hl' : (k % 4 * 64 + l) % 64 = l := by omega
  rw [unpack, encode, Utf8.toNat_byte (by omega), Utf8.toNat_byte (by omega),
    Utf8.toNat_byte (by omega), hi', hj', hk', hl']
  rfl

theorem encode_unpack_three (hi : i < 64) (hj : j < 64) (hk : k < 64) (hbits : k % 4 = 0) :
    octets (encode (unpack [i, j, k])) =
      [symbolByte i, symbolByte j, symbolByte k, padding] := by
  have hi' : (i * 4 + j / 16) / 4 = i := by omega
  have hj' : (i * 4 + j / 16) % 4 * 16 + (j % 16 * 16 + k / 4) / 16 = j := by omega
  have hk' : (j % 16 * 16 + k / 4) % 16 * 4 = k := by omega
  rw [unpack, encode, Utf8.toNat_byte (by omega), Utf8.toNat_byte (by omega), hi', hj', hk']
  rfl

theorem encode_unpack_two (hi : i < 64) (hj : j < 64) (hbits : j % 16 = 0) :
    octets (encode (unpack [i, j])) = [symbolByte i, symbolByte j, padding, padding] := by
  have hi' : (i * 4 + j / 16) / 4 = i := by omega
  have hj' : (i * 4 + j / 16) % 4 * 16 = j := by omega
  rw [unpack, encode, Utf8.toNat_byte (by omega), hi', hj']
  rfl

theorem encode_unpack_last {a b c d : UInt8} (h : fault? [a, b, c, d] = none) :
    octets (encode (unpack ([a, b, c, d].filterMap value?))) = [a, b, c, d] := by
  obtain ⟨⟨ha, hb⟩, hcd⟩ := group_cases h
  obtain ⟨i, hi, rfl⟩ := isSymbol_iff.mp ha
  obtain ⟨j, hj, rfl⟩ := isSymbol_iff.mp hb
  rw [filterMap_symbolByte hi, filterMap_symbolByte hj]
  rcases hcd with ⟨hc, hd⟩ | ⟨hc, rfl⟩ | ⟨rfl, rfl⟩
  · obtain ⟨k, hk, rfl⟩ := isSymbol_iff.mp hc
    obtain ⟨l, hl, rfl⟩ := isSymbol_iff.mp hd
    rw [filterMap_symbolByte hk, filterMap_symbolByte hl, encode_unpack_full hi hj hk hl]
    rfl
  · obtain ⟨k, hk, rfl⟩ := isSymbol_iff.mp hc
    rw [filterMap_symbolByte hk]
    exact encode_unpack_three hi hj hk ((fault?_three hi hj hk).mp h)
  · exact encode_unpack_two hi hj ((fault?_two hi hj).mp h)

/-- Bytes with which nothing is wrong are the base64 form of what they hold. -/
theorem encode_unpack {bytes : Bytes} (h : fault? bytes = none) :
    octets (encode (unpack (bytes.filterMap value?))) = bytes := by
  have hlen := length_of_fault? h
  match bytes, h with
  | [], _ => rfl
  | [_], _ => cases hlen
  | [_, _], _ => cases hlen
  | [_, _, _], _ => cases hlen
  | [_, _, _, _], h => exact encode_unpack_last h
  | a :: b :: c :: d :: e :: rest, h =>
    obtain ⟨⟨ha, hb, hc, hd⟩, hrest⟩ := (fault?_append (List.cons_ne_nil e rest)).mp h
    obtain ⟨i, hi, rfl⟩ := isSymbol_iff.mp ha
    obtain ⟨j, hj, rfl⟩ := isSymbol_iff.mp hb
    obtain ⟨k, hk, rfl⟩ := isSymbol_iff.mp hc
    obtain ⟨l, hl, rfl⟩ := isSymbol_iff.mp hd
    rw [filterMap_symbolByte hi, filterMap_symbolByte hj, filterMap_symbolByte hk,
      filterMap_symbolByte hl, encode_unpack_full hi hj hk hl, encode_unpack hrest]

/-- Bytes are read exactly if they are the base64 form of what is read. -/
theorem decode_eq_ok_iff {data : Bytes} :
    decode bytes = .ok data ↔ bytes = octets (encode data) := by
  constructor
  · intro h
    unfold decode at h
    split at h
    · cases h
    · rename_i hfault
      cases h
      exact (encode_unpack hfault).symm
  · rintro rfl
    exact decode_encode data

/-! ## As texts -/

/-- A base64 form as bytes of UTF-8. -/
theorem utf8_encode (bytes : Bytes) : Utf8.encode (encode bytes) = octets (encode bytes) :=
  Utf8.encode_of_isAscii fun _ hc => (encode_plain hc).1

/-- A text is read exactly if it is the base64 form of what is read. -/
theorem decode_utf8_eq_ok_iff {t : Text} {data : Bytes} :
    decode (Utf8.encode t) = .ok data ↔ t = encode data := by
  rw [decode_eq_ok_iff, ← utf8_encode]
  exact ⟨Utf8.encode_injective, congrArg Utf8.encode⟩

end Base64
end MailArchive
