import MailArchive.EncodedWord
import MailArchive.Proofs.Text.Base64

/-!
# MailArchive.Proofs.EncodedWord.Payload

The payloads of encoded words. A payload stands for bytes exactly if it is their base64 form, and
bytes for a text exactly if they are its UTF-8, so there is one payload for each text
(`decodePayload_eq_ok_iff`). What goes wrong with any other payload tells whether there are bytes
that it stands for (`exists_decodePayload_eq_utf8_iff`, `exists_decodePayload_eq_base64_iff`).
-/

namespace MailArchive
namespace EncodedWord

variable {payload t : Text}

theorem exists_eq_error_iff {ε α : Type} {x : Except ε α} :
    (∃ e, x = .error e) ↔ ∀ a, x ≠ .ok a := by
  cases x with
  | error e => simp
  | ok a => simp

theorem decodePayload_eq_ok_iff : decodePayload payload = .ok t ↔ payload = encodePayload t := by
  rw [encodePayload, ← Base64.decode_utf8_eq_ok_iff]
  unfold decodePayload
  split
  · rename_i fault hbytes
    rw [hbytes]
    exact ⟨nofun, nofun⟩
  · rename_i bytes hbytes
    rw [hbytes, Except.ok.injEq, ← Utf8.decode_eq_ok_iff]
    split
    · rename_i fault ht
      rw [ht]
      exact ⟨nofun, nofun⟩
    · rename_i ht
      rw [ht]
      simp only [Except.ok.injEq]

theorem decodePayload_encodePayload (word : Text) : decodePayload (encodePayload word) = .ok word :=
  decodePayload_eq_ok_iff.mpr rfl

theorem decodePayload_eq_utf8_iff {fault : Utf8.Fault} :
    decodePayload payload = .error (.utf8 payload fault) ↔
      ∃ bytes, payload = Base64.encode bytes ∧ Utf8.decode bytes = .error fault := by
  simp only [← Base64.decode_utf8_eq_ok_iff]
  unfold decodePayload
  split
  · rename_i hbytes
    simp [hbytes]
  · rename_i bytes hbytes
    split <;> simp_all

theorem decodePayload_eq_base64_iff {fault : Base64.Fault} :
    decodePayload payload = .error (.base64 payload fault) ↔
      Base64.decode (Utf8.encode payload) = .error fault := by
  unfold decodePayload
  split
  · rename_i hbytes
    simp [hbytes]
  · rename_i bytes hbytes
    split <;> simp_all

/-- A payload that stands for bytes, but for no text. -/
theorem exists_decodePayload_eq_utf8_iff :
    (∃ fault, decodePayload payload = .error (.utf8 payload fault)) ↔
      ∃ bytes : Bytes, payload = Base64.encode bytes ∧ ¬ bytes.toByteArray.IsValidUTF8 := by
  simp only [decodePayload_eq_utf8_iff, Utf8.isValidUTF8_iff, not_exists, ← ne_eq,
    ← exists_eq_error_iff]
  constructor
  · rintro ⟨fault, bytes, hbytes, ht⟩
    exact ⟨bytes, hbytes, fault, ht⟩
  · rintro ⟨bytes, hbytes, fault, ht⟩
    exact ⟨fault, bytes, hbytes, ht⟩

/-- The bytes 255 and 254 begin no character. -/
example : decodePayload "//4=".toList = .error (.utf8 "//4=".toList (.invalid 0 1)) := by
  cbv

/-- A payload that stands for no bytes. -/
theorem exists_decodePayload_eq_base64_iff :
    (∃ fault, decodePayload payload = .error (.base64 payload fault)) ↔
      ∀ bytes, payload ≠ Base64.encode bytes := by
  simp only [decodePayload_eq_base64_iff, exists_eq_error_iff, ne_eq, Base64.decode_utf8_eq_ok_iff]

/-- **Payloads are canonical.** A payload is read as a text exactly if it is what is written for
that text. It has a fault of UTF-8 exactly if it is the base64 form of bytes that are not valid
UTF-8, and a fault of base64 exactly if it is the base64 form of no bytes at all. No text is read
from two payloads. -/
theorem decodePayload_canonical (p : Text) :
    (∀ t, decodePayload p = .ok t ↔ p = encodePayload t) ∧
      ((∃ fault, decodePayload p = .error (.utf8 p fault)) ↔
        ∃ bytes : Bytes, p = Base64.encode bytes ∧ ¬ bytes.toByteArray.IsValidUTF8) ∧
      ((∃ fault, decodePayload p = .error (.base64 p fault)) ↔
        ∀ bytes, p ≠ Base64.encode bytes) ∧
      ∀ q, q ≠ p → ∀ t, ¬ (decodePayload p = .ok t ∧ decodePayload q = .ok t) := by
  refine ⟨fun t => decodePayload_eq_ok_iff, exists_decodePayload_eq_utf8_iff,
    exists_decodePayload_eq_base64_iff, ?_⟩
  rintro q hne t ⟨hp, hq⟩
  rw [decodePayload_eq_ok_iff] at hp hq
  exact hne (hq.trans hp.symm)

/-- The two payloads differ in the bits of the third symbol that belong to no byte. -/
theorem decodePayload_canonical_spareBits :
    "w6l=".toList ≠ "w6k=".toList ∧ decodePayload "w6k=".toList = .ok "é".toList ∧
      ¬ (decodePayload "w6k=".toList = .ok "é".toList ∧
        decodePayload "w6l=".toList = .ok "é".toList) := by
  have hne : "w6l=".toList ≠ "w6k=".toList := by decide
  have hcanonical := decodePayload_canonical "w6k=".toList
  exact ⟨hne, (hcanonical.1 _).mpr (by decide), hcanonical.2.2.2 _ hne _⟩

end EncodedWord
end MailArchive
