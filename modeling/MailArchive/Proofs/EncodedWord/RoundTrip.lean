import Mathlib.Data.List.Infix
import MailArchive.Proofs.EncodedWord.Encode
import MailArchive.Proofs.EncodedWord.Payload
import MailArchive.Proofs.Text.Cut

/-!
# MailArchive.Proofs.EncodedWord.RoundTrip

Encoded words read back. Reading goes through a text character by character (`decode_cons`) and
stops at the openings: one that is closed on its line gives the text of its payload
(`decode_opening_of_some`), any other one stays (`decode_opening_of_none`). `decode_encode` says
that a text is had back from what is written for it unless it has an opening of its own that is
closed, or becomes so, on its line.
-/

namespace MailArchive
namespace EncodedWord

open Text

variable {t : Text} {c : Char}

/-! ## Reading step by step -/

theorem decode_eq (t : Text) :
    decode t =
      match cut? opening t with
      | none => .ok t
      | some (before, after) =>
        match payload? after with
        | none => (decode after).map (before ++ opening ++ ·)
        | some (payload, rest) =>
          match decodePayload payload with
          | .error fault => .error fault
          | .ok word => (decode rest).map (before ++ word ++ ·) := by
  rw [decode, decodeAfter]
  split
  · rename_i h
    simp [h]
  · rename_i before after h
    simp only [h]
    split
    · rename_i hp
      simp only [hp]
      rw [decodeAfter_eq]
      simp
    · rename_i payload rest hp
      simp only [hp]
      cases decodePayload payload with
      | error fault => rfl
      | ok word =>
        simp only
        rw [decodeAfter_eq]
        simp

@[simp] theorem decode_nil : decode [] = .ok [] := by
  rw [decode_eq]
  rfl

/-- Where no word opens, a character stays as it is. -/
theorem decode_cons (h : strip? opening (c :: t) = none) :
    decode (c :: t) = (decode t).map (c :: ·) := by
  rw [decode_eq, decode_eq t, cut?_eq_cons h]
  cases cut? opening t with
  | none => rfl
  | some p =>
    simp only [Option.map_some]
    cases payload? p.2 with
    | none => cases decode p.2 <;> rfl
    | some q =>
      simp only
      cases decodePayload q.1 with
      | error fault => rfl
      | ok word => cases decode q.2 <;> rfl

theorem decode_opening_of_none (h : payload? t = none) :
    decode (opening ++ t) = (decode t).map (opening ++ ·) := by
  rw [decode_eq, cut?_of_strip? (strip?_append _ _)]
  simp only [h]
  rfl

theorem decode_opening_of_some {payload rest word : Text} (h : payload? t = some (payload, rest))
    (hw : decodePayload payload = .ok word) :
    decode (opening ++ t) = (decode rest).map (word ++ ·) := by
  rw [decode_eq, cut?_of_strip? (strip?_append _ _)]
  simp only [h, hw]
  rfl

theorem decode_opening_of_fault {payload rest : Text} {fault : Fault}
    (h : payload? t = some (payload, rest)) (hw : decodePayload payload = .error fault) :
    decode (opening ++ t) = .error fault := by
  rw [decode_eq, cut?_of_strip? (strip?_append _ _)]
  simp only [h, hw]

/-! ## Payloads -/

theorem payload?_eq_none_iff : payload? t = none ↔ ¬ closing <:+: lineRest t := by
  rw [payload?, Option.map_eq_none_iff, cut?_eq_none_iff (by decide)]

theorem lineRest_cons (h : c ≠ '\r' ∧ c ≠ '\n') : lineRest (c :: t) = c :: lineRest t := by
  simp [lineRest, h]

theorem lineRest_end (h : c = '\r' ∨ c = '\n') : lineRest (c :: t) = [] := by
  rcases h with rfl | rfl <;> rfl

theorem lineRest_append {u : Text} (h : ∀ c ∈ u, c ≠ '\r' ∧ c ≠ '\n') :
    lineRest (u ++ t) = u ++ lineRest t := by
  refine List.takeWhile_append_of_pos fun c hc => ?_
  simp [h c hc]

/-- The payload of a word that has been written. -/
theorem payload?_encodePayload (word rest : Text) :
    payload? (encodePayload word ++ (closing ++ rest)) = some (encodePayload word, rest) := by
  have hplain : ∀ c ∈ encodePayload word, c ∉ ['?', '\r', '\n', '>'] := fun c hc =>
    (Base64.encode_plain hc).2
  have hpayload : ∀ c ∈ encodePayload word, c ≠ '\r' ∧ c ≠ '\n' := by
    intro c hc
    have hc := hplain c hc
    simp only [List.mem_cons, not_or] at hc
    exact ⟨hc.2.1, hc.2.2.1⟩
  have hline : lineRest (encodePayload word ++ (closing ++ rest)) =
      encodePayload word ++ (closing ++ lineRest rest) := by
    rw [lineRest_append hpayload, lineRest_append (by decide)]
  have hcut : cut? closing (encodePayload word ++ (closing ++ lineRest rest)) =
      some (encodePayload word, lineRest rest) := by
    rw [closing_eq]
    exact cut?_append_append fun h => hplain '?' h (by simp)
  rw [payload?, hline, hcut]
  simp

/-! ## Texts without openings -/

/-- Whether no word opens in a text. -/
def Unmarked (t : Text) : Prop := ¬ opening <:+: t

theorem unmarked_of_notMem (hc : c ∈ opening) (h : c ∉ t) : Unmarked t := by
  intro hopening
  exact h (hopening.subset hc)

theorem unmarked_nil : Unmarked [] := unmarked_of_notMem (c := '?') (by decide) (by simp)

theorem Unmarked.of_infix {u : Text} (h : Unmarked t) (hu : u <:+: t) : Unmarked u := by
  intro hopening
  exact h (hopening.trans hu)

/-- A word does not open across a character that no opening has. -/
theorem unmarked_append_cons {a b : Text} (hc : c ∉ opening) (ha : Unmarked a) (hb : Unmarked b) :
    Unmarked (a ++ c :: b) := by
  intro hopening
  rcases (infix_append_cons_iff hc).mp hopening with h | h
  · exact ha h
  · exact hb h

theorem unmarked_cons {b : Text} (hc : c ∉ opening) (hb : Unmarked b) : Unmarked (c :: b) :=
  unmarked_append_cons (a := []) hc unmarked_nil hb

/-- A text in which no word opens is read as it stands. -/
theorem decode_of_unmarked (h : Unmarked t) : decode t = .ok t := by
  rw [decode_eq, (cut?_eq_none_iff (by decide)).mpr h]

/-! ## A whole text -/

/-- Whether no opening of a text is closed on its line, nor can become so by the words that are
written on that line. -/
def Wordless (t : Text) : Prop :=
  ∀ before after, t = before ++ (opening ++ after) →
    (∀ c ∈ lineRest after, isAscii c = true) ∧ ¬ closing <:+: lineRest after

theorem Unmarked.wordless (h : Unmarked t) : Wordless t := by
  rintro before after rfl
  exact absurd (List.infix_append' _ _ _) h

/-- What holds behind all openings of a text holds behind those in its end. -/
theorem forall_opening_of_append {P : Text → Prop} {u : Text}
    (h : ∀ before after, u ++ t = before ++ (opening ++ after) → P after) :
    ∀ before after, t = before ++ (opening ++ after) → P after := by
  rintro before after rfl
  exact h (u ++ before) after (by simp)

theorem Wordless.of_append {u : Text} (h : Wordless (u ++ t)) : Wordless t :=
  forall_opening_of_append h

/-- What follows the openings of a text is found among its ends. -/
theorem forall_opening_iff {P : Text → Prop} :
    (∀ before after, t = before ++ (opening ++ after) → P after) ↔
      ∀ s ∈ t.tails, ∀ after ∈ strip? opening s, P after := by
  constructor
  · intro h s hs after hafter
    obtain ⟨before, rfl⟩ := (List.mem_tails s t).mp hs
    obtain rfl := strip?_eq_some_iff.mp hafter
    exact h before after rfl
  · rintro h before after rfl
    exact h (opening ++ after) ((List.mem_tails _ _).mpr ⟨before, rfl⟩) after (strip?_append _ _)

instance (t : Text) : Decidable (Wordless t) := decidable_of_iff _ forall_opening_iff.symm

theorem lineRest_encode (h : ∀ c ∈ lineRest t, isAscii c = true) :
    lineRest (encode t) = lineRest t := by
  induction t with
  | nil => rfl
  | cons c t ih =>
    by_cases hc : c = '\r' ∨ c = '\n'
    · have hascii : isAscii c = true := by rcases hc with rfl | rfl <;> decide
      rw [encode_cons hascii, lineRest_end hc, lineRest_end hc]
    · rw [not_or] at hc
      rw [lineRest_cons hc] at h
      rw [encode_cons (h c List.mem_cons_self), lineRest_cons hc, lineRest_cons hc,
        ih fun d hd => h d (List.mem_cons_of_mem _ hd)]

/-- What is written for a text without words of its own reads back as the text. -/
theorem decode_encode (h : Wordless t) : decode (encode t) = .ok t := by
  induction hn : t.length using Nat.strongRecOn generalizing t with
  | ind n ih =>
    subst hn
    cases hs : strip? opening t with
    | some after =>
      obtain rfl := strip?_eq_some_iff.mp hs
      obtain ⟨hascii, hclosed⟩ := h [] after rfl
      have hlast : ∀ c ∈ opening.getLast?, isAscii c = true := by decide
      have hmark : encode opening = opening := encode_of_isAscii (by decide)
      have hlen : after.length < (opening ++ after).length := by
        rw [opening_eq, List.cons_append, List.length_cons, List.length_append]
        omega
      have hnone : payload? (encode after) = none := by
        rw [payload?_eq_none_iff, lineRest_encode hascii]
        exact hclosed
      rw [encode_append hlast, hmark, decode_opening_of_none hnone,
        ih _ hlen h.of_append rfl]
      rfl
    | none =>
      rcases run_cases t with rfl | ⟨c, u, hc, rfl⟩ | ⟨r, u, hne, hr, hu, rfl⟩
      · rw [encode_nil, decode_nil]
      · have hnone : strip? opening (c :: encode u) = none := by
          rw [strip?_eq_none_iff, opening_eq, List.cons_prefix_cons] at hs ⊢
          rw [prefix_encode_iff (by decide)]
          exact hs
        have hu : Wordless u := Wordless.of_append (u := [c]) h
        rw [encode_cons hc, decode_cons hnone, ih _ (by simp) hu rfl]
        rfl
      · have hpos := List.length_pos_iff.mpr hne
        have hlen : u.length < (r ++ u).length := by
          rw [List.length_append]
          omega
        rw [encode_run hne hr hu, decode_opening_of_some (payload?_encodePayload r (encode u))
          (decodePayload_encodePayload r), ih _ hlen h.of_append rfl]
        rfl

/-- **Encoded words round-trip.** What is written for a text is in ASCII, and the text is read from
it unless one of its own openings is followed, on the same line, by a closing or by a character that
will be written as a word. -/
theorem encode_roundTrip (h : Wordless t) :
    (∀ c ∈ encode t, isAscii c = true) ∧ decode (encode t) = .ok t :=
  ⟨fun _ => isAscii_of_mem_encode, decode_encode h⟩

/-- Openings and closings of the text's own stand around words here, and two halves of an opening
around one of them. -/
theorem encode_roundTrip_openings :
    Wordless "?=é?=ü=?utf-8?b?=\r\n=é?utf-8?b?x?= =?utf-8?b?\nñ".toList ∧
      (∀ c ∈ encode "?=é?=ü=?utf-8?b?=\r\n=é?utf-8?b?x?= =?utf-8?b?\nñ".toList,
        isAscii c = true) ∧
      decode (encode "?=é?=ü=?utf-8?b?=\r\n=é?utf-8?b?x?= =?utf-8?b?\nñ".toList) =
        .ok "?=é?=ü=?utf-8?b?=\r\n=é?utf-8?b?x?= =?utf-8?b?\nñ".toList := by
  have h : Wordless "?=é?=ü=?utf-8?b?=\r\n=é?utf-8?b?x?= =?utf-8?b?\nñ".toList := by decide
  exact ⟨h, encode_roundTrip h⟩

/-- An opening of the text's own is closed by the word that is written behind it. -/
example : (decode (encode "=?utf-8?b?é".toList)).toOption = none := by decide +kernel

end EncodedWord
end MailArchive
