import MailArchive.Address
import MailArchive.Proofs.Text.Cut
import MailArchive.Proofs.Text.Trim

/-!
# MailArchive.Proofs.Address.RoundTrip

Addresses read back. A name comes out of its quotes as it went in but for blanks around it
(`unquote_quote`), whatever characters it is made of, and the last angle brackets of what is written
are those around the mailbox (`parse_angled`). So an address is had back from its header form
(`parse_toHeader`) and, if its mailbox is one at sign between two words, from the form that public
archives show (`parse_obfuscated`). `parse_rendered` is the whole.
-/

namespace MailArchive
namespace Address

open Text

variable {a : Address} {name mailbox t : Text}

/-! ## Quotes -/

theorem unescape_cons {c : Char} (h : c ≠ '\\') (t : Text) :
    unescape (c :: t) = c :: unescape t := by
  rw [unescape]
  · intro ht _
    exact h ht
  · intro d u hd _
    exact h hd

theorem unescape_escape (t : Text) : unescape (escape t) = t := by
  induction t with
  | nil => rfl
  | cons c t ih =>
    rw [escape, List.flatMap_cons, ← escape, escapeChar]
    split
    · show c :: unescape (escape t) = c :: t
      rw [ih]
    · rename_i h
      rw [not_or] at h
      rw [List.singleton_append, unescape_cons h.2, ih]

theorem escape_of_forall (h : ∀ c ∈ t, isBlank c = true) : escape t = t := by
  induction t with
  | nil => rfl
  | cons c t ih =>
    obtain ⟨hc, ht⟩ := List.forall_mem_cons.mp h
    have hself : escapeChar c = [c] := by
      refine if_neg ?_
      rintro (rfl | rfl)
      · cases hc
      · cases hc
    rw [escape, List.flatMap_cons, ← escape, hself, ih ht]
    rfl

theorem trim_escape_of_trim (h : trim t = t) : trim (escape t) = escape t := by
  obtain ⟨hs, he⟩ := trim_eq_self_iff.mp h
  rw [trim_eq_self_iff]
  constructor
  · cases t with
    | nil => simp [escape]
    | cons c t =>
      intro d hd
      rw [escape, List.flatMap_cons, escapeChar] at hd
      split at hd
      · obtain rfl : '\\' = d := Option.some.inj hd
        decide
      · obtain rfl : c = d := Option.some.inj hd
        exact hs c rfl
  · cases hl : t.getLast? with
    | none => simp [List.getLast?_eq_none_iff.mp hl, escape]
    | some c =>
      obtain ⟨u, rfl⟩ := List.getLast?_eq_some_iff.mp hl
      have hlast : (escape (u ++ [c])).getLast? = some c := by
        rw [escape, List.flatMap_append, List.flatMap_singleton, escapeChar, List.getLast?_append]
        split <;> rfl
      rw [hlast]
      intro d hd
      obtain rfl := Option.some.inj hd
      exact he c hl

/-- Blanks need no escape, so it is the same whether a text is trimmed before or after. -/
theorem trim_escape (t : Text) : trim (escape t) = escape (trim t) := by
  obtain ⟨a, b, ha, hb, ht⟩ := exists_blanks t
  have hparts : escape t = a ++ (escape (trim t) ++ b) := by
    have happend : escape (a ++ (trim t ++ b)) = escape a ++ (escape (trim t) ++ escape b) := by
      rw [escape, List.flatMap_append, List.flatMap_append]
      rfl
    rw [← ht, escape_of_forall ha, escape_of_forall hb] at happend
    exact happend
  rw [hparts, trim_append_blanks ha hb, trim_escape_of_trim (trim_trim t)]

theorem quoted?_append (t : Text) : quoted? ('"' :: t ++ ['"']) = some t := by
  rw [List.cons_append, quoted?, if_pos (by simp), List.dropLast_concat]

theorem quoted?_of_notMem (h : '"' ∉ t) : quoted? t = none := by
  cases t with
  | nil => rfl
  | cons c t =>
    rw [List.mem_cons, not_or] at h
    unfold quoted?
    split
    · rename_i heq
      obtain ⟨rfl, _⟩ := List.cons.inj heq
      exact absurd rfl h.1
    · rfl

theorem notMem_of_not_any (h : ¬ name.any delimiters.contains = true) {c : Char}
    (hc : c ∈ delimiters) : c ∉ name := by
  intro hmem
  refine h (List.any_eq_true.mpr ⟨c, hmem, ?_⟩)
  simpa using hc

theorem unquote_trimStart (t : Text) : unquote (trimStart t) = unquote t := by
  rw [unquote, unquote, trim_trimStart]

/-- A name is had back from its quotes but for blanks around it. -/
theorem unquote_quote (name : Text) : unquote (quote name ++ [' ']) = trim name := by
  rw [unquote]
  simp only [trim_append_of_isBlank (by decide : isBlank ' ' = true)]
  by_cases hq : name.any delimiters.contains = true
  · have hquotes : trim ('"' :: escape name ++ ['"']) = '"' :: escape name ++ ['"'] :=
      trim_cons_append (by decide) (by decide) _
    rw [quote, if_pos hq, hquotes, quoted?_append]
    simp only [trim_escape, unescape_escape]
  · have hname : '"' ∉ trim name := fun h =>
      notMem_of_not_any hq (by decide) ((trim_isInfix name).subset h)
    rw [quote, if_neg hq, quoted?_of_notMem hname]

/-! ## Angle brackets -/

theorem angled?_bracket {before : Text} (h : '<' ∉ mailbox) :
    angled? (before ++ '<' :: (mailbox ++ ['>'])) = some (before, mailbox) := by
  have hlt : '<' ∉ mailbox ++ ['>'] := by simpa using h
  rw [angled?, cutLast?_append hlt]
  simp only
  rw [cutLast?_append (by simp)]
  rfl

theorem angled?_of_notMem (h : '<' ∉ t) : angled? t = none := by
  rw [angled?, cutLast?_eq_none_iff.mpr h]

/-! ## Mailboxes -/

theorem plain_eq_self (h : '@' ∈ t ∨ ¬ atWord <:+: t) : plain t = t := by
  unfold plain
  split
  · rfl
  · rename_i hat
    rcases h with h | h
    · exact absurd (by simpa using h) hat
    · rw [(cut?_eq_none_iff (by decide)).mpr h]

theorem plain_spelledOut {l d : Text} (hl : l ≠ []) (hd : d ≠ [])
    (hblank : ∀ c ∈ l ++ d, isBlank c = false) (hat : '@' ∉ l ++ d) :
    plain (l ++ (atWord ++ d)) = l ++ '@' :: d := by
  rw [List.forall_mem_append] at hblank
  rw [List.mem_append, not_or] at hat
  have hspace : ' ' ∉ l := fun h => by
    have hb := hblank.1 ' ' h
    cases hb
  have hspace' : ' ' ∉ d := fun h => by
    have hb := hblank.2 ' ' h
    cases hb
  have hcut : cut? atWord (l ++ (atWord ++ d)) = some (l, d) := cut?_append_append hspace
  have hmem : (l ++ (atWord ++ d)).contains '@' = false := by
    rw [← Bool.not_eq_true, List.contains_iff_mem]
    simp only [List.mem_append, not_or]
    exact ⟨hat.1, by decide, hat.2⟩
  rw [plain, hmem, hcut]
  simp only [trim_eq_self_of_forall hblank.1, trim_eq_self_of_forall hblank.2]
  simp [hl, hd, hspace']

/-! ## Whole addresses -/

theorem trim_append_angle (before mailbox : Text) :
    trim (before ++ '<' :: (mailbox ++ ['>'])) = trimStart before ++ '<' :: (mailbox ++ ['>']) :=
  trim_append_eq ⟨trim_cons_append (by decide) (by decide) _, List.cons_ne_nil _ _⟩ _

/-- What stands in the last angle brackets at the end of a text is the mailbox. -/
theorem parse_angled (before : Text) (h : '<' ∉ mailbox) :
    parse (before ++ '<' :: (mailbox ++ ['>'])) = ⟨unquote before, plain (trim mailbox)⟩ := by
  rw [parse]
  simp only [trim_append_angle, angled?_bracket h, unquote_trimStart]

theorem bracket_eq (name mailbox : Text) :
    bracket name mailbox = (name ++ [' ']) ++ '<' :: (mailbox ++ ['>']) := by
  simp [bracket]

theorem parse_bracket (name : Text) (h : '<' ∉ mailbox) :
    parse (bracket (quote name) mailbox) = ⟨trim name, plain (trim mailbox)⟩ := by
  rw [bracket_eq, parse_angled _ h, unquote_quote]

theorem solid_quote (h : trim name = name) (hne : name ≠ []) : Solid (quote name) := by
  unfold quote
  split
  · exact solid_cons (by decide)
  · exact solid_of_trim h hne

theorem trim_bracket (h : trim name = name) (hne : name ≠ []) (mailbox : Text) :
    trim (bracket (quote name) mailbox) = bracket (quote name) mailbox := by
  rw [bracket_eq, trim_append_angle, ((solid_quote h hne).append _).trimStart_eq]

/-- Whether the mailbox of an address is had back from its header form. -/
structure Settled (a : Address) : Prop where
  trimmed : trim a.mailbox = a.mailbox
  plain : plain a.mailbox = a.mailbox
  bare : a.name = [] → angled? a.mailbox = none
  bracketed : a.name ≠ [] → '<' ∉ a.mailbox

theorem Settled.parse_toHeader (h : a.Settled) : parse a.toHeader = ⟨trim a.name, a.mailbox⟩ := by
  obtain ⟨name, mailbox⟩ := a
  unfold toHeader
  split
  · rename_i hnil
    obtain rfl : name = [] := by simpa using hnil
    rw [parse]
    simp only [h.trimmed, h.bare rfl, h.plain]
    rfl
  · rename_i hne
    rw [parse_bracket name (h.bracketed (by simpa using hne)), h.trimmed, h.plain]

/-- An address is had back from its header form. -/
theorem parse_toHeader (hname : trim a.name = a.name) (hmailbox : trim a.mailbox = a.mailbox)
    (hlt : '<' ∉ a.mailbox) (hat : '@' ∈ a.mailbox ∨ ¬ atWord <:+: a.mailbox) :
    parse a.toHeader = a := by
  have hsettled : a.Settled :=
    ⟨hmailbox, plain_eq_self hat, fun _ => angled?_of_notMem hlt, fun _ => hlt⟩
  rw [hsettled.parse_toHeader, hname]

/-! ## Mailboxes spelled out -/

/-- The domain is all that follows the first at sign. -/
theorem of_domain? {d : Text} (h : a.domain? = some d) :
    a.mailbox = a.localPart ++ '@' :: d ∧ '@' ∉ a.localPart := by
  obtain ⟨⟨l, d'⟩, hcut, rfl⟩ := Option.map_eq_some_iff.mp h
  have heq : a.mailbox = l ++ '@' :: d' := by
    rw [cut?_append hcut, List.append_assoc]
    rfl
  have hat : '@' ∉ l := notMem_of_cut? hcut
  have hpos : ∀ c ∈ l, (c != '@') = true := by
    intro c hc
    rw [bne_iff_ne]
    rintro rfl
    exact hat hc
  have hlocal : a.localPart = l := by
    rw [localPart, heq, List.takeWhile_append_of_pos hpos]
    simp
  rw [hlocal]
  exact ⟨heq, hat⟩

theorem spelledOut_of_domain? {d : Text} (h : a.domain? = some d) :
    a.spelledOut = a.localPart ++ (atWord ++ d) := by
  rw [spelledOut, h]
  exact List.append_assoc _ _ _

theorem spelledOut_cases (a : Address) :
    a.spelledOut = a.mailbox ∨
      ∃ l d, a.mailbox = l ++ '@' :: d ∧ a.spelledOut = l ++ (atWord ++ d) := by
  cases h : a.domain? with
  | none => exact .inl (by rw [spelledOut, h])
  | some d => exact .inr ⟨a.localPart, d, (of_domain? h).1, spelledOut_of_domain? h⟩

theorem notMem_spelledOut {c : Char} (hc : c ∉ atWord) (h : c ∉ a.mailbox) :
    c ∉ a.spelledOut := by
  rcases a.spelledOut_cases with heq | ⟨l, d, hld, heq⟩
  · rw [heq]
    exact h
  · rw [hld, List.mem_append, List.mem_cons, not_or, not_or] at h
    rw [heq, List.mem_append, List.mem_append, not_or, not_or]
    exact ⟨h.1, hc, h.2.2⟩

theorem parse_obfuscated_eq (h : '<' ∉ a.spelledOut) :
    parse a.obfuscated = ⟨trim a.name, plain (trim a.spelledOut)⟩ := by
  unfold obfuscated
  split
  · rename_i hnil
    rw [List.isEmpty_iff.mp hnil]
    exact parse_angled [] h
  · exact parse_bracket a.name h

/-- Whether a text is one at sign between two words. -/
structure IsMailbox (t l d : Text) : Prop where
  eq : t = l ++ '@' :: d
  left : l ≠ []
  right : d ≠ []
  not_blank : ∀ c ∈ l ++ d, isBlank c = false
  at_notMem : '@' ∉ l ++ d

theorem IsMailbox.domain?_eq {l d : Text} (h : IsMailbox a.mailbox l d) :
    a.domain? = some d := by
  have hat : '@' ∉ l := fun hl => h.at_notMem (List.mem_append_left _ hl)
  rw [domain?, h.eq, cut?_singleton hat]
  rfl

theorem trim_spelledOut {l d : Text} (hl : l ≠ []) (hd : d ≠ [])
    (hblank : ∀ c ∈ l ++ d, isBlank c = false) :
    trim (l ++ (atWord ++ d)) = l ++ (atWord ++ d) := by
  rw [List.forall_mem_append] at hblank
  exact trim_append_append ⟨trim_eq_self_of_forall hblank.1, hl⟩
    ⟨trim_eq_self_of_forall hblank.2, hd⟩ atWord

/-- An address is had back from the form that public archives show. -/
theorem parse_obfuscated {l d : Text} (hname : trim a.name = a.name)
    (h : IsMailbox a.mailbox l d) (hlt : '<' ∉ a.mailbox) : parse a.obfuscated = a := by
  have hdomain := h.domain?_eq
  have hlocal : a.localPart = l :=
    List.append_cancel_right ((of_domain? hdomain).1.symm.trans h.eq)
  rw [parse_obfuscated_eq (notMem_spelledOut (by decide) hlt), spelledOut_of_domain? hdomain,
    hlocal, trim_spelledOut h.left h.right h.not_blank,
    plain_spelledOut h.left h.right h.not_blank h.at_notMem, ← h.eq, hname]

/-- With a second at sign in its domain a mailbox is not had back when the first is spelled out. -/
theorem parse_obfuscated_ne {d : Text} (h : a.domain? = some d) (hl : a.localPart ≠ [])
    (hd : d ≠ []) (hblank : ∀ c ∈ a.localPart ++ d, isBlank c = false) (hlt : '<' ∉ a.mailbox)
    (hat : '@' ∈ d) : parse a.obfuscated ≠ a := by
  intro heq
  have hplain : plain (a.localPart ++ (atWord ++ d)) = a.localPart ++ (atWord ++ d) :=
    plain_eq_self (.inl (by simp [hat]))
  have hmailbox := congrArg Address.mailbox heq
  rw [parse_obfuscated_eq (notMem_spelledOut (by decide) hlt), spelledOut_of_domain? h,
    trim_spelledOut hl hd hblank] at hmailbox
  simp only [hplain] at hmailbox
  rw [(of_domain? h).1, List.append_cancel_left_eq] at hmailbox
  cases hmailbox

/-- **Addresses read back.** An address is had back from its header form, whatever characters its
name is made of. If its mailbox is two words with an at sign between them, it is had back from the
form that public archives show as well, exactly if there is no further at sign in the domain, which
is all that follows the first one. -/
theorem parse_rendered (hname : trim a.name = a.name) (hmailbox : trim a.mailbox = a.mailbox)
    (hlt : '<' ∉ a.mailbox) (hat : '@' ∈ a.mailbox ∨ ¬ atWord <:+: a.mailbox) :
    parse a.toHeader = a ∧
      ∀ d, a.domain? = some d → a.localPart ≠ [] → d ≠ [] →
        (∀ c ∈ a.localPart ++ d, isBlank c = false) → (parse a.obfuscated = a ↔ '@' ∉ d) := by
  refine ⟨parse_toHeader hname hmailbox hlt hat, fun d hdomain hl hd hblank => ⟨?_, ?_⟩⟩
  · intro heq hsecond
    exact parse_obfuscated_ne hdomain hl hd hblank hlt hsecond heq
  · intro hfirst
    obtain ⟨heq, hlocal⟩ := of_domain? hdomain
    refine parse_obfuscated hname ⟨heq, hl, hd, hblank, ?_⟩ hlt
    rw [List.mem_append, not_or]
    exact ⟨hlocal, hfirst⟩

/-- An address with punctuation of all kinds in its name, a backslash at the end included. -/
def punctuated : Address := ⟨"\"<a at b>\", (c; d: e) \\".toList, "f>.g,@h".toList⟩

theorem parse_rendered_punctuated :
    (trim punctuated.name = punctuated.name ∧ trim punctuated.mailbox = punctuated.mailbox ∧
      '<' ∉ punctuated.mailbox ∧ '@' ∈ punctuated.mailbox) ∧
      (punctuated.domain? = some "h".toList ∧ '@' ∉ "h".toList) ∧
      parse punctuated.toHeader = punctuated ∧ parse punctuated.obfuscated = punctuated := by
  have hname : trim punctuated.name = punctuated.name := by decide
  have hmailbox : trim punctuated.mailbox = punctuated.mailbox := by decide
  have hat : '@' ∈ punctuated.mailbox := by decide
  obtain ⟨hheader, hspelled⟩ := parse_rendered hname hmailbox (by decide) (.inl hat)
  have hdomain : punctuated.domain? = some "h".toList := by decide
  have hiff := hspelled _ hdomain (by decide) (by decide) (by decide)
  exact ⟨⟨hname, hmailbox, by decide, hat⟩, ⟨hdomain, by decide⟩, hheader, hiff.mpr (by decide)⟩

end Address
end MailArchive
