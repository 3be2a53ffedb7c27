import MailArchive.Proofs.Fragment.Reading
import MailArchive.Proofs.Message.WellFormed

/-!
# MailArchive.Proofs.Message.Unmarked

If no word opens in any text of a message, none opens in what is written for the message either
(`unmarked_plain`), although some of the texts have others next to them there. Between any two of
them stands a blank, a colon, a line end or some other character that no opening has.
-/

namespace MailArchive

open EncodedWord Text

variable {m : Message} {a : Address} {options : FormatOptions} {date : Text} {hs : List Header}

/-! ## Addresses -/

namespace Address

/-- Escapes come between other characters but never make up for one, so no word opens in a name
that has its escapes either. -/
theorem unmarked_escape {name : Text} (h : Unmarked name) : Unmarked (escape name) := by
  -- What stands in front is carried along: an opening may begin in it.
  have hpre : ∀ t pre : Text, Unmarked (pre ++ t) → Unmarked (pre ++ escape t) := by
    intro t
    induction t with
    | nil => exact fun pre hpre => hpre
    | cons c t ih =>
      intro pre hpre
      have hcons : escape (c :: t) = escapeChar c ++ escape t := rfl
      rw [hcons]
      unfold escapeChar
      split
      · rename_i hc
        have hmark : c ∉ opening := by rcases hc with rfl | rfl <;> decide
        have ht := ih [] (hpre.of_infix ⟨pre ++ [c], [], by simp⟩)
        exact unmarked_append_cons (by decide) (hpre.of_infix (List.prefix_append _ _).isInfix)
          (unmarked_cons hmark ht)
      · have ht := ih (pre ++ [c]) (by simpa using hpre)
        rwa [List.append_assoc] at ht
  exact hpre name [] h

theorem unmarked_quote {name : Text} (h : Unmarked name) : Unmarked (quote name) := by
  unfold quote
  split
  · exact unmarked_cons (by decide)
      (unmarked_append_cons (by decide) (unmarked_escape h) unmarked_nil)
  · exact h

theorem unmarked_bracket {name mailbox : Text} (hn : Unmarked name) (hm : Unmarked mailbox) :
    Unmarked (bracket (quote name) mailbox) := by
  rw [bracket_eq]
  have hname := unmarked_append_cons (by decide : ' ' ∉ opening) (unmarked_quote hn) unmarked_nil
  have hmailbox := unmarked_append_cons (by decide : '>' ∉ opening) hm unmarked_nil
  exact unmarked_append_cons (by decide) hname hmailbox

theorem unmarked_spelledOut (h : Unmarked a.mailbox) : Unmarked a.spelledOut := by
  rcases a.spelledOut_cases with heq | ⟨l, d, hmailbox, heq⟩
  · rw [heq]
    exact h
  · rw [hmailbox] at h
    have hl : Unmarked l := h.of_infix (List.prefix_append _ _).isInfix
    have hd : Unmarked d := h.of_infix ⟨l ++ ['@'], [], by simp⟩
    have hat : l ++ (atWord ++ d) = l ++ ' ' :: ("at".toList ++ ' ' :: d) := rfl
    rw [heq, hat]
    exact unmarked_append_cons (by decide) hl
      (unmarked_append_cons (by decide) (unmarked_of_notMem (c := '?') (by decide) (by decide)) hd)

theorem unmarked_toHeader (hn : Unmarked a.name) (hm : Unmarked a.mailbox) :
    Unmarked a.toHeader := by
  unfold toHeader
  split
  · exact hm
  · exact unmarked_bracket hn hm

theorem unmarked_obfuscated (hn : Unmarked a.name) (hm : Unmarked a.mailbox) :
    Unmarked a.obfuscated := by
  have hspelled := unmarked_spelledOut hm
  unfold obfuscated
  split
  · exact unmarked_cons (by decide) (unmarked_append_cons (by decide) hspelled unmarked_nil)
  · exact unmarked_bracket hn hspelled

end Address

/-! ## Headers -/

namespace Fragment

theorem unmarked_person (hn : Unmarked a.name) (hm : Unmarked a.mailbox) :
    Unmarked (person options a) := by
  unfold person
  split
  · exact Address.unmarked_obfuscated hn hm
  · exact Address.unmarked_toHeader hn hm

theorem unmarked_of_isDateChar {t : Text} (h : ∀ c ∈ t, isDateChar c = true) : Unmarked t :=
  unmarked_of_notMem (by decide : '?' ∈ opening) (notMem_of_isDateChar h (by decide))

/-- No word opens in a block of headers, nor in what follows, if none opens in a name, in a value or
in what follows. -/
theorem unmarked_block {rest : Text} (hrest : Unmarked rest)
    (h : ∀ x ∈ hs, Unmarked x.name ∧ Unmarked x.value) : Unmarked (Header.block hs ++ rest) := by
  induction hs with
  | nil => exact hrest
  | cons x hs ih =>
    obtain ⟨hname, hvalue⟩ := h x List.mem_cons_self
    have hmore := ih fun y hy => h y (List.mem_cons_of_mem _ hy)
    have hline : Header.block (x :: hs) ++ rest =
        x.name ++ ':' :: ' ' :: (x.value ++ '\n' :: (Header.block hs ++ rest)) := by
      simp [Header.block_cons, Header.line_eq, Header.content]
    rw [hline]
    exact unmarked_append_cons (by decide) hname
      (unmarked_cons (by decide) (unmarked_append_cons (by decide) hvalue hmore))

theorem unmarked_fields (options : FormatOptions) (hm : ∀ t ∈ m.texts, Unmarked t)
    (hd : Rfc2822.write? m.date = some date) :
    ∀ h ∈ fields options m date, Unmarked h.name ∧ Unmarked h.value := by
  have hnames : ∀ name ∈ fieldNames, Unmarked name.toList := by
    have hmark : ∀ name ∈ fieldNames, '?' ∉ name.toList := by decide
    intro name hname
    exact unmarked_of_notMem (c := '?') (by decide) (hmark name hname)
  have hperson : ∀ p ∈ m.author :: m.sender :: m.recipients,
      Unmarked p.name ∧ Unmarked p.mailbox := by
    intro p hp
    constructor <;> refine hm _ (List.mem_append_left _ (List.mem_append_right _ ?_))
    · exact List.mem_flatMap.mpr ⟨p, hp, by simp⟩
    · exact List.mem_flatMap.mpr ⟨p, hp, by simp⟩
  obtain ⟨hauthor, hothers⟩ := List.forall_mem_cons.mp hperson
  obtain ⟨hsender, hrecipients⟩ := List.forall_mem_cons.mp hothers
  have hto : ∀ t ∈ m.recipients.map Address.toHeader, Unmarked t := by
    intro t ht
    obtain ⟨p, hp, rfl⟩ := List.mem_map.mp ht
    exact Address.unmarked_toHeader (hrecipients p hp).1 (hrecipients p hp).2
  have hjoin : m.recipients ≠ [] →
      Unmarked (join ", ".toList (m.recipients.map Address.toHeader)) := by
    intro hne
    exact join_of_forall (mt List.map_eq_nil_iff.mp hne) hto fun t u ht hu =>
      unmarked_append_cons (by decide) ht (unmarked_cons (by decide) hu)
  have hown : ∀ h ∈ m.headers, Unmarked h.name ∧ Unmarked h.value := by
    intro h hmem
    constructor <;> refine hm _ (List.mem_append_right _ ?_)
    · exact List.mem_flatMap.mpr ⟨h, hmem, by simp⟩
    · exact List.mem_flatMap.mpr ⟨h, hmem, by simp⟩
  exact forall_mem_fields
    ⟨hnames _ (by decide), unmarked_person hauthor.1 hauthor.2⟩
    ⟨hnames _ (by decide), unmarked_person hsender.1 hsender.2⟩
    (fun hne => ⟨hnames _ (by decide), hjoin hne⟩)
    ⟨hnames _ (by decide), unmarked_of_isDateChar (Rfc2822.isDateChar_of_mem_write? hd)⟩
    ⟨hnames _ (by decide), hm _ (by simp [Message.texts])⟩
    ⟨hnames _ (by decide), hm _ (by simp [Message.texts])⟩
    hown

/-! ## Whole messages -/

theorem unmarked_escape {t : Text} (h : Unmarked t) : Unmarked (FromLine.escape t) := by
  have hline : ∀ a : Text, Unmarked a → Unmarked (FromLine.escapeLine a) := by
    intro a ha
    unfold FromLine.escapeLine
    split
    · exact unmarked_cons (by decide) ha
    · exact ha
  induction t using lineInduction with
  | last a ha =>
    rw [FromLine.escape_of_notMem ha]
    exact hline a h
  | line a t ha ih =>
    have hfirst : Unmarked a := h.of_infix (List.prefix_append _ _).isInfix
    have hrest : Unmarked t := h.of_infix ⟨a ++ ['\n'], [], by simp⟩
    rw [FromLine.escape_append_lf ha]
    exact unmarked_append_cons (by decide) (hline a hfirst) (ih hrest)

theorem unmarked_plain (options : FormatOptions) (hm : ∀ t ∈ m.texts, Unmarked t)
    (hd : Rfc2822.write? m.date = some date) : Unmarked (plain options m date) := by
  have hmailbox : Unmarked m.sender.mailbox := hm _ (by simp [Message.texts])
  have hbody : Unmarked (FromLine.escape m.body) :=
    unmarked_escape (hm m.body (by simp [Message.texts]))
  have hctime : Unmarked (Ctime.write m.date) :=
    unmarked_of_isDateChar (Ctime.isDateChar_of_mem_write m.date)
  have hrest : Unmarked ('\n' :: (FromLine.escape m.body ++ ['\n'])) :=
    unmarked_cons (by decide) (unmarked_append_cons (by decide) hbody unmarked_nil)
  have hblock := unmarked_block hrest (unmarked_fields options hm hd)
  have hline : ∀ rest, envelopeLine m ++ rest = "From".toList ++ ' ' ::
      (m.sender.mailbox ++ ' ' :: ' ' :: (Ctime.write m.date ++ '\n' :: rest)) := by
    intro rest
    simp only [envelopeLine, List.append_assoc]
    rfl
  have hplain : plain options m date = '\n' :: (envelopeLine m ++
      (Header.block (fields options m date) ++ '\n' :: (FromLine.escape m.body ++ ['\n']))) := by
    rw [plain_eq, head]
    simp only [List.append_assoc, List.cons_append, List.nil_append]
  rw [hplain, hline]
  exact unmarked_cons (by decide) (unmarked_append_cons (by decide)
    (unmarked_of_notMem (c := '?') (by decide) (by decide))
    (unmarked_append_cons (by decide) hmailbox
      (unmarked_cons (by decide) (unmarked_append_cons (by decide) hctime hblock))))

end Fragment
end MailArchive
