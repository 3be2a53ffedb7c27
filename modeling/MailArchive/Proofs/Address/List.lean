import MailArchive.Proofs.Address.RoundTrip

/-!
# MailArchive.Proofs.Address.List

Lists of addresses read back. A text that leads from the neutral place back to it is one piece of a
list (`pieces_join`), and the header form of an address is such a text, whatever characters its name
is made of (`afterAll?_toHeader`). So a list is read address by address (`parseList_toHeader`), and
is had back from the header forms with commas between them (`parseList_toHeader_iff`).
-/

namespace MailArchive
namespace Address

open Text

variable {a : Address} {p q : Place} {t rest : Text} {ts : List Text}

/-! ## Places -/

/-- The place after a text; nothing if an address ends in it. -/
def Place.afterAll? (p : Place) (t : Text) : Option Place := t.foldlM Place.after? p

theorem Place.afterAll?_cons (p : Place) (c : Char) (t : Text) :
    p.afterAll? (c :: t) = (p.after? c).bind fun q => q.afterAll? t := rfl

theorem Place.afterAll?_append (h : p.afterAll? t = some q) (rest : Text) :
    p.afterAll? (t ++ rest) = q.afterAll? rest := by
  rw [afterAll?, List.foldlM_append]
  exact congrArg (Option.bind · _) h

/-- The characters that can change the place outside quotes. -/
def marks : List Char := ['"', '<', '>', ',']

theorem Place.after?_of_notMem {c : Char} (hq : p.quoted = false) (he : p.escaped = false)
    (hc : c ∉ marks) : p.after? c = some p := by
  simp only [marks, List.mem_cons, List.not_mem_nil, or_false, not_or] at hc
  simp [after?, hq, he, hc]

theorem Place.afterAll?_of_notMem (hq : p.quoted = false) (he : p.escaped = false)
    (h : ∀ c ∈ t, c ∉ marks) : p.afterAll? t = some p := by
  induction t with
  | nil => rfl
  | cons c t ih =>
    rw [afterAll?_cons, after?_of_notMem hq he (h c List.mem_cons_self), Option.bind_some,
      ih fun d hd => h d (List.mem_cons_of_mem _ hd)]

/-- Escaped text stays in its quotes. -/
theorem Place.afterAll?_escape (t : Text) :
    Place.afterAll? { quoted := true } (escape t) = some { quoted := true } := by
  induction t with
  | nil => rfl
  | cons c t ih =>
    rw [escape, List.flatMap_cons, ← escape, escapeChar]
    split
    · show Place.afterAll? { quoted := true, escaped := true } (c :: escape t) = _
      exact ih
    · rename_i h
      rw [not_or] at h
      rw [List.singleton_append, afterAll?_cons]
      have hstep : Place.after? { quoted := true } c = some { quoted := true } := by
        simp [after?, h.1, h.2]
      rw [hstep]
      exact ih

theorem afterAll?_quote (name : Text) : Place.afterAll? {} (quote name) = some {} := by
  by_cases hq : name.any delimiters.contains = true
  · rw [quote, if_pos hq, List.cons_append, Place.afterAll?_cons]
    show Place.afterAll? { quoted := true } (escape name ++ ['"']) = some {}
    rw [Place.afterAll?_append (Place.afterAll?_escape name)]
    rfl
  · rw [quote, if_neg hq]
    refine Place.afterAll?_of_notMem rfl rfl fun c hc hmark => ?_
    exact notMem_of_not_any hq ((by decide : ∀ d ∈ marks, d ∈ delimiters) c hmark) hc

/-- The header form of an address leads back to the neutral place. -/
theorem afterAll?_toHeader (h : ∀ c ∈ a.mailbox, c ∉ marks) :
    Place.afterAll? {} a.toHeader = some {} := by
  unfold toHeader
  split
  · exact Place.afterAll?_of_notMem rfl rfl h
  · rw [bracket_eq, List.append_assoc, Place.afterAll?_append (afterAll?_quote a.name)]
    show Place.afterAll? { angled := true } (a.mailbox ++ ['>']) = some {}
    rw [Place.afterAll?_append (Place.afterAll?_of_notMem rfl rfl h)]
    rfl

/-! ## Pieces -/

theorem pieces_ne_nil (p : Place) (t : Text) : pieces p t ≠ [] := by
  cases t with
  | nil => simp [pieces]
  | cons c t =>
    rw [pieces]
    split
    · simp
    · split <;> simp

/-- A text in which no address ends belongs to the first piece. -/
theorem pieces_append (h : p.afterAll? t = some q) {piece : Text} {others : List Text}
    (hrest : pieces q rest = piece :: others) : pieces p (t ++ rest) = (t ++ piece) :: others := by
  induction t generalizing p with
  | nil =>
    obtain rfl : p = q := Option.some.inj h
    exact hrest
  | cons c t ih =>
    rw [Place.afterAll?_cons] at h
    obtain ⟨next, hnext, h⟩ := Option.bind_eq_some_iff.mp h
    rw [List.cons_append, pieces, hnext]
    simp only [ih h]
    rfl

/-- The pieces of a list, each with the blank that stands before it. -/
theorem pieces_join (h : ∀ u ∈ t :: ts, Place.afterAll? {} u = some {}) :
    pieces {} (join ", ".toList (t :: ts)) = t :: ts.map (' ' :: ·) := by
  induction ts generalizing t with
  | nil =>
    have hlast := pieces_append (h t List.mem_cons_self) (rfl : pieces {} [] = [[]])
    rw [List.append_nil] at hlast
    rw [join_singleton, hlast]
    rfl
  | cons u ts ih =>
    have hu := ih fun x hx => h x (List.mem_cons_of_mem _ hx)
    have hcomma : pieces {} (',' :: ' ' :: join ", ".toList (u :: ts)) =
        [] :: (' ' :: u) :: ts.map (' ' :: ·) := by
      show [] :: pieces {} ([' '] ++ join ", ".toList (u :: ts)) = _
      rw [pieces_append (rfl : Place.afterAll? {} [' '] = some {}) hu]
      rfl
    have hfirst := pieces_append (h t List.mem_cons_self) hcomma
    rw [List.append_nil] at hfirst
    rw [join_cons_cons]
    exact hfirst

/-! ## Lists -/

theorem parse_space (t : Text) : parse (' ' :: t) = parse t := by
  rw [parse, parse, trim_cons_of_isBlank (by decide)]

/-- What is read from a list is what is read from the texts between its commas. -/
theorem parseList_join (h : ∀ u ∈ ts, Place.afterAll? {} u = some {}) :
    parseList (join ", ".toList ts) = (ts.map parse).filter (!·.mailbox.isEmpty) := by
  cases ts with
  | nil => rfl
  | cons t ts =>
    have hspace : (ts.map (' ' :: ·)).map parse = ts.map parse := by
      rw [List.map_map]
      exact List.map_congr_left fun u _ => parse_space u
    rw [parseList, pieces_join h, List.map_cons, hspace, List.map_cons]

/-- Addresses that are had back from their header forms one by one are had back from a list. -/
theorem parseList_toHeader {as : List Address} (hmarks : ∀ a ∈ as, ∀ c ∈ a.mailbox, c ∉ marks)
    (hread : ∀ a ∈ as, parse a.toHeader = a) :
    parseList (join ", ".toList (as.map toHeader)) = as.filter (!·.mailbox.isEmpty) := by
  have hplace : ∀ u ∈ as.map toHeader, Place.afterAll? {} u = some {} := by
    intro u hu
    obtain ⟨a, ha, rfl⟩ := List.mem_map.mp hu
    exact afterAll?_toHeader (hmarks a ha)
  have hparse : (as.map toHeader).map parse = as := by
    rw [List.map_map]
    exact (List.map_congr_left hread).trans (List.map_id' as)
  rw [parseList_join hplace, hparse]

/-- **Lists of addresses read back.** A list is had back from the header forms of its addresses with
commas between them, in the same order and whatever characters the names are made of, exactly if
none of the addresses is without a mailbox. -/
theorem parseList_toHeader_iff {as : List Address} (hname : ∀ a ∈ as, trim a.name = a.name)
    (hmailbox : ∀ a ∈ as, trim a.mailbox = a.mailbox)
    (hmarks : ∀ a ∈ as, ∀ c ∈ a.mailbox, c ∉ marks)
    (hat : ∀ a ∈ as, '@' ∈ a.mailbox ∨ ¬ atWord <:+: a.mailbox) :
    parseList (join ", ".toList (as.map toHeader)) = as ↔ ∀ a ∈ as, a.mailbox ≠ [] := by
  have hread : ∀ a ∈ as, parse a.toHeader = a := fun a ha =>
    parse_toHeader (hname a ha) (hmailbox a ha) (fun hlt => hmarks a ha '<' hlt (by decide))
      (hat a ha)
  rw [parseList_toHeader hmarks hread, List.filter_eq_self]
  simp only [Bool.not_eq_true', List.isEmpty_eq_false_iff]

/-- Names in which quotes, backslashes, commas and angle brackets are left open, and mailboxes of
more and of less than two words. -/
def openEnded : List Address :=
  [⟨"\"Last, First\\".toList, "a at b@c".toList⟩, ⟨[], "everyone".toList⟩,
    ⟨"\\\">, <x at y".toList, "@".toList⟩, ⟨"of , the > list".toList, "d;e\\".toList⟩]

theorem parseList_toHeader_iff_openEnded :
    (∀ a ∈ openEnded, trim a.name = a.name) ∧ (∀ a ∈ openEnded, trim a.mailbox = a.mailbox) ∧
      (∀ a ∈ openEnded, ∀ c ∈ a.mailbox, c ∉ marks) ∧
      (∀ a ∈ openEnded, '@' ∈ a.mailbox ∨ ¬ atWord <:+: a.mailbox) ∧
      (∀ a ∈ openEnded, a.mailbox ≠ []) ∧
      parseList (join ", ".toList (openEnded.map toHeader)) = openEnded := by
  have hname : ∀ a ∈ openEnded, trim a.name = a.name := by decide
  have hmailbox : ∀ a ∈ openEnded, trim a.mailbox = a.mailbox := by decide
  have hmarks : ∀ a ∈ openEnded, ∀ c ∈ a.mailbox, c ∉ marks := by decide
  have hat : ∀ a ∈ openEnded, '@' ∈ a.mailbox ∨ ¬ atWord <:+: a.mailbox := by decide +kernel
  have hne : ∀ a ∈ openEnded, a.mailbox ≠ [] := by decide
  have hread := (parseList_toHeader_iff hname hmailbox hmarks hat).mpr hne
  exact ⟨hname, hmailbox, hmarks, hat, hne, hread⟩

end Address
end MailArchive
