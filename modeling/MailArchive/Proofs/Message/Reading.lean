import Mathlib.Data.List.Basic
import MailArchive.Message.Parser
import MailArchive.Proofs.Address.List
import MailArchive.Proofs.Message.HeaderBlock

/-!
# MailArchive.Proofs.Message.Reading

Reading a message part by part. A text is its envelope line, if it has one (`Envelope.line`), the
lines of its headers, and the rest from the line that ends them; each part is read by itself
(`Envelope.split_line`, `Header.splitBlock_append`, `Header.read_append`). What the headers in front
hold is not changed by those behind, except that continuations wait for the last header in front of
them (`Header.foldr_pushLine`). All fields of a message but the subject are the same if the values
they are read from are the same but for blanks in front (`Draft.Agrees`), so only the subject and
the headers that are kept can be different then (`Message.parse_eq_iff`).
-/

namespace MailArchive

open Text

variable {t u l body block : Text} {envelope : Option Text}

/-! ## Blanks in front of values -/

theorem normalizeId_trimStart (t : Text) : normalizeId (trimStart t) = normalizeId t := by
  rw [normalizeId, normalizeId, trim_trimStart]

theorem Timestamp.read?_trimStart (t : Text) :
    Timestamp.read? (trimStart t) = Timestamp.read? t := by
  rw [Timestamp.read?, Timestamp.read?, trim_trimStart]

namespace Address

theorem parse_trimStart (t : Text) : parse (trimStart t) = parse t := by
  rw [parse, parse, trim_trimStart]

/-- Blanks in front of a list belong to its first address, where they do not matter. -/
theorem parseList_trimStart (t : Text) : parseList (trimStart t) = parseList t := by
  have hblanks : ∀ c ∈ t.takeWhile isBlank, c ∉ marks := by
    intro c hc hmark
    have hsolid : ∀ c ∈ marks, isBlank c = false := by decide
    have hblank := List.mem_takeWhile_imp hc
    rw [hsolid c hmark] at hblank
    cases hblank
  have hplace : Place.afterAll? {} (t.takeWhile isBlank) = some {} :=
    Place.afterAll?_of_notMem rfl rfl hblanks
  obtain ⟨piece, others, hpieces⟩ := List.exists_cons_of_ne_nil (pieces_ne_nil {} (trimStart t))
  have ht := pieces_append hplace hpieces
  rw [trimStart, List.takeWhile_append_dropWhile] at ht
  have hparse : parse (t.takeWhile isBlank ++ piece) = parse piece := by
    rw [← parse_trimStart, trimStart,
      List.dropWhile_append_of_pos fun c hc => List.mem_takeWhile_imp hc]
    exact parse_trimStart piece
  rw [parseList, parseList, ht, hpieces, List.map_cons, List.map_cons, hparse]

end Address

/-! ## Envelopes -/

namespace Envelope

/-- The line that an envelope is read from; nothing if there is to be none. -/
def line : Option Text → Text
  | some rest => FromLine.separator ++ rest ++ ['\n']
  | none => []

theorem split_line (henvelope : ∀ l ∈ envelope, '\n' ∉ l)
    (ht : envelope = none → ¬ FromLine.separator <+: t) :
    split (line envelope ++ t) = (envelope.map ofLine, t) := by
  cases envelope with
  | none =>
    have hnone : strip? FromLine.separator t = none := strip?_eq_none_iff.mpr (ht rfl)
    rw [line, List.nil_append, split, hnone]
    rfl
  | some l =>
    have hcut : cut? ['\n'] (l ++ '\n' :: t) = some (l, t) := cut?_singleton (henvelope l rfl)
    rw [line, List.append_assoc, List.append_assoc, split, strip?_append, List.singleton_append]
    simp only [hcut]
    rfl

end Envelope

namespace Header

variable {hs before : List Header} {h : Header}

/-- A line that begins with the name of a header is no envelope line. -/
theorem not_separator_prefix {name : Text} (h : ' ' ∉ name) (rest : Text) :
    ¬ FromLine.separator <+: name ++ ':' :: rest := by
  rw [prefix_append_cons_iff (by decide)]
  exact fun hname => h (hname.subset (by decide))

/-! ## The lines of the headers -/

/-- Whether a text is made of lines that do not end the headers. -/
structure Runs (t : Text) : Prop where
  closed : Closed t
  lines : ∀ l ∈ lines t, endsBlock l = false

theorem endsBlock_of_mem {t : Text} {c : Char} (hc : c ∈ t) (h : c ∉ ['\r', '\n']) :
    endsBlock t = false := by
  rw [endsBlock, Bool.eq_false_iff]
  intro hall
  have hend := List.all_eq_true.mp hall c hc
  exact h (by simpa using hend)

theorem runs_nil : Runs [] := ⟨closed_nil, by simp⟩

theorem Runs.append (ht : Runs t) (hu : Runs u) : Runs (t ++ u) := by
  refine ⟨ht.closed.append hu.closed, ?_⟩
  rw [lines_append ht.closed, List.forall_mem_append]
  exact ⟨ht.lines, hu.lines⟩

theorem runs_line {e : Text} (hlf : '\n' ∉ l) (hends : endsBlock l = false)
    (he : IsTerminator e) : Runs (l ++ e) := by
  have hline : ∀ {l : Text}, '\n' ∉ l → endsBlock l = false → Runs (l ++ ['\n']) := by
    intro l hl hends
    refine ⟨closed_append_lf, ?_⟩
    rw [lines_append_singleton hl, List.forall_mem_singleton]
    rw [endsBlock, Bool.eq_false_iff] at hends ⊢
    exact fun hall => hends (List.all_append ▸ hall |> Bool.and_eq_true_iff.mp).1
  rcases he with rfl | rfl
  · exact hline hlf hends
  · have hcr : endsBlock (l ++ ['\r']) = false := by
      rw [endsBlock] at hends ⊢
      rw [List.all_append, hends, Bool.false_and]
    have hcrlf := hline (by simp [hlf]) hcr
    rwa [List.append_assoc] at hcrlf

/-- Lines that do not end the headers belong to them. -/
theorem splitBlock_append (ht : Runs t) (u : Text) :
    splitBlock (t ++ u) = (t ++ (splitBlock u).1, (splitBlock u).2) := by
  have hpos : ∀ l ∈ lines t, (!endsBlock l) = true := fun l hl => by
    rw [ht.lines l hl]
    rfl
  rw [splitBlock, splitBlock]
  simp only [lines_append ht.closed]
  rw [List.takeWhile_append_of_pos hpos, List.dropWhile_append_of_pos hpos, List.flatten_append,
    flatten_lines]

theorem splitBlock_terminator {e : Text} (he : IsTerminator e) (body : Text) :
    splitBlock (e ++ body) = ([], body) := by
  have hlines : lines (e ++ body) = e :: lines body := by
    rcases he with rfl | rfl
    · exact lines_append_lf (by simp : '\n' ∉ ([] : Text))
    · exact lines_append_lf (by simp : '\n' ∉ ['\r'])
  have hends : endsBlock e = true := by rcases he with rfl | rfl <;> rfl
  rw [splitBlock]
  simp only [hlines, List.takeWhile_cons, List.dropWhile_cons, hends]
  show (([] : List Text).flatten, (lines body).flatten) = _
  rw [flatten_lines]
  rfl

/-! ## Reading the lines -/

/-- What lines give: continuations that wait for a header in front of them, and headers. -/
def read (t : Text) : List Text × List Header := (blockLines t).foldr pushLine ([], [])

theorem unfold_eq_read (t : Text) : unfold t = (read t).2 := rfl

theorem read_append (ht : Closed t) (u : Text) :
    read (t ++ u) = (blockLines t).foldr pushLine (read u) := by
  rw [read, blockLines, lines_append ht, List.map_append, List.foldr_append]
  rfl

theorem read_lf (hlf : '\n' ∉ l) (u : Text) :
    read (l ++ '\n' :: u) = pushLine (dropTerminator (l ++ ['\n'])) (read u) := by
  rw [read, blockLines, lines_append_lf hlf]
  rfl

theorem read_line {e : Text} (hlf : '\n' ∉ l) (hcr : ∀ c ∈ l.getLast?, c ≠ '\r')
    (he : IsTerminator e) (u : Text) : read (l ++ (e ++ u)) = pushLine l (read u) := by
  rcases he with rfl | rfl
  · rw [List.singleton_append, read_lf hlf, dropTerminator_append_lf hcr]
  · have hread := read_lf (l := l ++ ['\r']) (by simp [hlf]) u
    rw [List.append_assoc, List.append_assoc] at hread
    exact hread.trans (congrArg (pushLine · _) dropTerminator_append_crlf)

theorem pushLine_indented (hl : isIndented l = true) (read : List Text × List Header) :
    pushLine l read = (trim l :: read.1, read.2) := by
  rw [pushLine, if_pos hl]

theorem pushLine_broken (hl : isIndented l = false) (hcolon : ':' ∉ l)
    (read : List Text × List Header) : pushLine l read = read := by
  have hnone : ofLine? l = none := by
    rw [ofLine?, Option.map_eq_none_iff, cut?_eq_none_iff (by simp)]
    exact fun hc => hcolon (hc.subset (List.mem_singleton_self _))
  rw [pushLine, hl, hnone]
  rfl

/-- A header on its line takes the continuations that wait. -/
theorem pushLine_header {name value : Text} (hname : trim name = name) (hcolon : ':' ∉ name)
    (read : List Text × List Header) :
    pushLine (name ++ ':' :: value) read =
      ([], ⟨name, join [' '] (trim value :: read.1)⟩ :: read.2) := by
  have hof : ofLine? (name ++ ':' :: value) = some ⟨name, trim value⟩ := by
    rw [ofLine?, cut?_singleton hcolon, Option.map_some]
    simp only [hname]
  rw [pushLine, isIndented_append_colon hname, hof]
  rfl

/-- What a line can do to what was read behind it: wait for a header as a continuation, do nothing,
or hold a header that takes what waits. -/
theorem pushLine_cases (l : Text) :
    (∃ x, ∀ read, pushLine l read = (x :: read.1, read.2)) ∨ (∀ read, pushLine l read = read) ∨
      ∃ x : Header, ∀ read, pushLine l read =
        ([], ⟨x.name, join [' '] (x.value :: read.1)⟩ :: read.2) := by
  cases hindented : isIndented l with
  | true => exact .inl ⟨trim l, fun read => by rw [pushLine, if_pos hindented]⟩
  | false =>
    cases hof : ofLine? l with
    | none => exact .inr (.inl fun read => by rw [pushLine, hindented, hof]; rfl)
    | some x => exact .inr (.inr ⟨x, fun read => by rw [pushLine, hindented, hof]; rfl⟩)

theorem foldr_pushLine_of_nil {ls : List Text} (hnil : (ls.foldr pushLine ([], [])).2 = [])
    (waiting : List Text) (after : List Header) :
    ls.foldr pushLine (waiting, after) =
      ((ls.foldr pushLine ([], [])).1 ++ waiting, after) := by
  induction ls with
  | nil => rfl
  | cons l ls ih =>
    rw [List.foldr_cons] at hnil ⊢
    rw [List.foldr_cons]
    rcases pushLine_cases l with ⟨x, hl⟩ | hl | ⟨x, hl⟩
    · rw [hl] at hnil
      rw [hl, hl, ih hnil]
      rfl
    · rw [hl] at hnil
      rw [hl, hl, ih hnil]
    · rw [hl] at hnil
      cases hnil

/-- Continuations that wait behind some lines belong to the last header on these lines. -/
theorem foldr_pushLine {ls : List Text} (hlast : (ls.foldr pushLine ([], [])).2 = before ++ [h])
    (waiting : List Text) (after : List Header) :
    ls.foldr pushLine (waiting, after) =
      ((ls.foldr pushLine ([], [])).1,
        before ++ ⟨h.name, join [' '] (h.value :: waiting)⟩ :: after) := by
  induction ls generalizing before with
  | nil => simp at hlast
  | cons l ls ih =>
    rw [List.foldr_cons] at hlast ⊢
    rw [List.foldr_cons]
    rcases pushLine_cases l with ⟨x, hl⟩ | hl | ⟨x, hl⟩
    · rw [hl] at hlast
      rw [hl, hl, ih hlast]
    · rw [hl] at hlast
      rw [hl, hl, ih hlast]
    · rw [hl] at hlast
      rw [hl, hl]
      -- The header on this line takes what waits only if there is none on the lines behind it.
      rcases List.eq_nil_or_concat' (ls.foldr pushLine ([], [])).2 with hnil | ⟨inner, y, hinner⟩
      · rw [hnil] at hlast
        have hone : ([] : List Header) ++ [_] = before ++ [h] := hlast
        obtain ⟨rfl, hx⟩ := List.append_inj' hone rfl
        obtain rfl := List.singleton_inj.mp hx
        rw [foldr_pushLine_of_nil hnil, join_append]
        rfl
      · rw [hinner, ← List.cons_append] at hlast
        obtain ⟨rfl, hy⟩ := List.append_inj' hlast rfl
        obtain rfl := List.singleton_inj.mp hy
        rw [ih hinner]
        rfl

end Header

/-! ## Drafts -/

namespace Draft

variable {d d' : Draft} {hs : List Header}

/-- A text is taken apart behind its envelope line and behind its headers. -/
theorem ofText?_of_split {e : Option Envelope} (ht : Envelope.split t = (e, u))
    (hu : Header.splitBlock u = (block, body)) (hblock : trim block ≠ []) :
    ofText? t = some ⟨e, Header.unfold block, Header.skipped block, body⟩ := by
  have hempty : (trim block).isEmpty = false := List.isEmpty_eq_false_iff.mpr hblock
  rw [ofText?, ht]
  simp only [hu, hempty]
  rfl

/-- Headers on lines of their own end at the empty line behind them. -/
theorem ofText?_block {e : Option Envelope}
    (ht : Envelope.split t = (e, Header.block hs ++ '\n' :: body))
    (hh : ∀ h ∈ hs, h.IsLine) (hne : hs ≠ []) :
    ofText? t = some ⟨e, hs.map Header.trimmed, Header.skipped (Header.block hs), body⟩ := by
  have hlf : ∀ h ∈ hs, '\n' ∉ h.content := fun h hmem => (hh h hmem).content_lf
  rw [ofText?_of_split ht (Header.splitBlock_block hlf body) (Header.trim_block_ne_nil hne),
    Header.unfold_block hh]

theorem author_eq (d : Draft) : d.author =
    (((d.header? "from").map Address.parse).or
      (d.envelope.map fun e => Address.parse e.sender)).getD .empty := by
  unfold author
  cases d.header? "from" with
  | some value => rfl
  | none => cases d.envelope <;> rfl

theorem sender_eq (d : Draft) :
    d.sender = ((d.header? "sender").map Address.parse).getD d.author := by
  unfold sender
  cases d.header? "sender" <;> rfl

theorem recipients_eq (d : Draft) :
    d.recipients = ((d.header? "to").map Address.parseList).getD [] := by
  unfold recipients
  cases d.header? "to" <;> rfl

theorem date_eq (d : Draft) : d.date =
    ((((d.header? "date").map Timestamp.read?).toList ++
      (d.envelope.map fun e => Timestamp.read? e.date).toList).findSome? fun date => date).getD
        .epoch := by
  unfold date dates
  cases d.header? "date" <;> cases d.envelope <;> rfl

/-- Whether two drafts hold the same for all fields of a message but its subject: the same envelope,
the same body, and the same in the headers, but for blanks in front. -/
structure Agrees (d d' : Draft) : Prop where
  envelope : d'.envelope = d.envelope
  body : d'.body = d.body
  fields : ∀ name ∈ Header.lifted,
    (Header.find? name d'.headers).map trimStart = (Header.find? name d.headers).map trimStart

namespace Agrees

/-- What does not look at blanks in front comes to the same for both. -/
theorem map_header? {α : Type} {f : Text → α} (h : d.Agrees d') {name : String}
    (hname : name.toList ∈ Header.lifted) (hf : ∀ t, f (trimStart t) = f t) :
    (d'.header? name).map f = (d.header? name).map f := by
  have hcomp : f ∘ trimStart = f := funext hf
  rw [← hcomp, ← Option.map_map, ← Option.map_map]
  exact congrArg _ (h.fields name.toList hname)

theorem id_eq (h : d.Agrees d') : d'.id = d.id := by
  rw [Draft.id, Draft.id, h.map_header? (by decide) normalizeId_trimStart]

theorem author_eq (h : d.Agrees d') : d'.author = d.author := by
  rw [Draft.author_eq, Draft.author_eq, h.envelope,
    h.map_header? (by decide) Address.parse_trimStart]

theorem sender_eq (h : d.Agrees d') : d'.sender = d.sender := by
  rw [Draft.sender_eq, Draft.sender_eq, h.author_eq,
    h.map_header? (by decide) Address.parse_trimStart]

theorem recipients_eq (h : d.Agrees d') : d'.recipients = d.recipients := by
  rw [Draft.recipients_eq, Draft.recipients_eq,
    h.map_header? (by decide) Address.parseList_trimStart]

theorem date_eq (h : d.Agrees d') : d'.date = d.date := by
  rw [Draft.date_eq, Draft.date_eq, h.envelope,
    h.map_header? (by decide) Timestamp.read?_trimStart]

theorem toMessage_eq (h : d.Agrees d') : d'.toMessage =
    { d.toMessage with
      subject := (d'.header? "subject").getD []
      headers := d'.headers.filter (!·.isLifted) } := by
  rw [toMessage, toMessage, h.id_eq, h.author_eq, h.sender_eq, h.recipients_eq, h.date_eq, h.body]

theorem toMessage_eq_iff (h : d.Agrees d') : d'.toMessage = d.toMessage ↔
    (d'.header? "subject").getD [] = (d.header? "subject").getD [] ∧
      d'.headers.filter (!·.isLifted) = d.headers.filter (!·.isLifted) := by
  rw [h.toMessage_eq, toMessage]
  simp only [Message.mk.injEq, true_and, and_true]

end Agrees
end Draft

theorem Message.parse_of_draft {d : Draft} (h : Draft.ofText? t = some d) :
    Message.parse t = if d.id = [] then .error .missingMessageId else .ok d.toMessage := by
  rw [Message.parse, h]
  simp only [List.isEmpty_iff]

/-- Texts that agree give the same, whether a message or a fault, exactly if in case of a message
they have the same subject and the same headers that are no fields. -/
theorem Message.parse_eq_iff {d d' : Draft} (ht : Draft.ofText? t = some d)
    (hu : Draft.ofText? u = some d') (h : d.Agrees d') :
    Message.parse u = Message.parse t ↔ ∀ m, Message.parse t = .ok m →
      (d'.header? "subject").getD [] = (d.header? "subject").getD [] ∧
        d'.headers.filter (!·.isLifted) = d.headers.filter (!·.isLifted) := by
  rw [parse_of_draft ht, parse_of_draft hu, h.id_eq, ← h.toMessage_eq_iff]
  by_cases hid : d.id = []
  · simp [hid]
  · rw [if_neg hid, if_neg hid, Except.ok.injEq]
    exact ⟨fun hsame _ _ => hsame, fun hsame => hsame _ rfl⟩

end MailArchive
