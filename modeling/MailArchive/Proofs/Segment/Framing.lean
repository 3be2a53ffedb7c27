import Mathlib.Data.List.TakeWhile
import MailArchive.Proofs.Text.Lines
import MailArchive.Segment

/-!
# MailArchive.Proofs.Segment.Framing

What the segments of an archive are, and what becomes of them when the archive grows. Lines in front
of the first boundary do not matter (`segments_skip`), and a boundary with the lines up to the next
one is one segment (`segments_block`). So a blank line, a separator and lines that are no boundaries
add one segment at the end and change none before it (`segments_append_block`); for texts that is
`segments_append`.
-/

namespace MailArchive

namespace Text

/-- The text without a byte order mark in front. -/
def dropMark (t : Text) : Text := if t.head? = some byteOrderMark then t.tail else t

theorem Closed.dropMark {t : Text} (h : Closed t) : Closed (dropMark t) := by
  unfold Text.dropMark
  split
  · intro c hc
    refine h c ?_
    rw [List.getLast?_tail] at hc
    split at hc
    · cases hc
    · exact hc
  · exact h

end Text

open Text

/-! ## Placed lines -/

namespace ArchiveLine

/-- The lines of an archive, placed from an offset on. -/
def place (offset : Nat) (afterBlank : Bool) (ls : List Text) : List ArchiveLine :=
  placeAfter [] offset afterBlank ls

@[simp] theorem place_nil (offset : Nat) (afterBlank : Bool) :
    place offset afterBlank [] = [] := rfl

theorem place_cons (offset : Nat) (afterBlank : Bool) (line : Text) (ls : List Text) :
    place offset afterBlank (line :: ls) =
      ⟨line, offset, afterBlank && FromLine.isSeparator line⟩ ::
        place (offset + byteLength line) (isBlankLine line) ls := by
  rw [place, placeAfter, placeAfter_eq]
  rfl

theorem map_text_place (offset : Nat) (afterBlank : Bool) (ls : List Text) :
    (place offset afterBlank ls).map text = ls := by
  induction ls generalizing offset afterBlank with
  | nil => rfl
  | cons line ls ih => rw [place_cons, List.map_cons, ih]

/-- Behind a blank line the lines that come before it do not matter but for their length. -/
theorem place_append (offset : Nat) (afterBlank : Bool) (ls : List Text) {blank : Text}
    (h : isBlankLine blank = true) (rest : List Text) :
    ∃ at₁ at₂ afterBlank', place offset afterBlank (ls ++ blank :: rest) =
      place offset afterBlank ls ++
        ⟨blank, at₁, afterBlank' && FromLine.isSeparator blank⟩ :: place at₂ true rest := by
  induction ls generalizing offset afterBlank with
  | nil =>
    refine ⟨offset, offset + byteLength blank, afterBlank, ?_⟩
    rw [List.nil_append, place_cons, h]
    rfl
  | cons line ls ih =>
    obtain ⟨at₁, at₂, afterBlank', hl⟩ := ih (offset + byteLength line) (isBlankLine line)
    refine ⟨at₁, at₂, afterBlank', ?_⟩
    rw [List.cons_append, place_cons, place_cons, hl]
    rfl

theorem isBoundary_of_mem_place {offset : Nat} {afterBlank : Bool} {ls : List Text}
    (h : ∀ line ∈ ls, FromLine.isSeparator line = false) :
    ∀ l ∈ place offset afterBlank ls, l.isBoundary = false := by
  induction ls generalizing offset afterBlank with
  | nil => simp
  | cons line ls ih =>
    rw [place_cons]
    refine List.forall_mem_cons.mpr ⟨?_, ih fun l hl => h l (List.mem_cons_of_mem _ hl)⟩
    simp [h line List.mem_cons_self]

theorem isBoundary_of_mem_place_append {offset : Nat} {ls own : List Text}
    (hls : ∀ line ∈ ls, isBlankLine line = false)
    (hown : ∀ line ∈ own, FromLine.isSeparator line = false) :
    ∀ l ∈ place offset false (ls ++ own), l.isBoundary = false := by
  induction ls generalizing offset with
  | nil => exact isBoundary_of_mem_place hown
  | cons line ls ih =>
    obtain ⟨hline, hrest⟩ := List.forall_mem_cons.mp hls
    rw [List.cons_append, place_cons, hline]
    exact List.forall_mem_cons.mpr ⟨rfl, ih hrest⟩

/-- The number of bytes in front of the first line. -/
def origin (archive : Text) : Nat :=
  if archive.head? = some byteOrderMark then byteOrderMark.utf8Size else 0

theorem ofText_eq (archive : Text) :
    ofText archive = place (origin archive) true (lines (dropMark archive)) := by
  cases archive with
  | nil => rfl
  | cons c archive =>
    by_cases hc : c = byteOrderMark
    · have hhead : (c :: archive).head? = some byteOrderMark := by rw [hc]; rfl
      rw [ofText, if_pos hc, dropMark, origin, if_pos hhead, if_pos hhead, hc]
      rfl
    · have hhead : (c :: archive).head? ≠ some byteOrderMark := by simpa using hc
      rw [ofText, if_neg hc, dropMark, origin, if_neg hhead, if_neg hhead]
      rfl

theorem ofText_append {a b : Text} (hb : b.head? ≠ some byteOrderMark) :
    ofText (a ++ b) = place (origin a) true (lines (dropMark a ++ b)) := by
  rw [ofText_eq]
  cases a with
  | nil =>
    rw [List.nil_append, origin, dropMark, if_neg hb, if_neg hb]
    rfl
  | cons c a =>
    have hmark : dropMark (c :: a ++ b) = dropMark (c :: a) ++ b := by
      unfold dropMark
      split <;> split <;> simp_all
    rw [hmark]
    rfl

end ArchiveLine

/-! ## Cutting -/

namespace Cursor

variable {ls pre own after : List ArchiveLine} {b blank : ArchiveLine}

theorem segmentsAfter_eq (found : List Segment) (cursor : Cursor) :
    segmentsAfter found cursor = found.reverse ++ cursor.segments := by
  induction hn : cursor.lines.length using Nat.strongRecOn generalizing found cursor with
  | ind n ih =>
    subst hn
    rw [segments, segmentsAfter, segmentsAfter]
    split
    · simp
    · rename_i segment after h
      have hlt := length_next h
      rw [ih _ hlt _ _ rfl, ih _ hlt [segment] _ rfl]
      simp

theorem segments_eq (cursor : Cursor) :
    cursor.segments =
      match cursor.next with
      | (none, _) => []
      | (some segment, after) => segment :: after.segments := by
  rw [segments, segmentsAfter]
  split
  · rename_i h
    rw [h]
    rfl
  · rename_i h
    rw [h, segmentsAfter_eq]
    rfl

theorem segments_nil : segments ⟨[]⟩ = [] := by
  rw [segments_eq]
  rfl

theorem segments_skip (h : ∀ l ∈ pre, l.isBoundary = false) :
    segments ⟨pre ++ ls⟩ = segments ⟨ls⟩ := by
  have hdrop : (pre ++ ls).dropWhile (!·.isBoundary) = ls.dropWhile (!·.isBoundary) :=
    List.dropWhile_append_of_pos fun l hl => by simp [h l hl]
  rw [segments_eq, segments_eq, next, next, hdrop]

theorem segments_of_forall (h : ∀ l ∈ ls, l.isBoundary = false) : segments ⟨ls⟩ = [] := by
  rw [← List.append_nil ls, segments_skip h, segments_nil]

theorem segments_block (hb : b.isBoundary = true) (hown : ∀ l ∈ own, l.isBoundary = false)
    (hafter : ∀ l ∈ after.head?, l.isBoundary = true) :
    segments ⟨b :: (own ++ after)⟩ =
      Segment.ofLines (b :: own) after.isEmpty :: segments ⟨after⟩ := by
  have hpos : ∀ l ∈ own, (!l.isBoundary) = true := fun l hl => by simp [hown l hl]
  have hstop : after.dropWhile (!·.isBoundary) = after ∧ after.takeWhile (!·.isBoundary) = [] := by
    cases after with
    | nil => exact ⟨rfl, rfl⟩
    | cons l after =>
      have hl := hafter l rfl
      simp [hl]
  rw [segments_eq, next, List.dropWhile_cons_of_neg (by simp [hb])]
  simp only
  rw [List.takeWhile_append_of_pos hpos, List.dropWhile_append_of_pos hpos, hstop.1, hstop.2,
    List.append_nil]

/-- Induction on the blocks of an archive: each has a boundary in it, and the next one begins at
another boundary. -/
@[elab_as_elim]
theorem blockInduction {motive : List ArchiveLine → Prop}
    (none : ∀ pre : List ArchiveLine, (∀ l ∈ pre, l.isBoundary = false) → motive pre)
    (block : ∀ (pre : List ArchiveLine) (b : ArchiveLine) (own after : List ArchiveLine),
      (∀ l ∈ pre, l.isBoundary = false) → b.isBoundary = true →
        (∀ l ∈ own, l.isBoundary = false) → (∀ l ∈ after.head?, l.isBoundary = true) →
          motive after → motive (pre ++ b :: (own ++ after)))
    (ls : List ArchiveLine) : motive ls := by
  have hnot : ∀ xs : List ArchiveLine,
      ∀ l ∈ xs.takeWhile (!·.isBoundary), l.isBoundary = false := by
    intro xs l hl
    simpa using List.mem_takeWhile_imp hl
  have hhead : ∀ xs : List ArchiveLine, ∀ l ∈ (xs.dropWhile (!·.isBoundary)).head?,
      l.isBoundary = true := by
    intro xs l hl
    have h := List.head?_dropWhile_not (!·.isBoundary) xs
    rw [Option.mem_def.mp hl] at h
    simpa using h
  induction hn : ls.length using Nat.strongRecOn generalizing ls with
  | ind n ih =>
    subst hn
    have hsplit := List.takeWhile_append_dropWhile (p := (!·.isBoundary)) (l := ls)
    cases hd : ls.dropWhile (!·.isBoundary) with
    | nil =>
      rw [hd, List.append_nil] at hsplit
      exact none ls (hsplit ▸ hnot ls)
    | cons b rest =>
      have hb : b.isBoundary = true := hhead ls b (by rw [hd]; rfl)
      have hlt : (rest.dropWhile (!·.isBoundary)).length < ls.length := by
        have h₁ := congrArg List.length hsplit
        rw [hd, List.length_append, List.length_cons] at h₁
        have h₂ : (rest.dropWhile (!·.isBoundary)).length ≤ rest.length :=
          (List.dropWhile_sublist _).length_le
        omega
      have hblock := block _ b _ _ (hnot ls) hb (hnot rest) (hhead rest) (ih _ hlt _ rfl)
      rwa [List.takeWhile_append_dropWhile, ← hd, hsplit] at hblock

/-! ## Growth -/

theorem ofLines_append_blank (h : FromLine.isSeparator blank.text = false) :
    Segment.ofLines (ls ++ [blank]) false = Segment.ofLines ls true := by
  simp [Segment.ofLines, h]

/-- A blank line, a boundary and lines that are none add one segment at the end. -/
theorem segments_append_block (hblank : blank.isBoundary = false)
    (hblank' : FromLine.isSeparator blank.text = false) (hb : b.isBoundary = true)
    (hown : ∀ l ∈ own, l.isBoundary = false) :
    segments ⟨ls ++ blank :: b :: own⟩ = segments ⟨ls⟩ ++ [Segment.ofLines (b :: own) true] := by
  have hnew : segments ⟨b :: own⟩ = [Segment.ofLines (b :: own) true] := by
    have h : segments ⟨b :: (own ++ [])⟩ = Segment.ofLines (b :: own) true :: segments ⟨[]⟩ :=
      segments_block hb hown (by simp)
    rwa [List.append_nil, segments_nil] at h
  induction ls using blockInduction with
  | none pre hpre =>
    have hpre' : ∀ l ∈ pre ++ [blank], l.isBoundary = false := by
      intro l hl
      rcases List.mem_append.mp hl with hl | hl
      · exact hpre l hl
      · rw [List.mem_singleton.mp hl, hblank]
    rw [List.append_cons, segments_skip hpre', hnew, segments_of_forall hpre, List.nil_append]
  | block pre c its after hpre hc hits hafter ih =>
    rw [List.append_assoc, segments_skip hpre, segments_skip hpre, List.cons_append,
      List.append_assoc, segments_block hc hits hafter]
    cases after with
    | nil =>
      have hits' : ∀ l ∈ its ++ [blank], l.isBoundary = false := by
        intro l hl
        rcases List.mem_append.mp hl with hl | hl
        · exact hits l hl
        · rw [List.mem_singleton.mp hl, hblank]
      have hlines : its ++ ([] ++ blank :: b :: own) = (its ++ [blank]) ++ (b :: own) := by simp
      have hlast :
          Segment.ofLines (c :: (its ++ [blank])) false = Segment.ofLines (c :: its) true :=
        (ofLines_append_blank hblank' : Segment.ofLines ((c :: its) ++ [blank]) false = _)
      rw [hlines, segments_block hc hits' (by simpa using hb), hnew, segments_nil]
      exact congrArg (· :: _) hlast
    | cons a after =>
      have hnext : ∀ l ∈ (a :: after ++ blank :: b :: own).head?, l.isBoundary = true := by
        simpa using hafter
      rw [segments_block hc hits hnext, ih]
      rfl

end Cursor

/-- The segment that a separator and the lines after it make up when nothing follows. -/
theorem segments_append {a f separator blank : Text} {own : List Text} (ha : Closed (dropMark a))
    (hblank : IsTerminator blank) (hlines : lines f = separator :: own)
    (hsep : FromLine.isSeparator separator = true)
    (hown : ∀ offset, ∀ l ∈ ArchiveLine.place offset (isBlankLine separator) own,
      l.isBoundary = false) :
    ∃ s : Segment, s.text = dropTerminator f ∧
      segments (a ++ (blank ++ f)) = segments a ++ [s] := by
  have hblank' : isBlankLine blank = true ∧ FromLine.isSeparator blank = false ∧
      (blank ++ f).head? ≠ some byteOrderMark := by
    rcases hblank with rfl | rfl <;> simp [byteOrderMark] <;> decide
  have hf : lines (blank ++ f) = blank :: separator :: own := by
    rw [← hlines]
    rcases hblank with rfl | rfl
    · exact lines_append_lf (a := []) (by simp)
    · exact lines_append_lf (a := ['\r']) (by simp)
  obtain ⟨at₁, at₂, afterBlank, hplace⟩ :=
    ArchiveLine.place_append (ArchiveLine.origin a) true (lines (dropMark a)) hblank'.1
      (separator :: own)
  have htext : Segment.text (Segment.ofLines (ArchiveLine.place at₂ true (separator :: own)) true) =
      dropTerminator f := by
    rw [Segment.ofLines, if_pos rfl, ArchiveLine.map_text_place, ← hlines, flatten_lines]
  refine ⟨_, htext, ?_⟩
  rw [segments, Cursor.start, ArchiveLine.ofText_append hblank'.2.2, lines_append ha, hf, hplace,
    segments, Cursor.start, ArchiveLine.ofText_eq, ArchiveLine.place_cons at₂]
  refine Cursor.segments_append_block ?_ hblank'.2.1 (by simpa using hsep) (hown _)
  rw [hblank'.2.1, Bool.and_false]

end MailArchive
