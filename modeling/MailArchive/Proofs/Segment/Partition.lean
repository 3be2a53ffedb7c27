import Mathlib.Data.List.Basic
import Mathlib.Data.List.Chain
import Mathlib.Logic.Function.Iterate
import MailArchive.Proofs.FromLine.Escape
import MailArchive.Proofs.Segment.Framing

/-!
# MailArchive.Proofs.Segment.Partition

An archive is cut exactly at its boundaries. A message starts at a line (`StartsAt`) that begins
with `From ` and is the first one or follows a blank one; `span` is what stands between two such
lines. Asking for the next segment over and over gives the spans in order, and then nothing for ever
(`segments_eq_spans`). Put the other way round, the archive is what stands in front of the first
boundary and then the segments, with two line ends between any two of them (`Tiles`).
-/

namespace MailArchive

/-! ## Lines -/

namespace Text

theorem isChain_lines (t : Text) :
    (lines t).IsChain fun line _ => line.getLast? = some '\n' := by
  induction t using lineInduction with
  | last a ha =>
    cases a with
    | nil => exact .nil
    | cons c a =>
      rw [lines_of_notMem ha (by simp)]
      exact .singleton _
  | line a t ha ih =>
    rw [lines_append_lf ha, List.isChain_cons]
    exact ⟨fun _ _ => by simp, ih⟩

end Text

open Text

/-! ## Boundaries -/

/-- Whether a message starts at a line: the line begins with `From `, and it is the first one or the
one before it is blank. -/
def StartsAt (ls : List Text) (i : Nat) : Prop :=
  (∃ line ∈ ls[i]?, FromLine.separator <+: line) ∧
    (i = 0 ∨ ∃ line ∈ ls[i - 1]?, IsTerminator line)

/-- The text of the message that starts at a line, by the line where the next one starts. The blank
line in front of that one is left out, and so is the terminator of the line before. -/
def span (ls : List Text) (i : Nat) : Option Nat → Text
  | some j => dropTerminator ((ls.take (j - 1)).drop i).flatten
  | none => dropTerminator (ls.drop i).flatten

theorem span_some (before own after : List Text) (hne : own ≠ []) :
    span (before ++ (own ++ after)) before.length (some (before.length + own.length)) =
      dropTerminator own.dropLast.flatten := by
  have hlen : before.length + own.length - 1 = before.length + (own.length - 1) := by
    have hpos := List.length_pos_iff.mpr hne
    omega
  rw [span, hlen, List.take_length_add_append, List.drop_left, List.take_append_of_le_length
    (Nat.sub_le _ _), ← List.dropLast_eq_take]

/-- What stands before a line does not matter for the message that starts there. -/
theorem span_append (before ls : List Text) {i : Nat} {next : Option Nat}
    (h : ∀ j ∈ next, i < j) :
    span (before ++ ls) (i + before.length) (next.map (· + before.length)) = span ls i next := by
  rw [Nat.add_comm]
  cases next with
  | none => rw [Option.map_none, span, span, List.drop_length_add_append]
  | some j =>
    have hlen : j + before.length - 1 = before.length + (j - 1) := by
      have hj := h j rfl
      omega
    rw [Option.map_some, span, span, hlen, List.take_length_add_append,
      List.drop_length_add_append]

namespace ArchiveLine

variable {ls : List Text} {offset : Nat} {afterBlank : Bool}

theorem isBoundary_place (hne : ∀ line ∈ ls, line ≠ []) (i : Nat) :
    (∃ l ∈ (place offset afterBlank ls)[i]?, l.isBoundary = true) ↔
      (∃ line ∈ ls[i]?, FromLine.separator <+: line) ∧
        (i = 0 ∧ afterBlank = true ∨ 0 < i ∧ ∃ line ∈ ls[i - 1]?, IsTerminator line) := by
  induction ls generalizing offset afterBlank i with
  | nil => simp
  | cons line ls ih =>
    obtain ⟨hline, hls⟩ := List.forall_mem_cons.mp hne
    rw [place_cons]
    cases i with
    | zero =>
      simp [← FromLine.isSeparator_iff, and_comm]
    | succ i =>
      rw [List.getElem?_cons_succ, List.getElem?_cons_succ, ih hls, isBlankLine_iff hline]
      cases i with
      | zero => simp
      | succ i => simp

/-- The boundaries of an archive are the lines at which its messages start. -/
theorem isBoundary_iff_startsAt (offset : Nat) (t : Text) (i : Nat) :
    (∃ l ∈ (place offset true (lines t))[i]?, l.isBoundary = true) ↔ StartsAt (lines t) i := by
  rw [isBoundary_place fun line h => (of_mem_lines h).1, StartsAt]
  rcases Nat.eq_zero_or_pos i with rfl | hi
  · simp
  · simp [hi, Nat.pos_iff_ne_zero.mp hi]

/-- What is known of the lines of an archive: boundaries are separators behind blank lines, and all
lines but the last are ended. -/
structure Placed (xs : List ArchiveLine) : Prop where
  isSeparator : ∀ l ∈ xs, l.isBoundary = true → FromLine.isSeparator l.text = true
  ended : xs.IsChain fun l next =>
    l.text.getLast? = some '\n' ∧ (next.isBoundary = true → IsTerminator l.text)

theorem placed_place (offset : Nat) (afterBlank : Bool) (t : Text) :
    Placed (place offset afterBlank (lines t)) := by
  have hne : ∀ line ∈ lines t, line ≠ [] := fun line h => (of_mem_lines h).1
  have hchain := isChain_lines t
  generalize lines t = ls at hne hchain
  induction ls generalizing offset afterBlank with
  | nil => exact ⟨by simp, .nil⟩
  | cons line ls ih =>
    obtain ⟨hline, hls⟩ := List.forall_mem_cons.mp hne
    rw [List.isChain_cons] at hchain
    have hplaced : Placed (place (offset + byteLength line) (isBlankLine line) ls) :=
      ih _ _ hls hchain.2
    obtain ⟨hseparator, hended⟩ := hplaced
    rw [place_cons]
    refine ⟨List.forall_mem_cons.mpr ⟨?_, hseparator⟩, List.isChain_cons.mpr ⟨?_, hended⟩⟩
    · intro hb
      exact (Bool.and_eq_true_iff.mp hb).2
    · intro next hnext
      cases ls with
      | nil => cases hnext
      | cons line' ls =>
        rw [place_cons, List.head?_cons, Option.mem_def, Option.some.injEq] at hnext
        subst hnext
        refine ⟨hchain.1 line' rfl, fun hb => ?_⟩
        exact (isBlankLine_iff hline).mp (Bool.and_eq_true_iff.mp hb).1

theorem Placed.of_append {xs ys : List ArchiveLine} (h : Placed (xs ++ ys)) : Placed ys :=
  ⟨fun l hl => h.isSeparator l (List.mem_append_right _ hl), h.ended.right_of_append⟩

end ArchiveLine

/-! ## Segments by boundaries -/

namespace Cursor

variable {ls : List ArchiveLine}

/-- The place after a number of segments. -/
def skip (n : Nat) (cursor : Cursor) : Cursor := (fun c => c.next.2)^[n] cursor

theorem next_skip (n : Nat) (cursor : Cursor) : (cursor.skip n).next.1 = cursor.segments[n]? := by
  induction n generalizing cursor with
  | zero =>
    rw [skip, Function.iterate_zero_apply, segments_eq]
    split
    · rename_i h
      simp [h]
    · rename_i h
      simp [h]
  | succ n ih =>
    rw [skip, Function.iterate_succ_apply, ← skip, ih, segments_eq cursor]
    split
    · rename_i after h
      have hnil : after = ⟨[]⟩ := by
        unfold next at h
        split at h
        · exact (Prod.mk.inj h).2.symm
        · cases (Prod.mk.inj h).1
      rw [h, hnil, segments_nil]
      simp
    · rename_i h
      rw [h, List.getElem?_cons_succ]

theorem length_segments (ls : List ArchiveLine) :
    (segments ⟨ls⟩).length = ls.countP ArchiveLine.isBoundary := by
  have hcount : ∀ xs : List ArchiveLine, (∀ l ∈ xs, l.isBoundary = false) →
      xs.countP ArchiveLine.isBoundary = 0 := by
    intro xs hxs
    rw [List.countP_eq_zero]
    intro l hl
    rw [hxs l hl]
    exact Bool.false_ne_true
  induction ls using blockInduction with
  | none pre hpre => rw [segments_of_forall hpre, hcount pre hpre, List.length_nil]
  | block pre b own after hpre hb hown hafter ih =>
    rw [segments_skip hpre, segments_block hb hown hafter, List.length_cons, ih,
      List.countP_append, hcount pre hpre, List.countP_cons, List.countP_append, hcount own hown,
      hb]
    simp

theorem findIdxs_lt {n i j : Nat} (hi : (ls.findIdxs ArchiveLine.isBoundary)[n]? = some i)
    (hj : (ls.findIdxs ArchiveLine.isBoundary)[n + 1]? = some j) : i < j := by
  obtain ⟨hn, rfl⟩ := List.getElem?_eq_some_iff.mp hi
  obtain ⟨hn', rfl⟩ := List.getElem?_eq_some_iff.mp hj
  exact List.pairwise_iff_getElem.mp List.pairwise_findIdxs n (n + 1) hn hn' (Nat.lt_succ_self n)

theorem text_segments (ls : List ArchiveLine) (n : Nat) :
    (segments ⟨ls⟩)[n]?.map Segment.text =
      (ls.findIdxs ArchiveLine.isBoundary)[n]?.map fun i =>
        span (ls.map ArchiveLine.text) i (ls.findIdxs ArchiveLine.isBoundary)[n + 1]? := by
  induction ls using blockInduction generalizing n with
  | none pre hpre => rw [segments_of_forall hpre, List.findIdxs_eq_nil_iff.mpr hpre]; rfl
  | block pre b own after hpre hb hown hafter ih =>
    have hidxs : (pre ++ b :: (own ++ after)).findIdxs ArchiveLine.isBoundary =
        pre.length :: (after.findIdxs ArchiveLine.isBoundary).map
          (· + (pre.length + 1 + own.length)) := by
      rw [List.findIdxs_append, List.findIdxs_eq_nil_iff.mpr hpre, List.nil_append,
        List.findIdxs_cons, if_pos hb, List.findIdxs_append, List.findIdxs_eq_nil_iff.mpr hown,
        List.nil_append, List.findIdxs_start, Nat.zero_add]
    have htexts : (pre ++ b :: (own ++ after)).map ArchiveLine.text =
        pre.map ArchiveLine.text ++ ((b :: own).map ArchiveLine.text ++
          after.map ArchiveLine.text) := by
      simp
    rw [segments_skip hpre, segments_block hb hown hafter, hidxs, htexts]
    cases n with
    | zero =>
      simp only [List.getElem?_cons_zero, List.getElem?_cons_succ, Option.map_some]
      cases after with
      | nil => simp [span, Segment.ofLines]
      | cons a after =>
        have hspan := span_some (pre.map ArchiveLine.text) ((b :: own).map ArchiveLine.text)
          ((a :: after).map ArchiveLine.text) (by simp)
        have hlen : pre.length + (own.length + 1) = pre.length + 1 + own.length := by omega
        rw [List.length_map, List.length_map, List.length_cons, hlen] at hspan
        have hnext : (((a :: after).findIdxs ArchiveLine.isBoundary).map
            (· + (pre.length + 1 + own.length)))[0]? = some (pre.length + 1 + own.length) := by
          rw [List.findIdxs_cons, if_pos (hafter a rfl)]
          simp
        rw [hnext, hspan, ← List.map_dropLast]
        rfl
    | succ n =>
      have hlen : pre.length + 1 + own.length =
          (pre.map ArchiveLine.text ++ (b :: own).map ArchiveLine.text).length := by
        simp
        omega
      simp only [List.getElem?_cons_succ]
      rw [ih, ← List.append_assoc, List.getElem?_map, List.getElem?_map, Option.map_map, hlen]
      cases hi : (after.findIdxs ArchiveLine.isBoundary)[n]? with
      | none => rfl
      | some i =>
        have hlt : ∀ j ∈ (after.findIdxs ArchiveLine.isBoundary)[n + 1]?, i < j :=
          fun _ hj => findIdxs_lt hi hj
        rw [Option.map_some, Option.map_some, Function.comp_apply, span_append _ _ hlt]

end Cursor

/-! ## The archive as a whole -/

/-- Whether a text consists of some texts with two line ends between any two of them and at most one
behind the last. None of them is empty. -/
inductive Tiles : Text → List Text → Prop
  | none : Tiles [] []
  | last {s e : Text} : s ≠ [] → e = [] ∨ IsTerminator e → Tiles (s ++ e) [s]
  | more {s x y t : Text} {ss : List Text} : s ≠ [] → IsTerminator x → IsTerminator y → ss ≠ [] →
      Tiles t ss → Tiles (s ++ x ++ y ++ t) (s :: ss)

namespace Cursor

variable {ls own : List ArchiveLine} {b : ArchiveLine}

theorem not_isSeparator {t : Text} (h : IsTerminator t) : FromLine.isSeparator t = false := by
  rcases h with rfl | rfl <;> rfl

theorem dropTerminator_ne_nil (h : FromLine.isSeparator b.text = true) :
    dropTerminator ((b :: own).map ArchiveLine.text).flatten ≠ [] := by
  intro hnil
  obtain ⟨rest, hrest⟩ := FromLine.isSeparator_iff.mp h
  obtain ⟨e, he, ht⟩ := dropTerminator_append ((b :: own).map ArchiveLine.text).flatten
  rw [hnil, List.map_cons, List.flatten_cons, ← hrest] at ht
  rcases he with rfl | rfl | rfl <;> cases ht

theorem getLast?_flatten {texts : List Text} {line : Text} {c : Char}
    (hline : texts.getLast? = some line) (hc : line.getLast? = some c) :
    texts.flatten.getLast? = some c := by
  obtain ⟨init, rfl⟩ := List.getLast?_eq_some_iff.mp hline
  rw [List.flatten_append, List.flatten_singleton, List.getLast?_append, hc]
  rfl

/-- The line in front of a boundary is blank, so it is not the boundary before it. The line in front
of the blank one is ended. -/
theorem exists_blank {a : ArchiveLine} {after : List ArchiveLine}
    (h : ArchiveLine.Placed ((b :: own) ++ a :: after))
    (hsep : FromLine.isSeparator b.text = true) (ha : a.isBoundary = true) :
    ∃ init blank, own = init ++ [blank] ∧ IsTerminator blank.text ∧
      ((b :: init).map ArchiveLine.text).flatten.getLast? = some '\n' := by
  obtain ⟨hchain, -, hseam⟩ := List.isChain_append.mp h.ended
  rcases List.eq_nil_or_concat' own with rfl | ⟨init, blank, rfl⟩
  · rw [not_isSeparator ((hseam b rfl a rfl).2 ha)] at hsep
    cases hsep
  · refine ⟨init, blank, rfl, (hseam blank (by simp [List.getLast?_cons]) a rfl).2 ha, ?_⟩
    rw [← List.cons_append, List.isChain_append] at hchain
    have hlast := List.getLast?_eq_some_getLast (List.cons_ne_nil b init)
    refine getLast?_flatten ?_ (hchain.2.2 _ hlast blank rfl).1
    rw [List.getLast?_map, hlast, Option.map_some]

/-- Behind the lines in front of the first boundary the segments fill the archive. -/
theorem tiles_segments (h : ArchiveLine.Placed ls) :
    ∃ rest, Tiles rest ((segments ⟨ls⟩).map Segment.text) ∧
      (ls.map ArchiveLine.text).flatten =
        ((ls.takeWhile (!·.isBoundary)).map ArchiveLine.text).flatten ++ rest := by
  induction ls using blockInduction with
  | none pre hpre =>
    refine ⟨[], ?_, ?_⟩
    · rw [segments_of_forall hpre]
      exact .none
    · rw [List.takeWhile_eq_self_iff.mpr fun l hl => by simp [hpre l hl], List.append_nil]
  | block pre b own after hpre hb hown hafter ih =>
    have hpre' : (pre ++ b :: (own ++ after)).takeWhile (!·.isBoundary) = pre := by
      rw [List.takeWhile_append_of_pos fun l hl => by simp [hpre l hl]]
      simp [hb]
    have hsep := h.isSeparator b (by simp) hb
    have hplaced : ArchiveLine.Placed ((b :: own) ++ after) := h.of_append
    rw [segments_skip hpre, segments_block hb hown hafter, hpre', List.map_append,
      List.flatten_append]
    refine ⟨((b :: (own ++ after)).map ArchiveLine.text).flatten, ?_, rfl⟩
    cases after with
    | nil =>
      obtain ⟨e, he, ht⟩ := dropTerminator_append ((b :: own).map ArchiveLine.text).flatten
      rw [List.append_nil, segments_nil, ht]
      exact .last (dropTerminator_ne_nil hsep) he
    | cons a after =>
      obtain ⟨rest, htiles, hrest⟩ := ih hplaced.of_append
      have ha : a.isBoundary = true := hafter a rfl
      obtain ⟨init, blank, rfl, hblank, hended⟩ := exists_blank hplaced hsep ha
      obtain ⟨e, he, ht⟩ := exists_terminator hended
      have hmore : (segments ⟨a :: after⟩).map Segment.text ≠ [] := by
        have hcount := length_segments (a :: after)
        rw [List.countP_cons, if_pos ha] at hcount
        rw [ne_eq, List.map_eq_nil_iff, ← List.length_eq_zero_iff]
        omega
      have hfirst : (a :: after).takeWhile (!·.isBoundary) = [] := by simp [ha]
      rw [hfirst, List.map_nil, List.flatten_nil, List.nil_append] at hrest
      have htext : ((b :: (init ++ [blank] ++ a :: after)).map ArchiveLine.text).flatten =
          ((b :: init).map ArchiveLine.text).flatten ++ blank.text ++ rest := by
        rw [← hrest]
        simp
      have hsegment : (Segment.ofLines (b :: (init ++ [blank])) (a :: after).isEmpty).text =
          dropTerminator ((b :: init).map ArchiveLine.text).flatten := by
        rw [Segment.ofLines, ← List.cons_append, List.dropLast_concat]
        rfl
      have hne : dropTerminator ((b :: init).map ArchiveLine.text).flatten ≠ [] :=
        dropTerminator_ne_nil hsep
      have htiles := Tiles.more hne he hblank hmore htiles
      rw [← ht, ← hsegment] at htiles
      rw [htext]
      exact htiles

end Cursor

/-- **An archive is cut exactly at its boundaries.** Asking for the next segment over and over gives
the spans of the lines where messages start, in order, and nothing any more after the last of them.
In front of the first one stands a preamble, and the segments are the rest but for the line ends
between and behind them. -/
theorem segments_eq_spans (archive : Text) :
    ∃ starts : List Nat, starts.Pairwise (· < ·) ∧
      (∀ i, i ∈ starts ↔ StartsAt (lines (dropMark archive)) i) ∧
      (∀ n, ((Cursor.start archive).skip n).next.1 = (segments archive)[n]?) ∧
      (∀ n, (segments archive)[n]?.map Segment.text =
        starts[n]?.map fun i => span (lines (dropMark archive)) i starts[n + 1]?) ∧
      ∃ preamble rest, preamble <+: lines (dropMark archive) ∧
        (∀ i ∈ starts, preamble.length ≤ i) ∧ dropMark archive = preamble.flatten ++ rest ∧
        Tiles rest ((segments archive).map Segment.text) := by
  have htext := ArchiveLine.map_text_place (ArchiveLine.origin archive) true
    (lines (dropMark archive))
  have hstart := ArchiveLine.isBoundary_iff_startsAt (ArchiveLine.origin archive) (dropMark archive)
  have hplaced := ArchiveLine.placed_place (ArchiveLine.origin archive) true (dropMark archive)
  rw [segments, Cursor.start, ArchiveLine.ofText_eq]
  generalize ArchiveLine.place _ _ _ = xs at *
  refine ⟨xs.findIdxs ArchiveLine.isBoundary, List.pairwise_findIdxs, fun i => ?_,
    fun n => Cursor.next_skip n _, fun n => ?_, ?_⟩
  · rw [← hstart, List.mem_findIdxs_iff_exists_getElem_pos]
    constructor
    · rintro ⟨hi, hb⟩
      exact ⟨xs[i], List.getElem?_eq_getElem hi, hb⟩
    · rintro ⟨l, hl, hb⟩
      obtain ⟨hi, rfl⟩ := List.getElem?_eq_some_iff.mp hl
      exact ⟨hi, hb⟩
  · rw [Cursor.text_segments, htext]
  · obtain ⟨rest, htiles, hrest⟩ := Cursor.tiles_segments hplaced
    rw [htext, flatten_lines] at hrest
    refine ⟨(xs.takeWhile (!·.isBoundary)).map ArchiveLine.text, rest, ?_, fun i hi => ?_, hrest,
      htiles⟩
    · rw [← htext]
      exact (List.takeWhile_prefix _).map _
    · obtain ⟨hlt, hb⟩ := List.mem_findIdxs_iff_exists_getElem_pos.mp hi
      rw [List.length_map]
      by_contra hle
      rw [Nat.not_le] at hle
      have hmem : xs[i] ∈ xs.takeWhile (!·.isBoundary) := by
        rw [(List.takeWhile_prefix _).getElem hle |>.symm]
        exact List.getElem_mem hle
      simpa [hb] using List.mem_takeWhile_imp hmem

end MailArchive
