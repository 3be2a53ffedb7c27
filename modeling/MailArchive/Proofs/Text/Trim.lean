import Mathlib.Data.List.Induction
import Mathlib.Data.List.TakeWhile
import MailArchive.Text.Basic

/-!
# MailArchive.Proofs.Text.Trim

Trimming. A text is its own trim exactly if it neither begins nor ends with a blank
(`trim_eq_self_iff`), blanks put around it do not matter (`trim_cons_of_isBlank`,
`trim_append_of_isBlank`), only blanks are taken away (`exists_blanks`), and nothing is left exactly
of a text of blanks (`trim_eq_nil_iff`).
-/

namespace MailArchive
namespace Text

theorem trim_cons_of_isBlank {c : Char} (h : isBlank c = true) (t : Text) :
    trim (c :: t) = trim t := by
  simp [trim, trimStart, h]

theorem trim_append_of_isBlank {c : Char} (h : isBlank c = true) (t : Text) :
    trim (t ++ [c]) = trim t := by
  unfold trim trimStart
  rw [List.dropWhile_append]
  split
  · rename_i hnil
    rw [List.isEmpty_iff.mp hnil]
    simp [List.dropWhile, h]
  · simp [trimEnd, h]

theorem trimStart_eq_self_iff {t : Text} :
    trimStart t = t ↔ ∀ c ∈ t.head?, isBlank c = false := by
  cases t with
  | nil => simp [trimStart]
  | cons c t =>
    unfold trimStart
    rw [List.dropWhile_eq_self_iff]
    simp

theorem trimEnd_eq_self_iff {t : Text} :
    trimEnd t = t ↔ ∀ c ∈ t.getLast?, isBlank c = false := by
  rw [← List.head?_reverse, ← trimStart_eq_self_iff]
  constructor
  · intro h
    rw [trimStart]
    exact List.reverse_eq_iff.mp h
  · intro h
    rw [trimStart] at h
    rw [trimEnd, h, List.reverse_reverse]

theorem trimEnd_isPrefix (t : Text) : trimEnd t <+: t := by
  rw [← List.reverse_suffix, trimEnd, List.reverse_reverse]
  exact List.dropWhile_suffix _

theorem trim_isInfix (t : Text) : trim t <:+: t :=
  (trimEnd_isPrefix _).isInfix.trans (List.dropWhile_suffix _).isInfix

theorem head?_trimEnd {t : Text} (h : ∀ c ∈ t.head?, isBlank c = false) :
    ∀ c ∈ (trimEnd t).head?, isBlank c = false := by
  intro c hc
  refine h c ?_
  obtain ⟨u, hu⟩ := trimEnd_isPrefix t
  rw [← hu, List.head?_append, hc]
  rfl

theorem head?_trimStart (t : Text) : ∀ c ∈ (trimStart t).head?, isBlank c = false := by
  intro c hc
  have := List.head?_dropWhile_not isBlank t
  rw [trimStart] at hc
  rw [Option.mem_def.mp hc] at this
  simpa using this

theorem getLast?_trimEnd (t : Text) : ∀ c ∈ (trimEnd t).getLast?, isBlank c = false := by
  intro c hc
  rw [trimEnd, List.getLast?_reverse] at hc
  exact head?_trimStart t.reverse c hc

/-- Trimming leaves alone exactly the texts without a blank at either end. -/
theorem trim_eq_self_iff {t : Text} :
    trim t = t ↔ (∀ c ∈ t.head?, isBlank c = false) ∧ ∀ c ∈ t.getLast?, isBlank c = false := by
  constructor
  · intro h
    constructor
    · rw [← h]
      exact head?_trimEnd (head?_trimStart t)
    · rw [← h]
      exact getLast?_trimEnd _
  · intro ⟨hs, he⟩
    rw [trim, trimStart_eq_self_iff.mpr hs, trimEnd_eq_self_iff.mpr he]

@[simp] theorem trim_trim (t : Text) : trim (trim t) = trim t :=
  trim_eq_self_iff.mpr ⟨head?_trimEnd (head?_trimStart t), getLast?_trimEnd _⟩

theorem trim_trimStart (t : Text) : trim (trimStart t) = trim t := by
  rw [trim, trimStart_eq_self_iff.mpr (head?_trimStart t), trim]

/-- A text is its trim with blanks around it. -/
theorem exists_blanks (t : Text) :
    ∃ a b, (∀ c ∈ a, isBlank c = true) ∧ (∀ c ∈ b, isBlank c = true) ∧ t = a ++ (trim t ++ b) := by
  have hstart : t.takeWhile isBlank ++ trimStart t = t := List.takeWhile_append_dropWhile
  have hend : trim t ++ ((trimStart t).reverse.takeWhile isBlank).reverse = trimStart t := by
    rw [trim, trimEnd, ← List.reverse_append, List.takeWhile_append_dropWhile,
      List.reverse_reverse]
  refine ⟨t.takeWhile isBlank, ((trimStart t).reverse.takeWhile isBlank).reverse, ?_, ?_, ?_⟩
  · exact fun c hc => List.mem_takeWhile_imp hc
  · exact fun c hc => List.mem_takeWhile_imp (List.mem_reverse.mp hc)
  · rw [hend, hstart]

theorem trim_append_blanks {a b : Text} (ha : ∀ c ∈ a, isBlank c = true)
    (hb : ∀ c ∈ b, isBlank c = true) (t : Text) : trim (a ++ (t ++ b)) = trim t := by
  induction a with
  | nil =>
    induction b using List.reverseRecOn with
    | nil => rw [List.nil_append, List.append_nil]
    | append_singleton b c ih =>
      rw [List.forall_mem_append] at hb
      rw [List.nil_append] at ih ⊢
      rw [← List.append_assoc, trim_append_of_isBlank (hb.2 c List.mem_cons_self), ih hb.1]
  | cons c a ih =>
    obtain ⟨hc, ha⟩ := List.forall_mem_cons.mp ha
    rw [List.cons_append, trim_cons_of_isBlank hc, ih ha]

/-- What is no blank is all there after trimming. -/
theorem filter_trim {p : Char → Bool} (hp : ∀ c, p c = true → isBlank c = false) (t : Text) :
    (trim t).filter p = t.filter p := by
  have hnil : ∀ u : Text, (∀ c ∈ u, isBlank c = true) → u.filter p = [] := by
    intro u hu
    rw [List.filter_eq_nil_iff]
    intro c hc hpc
    have hblank := hp c hpc
    rw [hu c hc] at hblank
    cases hblank
  obtain ⟨a, b, ha, hb, ht⟩ := exists_blanks t
  have hparts : (a ++ (trim t ++ b)).filter p = (trim t).filter p := by
    rw [List.filter_append, List.filter_append, hnil a ha, hnil b hb, List.nil_append,
      List.append_nil]
  exact hparts.symm.trans (congrArg _ ht.symm)

theorem trim_eq_nil_iff {t : Text} : trim t = [] ↔ ∀ c ∈ t, isBlank c = true := by
  rw [trim, trimEnd, List.reverse_eq_nil_iff, List.dropWhile_eq_nil_iff]
  constructor
  · intro h
    rw [← List.dropWhile_eq_nil_iff]
    refine List.eq_nil_iff_forall_not_mem.mpr fun c hc => ?_
    have hnil : trimStart t = [] := by
      cases hd : trimStart t with
      | nil => rfl
      | cons d ds =>
        have hd' := head?_trimStart t d (by rw [hd]; rfl)
        rw [h d (by simp [hd])] at hd'
        cases hd'
    rw [← trimStart, hnil] at hc
    cases hc
  · intro h c hc
    exact h c ((List.dropWhile_sublist _).mem (List.mem_reverse.mp hc))

theorem trim_eq_self_of_forall {t : Text} (h : ∀ c ∈ t, isBlank c = false) : trim t = t :=
  trim_eq_self_iff.mpr
    ⟨fun c hc => h c (List.mem_of_mem_head? hc), fun c hc => h c (List.mem_of_mem_getLast? hc)⟩

theorem trim_cons_append {c d : Char} (hc : isBlank c = false) (hd : isBlank d = false)
    (t : Text) : trim (c :: (t ++ [d])) = c :: (t ++ [d]) := by
  rw [trim_eq_self_iff, ← List.cons_append, List.getLast?_concat]
  constructor
  · intro x hx
    obtain rfl := Option.some.inj hx
    exact hc
  · intro x hx
    obtain rfl := Option.some.inj hx
    exact hd

/-! ## Beginnings -/

/-- Whether a text begins with a character that is no blank. -/
def Solid (t : Text) : Prop := ∃ c, t.head? = some c ∧ isBlank c = false

theorem solid_cons {c : Char} {t : Text} (h : isBlank c = false) : Solid (c :: t) := ⟨c, rfl, h⟩

theorem Solid.append {t : Text} (h : Solid t) (u : Text) : Solid (t ++ u) := by
  obtain ⟨c, hc, hb⟩ := h
  exact ⟨c, by rw [List.head?_append, hc]; rfl, hb⟩

theorem Solid.trimStart_eq {t : Text} (h : Solid t) : trimStart t = t := by
  obtain ⟨c, hc, hb⟩ := h
  rw [trimStart_eq_self_iff, hc]
  intro d hd
  obtain rfl := Option.some.inj hd
  exact hb

/-- A space in front of a text that begins with no blank. -/
theorem Solid.trimStart_space {t : Text} (h : Solid t) : trimStart (' ' :: t) = t := by
  rw [trimStart, List.dropWhile_cons_of_pos (by decide), ← trimStart, h.trimStart_eq]

theorem solid_of_trim {t : Text} (h : trim t = t) (hne : t ≠ []) : Solid t := by
  obtain ⟨c, u, rfl⟩ := List.exists_cons_of_ne_nil hne
  exact solid_cons ((trim_eq_self_iff.mp h).1 c rfl)

/-- Trimming stops at a text at the end. -/
theorem trim_append_eq {u : Text} (hu : trim u = u ∧ u ≠ []) (t : Text) :
    trim (t ++ u) = trimStart t ++ u := by
  have hstart : trimStart (t ++ u) = trimStart t ++ u := by
    have hsolid := (solid_of_trim hu.1 hu.2).trimStart_eq
    rw [trimStart] at hsolid
    rw [trimStart, trimStart, List.dropWhile_append]
    split
    · rename_i hnil
      rw [List.isEmpty_iff.mp hnil, hsolid, List.nil_append]
    · rfl
  rw [trim, hstart, trimEnd_eq_self_iff]
  intro c hc
  refine (trim_eq_self_iff.mp hu.1).2 c ?_
  rw [List.getLast?_append, List.getLast?_eq_some_getLast hu.2] at hc
  rw [List.getLast?_eq_some_getLast hu.2]
  exact hc

/-- Trimming stops at the texts at both ends. -/
theorem trim_append_append {t u : Text} (ht : trim t = t ∧ t ≠ []) (hu : trim u = u ∧ u ≠ [])
    (between : Text) : trim (t ++ (between ++ u)) = t ++ (between ++ u) := by
  rw [← List.append_assoc, trim_append_eq hu, ((solid_of_trim ht.1 ht.2).append _).trimStart_eq]

end Text
end MailArchive
