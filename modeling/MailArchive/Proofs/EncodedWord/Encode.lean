import Mathlib.Data.List.TakeWhile
import MailArchive.EncodedWord
import MailArchive.Proofs.Text.Base64
import MailArchive.Proofs.Text.Lines

/-!
# MailArchive.Proofs.EncodedWord.Encode

Writing encoded words. A text is empty, or begins with a character of ASCII, or begins with a whole
run of characters outside ASCII (`runInduction`), and `encode_nil`, `encode_cons` and `encode_run`
say what is written in each case. So a text can be cut behind a character of ASCII and each part
written on its own (`encode_append`). Nothing is written but ASCII (`isAscii_of_mem_encode`), and
what is seen at the ends of a text or in its lines stays where it is (`prefix_encode_iff`,
`head?_encode`, `getLast?_encode`, `lines_encode`).
-/

namespace MailArchive
namespace EncodedWord

open Text

variable {a b r t : Text} {c : Char}

theorem opening_eq : opening = '=' :: "?utf-8?b?".toList := by decide

theorem closing_eq : closing = ['?', '='] := by decide

/-! ## Runs -/

theorem runs_cons (c : Char) (t : Text) : ∃ r rest, runs (c :: t) = (c :: r) :: rest := by
  show ∃ r rest, consRun c (runs t) = (c :: r) :: rest
  unfold consRun
  split
  · split
    · exact ⟨_, _, rfl⟩
    · exact ⟨_, _, rfl⟩
  · exact ⟨_, _, rfl⟩

/-- The characters of a run are all in ASCII or all outside it. -/
theorem isAscii_eq_of_mem_runs (h : r ∈ runs t) : ∀ c ∈ r, ∀ d ∈ r, isAscii c = isAscii d := by
  induction t generalizing r with
  | nil => cases h
  | cons x t ih =>
    change r ∈ consRun x (runs t) at h
    unfold consRun at h
    split at h
    · rename_i y s rest hr
      have hs := ih (hr ▸ List.mem_cons_self : y :: s ∈ runs t)
      split at h
      · rename_i hxy
        have hx : ∀ d ∈ y :: s, isAscii d = isAscii x := fun d hd =>
          (hs d hd y List.mem_cons_self).trans hxy.symm
        rcases List.mem_cons.mp h with rfl | h
        · have hall : ∀ d ∈ x :: y :: s, isAscii d = isAscii x := by
            intro d hd
            rcases List.mem_cons.mp hd with rfl | hd
            · rfl
            · exact hx d hd
          exact fun c hc d hd => (hall c hc).trans (hall d hd).symm
        · exact ih (hr ▸ List.mem_cons_of_mem _ h)
      · rcases List.mem_cons.mp h with rfl | h
        · simp
        · exact ih (hr ▸ h)
    · rcases List.mem_cons.mp h with rfl | h
      · simp
      · exact ih h

theorem runs_append (hne : r ≠ []) (hr : ∀ c ∈ r, isAscii c = false)
    (ht : ∀ c ∈ t.head?, isAscii c = true) : runs (r ++ t) = r :: runs t := by
  induction r with
  | nil => exact absurd rfl hne
  | cons c r ih =>
    have hc := hr c List.mem_cons_self
    show consRun c (runs (r ++ t)) = (c :: r) :: runs t
    cases r with
    | nil =>
      cases t with
      | nil => rfl
      | cons d t =>
        obtain ⟨s, rest, hs⟩ := runs_cons d t
        have hd := ht d rfl
        rw [List.nil_append, hs, consRun, if_neg (by rw [hc, hd]; exact Bool.false_ne_true)]
    | cons d r =>
      have hd := hr d (by simp)
      rw [ih (by simp) fun x hx => hr x (List.mem_cons_of_mem _ hx), consRun,
        if_pos (by rw [hc, hd])]

/-- A text is empty, or begins with a character of ASCII, or with a run outside ASCII. -/
theorem run_cases (t : Text) :
    t = [] ∨ (∃ c u, isAscii c = true ∧ t = c :: u) ∨
      ∃ r u, r ≠ [] ∧ (∀ c ∈ r, isAscii c = false) ∧ (∀ c ∈ u.head?, isAscii c = true) ∧
        t = r ++ u := by
  cases t with
  | nil => exact .inl rfl
  | cons c t =>
    by_cases hc : isAscii c = true
    · exact .inr (.inl ⟨c, t, hc, rfl⟩)
    · rw [Bool.not_eq_true] at hc
      refine .inr (.inr ⟨(c :: t).takeWhile (!isAscii ·), (c :: t).dropWhile (!isAscii ·), ?_, ?_,
        ?_, List.takeWhile_append_dropWhile.symm⟩)
      · simp [hc]
      · intro d hd
        simpa using List.mem_takeWhile_imp hd
      · intro d hd
        have hnot := List.head?_dropWhile_not (!isAscii ·) (c :: t)
        rw [Option.mem_def.mp hd] at hnot
        simpa using hnot

/-- Induction on the runs of a text outside ASCII and the characters between them. -/
@[elab_as_elim]
theorem runInduction {motive : Text → Prop} (nil : motive [])
    (cons : ∀ c t, isAscii c = true → motive t → motive (c :: t))
    (run : ∀ r t, r ≠ [] → (∀ c ∈ r, isAscii c = false) → (∀ c ∈ t.head?, isAscii c = true) →
      motive t → motive (r ++ t)) (t : Text) : motive t := by
  induction hn : t.length using Nat.strongRecOn generalizing t with
  | ind n ih =>
    subst hn
    rcases run_cases t with rfl | ⟨c, u, hc, rfl⟩ | ⟨r, u, hne, hr, hu, rfl⟩
    · exact nil
    · exact cons c u hc (ih _ (by simp) u rfl)
    · have hpos := List.length_pos_iff.mpr hne
      refine run r u hne hr hu (ih _ ?_ u rfl)
      rw [List.length_append]
      omega

/-! ## What is written -/

theorem encodeRun_of_isAscii (h : ∀ c ∈ r, isAscii c = true) : encodeRun r = r := by
  rw [encodeRun, if_pos (List.all_eq_true.mpr h)]

@[simp] theorem encode_nil : encode [] = [] := rfl

theorem encode_cons (h : isAscii c = true) (t : Text) : encode (c :: t) = c :: encode t := by
  unfold encode
  cases t with
  | nil =>
    show encodeRun [c] ++ [] = [c]
    rw [encodeRun_of_isAscii (by simpa using h), List.append_nil]
  | cons d t =>
    obtain ⟨r, rest, hr⟩ := runs_cons d t
    show (consRun c (runs (d :: t))).flatMap encodeRun = c :: (runs (d :: t)).flatMap encodeRun
    rw [hr, consRun]
    have hmem : d :: r ∈ runs (d :: t) := hr ▸ List.mem_cons_self
    split
    · rename_i hcd
      have hall : ∀ x ∈ d :: r, isAscii x = true := fun x hx =>
        (isAscii_eq_of_mem_runs hmem x hx d List.mem_cons_self).trans (hcd.symm.trans h)
      have hall' : ∀ x ∈ c :: d :: r, isAscii x = true := List.forall_mem_cons.mpr ⟨h, hall⟩
      rw [List.flatMap_cons, List.flatMap_cons, encodeRun_of_isAscii hall,
        encodeRun_of_isAscii hall']
      rfl
    · rw [List.flatMap_cons, encodeRun_of_isAscii (by simpa using h)]
      rfl

theorem encode_run (hne : r ≠ []) (hr : ∀ c ∈ r, isAscii c = false)
    (ht : ∀ c ∈ t.head?, isAscii c = true) :
    encode (r ++ t) = opening ++ (encodePayload r ++ (closing ++ encode t)) := by
  have hrun : r.all isAscii = false := by
    obtain ⟨c, s, rfl⟩ := List.exists_cons_of_ne_nil hne
    simp [hr c List.mem_cons_self]
  rw [encode, runs_append hne hr ht, List.flatMap_cons, encodeRun, hrun, encode]
  simp

theorem encode_of_isAscii (h : ∀ c ∈ t, isAscii c = true) : encode t = t := by
  induction t with
  | nil => rfl
  | cons c t ih =>
    rw [encode_cons (h c List.mem_cons_self), ih fun d hd => h d (List.mem_cons_of_mem _ hd)]

theorem encode_append_cons (h : isAscii c = true) :
    encode (a ++ c :: b) = encode a ++ c :: encode b := by
  induction a using runInduction with
  | nil => exact encode_cons h b
  | cons d a hd ih => rw [List.cons_append, encode_cons hd, encode_cons hd, ih, List.cons_append]
  | run r a hne hr ha ih =>
    have hhead : ∀ d ∈ (a ++ c :: b).head?, isAscii d = true := by
      cases a with
      | nil => simpa using h
      | cons d a => exact ha
    rw [List.append_assoc, encode_run hne hr hhead, encode_run hne hr ha, ih]
    simp

theorem encode_append (h : ∀ c ∈ a.getLast?, isAscii c = true) :
    encode (a ++ b) = encode a ++ encode b := by
  cases hl : a.getLast? with
  | none => rw [List.getLast?_eq_none_iff.mp hl, encode_nil, List.nil_append, List.nil_append]
  | some c =>
    obtain ⟨u, rfl⟩ := List.getLast?_eq_some_iff.mp hl
    have hc := h c hl
    rw [List.append_assoc, List.singleton_append, encode_append_cons hc, encode_append_cons hc,
      encode_nil, List.append_assoc, List.singleton_append]

/-! ## What can be seen in what is written -/

theorem isAscii_of_mem_encode (h : c ∈ encode t) : isAscii c = true := by
  induction t using runInduction with
  | nil => cases h
  | cons d t hd ih =>
    rw [encode_cons hd] at h
    rcases List.mem_cons.mp h with rfl | h
    · exact hd
    · exact ih h
  | run r t hne hr ht ih =>
    have hmark : ∀ d ∈ opening ++ closing, isAscii d = true := by decide
    rw [encode_run hne hr ht] at h
    simp only [List.mem_append] at h
    rcases h with h | h | h | h
    · exact hmark c (List.mem_append_left _ h)
    · exact (Base64.encode_plain h).1
    · exact hmark c (List.mem_append_right _ h)
    · exact ih h

theorem mem_encode_of_mem (h : isAscii c = true) (hc : c ∈ t) : c ∈ encode t := by
  obtain ⟨a, b, rfl⟩ := List.append_of_mem hc
  rw [encode_append_cons h]
  simp

/-- Words have no line end and no closing angle bracket in them. -/
theorem mem_encode_iff (hc : c ∈ ['\r', '\n', '>']) : c ∈ encode t ↔ c ∈ t := by
  induction t using runInduction with
  | nil => rfl
  | cons d t hd ih => rw [encode_cons hd, List.mem_cons, List.mem_cons, ih]
  | run r t hne hr ht ih =>
    have hascii : isAscii c = true := (by decide : ∀ d ∈ ['\r', '\n', '>'], isAscii d = true) c hc
    have hmark : c ∉ opening ∧ c ∉ closing :=
      (by decide : ∀ d ∈ ['\r', '\n', '>'], d ∉ opening ∧ d ∉ closing) c hc
    have hpayload : c ∉ encodePayload r := fun h =>
      (Base64.encode_plain h).2 (List.mem_cons_of_mem _ hc)
    have hrun : c ∉ r := fun h => by
      rw [hr c h] at hascii
      cases hascii
    rw [encode_run hne hr ht]
    simp only [List.mem_append]
    rw [ih]
    constructor
    · rintro (h | h | h | h)
      · exact absurd h hmark.1
      · exact absurd h hpayload
      · exact absurd h hmark.2
      · exact .inr h
    · rintro (h | h)
      · exact absurd h hrun
      · exact .inr (.inr (.inr h))

theorem encode_eq_nil_iff : encode t = [] ↔ t = [] := by
  rcases run_cases t with rfl | ⟨c, u, hc, rfl⟩ | ⟨r, u, hne, hr, hu, rfl⟩
  · simp
  · rw [encode_cons hc]
    simp
  · rw [encode_run hne hr hu, opening_eq, List.cons_append, List.append_eq_nil_iff]
    constructor
    · intro h
      cases h
    · intro h
      exact absurd h.1 hne

/-- How a character looks at the end of what is written: a word begins and ends with `=`. -/
def edge (c : Char) : Char := if isAscii c then c else '='

theorem head?_encode (t : Text) : (encode t).head? = t.head?.map edge := by
  rcases run_cases t with rfl | ⟨c, u, hc, rfl⟩ | ⟨r, u, hne, hr, hu, rfl⟩
  · rfl
  · rw [encode_cons hc]
    simp [edge, hc]
  · obtain ⟨d, s, rfl⟩ := List.exists_cons_of_ne_nil hne
    rw [encode_run hne hr hu]
    rw [opening_eq, List.cons_append, List.head?_cons, List.cons_append, List.head?_cons,
      Option.map_some, edge, hr d List.mem_cons_self]
    rfl

theorem getLast?_encode (t : Text) : (encode t).getLast? = t.getLast?.map edge := by
  induction t using runInduction with
  | nil => rfl
  | cons c t hc ih =>
    rw [encode_cons hc, List.getLast?_cons, List.getLast?_cons, ih]
    cases t.getLast? with
    | none => simp [edge, hc]
    | some d => rfl
  | run r t hne hr ht ih =>
    have hr' := hr _ (List.getLast_mem hne)
    rw [encode_run hne hr ht, List.getLast?_append, List.getLast?_append, List.getLast?_append,
      ih, List.getLast?_append, List.getLast?_eq_some_getLast hne]
    cases t.getLast? with
    | none => simp [edge, hr', closing_eq]
    | some d => rfl

/-- What is in ASCII and without `=` is at the front of what is written if it is at the front of the
text. -/
theorem prefix_encode_iff {q : Text} (hq : ∀ c ∈ q, isAscii c = true ∧ c ≠ '=') :
    q <+: encode t ↔ q <+: t := by
  induction q generalizing t with
  | nil => simp
  | cons x q ih =>
    obtain ⟨hx, hx'⟩ := hq x List.mem_cons_self
    rcases run_cases t with rfl | ⟨c, u, hc, rfl⟩ | ⟨r, u, hne, hr, hu, rfl⟩
    · rfl
    · rw [encode_cons hc, List.cons_prefix_cons, List.cons_prefix_cons,
        ih fun d hd => hq d (List.mem_cons_of_mem _ hd)]
    · obtain ⟨d, s, rfl⟩ := List.exists_cons_of_ne_nil hne
      have hd := hr d List.mem_cons_self
      rw [encode_run hne hr hu]
      constructor
      · intro h
        obtain ⟨rfl, _⟩ := List.cons_prefix_cons.mp (h : x :: q <+: '=' :: _)
        exact absurd rfl hx'
      · intro h
        obtain ⟨rfl, _⟩ := List.cons_prefix_cons.mp (h : x :: q <+: d :: _)
        rw [hx] at hd
        cases hd

/-- Words do not change the lines. -/
theorem lines_encode (t : Text) : lines (encode t) = (lines t).map encode := by
  have hlf : ∀ {u : Text}, '\n' ∉ u → '\n' ∉ encode u := fun hu h =>
    hu ((mem_encode_iff (by decide)).mp h)
  induction t using lineInduction with
  | last a ha =>
    by_cases hne : a = []
    · subst hne
      rfl
    · rw [lines_of_notMem ha hne, lines_of_notMem (hlf ha) fun h => hne (encode_eq_nil_iff.mp h)]
      rfl
  | line a t ha ih =>
    rw [encode_append_cons (by decide), lines_append_lf (hlf ha), lines_append_lf ha, ih,
      List.map_cons, encode_append_cons (by decide), encode_nil]

end EncodedWord
end MailArchive
