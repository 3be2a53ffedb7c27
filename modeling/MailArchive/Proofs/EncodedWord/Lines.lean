import MailArchive.Proofs.EncodedWord.RoundTrip

/-!
# MailArchive.Proofs.EncodedWord.Lines

Reading words line by line. A word is looked for on the rest of its line only
(`payload?_append_end`), so a text can be cut behind a carriage return or a line feed and its parts
read one after the other (`decode_append_end`): what is read last cannot change what has been read,
and the first fault counts. Where no opening is closed on its line there is nothing to read
(`decode_of_unclosed`). The proofs go from opening to opening, by `openingInduction`.
-/

namespace MailArchive
namespace EncodedWord

open Text

variable {a b t : Text} {c : Char}

/-- Induction on the openings of a text and the characters between them. Reading goes on right
behind an opening or further on. -/
@[elab_as_elim]
theorem openingInduction {motive : Text → Prop} (nil : motive [])
    (cons : ∀ c t, strip? opening (c :: t) = none → motive t → motive (c :: t))
    (opened : ∀ t, (∀ u : Text, u.length ≤ t.length → motive u) → motive (opening ++ t))
    (t : Text) : motive t := by
  induction hn : t.length using Nat.strongRecOn generalizing t with
  | ind n ih =>
    subst hn
    cases hs : strip? opening t with
    | some after =>
      obtain rfl := strip?_eq_some_iff.mp hs
      refine opened after fun u hu => ih _ ?_ u rfl
      rw [opening_eq, List.cons_append, List.length_cons, List.length_append]
      omega
    | none =>
      cases t with
      | nil => exact nil
      | cons c t => exact cons c t hs (ih _ (by simp) t rfl)

/-! ## The seam between two lines -/

/-- The rest of a line does not go on behind the end of the line. -/
theorem lineRest_append_end (h : c = '\r' ∨ c = '\n') (a b : Text) :
    lineRest (a ++ c :: b) = lineRest a := by
  induction a with
  | nil => exact lineRest_end h
  | cons d a ih =>
    by_cases hd : d = '\r' ∨ d = '\n'
    · rw [List.cons_append, lineRest_end hd, lineRest_end hd]
    · rw [List.cons_append, lineRest_cons (not_or.mp hd), lineRest_cons (not_or.mp hd), ih]

/-- A word is closed in front of the end of the line or not at all. -/
theorem payload?_append_end (h : c = '\r' ∨ c = '\n') (a b : Text) :
    payload? (a ++ c :: b) = (payload? a).map fun p => (p.1, p.2 ++ c :: b) := by
  rw [payload?, payload?, lineRest_append_end h, Option.map_map]
  cases hcut : cut? closing (lineRest a) with
  | none => rfl
  | some p =>
    have hline : lineRest a <+: a := List.takeWhile_prefix _
    have hlen : p.1.length + closing.length ≤ a.length := by
      refine Nat.le_trans ?_ hline.length_le
      rw [cut?_append hcut, List.length_append, List.length_append]
      exact Nat.le_add_right _ _
    simp only [Option.map_some, Function.comp_apply, List.drop_append_of_le_length hlen]

/-- What is put in front of a first part is put in front of the whole. -/
theorem map_append_bind (w : Text) (c : Char) (x y : Except Fault Text) :
    (x.bind fun u => y.map (u ++ c :: ·)).map (w ++ ·) =
      (x.map (w ++ ·)).bind fun u => y.map (u ++ c :: ·) := by
  cases x with
  | error fault => rfl
  | ok u => cases y <;> simp [Except.map, Except.bind]

/-- A text is read up to the end of a line as if nothing followed, and from there on as if nothing
came before. -/
theorem decode_append_end (h : c = '\r' ∨ c = '\n') (a b : Text) :
    decode (a ++ c :: b) = (decode a).bind fun x => (decode b).map (x ++ c :: ·) := by
  have hc : c ∉ opening := by rcases h with rfl | rfl <;> decide
  induction a using openingInduction with
  | nil =>
    have hnone : strip? opening (c :: b) = none := by
      rw [strip?_eq_none_iff, ← List.nil_append (c :: b), prefix_append_cons_iff hc]
      decide
    rw [List.nil_append, decode_cons hnone, decode_nil]
    rfl
  | cons d a hd ih =>
    have hnone : strip? opening (d :: (a ++ c :: b)) = none := by
      rw [strip?_eq_none_iff] at hd ⊢
      rwa [← List.cons_append, prefix_append_cons_iff hc]
    rw [List.cons_append, decode_cons hnone, decode_cons hd, ih]
    exact map_append_bind [d] c _ _
  | opened a ih =>
    have hseam := payload?_append_end h a b
    rw [List.append_assoc]
    cases hp : payload? a with
    | none =>
      rw [hp, Option.map_none] at hseam
      rw [decode_opening_of_none hseam, decode_opening_of_none hp, ih a (Nat.le_refl _),
        map_append_bind]
    | some p =>
      rw [hp, Option.map_some] at hseam
      cases hw : decodePayload p.1 with
      | error fault =>
        rw [decode_opening_of_fault hseam hw, decode_opening_of_fault hp hw]
        rfl
      | ok word =>
        rw [decode_opening_of_some hseam hw, decode_opening_of_some hp hw,
          ih p.2 (length_payload?_le hp), map_append_bind]

/-! ## Texts without words -/

/-- A text without words of its own is made of such lines. -/
theorem wordless_append_end_iff (h : c = '\r' ∨ c = '\n') :
    Wordless (a ++ c :: b) ↔ Wordless a ∧ Wordless b := by
  have hc : c ∉ opening := by rcases h with rfl | rfl <;> decide
  constructor
  · intro hw
    refine ⟨?_, Wordless.of_append (u := a ++ [c]) (by simpa using hw)⟩
    rintro before after rfl
    rw [← lineRest_append_end h after b]
    exact hw before (after ++ c :: b) (by simp)
  · rintro ⟨ha, hb⟩ before after heq
    -- The opening stands on one side of the end of the line, since that is no part of it.
    rcases List.append_eq_append_iff.mp heq with ⟨u, rfl, hu⟩ | ⟨u, rfl, hu⟩
    · cases u with
      | nil =>
        obtain ⟨rfl, _⟩ := List.cons.inj hu
        exact absurd (List.mem_cons_self : '=' ∈ opening) hc
      | cons d u =>
        obtain ⟨rfl, rfl⟩ := List.cons.inj hu
        exact hb u after rfl
    · rcases List.append_eq_append_iff.mp hu with ⟨v, rfl, rfl⟩ | ⟨v, hv, hafter⟩
      · rw [lineRest_append_end h]
        exact ha before v rfl
      · cases v with
        | nil =>
          rw [List.append_nil] at hv
          rw [List.nil_append] at hafter
          rw [← hafter, lineRest_end h]
          simp [closing_eq]
        | cons d v =>
          obtain ⟨rfl, _⟩ := List.cons.inj hafter
          exact absurd (hv ▸ List.mem_append_right _ List.mem_cons_self) hc

/-- Whether no opening of a text is closed on its line. -/
def Unclosed (t : Text) : Prop :=
  ∀ before after, t = before ++ (opening ++ after) → ¬ closing <:+: lineRest after

theorem Unclosed.of_append {u : Text} (h : Unclosed (u ++ t)) : Unclosed t :=
  forall_opening_of_append h

instance (t : Text) : Decidable (Unclosed t) := decidable_of_iff _ forall_opening_iff.symm

theorem decode_of_unclosed (h : Unclosed t) : decode t = .ok t := by
  induction t using openingInduction with
  | nil => exact decode_nil
  | cons c t hc ih =>
    have ht : Unclosed t := Unclosed.of_append (u := [c]) h
    rw [decode_cons hc, ih ht]
    rfl
  | opened t ih =>
    have hnone : payload? t = none := payload?_eq_none_iff.mpr (h [] t rfl)
    rw [decode_opening_of_none hnone, ih t (Nat.le_refl _) h.of_append]
    rfl

/-! ## Lines -/

/-- **Words are read line by line.** Two texts of which the first ends with the end of a line are
read together as each of them is read alone, and the first fault in them is the fault of the whole.
A text in which no opening is closed on its line is read as it stands. -/
theorem decode_lineByLine :
    (∀ a b : Text, a.getLast? = some '\r' ∨ a.getLast? = some '\n' →
      decode (a ++ b) =
        match decode a, decode b with
        | .error fault, _ => .error fault
        | .ok _, .error fault => .error fault
        | .ok x, .ok y => .ok (x ++ y)) ∧
      ∀ t : Text, Unclosed t → decode t = .ok t := by
  refine ⟨fun a b h => ?_, fun t => decode_of_unclosed⟩
  obtain ⟨c, hc, hlast⟩ : ∃ c, (c = '\r' ∨ c = '\n') ∧ a.getLast? = some c := by
    rcases h with h | h
    · exact ⟨'\r', .inl rfl, h⟩
    · exact ⟨'\n', .inr rfl, h⟩
  obtain ⟨u, rfl⟩ := List.getLast?_eq_some_iff.mp hlast
  rw [List.append_assoc, List.singleton_append, decode_append_end hc, decode_append_end hc u [],
    decode_nil]
  cases decode u with
  | error fault => rfl
  | ok x => cases decode b <;> simp [Except.map, Except.bind]

/-- The first line ends inside what would be a word without that end, and only the first of two
faults in the second line counts. -/
theorem decode_lineByLine_carriageReturn :
    "=?utf-8?b?w6k=\r".toList.getLast? = some '\r' ∧ Unclosed "=?utf-8?b?w6k=\r".toList ∧
      decode "=?utf-8?b?w6k=\r".toList = .ok "=?utf-8?b?w6k=\r".toList ∧
      decode ("=?utf-8?b?w6k=\r".toList ++ "?= =?utf-8?b?@?= =?utf-8?b?/w==?=".toList) =
        .error (.base64 "@".toList (.invalidSymbol 0 64)) := by
  have hlast : "=?utf-8?b?w6k=\r".toList.getLast? = some '\r' := by decide
  have hunclosed : Unclosed "=?utf-8?b?w6k=\r".toList := by decide
  have hfirst := decode_lineByLine.2 _ hunclosed
  have hsecond : decode "?= =?utf-8?b?@?= =?utf-8?b?/w==?=".toList =
      .error (.base64 "@".toList (.invalidSymbol 0 64)) := by
    decide +kernel
  refine ⟨hlast, hunclosed, hfirst, ?_⟩
  rw [decode_lineByLine.1 _ _ (.inl hlast), hfirst, hsecond]

end EncodedWord
end MailArchive
