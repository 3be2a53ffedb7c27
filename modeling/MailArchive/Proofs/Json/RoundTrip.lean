import Mathlib.Data.List.DropRight
import Mathlib.Data.List.Forall2
import MailArchive.Proofs.Json.Scalar
import MailArchive.Proofs.Text.Cut

/-!
# MailArchive.Proofs.Json.RoundTrip

JSON that is written is read back (`read?_write_append`). The text of a value is read wherever a
value can end after it (`Reads`). Items and members stand one to a line with commas between them,
and a reader that asks for one of them and then for a comma or the end (`Lists`) reads such lines if
it reads each of them (`reads_lines`); the readers of arrays and of objects are two of these.
-/

namespace MailArchive
namespace Json

variable {t rest : Text} {j : Json} {bound : Nat} {js : List Json}

/-! ## Spaces -/

theorem skipSpace_append {ws : Text} (h : ∀ c ∈ ws, isSpace c = true) (t : Text) :
    skipSpace (ws ++ t) = skipSpace t :=
  List.dropWhile_append_of_pos h

theorem isSpace_of_mem_indent (depth : Nat) : ∀ c ∈ indent depth, isSpace c = true := by
  intro c hc
  rw [List.eq_of_mem_replicate hc]
  rfl

theorem readValue?_skipSpace (bound : Nat) (t : Text) :
    readValue? bound (skipSpace t) = readValue? bound t := by
  cases bound with
  | zero => rfl
  | succ bound => rw [readValue?, readValue?, skipSpace, skipSpace, List.dropWhile_idempotent]

theorem readValue?_append {ws : Text} (h : ∀ c ∈ ws, isSpace c = true) (bound : Nat) (t : Text) :
    readValue? bound (ws ++ t) = readValue? bound t := by
  rw [← readValue?_skipSpace, skipSpace_append h, readValue?_skipSpace]

theorem readItems?_skipSpace (bound : Nat) (t : Text) :
    readItems? bound (skipSpace t) = readItems? bound t := by
  cases bound with
  | zero => rfl
  | succ bound => rw [readItems?, readItems?, readValue?_skipSpace]

theorem readMembers?_skipSpace (bound : Nat) (t : Text) :
    readMembers? bound (skipSpace t) = readMembers? bound t := by
  cases bound with
  | zero => rfl
  | succ bound => rw [readMembers?, readMembers?, skipSpace, skipSpace, List.dropWhile_idempotent]

/-! ## Lines -/

/-- The reader takes the value from the text, after any spaces and before anything that can stand
after a value, if its bound is not less than the length of the text. -/
def Reads {α : Type} (item : Nat → Text → Option (α × Text)) (t : Text) (a : α) : Prop :=
  ∀ ws rest bound, (∀ c ∈ ws, isSpace c = true) → Stops rest → t.length ≤ bound →
    item bound (ws ++ (t ++ rest)) = some (a, rest)

/-- The lines of a block. -/
def lines (depth : Nat) (ls : List Text) : Text :=
  Text.join ",\n".toList (ls.map (indent depth ++ ·))

theorem lines_singleton (depth : Nat) (l : Text) : lines depth [l] = indent depth ++ l := by
  rw [lines, List.map_singleton, Text.join_singleton]

theorem lines_cons_cons (depth : Nat) (l m : Text) (ls : List Text) :
    lines depth (l :: m :: ls) = indent depth ++ (l ++ ',' :: '\n' :: lines depth (m :: ls)) := by
  rw [lines, List.map_cons, List.map_cons, Text.join_cons_cons, ← List.map_cons, ← lines,
    List.append_assoc]
  rfl

/-- A reader of lists takes an item, and then goes on after a comma and ends at a closing
character. -/
structure Lists {α : Type} (item : Nat → Text → Option (α × Text))
    (list : Nat → Text → Option (List α × Text)) (close : Char) : Prop where
  space : isSpace close = false
  last : ∀ {bound t a u v}, item bound t = some (a, u) → skipSpace u = close :: v →
    list (bound + 1) t = some ([a], v)
  next : ∀ {bound t a u v as w}, item bound t = some (a, u) → skipSpace u = ',' :: v →
    list bound v = some (as, w) → list (bound + 1) t = some (a :: as, w)

section

variable {α : Type} {item : Nat → Text → Option (α × Text)}
  {list : Nat → Text → Option (List α × Text)} {opening close : Char} {ls : List Text} {as : List α}

theorem reads_lines (hlist : Lists item list close) (h : List.Forall₂ (Reads item) ls as)
    (hne : ls ≠ []) (inner outer bound : Nat) (ws rest : Text) (hws : ∀ c ∈ ws, isSpace c = true)
    (hbound : (lines inner ls).length < bound) :
    list bound (ws ++ (lines inner ls ++ '\n' :: (indent outer ++ close :: rest))) =
      some (as, rest) := by
  -- The bound goes down with each line, and the lines behind a line are shorter than all of them.
  induction h generalizing ws bound with
  | nil => exact absurd rfl hne
  | @cons l a ls as hla hlas ih =>
    obtain ⟨bound, rfl⟩ := Nat.exists_eq_succ_of_ne_zero (Nat.ne_zero_of_lt hbound)
    have hspace : ∀ c ∈ ws ++ indent inner, isSpace c = true :=
      List.forall_mem_append.mpr ⟨hws, isSpace_of_mem_indent inner⟩
    cases hlas with
    | nil =>
      rw [lines_singleton, List.length_append] at hbound
      have hend : skipSpace ('\n' :: (indent outer ++ close :: rest)) = close :: rest := by
        rw [← List.singleton_append, skipSpace_append (by decide),
          skipSpace_append (isSpace_of_mem_indent outer), skipSpace,
          List.dropWhile_cons_of_neg (by simp [hlist.space])]
      rw [lines_singleton, List.append_assoc (indent inner), ← List.append_assoc ws]
      exact hlist.last (hla _ _ bound hspace (.line _) (by omega)) hend
    | @cons m b ls as hlb hlbs =>
      rw [lines_cons_cons, List.length_append, List.length_append, List.length_cons,
        List.length_cons] at hbound
      have hrest := ih (List.cons_ne_nil _ _) bound ['\n'] (by decide) (by omega)
      rw [lines_cons_cons, List.append_assoc (indent inner), ← List.append_assoc ws,
        List.append_assoc l]
      exact hlist.next (hla _ _ bound hspace (.comma _) (by omega)) rfl hrest

theorem block_cons (opening close : Char) (depth : Nat) (hne : ls ≠ []) :
    block opening close depth ls =
      opening :: '\n' :: (lines (depth + 1) ls ++ '\n' :: (indent depth ++ [close])) := by
  simp [block, hne, lines]

/-- A value that opens a list is read from a block if it is read from the list. -/
theorem reads_block {value : List α → Json} (hlist : Lists item list close)
    (hempty : ∀ bound rest, readValue? (bound + 1) (opening :: close :: rest) =
      some (value [], rest))
    (hopen : ∀ {bound t as rest}, list bound t = some (as, rest) →
      readValue? (bound + 1) (opening :: t) = some (value as, rest))
    (h : List.Forall₂ (Reads item) ls as) (depth : Nat) :
    Reads readValue? (block opening close depth ls) (value as) := by
  intro ws rest bound hws _ hbound
  rw [readValue?_append hws]
  by_cases hne : ls = []
  · subst hne
    cases h
    obtain ⟨bound, rfl⟩ := Nat.exists_eq_add_of_le' (Nat.le_of_lt hbound)
    exact hempty _ rest
  · rw [block_cons _ _ _ hne] at hbound ⊢
    simp only [List.length_cons, List.length_append] at hbound
    obtain ⟨bound, rfl⟩ := Nat.exists_eq_succ_of_ne_zero (show bound ≠ 0 by omega)
    have hread := reads_lines hlist h hne (depth + 1) depth bound ['\n'] rest (by decide) (by omega)
    have htext : '\n' :: (lines (depth + 1) ls ++ '\n' :: (indent depth ++ [close])) ++ rest =
        ['\n'] ++ (lines (depth + 1) ls ++ '\n' :: (indent depth ++ close :: rest)) := by
      simp
    rw [List.cons_append, htext]
    exact hopen hread

end

/-! ## Arrays and objects -/

theorem readItems?_last {a : Json} {u v : Text} (h : readValue? bound t = some (a, u))
    (hu : skipSpace u = ']' :: v) : readItems? (bound + 1) t = some ([a], v) := by
  rw [readItems?, h]
  simp [hu]

theorem readItems?_next {a : Json} {u v w : Text} (h : readValue? bound t = some (a, u))
    (hu : skipSpace u = ',' :: v) (hv : readItems? bound v = some (js, w)) :
    readItems? (bound + 1) t = some (a :: js, w) := by
  rw [readItems?, h]
  simp [hu, hv]

/-- A name with its value. -/
def readMember? (bound : Nat) (t : Text) : Option ((Option Text × Json) × Text) := do
  let t ← Text.strip? ['"'] (skipSpace t)
  let (name, t) ← string? t
  let t ← Text.strip? [':'] (skipSpace t)
  let (j, t) ← readValue? bound t
  some ((name, j), t)

theorem readMembers?_succ (bound : Nat) (t : Text) :
    readMembers? (bound + 1) t = (readMember? bound t).bind fun (m, t) =>
      match skipSpace t with
      | '\x7d' :: t => some ([m], t)
      | ',' :: t => (readMembers? bound t).map fun (rest, t) => (m :: rest, t)
      | _ => none := by
  rw [readMembers?, readMember?]
  simp only [Option.bind_eq_bind, Option.bind_assoc]
  rfl

theorem readMembers?_last {m : Option Text × Json} {u v : Text}
    (h : readMember? bound t = some (m, u)) (hu : skipSpace u = '\x7d' :: v) :
    readMembers? (bound + 1) t = some ([m], v) := by
  rw [readMembers?_succ, h]
  simp [hu]

theorem readMembers?_next {m : Option Text × Json} {u v w : Text}
    {as : List (Option Text × Json)} (h : readMember? bound t = some (m, u))
    (hu : skipSpace u = ',' :: v) (hv : readMembers? bound v = some (as, w)) :
    readMembers? (bound + 1) t = some (m :: as, w) := by
  rw [readMembers?_succ, h]
  simp [hu, hv]

theorem readItems?_close (bound : Nat) (t : Text) : readItems? bound (']' :: t) = none := by
  have hvalue : ∀ bound, readValue? bound (']' :: t) = none
    | 0 => rfl
    | _ + 1 => rfl
  cases bound with
  | zero => rfl
  | succ bound =>
    rw [readItems?, hvalue]
    rfl

theorem readMembers?_close (bound : Nat) (t : Text) : readMembers? bound ('\x7d' :: t) = none := by
  cases bound <;> rfl

theorem readValue?_bracket (bound : Nat) (t : Text) :
    readValue? (bound + 1) ('[' :: t) =
      match skipSpace t with
      | ']' :: t => some (array [], t)
      | t => (readItems? bound t).map fun (items, t) => (array items, t) :=
  rfl

theorem readValue?_array (h : readItems? bound t = some (js, rest)) :
    readValue? (bound + 1) ('[' :: t) = some (array js, rest) := by
  rw [← readItems?_skipSpace] at h
  rw [readValue?_bracket]
  -- No list of items begins with the bracket that ends an empty array.
  split
  · rename_i hclose
    rw [hclose, readItems?_close] at h
    cases h
  · rw [h]
    rfl

theorem readValue?_brace (bound : Nat) (t : Text) :
    readValue? (bound + 1) ('\x7b' :: t) =
      match skipSpace t with
      | '\x7d' :: t => some (object [], t)
      | t => (readMembers? bound t).map fun (members, t) => (ofMembers members, t) :=
  rfl

theorem readValue?_object {as : List (Option Text × Json)}
    (h : readMembers? bound t = some (as, rest)) :
    readValue? (bound + 1) ('\x7b' :: t) = some (ofMembers as, rest) := by
  rw [← readMembers?_skipSpace] at h
  rw [readValue?_brace]
  split
  · rename_i hclose
    rw [hclose, readMembers?_close] at h
    cases h
  · rw [h]
    rfl

theorem lists_items : Lists readValue? readItems? ']' :=
  ⟨rfl, readItems?_last, readItems?_next⟩

theorem lists_members : Lists readMember? readMembers? '\x7d' :=
  ⟨rfl, readMembers?_last, readMembers?_next⟩

theorem reads_array {ls : List Text} (h : List.Forall₂ (Reads readValue?) ls js) (depth : Nat) :
    Reads readValue? (block '[' ']' depth ls) (array js) :=
  reads_block lists_items (fun _ _ => rfl) readValue?_array h depth

theorem reads_object {ls : List Text} {as : List (Option Text × Json)}
    (h : List.Forall₂ (Reads readMember?) ls as) (depth : Nat) :
    Reads readValue? (block '\x7b' '\x7d' depth ls) (ofMembers as) :=
  reads_block lists_members (fun _ _ => rfl) readValue?_object h depth

theorem reads_member {l : Text} (name : Text) (h : Reads readValue? l j) :
    Reads readMember? (quote name ++ ": ".toList ++ l) (some name, j) := by
  intro ws rest bound hws hr hbound
  have htext : quote name ++ ": ".toList ++ l ++ rest =
      ['"'] ++ (name.flatMap escapeChar ++ '"' :: ([':'] ++ ([' '] ++ (l ++ rest)))) := by
    simp [quote]
  have hlength : l.length ≤ bound := by
    rw [List.length_append] at hbound
    omega
  have hvalue := h [' '] rest bound (by decide) hr hlength
  have hquote : ∀ u, skipSpace (['"'] ++ u) = ['"'] ++ u := fun _ => rfl
  have hcolon : ∀ u, skipSpace ([':'] ++ u) = [':'] ++ u := fun _ => rfl
  rw [htext, readMember?, skipSpace_append hws, hquote, Text.strip?_append, Option.bind_eq_bind,
    Option.bind_some, string?_flatMap, Option.bind_eq_bind, Option.bind_some]
  dsimp only
  rw [hcolon, Text.strip?_append, Option.bind_eq_bind, Option.bind_some, hvalue]
  rfl

/-! ## Values -/

/-- The values that are written with whole numbers. -/
inductive Plain : Json → Prop where
  | null : Plain null
  | bool (b : Bool) : Plain (bool b)
  | number (n : Nat) : Plain (ofNat n)
  | string (t : Text) : Plain (string t)
  | array {js : List Json} (items : ∀ j ∈ js, Plain j) : Plain (array js)
  | object {ms : List (Text × Json)} (members : ∀ m ∈ ms, Plain m.2) : Plain (object ms)

theorem prettyItems_eq_map (depth : Nat) (js : List Json) :
    prettyItems depth js = js.map (pretty depth) := by
  induction js with
  | nil => rfl
  | cons j js ih => rw [prettyItems, ih, List.map_cons]

theorem prettyMembers_eq_map (depth : Nat) (ms : List (Text × Json)) :
    prettyMembers depth ms = ms.map fun m => quote m.1 ++ ": ".toList ++ pretty depth m.2 := by
  induction ms with
  | nil => rfl
  | cons m ms ih => rw [prettyMembers, ih, List.map_cons]

theorem ofMembers_some (ms : List (Text × Json)) :
    ofMembers (ms.map fun m => (some m.1, m.2)) = object ms := by
  have hall : (ms.map fun m => (some m.1, m.2)).mapM
      (fun (m : Option Text × Json) => m.1.map ((·, m.2))) = some ms := by
    induction ms with
    | nil => rfl
    | cons m ms ih => simp [ih]
  rw [ofMembers, hall]

theorem reads_null : Reads readValue? "null".toList null := by
  intro ws rest bound hws _ hbound
  obtain ⟨bound, rfl⟩ := Nat.exists_eq_add_of_le' (Nat.one_le_of_lt hbound)
  rw [readValue?_append hws]
  rfl

theorem reads_bool (b : Bool) :
    Reads readValue? (if b then "true".toList else "false".toList) (bool b) := by
  intro ws rest bound hws _ hbound
  rw [readValue?_append hws]
  cases b <;>
    obtain ⟨bound, rfl⟩ := Nat.exists_eq_add_of_le' (Nat.one_le_of_lt hbound) <;> rfl

theorem reads_string (t : Text) : Reads readValue? (quote t) (string t) := by
  intro ws rest bound hws _ hbound
  obtain ⟨bound, rfl⟩ := Nat.exists_eq_add_of_le' (Nat.one_le_of_lt hbound)
  have htext : quote t ++ rest = '"' :: (t.flatMap escapeChar ++ '"' :: rest) := by simp [quote]
  have hopen : ∀ u, readValue? (bound + 1) ('"' :: u) =
      (string? u).map fun (s, t) => (s.elim unpaired string, t) := fun _ => rfl
  rw [readValue?_append hws, htext, hopen, string?_flatMap]
  rfl

theorem readValue?_digit {c : Char} (hc : c.isDigit = true) (t : Text) :
    readValue? (bound + 1) (c :: t) = number? (c :: t) := by
  have hne : ∀ d : Char, d.isDigit = false → c ≠ d := by
    rintro d hd rfl
    rw [hc] at hd
    cases hd
  have hspace : skipSpace (c :: t) = c :: t := by
    simp [skipSpace, isSpace, hne]
  have hword : word? (c :: t) = none := by
    simp [word?, Text.strip?, Ne.symm (hne 'n' rfl), Ne.symm (hne 't' rfl), Ne.symm (hne 'f' rfl)]
  rw [readValue?, hspace]
  dsimp only
  split
  · exact absurd rfl (hne _ rfl)
  · exact absurd rfl (hne _ rfl)
  · exact absurd rfl (hne _ rfl)
  · rw [hword]
    rfl

theorem reads_number (n : Nat) : Reads readValue? (Text.ofNat n) (ofNat n) := by
  intro ws rest bound hws hr hbound
  have hread := number?_ofNat n hr
  obtain ⟨c, u, hcu⟩ : ∃ c u, Text.ofNat n = c :: u :=
    List.exists_cons_of_ne_nil Nat.toDigits_ne_nil
  have hdigit : c.isDigit = true := Text.isDigit_of_mem_ofNat (n := n) (hcu ▸ List.mem_cons_self)
  rw [readValue?_append hws]
  rw [hcu] at hbound hread ⊢
  obtain ⟨bound, rfl⟩ := Nat.exists_eq_add_of_le' (Nat.one_le_of_lt hbound)
  exact (readValue?_digit hdigit _).trans hread

theorem Plain.reads (h : Plain j) (depth : Nat) : Reads readValue? (pretty depth j) j := by
  induction h generalizing depth with
  | null => exact reads_null
  | bool b => exact reads_bool b
  | number n => exact reads_number n
  | string t => exact reads_string t
  | array _ ih =>
    rw [pretty, prettyItems_eq_map]
    refine reads_array ?_ depth
    rw [List.forall₂_map_left_iff, List.forall₂_same]
    exact fun j hj => ih j hj (depth + 1)
  | @object ms _ ih =>
    rw [pretty, prettyMembers_eq_map, ← ofMembers_some]
    refine reads_object ?_ depth
    rw [List.forall₂_map_left_iff, List.forall₂_map_right_iff, List.forall₂_same]
    exact fun m hm => reads_member m.1 (ih m hm (depth + 1))

/-- **JSON that is written is read back.** The text that is written for a plain value gives this
value again, also with spaces behind it. -/
theorem read?_write_append (h : Plain j) (hr : Stops rest) (hs : skipSpace rest = []) :
    read? (j.write ++ rest) = some j := by
  have hread := h.reads 0 [] rest (2 * (j.write ++ rest).length + 1) (by simp) hr (by
    rw [List.length_append, write]
    omega)
  rw [List.nil_append, ← write] at hread
  rw [read?, hread]
  exact if_pos (List.isEmpty_iff.mpr hs)

end Json
end MailArchive
