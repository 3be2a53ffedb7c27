import MailArchive.Proofs.Conversation.Outline
import MailArchive.Proofs.Conversation.Shape
import MailArchive.Proofs.Conversation.Table

/-!
# MailArchive.Proofs.Conversation.Walk

The ways through a table: with a stack of places (`Table.Walks`), from the replies to an identifier
to the replies to theirs (`Table.Prints`), and from a place up to one without a parent
(`Table.Climbs`). None of them has to come to an end in a table with arbitrary links. In a table
that holds a conversation each of them comes to one end, which the conversation tells
(`Holds.walks_iff`, `Holds.prints_iff`, `Holds.climbs_iff`), and so do the links down
(`Holds.nested_iff`) and the questions about one identifier (`Holds.replies`, `Holds.parent?`).
-/

namespace MailArchive

theorem exists_of_forall₂ {α β : Type} {R : α → β → Prop} {xs : List α} {ys : List β} {y : β}
    (h : List.Forall₂ R xs ys) (hy : y ∈ ys) : ∃ x ∈ xs, R x y := by
  induction h with
  | nil => cases hy
  | cons hxy _ ih =>
    rcases List.mem_cons.mp hy with rfl | hy
    · exact ⟨_, List.mem_cons_self, hxy⟩
    · obtain ⟨x, hx, h⟩ := ih hy
      exact ⟨x, List.mem_cons_of_mem _ hx, h⟩

namespace Conversation
namespace Table

variable {t : Table} {c d : Conversation} {e : Entry} {i j depth : Nat} {id : Text} {m p : Message}
  {stack is : List Nat} {cs : List Conversation} {ms : List Message} {lines : List (Nat × Message)}

/-! ## Down with a stack -/

/-- The messages that come off a stack of places from its end, if the places of the replies to a
message go on it in reverse when the message comes off. -/
inductive Walks (t : Table) : List Nat → List Message → Prop where
  | done : Walks t [] []
  | next {stack : List Nat} {i : Nat} {e : Entry} {ms : List Message}
      (here : t.entries[i]? = some e) (rest : Walks t (stack ++ e.children.reverse) ms) :
      Walks t (stack ++ [i]) (e.message :: ms)

theorem walks_nil_iff : t.Walks [] ms ↔ ms = [] := by
  constructor
  · generalize hs : ([] : List Nat) = s
    rintro (_ | _)
    · rfl
    · exact absurd hs.symm (List.append_ne_nil_of_right_ne_nil _ (List.cons_ne_nil _ _))
  · rintro rfl
    exact .done

theorem walks_concat_iff :
    t.Walks (stack ++ [i]) ms ↔
      ∃ e rest, t.entries[i]? = some e ∧ t.Walks (stack ++ e.children.reverse) rest ∧
        ms = e.message :: rest := by
  constructor
  · generalize hs : stack ++ [i] = s
    rintro (_ | ⟨here, rest⟩)
    · exact absurd hs (List.append_ne_nil_of_right_ne_nil _ (List.cons_ne_nil _ _))
    · obtain ⟨rfl, hi⟩ := List.append_inj' hs rfl
      obtain rfl := List.singleton_inj.mp hi
      exact ⟨_, _, here, rest, rfl⟩
  · rintro ⟨e, rest, here, h, rfl⟩
    exact .next here h

/-- What comes off the stack from the last places on, which lie in it in reverse. -/
theorem walks_append_reverse_iff
    (h : List.Forall₂ (fun i c => ∀ stack ms, t.Walks (stack ++ [i]) ms ↔
      ∃ rest, t.Walks stack rest ∧ ms = c.messages ++ rest) is cs) :
    t.Walks (stack ++ is.reverse) ms ↔ ∃ rest, t.Walks stack rest ∧ ms = messagesIn cs ++ rest := by
  induction h generalizing ms with
  | nil => simp [messagesIn]
  | @cons i c is cs hic _ ih =>
    rw [List.reverse_cons, ← List.append_assoc, hic, messagesIn]
    constructor
    · rintro ⟨_, hwalk, rfl⟩
      obtain ⟨rest, hrest, rfl⟩ := ih.mp hwalk
      exact ⟨rest, hrest, (List.append_assoc _ _ _).symm⟩
    · rintro ⟨rest, hrest, rfl⟩
      exact ⟨_, ih.mpr ⟨rest, hrest, rfl⟩, List.append_assoc _ _ _⟩

theorem Nested.walks_concat_iff (h : t.Nested i c) :
    ∀ stack ms, t.Walks (stack ++ [i]) ms ↔
      ∃ rest, t.Walks stack rest ∧ ms = c.messages ++ rest := by
  induction h using Nested.induction with
  | @node i e rs here below ih =>
    intro stack ms
    have hbelow := ih.imp fun _ _ ⟨_, h⟩ => h
    rw [Table.walks_concat_iff]
    constructor
    · rintro ⟨e', _, here', hwalk, rfl⟩
      obtain rfl : e = e' := Option.some.inj (here.symm.trans here')
      obtain ⟨rest, hrest, rfl⟩ := (walks_append_reverse_iff hbelow).mp hwalk
      exact ⟨rest, hrest, rfl⟩
    · rintro ⟨rest, hrest, rfl⟩
      exact ⟨e, _, here, (walks_append_reverse_iff hbelow).mpr ⟨rest, hrest, rfl⟩, rfl⟩

/-- The stack gives the messages of the conversation, each before its replies. -/
theorem Holds.walks_iff (h : t.Holds c) : t.Walks [0] ms ↔ ms = c.messages := by
  rw [← List.nil_append [0], h.nested.walks_concat_iff]
  constructor
  · rintro ⟨rest, hrest, rfl⟩
    rw [walks_nil_iff.mp hrest, List.append_nil]
  · rintro rfl
    exact ⟨[], .done, (List.append_nil _).symm⟩

/-! ## Down along the links -/

theorem eq_of_forall₂_nested {ds : List Conversation}
    (h : List.Forall₂ (fun i c => ∀ d, t.Nested i d → c = d) is cs)
    (hd : List.Forall₂ t.Nested is ds) : cs = ds := by
  induction h generalizing ds with
  | nil =>
    cases hd
    rfl
  | cons hic _ ih =>
    cases hd with
    | cons hid hids => rw [hic _ hid, ih hids]

/-- The links down from a place make up one conversation. -/
theorem Nested.eq (h : t.Nested i c) : ∀ d, t.Nested i d → c = d := by
  induction h using Nested.induction with
  | @node i e rs here _ ih =>
    rintro _ ⟨here', below'⟩
    obtain rfl : e = _ := Option.some.inj (here.symm.trans here')
    rw [eq_of_forall₂_nested (ih.imp fun _ _ ⟨_, h⟩ => h) below']

theorem Holds.nested_iff (h : t.Holds c) : t.Nested 0 d ↔ d = c := by
  constructor
  · intro hd
    exact (h.nested.eq d hd).symm
  · rintro rfl
    exact h.nested

theorem message?_of_nested (h : t.Nested i c) : t.message? i = some c.first := by
  obtain ⟨here, _⟩ := h
  rw [message?, here]
  rfl

theorem filterMap_message? (h : List.Forall₂ t.Nested is cs) :
    is.filterMap t.message? = cs.map first := by
  induction h with
  | nil => rfl
  | cons hic _ ih => rw [List.filterMap_cons, message?_of_nested hic, ih, List.map_cons]

/-! ## One identifier -/

theorem Holds.entry? (h : t.Holds c) (he : t.entries[i]? = some e) :
    t.entry? e.message.id = some e := by
  rw [Table.entry?, (h.places _ i).mpr ⟨e, he, rfl⟩]
  exact he

theorem Holds.entry?_of_notMem (h : t.Holds c) (hid : id ∉ c.ids) : t.entry? id = none := by
  have hplace : t.place? id = none := by
    rw [h.mem_ids_iff] at hid
    exact Option.eq_none_iff_forall_ne_some.mpr fun i hi => hid ⟨i, hi⟩
  rw [Table.entry?, hplace]
  rfl

/-- What is found in the conversation is below some place. -/
theorem Nested.of_find? (h : t.Nested i c) (hd : c.find? id = some d) : ∃ j, t.Nested j d := by
  induction h using Nested.induction with
  | @node i e rs here below ih =>
    by_cases hid : e.message.id = id
    · rw [find?, if_pos hid, Option.some.injEq] at hd
      exact ⟨i, hd ▸ .node here below⟩
    · rw [find?_node_of_ne hid] at hd
      obtain ⟨r, hr, hrd⟩ := List.exists_of_findSome?_eq_some hd
      obtain ⟨j, -, -, hj⟩ := exists_of_forall₂ ih hr
      exact hj hrd

theorem Holds.entry?_of_find? (h : t.Holds c) (hd : c.find? id = some d) :
    ∃ e, t.entry? id = some e ∧ e.message = d.first ∧
      List.Forall₂ t.Nested e.children d.branches := by
  obtain ⟨j, hj⟩ := h.nested.of_find? hd
  obtain rfl := first_of_find? hd
  obtain ⟨here, below⟩ := hj
  exact ⟨_, h.entry? here, rfl, below⟩

theorem Holds.get? (h : t.Holds c) (id : Text) : t.get? id = c.get? id := by
  rw [Table.get?, Conversation.get?]
  cases hd : c.find? id with
  | none => rw [h.entry?_of_notMem (find?_eq_none_iff.mp hd)]; rfl
  | some d =>
    obtain ⟨e, he, hmessage, -⟩ := h.entry?_of_find? hd
    rw [he, Option.map_some, Option.map_some, hmessage]

theorem Holds.replies (h : t.Holds c) (id : Text) : t.replies id = c.replies id := by
  rw [Table.replies]
  cases hd : c.find? id with
  | none =>
    have hid := find?_eq_none_iff.mp hd
    rw [h.entry?_of_notMem hid, replies_of_notMem hid]
    rfl
  | some d =>
    obtain ⟨e, he, -, hbelow⟩ := h.entry?_of_find? hd
    rw [he, replies_of_find? hd]
    exact filterMap_message? hbelow

theorem Nested.of_parent? (h : t.Holds c) (hd : t.Nested i d) (hp : d.parent? id = some p) :
    ∃ e, t.entry? id = some e ∧ e.parent.bind t.message? = some p := by
  induction hd using Nested.induction with
  | @node i e rs here below ih =>
    rw [Conversation.parent?] at hp
    split at hp
    · cases hp
    · split at hp
      · rename_i hany
        cases hp
        obtain ⟨r, hr, hid⟩ := List.any_eq_true.mp hany
        obtain rfl := beq_iff_eq.mp hid
        obtain ⟨j, hj, hnested⟩ := exists_of_forall₂ below hr
        obtain ⟨reply, hreply, hparent⟩ := h.links i e here j hj
        have hfirst : reply.message = r.first := by
          have hmessage := message?_of_nested hnested
          rw [message?, hreply] at hmessage
          exact Option.some.inj hmessage
        refine ⟨reply, hfirst ▸ h.entry? hreply, ?_⟩
        rw [hparent, Option.bind_some, message?, here]
        rfl
      · rw [parentIn?_eq_findSome?] at hp
        obtain ⟨r, hr, hpr⟩ := List.exists_of_findSome?_eq_some hp
        obtain ⟨j, -, -, hj⟩ := exists_of_forall₂ ih hr
        exact hj hpr

theorem Holds.parent? (h : t.Holds c) (id : Text) : t.parent? id = c.parent? id := by
  cases hp : c.parent? id with
  | some p =>
    obtain ⟨e, he, hep⟩ := Nested.of_parent? h h.nested hp
    rw [Table.parent?, he]
    exact hep
  | none =>
    by_cases hid : id ∈ c.ids
    · have hfirst : id = c.first.id := by
        by_contra hne
        obtain ⟨p, hp'⟩ := exists_parent? hid hne
        rw [hp] at hp'
        cases hp'
      obtain ⟨here, -⟩ := h.nested
      rw [Table.parent?, hfirst, first_node, h.entry? here, Option.bind_some, h.root _ here]
      rfl
    · rw [Table.parent?, h.entry?_of_notMem hid]
      rfl

/-! ## Down from identifier to identifier -/

/-- The messages, with the depths that one counts on the way, if one goes from each of some messages
to the replies to its identifier. -/
inductive Prints (t : Table) : Nat → List Message → List (Nat × Message) → Prop where
  | done {depth : Nat} : Prints t depth [] []
  | next {depth : Nat} {m : Message} {ms : List Message} {below after : List (Nat × Message)}
      (here : Prints t (depth + 1) (t.replies m.id) below) (rest : Prints t depth ms after) :
      Prints t depth (m :: ms) ((depth, m) :: below ++ after)

theorem prints_nil_iff : t.Prints depth [] lines ↔ lines = [] := by
  constructor
  · rintro ⟨⟩
    rfl
  · rintro rfl
    exact .done

theorem prints_cons_iff :
    t.Prints depth (m :: ms) lines ↔
      ∃ below after, t.Prints (depth + 1) (t.replies m.id) below ∧ t.Prints depth ms after ∧
        lines = (depth, m) :: below ++ after := by
  constructor
  · rintro ⟨⟩
    exact ⟨_, _, ‹_›, ‹_›, rfl⟩
  · rintro ⟨below, after, here, rest, rfl⟩
    exact .next here rest

theorem prints_map_first_iff
    (h : ∀ c ∈ cs, ∀ depth ms lines, t.Prints depth (c.first :: ms) lines ↔
      ∃ after, t.Prints depth ms after ∧ lines = c.outline depth ++ after) :
    t.Prints depth (cs.map first) lines ↔ lines = outlineIn depth cs := by
  induction cs generalizing lines with
  | nil => exact prints_nil_iff
  | cons c cs ih =>
    obtain ⟨hc, hcs⟩ := List.forall_mem_cons.mp h
    rw [List.map_cons, hc, outlineIn]
    simp only [ih hcs, exists_eq_left]

theorem prints_cons_iff_of_shaped (h : Shaped t.replies c) :
    ∀ depth ms lines, t.Prints depth (c.first :: ms) lines ↔
      ∃ after, t.Prints depth ms after ∧ lines = c.outline depth ++ after := by
  induction h with
  | @node m rs here _ ih =>
    intro depth ms lines
    rw [first_node, prints_cons_iff, ← here, outline]
    simp only [prints_map_first_iff ih, exists_and_left, exists_eq_left]

/-- The replies to each identifier give the outline of the conversation. -/
theorem Holds.prints_iff (h : t.Holds c) : t.Prints 0 [c.first] lines ↔ lines = c.outline 0 := by
  have hshape : Shaped t.replies c :=
    shaped_of_replies h.nodup fun m _ => (h.replies m.id).symm
  rw [prints_cons_iff_of_shaped hshape]
  simp only [prints_nil_iff, exists_eq_left, List.append_nil]

/-! ## Up -/

/-- The number of links that lead from a place up to one without a parent. -/
inductive Climbs (t : Table) : Nat → Nat → Prop where
  | top {i : Nat} {e : Entry} (here : t.entries[i]? = some e) (root : e.parent = none) :
      Climbs t i 0
  | up {i p n : Nat} {e : Entry} (here : t.entries[i]? = some e) (parent : e.parent = some p)
      (rest : Climbs t p n) : Climbs t i (n + 1)

theorem Climbs.eq {n k : Nat} (h : t.Climbs i n) (h' : t.Climbs i k) : n = k := by
  induction h generalizing k with
  | top here root =>
    cases h' with
    | top => rfl
    | up here' parent =>
      rw [Option.some.inj (here.symm.trans here'), parent] at root
      cases root
  | up here parent _ ih =>
    cases h' with
    | top here' root =>
      rw [Option.some.inj (here.symm.trans here'), root] at parent
      cases parent
    | up here' parent' rest' =>
      rw [Option.some.inj (here.symm.trans here'), parent', Option.some.injEq] at parent
      rw [ih (parent ▸ rest')]

/-- The outline numbers the messages below a place by the way up from them, counted on from that of
the place. -/
theorem Nested.climbs (h : t.Holds c) (hd : t.Nested i d) {n : Nat} (hi : t.Climbs i n)
    {l : Nat × Message} (hl : l ∈ d.outline n) :
    ∃ j e, t.entries[j]? = some e ∧ e.message = l.2 ∧ t.Climbs j l.1 := by
  induction hd using Nested.induction generalizing n with
  | @node i e rs here below ih =>
    rw [outline, List.mem_cons, outlineIn_eq_flatMap, List.mem_flatMap] at hl
    rcases hl with rfl | ⟨r, hr, hl⟩
    · exact ⟨i, e, here, rfl, hi⟩
    · obtain ⟨j, hj, -, hbelow⟩ := exists_of_forall₂ ih hr
      obtain ⟨reply, hreply, hparent⟩ := h.links i e here j hj
      exact hbelow (.up hreply hparent hi) hl

/-- The way up from the place of an identifier is as long as the conversation says. -/
theorem Holds.climbs_iff {n : Nat} (h : t.Holds c) :
    (∃ i, t.place? id = some i ∧ t.Climbs i n) ↔ c.depth? id = some n := by
  have htop : t.Climbs 0 0 := by
    obtain ⟨here, -⟩ := h.nested
    exact .top here (h.root _ here)
  have hclimb : ∀ m ∈ c.messages, ∃ i k,
      t.place? m.id = some i ∧ t.Climbs i k ∧ c.depth? m.id = some k := by
    intro m hm
    obtain ⟨k, hl⟩ := exists_mem_outline (d := 0) hm
    obtain ⟨i, e, he, rfl, hi⟩ := h.nested.climbs h htop hl
    obtain ⟨k', hk', hkk'⟩ := depth?_of_mem_outline h.nodup hl
    obtain rfl : k = k' := hkk'.trans (Nat.zero_add k')
    exact ⟨i, k, (h.places _ i).mpr ⟨e, he, rfl⟩, hi, hk'⟩
  constructor
  · rintro ⟨i, hplace, hi⟩
    obtain ⟨m, hm, rfl⟩ := List.mem_map.mp (h.mem_ids_iff.mpr ⟨i, hplace⟩)
    obtain ⟨j, k, hj, hk, hdepth⟩ := hclimb m hm
    obtain rfl : i = j := Option.some.inj (hplace.symm.trans hj)
    rw [hdepth, hi.eq hk]
  · intro hdepth
    have hid : id ∈ c.ids := by
      by_contra hno
      rw [depth?_eq_none_iff.mpr hno] at hdepth
      cases hdepth
    obtain ⟨m, hm, rfl⟩ := List.mem_map.mp hid
    obtain ⟨i, k, hplace, hi, hk⟩ := hclimb m hm
    rw [hk, Option.some.injEq] at hdepth
    exact ⟨i, hplace, hdepth ▸ hi⟩

end Table
end Conversation
end MailArchive
