import MailArchive.Report
import MailArchive.Proofs.Conversation.Json
import MailArchive.Proofs.Json.RoundTrip

/-!
# MailArchive.Proofs.Json.Record

The JSON forms of the records have whole numbers only, so the reports are read back as what was
written (`read?_line`).
-/

namespace MailArchive
namespace Json

@[simp] theorem plain_string (t : Text) : Plain (string t) := .string t

@[simp] theorem plain_ofNat (n : Nat) : Plain (ofNat n) := .number n

@[simp] theorem plain_array_iff {js : List Json} : Plain (array js) ↔ ∀ j ∈ js, Plain j := by
  refine ⟨?_, .array⟩
  rintro ⟨⟩
  assumption

@[simp] theorem plain_object_iff {ms : List (Text × Json)} :
    Plain (object ms) ↔ ∀ m ∈ ms, Plain m.2 := by
  refine ⟨?_, .object⟩
  rintro ⟨⟩
  assumption

theorem read?_write {j : Json} (h : Plain j) : read? j.write = some j := by
  rw [← List.append_nil j.write]
  exact read?_write_append h .done rfl

/-- A line of JSON is read back. -/
theorem read?_line {j : Json} (h : Plain j) : read? (Report.line j.write) = some j :=
  read?_write_append h (.line []) rfl

end Json

open Json

@[simp] theorem Address.plain_toJson (a : Address) : Plain a.toJson := by
  simp [Address.toJson]

@[simp] theorem Header.plain_toJson (h : Header) : Plain h.toJson := by
  simp [Header.toJson]

@[simp] theorem Unresolved.plain_toJson (u : Unresolved) : Plain u.toJson := by
  simp [Unresolved.toJson]

theorem Statistics.plain_toJson (s : Statistics) : Plain s.toJson := by
  simp [Statistics.toJson]

namespace Message

theorem plain_members (m : Message) :
    (∀ n ∈ m.membersBefore, Plain n.2) ∧ ∀ n ∈ m.membersAfter, Plain n.2 := by
  simp [membersBefore, membersAfter]

end Message

@[simp] theorem Conversation.plain_toJson (c : Conversation) : Plain c.toJson := by
  induction c with
  | node m rs ih =>
    obtain ⟨hbefore, hafter⟩ := m.plain_members
    have hreplies : Plain (array (toJsonIn rs)) := by
      rw [toJsonIn_eq_map, plain_array_iff]
      intro j hj
      obtain ⟨r, hr, rfl⟩ := List.mem_map.mp hj
      exact ih r hr
    rw [toJson, plain_object_iff, List.forall_mem_append, List.forall_mem_append,
      List.forall_mem_singleton]
    exact ⟨⟨hbefore, hreplies⟩, hafter⟩

theorem Report.plain_threadsJson (o : Threading.Outcome) : Plain (Report.threadsJson o) := by
  simp [Report.threadsJson]

end MailArchive
