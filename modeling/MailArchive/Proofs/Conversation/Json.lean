import MailArchive.Json.Record
import MailArchive.Proofs.Conversation.Outline

/-!
# MailArchive.Proofs.Conversation.Json

The messages in the JSON form of conversations. `Json.preorder` goes through nested objects by their
replies; in the form of a conversation it finds the outline of the conversation
(`preorder_toJson`).
-/

namespace MailArchive
namespace Json

/-- The name of the member of an object in which the objects below it stand. -/
def nesting : Text := "replies".toList

mutual

/-- An object without its replies, and after it what is in its replies, with the depths at which the
objects stand. -/
def preorder (depth : Nat) : Json → List (Nat × Json)
  | object members =>
    (depth, object (members.filter (·.1 ≠ nesting))) :: preorderMembers (depth + 1) members
  | _ => []

/-- What is in the replies among some members. -/
def preorderMembers (depth : Nat) : List (Text × Json) → List (Nat × Json)
  | [] => []
  | (name, j) :: rest =>
    (if name = nesting then preorderItems depth j else []) ++ preorderMembers depth rest

def preorderItems (depth : Nat) : Json → List (Nat × Json)
  | array items => preorderList depth items
  | _ => []

def preorderList (depth : Nat) : List Json → List (Nat × Json)
  | [] => []
  | j :: js => preorder depth j ++ preorderList depth js

end

theorem preorderList_eq_flatMap (depth : Nat) (js : List Json) :
    preorderList depth js = js.flatMap (preorder depth) := by
  induction js with
  | nil => rfl
  | cons j js ih => rw [preorderList, ih, List.flatMap_cons]

theorem preorderMembers_append (depth : Nat) (ms ns : List (Text × Json)) :
    preorderMembers depth (ms ++ ns) = preorderMembers depth ms ++ preorderMembers depth ns := by
  induction ms with
  | nil => rfl
  | cons m ms ih =>
    rw [List.cons_append, preorderMembers, preorderMembers, ih, List.append_assoc]

theorem preorderMembers_eq_nil {depth : Nat} {ms : List (Text × Json)}
    (h : ∀ m ∈ ms, m.1 ≠ nesting) : preorderMembers depth ms = [] := by
  induction ms with
  | nil => rfl
  | cons m ms ih =>
    obtain ⟨hm, hms⟩ := List.forall_mem_cons.mp h
    rw [preorderMembers, if_neg hm, ih hms, List.append_nil]

/-- An object with one member that holds its replies. -/
theorem preorder_object {depth : Nat} {before after : List (Text × Json)} (js : List Json)
    (hbefore : ∀ m ∈ before, m.1 ≠ nesting) (hafter : ∀ m ∈ after, m.1 ≠ nesting) :
    preorder depth (object (before ++ [(nesting, array js)] ++ after)) =
      (depth, object (before ++ after)) :: js.flatMap (preorder (depth + 1)) := by
  have hkept {ms : List (Text × Json)} (h : ∀ m ∈ ms, m.1 ≠ nesting) :
      ms.filter (·.1 ≠ nesting) = ms :=
    List.filter_eq_self.mpr fun m hm => decide_eq_true (h m hm)
  have hreplies : [(nesting, array js)].filter (·.1 ≠ nesting) = [] :=
    List.filter_eq_nil_iff.mpr (by simp)
  rw [preorder, List.filter_append, List.filter_append, hkept hbefore, hkept hafter, hreplies,
    List.append_nil, preorderMembers_append, preorderMembers_append,
    preorderMembers_eq_nil hbefore, preorderMembers_eq_nil hafter, List.nil_append,
    List.append_nil, preorderMembers, if_pos rfl, preorderMembers, List.append_nil, preorderItems,
    preorderList_eq_flatMap]

end Json

namespace Message

theorem name_ne_nesting (m : Message) :
    (∀ n ∈ m.membersBefore, n.1 ≠ Json.nesting) ∧ ∀ n ∈ m.membersAfter, n.1 ≠ Json.nesting := by
  have hbefore : ∀ name ∈ ["author".toList, "body".toList, "date".toList, "headers".toList,
      "id".toList, "recipients".toList], name ≠ Json.nesting := by decide +kernel
  have hafter : ∀ name ∈ ["sender".toList, "subject".toList], name ≠ Json.nesting := by
    decide +kernel
  exact ⟨fun n hn => hbefore n.1 (List.mem_map_of_mem (f := Prod.fst) hn),
    fun n hn => hafter n.1 (List.mem_map_of_mem (f := Prod.fst) hn)⟩

end Message

namespace Conversation

theorem toJsonIn_eq_map (cs : List Conversation) : toJsonIn cs = cs.map toJson := by
  induction cs with
  | nil => rfl
  | cons c cs ih => rw [toJsonIn, ih, List.map_cons]

/-- The objects in the form of a conversation are the forms of its messages, each as deep as the
message in the outline. -/
theorem preorder_toJson (depth : Nat) (c : Conversation) :
    c.toJson.preorder depth = (c.outline depth).map fun l => (l.1, l.2.toJson) := by
  induction c generalizing depth with
  | node m rs ih =>
    obtain ⟨hbefore, hafter⟩ := m.name_ne_nesting
    have hrs : (toJsonIn rs).flatMap (Json.preorder (depth + 1)) =
        (outlineIn (depth + 1) rs).map fun l => (l.1, l.2.toJson) := by
      rw [toJsonIn_eq_map, List.flatMap_map, outlineIn_eq_flatMap, List.map_flatMap]
      exact List.flatMap_congr fun r hr => ih r hr (depth + 1)
    rw [toJson, outline, List.map_cons, ← hrs]
    exact Json.preorder_object (toJsonIn rs) hbefore hafter

/-- As many objects stand in the form of a conversation as there are messages in it. -/
theorem length_preorder_toJson (depth : Nat) (c : Conversation) :
    (c.toJson.preorder depth).length = c.size := by
  rw [preorder_toJson, List.length_map, size, ← map_snd_outline depth, List.length_map]

end Conversation
end MailArchive
