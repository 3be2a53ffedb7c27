import MailArchive.Json.Record
import MailArchive.Proofs.Calendar.Rfc3339

/-!
# MailArchive.Proofs.Json.Message

The JSON form of a message read back. An object has each field of the message under its name
(`fields?_toJson`), so the message can be told from its object (`isObject_toJson`). The date is the
only field that is not written as it is; if it reads back, so does the whole message
(`ofJson?_toJson`).
-/

namespace MailArchive

open Json

theorem Json.list?_map {α : Type} {read : Json → Option α} {write : α → Json}
    (h : ∀ a, read (write a) = some a) (as : List α) :
    (array (as.map write)).list? read = some as := by
  have hall : (as.map write).mapM read = some as := by
    induction as with
    | nil => rfl
    | cons a as ih => simp [h, ih]
  rw [Json.list?, items?, Option.bind_some, hall]

theorem Address.ofJson?_toJson (a : Address) : Address.ofJson? a.toJson = some a := rfl

theorem Header.ofJson?_toJson (h : Header) : Header.ofJson? h.toJson = some h := rfl

namespace Message

theorem fields?_toJson (m : Message) :
    m.toJson.fields? fieldNames =
      some [some (string m.id), some m.author.toJson, some m.sender.toJson,
        some (array (m.recipients.map Address.toJson)),
        some (string (Rfc3339.writeZulu m.date)), some (string m.subject),
        some (array (m.headers.map Header.toJson)), some (string m.body)] := rfl

/-- A message whose date is one of the calendar, on a clock that is whole minutes ahead of UTC, is
read back from its object. -/
theorem ofJson?_toJson {m : Message} (h : m.date.InRange) (hwhole : 60 ∣ m.date.ahead) :
    ofJson? m.toJson = some m := by
  have hrecipients := Json.list?_map Address.ofJson?_toJson m.recipients
  have hheaders := Json.list?_map Header.ofJson?_toJson m.headers
  have hdate := Rfc3339.readRelaxed?_writeZulu h hwhole
  unfold ofJson?
  refine bind_of_eq_some m.fields?_toJson ?_
  refine bind_of_eq_some rfl (bind_of_eq_some rfl ?_)
  refine bind_of_eq_some rfl (bind_of_eq_some m.author.ofJson?_toJson ?_)
  refine bind_of_eq_some rfl (bind_of_eq_some m.sender.ofJson?_toJson ?_)
  refine bind_of_eq_some rfl (bind_of_eq_some hrecipients ?_)
  refine bind_of_eq_some rfl (bind_of_eq_some rfl (bind_of_eq_some hdate ?_))
  refine bind_of_eq_some rfl (bind_of_eq_some rfl ?_)
  refine bind_of_eq_some rfl (bind_of_eq_some hheaders ?_)
  exact bind_of_eq_some rfl (bind_of_eq_some rfl rfl)

/-- The message is had back from an object: the identifier always, and the whole message if the
date is one of the calendar on a clock that is whole minutes ahead of UTC. -/
structure IsObject (m : Message) (j : Json) : Prop where
  id : j.fields? ["id".toList] = some [some (string m.id)]
  whole : m.date.InRange → 60 ∣ m.date.ahead → ofJson? j = some m

theorem isObject_toJson (m : Message) : m.IsObject m.toJson := ⟨rfl, ofJson?_toJson⟩

end Message
end MailArchive
