import MailArchive.Program
import MailArchive.Proofs.Json.Record
import MailArchive.Proofs.Threading.Conservation

/-!
# MailArchive.Proofs.Program.Reports

The two reports on an archive agree (`stats_threads`). Both commands load the archive in the same
way; what one of them counts is what the other one shows, as far as it can be counted in the text
that is printed.
-/

namespace MailArchive
namespace Program

open Json

/-- How many objects the form of a conversation nests in each other. -/
def nested (j : Json) : Nat := (j.preorder 0).length

theorem nested_toJson (c : Conversation) : nested c.toJson = c.size :=
  Conversation.length_preorder_toJson 0 c

theorem map_nested_toJson (cs : List Conversation) :
    (cs.map Conversation.toJson).map nested = cs.map Conversation.size := by
  rw [List.map_map]
  exact List.map_congr_left fun c _ => nested_toJson c

/-- An archive that is loaded is in the file, can be read, and is threaded as the options say. -/
theorem load_eq_ok {c : Config} {d : Disk} {path archive : Text} {o : Threading.Outcome}
    (h : load c d path = .ok (archive, o)) :
    ∃ ms, Store.readArchive d path = .ok archive ∧ Archive.messages .standard archive = .ok ms ∧
      o = Threading.build c.threading.resolution ms := by
  unfold load at h
  split at h
  · cases h
  · rename_i t hread
    split at h
    · cases h
    · rename_i o' hparse
      cases h
      rw [Archive.parse] at hparse
      cases hms : Archive.messages .standard archive with
      | error fault =>
        rw [hms] at hparse
        cases hparse
      | ok ms =>
        rw [hms] at hparse
        cases hparse
        exact ⟨ms, hread, rfl, rfl⟩

/-! ## What is printed -/

theorem fields?_threadsJson (o : Threading.Outcome) :
    (Report.threadsJson o).fields? ["conversations".toList, "dropped".toList] =
      some [some (.array (o.conversations.map Conversation.toJson)),
        some (.array (o.unresolved.map Unresolved.toJson))] :=
  rfl

theorem fields?_statistics (s : Statistics) :
    s.toJson.fields? ["conversations".toList, "threaded_messages".toList,
        "largest_conversation".toList, "dropped_replies".toList] =
      some [some (.ofNat s.conversations), some (.ofNat s.threadedMessages),
        some (.ofNat s.largestConversation), some (.ofNat s.droppedReplies)] :=
  rfl

variable {c : Config} {d : Disk} {path archive : Text} {o : Threading.Outcome}

/-- Both commands report why an archive cannot be loaded, and print nothing. -/
theorem execute_of_error {failure : Failure} (h : load c d path = .error failure) :
    (execute c d (.stats path true)).failure = some failure ∧
      (execute c d (.threads path true false)).failure = some failure ∧
      (execute c d (.stats path true)).out = [] ∧
      (execute c d (.threads path true false)).out = [] := by
  simp [execute, stats, threads, h]

/-- The numbers of an archive that is loaded can be read in what is printed. -/
theorem read?_stats (h : load c d path = .ok (archive, o)) :
    (execute c d (.stats path true)).failure = none ∧
      read? (execute c d (.stats path true)).out =
        some (Statistics.ofOutcome path archive o).toJson := by
  simp only [execute, stats, h]
  exact ⟨trivial, read?_line (Statistics.plain_toJson _)⟩

/-- So can its conversations and the replies that are in none. -/
theorem read?_threads (h : load c d path = .ok (archive, o)) :
    (execute c d (.threads path true false)).failure = none ∧
      read? (execute c d (.threads path true false)).out = some (Report.threadsJson o) := by
  simp only [execute, threads, h]
  exact ⟨rfl, read?_line (Report.plain_threadsJson o)⟩

/-- **The reports agree.** For every configuration and every archive the numbers and the
conversations are either both refused, for the same reason, or both printed. Then the numbers are
those of the conversations that are printed: how many there are, how many messages are nested in
them and how many in the largest one, and how many replies are in none. The messages and these
replies are as many as there are different identifiers in the archive. -/
theorem stats_threads (c : Config) (d : Disk) (path : Text) :
    let s := execute c d (.stats path true)
    let t := execute c d (.threads path true false)
    (∃ failure, s.failure = some failure ∧ t.failure = some failure ∧ s.out = [] ∧ t.out = []) ∨
      (s.failure = none ∧ t.failure = none ∧ ∃ archive ms js jt cs ds,
        Store.readArchive d path = .ok archive ∧ Archive.messages .standard archive = .ok ms ∧
        read? s.out = some js ∧ read? t.out = some jt ∧
        jt.fields? ["conversations".toList, "dropped".toList] =
          some [some (.array cs), some (.array ds)] ∧
        js.fields? ["conversations".toList, "threaded_messages".toList,
            "largest_conversation".toList, "dropped_replies".toList] =
          some [some (.ofNat cs.length), some (.ofNat (cs.map nested).sum),
            some (.ofNat ((cs.map nested).foldl max 0)), some (.ofNat ds.length)] ∧
        (cs.map nested).sum + ds.length = (ms.map Message.id).toFinset.card) := by
  intro s t
  cases h : load c d path with
  | error failure => exact .inl ⟨failure, execute_of_error h⟩
  | ok loaded =>
    obtain ⟨archive, o⟩ := loaded
    obtain ⟨hs, hsout⟩ := read?_stats h
    obtain ⟨ht, htout⟩ := read?_threads h
    obtain ⟨ms, hread, hms, rfl⟩ := load_eq_ok h
    refine .inr ⟨hs, ht, archive, ms, _, _, _, _, hread, hms, hsout, htout,
      fields?_threadsJson _, ?_, ?_⟩
    · rw [fields?_statistics, map_nested_toJson, List.length_map, List.length_map,
        List.sum_eq_foldl]
      rfl
    · rw [map_nested_toJson, List.length_map]
      exact Threading.sum_size_add_length_unresolved c.threading.resolution ms

end Program
end MailArchive
