import MailArchive.Disk
import MailArchive.Proofs.Text.Utf8

/-!
# MailArchive.Proofs.Disk.Append

Reading what was appended. Writing changes what is at one location and nothing else (`at?_set`), and
no path leads on from a file, so paths lead where they led before (`follow_set`). Bytes can be
appended exactly where a path leads to a file or to nothing (`append_eq_ok_iff`). What is read after
bytes were appended is therefore what was read before, and then those bytes (`readBytes_append`); if
they are those of a text, a text is read (`read_append`).
-/

namespace MailArchive
namespace Disk

variable {d d' : Disk} {l here : Location} {path : Text} {bytes old : Bytes} {e : Entry}
  {access : Access}

/-- What an entry is replaced by is found in its place, and all others as before. -/
theorem find?_replace {entries : List (Location × Entry)} (h : entries.find? (·.1 = l) ≠ none)
    (e : Entry) (l' : Location) :
    (entries.map fun x => if x.1 = l then (l, e) else x).find? (·.1 = l') =
      if l' = l then some (l, e) else entries.find? (·.1 = l') := by
  have hkey : ∀ x : Location × Entry, (if x.1 = l then (l, e) else x).1 = x.1 := by
    intro x
    split
    · rename_i hx
      exact hx.symm
    · rfl
  simp only [List.find?_map, Function.comp_def, hkey]
  cases hx : entries.find? (·.1 = l') with
  | none =>
    rw [if_neg]
    · rfl
    · rintro rfl
      exact h hx
  | some x =>
    have hat : x.1 = l' := by simpa using List.find?_some hx
    rw [Option.map_some, hat]
    split <;> rfl

theorem listed?_set (d : Disk) (l : Location) (e : Entry) (l' : Location) :
    (d.set l e).listed? l' = if l' = l then some e else d.listed? l' := by
  unfold set listed?
  cases hl : d.entries.find? (·.1 = l) with
  | some x =>
    have hfound : d.entries.find? (·.1 = l) ≠ none := by simp [hl]
    rw [Option.map_some, Option.isSome_some, if_pos rfl, find?_replace hfound]
    split <;> rfl
  | none =>
    rw [Option.map_none, Option.isSome_none, if_neg Bool.false_ne_true, List.find?_append]
    split
    · rename_i hsame
      simp [hsame, hl]
    · rename_i hne
      simp [Ne.symm hne]

theorem at?_set (hl : l ≠ []) (e : Entry) (l' : Location) :
    (d.set l e).at? l' = if l' = l then some e else d.at? l' := by
  unfold at?
  rw [listed?_set]
  by_cases hroot : l' = []
  · rw [if_pos hroot, if_pos hroot, if_neg (hroot ▸ Ne.symm hl), if_neg (hroot ▸ Ne.symm hl)]
  · rw [if_neg hroot, if_neg hroot]

theorem exists_at?_nil (d : Disk) : ∃ access, d.at? [] = some (.folder access) := by
  rw [at?, if_pos rfl]
  split
  · exact ⟨_, rfl⟩
  · exact ⟨_, rfl⟩

theorem origin_set (d : Disk) (l : Location) (e : Entry) (p : Path) :
    (d.set l e).origin p = d.origin p := by
  unfold set
  split <;> rfl

theorem working_set (d : Disk) (l : Location) (e : Entry) : (d.set l e).working = d.working := by
  unfold set
  split <;> rfl

/-- A path leads where it led before something that is no folder was put where no folder was. -/
theorem follow_set {content : Bytes} {names : List Text} (hroot : l ≠ [])
    (hl : ∀ access, d.at? l ≠ some (.folder access)) {l' : Location}
    (h : d.follow here names = .ok l') :
    (d.set l (.file content access)).follow here names = .ok l' := by
  induction names generalizing here with
  | nil => exact h
  | cons name names ih =>
    rw [follow] at h ⊢
    cases hat : d.at? here with
    | none =>
      rw [hat] at h
      cases h
    | some there =>
      cases there with
      | file content =>
        rw [hat] at h
        cases h
      | folder access =>
        have hne : here ≠ l := fun heq => hl access (heq ▸ hat)
        rw [hat] at h
        rw [at?_set hroot, if_neg hne, hat]
        simp only at h ⊢
        split at h
        · cases h
        · rename_i hsearch
          rw [if_neg hsearch]
          split at h
          · cases h
          · rename_i hname
            rw [if_neg hname]
            exact ih h

/-! ## Files -/

theorem readBytes_eq_ok_iff : d.readBytes path = .ok old ↔
    ∃ p l access, readPath path = .ok p ∧ p.toFolder = false ∧
      d.follow (d.origin p) p.names = .ok l ∧ d.at? l = some (.file old access) ∧
      access.readable = true := by
  unfold readBytes locate
  cases hp : readPath path with
  | error fault => simp
  | ok p =>
    cases hl : d.follow (d.origin p) p.names with
    | error fault => simp [Except.map, hl]
    | ok l =>
      cases hat : d.at? l with
      | none => simp [Except.map, hl, hat]
      | some there =>
        cases there with
        | folder access => cases hr : access.readable <;> simp [Except.map, hl, hat, hr]
        | file content access =>
          cases hf : p.toFolder <;> cases hr : access.readable <;>
            simp [Except.map, hl, hat, hf, and_assoc, hr]

/-- Whether a path leads to where bytes can be appended, and what is there before: a file that is
not there holds nothing, and if it can be made it refuses nothing. -/
structure Opens (d : Disk) (path : Text) (l : Location) (old : Bytes) (access : Access) : Prop where
  leads : ∃ p, readPath path = .ok p ∧ p.toFolder = false ∧ d.follow (d.origin p) p.names = .ok l
  holds : d.at? l = some (.file old access) ∧ access.writable = true ∨
    d.at? l = none ∧ d.isOpenAt l = true ∧ old = [] ∧ access = {}

theorem Opens.not_folder (h : d.Opens path l old access) (other : Access) :
    d.at? l ≠ some (.folder other) := by
  rcases h.holds with ⟨hat, _⟩ | ⟨hat, _⟩ <;> simp [hat]

theorem Opens.ne_nil (h : d.Opens path l old access) : l ≠ [] := by
  rintro rfl
  obtain ⟨other, hroot⟩ := exists_at?_nil d
  exact h.not_folder other hroot

/-- Bytes are appended to the file that a path leads to, or to a new one. -/
theorem append_eq_ok_iff : d.append path bytes = .ok d' ↔
    ∃ l old access, d.Opens path l old access ∧ d' = d.set l (.file (old ++ bytes) access) := by
  unfold append
  constructor
  · intro h
    split at h
    · cases h
    · rename_i p hp
      split at h
      · split at h <;> cases h
      · rename_i hf
        split at h
        · cases h
        · rename_i l hl
          have hleads : ∃ p, readPath path = .ok p ∧ p.toFolder = false ∧
              d.follow (d.origin p) p.names = .ok l := ⟨p, hp, by simpa using hf, hl⟩
          split at h
          · cases h
          · rename_i old access hat
            split at h
            · rename_i hwritable
              cases h
              exact ⟨l, old, access, ⟨hleads, .inl ⟨hat, hwritable⟩⟩, rfl⟩
            · cases h
          · rename_i hat
            split at h
            · rename_i hopen
              cases h
              exact ⟨l, [], {}, ⟨hleads, .inr ⟨hat, hopen, rfl, rfl⟩⟩, rfl⟩
            · cases h
  · rintro ⟨l, old, access, ⟨⟨p, hp, hf, hl⟩, ⟨hat, hwritable⟩ | ⟨hat, hopen, rfl, rfl⟩⟩, rfl⟩
    · simp [hp, hf, hl, hat, hwritable]
    · simp [hp, hf, hl, hat, hopen]

/-- What keeps a file from being appended to has nothing to do with the bytes. -/
theorem append_error {fault : DiskFault} (h : d.append path bytes = .error fault) (more : Bytes) :
    d.append path more = .error fault := by
  unfold append at h ⊢
  split at h
  · exact h
  · split at h
    · rename_i htoFolder
      rwa [if_pos htoFolder]
    · rename_i hfile
      rw [if_neg hfile]
      split at h
      · exact h
      · split at h
        · exact h
        · split at h
          · cases h
          · rename_i hwritable
            rwa [if_neg hwritable]
        · split at h
          · cases h
          · rename_i hopen
            rwa [if_neg hopen]

/-- A path that leads to where bytes were appended leads to them. -/
theorem Opens.locate_set (h : d.Opens path l old access) (content : Bytes) :
    (d.set l (.file content access)).locate path =
      .ok (l, some (.file content access), false) := by
  obtain ⟨p, hp, hf, hl⟩ := h.leads
  have hfollow : (d.set l (.file content access)).follow (d.origin p) p.names = .ok l :=
    follow_set h.ne_nil h.not_folder hl
  rw [locate, hp]
  simp only [origin_set, hfollow, Except.map, at?_set h.ne_nil, if_true, hf]

theorem Opens.readBytes_set (h : d.Opens path l old access) (hr : access.readable = true)
    (content : Bytes) : (d.set l (.file content access)).readBytes path = .ok content := by
  rw [readBytes, h.locate_set]
  simp [hr]

theorem readBytes_append (happend : d.append path bytes = .ok d')
    (hold : d.readBytes path = .ok old) : d'.readBytes path = .ok (old ++ bytes) := by
  obtain ⟨l, content, access, hopens, rfl⟩ := append_eq_ok_iff.mp happend
  obtain ⟨p, hp, _, hl⟩ := hopens.leads
  obtain ⟨p', l', access', hp', _, hl', hat, hr⟩ := readBytes_eq_ok_iff.mp hold
  obtain rfl : p = p' := Except.ok.inj (hp.symm.trans hp')
  obtain rfl : l = l' := Except.ok.inj (hl.symm.trans hl')
  rcases hopens.holds with ⟨hcontent, _⟩ | ⟨hnone, _⟩
  · rw [hat] at hcontent
    cases hcontent
    exact hopens.readBytes_set hr _
  · rw [hat] at hnone
    cases hnone

theorem read_append {t more : Text} (happend : d.append path (Utf8.encode more) = .ok d')
    (hold : d.read path = .ok t) : d'.read path = .ok (t ++ more) := by
  unfold read at hold ⊢
  cases hbytes : d.readBytes path with
  | error fault =>
    rw [hbytes] at hold
    cases hold
  | ok old =>
    rw [hbytes] at hold
    rw [readBytes_append happend hbytes]
    simp only at hold ⊢
    cases hdecode : Utf8.decode old with
    | error fault =>
      rw [hdecode] at hold
      cases hold
    | ok decoded =>
      rw [hdecode] at hold
      cases hold
      rw [Utf8.decode_append hdecode]
      rfl

end Disk
end MailArchive
