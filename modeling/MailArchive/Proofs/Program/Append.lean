import MailArchive.Program
import MailArchive.Proofs.Disk.Append
import MailArchive.Proofs.Fragment.Framing

/-!
# MailArchive.Proofs.Program.Append

Appending the message in a file to an archive. Everything that can fail is tried before the archive
is touched: the file is read, a message is read from its text and written as a fragment, and the
archive is opened. `CannotAppend` lists what can go wrong. So the command either puts the fragment
behind what the archive holds and changes nothing else, or it leaves all files as they are
(`append_allOrNothing`). Where the message comes from the archive itself, it is read before the
archive is changed.
-/

namespace MailArchive

variable {c : Config} {d d' : Disk} {archive message t : Text} {m : Message} {failure : Failure}
  {options : FormatOptions}

theorem Fragment.format?_eq_none_iff : Fragment.format? options m = none ↔
    ¬(0 ≤ m.date.date.year ∧ m.date.date.year ≤ 9999) := by
  rw [Fragment.format?, Option.map_eq_none_iff, ← not_iff_not, not_not, ← ne_eq,
    Option.ne_none_iff_exists']
  simp only [Rfc2822.write?_eq_some_iff]
  constructor
  · rintro ⟨_, hyear, _⟩
    exact hyear
  · intro hyear
    exact ⟨_, hyear, rfl⟩

/-! ## One step after the other -/

theorem mapError_eq_ok_iff {α ε ε' : Type} {f : ε → ε'} {x : Except ε α} {a : α} :
    x.mapError f = .ok a ↔ x = .ok a := by
  cases x <;> simp [Except.mapError]

theorem Program.loadMessage_eq_ok_iff : Program.loadMessage d message = .ok m ↔
    ∃ t, d.read message = .ok t ∧ Message.parse t = .ok m := by
  unfold Program.loadMessage Store.readArchive
  cases d.read message with
  | error fault => simp [Except.mapError]
  | ok t =>
    show (Message.parse t).mapError Failure.malformed = .ok m ↔ _
    simp [mapError_eq_ok_iff]

theorem Store.appendMessage_eq_ok_iff : Store.appendMessage d archive m options = .ok d' ↔
    ∃ fragment l old access, Fragment.format? options m = some fragment ∧
      d.Opens archive l old access ∧
      d' = d.set l (.file (old ++ Utf8.encode fragment) access) := by
  unfold Store.appendMessage
  cases Fragment.format? options m with
  | none => simp
  | some fragment =>
    simp only [mapError_eq_ok_iff, Disk.append_eq_ok_iff, Option.some.injEq, exists_and_left,
      exists_eq_left']

/-- Why the message in a file cannot be appended to an archive. -/
inductive CannotAppend (d : Disk) (archive message : Text) : Failure → Prop where
  | missing (hread : d.read message = .error .notFound) :
      CannotAppend d archive message (.archiveNotFound message)
  | unreadable {fault : DiskFault} (hread : d.read message = .error fault)
      (hthere : fault ≠ .notFound) : CannotAppend d archive message (.file message fault)
  | malformed {t : Text} {why : Malformation} (hread : d.read message = .ok t)
      (hparse : Message.parse t = .error why) : CannotAppend d archive message (.malformed why)
  | unprintable {t : Text} {m : Message} (hread : d.read message = .ok t)
      (hparse : Message.parse t = .ok m)
      (hyear : ¬(0 ≤ m.date.date.year ∧ m.date.date.year ≤ 9999)) :
      CannotAppend d archive message .unprintableDate
  | closed {t : Text} {m : Message} {fault : DiskFault} (hread : d.read message = .ok t)
      (hparse : Message.parse t = .ok m) (hyear : 0 ≤ m.date.date.year ∧ m.date.date.year ≤ 9999)
      (hopen : ∀ l old access, ¬ d.Opens archive l old access)
      (hfault : d.append archive [] = .error fault) :
      CannotAppend d archive message (.file archive fault)

namespace CannotAppend

theorem of_loadMessage (archive : Text) (h : Program.loadMessage d message = .error failure) :
    CannotAppend d archive message failure := by
  unfold Program.loadMessage Store.readArchive at h
  cases hread : d.read message with
  | error fault =>
    rw [hread] at h
    simp only [Except.mapError, Except.error.injEq] at h
    split at h
    · rename_i hmissing
      subst hmissing h
      exact .missing hread
    · rename_i hthere
      subst h
      exact .unreadable hread hthere
  | ok t =>
    rw [hread] at h
    cases hparse : Message.parse t with
    | error why =>
      simp only [Except.mapError, hparse, Except.error.injEq] at h
      subst h
      exact .malformed hread hparse
    | ok m => simp [Except.mapError, hparse] at h

theorem of_appendMessage (hread : d.read message = .ok t) (hparse : Message.parse t = .ok m)
    (h : Store.appendMessage d archive m options = .error failure) :
    CannotAppend d archive message failure := by
  unfold Store.appendMessage at h
  cases hformat : Fragment.format? options m with
  | none =>
    simp only [hformat, Except.error.injEq] at h
    subst h
    exact .unprintable hread hparse (Fragment.format?_eq_none_iff.mp hformat)
  | some fragment =>
    have hyear : 0 ≤ m.date.date.year ∧ m.date.date.year ≤ 9999 := by
      by_contra hnot
      rw [Fragment.format?_eq_none_iff.mpr hnot] at hformat
      cases hformat
    cases happend : d.append archive (Utf8.encode fragment) with
    | error fault =>
      simp only [hformat, happend, Except.mapError, Except.error.injEq] at h
      subst h
      have hopen : ∀ l old access, ¬ d.Opens archive l old access := by
        intro l old access hopen
        rw [Disk.append_eq_ok_iff.mpr ⟨l, old, access, hopen, rfl⟩] at happend
        cases happend
      exact .closed hread hparse hyear hopen (Disk.append_error happend [])
    | ok d' => simp [hformat, happend, Except.mapError] at h

end CannotAppend

/-! ## The whole -/

namespace Program

theorem append_of_noMessage (c : Config) (archive : Text)
    (h : loadMessage d message = .error failure) :
    (append c d archive message).failure = some failure ∧
      (append c d archive message).disk = d := by
  simp [append, h]

theorem append_of_unwritten (hload : loadMessage d message = .ok m)
    (h : Store.appendMessage d archive m c.format = .error failure) :
    (append c d archive message).failure = some failure ∧
      (append c d archive message).disk = d := by
  simp [append, hload, h]

theorem append_of_written (hload : loadMessage d message = .ok m)
    (h : Store.appendMessage d archive m c.format = .ok d') :
    (append c d archive message).failure = none ∧ (append c d archive message).disk = d' := by
  simp [append, hload, h]

/-- **Appending is all or nothing.** For every disk and all paths, be they the same, one of two
things is the case. Either the command succeeds: the file holds the text of a message, the archive
can be opened, and afterwards it holds the bytes it held before, whether they are a text or not and
none if it was not there, and behind them the fragment of that message, while all else is as it was;
they are read there if the archive may be read at all. Or it fails, because the file cannot be read,
holds no message, or one with a date that cannot be written, or because the archive cannot be
opened, and then nothing at all is changed. -/
theorem append_allOrNothing (c : Config) (d : Disk) (archive message : Text) :
    let r := execute c d (.append archive message)
    (r.failure = none ∧ ∃ t m fragment l old access,
        d.read message = .ok t ∧ Message.parse t = .ok m ∧
        Fragment.format? c.format m = some fragment ∧ d.Opens archive l old access ∧
        r.disk.locate archive = .ok (l, some (.file (old ++ Utf8.encode fragment) access), false) ∧
        (access.readable = true →
          r.disk.readBytes archive = .ok (old ++ Utf8.encode fragment)) ∧
        r.disk.working = d.working ∧ ∀ l', r.disk.at? l' =
          if l' = l then some (.file (old ++ Utf8.encode fragment) access) else d.at? l') ∨
      ∃ failure, r.failure = some failure ∧ CannotAppend d archive message failure ∧
        r.disk = d := by
  have hrun : execute c d (.append archive message) = append c d archive message := rfl
  simp only [hrun]
  cases hload : loadMessage d message with
  | error failure =>
    obtain ⟨hfailure, hdisk⟩ := append_of_noMessage c archive hload
    exact .inr ⟨failure, hfailure, .of_loadMessage archive hload, hdisk⟩
  | ok m =>
    obtain ⟨t, hread, hparse⟩ := loadMessage_eq_ok_iff.mp hload
    cases hwrite : Store.appendMessage d archive m c.format with
    | error failure =>
      obtain ⟨hfailure, hdisk⟩ := append_of_unwritten hload hwrite
      exact .inr ⟨failure, hfailure, .of_appendMessage hread hparse hwrite, hdisk⟩
    | ok d' =>
      obtain ⟨hfailure, hdisk⟩ := append_of_written hload hwrite
      obtain ⟨fragment, l, old, access, hformat, hopen, rfl⟩ :=
        Store.appendMessage_eq_ok_iff.mp hwrite
      rw [hdisk]
      exact .inl ⟨hfailure, t, m, fragment, l, old, access, hread, hparse, hformat, hopen,
        hopen.locate_set _, fun hr => hopen.readBytes_set hr _, Disk.working_set _ _ _,
        Disk.at?_set hopen.ne_nil _⟩

/-- An archive that refuses to be written to stays as it is, and one that only refuses to be read
does not. -/
example :
    let message := Utf8.encode "Message-Id: 1\n\nbody".toList
    let d (access : Access) : Disk :=
      ⟨[(["a".toList], .file [] access), (["m".toList], .file message)], []⟩
    let failure (access : Access) := (append {} (d access) "a".toList "m".toList).failure
    failure { writable := false } = some (.file "a".toList .denied) ∧
      failure { readable := false } = none := by
  decide +kernel

end Program
end MailArchive
