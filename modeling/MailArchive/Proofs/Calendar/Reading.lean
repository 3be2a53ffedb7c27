import MailArchive.Proofs.Calendar.Ctime
import MailArchive.Proofs.Calendar.Rfc2822

/-!
# MailArchive.Proofs.Calendar.Reading

Which reader takes what is written. The date of a mail header is taken by the first reader that is
tried. The date of an envelope line begins with the name of a day and no comma behind it, so the
reader of mail headers refuses it (`Rfc2822.read?_weekdayName`), and it does not begin with a digit,
so the reader of dates in full refuses it too (`Rfc3339.read?_of_head?`). The reader of envelope
dates is reached, and the tolerant one is not.
-/

namespace MailArchive

open Text

theorem Date.head?_weekdayName (d : Date) (rest : Text) :
    ∀ c ∈ (d.weekdayName ++ rest).head?, c.isDigit = false := by
  have hall : ∀ i < 7, ∀ c ∈ (weekdayNames[i]?.getD [] ++ rest).head?, c.isDigit = false := by
    intro i hi
    interval_cases i <;> exact fun c hc => by cases hc; rfl
  exact hall _ d.weekday_lt

theorem Rfc2822.read?_weekdayName {c : Char} (hc : c ≠ ',') (d : Date) (rest : Text) :
    Rfc2822.read? (d.weekdayName ++ c :: rest) = none := by
  have hday : Rfc2822.dayName? (d.weekdayName ++ c :: rest) = none := by
    rw [Rfc2822.dayName?, Field.name?_weekdayName]
    simp only [Field.after?, if_neg hc, Option.map_none]
  rw [Rfc2822.read?, Rfc2822.parts?, (d.solid_weekdayName.append _).trimStart_eq, hday]
  rfl

theorem Rfc3339.read?_of_head? {t : Text} (h : ∀ c ∈ t.head?, c.isDigit = false) :
    Rfc3339.read? t = none := by
  rw [Rfc3339.read?, Rfc3339.parts?, Field.number?_eq_none (by decide) h]
  rfl

namespace Timestamp

variable {t : Timestamp}

theorem read?_ctime (h : 0 ≤ t.date.year ∧ t.date.year ≤ 9999) (hn : t.time.nano = 0) :
    read? (Ctime.write t) = some t.asUtc := by
  have hmail : Rfc2822.read? (Ctime.write t) = none := by
    rw [Ctime.write_eq h]
    exact Rfc2822.read?_weekdayName (by decide) _ _
  have hfull : Rfc3339.read? (Ctime.write t) = none := by
    refine Rfc3339.read?_of_head? ?_
    rw [Ctime.write_eq h]
    exact t.date.head?_weekdayName _
  unfold read? readers
  rw [Ctime.trim_write h]
  simp only [List.findSome?_cons, hmail, hfull, Ctime.read?_write h hn]

/-- **What is written is read.** A timestamp of a year of four digits, by a clock that is whole
minutes ahead of UTC and shows no fraction of a second, can be written for a mail header and is read
back from it as it is, with its offset. From the date of an envelope line, which has no offset, what
its clock shows is read, taken as UTC. -/
theorem read?_written (hyear : 0 ≤ t.date.year ∧ t.date.year ≤ 9999) (hwhole : 60 ∣ t.ahead)
    (hnano : t.time.nano = 0) :
    (∃ text, Rfc2822.write? t = some text ∧ read? text = some t) ∧
      read? (Ctime.write t) = some t.asUtc := by
  obtain ⟨text, htext⟩ : ∃ text, Rfc2822.write? t = some text := ⟨_, if_pos hyear⟩
  exact ⟨⟨text, htext, Rfc2822.timestamp_read?_write? htext hwhole hnano⟩, read?_ctime hyear hnano⟩

/-- A leap second on the leap day of the year 0, by a clock that is a minute short of a day behind
UTC. -/
def leapSecond : Timestamp where
  date := ⟨0, 2, 29, by decide⟩
  time := ⟨0, 0, 60, 0, by decide⟩
  ahead := -86340
  ahead_lt_day := by decide

theorem read?_written_leapSecond :
    (0 ≤ leapSecond.date.year ∧ leapSecond.date.year ≤ 9999) ∧ 60 ∣ leapSecond.ahead ∧
      leapSecond.time.nano = 0 ∧
      read? "Tue, 29 Feb 0000 00:00:60 -2359".toList = some leapSecond ∧
      read? "Tue Feb 29 00:00:60 0000".toList = some leapSecond.asUtc := by
  have hyear : 0 ≤ leapSecond.date.year ∧ leapSecond.date.year ≤ 9999 := by decide
  have hwhole : 60 ∣ leapSecond.ahead := by decide
  have hmail : Rfc2822.write? leapSecond = some "Tue, 29 Feb 0000 00:00:60 -2359".toList := by
    decide
  have hline : Ctime.write leapSecond = "Tue Feb 29 00:00:60 0000".toList := by decide
  obtain ⟨⟨text, htext, hread⟩, hclock⟩ := read?_written (t := leapSecond) hyear hwhole rfl
  obtain rfl := Option.some.inj (htext.symm.trans hmail)
  rw [hline] at hclock
  exact ⟨hyear, hwhole, rfl, hread, hclock⟩

end Timestamp
end MailArchive
