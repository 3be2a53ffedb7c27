import MailArchive.Calendar.Ctime
import MailArchive.Proofs.Calendar.Field

/-!
# MailArchive.Proofs.Calendar.Ctime

Dates of envelope lines. They are written with letters, digits and a few signs, so they end no line
(`isDateChar_of_mem_write`). A year of four digits has no sign in front of it (`write_eq`), and such
a date is taken apart into its parts (`parts?_write`), which tell nothing of the offset: what is
read is what the clock shows, taken as UTC (`read?_write`).
-/

namespace MailArchive

open Text

theorem Date.isDateChar_of_mem_writeYear (year : Int) :
    ∀ c ∈ Date.writeYear year, isDateChar c = true := by
  unfold Date.writeYear
  split
  · exact List.forall_mem_cons.mpr ⟨by decide, isDateChar_of_mem_padded _ _⟩
  · split
    · exact List.forall_mem_cons.mpr ⟨by decide, isDateChar_of_mem_padded _ _⟩
    · exact isDateChar_of_mem_padded _ _

theorem Date.writeYear_eq {year : Int} (h : 0 ≤ year ∧ year ≤ 9999) :
    Date.writeYear year = padded 4 year.natAbs := by
  rw [Date.writeYear, if_neg (by omega), if_neg (by omega)]

namespace Ctime

variable {t : Timestamp}

theorem isDateChar_of_mem_write (t : Timestamp) : ∀ c ∈ write t, isDateChar c = true := by
  simp only [write, List.forall_mem_append]
  exact ⟨⟨⟨⟨⟨⟨⟨⟨t.date.isDateChar_of_mem_weekdayName, by decide⟩,
    t.date.isDateChar_of_mem_monthName⟩, by decide⟩, isDateChar_of_mem_padded _ _⟩, by decide⟩,
    t.time.isDateChar_of_mem_write⟩, by decide⟩, Date.isDateChar_of_mem_writeYear _⟩

/-! ## Pieces -/

theorem short?_space {n : Nat} (h : n ≤ 60) (rest : Text) :
    short? (' ' :: (padded 2 n ++ rest)) = some (n, rest) := by
  have hsolid := (solid_padded 2 n).append rest
  rw [short?, hsolid.trimStart_space, ← hsolid.trimStart_eq]
  exact Field.number?_trimStart h rest

/-! ## A whole date -/

theorem write_eq (h : 0 ≤ t.date.year ∧ t.date.year ≤ 9999) :
    write t = t.date.weekdayName ++ ' ' :: (t.date.monthName ++ ' ' :: (padded 2 t.date.day ++
      ' ' :: (padded 2 t.time.hour ++ ':' :: (padded 2 t.time.minute ++
        ':' :: (padded 2 t.time.second ++ ' ' :: padded 4 t.date.year.natAbs))))) := by
  simp [write, TimeOfDay.write, TimeOfDay.writeMinutes, Date.writeYear_eq h]

/-- A date begins with a letter and ends with a digit. -/
theorem trim_write (h : 0 ≤ t.date.year ∧ t.date.year ≤ 9999) : trim (write t) = write t := by
  rw [write, Date.writeYear_eq h]
  refine trim_append_padded ?_ _ _
  simp only [List.append_assoc]
  exact t.date.solid_weekdayName.append _

/-- What is written for a timestamp is taken apart into its parts but the offset. -/
theorem parts?_write (h : 0 ≤ t.date.year ∧ t.date.year ≤ 9999) (hn : t.time.nano = 0) :
    parts? (write t) = some t.asUtc.parts := by
  have hday := t.date.day_le
  have hmonth := t.date.month_le
  have htime := t.time.exists_time
  have hname (rest : Text) : Field.name? Date.monthNames (trimStart (' ' :: (t.date.monthName ++
      rest))) = some (t.date.month - 1, rest) := by
    rw [(t.date.solid_monthName.append rest).trimStart_space, Field.name?_monthName]
  have hyear : Field.signedNumber? 4 (trimStart (' ' :: padded 4 t.date.year.natAbs)) =
      some (((t.date.year.natAbs : Nat) : Int), []) := by
    have hread : Field.signedNumber? 4 (padded 4 t.date.year.natAbs ++ []) =
        some (((t.date.year.natAbs : Nat) : Int), []) :=
      Field.signedNumber?_padded (by decide) (by omega) []
    rwa [List.append_nil, ← (solid_padded 4 _).trimStart_space] at hread
  rw [write_eq h]
  unfold parts?
  refine bind_of_eq_some (Field.name?_weekdayName _ _) ?_
  refine bind_of_eq_some (hname _) ?_
  refine bind_of_eq_some (short?_space (by omega) _) ?_
  refine bind_of_eq_some (short?_space (by omega) _) ?_
  refine bind_of_eq_some (Field.after?_cons _ _) ?_
  refine bind_of_eq_some (Field.number?_trimStart (by omega) _) ?_
  refine bind_of_eq_some (Field.after?_cons _ _) ?_
  refine bind_of_eq_some (Field.number?_trimStart (by omega) _) ?_
  refine bind_of_eq_some hyear ?_
  have hyear' : ((t.date.year.natAbs : Nat) : Int) = t.date.year := by omega
  have hmonth' : t.date.month - 1 + 1 = t.date.month := by omega
  simp only [hyear', hmonth', Timestamp.parts, Timestamp.offset_asUtc]
  simp only [Timestamp.asUtc, hn]
  rfl

/-- What is written for a timestamp without a fraction of a second reads back as what its clock
shows, taken as UTC. -/
theorem read?_write (h : 0 ≤ t.date.year ∧ t.date.year ≤ 9999) (hn : t.time.nano = 0) :
    read? (write t) = some t.asUtc := by
  have hrange : t.asUtc.InRange := Timestamp.inRange_of_year h
  have hwhole : 60 ∣ t.asUtc.ahead := dvd_zero 60
  rw [read?, parts?_write h hn, Option.bind_some]
  exact Timestamp.ofParts?_parts hrange hwhole (by simp [Timestamp.asUtc])

end Ctime
end MailArchive
