import MailArchive.Calendar.Reading
import MailArchive.Proofs.Calendar.Field
import MailArchive.Proofs.Calendar.Timestamp
import MailArchive.Proofs.Text.Trim

/-!
# MailArchive.Proofs.Calendar.Rfc2822

Dates of mail headers read back. Each piece is read off the front of what is written for it and what
follows (`zone?_writeOffset` for the offset at the end), so the whole is taken apart into the parts
of the timestamp (`parts?_write?`), which make it up again (`read?_write?`).
-/

namespace MailArchive

open Text

namespace Rfc2822

variable {t : Timestamp} {rest : Text}

/-! ## Pieces -/

theorem dayName?_weekdayName (d : Date) (rest : Text) :
    dayName? (d.weekdayName ++ ',' :: rest) = some (some d.weekday, rest) := by
  rw [dayName?, Field.name?_weekdayName]
  rfl

theorem seconds?_padded {n : Nat} (h : n ≤ 60) (rest : Text) :
    seconds? (':' :: (padded 2 n ++ rest)) = some (n, rest) := by
  have hcolon : Solid (':' :: (padded 2 n ++ rest)) := solid_cons (by decide)
  rw [seconds?, hcolon.trimStart_eq]
  exact Field.twoDigits h rest

theorem zone?_writeOffset (h : 60 ∣ t.ahead) :
    zone? (Timestamp.writeOffset [] t) = some (t.offset, []) := by
  have hread : Field.offset? some (Timestamp.writeOffset [] t) = some (t.offset, []) :=
    Field.offset?_writeOffset h fun _ => rfl
  rw [← hread]
  unfold Timestamp.writeOffset
  split <;> rfl

theorem longNumber?_padded {n : Nat} (h : n < 10000) (rest : Text) :
    Field.longNumber? 2 (padded 4 n ++ ' ' :: rest) = some (n, ' ' :: rest) := by
  have hlen : (padded 4 n).length = 4 := length_padded (by decide) h
  have hread : Field.longNumber? 2 (padded 4 n ++ ' ' :: rest) =
      some (toNat (padded 4 n), ' ' :: rest) := by
    refine Field.number?_append (fun _ => isDigit_of_mem_padded) (by omega) ?_ (.inr (by simp))
    rw [List.length_append]
    omega
  rw [hread, toNat_padded]

theorem number?_ofNat {n : Nat} (h : n ≤ 31) (rest : Text) :
    Field.number? 1 2 (trimStart (' ' :: (ofNat n ++ ' ' :: rest))) = some (n, ' ' :: rest) := by
  have hlen : (ofNat n).length ≤ 2 := length_ofNat_le (by decide) (by omega)
  have hpos : 1 ≤ (ofNat n).length := Nat.length_toDigits_pos
  have hread : Field.number? 1 2 (ofNat n ++ ' ' :: rest) = some (toNat (ofNat n), ' ' :: rest) :=
    Field.number?_append (fun _ => isDigit_of_mem_ofNat) hpos hlen (.inr (by simp))
  rw [((solid_ofNat n).append _).trimStart_space, hread, toNat_ofNat]

/-! ## A whole date -/

theorem write?_eq_some_iff {text : Text} :
    write? t = some text ↔ (0 ≤ t.date.year ∧ t.date.year ≤ 9999) ∧
      text = t.date.weekdayName ++ ',' :: ' ' :: (ofNat t.date.day ++ ' ' :: (t.date.monthName ++
        ' ' :: (padded 4 t.date.year.natAbs ++ ' ' :: (padded 2 t.time.hour ++
          ':' :: (padded 2 t.time.minute ++ ':' :: (padded 2 t.time.second ++
            ' ' :: Timestamp.writeOffset [] t)))))) := by
  unfold write?
  split
  · rename_i h
    simp [h, TimeOfDay.write, TimeOfDay.writeMinutes, eq_comm]
  · rename_i h
    simp [h]

theorem isDateChar_of_mem_write? {text : Text} (h : write? t = some text) :
    ∀ c ∈ text, isDateChar c = true := by
  obtain ⟨_, rfl⟩ := write?_eq_some_iff.mp h
  have hsign : ∀ c ∈ Timestamp.writeOffset [] t, isDateChar c = true := by
    unfold Timestamp.writeOffset
    simp only [List.forall_mem_append, List.forall_mem_cons]
    refine ⟨⟨⟨?_, isDateChar_of_mem_padded _ _⟩, by simp⟩, isDateChar_of_mem_padded _ _⟩
    split <;> decide
  simp only [List.forall_mem_append, List.forall_mem_cons]
  exact ⟨t.date.isDateChar_of_mem_weekdayName, by decide, by decide, isDateChar_of_mem_ofNat _,
    by decide, t.date.isDateChar_of_mem_monthName, by decide, isDateChar_of_mem_padded _ _,
    by decide, isDateChar_of_mem_padded _ _, by decide, isDateChar_of_mem_padded _ _, by decide,
    isDateChar_of_mem_padded _ _, by decide, hsign⟩

/-- A date begins with a letter and ends with a digit. -/
theorem trim_write? {text : Text} (h : write? t = some text) : trim text = text := by
  unfold write? Timestamp.writeOffset at h
  split at h
  · cases h
    rw [← List.append_assoc]
    refine trim_append_padded ?_ _ _
    simp only [List.append_assoc]
    exact t.date.solid_weekdayName.append _
  · cases h

/-- What is written for a timestamp is taken apart into its parts. -/
theorem parts?_write? {text : Text} (h : write? t = some text) (hwhole : 60 ∣ t.ahead)
    (hn : t.time.nano = 0) : parts? text = some t.parts := by
  obtain ⟨hyear, rfl⟩ := write?_eq_some_iff.mp h
  have hmonth := t.date.month_le
  have htime := t.time.exists_time
  have hsign : Solid (Timestamp.writeOffset [] t) := by
    unfold Timestamp.writeOffset
    split <;> exact solid_cons (by decide)
  have hminute (rest : Text) : Field.number? 2 2 (trimStart (padded 2 t.time.minute ++ rest)) =
      some (t.time.minute, rest) := by
    rw [((solid_padded _ _).append _).trimStart_eq, Field.twoDigits (by omega)]
  unfold parts?
  rw [(t.date.solid_weekdayName.append _).trimStart_eq]
  refine bind_of_eq_some (dayName?_weekdayName _ _) ?_
  refine bind_of_eq_some (number?_ofNat t.date.day_le.2 _) ?_
  refine bind_of_eq_some (Field.afterBlanks?_space (t.date.solid_monthName.append _)) ?_
  refine bind_of_eq_some (Field.name?_monthName _ _) ?_
  refine bind_of_eq_some (Field.afterBlanks?_space ((solid_padded _ _).append _)) ?_
  refine bind_of_eq_some (longNumber?_padded (by omega) _) ?_
  refine bind_of_eq_some (Field.afterBlanks?_space ((solid_padded _ _).append _)) ?_
  refine bind_of_eq_some (Field.twoDigits (by omega) _) ?_
  refine bind_of_eq_some (Field.after?_trimStart (by decide) _) ?_
  refine bind_of_eq_some (hminute _) ?_
  refine bind_of_eq_some (seconds?_padded htime.2.2.1 _) ?_
  refine bind_of_eq_some (Field.afterBlanks?_space hsign) ?_
  refine bind_of_eq_some (zone?_writeOffset hwhole) ?_
  have hlen (n : Nat) (rest : Text) :
      (padded 4 n ++ ' ' :: rest).length - (' ' :: rest).length = (padded 4 n).length := by
    rw [List.length_append, Nat.add_sub_cancel]
  simp only [hlen]
  rw [length_padded (by decide) (by omega : t.date.year.natAbs < 10 ^ 4)]
  have hyear' : ((t.date.year.natAbs : Nat) : Int) = t.date.year := by omega
  have hmonth' : t.date.month - 1 + 1 = t.date.month := by omega
  have hfull : fullYear 4 t.date.year.natAbs = t.date.year.natAbs := rfl
  rw [hfull, hyear', hmonth', Timestamp.parts, hn]
  rfl

/-- What is written for a timestamp reads back as the timestamp, if its clock is whole minutes ahead
of UTC and shows no fraction of a second. -/
theorem read?_write? {text : Text} (h : write? t = some text) (hwhole : 60 ∣ t.ahead)
    (hn : t.time.nano = 0) : read? text = some t := by
  have hrange := Timestamp.inRange_of_year (write?_eq_some_iff.mp h).1
  rw [read?, parts?_write? h hwhole hn, Option.bind_some]
  exact Timestamp.ofParts?_parts hrange hwhole (by simp)

/-- The first reader of dates that is tried takes what is written for a mail header. -/
theorem timestamp_read?_write? {text : Text} (h : write? t = some text) (hwhole : 60 ∣ t.ahead)
    (hn : t.time.nano = 0) : Timestamp.read? text = some t := by
  unfold Timestamp.read? Timestamp.readers
  rw [trim_write? h, List.findSome?_cons, read?_write? h hwhole hn]

end Rfc2822
end MailArchive
