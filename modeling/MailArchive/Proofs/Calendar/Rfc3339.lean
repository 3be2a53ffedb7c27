import MailArchive.Calendar.Rfc3339
import MailArchive.Proofs.Calendar.Field
import MailArchive.Proofs.Calendar.Timestamp

/-!
# MailArchive.Proofs.Calendar.Rfc3339

Dates of records read back. The year has a sign only if it has more than four digits or is before
the first one, and is read with it (`signedNumber?_writeYear`); a fraction of a second is written
with as few digits as are exact, and none are lost (`fraction?_writeFraction`). So a date of the
calendar is taken apart into its parts and made up again (`readRelaxed?_writeZulu`), if its clock is
whole minutes ahead of UTC.
-/

namespace MailArchive

open Text

namespace Rfc3339

variable {t : Timestamp} {rest : Text}

/-! ## Pieces -/

/-- A number with a sign is read as far as it goes, up to the hyphen behind it. -/
theorem longNumber?_padded (n : Nat) (rest : Text) :
    Field.longNumber? 1 (padded 4 n ++ '-' :: rest) = some (n, '-' :: rest) := by
  have hpos := List.length_pos_iff.mpr (padded_ne_nil 4 n)
  have hread : Field.longNumber? 1 (padded 4 n ++ '-' :: rest) =
      some (toNat (padded 4 n), '-' :: rest) := by
    refine Field.number?_append (fun _ => isDigit_of_mem_padded) hpos ?_ (.inr (by simp))
    rw [List.length_append]
    omega
  rw [hread, toNat_padded]

theorem signedNumber?_writeYear (year : Int) (rest : Text) :
    Field.signedNumber? 4 (Date.writeYear year ++ '-' :: rest) = some (year, '-' :: rest) := by
  unfold Date.writeYear
  split
  · have hyear : -((year.natAbs : Nat) : Int) = year := by omega
    simp only [List.cons_append, Field.signedNumber?, longNumber?_padded, Option.map_some, hyear]
  · have hyear : ((year.natAbs : Nat) : Int) = year := by omega
    split
    · simp only [List.cons_append, Field.signedNumber?, longNumber?_padded, Option.map_some, hyear]
    · rw [Field.signedNumber?_padded (by decide) (by omega), hyear]

theorem solid_writeYear (year : Int) : Solid (Date.writeYear year) := by
  unfold Date.writeYear
  split
  · exact solid_cons (by decide)
  · split
    · exact solid_cons (by decide)
    · exact solid_padded 4 _

theorem fraction?_writeFraction {nano : Nat} (h : nano < 1000000000)
    (hrest : ∀ c ∈ rest.head?, c.isDigit = false ∧ c ≠ '.') :
    Field.fraction? (writeFraction nano ++ rest) = some (nano, rest) := by
  have hdigit : ∀ c ∈ rest.head?, c.isDigit = false := fun c hc => (hrest c hc).1
  unfold writeFraction
  split
  · rename_i hzero
    rw [hzero, List.nil_append]
    unfold Field.fraction?
    split
    · exact absurd rfl (hrest '.' rfl).2
    · rfl
  · split
    · rename_i hmilli
      have hnano : nano / 1000000 * 10 ^ (9 - 3) = nano := by omega
      rw [List.cons_append, Field.fraction?_padded (by decide) (by decide) (by omega) hdigit, hnano]
    · split
      · rename_i hmicro
        have hnano : nano / 1000 * 10 ^ (9 - 6) = nano := by omega
        rw [List.cons_append, Field.fraction?_padded (by decide) (by decide) (by omega) hdigit,
          hnano]
      · rw [List.cons_append, Field.fraction?_padded (by decide) (by decide) h hdigit]
        simp

/-- The offset as it is written, or `Z`. -/
def zone (t : Timestamp) : Text := if t.ahead = 0 then ['Z'] else Timestamp.writeOffset [':'] t

theorem relaxedZone?_zone (h : 60 ∣ t.ahead) :
    relaxedZone? (trimStart (zone t)) = some (t.offset, []) := by
  unfold zone
  split
  · rename_i hzero
    have hoffset : t.offset = 0 := by
      unfold Timestamp.offset
      simp [hzero]
    rw [hoffset]
    rfl
  · have hcolon : ∀ n, some ((([':'] : Text) ++ padded 2 n).dropWhile
        fun c => c == ':' || isBlank c) = some (padded 2 n) := by
      intro n
      obtain ⟨c, u, hu⟩ := List.exists_cons_of_ne_nil (padded_ne_nil 2 n)
      have hc : c.isDigit = true := isDigit_of_mem_padded (hu ▸ List.mem_cons_self)
      have hne : (c == ':') = false := by
        rw [beq_eq_false_iff_ne]
        rintro rfl
        cases hc
      rw [List.singleton_append, List.dropWhile_cons_of_pos (by simp), hu,
        List.dropWhile_cons_of_neg (by simp [hne, isBlank_of_isDigit hc])]
    have hread : Field.offset? (fun t => some (t.dropWhile fun c => c == ':' || isBlank c))
        (Timestamp.writeOffset [':'] t) = some (t.offset, []) :=
      Field.offset?_writeOffset h hcolon
    rw [← hread]
    unfold Timestamp.writeOffset
    split
    · rw [Solid.trimStart_eq ⟨'-', rfl, rfl⟩]
      rfl
    · rw [Solid.trimStart_eq ⟨'+', rfl, rfl⟩]
      rfl

/-! ## A whole date -/

theorem writeZulu_eq (t : Timestamp) :
    writeZulu t = Date.writeYear t.date.year ++ '-' :: (padded 2 t.date.month ++
      '-' :: (padded 2 t.date.day ++ 'T' :: (padded 2 t.time.hour ++
        ':' :: (padded 2 t.time.minute ++ ':' :: (padded 2 t.time.second ++
          (writeFraction t.time.nano ++ zone t)))))) := by
  unfold writeZulu zone
  split <;>
    simp [write, writeLocal, Date.write, TimeOfDay.write, TimeOfDay.writeMinutes]

/-- What is written for a timestamp is taken apart into its parts but the day of the week. -/
theorem relaxedParts?_writeZulu (hwhole : 60 ∣ t.ahead) :
    relaxedParts? (writeZulu t) = some { t.parts with weekday := none } := by
  have hday := t.date.day_le
  have hmonth := t.date.month_le
  have htime := t.time.exists_time
  have hzone : ∀ c ∈ (zone t).head?, c.isDigit = false ∧ c ≠ '.' := by
    unfold zone Timestamp.writeOffset
    split
    · decide
    · split <;> exact fun c hc => by cases hc; decide
  rw [writeZulu_eq]
  unfold relaxedParts?
  rw [((solid_writeYear _).append _).trimStart_eq]
  refine bind_of_eq_some (signedNumber?_writeYear _ _) ?_
  refine bind_of_eq_some (Field.after?_trimStart (by decide) _) ?_
  refine bind_of_eq_some (Field.number?_trimStart (by omega) _) ?_
  refine bind_of_eq_some (Field.after?_trimStart (by decide) _) ?_
  refine bind_of_eq_some (Field.number?_trimStart (by omega) _) ?_
  refine bind_of_eq_some rfl ?_
  refine bind_of_eq_some (Field.number?_trimStart (by omega) _) ?_
  refine bind_of_eq_some (Field.after?_trimStart (by decide) _) ?_
  refine bind_of_eq_some (Field.number?_trimStart (by omega) _) ?_
  refine bind_of_eq_some (Field.after?_trimStart (by decide) _) ?_
  refine bind_of_eq_some (Field.number?_trimStart htime.2.2.1 _) ?_
  refine bind_of_eq_some (fraction?_writeFraction htime.2.2.2 hzone) ?_
  refine bind_of_eq_some (relaxedZone?_zone hwhole) ?_
  rfl

/-- What is written for a timestamp of the calendar reads back as the timestamp, if its clock is
whole minutes ahead of UTC. -/
theorem readRelaxed?_writeZulu (h : t.InRange) (hwhole : 60 ∣ t.ahead) :
    readRelaxed? (writeZulu t) = some t := by
  rw [readRelaxed?, relaxedParts?_writeZulu hwhole, Option.bind_some]
  exact Timestamp.ofParts?_parts h hwhole (by simp)

end Rfc3339
end MailArchive
