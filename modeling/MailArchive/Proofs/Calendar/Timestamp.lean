import MailArchive.Calendar.Timestamp

/-!
# MailArchive.Proofs.Calendar.Timestamp

Which parts make up a timestamp. A day of the calendar has a month of twelve and at most 31 days in
it, and the years that are written with four digits lie well within the calendar that is read
(`inRange_of_year`). A timestamp of the calendar is had back from its parts if its clock is whole
minutes ahead of UTC (`ofParts?_parts`).
-/

namespace MailArchive

theorem daysInMonth_le (year : Int) (month : Nat) : daysInMonth year month ≤ 31 := by
  unfold daysInMonth
  split
  all_goals first
    | omega
    | split <;> omega

theorem month_of_daysInMonth_pos {year : Int} {month : Nat} (h : 0 < daysInMonth year month) :
    1 ≤ month ∧ month ≤ 12 := by
  unfold daysInMonth at h
  split at h <;> omega

namespace Date

theorem day_le (d : Date) : 1 ≤ d.day ∧ d.day ≤ 31 := by
  have hday := d.exists_day
  have hle := daysInMonth_le d.year d.month
  omega

theorem month_le (d : Date) : 1 ≤ d.month ∧ d.month ≤ 12 := by
  have hday := d.exists_day
  have hpos : 0 < daysInMonth d.year d.month := by omega
  exact month_of_daysInMonth_pos hpos

theorem weekday_lt (d : Date) : d.weekday < 7 := by
  unfold weekday
  omega

theorem of?_parts (d : Date) : of? d.year d.month d.day = some d := dif_pos d.exists_day

theorem dayNumber_bounds {d : Date} (h : 0 ≤ d.year ∧ d.year ≤ 9999) :
    -800000 ≤ d.dayNumber ∧ d.dayNumber ≤ 4000000 := by
  have hday := d.day_le
  have hmonth := d.month_le
  unfold dayNumber
  simp only
  split <;> omega

end Date

namespace TimeOfDay

theorem of?_parts (t : TimeOfDay) : of? t.hour t.minute t.second t.nano = some t :=
  dif_pos t.exists_time

end TimeOfDay

namespace Timestamp

/-- A year of four digits is far from either end of the calendar. -/
theorem inCalendar_of_year {t : Timestamp} (h : 0 ≤ t.date.year ∧ t.date.year ≤ 9999) :
    t.inCalendar = true := by
  have hfirst : (Date.of? firstYear 1 1).map Date.dayNumber = some (-96465292) := by decide
  have hlast : (Date.of? lastYear 12 31).map Date.dayNumber = some 95026236 := by decide
  obtain ⟨first, hf, hfn⟩ := Option.map_eq_some_iff.mp hfirst
  obtain ⟨last, hl, hln⟩ := Option.map_eq_some_iff.mp hlast
  have hday := Date.dayNumber_bounds h
  have htime := t.time.exists_time
  have hahead := t.ahead_lt_day
  simp only [inCalendar, hf, hl, hfn, hln, epochSeconds, TimeOfDay.minutes, Bool.and_eq_true,
    decide_eq_true_eq]
  omega

/-- Nothing is rounded off whole minutes. -/
theorem ahead_eq {t : Timestamp} (h : 60 ∣ t.ahead) : t.ahead = 60 * t.offset := by
  unfold offset
  split <;> omega

theorem offset_lt_day {t : Timestamp} (h : 60 ∣ t.ahead) : t.offset.natAbs < 1440 := by
  have hahead := ahead_eq h
  have hday := t.ahead_lt_day
  omega

/-- The parts of a timestamp, with the day of the week. -/
def parts (t : Timestamp) : Parts where
  weekday := some t.date.weekday
  year := t.date.year
  month := t.date.month
  day := t.date.day
  hour := t.time.hour
  minute := t.time.minute
  second := t.time.second
  nano := t.time.nano
  offset := t.offset

/-- Whether the calendar that is read has a timestamp. -/
structure InRange (t : Timestamp) : Prop where
  year : isYear t.date.year = true
  calendar : t.inCalendar = true

theorem inRange_of_year {t : Timestamp} (h : 0 ≤ t.date.year ∧ t.date.year ≤ 9999) :
    t.InRange where
  year := by
    unfold isYear firstYear lastYear
    rw [Bool.and_eq_true, decide_eq_true_iff, decide_eq_true_iff]
    omega
  calendar := inCalendar_of_year h

/-- The day of the week need not be known. -/
theorem ofParts?_parts {t : Timestamp} {weekday : Option Nat} (h : t.InRange)
    (hwhole : 60 ∣ t.ahead) (hweekday : ∀ i ∈ weekday, i = t.date.weekday) :
    ofParts? { t.parts with weekday } = some t := by
  have hday : weekday.all (· == t.date.weekday) = true :=
    Option.all_eq_true _ _ |>.mpr fun i hi => beq_iff_eq.mpr (hweekday i hi)
  have hcalendar : inCalendar ⟨t.date, t.time, t.ahead, t.ahead_lt_day⟩ = true := h.calendar
  simp [ofParts?, parts, Date.of?_parts, TimeOfDay.of?_parts, ← ahead_eq hwhole, t.ahead_lt_day,
    h.year, hcalendar, hday]

/-- What the clock of a timestamp shows, taken as UTC. -/
def asUtc (t : Timestamp) : Timestamp :=
  { t with ahead := 0, ahead_lt_day := epoch.ahead_lt_day }

theorem offset_asUtc (t : Timestamp) : t.asUtc.offset = 0 := by
  simp [asUtc, offset]

end Timestamp
end MailArchive
