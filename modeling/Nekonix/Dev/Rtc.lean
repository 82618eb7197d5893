import Nekonix.Library.Clock
import Nekonix.Lib.Types

/-!
# The timestamps of `dev/rtc.c`

`get_rtc_timestamp` reads six registers of a clock that goes on ticking.  A tick that
carries into a register that has been read leaves a date that mixes two moments.
-/

namespace Nekonix

/-- What the clock keeps.  Its year register has the last two digits of `year`. -/
structure DateTime where
  year : Nat
  month : Nat
  day : Nat
  hours : Nat
  minutes : Nat
  seconds : Nat
deriving DecidableEq

/-- The clock takes every fourth year for a leap year. -/
def monthDays (year month : Nat) : Nat :=
  if month = 2 then
    if year % 4 = 0 then 29 else 28
  else if month = 4 ∨ month = 6 ∨ month = 9 ∨ month = 11 then
    30
  else
    31

namespace DateTime

/-- A second passes, with all its carries. -/
def tick (date : DateTime) : DateTime :=
  if date.seconds + 1 < 60 then
    { date with seconds := date.seconds + 1 }
  else if date.minutes + 1 < 60 then
    { date with minutes := date.minutes + 1, seconds := 0 }
  else if date.hours + 1 < 24 then
    { date with hours := date.hours + 1, minutes := 0, seconds := 0 }
  else if date.day + 1 ≤ monthDays date.year date.month then
    { date with day := date.day + 1, hours := 0, minutes := 0, seconds := 0 }
  else if date.month + 1 ≤ 12 then
    { year := date.year, month := date.month + 1, day := 1, hours := 0, minutes := 0, seconds := 0 }
  else
    { year := date.year + 1, month := 1, day := 1, hours := 0, minutes := 0, seconds := 0 }

/-- A date of the calendar. -/
structure Valid (date : DateTime) : Prop where
  monthPositive : 1 ≤ date.month
  month : date.month ≤ 12
  dayPositive : 1 ≤ date.day
  day : date.day ≤ monthDays date.year date.month
  hours : date.hours < 24
  minutes : date.minutes < 60
  seconds : date.seconds < 60

/-- The date as a reader of the registers takes it: the year is one from 2000 on. -/
def shown (date : DateTime) : DateTime := { date with year := 2000 + date.year % 100 }

end DateTime

/-! The registers -/

def rtcSeconds : U8 := 0x00#8
def rtcMinutes : U8 := 0x02#8
def rtcHours : U8 := 0x04#8
def rtcDay : U8 := 0x07#8
def rtcMonth : U8 := 0x08#8
def rtcYear : U8 := 0x09#8

/-- A number in a register, in BCD unless bit 2 of the status says binary. -/
def registerValue (status : U8) (value : Nat) : U8 :=
  if status &&& 0x04#8 ≠ 0#8 then
    BitVec.ofNat 8 value
  else
    BitVec.ofNat 8 (value / 10 * 16 + value % 10)

/-- The hours register; bit 1 of the status says 24-hour format, otherwise bit 7 says PM. -/
def hoursValue (status : U8) (hours : Nat) : U8 :=
  if status &&& 0x02#8 ≠ 0#8 then
    registerValue status hours
  else
    let value := registerValue status (if hours % 12 = 0 then 12 else hours % 12)
    if 12 ≤ hours then value ||| 0x80#8 else value

/-- `read_register` -/
def readRegister (status : U8) (date : DateTime) (reg : U8) : U8 :=
  if reg = rtcSeconds then registerValue status date.seconds
  else if reg = rtcMinutes then registerValue status date.minutes
  else if reg = rtcHours then hoursValue status date.hours
  else if reg = rtcDay then registerValue status date.day
  else if reg = rtcMonth then registerValue status date.month
  else if reg = rtcYear then registerValue status (date.year % 100)
  else 0#8

def bcd2bin (bcd : Bool) (inBcd : U8) : U8 :=
  if bcd then (inBcd >>> 4) * 10#8 + (inBcd &&& 0x0F#8) else inBcd

/-- `rtc_init`: `bcd` and the status register. -/
def rtcInit (status : U8) : Bool × U8 :=
  let status := status ||| 0x02#8
  let status := status ||| 0x10#8
  let status := status &&& ~~~0x20#8
  let status := status &&& ~~~0x40#8
  (status &&& 0x04#8 = 0#8, status)

/-- How many ticks come between the reads of `get_rtc_timestamp`. -/
structure Gaps where
  afterYear : Nat
  afterMonth : Nat
  afterDay : Nat
  afterHours : Nat
  afterMinutes : Nat

/-- `get_rtc_timestamp`, begun at `date`. -/
def getRtcTimestamp (bcd : Bool) (status : U8) (date : DateTime) (gaps : Gaps) : U64 :=
  let read := fun (date : DateTime) (reg : U8) =>
    ((bcd2bin bcd (readRegister status date reg)).setWidth 64 : U64)
  let timestamp := 0#64
  let timestamp := timestamp ||| (read date rtcYear + 2000#64) <<< 40
  let date := DateTime.tick^[gaps.afterYear] date
  let timestamp := timestamp ||| read date rtcMonth <<< 32
  let date := DateTime.tick^[gaps.afterMonth] date
  let timestamp := timestamp ||| read date rtcDay <<< 24
  let date := DateTime.tick^[gaps.afterDay] date
  let timestamp := timestamp ||| read date rtcHours <<< 16
  let date := DateTime.tick^[gaps.afterHours] date
  let timestamp := timestamp ||| read date rtcMinutes <<< 8
  let date := DateTime.tick^[gaps.afterMinutes] date
  timestamp ||| read date rtcSeconds

/-- The date and time in a timestamp: a byte for each field, and two for the year. -/
def decodeTimestamp (timestamp : U64) : DateTime where
  year := (timestamp.extractLsb' 40 16).toNat
  month := (timestamp.extractLsb' 32 8).toNat
  day := (timestamp.extractLsb' 24 8).toNat
  hours := (timestamp.extractLsb' 16 8).toNat
  minutes := (timestamp.extractLsb' 8 8).toNat
  seconds := (timestamp.extractLsb' 0 8).toNat

namespace Gaps

/-- How many ticks come before a register is read. -/
def beforeMonth (gaps : Gaps) : Nat := gaps.afterYear
def beforeDay (gaps : Gaps) : Nat := gaps.afterMonth + gaps.beforeMonth
def beforeHours (gaps : Gaps) : Nat := gaps.afterDay + gaps.beforeDay
def beforeMinutes (gaps : Gaps) : Nat := gaps.afterHours + gaps.beforeHours
def beforeSeconds (gaps : Gaps) : Nat := gaps.afterMinutes + gaps.beforeMinutes

end Gaps

/-- Each field from the moment in which its register is read. -/
def mixedDate (start : DateTime) (gaps : Gaps) : DateTime where
  year := start.year
  month := (DateTime.tick^[gaps.beforeMonth] start).month
  day := (DateTime.tick^[gaps.beforeDay] start).day
  hours := (DateTime.tick^[gaps.beforeHours] start).hours
  minutes := (DateTime.tick^[gaps.beforeMinutes] start).minutes
  seconds := (DateTime.tick^[gaps.beforeSeconds] start).seconds

variable {date other start : DateTime} {gaps : Gaps} {status : U8}

/-! The order of dates -/

namespace DateTime

def monthStamp (date : DateTime) : Nat := date.year * 16 + date.month
def dayStamp (date : DateTime) : Nat := date.monthStamp * 32 + date.day
def hoursStamp (date : DateTime) : Nat := date.dayStamp * 24 + date.hours
def minutesStamp (date : DateTime) : Nat := date.hoursStamp * 60 + date.minutes

/-- A number for each date, in the order of the dates. -/
def stamp (date : DateTime) : Nat := date.minutesStamp * 60 + date.seconds

theorem monthDays_bounds (year month : Nat) :
    28 ≤ monthDays year month ∧ monthDays year month ≤ 31 := by
  unfold monthDays
  split_ifs <;> decide

theorem tick_valid (valid : date.Valid) : date.tick.Valid := by
  obtain ⟨monthPositive, month, dayPositive, day, hours, minutes, seconds⟩ := valid
  have day24 : 0 < 24 := by decide
  have hour60 : 0 < 60 := by decide
  unfold tick
  split_ifs with sameMinute sameHour sameDay sameMonth sameYear
  · exact ⟨monthPositive, month, dayPositive, day, hours, minutes, sameMinute⟩
  · exact ⟨monthPositive, month, dayPositive, day, hours, sameHour, hour60⟩
  · exact ⟨monthPositive, month, dayPositive, day, sameDay, hour60, hour60⟩
  · exact ⟨monthPositive, month, Nat.le_add_left .., sameMonth, day24, hour60, hour60⟩
  · have first : 1 ≤ monthDays date.year (date.month + 1) :=
      Nat.le_trans (by decide) (monthDays_bounds _ _).1
    exact ⟨Nat.le_add_left .., sameYear, Nat.le_refl 1, first, day24, hour60, hour60⟩
  · have first : 1 ≤ monthDays (date.year + 1) 1 :=
      Nat.le_trans (by decide) (monthDays_bounds _ _).1
    exact ⟨Nat.le_refl 1, Nat.le_add_left 1 11, Nat.le_refl 1, first, day24, hour60, hour60⟩

theorem tick_later (valid : date.Valid) : date.stamp < date.tick.stamp := by
  obtain ⟨monthPositive, month, dayPositive, day, hours, minutes, seconds⟩ := valid
  have bounds := monthDays_bounds date.year date.month
  unfold tick
  split_ifs <;> simp only [stamp, minutesStamp, hoursStamp, dayStamp, monthStamp] <;> omega

/-- No date lies between a date and the one a second later. -/
theorem tick_next (valid : date.Valid) (otherValid : other.Valid)
    (before : date.stamp < other.stamp) : date.tick.stamp ≤ other.stamp := by
  obtain ⟨monthPositive, month, dayPositive, day, hours, minutes, seconds⟩ := valid
  obtain ⟨monthPositive', month', dayPositive', day', hours', minutes', seconds'⟩ := otherValid
  have bounds := monthDays_bounds date.year date.month
  have bounds' := monthDays_bounds other.year other.month
  simp only [stamp, minutesStamp, hoursStamp, dayStamp, monthStamp] at before ⊢
  unfold tick
  by_cases sameMonth : other.year = date.year ∧ other.month = date.month
  · -- in the same month the other date has no later day than the month
    rw [sameMonth.1, sameMonth.2] at day' before ⊢
    split_ifs <;> dsimp only <;> omega
  · split_ifs <;> dsimp only <;> omega

theorem stamp_injective (valid : date.Valid) (otherValid : other.Valid)
    (same : date.stamp = other.stamp) : date = other := by
  obtain ⟨monthPositive, month, dayPositive, day, hours, minutes, seconds⟩ := valid
  obtain ⟨monthPositive', month', dayPositive', day', hours', minutes', seconds'⟩ := otherValid
  have bounds := monthDays_bounds date.year date.month
  have bounds' := monthDays_bounds other.year other.month
  simp only [stamp, minutesStamp, hoursStamp, dayStamp, monthStamp] at same
  obtain ⟨year, month, day, hours, minutes, seconds⟩ := date
  obtain ⟨year', month', day', hours', minutes', seconds'⟩ := other
  simp only [mk.injEq] at *
  omega

theorem ordered : Clock.Ordered tick Valid stamp where
  valid := fun _ => tick_valid
  later := fun _ => tick_later
  next := fun _ _ => tick_next
  injective := fun _ _ => stamp_injective

end DateTime

/-! What a timestamp holds -/

/-- The fields as `get_rtc_timestamp` puts them together. -/
def packFields (year : U64) (month day hours minutes seconds : U8) : U64 :=
  0#64 ||| year <<< 40 ||| (month.setWidth 64 : U64) <<< 32 ||| (day.setWidth 64 : U64) <<< 24 |||
    (hours.setWidth 64 : U64) <<< 16 ||| (minutes.setWidth 64 : U64) <<< 8 ||| seconds.setWidth 64

/-- A byte goes where nothing has been shifted to. -/
theorem shiftLeft_or_byte (upper shift : Nat) (byte : U8) :
    upper <<< (shift + 8) ||| byte.toNat <<< shift = (upper * 256 + byte.toNat) <<< shift := by
  have apart := Nat.shiftLeft_add_eq_or_of_lt byte.isLt upper
  rw [Nat.add_comm shift, Nat.shiftLeft_add, ← Nat.shiftLeft_or_distrib, ← apart,
    Nat.shiftLeft_eq upper 8]

theorem toNat_shiftLeft_byte (byte : U8) {shift : Nat} (within : shift ≤ 32) :
    ((byte.setWidth 64 : U64) <<< shift).toNat = byte.toNat <<< shift := by
  rw [BitVec.toNat_shiftLeft, BitVec.toNat_setWidth_of_le (by decide), Nat.mod_eq_of_lt]
  calc byte.toNat <<< shift = byte.toNat * 2 ^ shift := Nat.shiftLeft_eq ..
    _ < 2 ^ 8 * 2 ^ 32 := Nat.mul_lt_mul_of_lt_of_le byte.isLt
        (Nat.pow_le_pow_right (by decide) within) (by decide)
    _ < 2 ^ 64 := by decide

theorem toNat_packFields {year : U64} (small : year.toNat < 2 ^ 24)
    (month day hours minutes seconds : U8) :
    (packFields year month day hours minutes seconds).toNat =
      ((((year.toNat * 256 + month.toNat) * 256 + day.toNat) * 256 + hours.toNat) * 256 +
        minutes.toNat) * 256 + seconds.toNat := by
  have yearField : (year <<< 40).toNat = year.toNat <<< 40 := by
    rw [BitVec.toNat_shiftLeft, Nat.mod_eq_of_lt]
    rw [Nat.shiftLeft_eq]
    omega
  have secondsField : (seconds.setWidth 64 : U64).toNat = seconds.toNat <<< 0 := by
    rw [BitVec.toNat_setWidth_of_le (by decide), Nat.shiftLeft_zero]
  unfold packFields
  simp only [BitVec.toNat_or, toNat_shiftLeft_byte _ (by decide : 32 ≤ 32),
    toNat_shiftLeft_byte _ (by decide : 24 ≤ 32), toNat_shiftLeft_byte _ (by decide : 16 ≤ 32),
    toNat_shiftLeft_byte _ (by decide : 8 ≤ 32), yearField, secondsField, BitVec.toNat_ofNat,
    Nat.zero_mod, Nat.zero_or]
  rw [shiftLeft_or_byte _ 32, shiftLeft_or_byte _ 24, shiftLeft_or_byte _ 16,
    shiftLeft_or_byte _ 8, shiftLeft_or_byte _ 0, Nat.shiftLeft_zero]

/-- What is put together comes apart again. -/
theorem decodeTimestamp_packFields {year : U64} (small : year.toNat < 2 ^ 16)
    (month day hours minutes seconds : U8) :
    decodeTimestamp (packFields year month day hours minutes seconds) =
      ⟨year.toNat, month.toNat, day.toNat, hours.toNat, minutes.toNat, seconds.toNat⟩ := by
  have smaller : year.toNat < 2 ^ 24 := by omega
  have whole := toNat_packFields smaller month day hours minutes seconds
  have bounds : month.toNat < 256 ∧ day.toNat < 256 ∧ hours.toNat < 256 ∧ minutes.toNat < 256 ∧
      seconds.toNat < 256 := ⟨month.isLt, day.isLt, hours.isLt, minutes.isLt, seconds.isLt⟩
  simp only [decodeTimestamp, BitVec.extractLsb'_toNat, Nat.shiftRight_eq_div_pow, whole,
    DateTime.mk.injEq]
  omega

/-! What the registers hold after `rtc_init` -/

theorem readRegister_eq (status : U8) :
    (∀ date, readRegister status date rtcYear = registerValue status (date.year % 100)) ∧
    (∀ date, readRegister status date rtcMonth = registerValue status date.month) ∧
    (∀ date, readRegister status date rtcDay = registerValue status date.day) ∧
    (∀ date, readRegister status date rtcHours = hoursValue status date.hours) ∧
    (∀ date, readRegister status date rtcMinutes = registerValue status date.minutes) ∧
    (∀ date, readRegister status date rtcSeconds = registerValue status date.seconds) :=
  ⟨fun _ => rfl, fun _ => rfl, fun _ => rfl, fun _ => rfl, fun _ => rfl, fun _ => rfl⟩

/-- `bcd` says how the registers hold their numbers. -/
theorem bcd2bin_registerValue (status : U8) {value : Nat} (small : value < 100) :
    (bcd2bin (rtcInit status).1 (registerValue (rtcInit status).2 value)).toNat = value := by
  have binary : ∀ number < 100, (BitVec.ofNat 8 number : U8).toNat = number := by decide
  have coded : ∀ number < 100,
      (bcd2bin true (BitVec.ofNat 8 (number / 10 * 16 + number % 10))).toNat = number := by decide
  have isMode : (rtcInit status).1 = decide ((rtcInit status).2 &&& 0x04#8 = 0#8) := rfl
  rw [isMode, registerValue]
  by_cases mode : (rtcInit status).2 &&& 0x04#8 = 0#8
  · rw [decide_eq_true mode, if_neg (not_not.mpr mode)]
    exact coded value small
  · rw [decide_eq_false mode, if_pos mode]
    exact binary value small

/-- The hours are in the 24-hour format. -/
theorem hoursValue_rtcInit (status : U8) (hours : Nat) :
    hoursValue (rtcInit status).2 hours = registerValue (rtcInit status).2 hours := by
  have all : ∀ status : U8, (rtcInit status).2 &&& 0x02#8 ≠ 0#8 := by decide
  exact if_pos (all status)

/-- A timestamp taken after `rtc_init` holds each field from its own moment. -/
theorem decode_getRtcTimestamp (valid : start.Valid) (status : U8) (gaps : Gaps) :
    decodeTimestamp (getRtcTimestamp (rtcInit status).1 (rtcInit status).2 start gaps) =
      (mixedDate start gaps).shown := by
  have field : ∀ value, value < 100 → (bcd2bin (rtcInit status).1
      (registerValue (rtcInit status).2 value)).toNat = value :=
    fun value => bcd2bin_registerValue status
  have later := DateTime.ordered.iterate_valid valid
  have bounds := fun count => DateTime.monthDays_bounds (DateTime.tick^[count] start).year
    (DateTime.tick^[count] start).month
  have yearField : ((bcd2bin (rtcInit status).1 (registerValue (rtcInit status).2
      (start.year % 100))).setWidth 64 + 2000#64 : U64).toNat = 2000 + start.year % 100 := by
    have two := field (start.year % 100) (Nat.mod_lt _ (by decide))
    rw [BitVec.toNat_add, BitVec.toNat_setWidth_of_le (by decide), two, BitVec.toNat_ofNat]
    omega
  have packed : getRtcTimestamp (rtcInit status).1 (rtcInit status).2 start gaps =
      packFields
        ((bcd2bin (rtcInit status).1 (readRegister (rtcInit status).2 start rtcYear)).setWidth 64 +
          2000#64)
        (bcd2bin (rtcInit status).1
          (readRegister (rtcInit status).2 (DateTime.tick^[gaps.beforeMonth] start) rtcMonth))
        (bcd2bin (rtcInit status).1
          (readRegister (rtcInit status).2 (DateTime.tick^[gaps.beforeDay] start) rtcDay))
        (bcd2bin (rtcInit status).1
          (readRegister (rtcInit status).2 (DateTime.tick^[gaps.beforeHours] start) rtcHours))
        (bcd2bin (rtcInit status).1
          (readRegister (rtcInit status).2 (DateTime.tick^[gaps.beforeMinutes] start) rtcMinutes))
        (bcd2bin (rtcInit status).1
          (readRegister (rtcInit status).2 (DateTime.tick^[gaps.beforeSeconds] start)
            rtcSeconds)) := by
    simp only [Gaps.beforeSeconds, Gaps.beforeMinutes, Gaps.beforeHours, Gaps.beforeDay,
      Gaps.beforeMonth, Function.iterate_add_apply]
    rfl
  obtain ⟨readYear, readMonth, readDay, readHours, readMinutes, readSeconds⟩ :=
    readRegister_eq (rtcInit status).2
  rw [packed, readYear, readMonth, readDay, readHours, readMinutes, readSeconds,
    hoursValue_rtcInit, decodeTimestamp_packFields (by rw [yearField]; omega), yearField,
    field _ (by have := (later gaps.beforeMonth).month; omega),
    field _ (by have := (later gaps.beforeDay).day; have := bounds gaps.beforeDay; omega),
    field _ (by have := (later gaps.beforeHours).hours; omega),
    field _ (by have := (later gaps.beforeMinutes).minutes; omega),
    field _ (by have := (later gaps.beforeSeconds).seconds; omega)]
  rfl

/-! Mixed dates -/

namespace DateTime

/-- Dates in order have their stages in order. -/
theorem stamps_mono (valid : date.Valid) (otherValid : other.Valid)
    (before : date.stamp ≤ other.stamp) : date.year ≤ other.year ∧
      date.monthStamp ≤ other.monthStamp ∧ date.dayStamp ≤ other.dayStamp ∧
      date.hoursStamp ≤ other.hoursStamp ∧ date.minutesStamp ≤ other.minutesStamp := by
  obtain ⟨monthPositive, month, dayPositive, day, hours, minutes, seconds⟩ := valid
  obtain ⟨monthPositive', month', dayPositive', day', hours', minutes', seconds'⟩ := otherValid
  have bounds := monthDays_bounds date.year date.month
  have bounds' := monthDays_bounds other.year other.month
  simp only [stamp, minutesStamp, hoursStamp, dayStamp, monthStamp] at *
  omega

end DateTime

/-- A mixed date is never later than the last read. -/
theorem mixedDate_stamp_le (valid : start.Valid) (gaps : Gaps) :
    (mixedDate start gaps).stamp ≤ (DateTime.tick^[gaps.beforeSeconds] start).stamp := by
  have later := DateTime.ordered.iterate_valid valid
  have inOrder : ∀ {earlier count}, earlier ≤ count → _ := fun {earlier count} within =>
    DateTime.stamps_mono (later earlier) (later count) (DateTime.ordered.rank_mono valid within)
  -- each stage of the stamp is reached by the moment in which its last field is read
  have year : start.year ≤ (DateTime.tick^[gaps.beforeMonth] start).year :=
    (inOrder (Nat.zero_le gaps.beforeMonth)).1
  have month : (mixedDate start gaps).monthStamp ≤
      (DateTime.tick^[gaps.beforeDay] start).monthStamp := by
    refine Nat.le_trans ?_ (inOrder (Nat.le_add_left gaps.beforeMonth gaps.afterMonth)).2.1
    simp only [DateTime.monthStamp, mixedDate]
    omega
  have day : (mixedDate start gaps).dayStamp ≤
      (DateTime.tick^[gaps.beforeHours] start).dayStamp := by
    refine Nat.le_trans ?_ (inOrder (Nat.le_add_left gaps.beforeDay gaps.afterDay)).2.2.1
    rw [DateTime.dayStamp, DateTime.dayStamp]
    simp only [mixedDate] at month ⊢
    omega
  have hours : (mixedDate start gaps).hoursStamp ≤
      (DateTime.tick^[gaps.beforeMinutes] start).hoursStamp := by
    refine Nat.le_trans ?_ (inOrder (Nat.le_add_left gaps.beforeHours gaps.afterHours)).2.2.2.1
    rw [DateTime.hoursStamp, DateTime.hoursStamp]
    simp only [mixedDate] at day ⊢
    omega
  have minutes : (mixedDate start gaps).minutesStamp ≤
      (DateTime.tick^[gaps.beforeSeconds] start).minutesStamp := by
    refine Nat.le_trans ?_
      (inOrder (Nat.le_add_left gaps.beforeMinutes gaps.afterMinutes)).2.2.2.2
    rw [DateTime.minutesStamp, DateTime.minutesStamp]
    simp only [mixedDate] at hours ⊢
    omega
  rw [DateTime.stamp, DateTime.stamp]
  simp only [mixedDate] at minutes ⊢
  omega

theorem monthDays_congr {year other : Nat} (same : year % 4 = other % 4) (month : Nat) :
    monthDays year month = monthDays other month := by
  unfold monthDays
  rw [same]

/-- A mixed date is a date if its month has the day. -/
theorem mixedDate_valid (valid : start.Valid) (gaps : Gaps)
    (hasDay : (mixedDate start gaps).day ≤ monthDays start.year (mixedDate start gaps).month) :
    (mixedDate start gaps).Valid := by
  have later := DateTime.ordered.iterate_valid valid
  exact ⟨(later _).monthPositive, (later _).month, (later _).dayPositive, hasDay, (later _).hours,
    (later _).minutes, (later _).seconds⟩

namespace DateTime

/-- The same date a hundred years on. -/
def nextCentury (date : DateTime) : DateTime := { date with year := date.year + 100 }

theorem nextCentury_valid (valid : date.Valid) : date.nextCentury.Valid := by
  obtain ⟨monthPositive, month, dayPositive, day, hours, minutes, seconds⟩ := valid
  have same : (date.year + 100) % 4 = date.year % 4 := by omega
  refine ⟨monthPositive, month, dayPositive, ?_, hours, minutes, seconds⟩
  rw [nextCentury, monthDays_congr same]
  exact day

theorem nextCentury_shown (date : DateTime) : date.nextCentury.shown = date.shown := by
  simp [nextCentury, shown]

/-- What comes a hundred years after a date of this year is later than all of this year. -/
theorem stamp_le_nextCentury (valid : date.Valid) (notEarlier : date.year ≤ other.year) :
    date.stamp ≤ other.nextCentury.stamp := by
  obtain ⟨monthPositive, month, dayPositive, day, hours, minutes, seconds⟩ := valid
  have bounds := monthDays_bounds date.year date.month
  simp only [nextCentury, stamp, minutesStamp, hoursStamp, dayStamp, monthStamp]
  omega

/-- Years that are shown alike are leap years alike. -/
theorem year_mod_of_shown (alike : other.shown = date.shown) : other.year % 4 = date.year % 4 := by
  have years := congrArg year alike
  simp only [shown] at years
  omega

/-- Dates that are shown alike in the order of time are the same or a century apart. -/
theorem eq_or_century_le (alike : other.shown = date.shown) (notEarlier : date.year ≤ other.year) :
    other = date ∨ date.nextCentury.stamp ≤ other.stamp := by
  obtain ⟨year, month, day, hours, minutes, seconds⟩ := date
  obtain ⟨year', month', day', hours', minutes', seconds'⟩ := other
  simp only [shown, mk.injEq, nextCentury, stamp, minutesStamp, hoursStamp, dayStamp, monthStamp]
    at *
  omega

end DateTime

/-- The last second of 2023. -/
def lastSecond : DateTime := ⟨2023, 12, 31, 23, 59, 59⟩

theorem lastSecond_valid : lastSecond.Valid := by
  constructor <;> decide

end Nekonix
