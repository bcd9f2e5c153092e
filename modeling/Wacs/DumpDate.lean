import Wacs.Layout
import Wacs.TextCalendar
import Wacs.TextScan

/-! `utilstring.cpp`: times printed as local dates, and dates read. -/

namespace Wacs

open TextNumeral TextScan TextCalendar

/-- A local time zone: a standard offset east of UTC, in seconds, and another one for the instants of
daylight saving, each with its name, which `strftime` has to fit into `dt[32]` after the date. -/
structure Zone where
  stdOffset : Int
  dstOffset : Int
  inDst : Int → Bool
  stdName : Bytes
  dstName : Bytes
  offset_lt : stdOffset.natAbs < 90000 ∧ dstOffset.natAbs < 90000
  name_graph : ∀ name ∈ [stdName, dstName], name.length ≤ 12 ∧ ∀ c ∈ name, 32 < c.toNat ∧ c.toNat < 127

namespace Zone

def offset (z : Zone) (t : Int) : Int := if z.inDst t then z.dstOffset else z.stdOffset

def name (z : Zone) (t : Int) : Bytes := if z.inDst t then z.dstName else z.stdName

end Zone

def localtime (z : Zone) (t : Int) : DateTime := ofSeconds (t + z.offset t)

/-- `mktime` of a `struct tm` whose `tm_isdst` is zero: the fields are a standard time. -/
def mktime (z : Zone) (tmd : DateTime) : Int := toSeconds tmd - z.stdOffset

/-- `strftime` with `%FT%T`, for the years 0 to 9999. -/
def dateText (tm : DateTime) : Bytes :=
  numeral 10 4 tm.year.toNat ++ [45] ++ numeral 10 2 (tm.mon + 1) ++ [45] ++ numeral 10 2 tm.mday ++ [84] ++
    numeral 10 2 tm.hour ++ [58] ++ numeral 10 2 tm.min ++ [58] ++ numeral 10 2 tm.sec

/-- `time_t2string`: the format `%FT%T%Z`. -/
def timeT2string (z : Zone) (t : Int) : Bytes := dateText (localtime z t) ++ z.name t

/-- `strptime` with the format `%FT%T`. -/
def strptime (v : Bytes) : Option (DateTime × Bytes) := do
  let (year, v) ← getNumber 0 9999 4 v
  let v ← matchChar 45 v
  let (mon, v) ← getNumber 1 12 2 v
  let v ← matchChar 45 v
  let (mday, v) ← getNumber 1 31 2 v
  let v ← matchChar 84 v
  let (hour, v) ← getNumber 0 23 2 v
  let v ← matchChar 58 v
  let (min, v) ← getNumber 0 59 2 v
  let v ← matchChar 58 v
  let (sec, v) ← getNumber 0 61 2 v
  return (⟨year, mon - 1, mday, hour, min, sec⟩, v)

/-- Unix epoch time, or a date, which is taken in standard time; what follows the date is ignored. -/
def parseDate (z : Zone) (v : Bytes) : Int :=
  match strptime v with
  | none => strtol v
  | some (tmd, _) => mktime z tmd

/-! ### Reading what is printed -/

theorem strptime_dateText {tm : DateTime} (h : tm.InRange) (hlo : 0 ≤ tm.year) (hhi : tm.year ≤ 9999)
    (rest : Bytes) : strptime (dateText tm ++ rest) = some (tm, rest) := by
  obtain ⟨hmon, ⟨hmday, hmday'⟩, hhour, hmin, hsec⟩ := h
  have hyear : (tm.year.toNat : Int) = tm.year := Int.toNat_of_nonneg hlo
  have hread : ∀ {lo hi n : Nat} (tail : Bytes), lo ≤ n → n ≤ hi → n < 10 ^ 2 →
      getNumber lo hi 2 (numeral 10 2 n ++ tail) = some (n, tail) :=
    fun tail hlo hhi hlt => getNumber_numeral (by decide) hlt hlo hhi tail
  have hfirst : ∀ tail, getNumber 0 9999 4 (numeral 10 4 tm.year.toNat ++ tail) = some (tm.year.toNat, tail) :=
    fun tail => getNumber_numeral (by decide) (by omega) (Nat.zero_le _) (by omega) tail
  have hmatch : ∀ (c : UInt8) tail, matchChar c (c :: tail) = some tail := fun c tail => if_pos rfl
  unfold strptime dateText
  simp only [List.append_assoc, List.cons_append, List.nil_append, hfirst, hmatch, Option.bind_eq_bind,
    Option.bind_some]
  rw [hread _ (by omega) (by omega) (by omega), Option.bind_some, hmatch, Option.bind_some,
    hread _ hmday hmday' (by omega), Option.bind_some, hmatch, Option.bind_some,
    hread _ (Nat.zero_le _) hhour (by omega), Option.bind_some, hmatch, Option.bind_some,
    hread _ (Nat.zero_le _) hmin (by omega), Option.bind_some, hmatch, Option.bind_some,
    hread _ (Nat.zero_le _) (hsec.trans (by decide)) (by omega), Option.bind_some]
  simp only [hyear, Nat.add_sub_cancel]
  rfl

section Zone

variable (z : Zone) (t : Int) (h0 : 0 ≤ t) (ht : t < 2 ^ 32)
include h0 ht

theorem localtime_year : 0 ≤ (localtime z t).year ∧ (localtime z t).year ≤ 9999 := by
  obtain ⟨hstd, hdst⟩ := z.offset_lt
  have hoffset : (z.offset t).natAbs < 90000 := by
    unfold Zone.offset
    split_ifs
    · exact hdst
    · exact hstd
  obtain ⟨hlo, hhi⟩ := ofSeconds_year (t + z.offset t) (by omega) (by omega)
  exact ⟨Int.le_trans (by decide) hlo, hhi⟩

/-- A date printed is read with the offset of standard time. -/
theorem parseDate_timeT2string : parseDate z (timeT2string z t) = t + z.offset t - z.stdOffset := by
  obtain ⟨hlo, hhi⟩ := localtime_year z t h0 ht
  have hread : strptime (timeT2string z t) = some (localtime z t, z.name t) :=
    strptime_dateText (ofSeconds_inRange _) hlo hhi _
  calc parseDate z (timeT2string z t) = mktime z (localtime z t) := by rw [parseDate, hread]
    _ = toSeconds (ofSeconds (t + z.offset t)) - z.stdOffset := rfl
    _ = t + z.offset t - z.stdOffset := by rw [toSeconds_ofSeconds]

end Zone

theorem dateText_graph {tm : DateTime} {c : UInt8} (h : c ∈ dateText tm) : 32 < c.toNat := by
  have hdigit : ∀ {w n : Nat}, c ∈ numeral 10 w n → 32 < c.toNat := by
    intro w n hc
    have := decimal_range hc
    omega
  simp only [dateText, List.mem_append, List.mem_singleton] at h
  rcases h with ((((((((((h | rfl) | h) | rfl) | h) | rfl) | h) | rfl) | h) | rfl) | h)
  all_goals first | exact hdigit h | decide

/-- A date printed has neither white space nor a zero byte. -/
theorem timeT2string_graph (z : Zone) (t : Int) {c : UInt8} (h : c ∈ timeT2string z t) : 32 < c.toNat := by
  rcases List.mem_append.mp h with h | h
  · exact dateText_graph h
  · unfold Zone.name at h
    split_ifs at h
    · exact ((z.name_graph z.dstName (by simp)).2 c h).1
    · exact ((z.name_graph z.stdName (by simp)).2 c h).1

theorem timeT2string_ne_nil (z : Zone) (t : Int) : timeT2string z t ≠ [] := by
  intro h
  have hyear := numeral_ne_nil 10 (localtime z t).year.toNat (w := 4) (by decide)
  simp only [timeT2string, dateText, List.append_eq_nil_iff] at h
  tauto

end Wacs
