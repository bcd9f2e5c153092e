import Wacs.DumpDate

/-! Dates read back as they were printed: `parseDate` takes the fields for standard time whatever offset
`time_t2string` applied, and does not look at the name of the zone behind them. -/

namespace Wacs

open TextCalendar

/-- No other instant has the local time of `t`. -/
def Zone.Unshared (z : Zone) (t : Int) : Prop := ∀ t', localtime z t' = localtime z t → t' = t

/-- No other instant of the 32-bit range has its text either. -/
theorem Zone.Unshared.text {z : Zone} {t t' : Int} (h : z.Unshared t) (ht : 0 ≤ t ∧ t < 2 ^ 32)
    (ht' : 0 ≤ t' ∧ t' < 2 ^ 32) (heq : timeT2string z t' = timeT2string z t) : t' = t := by
  have hread : ∀ s : Int, 0 ≤ s ∧ s < 2 ^ 32 →
      strptime (timeT2string z s) = some (localtime z s, z.name s) := by
    intro s hs
    obtain ⟨hlo, hhi⟩ := localtime_year z s hs.1 hs.2
    exact strptime_dateText (ofSeconds_inRange _) hlo hhi _
  have hsome := hread t' ht'
  rw [heq, hread t ht] at hsome
  exact h t' (Prod.ext_iff.mp (Option.some.inj hsome)).1.symm

/-- **A printed date is read back exactly where standard time was in force.** -/
theorem parseDate_timeT2string_iff (z : Zone) (t : Int) (h0 : 0 ≤ t) (ht : t < 2 ^ 32) :
    parseDate z (timeT2string z t) = t ↔ z.offset t = z.stdOffset := by
  rw [parseDate_timeT2string z t h0 ht]
  omega

theorem summerZone_names : ∀ name ∈ ([[67, 69, 84], [67, 69, 83, 84]] : List Bytes),
    name.length ≤ 12 ∧ ∀ c ∈ name, 32 < c.toNat ∧ c.toNat < 127 := by
  simp

/-- One hour east of UTC, two hours in the summer of 2019. -/
def summerZone : Zone where
  stdOffset := 3600
  dstOffset := 7200
  inDst t := decide (1553994000 ≤ t ∧ t < 1572138000)
  stdName := [67, 69, 84]
  dstName := [67, 69, 83, 84]
  offset_lt := by decide
  name_graph := summerZone_names

theorem parseDate_timeT2string_winter : parseDate summerZone (timeT2string summerZone 1548916195) = 1548916195 :=
  (parseDate_timeT2string_iff summerZone 1548916195 (by decide) (by decide)).mpr (by decide)

theorem summerZone_offset (t : Int) :
    summerZone.offset t = if 1553994000 ≤ t ∧ t < 1572138000 then 7200 else 3600 := by
  simp only [Zone.offset, summerZone, decide_eq_true_eq]

/-- A noon of that July is the local time of one instant only. -/
theorem summerZone_unshared : summerZone.Unshared 1561975200 := by
  intro t heq
  have hsec : t + summerZone.offset t = 1561975200 + summerZone.offset 1561975200 := by
    have h := congrArg toSeconds heq
    rwa [localtime, localtime, toSeconds_ofSeconds, toSeconds_ofSeconds] at h
  rw [summerZone_offset, summerZone_offset] at hsec
  split_ifs at hsec <;> omega

theorem parseDate_timeT2string_summer : ¬∀ (z : Zone) (t : Int), 0 ≤ t → t < 2 ^ 32 → z.Unshared t →
    parseDate z (timeT2string z t) = t := by
  intro h
  have hsame := h summerZone 1561975200 (by decide) (by decide) summerZone_unshared
  rw [parseDate_timeT2string summerZone _ (by decide) (by decide), summerZone_offset] at hsame
  exact absurd hsame (by decide)

end Wacs
