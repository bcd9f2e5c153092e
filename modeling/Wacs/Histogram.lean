import Wacs.OrderedTally
import Wacs.PagedListing

/-! `histogrammacspertime.cpp`: observations counted in buckets of so many seconds. The number of a bucket is
narrowed to an `int`, and multiplied back as one. -/

namespace Wacs

open TextNumeral OrderedMap

/-- A histogram under construction. -/
structure HistogramMacsPerTime where
  step : Int
  start : Int
  finish : Int
  histogram : OrderedMap Int Nat
  step_pos : 0 < step

namespace HistogramMacsPerTime

/-- A step of one at least. -/
def stepOf (astep : Int) : Int := if astep > 0 then astep else 1

theorem stepOf_pos (astep : Int) : 0 < stepOf astep := by
  unfold stepOf
  split_ifs <;> omega

def make (astart afinish astep : Int) : HistogramMacsPerTime :=
  ⟨stepOf astep, astart, afinish, empty, stepOf_pos astep⟩

/-- The number of the bucket of a time, before it is narrowed. -/
def quotient (h : HistogramMacsPerTime) (t : Int) : Int := (t - h.start).tdiv h.step

def put (h : HistogramMacsPerTime) (t : Int) (_sa : Mac) : HistogramMacsPerTime :=
  if t < h.start ∨ t > h.finish then h
  else { h with histogram := h.histogram.count (int32 (h.quotient t)) }

/-- What is printed of the buckets: their times and counts, in order. -/
def buckets (h : HistogramMacsPerTime) : List (Int × Nat) :=
  h.histogram.entries.map fun it => (h.start + int32 (it.1 * h.step), it.2)

def toString (z : Zone) (h : HistogramMacsPerTime) : Bytes :=
  h.buckets.flatMap fun b => timeT2string z b.1 ++ [9] ++ decimal b.2 ++ [10]

/-- `{"t":.., "c":..},` -/
def bucketText (b : Int × Nat) : Bytes :=
  [123, 34, 116, 34, 58] ++ decimal b.1 ++ [44, 32, 34, 99, 34, 58] ++ decimal b.2 ++ [125, 44]

def toJSON (h : HistogramMacsPerTime) : Bytes := Http.response (h.buckets.flatMap bucketText)

/-- Some calls of `put`. -/
def putAll (h : HistogramMacsPerTime) (puts : List (UInt32 × Mac)) : HistogramMacsPerTime :=
  puts.foldl (fun h p => h.put p.1.toNat p.2) h

/-- The times that are counted. -/
def counted (start finish : Int) (puts : List (UInt32 × Mac)) : List Int :=
  (puts.map fun p => (p.1.toNat : Int)).filter fun t => decide (start ≤ t ∧ t ≤ finish)

/-- A time in range adds to the bucket of its narrowed number, any other time does nothing. -/
theorem putAll_make (start finish astep : Int) (puts : List (UInt32 × Mac)) :
    (make start finish astep).putAll puts = { make start finish astep with
      histogram := tally ((counted start finish puts).map fun t => int32 ((make start finish astep).quotient t)) } := by
  induction puts using List.reverseRecOn with
  | nil => rfl
  | append_singleton puts p ih =>
      have hcounted : counted start finish (puts ++ [p]) = counted start finish puts ++
          if start ≤ (p.1.toNat : Int) ∧ (p.1.toNat : Int) ≤ finish then [(p.1.toNat : Int)] else [] := by
        rw [counted, List.map_append, List.filter_append, ← counted, List.map_singleton, List.filter_cons,
          List.filter_nil]
        simp only [decide_eq_true_eq]
      rw [putAll, List.foldl_concat, ← putAll, ih, hcounted, put]
      by_cases hp : start ≤ (p.1.toNat : Int) ∧ (p.1.toNat : Int) ≤ finish
      · have hnot : ¬((p.1.toNat : Int) < start ∨ (p.1.toNat : Int) > finish) := by omega
        rw [if_pos hp, List.map_append, List.map_singleton, tally_concat]
        exact if_neg hnot
      · have hout : (p.1.toNat : Int) < start ∨ (p.1.toNat : Int) > finish := by omega
        rw [if_neg hp, List.append_nil]
        exact if_pos hout

/-! ### Buckets of seconds -/

theorem mem_counted {start finish t : Int} {puts : List (UInt32 × Mac)} : t ∈ counted start finish puts ↔
    (∃ p ∈ puts, (p.1.toNat : Int) = t) ∧ start ≤ t ∧ t ≤ finish := by
  rw [counted, List.mem_filter, List.mem_map, decide_eq_true_eq]

/-- A bucket is the times from its first one on. -/
theorem ediv_eq_iff_range {a step : Int} (hstep : 0 < step) (i : Int) :
    a / step = i ↔ i * step ≤ a ∧ a < i * step + step := by
  have hnext : i * step + step = (i + 1) * step := by ring
  rw [hnext, ← Int.le_ediv_iff_mul_le hstep, ← Int.ediv_lt_iff_lt_mul hstep]
  omega

/-- The buckets are right for some calls of `put` on a new histogram: nothing is narrowed or runs over, the times
printed go up in steps, every time in range has its bucket among them, and a count is that of the times in range from
its bucket's time on. -/
structure BucketsRight (start finish astep : Int) (puts : List (UInt32 × Mac)) : Prop where
  narrowing : ∀ p ∈ puts, start ≤ (p.1.toNat : Int) → (p.1.toNat : Int) ≤ finish →
    int32 ((make start finish astep).quotient p.1.toNat) = (make start finish astep).quotient p.1.toNat
  product : ∀ it ∈ ((make start finish astep).putAll puts).histogram.entries,
    int32 (it.1 * stepOf astep) = it.1 * stepOf astep
  increasing : (((make start finish astep).putAll puts).buckets.map Prod.fst).Pairwise (· < ·)
  form : ∀ b ∈ ((make start finish astep).putAll puts).buckets, ∃ i, 0 ≤ i ∧ b.1 = start + i * stepOf astep
  complete : ∀ p ∈ puts, start ≤ (p.1.toNat : Int) → (p.1.toNat : Int) ≤ finish →
    ∃ b ∈ ((make start finish astep).putAll puts).buckets, b.1 ≤ (p.1.toNat : Int) ∧
      (p.1.toNat : Int) < b.1 + stepOf astep
  count : ∀ b ∈ ((make start finish astep).putAll puts).buckets,
    b.2 = (puts.filter fun p => decide ((start ≤ (p.1.toNat : Int) ∧ (p.1.toNat : Int) ≤ finish) ∧
      b.1 ≤ (p.1.toNat : Int) ∧ (p.1.toNat : Int) < b.1 + stepOf astep)).length

/-- The first second of every bucket in use is less than `2 ^ 31` after the start. -/
def Fits (start finish astep : Int) (puts : List (UInt32 × Mac)) : Prop :=
  ∀ p ∈ puts, start ≤ (p.1.toNat : Int) → (p.1.toNat : Int) ≤ finish →
    ((p.1.toNat : Int) - start) / stepOf astep * stepOf astep < 2 ^ 31

section Fits

variable {start finish astep : Int} {puts : List (UInt32 × Mac)}

theorem quotient_eq {t : Int} (ht : start ≤ t) :
    (make start finish astep).quotient t = (t - start) / stepOf astep :=
  Int.tdiv_eq_ediv_of_nonneg (Int.sub_nonneg_of_le ht)

theorem quotient_nonneg {t : Int} (ht : start ≤ t) : 0 ≤ (t - start) / stepOf astep :=
  Int.ediv_nonneg (Int.sub_nonneg_of_le ht) (stepOf_pos astep).le

/-- A bucket in use is that of a time counted. -/
theorem mem_histogram (i : Int) (n : Nat) :
    (i, n) ∈ ((make start finish astep).putAll puts).histogram.entries ↔
      n = ((counted start finish puts).map fun t => int32 ((make start finish astep).quotient t)).count i ∧
        ∃ t ∈ counted start finish puts, int32 ((make start finish astep).quotient t) = i := by
  rw [putAll_make, mem_tally, List.mem_map]

variable (hfits : Fits start finish astep puts)
include hfits

/-- Within the bound a bucket's number is its quotient, and its time that many steps after the start. -/
theorem quotient_fits {t : Int} (ht : t ∈ counted start finish puts) :
    int32 ((make start finish astep).quotient t) = (t - start) / stepOf astep ∧
      int32 ((t - start) / stepOf astep * stepOf astep) = (t - start) / stepOf astep * stepOf astep := by
  obtain ⟨⟨p, hp, rfl⟩, hlo, hhi⟩ := mem_counted.mp ht
  have hlt := hfits p hp hlo hhi
  have hnonneg : 0 ≤ ((p.1.toNat : Int) - start) / stepOf astep := quotient_nonneg hlo
  have hle : ((p.1.toNat : Int) - start) / stepOf astep ≤ ((p.1.toNat : Int) - start) / stepOf astep * stepOf astep :=
    le_mul_of_one_le_right hnonneg (stepOf_pos astep)
  rw [quotient_eq hlo, int32_eq_iff, int32_eq_iff]
  omega

theorem mem_histogram_of_fits {it : Int × Nat}
    (hit : it ∈ ((make start finish astep).putAll puts).histogram.entries) :
    0 ≤ it.1 ∧ int32 (it.1 * stepOf astep) = it.1 * stepOf astep := by
  obtain ⟨-, t, ht, hi⟩ := (mem_histogram it.1 it.2).mp hit
  obtain ⟨hindex, hproduct⟩ := quotient_fits hfits ht
  obtain ⟨-, hlo, -⟩ := mem_counted.mp ht
  rw [hindex] at hi
  rw [← hi]
  exact ⟨quotient_nonneg hlo, hproduct⟩

theorem buckets_of_fits : ((make start finish astep).putAll puts).buckets =
    ((make start finish astep).putAll puts).histogram.entries.map fun it =>
      (start + it.1 * stepOf astep, it.2) := by
  apply List.map_congr_left
  intro it hit
  have hstart : ((make start finish astep).putAll puts).start = start := by rw [putAll_make]; rfl
  have hstep : ((make start finish astep).putAll puts).step = stepOf astep := by rw [putAll_make]; rfl
  rw [hstart, hstep, (mem_histogram_of_fits hfits hit).2]

/-- A time in range is in the bucket of its quotient. -/
theorem exists_bucket {t : Int} (ht : t ∈ counted start finish puts) :
    ∃ b ∈ ((make start finish astep).putAll puts).buckets, b.1 ≤ t ∧ t < b.1 + stepOf astep := by
  have hit := (mem_histogram _ _).mpr ⟨rfl, t, ht, (quotient_fits hfits ht).1⟩
  have hrange := (ediv_eq_iff_range (a := t - start) (stepOf_pos astep) _).mp rfl
  rw [buckets_of_fits hfits]
  exact ⟨_, List.mem_map_of_mem hit, by dsimp only; omega, by dsimp only; omega⟩

theorem count_of_fits {it : Int × Nat} (hit : it ∈ ((make start finish astep).putAll puts).histogram.entries) :
    it.2 = (puts.filter fun p => decide ((start ≤ (p.1.toNat : Int) ∧ (p.1.toNat : Int) ≤ finish) ∧
      start + it.1 * stepOf astep ≤ (p.1.toNat : Int) ∧
        (p.1.toNat : Int) < start + it.1 * stepOf astep + stepOf astep)).length := by
  have hkeys : (counted start finish puts).map (fun t => int32 ((make start finish astep).quotient t)) =
      (counted start finish puts).map fun t => (t - start) / stepOf astep :=
    List.map_congr_left fun t ht => (quotient_fits hfits ht).1
  calc it.2
      = ((counted start finish puts).map fun t => (t - start) / stepOf astep).count it.1 := by
        rw [((mem_histogram it.1 it.2).mp hit).1, hkeys]
    _ = ((counted start finish puts).filter fun t => (t - start) / stepOf astep == it.1).length := by
        rw [List.count_eq_length_filter, List.filter_map, List.length_map]
        rfl
    _ = (puts.filter fun p => decide ((start ≤ (p.1.toNat : Int) ∧ (p.1.toNat : Int) ≤ finish) ∧
          start + it.1 * stepOf astep ≤ (p.1.toNat : Int) ∧
            (p.1.toNat : Int) < start + it.1 * stepOf astep + stepOf astep)).length := by
        rw [counted, List.filter_filter, List.filter_map, List.length_map]
        congr 1
        apply List.filter_congr
        intro p _
        have hrange := ediv_eq_iff_range (a := (p.1.toNat : Int) - start) (stepOf_pos astep) it.1
        simp only [Function.comp_apply]
        rw [Bool.eq_iff_iff, Bool.and_eq_true, beq_iff_eq, decide_eq_true_eq, decide_eq_true_eq, hrange]
        omega

end Fits

/-- The buckets are right exactly when all those in use begin less than `2 ^ 31` seconds after the start. -/
theorem bucketsRight_iff (start finish astep : Int) (puts : List (UInt32 × Mac)) :
    BucketsRight start finish astep puts ↔ Fits start finish astep puts := by
  constructor
  · intro h p hp hlo hhi
    have ht : (p.1.toNat : Int) ∈ counted start finish puts := mem_counted.mpr ⟨⟨p, hp, rfl⟩, hlo, hhi⟩
    have hindex := h.narrowing p hp hlo hhi
    have hproduct := h.product _ ((mem_histogram _ _).mpr ⟨rfl, _, ht, hindex⟩)
    rw [quotient_eq hlo] at hproduct
    exact ((int32_eq_iff _).mp hproduct).2
  · intro hfits
    refine ⟨?_, ?_, ?_, ?_, ?_, ?_⟩
    · intro p hp hlo hhi
      rw [(quotient_fits hfits (mem_counted.mpr ⟨⟨p, hp, rfl⟩, hlo, hhi⟩)).1, quotient_eq hlo]
    · exact fun it hit => (mem_histogram_of_fits hfits hit).2
    · rw [buckets_of_fits hfits, List.map_map, List.pairwise_map]
      refine ((make start finish astep).putAll puts).histogram.sorted.imp fun {a b} hlt => ?_
      have hmul := mul_lt_mul_of_pos_right hlt (stepOf_pos astep)
      exact Int.add_lt_add_left hmul start
    · intro b hb
      rw [buckets_of_fits hfits] at hb
      obtain ⟨it, hit, rfl⟩ := List.mem_map.mp hb
      exact ⟨it.1, (mem_histogram_of_fits hfits hit).1, rfl⟩
    · exact fun p hp hlo hhi => exists_bucket hfits (mem_counted.mpr ⟨⟨p, hp, rfl⟩, hlo, hhi⟩)
    · intro b hb
      rw [buckets_of_fits hfits] at hb
      obtain ⟨it, hit, rfl⟩ := List.mem_map.mp hb
      exact count_of_fits hfits hit

/-- From 0 on in steps of one, the second `2 ^ 31` has no `int` for a number. -/
theorem bucketsRight_overflow : ¬∀ (start finish astep : Int) (puts : List (UInt32 × Mac)), 0 ≤ start →
    start ≤ finish → finish < 2 ^ 32 → BucketsRight start finish astep puts := by
  intro h
  have hnarrowing := (h 0 (2 ^ 32 - 1) 1 [(2 ^ 31, sampleMac)] (by decide) (by decide) (by decide)).narrowing _
    (List.mem_singleton_self _) (by decide) (by decide)
  exact absurd hnarrowing (by decide)

end HistogramMacsPerTime

end Wacs
