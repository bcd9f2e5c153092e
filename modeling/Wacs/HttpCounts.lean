import Wacs.JsonAnswers
import Wacs.ProbeListing

/-! `/log-count` and `/last-count` of the HTTP server: one sum for all the filters of a request, printed after each
of them unless it is zero. -/

namespace Wacs

open OrderedCursor OrderedPages TextJson

/-! ### The records of a scan -/

/-- A record at or after the key sought that passes the test, with none before it that ends the scan. -/
def Reached (scan : Listed) (start finish : Int) (s : Store) (x : Filter × Memory) (e : Bytes × Bytes) : Prop :=
  scan.seek start x ≤ e.1 ∧ scan.test start finish x e = .hit ∧
    ∀ e' ∈ s.entries, scan.seek start x ≤ e'.1 → e'.1 < e.1 → scan.test start finish x e' ≠ .stop

instance (scan : Listed) (start finish : Int) (s : Store) (x : Filter × Memory) :
    DecidablePred (Reached scan start finish s x) := fun e =>
  inferInstanceAs (Decidable (scan.seek start x ≤ e.1 ∧ scan.test start finish x e = .hit ∧
    ∀ e' ∈ s.entries, scan.seek start x ≤ e'.1 → e'.1 < e.1 → scan.test start finish x e' ≠ .stop))

/-- The records of a filter. -/
def reachedBy (scan : Listed) (start finish : Int) (s : Store) (x : Filter × Memory) : List (Bytes × Bytes) :=
  s.entries.filter fun e => decide (Reached scan start finish s x e)

theorem visited_eq_reachedBy (scan : Listed) (start finish : Int) (s : Store) (x : Filter × Memory) :
    visited (scan.test start finish x) (s.seek (scan.seek start x)) = reachedBy scan start finish s x :=
  (visited_seek s _ _).trans (List.filter_congr fun _ _ => decide_eq_decide.mpr Iff.rfl)

/-- A listing has one entry for each record of its filter. -/
theorem length_unpaged (scan : Listed) (start finish : Int) (s : Store) (x : Filter × Memory) :
    (unpaged scan start finish s x).length = (reachedBy scan start finish s x).length := by
  rw [unpaged_eq, visited_eq_reachedBy, List.length_map]

/-! ### Running sums -/

theorem length_printedSums_le (sum : Int) (counts : List Nat) : (printedSums sum counts).length ≤ counts.length := by
  induction counts generalizing sum with
  | nil => exact le_rfl
  | cons n counts ih =>
      have hrest := ih (sum + n)
      rw [printedSums, List.length_append, List.length_cons]
      split_ifs
      · rw [List.length_singleton]
        omega
      · rw [List.length_nil]
        omega

/-- The sums printed from zero on are the counts only for a single count that is not zero: a first count of zero
leaves fewer sums than counts, and any other one is in the second sum too. -/
theorem printedSums_eq_counts_iff (n : Nat) (counts : List Nat) :
    printedSums 0 (n :: counts) = (n :: counts).map Nat.cast ↔ counts = [] ∧ n ≠ 0 := by
  rw [printedSums, zero_add, List.map_cons]
  by_cases hn : n = 0
  · have hle := length_printedSums_le n counts
    rw [if_neg (not_not_intro (Nat.cast_eq_zero.mpr hn)), List.nil_append]
    refine iff_of_false (fun heq => ?_) fun h => h.2 hn
    have hlen := congrArg List.length heq
    rw [List.length_cons, List.length_map] at hlen
    omega
  · rw [if_pos (Nat.cast_ne_zero.mpr hn), List.singleton_append, List.cons_inj_right, and_iff_left hn]
    cases counts with
    | nil => exact iff_of_true rfl rfl
    | cons m counts =>
        refine iff_of_false (fun heq => ?_) (List.cons_ne_nil m counts)
        have hnext : ((n : Int) + m) ≠ 0 := by omega
        rw [printedSums, if_pos hnext, List.singleton_append, List.map_cons] at heq
        have hhead := List.head_eq_of_cons_eq heq
        omega

theorem decodes_sums_iff (sums : List Int) (ns : List Int) :
    Decodes (Http.response (sums.flatMap sumText)) (ns.map .num) ↔ sums = ns := by
  have hinj : Function.Injective Json.num := fun _ _ h => Json.num.inj h
  have hparse : parse (Http.response (sums.flatMap sumText)) = some (.arr (sums.map .num)) := parse_sums sums
  rw [Decodes, hparse, Option.some_inj, Json.arr.injEq, (List.map_injective_iff.mpr hinj).eq_iff]

/-! ### Requests -/

section Requests

variable (scan : Listed) (configCount start finish offset count : Int) (s : Store)

/-- The answer to `/log-count` or `/last-count`. -/
def Http.countAnswer (sa : List (Filter × Memory)) : Bytes :=
  match scan with
  | .log => Http.lsLog configCount start finish offset count onReqLogCount s sa
  | .lastProbe => Http.lsLastProbe configCount start finish offset count onReqLogCount s sa

/-- The sum, which is an `int`, does not run over, and the answer is the array of the counts of the filters. -/
structure CountsPerFilter (sa : List (Filter × Memory)) : Prop where
  sum : int32 (Http.lsFrom scan start finish onReqLogCount s (Http.reqEnv configCount offset count) sa).sum =
    (Http.lsFrom scan start finish onReqLogCount s (Http.reqEnv configCount offset count) sa).sum
  body : Decodes (Http.countAnswer scan configCount start finish offset count s sa)
    (sa.map fun x => .num (unpaged scan start finish s x).length)

/-- The sum at the end is over all the filters. -/
theorem lsFrom_sum (env : HttpReqEnv) (sa : List (Filter × Memory)) :
    (Http.lsFrom scan start finish onReqLogCount s env sa).sum =
      env.sum + ((counts scan start finish s sa).sum : Nat) := by
  induction sa generalizing env with
  | nil => exact (add_zero _).symm
  | cons x sa ih =>
      rw [Http.lsFrom, ih, Http.lsFilter, listOnce_env, deliver_onReqLogCount, counts_cons, List.sum_cons, Nat.cast_add,
        ← add_assoc]
      split_ifs <;> rfl

theorem countAnswer_eq (sa : List (Filter × Memory)) :
    Http.countAnswer scan configCount start finish offset count s sa =
      Http.response ((printedSums 0 (counts scan start finish s sa)).flatMap sumText) := by
  cases scan with
  | log => exact (writesEmitted configCount start finish offset count s sa).logCount
  | lastProbe => exact (writesEmitted configCount start finish offset count s sa).lastProbeCount

/-- The array of the counts is answered to one filter that has records. -/
theorem decodes_counts_iff (x : Filter × Memory) (sa : List (Filter × Memory)) :
    Decodes (Http.countAnswer scan configCount start finish offset count s (x :: sa))
        ((x :: sa).map fun y => .num (unpaged scan start finish s y).length) ↔
      sa = [] ∧ reachedBy scan start finish s x ≠ [] := by
  have hvalues : ((x :: sa).map fun y => Json.num (unpaged scan start finish s y).length) =
      ((counts scan start finish s (x :: sa)).map Nat.cast).map Json.num := by
    rw [counts, List.map_map, List.map_map]
    rfl
  rw [countAnswer_eq, hvalues, decodes_sums_iff, counts, List.map_cons, printedSums_eq_counts_iff,
    List.map_eq_nil_iff, length_unpaged, ne_eq, List.length_eq_zero_iff]

/-- Counts are per filter exactly in requests with one filter that has records, no more than an `int` counts. -/
theorem countsPerFilter_iff (x : Filter × Memory) (sa : List (Filter × Memory)) :
    CountsPerFilter scan configCount start finish offset count s (x :: sa) ↔
      sa = [] ∧ reachedBy scan start finish s x ≠ [] ∧ (reachedBy scan start finish s x).length < 2 ^ 31 := by
  have hbody := decodes_counts_iff scan configCount start finish offset count s x sa
  have hsum : (Http.lsFrom scan start finish onReqLogCount s (Http.reqEnv configCount offset count) [x]).sum =
      (reachedBy scan start finish s x).length := by
    rw [lsFrom_sum, counts, List.map_singleton, List.sum_singleton, length_unpaged]
    exact zero_add _
  constructor
  · rintro ⟨hint, h⟩
    obtain ⟨rfl, hne⟩ := hbody.mp h
    rw [hsum, int32_eq_iff] at hint
    exact ⟨rfl, hne, by omega⟩
  · rintro ⟨rfl, hne, hlt⟩
    refine ⟨?_, hbody.mpr ⟨rfl, hne⟩⟩
    rw [hsum, int32_eq_iff]
    omega

end Requests

/-- Two filters for one record are answered with 1 and 2. -/
theorem second_count_adds_first : ¬∀ (scan : Listed) (configCount start finish offset count : Int) (calls : List Step)
    (x : Filter × Memory) (sa : List (Filter × Memory)),
    CountsPerFilter scan configCount start finish offset count (run .empty calls) (x :: sa) := by
  intro h
  have hbody := (h .log 0 0 0 0 0 [(.putLog sampleBuffer 100, filledMemory 0)] (anyMac, filledMemory 0)
    [(anyMac, filledMemory 0)]).body
  have hanswer : Http.countAnswer .log 0 0 0 0 0 (run .empty [(.putLog sampleBuffer 100, filledMemory 0)])
      [(anyMac, filledMemory 0), (anyMac, filledMemory 0)] = Http.response ([1, 2].flatMap sumText) := by decide
  have hone : (unpaged .log 0 0 (run .empty [(.putLog sampleBuffer 100, filledMemory 0)])
      (anyMac, filledMemory 0)).length = 1 := by decide
  rw [hanswer, List.map_cons, List.map_singleton, hone] at hbody
  exact absurd ((decodes_sums_iff [1, 2] [1, 1]).mp hbody) (by decide)

end Wacs
