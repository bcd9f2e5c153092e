import Wacs.NoteRemoval
import Wacs.PagedListing

/-! What the scans return when they find nothing: zero, or `MDB_NOTFOUND` when no key of the store, of whatever
table, comes at or after the key sought. -/

namespace Wacs

open OrderBytes OrderedCursor

/-! ### One scan -/

theorem status_eq_zero_iff (es : List (Bytes × Bytes)) : (if es = [] then MDB_NOTFOUND else 0) = 0 ↔ es ≠ [] := by
  split_ifs with h
  · exact iff_of_false (by decide) (not_not_intro h)
  · exact iff_of_true rfl h

/-- Some probe record of an address that is not before the bytes, or some notification. -/
def ProbeOrNote (s : Store) (b : Bytes) : Prop :=
  (∃ m t, (Record.probe m t).entry ∈ s.entries ∧ b ≤ m.val.take b.length) ∨
    ∃ m stray text, (Record.note m stray text).entry ∈ s.entries

theorem readLastProbe_seek_ne_nil {s : Store} (hwf : WellFormed s) {b : Bytes} (hb : b.length ≤ 6) :
    s.seek (tagP :: b) ≠ [] ↔ ProbeOrNote s b := by
  constructor
  · intro h
    obtain ⟨e, he⟩ := List.exists_mem_of_ne_nil _ h
    obtain ⟨hmem, hle⟩ := (s.mem_seek _ e).mp he
    obtain ⟨r, rfl⟩ := hwf e hmem
    have hle' := (prefix_le_key_iff tagP b hb r).mp hle
    cases r with
    | log => exact absurd hle' (by simp [Record.tag, tagL, tagP])
    | probe m t => exact Or.inl ⟨m, t, hmem, (hle'.resolve_left (lt_irrefl _)).2⟩
    | note m stray text => exact Or.inr ⟨m, stray, text, hmem⟩
  · rintro (⟨m, t, hmem, hle⟩ | ⟨m, stray, text, hmem⟩)
    · exact seek_ne_nil hmem ((prefix_le_key_iff tagP b hb _).mpr (Or.inr ⟨rfl, hle⟩))
    · exact seek_ne_nil hmem ((prefix_le_key_iff tagP b hb _).mpr (Or.inl tagP_lt_tagT))

/-- The count of a removal that is no error is the number of records gone. -/
theorem rmLog_count_eq_iff (slack : Slack) (f : Filter) (start finish : Int) (pad : UInt8) (s : Store) :
    (quietly (rmLog slack f start finish pad) s).1 =
        s.entries.length - (quietly (rmLog slack f start finish pad) s).2.entries.length ↔
      s.seek (rmLogSeek f start pad) ≠ [] := by
  have hlen := length_without_visited s (rmLogTest slack f (timeRange start finish)) (rmLogSeek f start pad)
  rw [rmLog_quiet, ← hlen]
  by_cases hseek : s.seek (rmLogSeek f start pad) = []
  · rw [hseek]
    exact iff_of_false (by simp [visited, MDB_NOTFOUND]) (not_not_intro rfl)
  · rw [if_neg hseek]
    exact iff_of_true (by simp) hseek

/-! ### The loops over the filters -/

section Reached

variable {σ ξ : Type} (turn : σ → ξ → Int × σ)

/-- What a loop comes to that ends with the first turn of a negative status. -/
def reached : σ → List ξ → List ξ
  | _, [] => []
  | env, x :: xs => if (turn env x).1 < 0 then [x] else x :: reached (turn env x).2 xs

theorem reached_eq_self {P : σ → Prop} (hturn : ∀ env x, P env → 0 ≤ (turn env x).1 ∧ P (turn env x).2) {env : σ}
    (h : P env) (xs : List ξ) : reached turn env xs = xs := by
  induction xs generalizing env with
  | nil => rfl
  | cons x xs ih =>
      obtain ⟨hstatus, hnext⟩ := hturn env x h
      rw [reached, if_neg (not_lt.mpr hstatus), ih hnext]

theorem reached_eq_take {env : σ} (h : ∀ x, (turn env x).1 < 0) (xs : List ξ) : reached turn env xs = xs.take 1 := by
  cases xs with
  | nil => rfl
  | cons x xs => rw [reached, if_pos (h x), List.take_succ_cons, List.take_zero]

end Reached

/-- The filters read from the texts of a list. -/
def macFilters (mac : List (Bytes × Memory)) : List (Filter × Memory) := mac.map fun x => (macFilter x.1, x.2)

/-- One turn of the loop of `rmLog`. -/
def rmLogTurn (start finish : Int) (s : Store) (x : Bytes × Memory) : Int × Store :=
  quietly (rmLog x.2.slack (macFilter x.1) start finish x.2.pad.key) s

/-- The loop of `lsLog` does what it does over the filters it comes to. -/
theorem lsLog_reached {σ : Type} (start finish : Int) (onLog : OnLog σ) (s : Store) (rr : Int) (env : σ)
    (mac : List (Filter × Memory)) :
    Wacsc.lsLog start finish onLog s rr env (reached (listOnce .log start finish onLog s) env mac) =
      Wacsc.lsLog start finish onLog s rr env mac := by
  induction mac generalizing rr env with
  | nil => rfl
  | cons x mac ih =>
      rw [reached, Wacsc.lsLog]
      split_ifs with hneg
      · rw [Wacsc.lsLog, if_pos hneg]
      · rw [Wacsc.lsLog, if_neg hneg, ih]

/-- The loop of `rmLog` does what it does over the texts it comes to. -/
theorem rmLogFrom_reached (start finish rr : Int) (s : Store) (mac : List (Bytes × Memory)) :
    Wacsc.rmLogFrom start finish rr s (reached (rmLogTurn start finish) s mac) =
      Wacsc.rmLogFrom start finish rr s mac := by
  induction mac generalizing rr s with
  | nil => rfl
  | cons x mac ih =>
      rw [reached, Wacsc.rmLogFrom, rmLogTurn]
      split_ifs with hneg
      · rw [Wacsc.rmLogFrom, if_pos hneg]
      · rw [Wacsc.rmLogFrom, if_neg hneg, ih]

/-- With a record that it does not remove `rmLog` is no error, and leaves it. -/
theorem rmLogTurn_hasOther (start finish : Int) {s : Store} (h : HasOther s) (x : Bytes × Memory) :
    0 ≤ (rmLogTurn start finish s x).1 ∧ HasOther (rmLogTurn start finish s x).2 := by
  have hseek : s.seek (rmLogSeek (macFilter x.1) start x.2.pad.key) ≠ [] := log_seek_ne_nil h _
  obtain ⟨r, hr, htag⟩ := h
  rw [rmLogTurn, rmLog_quiet, if_neg hseek]
  refine ⟨Int.natCast_nonneg _, r, ?_, htag⟩
  rw [OrderedMap.mem_filter, decide_eq_true_eq, mem_visited_keys hr]
  exact ⟨hr, fun hvisited => htag (rmLogTest_hit_tag _ _ _ (visited_hit hvisited).2)⟩

/-- The loop of `rmLog` returns the number of records that are gone, as long as a record stays that it does not
remove. -/
theorem rmLogFrom_accounts {s : Store} (h : HasOther s) (start finish : Int) (rr : Nat) (mac : List (Bytes × Memory)) :
    ∃ n : Nat, (Wacsc.rmLogFrom start finish rr s mac).1 = n ∧
      n + (Wacsc.rmLogFrom start finish rr s mac).2.entries.length = rr + s.entries.length := by
  induction mac generalizing s rr with
  | nil => exact ⟨rr, rfl, rfl⟩
  | cons x mac ih =>
      obtain ⟨text, mem⟩ := x
      obtain ⟨hnonneg, hother⟩ := rmLogTurn_hasOther start finish h (text, mem)
      have hseek : s.seek (rmLogSeek (macFilter text) start mem.pad.key) ≠ [] := log_seek_ne_nil h _
      have hgone := (rmLog_count_eq_iff mem.slack (macFilter text) start finish mem.pad.key s).mpr hseek
      unfold rmLogTurn at hnonneg hother
      dsimp only at hnonneg hother
      rw [Wacsc.rmLogFrom, if_neg (not_lt.mpr hnonneg)]
      obtain ⟨k, hk⟩ := Int.eq_ofNat_of_zero_le hnonneg
      have hsum : (rr : Int) + k = (rr + k : Nat) := (Nat.cast_add rr k).symm
      rw [hk, hsum]
      obtain ⟨n, hn, hlen⟩ := ih hother (rr + k)
      exact ⟨n, hn, by omega⟩

/-! ### What the loop of `rmLog` takes -/

/-- A record that `rmLog` with the filter comes to and removes. -/
def Takes (start finish : Int) (s : Store) (x : Filter × Memory) (e : Bytes × Bytes) : Prop :=
  HitFrom s (rmLogSeek x.1 start x.2.pad.key) (rmLogTest x.2.slack x.1 (timeRange start finish)) e

instance (start finish : Int) (s : Store) (x : Filter × Memory) : DecidablePred (Takes start finish s x) :=
  inferInstanceAs (DecidablePred (HitFrom s _ _))

/-- The records that some filter of a list takes. -/
def takenBy (start finish : Int) (s : Store) (mac : List (Filter × Memory)) : List (Bytes × Bytes) :=
  s.entries.filter fun e => decide (∃ x ∈ mac, Takes start finish s x e)

theorem takenBy_singleton (start finish : Int) (s : Store) (x : Filter × Memory) :
    takenBy start finish s [x] =
      hitsFrom s (rmLogSeek x.1 start x.2.pad.key) (rmLogTest x.2.slack x.1 (timeRange start finish)) := by
  refine List.filter_congr fun e _ => ?_
  simp only [List.mem_singleton, exists_eq_left]
  rfl

/-- One call leaves what it does not take. -/
theorem mem_rmLog_iff (start finish : Int) (s : Store) (x : Filter × Memory) {e : Bytes × Bytes} :
    e ∈ (quietly (rmLog x.2.slack x.1 start finish x.2.pad.key) s).2.entries ↔
      e ∈ s.entries ∧ ¬Takes start finish s x e := by
  rw [rmLog_quiet, OrderedMap.mem_filter, decide_eq_true_eq]
  refine and_congr_right fun he => not_congr ?_
  rw [mem_visited_keys he, visited_seek, hitsFrom, List.mem_filter, decide_eq_true_eq, Takes, and_iff_right he]

section Taken

variable (start finish : Int) {s : Store} (hwf : WellFormed s) (x : Filter × Memory)
include hwf

/-- Only log records with a time of the range are taken. -/
theorem Takes.log {e : Bytes × Bytes} (he : e ∈ s.entries) (h : Takes start finish s x e) :
    ∃ m p t d y, e = (Record.log m p t d y).entry ∧ InRange (timeRange start finish) t := by
  obtain ⟨r, rfl⟩ := hwf e he
  obtain ⟨m, p, t, d, y, rfl, -, ht⟩ := (rmLogTest_hit _ _ _ r).mp h.2.1
  exact ⟨m, p, t, d, y, rfl, ht⟩

theorem takes_iff_comesTo {m : Mac} {p : UInt8} {t : UInt32} {d : LogData} {y : UInt8}
    (he : (Record.log m p t d y).entry ∈ s.entries) : Takes start finish s x (Record.log m p t d y).entry ↔
      ComesTo s x.1 (timeRange start finish) (rmLogSeek x.1 start x.2.pad.key) m p t d y := by
  rw [← mem_visited_log (rmLogTest_log x.2.slack x.1 (timeRange start finish))
    (fun _ _ _ _ _ h => x.1.bytes_le_take (mac_le_of_seek h)) hwf, visited_seek, hitsFrom, List.mem_filter,
    decide_eq_true_eq, Takes, and_iff_right he]

/-- What a filter takes does not depend on what another has taken before it: times after the range, which alone
end a scan early, stay. -/
theorem takes_after (y : Filter × Memory) {e : Bytes × Bytes}
    (he : e ∈ (quietly (rmLog x.2.slack x.1 start finish x.2.pad.key) s).2.entries) :
    Takes start finish (quietly (rmLog x.2.slack x.1 start finish x.2.pad.key) s).2 y e ↔
      Takes start finish s y e := by
  have hleft := @mem_rmLog_iff start finish s x
  generalize (quietly (rmLog x.2.slack x.1 start finish x.2.pad.key) s).2 = s' at he hleft
  have hsub : ∀ e ∈ s'.entries, e ∈ s.entries := fun e he => (hleft.mp he).1
  have hwf' : WellFormed s' := fun e he => hwf e (hsub e he)
  constructor
  · intro h
    obtain ⟨m, p, t, d, z, rfl, -⟩ := Takes.log start finish hwf' y he h
    obtain ⟨-, hm, ht, hle, hlast⟩ := (takes_iff_comesTo start finish hwf' y he).mp h
    refine (takes_iff_comesTo start finish hwf y (hsub _ he)).mpr ⟨hsub _ he, hm, ht, hle, ?_⟩
    intro hsz p' t' d' z' hmem hle' hlt
    by_cases hgone : Takes start finish s x (Record.log m p' t' d' z').entry
    · exact ((takes_iff_comesTo start finish hwf x hmem).mp hgone).2.2.1.2
    · exact hlast hsz p' t' d' z' (hleft.mpr ⟨hmem, hgone⟩) hle' hlt
  · exact fun h => ⟨h.1, h.2.1, fun e' he' => h.2.2 e' (hsub e' he')⟩

end Taken

/-- With a record that it does not remove, the loop leaves what no filter takes. -/
theorem mem_rmLogFrom_iff {s : Store} (hwf : WellFormed s) (h : HasOther s) (start finish rr : Int)
    (mac : List (Bytes × Memory)) (e : Bytes × Bytes) : e ∈ (Wacsc.rmLogFrom start finish rr s mac).2.entries ↔
      e ∈ s.entries ∧ ¬∃ x ∈ macFilters mac, Takes start finish s x e := by
  induction mac generalizing s rr with
  | nil => simp [Wacsc.rmLogFrom, macFilters]
  | cons x mac ih =>
      obtain ⟨hnonneg, hother⟩ := rmLogTurn_hasOther start finish h x
      have hleft := @mem_rmLog_iff start finish s (macFilter x.1, x.2) e
      have hafter := @takes_after start finish s hwf (macFilter x.1, x.2)
      have hwf' : WellFormed (rmLogTurn start finish s x).2 :=
        fun e he => hwf e ((mem_rmLog_iff start finish s (macFilter x.1, x.2)).mp he).1
      unfold rmLogTurn at hnonneg hother hwf'
      rw [Wacsc.rmLogFrom, if_neg (not_lt.mpr hnonneg), ih hwf' hother, show
        macFilters (x :: mac) = (macFilter x.1, x.2) :: macFilters mac from rfl, List.exists_mem_cons_iff, not_or,
        ← and_assoc, ← hleft]
      refine and_congr_right fun he => not_congr (exists_congr fun y => and_congr_right fun _ => ?_)
      exact hafter y he

/-- What it returns is the number of the records some filter takes. -/
theorem rmLog_eq_length_takenBy {s : Store} (hwf : WellFormed s) (h : HasOther s) (start finish : Int)
    (mac : List (Bytes × Memory)) : (Wacsc.rmLog start finish s mac).1 =
      (takenBy start finish s (macFilters mac)).length := by
  obtain ⟨n, hn, hlen⟩ := rmLogFrom_accounts h start finish 0 mac
  have hleft : (Wacsc.rmLogFrom start finish (0 : Nat) s mac).2 =
      s.filter fun e => !decide (∃ x ∈ macFilters mac, Takes start finish s x e) := by
    refine OrderedMap.ext_mem fun e => ?_
    rw [mem_rmLogFrom_iff hwf h, OrderedMap.mem_filter, Bool.not_eq_true', decide_eq_false_iff_not]
  have hall := s.length_filter_add fun e =>
    decide (∃ x ∈ macFilters mac, Takes start finish s x e)
  rw [hleft] at hlen
  refine hn.trans (congrArg _ ?_)
  unfold takenBy
  omega

/-- The loops of `lsLog` and of `rmLog` come to every text of a list, and the sum of the latter is no more than an
`int` holds. -/
structure LoopsWhole (start finish : Int) (s : Store) (mac : List (Bytes × Memory)) : Prop where
  lsLog : ∀ (σ : Type) (onLog : OnLog σ) (env : σ),
    reached (listOnce .log start finish onLog s) env (macFilters mac) = macFilters mac
  rmLog : reached (rmLogTurn start finish) s mac = mac
  int : int32 (Wacsc.rmLog start finish s mac).1 = (Wacsc.rmLog start finish s mac).1

/-- On an empty store every scan fails, so the first is the last. -/
theorem loopsWhole_of_entries_eq_nil {s : Store} (h : s.entries = []) (start finish : Int)
    (mac : List (Bytes × Memory)) : LoopsWhole start finish s mac ↔ mac.length ≤ 1 := by
  have hlog : ∀ (σ : Type) (onLog : OnLog σ) (env : σ) (x : Filter × Memory),
      (listOnce .log start finish onLog s env x).1 < 0 := by
    intro σ onLog env x
    rw [listOnce_log_status, if_pos (seek_of_entries_eq_nil h _)]
    decide
  have hrm : ∀ x, rmLogTurn start finish s x = (MDB_NOTFOUND, s) := by
    intro x
    rw [rmLogTurn, rmLog_quiet, if_pos (seek_of_entries_eq_nil h _), seek_of_entries_eq_nil h]
    exact congrArg _ (OrderedMap.ext_mem fun e => by simp [visited])
  have hneg : ∀ x, (rmLogTurn start finish s x).1 < 0 := by
    intro x
    rw [hrm]
    exact (by decide : MDB_NOTFOUND < 0)
  constructor
  · intro hwhole
    have htake := hwhole.rmLog
    rwa [reached_eq_take _ hneg, List.take_eq_self_iff] at htake
  · intro hlen
    refine ⟨fun σ onLog env => ?_, ?_, ?_⟩
    · rw [reached_eq_take _ (hlog σ onLog env), List.take_of_length_le (by rwa [macFilters, List.length_map])]
    · rw [reached_eq_take _ hneg, List.take_of_length_le hlen]
    · cases mac with
      | nil => rfl
      | cons x mac =>
          have hturn : quietly (Wacs.rmLog x.2.slack (macFilter x.1) start finish x.2.pad.key) s = (MDB_NOTFOUND, s) :=
            hrm x
          rw [Wacsc.rmLog, Wacsc.rmLogFrom, hturn, if_pos (by decide : MDB_NOTFOUND < 0)]
          exact (by decide : int32 MDB_NOTFOUND = MDB_NOTFOUND)

/-- A record that is not removed keeps every scan from failing. -/
theorem loopsWhole_of_hasOther {s : Store} (hwf : WellFormed s) (h : HasOther s) (start finish : Int)
    (mac : List (Bytes × Memory)) :
    LoopsWhole start finish s mac ↔ (takenBy start finish s (macFilters mac)).length < 2 ^ 31 := by
  have hlog : ∀ (σ : Type) (onLog : OnLog σ) (env : σ),
      reached (listOnce .log start finish onLog s) env (macFilters mac) = macFilters mac := by
    intro σ onLog env
    have hstatus : ∀ env x, True → 0 ≤ (listOnce .log start finish onLog s env x).1 ∧ True := by
      intro env x _
      have hseek := readLogSeek_ne_nil h x.1 start x.2.pad.key
      rw [listOnce_log_status, if_neg hseek]
      exact ⟨le_rfl, trivial⟩
    exact reached_eq_self _ hstatus trivial _
  have hrm : reached (rmLogTurn start finish) s mac = mac := by
    apply reached_eq_self _ (P := HasOther) _ h
    intro s x hs
    exact rmLogTurn_hasOther start finish hs x
  have hsum := rmLog_eq_length_takenBy hwf h start finish mac
  constructor
  · intro hwhole
    rw [← int32_natCast_iff, ← hsum]
    exact hwhole.int
  · intro hlt
    refine ⟨hlog, hrm, ?_⟩
    rwa [hsum, int32_natCast_iff]

theorem loopsWhole_iff (calls : List Step) (start finish : Int) (mac : List (Bytes × Memory)) :
    LoopsWhole start finish (run .empty calls) mac ↔ ((run .empty calls).entries ≠ [] ∨ mac.length ≤ 1) ∧
      (takenBy start finish (run .empty calls) (macFilters mac)).length < 2 ^ 31 := by
  by_cases hempty : (run .empty calls).entries = []
  · have hnone : (takenBy start finish (run .empty calls) (macFilters mac)).length < 2 ^ 31 := by
      rw [takenBy, hempty, List.filter_nil]
      decide
    rw [loopsWhole_of_entries_eq_nil hempty, or_iff_right (not_not_intro hempty), and_iff_left hnone]
  · have hwf := run_wellFormed calls
    have hother := hasOther_of_ne_nil hwf (run_attended calls) hempty
    rw [loopsWhole_of_hasOther hwf hother, or_iff_left_of_imp fun _ => hempty, and_iff_right hempty]

/-- What one removal returns is the number of the records it takes, exactly when the store is not empty and an `int`
counts them. -/
theorem rmLog_counts_taken_iff (calls : List Step) (start finish : Int) (x : Filter × Memory) :
    CountsGone (run .empty calls) (quietly (rmLog x.2.slack x.1 start finish x.2.pad.key) (run .empty calls)) ↔
      (run .empty calls).entries ≠ [] ∧ (takenBy start finish (run .empty calls) [x]).length < 2 ^ 31 := by
  have hseek := rmLog_seek_eq_nil (run_wellFormed calls) (run_attended calls) x.1 start x.2.pad.key
  by_cases hempty : (run .empty calls).entries = []
  · refine iff_of_false (fun h => ?_) fun h => h.1 hempty
    exact ((rmLog_count_eq_iff x.2.slack x.1 start finish x.2.pad.key _).mp h.count) (hseek.mpr hempty)
  · rw [and_iff_right hempty, takenBy_singleton, ← visited_seek]
    apply countsGone_iff
    · rw [rmLog_quiet, if_neg (mt hseek.mp hempty)]
    · have hlen := length_without_visited (run .empty calls) (rmLogTest x.2.slack x.1 (timeRange start finish))
        (rmLogSeek x.1 start x.2.pad.key)
      rw [rmLog_quiet, Nat.add_comm, ← hlen]
      simp

/-- Over any reachable store, a scan that finds nothing is no error exactly when a record of some table comes at
or after the key sought: for the log, when the store has any record; for the last probes, when it has one of an
address not before the filter, or a notification. The loops over many filters end early on an empty store only. What
is removed has to be counted by an `int`. -/
theorem scan_statuses_iff (calls : List Step) (start finish : Int) (x : Filter × Memory)
    (mac : List (Bytes × Memory)) :
    ((∀ (σ : Type) (onLog : OnLog σ) (env : σ),
      (quietly (readLog x.2.slack x.1 start finish x.2.pad.key (some onLog) (some env)) (run .empty calls)).1.1 = 0) ↔
        (run .empty calls).entries ≠ []) ∧
    ((∀ (σ : Type) (onLog : OnLog σ) (env : σ),
      (quietly (readLastProbe x.2.slack x.1 start finish (some onLog) (some env)) (run .empty calls)).1.1 = 0) ↔
        ProbeOrNote (run .empty calls) x.1.bytes) ∧
    (CountsGone (run .empty calls) (quietly (rmLog x.2.slack x.1 start finish x.2.pad.key) (run .empty calls)) ↔
      (run .empty calls).entries ≠ [] ∧ (takenBy start finish (run .empty calls) [x]).length < 2 ^ 31) ∧
    (LoopsWhole start finish (run .empty calls) mac ↔ ((run .empty calls).entries ≠ [] ∨ mac.length ≤ 1) ∧
      (takenBy start finish (run .empty calls) (macFilters mac)).length < 2 ^ 31) := by
  have hwf := run_wellFormed calls
  have hatt := run_attended calls
  refine ⟨?_, ?_, rmLog_counts_taken_iff calls start finish x, loopsWhole_iff calls start finish mac⟩
  · rw [ne_eq, ← readLog_seek_eq_nil hwf hatt x.1 start x.2.pad.key, ← ne_eq, ← status_eq_zero_iff]
    exact ⟨fun h => (listRecords_status _ _ _ _ takeAll ()).symm.trans (h Unit takeAll ()),
      fun h σ onLog env => (listRecords_status _ _ _ _ onLog env).trans h⟩
  · rw [← readLastProbe_seek_ne_nil hwf (by simpa using x.1.sz_le), ← status_eq_zero_iff]
    exact ⟨fun h => (listRecords_status _ _ _ _ takeAll ()).symm.trans (h Unit takeAll ()),
      fun h σ onLog env => (listRecords_status _ _ _ _ onLog env).trans h⟩

/-- Nothing is stored, so a filter for everything fails. -/
theorem empty_store_is_error : ¬∀ (calls : List Step) (start finish : Int) (x : Filter × Memory) (σ : Type)
    (onLog : OnLog σ) (env : σ),
    (quietly (readLog x.2.slack x.1 start finish x.2.pad.key (some onLog) (some env)) (run .empty calls)).1.1 = 0 := by
  intro h
  exact absurd (h [] 0 0 (anyMac, filledMemory 0) Unit takeAll ()) (by decide)

end Wacs
