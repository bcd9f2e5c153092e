import Wacs.LogExact

/-! The two log scans over ranges of any shape. The key sought is built before a range the wrong way round is
turned, so it cuts off what is in the turned range and before the start as it was given: in `readLog` for a whole
address only, in `rmLog` at the padded address of every filter. -/

namespace Wacs

open OrderBytes OrderedCursor

/-- The store has a log record of the address that is in the range and before the start as it was given. -/
def EarlyInRange (s : Store) (m : Mac) (start finish : Int) : Prop :=
  ∃ t d, HasLog s m t d ∧ InRange (timeRange start finish) t ∧ t < time32 start

/-- On a range the right way round, within 32 bits, there is no such record. -/
theorem not_earlyInRange (s : Store) (m : Mac) {start finish : Int} (hstart : 0 ≤ start)
    (hle : start ≤ rangeEnd finish) (hlt : rangeEnd finish < 2 ^ 32) : ¬EarlyInRange s m start finish := by
  rintro ⟨t, d, -, hin, hearly⟩
  rw [timeRange_of_le hle] at hin
  exact UInt32.not_le.mpr hearly (time32_le_of_inRange hstart hle hlt hin)

/-- The log records that a callback which never stops is given. -/
def listed (s : Store) (slack : Slack) (f : Filter) (start finish : Int) : List LogItem :=
  handedItems (quietly (readLog slack f start finish 0 (some takeAll) (some ())) s).1

section Listed

variable {s : Store} (hwf : WellFormed s) (hpads : ConstPads s 0) (slack : Slack) (f : Filter) (start finish : Int)
include hwf hpads

theorem listed_eq : listed s slack f start finish =
    ((logEntries s).filter (onKeys (readLogPicks f start finish))).map logItem := by
  rw [listed, readLog_quiet, readLog_visited hwf slack f start finish fun _ => hpads f.mac,
    handed_of_never takeAll (fun _ _ => rfl), readLogItem_eq hwf, map_logCell_onLogs]

end Listed

/-! ### Whole addresses and shorter filters -/

/-- The first `k` bytes of an address as a filter. -/
def firstBytes (m : Mac) (k : Nat) : Filter where
  sa := some m.val
  saSize := k
  readable := by
    rw [Option.getD_some, m.property, clampSa]
    split_ifs <;> omega

theorem firstBytes_sz (m : Mac) {k : Nat} (hk : k ≤ 6) : (firstBytes m k).sz = k := by
  rw [Filter.sz, clampSa]
  show (if (k : Int) ≥ 6 then 6 else if (k : Int) ≤ 0 then 0 else (k : Int).toNat) = k
  split_ifs <;> omega

theorem firstBytes_matches (m : Mac) (k : Nat) : (firstBytes m k).Matches m := rfl

theorem firstBytes_whole_matches_iff (m m' : Mac) : (firstBytes m 6).Matches m' ↔ m' = m := by
  refine ⟨fun h => ?_, fun h => h ▸ firstBytes_matches m 6⟩
  have htake : m'.val.take 6 = m.val.take 6 := h
  rw [List.take_of_length_le m'.property.le, List.take_of_length_le m.property.le] at htake
  exact Subtype.ext htake

/-- A listing of a whole address is the part with that address of a listing of its first `k` bytes. -/
def FastPathAgrees (s : Store) (slack slack' : Slack) (m : Mac) (k : Nat) (start finish : Int) : Prop :=
  listed s slack (firstBytes m 6) start finish =
    (listed s slack' (firstBytes m k) start finish).filter fun i => decide (i.sa = m)

theorem logItem_injective : Function.Injective logItem := by
  intro x y h
  obtain ⟨hm, ht, hd⟩ := LogItem.mk.inj h
  exact Prod.ext (ofLex.injective (Prod.ext hm ht)) (Option.some.inj hd)

theorem filter_eq_filter_iff {α : Type} (p q : α → Bool) (l : List α) :
    l.filter p = l.filter q ↔ ∀ x ∈ l, p x = q x := by
  refine ⟨fun h x hx => ?_, List.filter_congr⟩
  have hmem : x ∈ l.filter p ↔ x ∈ l.filter q := by rw [h]
  rw [List.mem_filter, List.mem_filter, and_iff_right hx, and_iff_right hx] at hmem
  exact Bool.eq_iff_iff.mpr hmem

/-- The two selections agree on an entry exactly when the time in the key sought does not cut it off. -/
theorem wholePicks_agree_iff (m : Mac) {k : Nat} (hk : k ≤ 5) (start finish : Int) (m' : Mac) (t : UInt32) :
    (readLogPicks (firstBytes m 6) start finish m' t =
      (decide (m' = m) && readLogPicks (firstBytes m k) start finish m' t)) ↔
      (m' = m → InRange (timeRange start finish) t → time32 start ≤ t) := by
  have hshort : ¬(firstBytes m k).sz = 6 := by
    rw [firstBytes_sz m (by omega)]
    omega
  rw [Bool.eq_iff_iff, readLogPicks, readLogPicks, Bool.and_eq_true, Bool.and_eq_true, Bool.and_eq_true]
  simp only [decide_eq_true_iff, firstBytes_whole_matches_iff, firstBytes_sz m (le_refl 6), hshort, forall_const,
    false_imp_iff, and_true]
  constructor
  · intro h hm hin
    exact (h.mpr ⟨hm, hm ▸ firstBytes_matches m k, hin⟩).2
  · intro h
    constructor
    · rintro ⟨⟨hm, hin⟩, -⟩
      exact ⟨hm, hm ▸ firstBytes_matches m k, hin⟩
    · rintro ⟨hm, -, hin⟩
      exact ⟨⟨hm, hin⟩, h hm hin⟩

/-- The listings agree when the selections do on every entry of the log. -/
theorem fastPathAgrees_iff_picks {s : Store} (hwf : WellFormed s) (hpads : ConstPads s 0) (slack slack' : Slack)
    (m : Mac) (k : Nat) (start finish : Int) : FastPathAgrees s slack slack' m k start finish ↔
      ∀ x ∈ logEntries s, onKeys (readLogPicks (firstBytes m 6) start finish) x =
        (decide ((ofLex x.1).1 = m) && onKeys (readLogPicks (firstBytes m k) start finish) x) := by
  rw [FastPathAgrees, listed_eq hwf hpads, listed_eq hwf hpads, List.filter_map, List.filter_filter,
    (List.map_injective_iff.mpr logItem_injective).eq_iff, filter_eq_filter_iff]
  rfl

/-- A whole address lists what its beginnings list of it exactly when none of its records is in the range and
before the start as it was given. -/
theorem fastPath_agrees_iff (calls : List Step) (hcalls : ∀ c ∈ calls, c.2.pad.key = 0) (slack slack' : Slack)
    (m : Mac) (k : Nat) (hk : k ≤ 5) (start finish : Int) :
    FastPathAgrees (run .empty calls) slack slack' m k start finish ↔
      ¬EarlyInRange (run .empty calls) m start finish := by
  have hwf := run_wellFormed calls
  have hpads := ((constPads_empty 0).run hcalls).2
  have hpicks := wholePicks_agree_iff m hk start finish
  rw [fastPathAgrees_iff_picks hwf hpads]
  constructor
  · rintro h ⟨t, d, hlog, hin, hearly⟩
    have hentry := h _ ((mem_logEntries hwf m t d).mpr hlog)
    exact UInt32.not_le.mpr hearly ((hpicks m t).mp hentry rfl hin)
  · rintro h ⟨⟨m', t⟩, d⟩ hx
    apply (hpicks m' t).mpr
    intro hm hin
    apply UInt32.not_lt.mp
    intro hearly
    exact h ⟨t, d, hm ▸ (mem_logEntries hwf m' t d).mp hx, hin, hearly⟩

theorem fastPath_agrees_sample :
    FastPathAgrees (run .empty sampleRun) (fun _ _ => 0) (fun _ _ => 7) sampleMac 5 90 250 :=
  (fastPath_agrees_iff sampleRun sampleRun_pads (fun _ _ => 0) (fun _ _ => 7) sampleMac 5 (by decide) 90 250).mpr
    (not_earlyInRange _ _ (by decide) (by decide) (by decide))

/-- A record of time 100 in the range from 200 back to 50. -/
theorem fastPath_misses : ¬∀ (calls : List Step) (slack slack' : Slack) (m : Mac) (k : Nat) (start finish : Int),
    (∀ c ∈ calls, c.2.pad.key = 0) → k ≤ 5 → FastPathAgrees (run .empty calls) slack slack' m k start finish := by
  intro h
  have hagrees := h [(.putLog sampleBuffer 100, filledMemory 0)] (fun _ _ => 0) (fun _ _ => 0) sampleMac 0 200 50
    (by simp [filledMemory]) (by decide)
  have hwhole : listed (run .empty [(.putLog sampleBuffer 100, filledMemory 0)]) (fun _ _ => 0) (firstBytes sampleMac 6)
      200 50 = [] := by decide
  have hall : listed (run .empty [(.putLog sampleBuffer 100, filledMemory 0)]) (fun _ _ => 0) (firstBytes sampleMac 0)
      200 50 = [⟨sampleMac, 100, some ⟨1, -50⟩⟩] := by decide
  rw [FastPathAgrees, hwhole, hall] at hagrees
  exact absurd hagrees (by decide)

/-! ### Removing what is listed -/

/-- A removal deletes what a listing with the same arguments shows, and afterwards that listing shows nothing. -/
structure RemoveErases (s : Store) (slack slack' : Slack) (f : Filter) (start finish : Int) : Prop where
  deleted : ∀ e ∈ s.entries, e ∉ (quietly (rmLog slack' f start finish 0) s).2.entries ↔
    entryTag e = tagL ∧ logItem (logCell e) ∈ listed s slack f start finish
  nothing : listed (quietly (rmLog slack' f start finish 0) s).2 slack f start finish = []

/-- A log record is listed when the selection of `readLog` has it. -/
theorem mem_listed_iff_onLogs {s : Store} (hwf : WellFormed s) (hpads : ConstPads s 0) (slack : Slack) (f : Filter)
    (start finish : Int) {e : Bytes × Bytes} (he : e ∈ s.entries) :
    (entryTag e = tagL ∧ logItem (logCell e) ∈ listed s slack f start finish) ↔
      onLogs (readLogPicks f start finish) e = true := by
  rw [listed_eq hwf hpads, List.mem_map_of_injective logItem_injective, List.mem_filter, onLogs, Bool.and_eq_true,
    decide_eq_true_iff]
  refine and_congr_right fun htag => ⟨And.right, fun hpick => ⟨?_, hpick⟩⟩
  exact List.mem_map_of_mem (List.mem_filter.mpr ⟨he, by simp [onLogs, htag]⟩)

/-- The two selections differ at the padded address of a partial filter only. -/
theorem picks_agree_iff (f : Filter) (start finish : Int) (m : Mac) (t : UInt32) :
    rmLogPicks f start finish m t = readLogPicks f start finish m t ↔
      (f.sz < 6 → m = f.mac → InRange (timeRange start finish) t → time32 start ≤ t) := by
  rw [Bool.eq_iff_iff, rmLogPicks, readLogPicks, Bool.and_eq_true, Bool.and_eq_true]
  simp only [decide_eq_true_iff]
  by_cases hsz : f.sz = 6
  · refine iff_of_true (and_congr_right fun hpicked => ?_) fun hlt => absurd hlt (by omega)
    exact ⟨fun h _ => h (f.eq_mac_of_matches hsz hpicked.1), fun h _ => h hsz⟩
  · have hlt : f.sz < 6 := lt_of_le_of_ne f.sz_le hsz
    simp only [hsz, hlt, forall_const, false_imp_iff, and_true]
    exact ⟨fun h hm hin => (h.mpr ⟨hm ▸ f.mac_matches, hin⟩).2 hm,
      fun h => ⟨And.left, fun hin => ⟨hin, fun hm => h hm hin.2⟩⟩⟩

section Removal

variable {s : Store} (hwf : WellFormed s) (hpads : ConstPads s 0) (slack : Slack) (f : Filter) (start finish : Int)
include hwf hpads

theorem not_mem_rmLog_iff {e : Bytes × Bytes} (he : e ∈ s.entries) :
    e ∉ (quietly (rmLog slack f start finish 0) s).2.entries ↔ onLogs (rmLogPicks f start finish) e = true := by
  rw [rmLog_store hwf slack f start finish (hpads f.mac), OrderedMap.mem_filter, Bool.not_eq_true',
    and_iff_right he, Bool.not_eq_false]

/-- A removal leaves records as they are put, with the alignment byte they had. -/
theorem rmLog_keeps : WellFormed (quietly (rmLog slack f start finish 0) s).2 ∧
    ConstPads (quietly (rmLog slack f start finish 0) s).2 0 := by
  rw [rmLog_store hwf slack f start finish (hpads f.mac)]
  constructor
  · exact fun e he => hwf e ((s.mem_filter _ e).mp he).1
  · exact fun m p t d x hlog => hpads m p t d x ((s.mem_filter _ _).mp hlog).1

omit hpads in
/-- With no record of the padded address cut off, the two selections have the same records of the store. -/
theorem onLogs_picks_agree (h : f.sz < 6 → ¬EarlyInRange s f.mac start finish) {e : Bytes × Bytes}
    (he : e ∈ s.entries) : onLogs (rmLogPicks f start finish) e = onLogs (readLogPicks f start finish) e := by
  obtain ⟨r, rfl⟩ := hwf e he
  cases r with
  | log m p t d x =>
      rw [onLogs_log, onLogs_log, picks_agree_iff]
      intro hsz hm hin
      apply UInt32.not_lt.mp
      intro hearly
      exact h hsz ⟨t, d, ⟨p, x, hm ▸ he⟩, hin, hearly⟩
  | probe => rw [onLogs_probe, onLogs_probe]
  | note => rw [onLogs_note, onLogs_note]

/-- What is left of the listing is what the removal does not select. -/
theorem listed_after_rmLog (slack' : Slack) (h : ∀ e ∈ s.entries, onLogs (readLogPicks f start finish) e = true →
    onLogs (rmLogPicks f start finish) e = true) :
    listed (quietly (rmLog slack' f start finish 0) s).2 slack f start finish = [] := by
  obtain ⟨hleft, hleftPads⟩ := rmLog_keeps hwf hpads slack' f start finish
  have hnone : (quietly (rmLog slack' f start finish 0) s).2.entries.filter (onLogs (readLogPicks f start finish)) =
      [] := by
    rw [rmLog_store hwf slack' f start finish (hpads f.mac), List.filter_eq_nil_iff]
    intro e he hpick
    obtain ⟨hmem, hkept⟩ := (s.mem_filter _ e).mp he
    rw [h e hmem hpick] at hkept
    cases hkept
  rw [listed_eq hleft hleftPads, ← map_logCell_onLogs, hnone]
  rfl

end Removal

/-- `rmLog` erases what `readLog` shows exactly when the filter is a whole address, or no record of the padded
address is in the range and before the start as it was given. -/
theorem remove_erases_iff (calls : List Step) (hcalls : ∀ c ∈ calls, c.2.pad.key = 0) (slack slack' : Slack)
    (f : Filter) (start finish : Int) : RemoveErases (run .empty calls) slack slack' f start finish ↔
      (f.sz < 6 → ¬EarlyInRange (run .empty calls) f.mac start finish) := by
  have hwf := run_wellFormed calls
  have hpads := ((constPads_empty 0).run hcalls).2
  constructor
  · rintro h hsz ⟨t, d, ⟨p, x, hlog⟩, hin, hearly⟩
    have hsame := h.deleted _ hlog
    rw [not_mem_rmLog_iff hwf hpads slack' f start finish hlog,
      mem_listed_iff_onLogs hwf hpads slack f start finish hlog, onLogs_log, onLogs_log, ← Bool.eq_iff_iff,
      picks_agree_iff] at hsame
    exact UInt32.not_le.mpr hearly (hsame hsz rfl hin)
  · intro h
    have hpicks : ∀ e ∈ (run .empty calls).entries,
        onLogs (rmLogPicks f start finish) e = onLogs (readLogPicks f start finish) e :=
      fun e he => onLogs_picks_agree hwf f start finish h he
    constructor
    · intro e he
      rw [not_mem_rmLog_iff hwf hpads slack' f start finish he,
        mem_listed_iff_onLogs hwf hpads slack f start finish he, hpicks e he]
    · exact listed_after_rmLog hwf hpads slack f start finish slack' fun e he hpick => (hpicks e he).trans hpick

theorem remove_erases_sample : RemoveErases (run .empty sampleRun) (fun _ _ => 0) (fun _ _ => 7) fiveBytes 90 250 :=
  (remove_erases_iff sampleRun sampleRun_pads (fun _ _ => 0) (fun _ _ => 7) fiveBytes 90 250).mpr
    fun _ => not_earlyInRange _ _ (by decide) (by decide) (by decide)

/-- A record of the address of zeros and time 100, in the range from 200 back to 50: it is listed, and stays. -/
theorem remove_leaves_listed : ¬∀ (calls : List Step) (slack slack' : Slack) (f : Filter) (start finish : Int),
    (∀ c ∈ calls, c.2.pad.key = 0) → RemoveErases (run .empty calls) slack slack' f start finish := by
  intro h
  have hnothing := (h [(.putLog [0, 1, 0xff, 0xce, 0, 0, 0, 0, 0, 0] 100, filledMemory 0)] (fun _ _ => 0) (fun _ _ => 0)
    anyMac 200 50 (by simp [filledMemory])).nothing
  exact absurd hnothing (by decide)

end Wacs
