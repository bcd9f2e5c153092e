import Wacs.LogTables

/-! With one alignment byte in every key, `readLog` lists exactly the log and `rmLog` removes exactly what
it should. -/

namespace Wacs

open OrderBytes OrderedCursor

/-- One alignment byte for the whole store. -/
def ConstPads (s : Store) (pad : UInt8) : Prop := ∀ m, PadsOf s m pad

theorem ConstPads.aligned {s : Store} {pad : UInt8} (h : ConstPads s pad) {c : Step} (hc : c.2.pad.key = pad) :
    Aligned s c := by
  obtain ⟨op, mem⟩ := c
  subst hc
  cases op with
  | putLog => exact h _
  | putLogEntries => exact fun _ _ => h _
  | readLog => exact fun _ => h _
  | rmLog => exact h _
  | putNotification => trivial
  | rmNotification => trivial

theorem ConstPads.edits {s : Store} {pad : UInt8} (h : ConstPads s pad) (xs : List Edit)
    (hxs : ∀ m p t d e, .observe m p t d e ∈ xs → p = pad) : ConstPads (xs.foldl Edit.apply s) pad := by
  induction xs generalizing s with
  | nil => exact h
  | cons x xs ih =>
      refine ih ?_ fun m p t d e hx => hxs m p t d e (List.mem_cons_of_mem _ hx)
      intro m
      cases x with
      | observe m' p t d e => exact padsOf_observe (h m) fun _ => hxs m' p t d e List.mem_cons_self
      | note m' y v =>
          intro p t d e hmem
          exact h m p t d e ((mem_note_of_tag_ne s m' y v (by exact tagT_ne_tagL.symm)).mp hmem)
      | drop gone => exact fun p t d e hmem => h m p t d e ((mem_drop s gone _).mp hmem).1

theorem ConstPads.perform {s : Store} {pad : UInt8} (h : ConstPads s pad) {c : Step}
    (hc : c.2.pad.key = pad) : ConstPads (perform s c).2 pad := by
  rw [perform_store]
  exact h.edits _ fun m p t d e hx => (edits_pad hx).trans hc

theorem ConstPads.run {s : Store} {pad : UInt8} (h : ConstPads s pad) {calls : List Step}
    (hcalls : ∀ c ∈ calls, c.2.pad.key = pad) : AlignedRun s calls ∧ ConstPads (run s calls) pad := by
  induction calls generalizing s with
  | nil => exact ⟨trivial, h⟩
  | cons c calls ih =>
      have hc := hcalls c List.mem_cons_self
      obtain ⟨haligned, hpads⟩ := ih (h.perform hc) fun c hmem => hcalls c (List.mem_cons_of_mem _ hmem)
      exact ⟨⟨h.aligned hc, haligned⟩, hpads⟩

theorem constPads_empty (pad : UInt8) : ConstPads .empty pad :=
  fun _ _ _ _ _ h => absurd h (OrderedMap.mem_empty _)

/-- The log table after a sequence of calls. -/
def logAfter (calls : List Step) : OrderedMap (Mac ×ₗ UInt32) LogData :=
  (LogTables.empty.run (calls.map Prod.fst)).log

/-- A run with one alignment byte stands for the tables its calls mean. -/
theorem run_refines {pad : UInt8} {calls : List Step} (hcalls : ∀ c ∈ calls, c.2.pad.key = pad) :
    Refines (run .empty calls) (LogTables.empty.run (calls.map Prod.fst)) :=
  refines_empty.run_calls ((constPads_empty pad).run hcalls).1

/-- `readLog` hands to its callback, in order, the entries of the log that match its filter and range, up
to the one at which the callback stops; and the log is what the store holds. -/
theorem readLog_lists_log {σ : Type} (calls : List Step) (hcalls : ∀ c ∈ calls, c.2.pad.key = 0)
    (slack : Slack) (f : Filter) (start finish : Int) (hstart : 0 ≤ start) (hle : start ≤ rangeEnd finish)
    (hlt : rangeEnd finish < 2 ^ 32) (onLog : OnLog σ) (env : σ) :
    handedItems (quietly (readLog slack f start finish 0 (some onLog) (some env)) (run .empty calls)).1 =
        handed onLog env (((logAfter calls).entries.filter (onKeys (logPicks f start finish))).map logItem) ∧
      ∀ m t d, (logAfter calls).get (toLex (m, t)) = some d ↔ HasLog (run .empty calls) m t d := by
  have hpads := ((constPads_empty 0).run hcalls).2
  have h := run_refines hcalls
  refine ⟨?_, h.log⟩
  rw [readLog_items h slack f start finish (fun _ => hpads f.mac) onLog env,
    readLogPicks_eq f hstart hle hlt]
  rfl

theorem readLog_lists_log_sample :
    handedItems
        (quietly (readLog (fun _ _ => 0) fiveBytes 90 250 0 (some takeAll) (some ())) (run .empty sampleRun)).1 =
      [⟨sampleMac, 100, some ⟨1, -50⟩⟩, ⟨sampleMac, 200, some ⟨1, -60⟩⟩, ⟨sampleMac', 150, some ⟨2, -70⟩⟩] :=
  (readLog_lists_log sampleRun sampleRun_pads (fun _ _ => 0) fiveBytes 90 250 (by decide) (by decide) (by decide)
    takeAll ()).1.trans (by decide)

section Removal

variable {calls : List Step} (hcalls : ∀ c ∈ calls, c.2.pad.key = 0) (slack : Slack) (f : Filter) {start finish : Int}
  (hstart : 0 ≤ start) (hle : start ≤ rangeEnd finish) (hlt : rangeEnd finish < 2 ^ 32)
include hcalls hstart hle hlt

theorem rmLog_leaves : (quietly (rmLog slack f start finish 0) (run .empty calls)).2 =
    (run .empty calls).filter fun e => !onLogs (logPicks f start finish) e := by
  have hpads := ((constPads_empty 0).run hcalls).2
  rw [rmLog_store (run_wellFormed calls) slack f start finish (hpads f.mac), rmLogPicks_eq f hstart hle hlt]

/-- What goes is counted as far as an `int` does. -/
theorem rmLog_countsGone_iff (hne : (run .empty calls).entries ≠ []) :
    CountsGone (run .empty calls) (quietly (rmLog slack f start finish 0) (run .empty calls)) ↔
      ((run .empty calls).entries.filter (onLogs (logPicks f start finish))).length < 2 ^ 31 := by
  have hpads := ((constPads_empty 0).run hcalls).2
  have hwf := run_wellFormed calls
  have hvisited := rmLog_visited hwf slack f start finish (hpads f.mac)
  rw [rmLogPicks_eq f hstart hle hlt] at hvisited
  apply countsGone_iff
  · rw [rmLog_quiet, hvisited, if_neg (mt (rmLog_seek_eq_nil hwf (run_attended calls) f start 0).mp hne)]
  · rw [rmLog_leaves hcalls slack f hstart hle hlt]
    exact (run .empty calls).length_filter_add _

end Removal

/-- `rmLog` removes the log records that match its filter and range and leaves every other record as it is; what it
returns is their number exactly when an `int` counts them. -/
theorem rmLog_removes_log (calls : List Step) (hcalls : ∀ c ∈ calls, c.2.pad.key = 0)
    (hne : (run .empty calls).entries ≠ []) (slack : Slack) (f : Filter) (start finish : Int)
    (hstart : 0 ≤ start) (hle : start ≤ rangeEnd finish) (hlt : rangeEnd finish < 2 ^ 32) :
    (quietly (rmLog slack f start finish 0) (run .empty calls)).2 =
        (run .empty calls).filter (fun e => !onLogs (logPicks f start finish) e) ∧
      (CountsGone (run .empty calls) (quietly (rmLog slack f start finish 0) (run .empty calls)) ↔
        ((run .empty calls).entries.filter (onLogs (logPicks f start finish))).length < 2 ^ 31) :=
  ⟨rmLog_leaves hcalls slack f hstart hle hlt, rmLog_countsGone_iff hcalls slack f hstart hle hlt hne⟩

theorem rmLog_removes_log_sample :
    CountsGone (run .empty sampleRun) (quietly (rmLog (fun _ _ => 0) fiveBytes 90 250 0) (run .empty sampleRun)) :=
  (rmLog_removes_log sampleRun sampleRun_pads (by decide) (fun _ _ => 0) fiveBytes 90 250 (by decide) (by decide)
    (by decide)).2.mpr (by decide)

/-! ### More records than an `int` counts -/

/-- An observation of one address in each of the first seconds. -/
def everySecond (n : Nat) : List Step :=
  (List.range n).map fun t : Nat => (.putLog sampleBuffer (t : Int), filledMemory 0)

theorem everySecond_pads (n : Nat) : ∀ c ∈ everySecond n, c.2.pad.key = 0 := by
  intro c hc
  obtain ⟨t, -, rfl⟩ := List.mem_map.mp hc
  rfl

theorem logAfter_everySecond {n t : Nat} (ht : t < n) :
    ((logAfter (everySecond n)).get (toLex (sampleMac, time32 t))).isSome := by
  induction n with
  | zero => cases ht
  | succ n ih =>
      have hlast : logAfter (everySecond (n + 1)) =
          (logAfter (everySecond n)).put (toLex (sampleMac, time32 n)) (bufferData sampleBuffer) := by
        unfold logAfter everySecond LogTables.run
        rw [List.range_succ, List.map_append, List.map_append, List.foldl_append]
        rfl
      rw [hlast]
      rcases Nat.lt_succ_iff_lt_or_eq.mp ht with hlt | rfl
      · exact OrderedMap.isSome_get_put (ih hlt) _ _
      · rw [OrderedMap.get_put_self]
        rfl

/-- So many records are in the log. -/
theorem length_everySecond {n : Nat} (hn : n ≤ 2 ^ 32) :
    n ≤ ((run .empty (everySecond n)).entries.filter (onLogs (logPicks anyMac 0 0))).length := by
  have hwf := run_wellFormed (everySecond n)
  have hnodup : ((List.range n).map fun t : Nat => toLex (sampleMac, time32 t)).Nodup := by
    refine List.Nodup.map_on (fun t ht t' ht' heq => ?_) List.nodup_range
    have htime := congrArg (fun k => (ofLex k).2.toNat) heq
    rw [List.mem_range] at ht ht'
    simp only [ofLex_toLex, time32, UInt32.toNat_ofNat'] at htime
    omega
  have hsub : ((List.range n).map fun t : Nat => toLex (sampleMac, time32 t)) ⊆
      (logEntries (run .empty (everySecond n))).map Prod.fst := by
    intro k hk
    obtain ⟨t, ht, rfl⟩ := List.mem_map.mp hk
    obtain ⟨d, hd⟩ := Option.isSome_iff_exists.mp (logAfter_everySecond (List.mem_range.mp ht))
    have hlog := ((run_refines (everySecond_pads n)).log sampleMac (time32 t) d).mp hd
    exact List.mem_map.mpr ⟨_, (mem_logEntries hwf _ _ _).mpr hlog, rfl⟩
  have hall : (run .empty (everySecond n)).entries.filter (onLogs (logPicks anyMac 0 0)) =
      (run .empty (everySecond n)).entries.filter (onLogs fun _ _ => true) := by
    refine List.filter_congr fun e he => ?_
    obtain ⟨r, rfl⟩ := hwf e he
    cases r with
    | log m p t d x =>
        have hlt := t.toNat_lt
        rw [onLogs_log, onLogs_log, logPicks, decide_eq_true_iff]
        exact ⟨rfl, Int.natCast_nonneg _, by rw [rangeEnd, if_pos rfl]; omega⟩
    | probe => rw [onLogs_probe, onLogs_probe]
    | note => rw [onLogs_note, onLogs_note]
  have hle := (List.subperm_of_subset hnodup hsub).length_le
  rwa [List.length_map, List.length_range, List.length_map, logEntries, List.length_map, ← hall] at hle

/-- With an observation in each of the first `2 ^ 31` seconds an `int` does not count what goes. -/
theorem rmLog_runs_over : ¬∀ (calls : List Step) (slack : Slack) (f : Filter) (start finish : Int),
    (∀ c ∈ calls, c.2.pad.key = 0) → (run .empty calls).entries ≠ [] → 0 ≤ start → start ≤ rangeEnd finish →
      rangeEnd finish < 2 ^ 32 →
      CountsGone (run .empty calls) (quietly (rmLog slack f start finish 0) (run .empty calls)) := by
  intro h
  have hmany : 2 ^ 31 ≤ _ := length_everySecond (n := 2 ^ 31) (by decide)
  have hpads := everySecond_pads (2 ^ 31)
  generalize everySecond (2 ^ 31) = calls at hmany hpads
  have hne : (run .empty calls).entries ≠ [] := by
    intro hnil
    rw [hnil] at hmany
    exact absurd hmany (by decide)
  have hcounts := h calls (fun _ _ => 0) anyMac 0 0 hpads hne (by decide) (by decide) (by decide)
  have hlt := (rmLog_countsGone_iff hpads _ anyMac (by decide) (by decide) (by decide) hne).mp hcounts
  exact absurd hlt (not_lt.mpr hmany)

end Wacs
