import Wacs.DumpLine
import Wacs.LogExact

/-! A log printed and loaded into an empty store: all of it comes back but the signal levels. -/

namespace Wacs

open OrderedCursor TextScan

/-- `wacsc log` without paging. -/
def unlimited : ReqEnv := ⟨false, 0, 0, -1, []⟩

/-- What `onLog` prints for some log entries. -/
def dump (z : Zone) (entries : List ((Mac ×ₗ UInt32) × LogData)) : Bytes :=
  (deliver (onLog z) unlimited (entries.map logItem)).out

/-- The text loaded into an empty store: what is returned, and the store. -/
def load (z : Zone) (record : LogRecord) (pad : Padding) (text : Bytes) : Int × Store :=
  quietly (putLogEntries (supplied z record text) pad) .empty

theorem deliver_onLog (z : Zone) (e : ReqEnv) (hflag : e.interruptFlag = false) (hoffset : e.offset = 0)
    (hcount : e.count = -1) (items : List LogItem) :
    (deliver (onLog z) e items).out = e.out ++ items.flatMap (logLine z) := by
  induction items generalizing e with
  | nil => simp [deliver]
  | cons item items ih =>
      have hstep : onLog z e item =
          ({ e with position := e.position + 1, out := e.out ++ logLine z item }, false) := by
        simp [onLog, hflag, hoffset, hcount]
      rw [deliver, hstep, if_neg Bool.false_ne_true, ih]
      · rw [List.flatMap_cons, List.append_assoc]
      · exact hflag
      · exact hoffset
      · exact hcount

theorem dump_eq (z : Zone) (entries : List ((Mac ×ₗ UInt32) × LogData)) :
    dump z entries = (entries.map logItem).flatMap (logLine z) := by
  rw [dump, deliver_onLog z unlimited rfl rfl rfl]
  rfl

theorem length_le_dump (z : Zone) (entries : List ((Mac ×ₗ UInt32) × LogData)) :
    entries.length ≤ (dump z entries).length := by
  rw [dump_eq]
  induction entries with
  | nil => exact Nat.zero_le _
  | cons x entries ih =>
      have hline : 0 < (logLine z (logItem x)).length := by simp [logLine]
      simp only [List.map_cons, List.flatMap_cons, List.length_append, List.length_cons]
      omega

/-- The record of an entry's line. -/
def rereadEntry (z : Zone) (x : (Mac ×ₗ UInt32) × LogData) : LogRecord :=
  rereadRecord z (ofLex x.1).1 (ofLex x.1).2 x.2

/-- Each line of a dump supplies one record, whatever the record held before. -/
theorem supplied_dump (z : Zone) (record : LogRecord) (entries : List ((Mac ×ₗ UInt32) × LogData)) :
    supplied z record (dump z entries) = entries.map (rereadEntry z) := by
  have hlines : ∀ n record, entries.length ≤ n →
      suppliedBy z n record (dump z entries) = entries.map (rereadEntry z) := by
    simp only [dump_eq]
    induction entries with
    | nil =>
        intro n record _
        cases n with
        | zero => rfl
        | succ n => rfl
    | cons x entries ih =>
        intro n record hn
        cases n with
        | zero => cases hn
        | succ n =>
            rw [List.map_cons, List.flatMap_cons, suppliedBy, logItem, onPutLogEntry_logLine]
            exact congrArg _ (ih n _ (Nat.le_of_succ_le_succ hn))
  exact hlines _ record (length_le_dump z entries)

/-- In a zone with one offset a date comes back as the time it was. -/
theorem time32_parseDate {z : Zone} (hfixed : ∀ t, z.inDst t = false) (t : UInt32) :
    time32 (parseDate z (timeT2string z t.toNat)) = t := by
  have hlt := t.toNat_lt
  have hoffset : z.offset t.toNat = z.stdOffset := by
    rw [Zone.offset, hfixed]
    rfl
  rw [parseDate_timeT2string z t.toNat (Int.natCast_nonneg _) (by omega), hoffset, Int.add_sub_cancel]
  apply UInt32.toNat_inj.mp
  rw [time32, UInt32.toNat_ofNat']
  omega

/-- An entry as it comes back. -/
def reread (x : (Mac ×ₗ UInt32) × LogData) : (Mac ×ₗ UInt32) × LogData :=
  (x.1, { x.2 with ssiSignal := signalByte x.2.ssiSignal })

theorem reread_eq_iff (x : (Mac ×ₗ UInt32) × LogData) : reread x = x ↔ x.2.ssiSignal = 53 := by
  obtain ⟨k, deviceId, ssiSignal⟩ := x
  simp [reread, signalByte_eq_iff]

/-- The log of a batch put into empty tables. -/
theorem step_putLogEntries_log (records : List LogRecord) :
    (LogTables.empty.step (.putLogEntries records)).log =
      OrderedMap.empty.putAll (records.map fun r => (toLex (r.sa, r.dt), ⟨r.deviceId, r.ssiSignal⟩)) := by
  have hfold : ∀ T : LogTables,
      (T.step (.putLogEntries records)).log =
        T.log.putAll (records.map fun r => (toLex (r.sa, r.dt), ⟨r.deviceId, r.ssiSignal⟩)) := by
    induction records with
    | nil => exact fun T => rfl
    | cons r records ih => exact fun T => ih (T.observe r.sa r.dt ⟨r.deviceId, r.ssiSignal⟩)
  exact hfold LogTables.empty

theorem refines_putLogEntries (records : List LogRecord) (pad : Padding) :
    Refines (quietly (putLogEntries records pad) .empty).2 (LogTables.empty.step (.putLogEntries records)) :=
  refines_empty.step_call (c := (.putLogEntries records, { filledMemory 0 with pad := pad }))
    fun record _ => constPads_empty pad.key record.sa

/-- The log of a store into which a dump has been loaded. -/
theorem logEntries_load {z : Zone} (hfixed : ∀ t, z.inDst t = false) (record : LogRecord) (pad : Padding)
    (entries : List ((Mac ×ₗ UInt32) × LogData)) :
    logEntries (load z record pad (dump z entries)).2 = (OrderedMap.empty.putAll (entries.map reread)).entries := by
  have hrecords : (entries.map (rereadEntry z)).map (fun r => (toLex (r.sa, r.dt), ⟨r.deviceId, r.ssiSignal⟩)) =
      entries.map reread := by
    rw [List.map_map]
    refine List.map_congr_left fun x _ => ?_
    simp only [Function.comp_apply, rereadEntry, rereadRecord, time32_parseDate hfixed]
    rfl
  calc logEntries (load z record pad (dump z entries)).2
      = logEntries (quietly (putLogEntries (entries.map (rereadEntry z)) pad) .empty).2 := by
        rw [load, supplied_dump]
    _ = (LogTables.empty.step (.putLogEntries (entries.map (rereadEntry z)))).log.entries :=
        (refines_putLogEntries _ pad).entries.symm
    _ = (OrderedMap.empty.putAll (entries.map reread)).entries := by
        rw [step_putLogEntries_log, hrecords]

theorem load_count (z : Zone) (record : LogRecord) (pad : Padding)
    (entries : List ((Mac ×ₗ UInt32) × LogData)) :
    (load z record pad (dump z entries)).1 = (entries.length : Int) := by
  rw [load, putLogEntries_quiet, supplied_dump, List.length_map]

/-- The dump of a log, its entries printed in some order, has been loaded: the store has the log, and
the number of its entries is returned, with no `int` run over. -/
structure Restores (loaded : Int × Store) (log : OrderedMap (Mac ×ₗ UInt32) LogData) : Prop where
  int : int32 loaded.1 = loaded.1
  count : loaded.1 = (log.entries.length : Int)
  log : logEntries loaded.2 = log.entries

/-- A dump restores the log exactly when each signal level is the code of the first byte of its number, and an `int`
counts the entries. -/
theorem dump_load_exact_iff (z : Zone) (hfixed : ∀ t, z.inDst t = false)
    (log : OrderedMap (Mac ×ₗ UInt32) LogData) (entries : List ((Mac ×ₗ UInt32) × LogData))
    (horder : entries.Perm log.entries) (record : LogRecord) (pad : Padding) :
    Restores (load z record pad (dump z entries)) log ↔
      (∀ x ∈ log.entries, x.2.ssiSignal = 53) ∧ log.entries.length < 2 ^ 31 := by
  have hcount : (load z record pad (dump z entries)).1 = (log.entries.length : Int) := by
    rw [load_count, horder.length_eq]
  have hnodup : ((entries.map reread).map Prod.fst).Nodup := by
    have hkeys : (entries.map reread).map Prod.fst = entries.map Prod.fst := by
      rw [List.map_map]
      rfl
    rw [hkeys]
    exact (horder.map Prod.fst).nodup_iff.mpr log.keys_nodup
  have hmem : ∀ k v, ((OrderedMap.empty.putAll (entries.map reread)).get k = some v) ↔ (k, v) ∈ entries.map reread :=
    OrderedMap.get_putAll_empty_iff _ hnodup
  have hint : int32 (load z record pad (dump z entries)).1 = (load z record pad (dump z entries)).1 ↔
      log.entries.length < 2 ^ 31 := by rw [hcount, int32_natCast_iff]
  refine ⟨fun h => ⟨fun x hx => ?_, hint.mp h.int⟩, fun ⟨hall, hlt⟩ => ⟨hint.mpr hlt, hcount, ?_⟩⟩
  · have hback : reread x ∈ log.entries := by
      rw [← h.log, logEntries_load hfixed, ← OrderedMap.get_eq_some_iff _ (reread x).1 (reread x).2, hmem]
      exact List.mem_map_of_mem (horder.mem_iff.mpr hx)
    have hdata : (reread x).2 = x.2 := log.key_inj hback hx
    exact (reread_eq_iff x).mp (Prod.ext rfl hdata)
  · have hsame : entries.map reread = entries := by
      refine (List.map_congr_left fun x hx => ?_).trans (List.map_id entries)
      exact (reread_eq_iff x).mpr (hall x (horder.mem_iff.mp hx))
    rw [logEntries_load hfixed, hsame]
    rw [hsame] at hmem
    have hlog : OrderedMap.empty.putAll entries = log := by
      refine OrderedMap.ext_mem fun x => ?_
      rw [← OrderedMap.get_eq_some_iff _ x.1 x.2, hmem]
      exact horder.mem_iff
    rw [hlog]

/-- Nine hours east of UTC. -/
def sampleZone : Zone := ⟨32400, 32400, fun _ => false, [43, 48, 57], [43, 48, 57], by decide, by simp⟩

/-- A log of one entry. -/
def sampleLog (ssiSignal : Int8) : OrderedMap (Mac ×ₗ UInt32) LogData :=
  OrderedMap.empty.put (toLex (sampleMac, 1548916195)) ⟨1, ssiSignal⟩

/-- Entries of two addresses, one of them at two times. -/
def levelLog : OrderedMap (Mac ×ₗ UInt32) LogData :=
  ((sampleLog 53).put (toLex (sampleMac, 1548916200)) ⟨65535, 53⟩).put (toLex (sampleMac', 0)) ⟨7, 53⟩

theorem dump_load_exact_sample : Restores
    (load sampleZone ⟨sampleMac', 0, 0, 0⟩ ⟨0, 0⟩ (dump sampleZone levelLog.entries.reverse)) levelLog :=
  (dump_load_exact_iff sampleZone (fun _ => rfl) levelLog _ (List.reverse_perm _) _ _).mpr
    ⟨by decide, by decide⟩

/-- A level of -50 comes back as the code of the minus sign. -/
theorem dump_load_changes_signal : ¬∀ (z : Zone) (log : OrderedMap (Mac ×ₗ UInt32) LogData) (record : LogRecord)
    (pad : Padding), (∀ t, z.inDst t = false) → Restores (load z record pad (dump z log.entries)) log := by
  intro h
  have hentries := (h sampleZone (sampleLog (-50)) ⟨sampleMac', 0, 0, 0⟩ ⟨0, 0⟩ fun _ => rfl).log
  rw [logEntries_load fun _ => rfl] at hentries
  exact absurd hentries (by decide)

end Wacs
