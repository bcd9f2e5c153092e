import Mathlib.Data.Prod.Lex
import Wacs.StoreRuns

/-! What the store is for: a log, by address and time, and the time each address was last heard. The calls
refine the operations on these two tables as long as the alignment byte of each key they build is that
of the log records held at the key's address. -/

namespace Wacs

open OrderBytes OrderedCursor

/-- The log and the last probes. -/
structure LogTables where
  log : OrderedMap (Mac ×ₗ UInt32) LogData
  last : OrderedMap Mac UInt32

/-- A log entry of the table as the callback is given it. -/
def logItem (x : (Mac ×ₗ UInt32) × LogData) : LogItem := ⟨(ofLex x.1).1, (ofLex x.1).2, some x.2⟩

/-- A selection on the keys of the table. -/
def onKeys (picks : Mac → UInt32 → Bool) (x : (Mac ×ₗ UInt32) × LogData) : Bool :=
  picks (ofLex x.1).1 (ofLex x.1).2

namespace LogTables

def empty : LogTables := ⟨.empty, .empty⟩

def observe (T : LogTables) (m : Mac) (t : UInt32) (d : LogData) : LogTables :=
  ⟨T.log.put (toLex (m, t)) d, T.last.put m t⟩

/-- What a call means. -/
def step (T : LogTables) : Op → LogTables
  | .putLog buffer now =>
      if buffer.length < sizeofLogEntry then T
      else T.observe (ntohLogEntry (LogEntry.ofBytes buffer)).sa (time32 now) (bufferData buffer)
  | .putLogEntries records =>
      records.foldl (fun T record => T.observe record.sa record.dt ⟨record.deviceId, record.ssiSignal⟩) T
  | .rmLog f start finish =>
      { T with log := T.log.filter fun x => !onKeys (rmLogPicks f start finish) x }
  | .readLog .. => T
  | .putNotification .. => T
  | .rmNotification .. => T

def run (T : LogTables) (ops : List Op) : LogTables := ops.foldl step T

end LogTables

/-! ### The log in the store -/

/-- The log entries of a store, in key order. -/
def logCell (e : Bytes × Bytes) : (Mac ×ₗ UInt32) × LogData :=
  (toLex (entrySa e, entryDt e), LogData.ofBytes e.2)

def logEntries (s : Store) : List ((Mac ×ₗ UInt32) × LogData) :=
  (s.entries.filter (onLogs fun _ _ => true)).map logCell

theorem logCell_log (m : Mac) (p : UInt8) (t : UInt32) (d : LogData) (e : UInt8) :
    logCell (Record.log m p t d e).entry = (toLex (m, t), d) := by
  rw [logCell, entrySa_entry, entryDt_log, Record.entry, ofBytes_log]
  rfl

theorem log_of_onLogs {s : Store} (hwf : WellFormed s) {picks : Mac → UInt32 → Bool} {x : Bytes × Bytes}
    (h : x ∈ s.entries.filter (onLogs picks)) :
    ∃ m p t d e, x = (Record.log m p t d e).entry ∧ x ∈ s.entries ∧ picks m t = true := by
  obtain ⟨hmem, hlog⟩ := List.mem_filter.mp h
  obtain ⟨r, rfl⟩ := hwf x hmem
  cases r with
  | log m p t d e => exact ⟨m, p, t, d, e, rfl, hmem, by simpa using hlog⟩
  | probe => simp at hlog
  | note => simp at hlog

theorem mem_logEntries {s : Store} (hwf : WellFormed s) (m : Mac) (t : UInt32) (d : LogData) :
    (toLex (m, t), d) ∈ logEntries s ↔ HasLog s m t d := by
  constructor
  · intro h
    obtain ⟨x, hx, hcell⟩ := List.mem_map.mp h
    obtain ⟨m', p, t', d', e, rfl, hmem, -⟩ := log_of_onLogs hwf hx
    rw [logCell_log] at hcell
    obtain ⟨hkey, rfl⟩ := Prod.mk.inj hcell
    obtain ⟨rfl, rfl⟩ := Prod.mk.inj (toLex.injective hkey)
    exact ⟨p, e, hmem⟩
  · rintro ⟨p, e, hmem⟩
    exact List.mem_map.mpr ⟨_, List.mem_filter.mpr ⟨hmem, by simp⟩, logCell_log m p t d e⟩

/-- One alignment byte for each address. -/
def UniformPads (s : Store) : Prop := ∀ m, ∃ pad, PadsOf s m pad

/-- With one alignment byte for each address, log entries stand by address and time. -/
theorem logEntries_sorted {s : Store} (hwf : WellFormed s) (hpads : UniformPads s) :
    (logEntries s).Pairwise fun a b => a.1 < b.1 := by
  refine List.pairwise_map.mpr ((s.sorted.filter _).imp_of_mem fun {a b} ha hb hlt => ?_)
  obtain ⟨m, p, t, d, e, rfl, ha, -⟩ := log_of_onLogs hwf ha
  obtain ⟨m', p', t', d', e', rfl, hb, -⟩ := log_of_onLogs hwf hb
  rw [logCell_log, logCell_log, Prod.Lex.toLex_lt_toLex]
  have hkey : (Record.log m p t d e).key < (Record.log m' p' t' d' e').key := hlt
  rcases (log_key_lt_iff m m' p p' t t' d d' e e').mp hkey with hm | ⟨rfl, h⟩
  · exact Or.inl hm
  · obtain ⟨pad, hpad⟩ := hpads m
    obtain rfl := hpad p t d e ha
    obtain rfl := hpad p' t' d' e' hb
    exact Or.inr ⟨rfl, h.resolve_left (lt_irrefl _) |>.2⟩

/-- The entries a scan visits, as the table's. -/
theorem map_logCell_onLogs (s : Store) (picks : Mac → UInt32 → Bool) :
    (s.entries.filter (onLogs picks)).map logCell = (logEntries s).filter (onKeys picks) := by
  rw [logEntries, List.filter_map, List.filter_filter]
  congr 1
  refine List.filter_congr fun e _ => ?_
  simp [onLogs, onKeys, logCell, Bool.and_comm]

theorem readLogItem_eq {s : Store} (hwf : WellFormed s) (slack : Slack) {picks : Mac → UInt32 → Bool} :
    (s.entries.filter (onLogs picks)).map (readLogItem slack) =
      ((s.entries.filter (onLogs picks)).map logCell).map logItem := by
  rw [List.map_map]
  refine List.map_congr_left fun x hx => ?_
  obtain ⟨m, p, t, d, e, rfl, -, -⟩ := log_of_onLogs hwf hx
  rw [Function.comp_apply, logCell_log, readLogItem, keySa_slack, keyDt_slack, Record.entry, ofBytes_log]
  rfl

/-! ### Refinement -/

/-- A store that stands for the two tables. -/
structure Refines (s : Store) (T : LogTables) : Prop where
  wellFormed : WellFormed s
  attended : Attended s
  pads : UniformPads s
  log : ∀ m t d, T.log.get (toLex (m, t)) = some d ↔ HasLog s m t d
  last : ∀ m t, T.last.get m = some t ↔ (Record.probe m t).entry ∈ s.entries

/-- The key a call builds has the alignment byte of the log records held at its address. -/
def Aligned (s : Store) (c : Step) : Prop :=
  match c.1 with
  | .putLog buffer _ => PadsOf s (ntohLogEntry (LogEntry.ofBytes buffer)).sa c.2.pad.key
  | .putLogEntries records => ∀ record ∈ records, PadsOf s record.sa c.2.pad.key
  | .readLog f .. => f.sz = 6 → PadsOf s f.mac c.2.pad.key
  | .rmLog f _ _ => PadsOf s f.mac c.2.pad.key
  | .putNotification .. => True
  | .rmNotification .. => True

/-- Every call of a run is aligned with the store it meets. -/
abbrev AlignedRun : Store → List Step → Prop := EachCall Aligned

theorem refines_empty : Refines .empty .empty where
  wellFormed := wellFormed_empty
  attended := fun _ _ _ ⟨_, _, h⟩ => absurd h (OrderedMap.mem_empty _)
  pads := fun _ => ⟨0, fun _ _ _ _ h => absurd h (OrderedMap.mem_empty _)⟩
  log := fun _ _ _ => ⟨fun h => by simp [LogTables.empty] at h, fun ⟨_, _, h⟩ => absurd h (OrderedMap.mem_empty _)⟩
  last := fun _ _ => ⟨fun h => by simp [LogTables.empty] at h, fun h => absurd h (OrderedMap.mem_empty _)⟩

/-- The entries of the table are those of the store. -/
theorem Refines.entries {s : Store} {T : LogTables} (h : Refines s T) : T.log.entries = logEntries s := by
  have hmap : T.log = ⟨logEntries s, logEntries_sorted h.wellFormed h.pads⟩ := by
    refine OrderedMap.ext_mem fun x => ?_
    change x ∈ T.log.entries ↔ x ∈ logEntries s
    rw [← OrderedMap.get_eq_some_iff T.log x.1 x.2]
    exact (h.log _ _ _).trans (mem_logEntries h.wellFormed _ _ _).symm
  rw [hmap]

theorem hasLog_observe {s : Store} {m : Mac} {p : UInt8} {t : UInt32} {d : LogData} {e : UInt8}
    (hpad : PadsOf s m p) (m' : Mac) (t' : UInt32) (d' : LogData) :
    HasLog (Edit.apply s (.observe m p t d e)) m' t' d' ↔
      (m' = m ∧ t' = t ∧ d' = d) ∨ ¬(m' = m ∧ t' = t) ∧ HasLog s m' t' d' := by
  constructor
  · rintro ⟨p', e', hlog⟩
    rcases (log_mem_observe s m m' p p' t t' d d' e e').mp hlog with heq | ⟨hmem, hne⟩
    · obtain ⟨hm, -, ht, hd⟩ := log_entry_data heq
      exact Or.inl ⟨hm, ht, hd⟩
    · refine Or.inr ⟨fun h => hne ⟨h.1, ?_, h.2⟩, p', e', hmem⟩
      exact hpad p' t' d' e' (h.1 ▸ hmem)
  · rintro (⟨rfl, rfl, rfl⟩ | ⟨hne, p', e', hmem⟩)
    · exact ⟨p, e, (log_mem_observe s m' m' p p t' t' d' d' e e).mpr (Or.inl rfl)⟩
    · exact ⟨p', e', (log_mem_observe s m m' p p' t t' d d' e e').mpr
        (Or.inr ⟨hmem, fun h => hne ⟨h.1, h.2.2⟩⟩)⟩

theorem padsOf_observe {s : Store} {m m' : Mac} {p pad : UInt8} {t : UInt32} {d : LogData} {e : UInt8}
    (h : PadsOf s m' pad) (hp : m' = m → p = pad) : PadsOf (Edit.apply s (.observe m p t d e)) m' pad := by
  intro p' t' d' e' hlog
  rcases (log_mem_observe s m m' p p' t t' d d' e e').mp hlog with heq | ⟨hmem, -⟩
  · obtain ⟨hm, rfl, -, -⟩ := log_entry_data heq
    exact hp hm
  · exact h p' t' d' e' hmem

theorem Refines.observe {s : Store} {T : LogTables} (h : Refines s T) (m : Mac) {p : UInt8} (t : UInt32)
    (d : LogData) (e : UInt8) (hpad : PadsOf s m p) :
    Refines (Edit.apply s (.observe m p t d e)) (T.observe m t d) where
  wellFormed := h.wellFormed.apply _
  attended := h.attended.observe m p t d e
  pads := by
    intro m'
    by_cases hm : m' = m
    · exact ⟨p, padsOf_observe (hm ▸ hpad) fun _ => rfl⟩
    · obtain ⟨pad, hpad'⟩ := h.pads m'
      exact ⟨pad, padsOf_observe hpad' fun h => absurd h hm⟩
  log := by
    intro m' t' d'
    rw [LogTables.observe, OrderedMap.get_put_eq_some_iff, hasLog_observe hpad, h.log, ne_eq, toLex_inj,
      Prod.mk.injEq, and_assoc]
  last := by
    intro m' t'
    rw [LogTables.observe, OrderedMap.get_put_eq_some_iff, probe_mem_observe, h.last]

/-- The notifications are not among the two tables. -/
theorem Refines.of_notes {s s' : Store} {T : LogTables} (h : Refines s T) (hwf : WellFormed s')
    (hsame : ∀ r : Record, r.tag ≠ tagT → (r.entry ∈ s'.entries ↔ r.entry ∈ s.entries)) : Refines s' T := by
  have hlog : ∀ m p t d e, (Record.log m p t d e).entry ∈ s'.entries ↔ _ := fun m p t d e =>
    hsame (.log m p t d e) tagT_ne_tagL.symm
  have hprobe : ∀ m t, (Record.probe m t).entry ∈ s'.entries ↔ _ := fun m t =>
    hsame (.probe m t) tagT_ne_tagP.symm
  have hhas : ∀ m t d, HasLog s' m t d ↔ HasLog s m t d := fun m t d => by
    simp only [HasLog, hlog]
  refine ⟨hwf, ?_, ?_, ?_, ?_⟩
  · intro m t d hm
    obtain ⟨t', ht'⟩ := h.attended m t d ((hhas m t d).mp hm)
    exact ⟨t', (hprobe m t').mpr ht'⟩
  · intro m
    obtain ⟨pad, hpad⟩ := h.pads m
    exact ⟨pad, fun p t d e hmem => hpad p t d e ((hlog m p t d e).mp hmem)⟩
  · exact fun m t d => (h.log m t d).trans (hhas m t d).symm
  · exact fun m t => (h.last m t).trans (hprobe m t).symm

theorem Refines.dropLogs {s : Store} {T : LogTables} (h : Refines s T) (picks : Mac → UInt32 → Bool) :
    Refines (s.filter fun e => !onLogs picks e) { T with log := T.log.filter fun x => !onKeys picks x } where
  wellFormed := fun e he => h.wellFormed e ((s.mem_filter _ e).mp he).1
  attended := by
    rintro m t d ⟨p, e, hlog⟩
    obtain ⟨t', ht'⟩ := h.attended m t d ⟨p, e, ((s.mem_filter _ _).mp hlog).1⟩
    exact ⟨t', (s.mem_filter _ _).mpr ⟨ht', by simp⟩⟩
  pads := by
    intro m
    obtain ⟨pad, hpad⟩ := h.pads m
    exact ⟨pad, fun p t d e hlog => hpad p t d e ((s.mem_filter _ _).mp hlog).1⟩
  log := by
    intro m t d
    rw [OrderedMap.get_eq_some_iff, OrderedMap.mem_filter, ← OrderedMap.get_eq_some_iff, h.log]
    simp only [HasLog, OrderedMap.mem_filter, onLogs_log, onKeys, ofLex_toLex, Bool.not_eq_true']
    constructor
    · rintro ⟨⟨p, e, hmem⟩, hp⟩
      exact ⟨p, e, hmem, hp⟩
    · rintro ⟨p, e, hmem, hp⟩
      exact ⟨⟨p, e, hmem⟩, hp⟩
  last := by
    intro m t
    rw [h.last, OrderedMap.mem_filter]
    simp

/-- The store after an aligned `rmLog`. -/
theorem rmLog_store {s : Store} (hwf : WellFormed s) (slack : Slack) (f : Filter) (start finish : Int)
    {pad : UInt8} (hpad : PadsOf s f.mac pad) :
    (quietly (rmLog slack f start finish pad) s).2 = s.filter fun e => !onLogs (rmLogPicks f start finish) e := by
  rw [rmLog_quiet, rmLog_visited hwf slack f start finish hpad]
  change s.filter _ = _
  convert s.filter_keys_not_mem (onLogs (rmLogPicks f start finish))

theorem Refines.imports {s : Store} {T : LogTables} (h : Refines s T) {pad : Padding} {records : List LogRecord}
    (hpad : ∀ record ∈ records, PadsOf s record.sa pad.key) :
    Refines ((records.map (importEdit pad)).foldl Edit.apply s)
      (records.foldl (fun T record => T.observe record.sa record.dt ⟨record.deviceId, record.ssiSignal⟩) T) := by
  induction records generalizing s T with
  | nil => exact h
  | cons record records ih =>
      have hrecord := hpad record List.mem_cons_self
      refine ih (h.observe record.sa record.dt _ pad.data hrecord) fun record' hmem => ?_
      exact padsOf_observe (hpad record' (List.mem_cons_of_mem _ hmem)) fun _ => rfl

/-- An aligned call does to the store what it means. -/
theorem Refines.step_call {s : Store} {T : LogTables} (h : Refines s T) {c : Step} (hc : Aligned s c) :
    Refines (perform s c).2 (T.step c.1) := by
  obtain ⟨op, mem⟩ := c
  cases op with
  | putLog buffer now =>
      rw [perform_store]
      simp only [edits, LogTables.step]
      split_ifs
      · exact h
      · exact h.observe _ _ _ _ hc
  | putLogEntries records =>
      rw [perform_store]
      exact h.imports hc
  | readLog f start finish onLog env =>
      rw [perform_store]
      exact h
  | rmLog f start finish =>
      have hstore := rmLog_store h.wellFormed mem.slack f start finish hc
      change Refines (quietly (rmLog mem.slack f start finish mem.pad.key) s).2 _
      rw [hstore]
      exact h.dropLogs _
  | putNotification sa value =>
      exact h.of_notes (h.wellFormed.perform _) fun r hr =>
        mem_perform_onNotes (c := (.putNotification sa value, mem)) trivial hr
  | rmNotification p =>
      exact h.of_notes (h.wellFormed.perform _) fun r hr =>
        mem_perform_onNotes (c := (.rmNotification p, mem)) trivial hr

/-- An aligned run does to the store what its calls mean. -/
theorem Refines.run_calls {s : Store} {T : LogTables} (h : Refines s T) {calls : List Step}
    (hcalls : AlignedRun s calls) : Refines (run s calls) (T.run (calls.map Prod.fst)) := by
  induction calls generalizing s T with
  | nil => exact h
  | cons c calls ih => exact ih (h.step_call hcalls.1) hcalls.2

/-! ### What the caller sees -/

/-- What an aligned `readLog` hands to its callback. -/
theorem readLog_items {σ : Type} {s : Store} {T : LogTables} (h : Refines s T) (slack : Slack) (f : Filter)
    (start finish : Int) {pad : UInt8} (hpad : f.sz = 6 → PadsOf s f.mac pad) (onLog : OnLog σ) (env : σ) :
    handedItems (quietly (readLog slack f start finish pad (some onLog) (some env)) s).1 =
      handed onLog env ((T.log.entries.filter (onKeys (readLogPicks f start finish))).map logItem) := by
  rw [readLog_quiet, readLog_visited h.wellFormed slack f start finish hpad, readLogItem_eq h.wellFormed,
    map_logCell_onLogs, h.entries]

/-- A record that no `rmLog` removes. -/
def HasOther (s : Store) : Prop := ∃ r : Record, r.entry ∈ s.entries ∧ r.tag ≠ tagL

theorem hasOther_of_ne_nil {s : Store} (hwf : WellFormed s) (hatt : Attended s) (h : s.entries ≠ []) : HasOther s := by
  obtain ⟨e, he⟩ := List.exists_mem_of_ne_nil _ h
  obtain ⟨r, rfl⟩ := hwf e he
  cases r with
  | log m p t d x =>
      obtain ⟨t', ht'⟩ := hatt m t d ⟨p, x, he⟩
      exact ⟨.probe m t', ht', tagP_ne_tagL⟩
  | probe m t => exact ⟨_, he, tagP_ne_tagL⟩
  | note m stray text => exact ⟨_, he, tagT_ne_tagL⟩

/-- A key that begins with the tag of the log is passed by the key of such a record. -/
theorem log_seek_ne_nil {s : Store} (h : HasOther s) (rest : Bytes) : s.seek (tagL :: rest) ≠ [] := by
  obtain ⟨r, hr, htag⟩ := h
  have hlt : tagL < r.tag := lt_of_le_of_ne (tagL_le r) (Ne.symm htag)
  exact seek_ne_nil hr (List.cons_lt_cons_iff.mpr (Or.inl hlt)).le

theorem readLogSeek_ne_nil {s : Store} (h : HasOther s) (f : Filter) (start : Int) (pad : UInt8) :
    s.seek (readLogSeek f start pad) ≠ [] := by
  rw [readLogSeek]
  split_ifs
  · exact log_seek_ne_nil h _
  · exact log_seek_ne_nil h _

theorem seek_of_entries_eq_nil {s : Store} (h : s.entries = []) (seek : Bytes) : s.seek seek = [] := by
  rw [OrderedMap.seek, h]
  rfl

theorem rmLog_seek_eq_nil {s : Store} (hwf : WellFormed s) (hatt : Attended s) (f : Filter) (start : Int)
    (pad : UInt8) : s.seek (rmLogSeek f start pad) = [] ↔ s.entries = [] := by
  refine ⟨fun hnone => ?_, fun h => seek_of_entries_eq_nil h _⟩
  by_contra hne
  exact log_seek_ne_nil (hasOther_of_ne_nil hwf hatt hne) _ hnone

theorem readLog_seek_eq_nil {s : Store} (hwf : WellFormed s) (hatt : Attended s) (f : Filter) (start : Int)
    (pad : UInt8) : s.seek (readLogSeek f start pad) = [] ↔ s.entries = [] := by
  refine ⟨fun hnone => ?_, fun h => seek_of_entries_eq_nil h _⟩
  by_contra hne
  exact readLogSeek_ne_nil (hasOther_of_ne_nil hwf hatt hne) f start pad hnone

/-- What an aligned `rmLog` counts. -/
theorem rmLog_count {s : Store} {T : LogTables} (h : Refines s T) (slack : Slack) (f : Filter)
    (start finish : Int) {pad : UInt8} (hpad : PadsOf s f.mac pad) :
    (quietly (rmLog slack f start finish pad) s).1 =
      if s.entries = [] then MDB_NOTFOUND
      else ((T.log.entries.filter (onKeys (rmLogPicks f start finish))).length : Int) := by
  rw [rmLog_quiet, rmLog_visited h.wellFormed slack f start finish hpad, h.entries, ← map_logCell_onLogs,
    List.length_map]
  simp only [rmLog_seek_eq_nil h.wellFormed h.attended]

end Wacs
