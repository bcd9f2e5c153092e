import Wacs.CollectorLives
import Wacs.FaultImport
import Wacs.LossyBus
import Wacs.ScanFaults
import Wacs.SendLogEntry

/-! The parties together: access points that send what they observe over a bus that may lose it, the collector that
receives and stores it, and clients that list, remove and import on the same database; any of the processes may be
killed in the midst of a call. In whatever order they take their steps, and whatever the sockets and the engine
answer, the log has nothing in it that was not observed or imported. -/

namespace Wacs

open OracleM OrderedCursor

/-- The parties and what is between them; and, which no party keeps, the entries observed, the messages received
with their times, and the records given to be imported. -/
structure World where
  bus : LossyBus Bytes
  collector : Lmdb.Writer
  observed : List LogEntry
  received : List (Bytes × Int)
  imported : List LogRecord

inductive Happening : Type 1 where
  /-- An access point, or `wacsc test`, sends an entry. -/
  | send (a : SendAnswers) (value : LogEntry) (repeats : Int)
  | lose (i : Nat)
  /-- A turn of the collector, which takes in the message at a place in flight; it may be killed in it. -/
  | deliver (i : Nat) (now : Int) (stale : { b : Bytes // b.length = sizeofLogEntry }) (pad : Padding)
      (answers : Answers) (kill : Option Nat)
  | interrupt
  /-- The collector is started, if it is not running. -/
  | start
  /-- A client scans the database; it may be killed in it, as in the next. -/
  | scan (c : ScanCall) (answers : Answers) (kill : Option Nat)
  /-- A client imports records into it. -/
  | load (records : List LogRecord) (pad : Padding) (answers : Answers) (kill : Option Nat)

namespace World

def initial : World := ⟨.idle, Lmdb.initial (.idle .empty), [], [], []⟩

/-- The database, which is all that the processes share. -/
def store (w : World) : Store := w.collector.env.committed

def setStore (w : World) (m : Store) : World :=
  { w with collector := { w.collector with env := { w.collector.env with committed := m } } }

/-- A collector that has been killed, and what it has committed. -/
def dead (m : Store) : Lmdb.Writer := { Lmdb.initial (.idle m) with stopRequest := true }

/-- The collector after a turn, in which it may be killed. -/
def collect (snmpAgent : Bool) (w : Lmdb.Writer) (t : Lmdb.Turn) : Option Nat → Lmdb.Writer
  | none => Lmdb.turn snmpAgent w t
  | some n => dead (Lmdb.killedTurn w t n).committed

/-- One step of one party. The collector takes nothing in once it has been asked to stop or killed. -/
def step (snmpAgent : Bool) (w : World) : Happening → World
  | .send a value repeats =>
      { w with
        bus := w.bus.send (sendLogEntry a value repeats).2
        observed := w.observed ++ [value] }
  | .lose i => { w with bus := w.bus.lose i }
  | .deliver i now stale pad answers kill =>
      if w.collector.stopRequest then w
      else match w.bus.deliver i with
        | (none, bus) => { w with bus := bus }
        | (some buffer, bus) =>
            { w with
              bus := bus
              collector := collect snmpAgent w.collector ⟨.message buffer now, stale, pad, answers⟩ kill
              received := w.received ++ [(buffer, now)] }
  | .interrupt => { w with collector := { w.collector with stopRequest := true } }
  | .start => if w.collector.stopRequest then { w with collector := Lmdb.initial (.idle w.store) } else w
  | .scan c answers kill => w.setStore (Attempt.perform w.store ⟨.scan c, answers, kill⟩)
  | .load records pad answers kill =>
      { w.setStore (Attempt.perform w.store ⟨.write (.putLogEntries records pad), answers, kill⟩) with
        imported := w.imported ++ records }

def after (snmpAgent : Bool) (happenings : List Happening) : World := happenings.foldl (step snmpAgent) initial

end World

/-! ### What the writes of an observation may bring into the log -/

def logCount (s : Store) : Nat := (s.entries.filter (onLogs fun _ _ => true)).length

section Writes

variable {key : LogKey} {data : LogData} {pad : Padding}

theorem observationWrites_logKey (sa : Mac) (dt : UInt32) :
    observationWrites (logKey sa pad.key dt) data pad =
      [(Record.log sa pad.key dt data pad.data).entry, (Record.probe sa dt).entry] := by
  rw [observationWrites, logKey_bytes sa pad.key dt data pad.data, probeValue_logKey, logKey, probeKey_bytes sa dt]
  rfl

/-- A log record among the writes of an observation is that of the observation. -/
theorem log_mem_observationWrites {sa m : Mac} {dt t : UInt32} {d : LogData} {p e : UInt8}
    (h : (Record.log m p t d e).entry ∈ observationWrites (logKey sa pad.key dt) data pad) :
    m = sa ∧ t = dt ∧ d = data := by
  rw [observationWrites_logKey, List.mem_cons, List.mem_singleton] at h
  rcases h with heq | heq
  · obtain ⟨hm, -, ht, hd⟩ := log_entry_data heq
    exact ⟨hm, ht, hd⟩
  · exact absurd (congrArg entryTag heq) tagP_ne_tagL.symm

theorem countP_observationWrites (sa : Mac) (dt : UInt32) :
    (observationWrites (logKey sa pad.key dt) data pad).countP (onLogs fun _ _ => true) = 1 := by
  rw [observationWrites_logKey, List.countP_cons_of_pos (onLogs_log _ _ _ _ _ _), List.countP_singleton, onLogs_probe]
  rfl

end Writes

theorem log_mem_importWrites {pad : Padding} {records : List LogRecord} {m : Mac} {t : UInt32} {d : LogData}
    {p e : UInt8} (h : (Record.log m p t d e).entry ∈ importWrites pad records) :
    ∃ record ∈ records, m = record.sa ∧ t = record.dt ∧ d = record.data := by
  obtain ⟨record, hrecord, hwrite⟩ := List.mem_flatMap.mp h
  exact ⟨record, hrecord, log_mem_observationWrites hwrite⟩

theorem countP_importWrites (pad : Padding) (records : List LogRecord) :
    (importWrites pad records).countP (onLogs fun _ _ => true) = records.length := by
  induction records with
  | nil => rfl
  | cons record records ih =>
      rw [importWrites_cons, List.countP_append, ih, LogRecord.key, countP_observationWrites, List.length_cons,
        Nat.add_comm]

/-- A store grown by writes, the first of which may have been lost. -/
theorem logCount_putAll_drop (s : Store) (writes : List (Bytes × Bytes)) (lost : Nat) :
    logCount (s.putAll (writes.drop lost)) ≤ logCount s + writes.countP (onLogs fun _ _ => true) :=
  (s.length_filter_putAll_le _ _).trans (Nat.add_le_add_left ((List.drop_sublist lost writes).countP_le) _)

/-- What a batch leaves committed: nothing, or its writes from some place on. -/
theorem putLogEntries_committed (a : Answers) (records : List LogRecord) (pad : Padding) (s : Store) :
    ∃ lost, ((putLogEntries records pad).run a (.idle s)).2.committed =
      s.putAll ((importWrites pad records).drop lost) := by
  obtain ⟨hok, herr⟩ := putLogEntries_run a records pad s
  by_cases hsucceeds : Succeeds a records.length
  · have hstore := (hok hsucceeds).2
    unfold survivors at hstore
    cases hloss : importLoss a records.length with
    | none =>
        rw [hloss] at hstore
        exact ⟨(importWrites pad records).length, by rw [hstore, List.drop_length]; rfl⟩
    | some lost =>
        rw [hloss] at hstore
        exact ⟨lost, hstore⟩
  · exact ⟨(importWrites pad records).length, by rw [(herr hsucceeds).2, List.drop_length]; rfl⟩

theorem scan_sublist (c : ScanCall) (a : Answers) (s : Engine) :
    (c.exec.run a s).2.committed.entries.Sublist s.committed.entries := by
  cases hc : c.removes with
  | false => rw [ScanCall.exec_committed hc]
  | true =>
      cases c with
      | remove c =>
          obtain ⟨l, -, hstore⟩ := c.outcome_store a s
          have hcommitted : ((ScanCall.remove c).exec.run a s).2.committed = s.committed.without l := hstore
          rw [hcommitted]
          exact List.filter_sublist
      | readLog => cases hc
      | readLastProbe => cases hc
      | getNotification => cases hc
      | lsNotification => cases hc

/-- Killed or not, an import leaves committed nothing, or its writes from some place on. -/
theorem perform_putLogEntries (m : Store) (records : List LogRecord) (pad : Padding) (a : Answers) (kill : Option Nat) :
    ∃ lost, Attempt.perform m ⟨.write (.putLogEntries records pad), a, kill⟩ =
      m.putAll ((importWrites pad records).drop lost) := by
  cases kill with
  | none => exact putLogEntries_committed a records pad m
  | some n =>
      rcases StoreCall.exec_atomic (.write (.putLogEntries records pad)) a (.idle m) n with hbefore | hafter
      · exact ⟨(importWrites pad records).length, by rw [List.drop_length]; exact hbefore⟩
      · obtain ⟨lost, hstore⟩ := putLogEntries_committed a records pad m
        exact ⟨lost, hafter.trans hstore⟩

theorem perform_scan_sublist (m : Store) (c : ScanCall) (a : Answers) (kill : Option Nat) :
    (Attempt.perform m ⟨.scan c, a, kill⟩).entries.Sublist m.entries := by
  cases kill with
  | none => exact scan_sublist c a (.idle m)
  | some n =>
      rcases StoreCall.exec_atomic (.scan c) a (.idle m) n with hbefore | hafter
      · exact (congrArg OrderedMap.entries hbefore) ▸ List.Sublist.refl m.entries
      · exact (congrArg OrderedMap.entries hafter) ▸ scan_sublist c a (.idle m)

/-- Killed or not, a turn that receives a message leaves the writes of its observation, or some or none of them. -/
theorem collect_committed (snmpAgent : Bool) (w : Lmdb.Writer) (buffer : Bytes) (now : Int)
    (stale : { b : Bytes // b.length = sizeofLogEntry }) (pad : Padding) (a : Answers) (kill : Option Nat) :
    ∃ lost, (World.collect snmpAgent w ⟨.message buffer now, stale, pad, a⟩ kill).env.committed =
      w.env.committed.putAll ((observationWrites (bufferKey buffer now pad) (bufferData buffer) pad).drop lost) := by
  -- the turn writes the observation of this message, or nothing
  obtain ⟨lost, hwrites⟩ : ∃ lost, (Lmdb.Turn.writes ⟨.message buffer now, stale, pad, a⟩) =
      (observationWrites (bufferKey buffer now pad) (bufferData buffer) pad).drop lost := by
    unfold Lmdb.Turn.writes Lmdb.Turn.observation Lmdb.Turn.acknowledged
    dsimp only
    split_ifs
    · exact ⟨_, rfl⟩
    · exact ⟨2, List.drop_nil⟩
  cases kill with
  | none => exact ⟨lost, hwrites ▸ Lmdb.turn_committed snmpAgent w _⟩
  | some n =>
      rcases Lmdb.killedTurn_committed snmpAgent w ⟨.message buffer now, stale, pad, a⟩ n with hnot | hdone
      · exact ⟨2, hnot⟩
      · exact ⟨lost, hwrites ▸ hdone⟩

/-! ### Safety -/

/-- A log entry is what a message received at a time comes to. -/
def OfMessage (m : Mac) (t : UInt32) (d : LogData) (x : Bytes × Int) : Prop :=
  m = (ntohLogEntry (LogEntry.ofBytes x.1)).sa ∧ t = time32 x.2 ∧ d = bufferData x.1

def OfRecord (m : Mac) (t : UInt32) (d : LogData) (record : LogRecord) : Prop :=
  m = record.sa ∧ t = record.dt ∧ d = record.data

namespace World

/-- The bus makes nothing up, every message sent is an entry observed, and every log record was received or
imported, each once. -/
structure Sound (w : World) : Prop where
  conserves : w.bus.Conserves
  sent : ∀ message ∈ w.bus.sent, ∃ value ∈ w.observed, message = (htonLogEntry value).bytes
  received : w.received.map Prod.fst = w.bus.delivered
  stored : ∀ m t d, HasLog w.store m t d →
    (∃ x ∈ w.received, OfMessage m t d x) ∨ ∃ record ∈ w.imported, OfRecord m t d record
  count : logCount w.store ≤ w.received.length + w.imported.length

theorem sound_initial : Sound initial where
  conserves := LossyBus.conserves_idle
  sent := fun _ h => absurd h List.not_mem_nil
  received := rfl
  stored := fun _ _ _ ⟨_, _, h⟩ => absurd h (OrderedMap.mem_empty _)
  count := le_rfl

theorem mem_sendLogEntry {a : SendAnswers} {value : LogEntry} {repeats : Int} {message : Bytes}
    (h : message ∈ (sendLogEntry a value repeats).2) : message = (htonLogEntry value).bytes := by
  rw [sendLogEntry] at h
  split_ifs at h
  · cases h
  · obtain ⟨i, -, hi⟩ := List.mem_filterMap.mp h
    split_ifs at hi
    exact (Option.some.inj hi).symm

namespace Sound

variable {w : World} (h : Sound w)
include h

theorem send (a : SendAnswers) (value : LogEntry) (repeats : Int) (snmpAgent : Bool) :
    Sound (w.step snmpAgent (.send a value repeats)) where
  conserves := h.conserves.send _
  sent := by
    intro message hmem
    rcases List.mem_append.mp hmem with hmem | hmem
    · obtain ⟨e, he, heq⟩ := h.sent message hmem
      exact ⟨e, List.mem_append_left _ he, heq⟩
    · exact ⟨value, List.mem_append_right _ (List.mem_singleton_self _), mem_sendLogEntry hmem⟩
  received := h.received
  stored := h.stored
  count := h.count

theorem receive (snmpAgent : Bool) {buffer : Bytes} {bus : LossyBus Bytes} (i : Nat)
    (hbus : w.bus.deliver i = (some buffer, bus)) (now : Int)
    (stale : { b : Bytes // b.length = sizeofLogEntry }) (pad : Padding) (answers : Answers) (kill : Option Nat) :
    Sound { w with
      bus := bus
      collector := collect snmpAgent w.collector ⟨.message buffer now, stale, pad, answers⟩ kill
      received := w.received ++ [(buffer, now)] } := by
  have hconserves : bus.Conserves := by
    have hdeliver := h.conserves.deliver i
    rwa [hbus] at hdeliver
  obtain ⟨hsent, hdelivered⟩ := w.bus.deliver_some hbus
  obtain ⟨lost, hstore⟩ := collect_committed snmpAgent w.collector buffer now stale pad answers kill
  refine ⟨hconserves, ?_, ?_, ?_, ?_⟩
  · intro message hmem
    rw [hsent] at hmem
    exact h.sent message hmem
  · show (w.received ++ [(buffer, now)]).map Prod.fst = bus.delivered
    rw [List.map_append, h.received, hdelivered]
    rfl
  · rintro m t d ⟨p, e, hlog⟩
    change _ ∈ (collect snmpAgent w.collector _ kill).env.committed.entries at hlog
    rw [hstore] at hlog
    rcases OrderedMap.mem_of_mem_putAll hlog with hmem | hmem
    · have hobserved := log_mem_observationWrites ((List.drop_subset lost _) hmem)
      exact Or.inl ⟨(buffer, now), List.mem_append_right _ (List.mem_singleton_self _), hobserved⟩
    · exact (h.stored m t d ⟨p, e, hmem⟩).imp_left fun ⟨x, hx, hof⟩ => ⟨x, List.mem_append_left _ hx, hof⟩
  · show logCount (collect snmpAgent w.collector _ kill).env.committed ≤ _
    have hcount := logCount_putAll_drop w.collector.env.committed
      (observationWrites (bufferKey buffer now pad) (bufferData buffer) pad) lost
    have hbefore := h.count
    rw [bufferKey, countP_observationWrites] at hcount
    rw [hstore, bufferKey, List.length_append, List.length_singleton]
    exact (hcount.trans (Nat.add_le_add_right hbefore 1)).trans_eq (Nat.add_right_comm _ _ _)

theorem shrink {m : Store} (hsublist : m.entries.Sublist w.store.entries) : Sound (w.setStore m) where
  conserves := h.conserves
  sent := h.sent
  received := h.received
  stored := fun sa t d ⟨p, e, hlog⟩ => h.stored sa t d ⟨p, e, hsublist.subset hlog⟩
  count := ((hsublist.filter _).length_le).trans h.count

theorem load (records : List LogRecord) (pad : Padding) (answers : Answers) (kill : Option Nat) (snmpAgent : Bool) :
    Sound (w.step snmpAgent (.load records pad answers kill)) := by
  obtain ⟨lost, hstore⟩ := perform_putLogEntries w.store records pad answers kill
  refine ⟨h.conserves, h.sent, h.received, ?_, ?_⟩
  · rintro m t d ⟨p, e, hlog⟩
    change _ ∈ (Attempt.perform w.store _).entries at hlog
    rw [hstore] at hlog
    rcases OrderedMap.mem_of_mem_putAll hlog with hmem | hmem
    · obtain ⟨record, hrecord, hof⟩ := log_mem_importWrites (List.drop_subset lost _ hmem)
      exact Or.inr ⟨record, List.mem_append_right _ hrecord, hof⟩
    · exact (h.stored m t d ⟨p, e, hmem⟩).imp_right fun ⟨r, hr, hof⟩ => ⟨r, List.mem_append_left _ hr, hof⟩
  · show logCount (Attempt.perform w.store _) ≤
      w.received.length + (w.imported ++ records).length
    have hcount := logCount_putAll_drop w.store (importWrites pad records) lost
    rw [countP_importWrites] at hcount
    rw [hstore, List.length_append, ← Nat.add_assoc]
    exact hcount.trans (Nat.add_le_add_right h.count _)

end Sound

theorem Sound.step {w : World} (h : Sound w) (snmpAgent : Bool) (x : Happening) : Sound (w.step snmpAgent x) := by
  cases x with
  | send a value repeats => exact h.send a value repeats snmpAgent
  | lose i =>
      refine ⟨h.conserves.lose i, ?_, h.received.trans (w.bus.lose_delivered i).symm, h.stored, h.count⟩
      intro message hmem
      exact h.sent message (w.bus.lose_sent i ▸ hmem)
  | deliver i now stale pad answers kill =>
      unfold World.step
      dsimp only
      split_ifs
      · exact h
      · cases hbus : w.bus.deliver i with
        | mk message bus =>
            cases message with
            | none =>
                obtain rfl := w.bus.deliver_none hbus
                exact h
            | some buffer => exact h.receive snmpAgent i hbus now stale pad answers kill
  | interrupt => exact ⟨h.conserves, h.sent, h.received, h.stored, h.count⟩
  | start =>
      unfold World.step
      dsimp only
      split_ifs
      · exact ⟨h.conserves, h.sent, h.received, h.stored, h.count⟩
      · exact h
  | scan c answers kill => exact h.shrink (perform_scan_sublist w.store c answers kill)
  | load records pad answers kill => exact h.load records pad answers kill snmpAgent

theorem sound_after (snmpAgent : Bool) (happenings : List Happening) : Sound (after snmpAgent happenings) := by
  induction happenings using List.reverseRecOn with
  | nil => exact sound_initial
  | append_singleton happenings x ih =>
      rw [after, List.foldl_append]
      exact ih.step snmpAgent x

/-- **Safety of the whole**: whatever has happened, every record of the log is an entry observed, sent and received at
the second the record tells, or a record imported; there are no more of them than messages delivered and records
imported; and the messages delivered, lost and in flight are those sent, each once. -/
theorem log_is_observed (snmpAgent : Bool) (happenings : List Happening) :
    let w := after snmpAgent happenings
    (∀ m t d, HasLog w.store m t d →
      (∃ value ∈ w.observed, ∃ x ∈ w.received, x.1 = (htonLogEntry value).bytes ∧ x.1 ∈ w.bus.sent ∧ m = value.sa ∧
        t = time32 x.2 ∧ d = ⟨value.deviceId, value.ssiSignal.toInt8⟩) ∨
      ∃ record ∈ w.imported, OfRecord m t d record) ∧
    w.received.map Prod.fst = w.bus.delivered ∧
    logCount w.store ≤ w.bus.delivered.length + w.imported.length ∧
    (w.bus.delivered ++ w.bus.lost ++ w.bus.inFlight).Perm w.bus.sent := by
  dsimp only
  have h := sound_after snmpAgent happenings
  refine ⟨fun m t d hlog => ?_, h.received, ?_, h.conserves⟩
  · rcases h.stored m t d hlog with ⟨x, hx, hm, ht, hd⟩ | hrecord
    · have hdelivered : x.1 ∈ (after snmpAgent happenings).bus.delivered := h.received ▸ List.mem_map_of_mem hx
      have hsent := h.conserves.mem_sent hdelivered
      obtain ⟨value, hvalue, hbytes⟩ := h.sent x.1 hsent
      have hread : ntohLogEntry (LogEntry.ofBytes x.1) = value := by
        rw [hbytes, ofBytes_bytes_entry, ntohLogEntry_htonLogEntry]
      rw [bufferData, hread] at hd
      rw [hread] at hm
      exact Or.inl ⟨value, hvalue, x, hx, hbytes, hsent, hm, ht, hd⟩
    · exact Or.inr hrecord
  · have hcount := h.count
    rwa [← List.length_map Prod.fst, h.received] at hcount

end World

end Wacs
