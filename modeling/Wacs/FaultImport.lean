import Wacs.FaultPutLog
import Wacs.StoreRecords

/-! `putLogEntries` for every pattern of engine answers: a recovery in the middle of a batch loses the
records put before it. -/

namespace Wacs

def LogRecord.key (record : LogRecord) (pad : Padding) : LogKey := logKey record.sa pad.key record.dt

def LogRecord.data (record : LogRecord) : LogData := ⟨record.deviceId, record.ssiSignal⟩

/-- The writes of a batch, two for each record. -/
def importWrites (pad : Padding) (records : List LogRecord) : List (Bytes × Bytes) :=
  records.flatMap fun record => observationWrites (record.key pad) record.data pad

/-- The writes lost by the end of so many turns of the loop, if there is a transaction left. -/
def importLoss (a : Answers) : Nat → Option Nat
  | 0 => some 0
  | n + 1 => lossAfter a n .probe (2 * n + 1) (lossAfter a n .log (2 * n) (importLoss a n))

/-- The engine's answers let a batch of `n` records succeed. -/
def Succeeds (a : Answers) (n : Nat) : Prop :=
  a (0, .txnBegin) = 0 ∧ (∀ i < n, observationFailure a i = none) ∧ a (0, .first .commit) = 0

/-- The writes of the batch that are pending at its end. -/
def survivors (a : Answers) (pad : Padding) (records : List LogRecord) : List (Bytes × Bytes) :=
  ((importLoss a records.length).map fun l => (importWrites pad records).drop l).getD []

theorem importWrites_cons (pad : Padding) (record : LogRecord) (records : List LogRecord) :
    importWrites pad (record :: records) =
      observationWrites (record.key pad) record.data pad ++ importWrites pad records :=
  List.flatMap_cons

/-- A turn of the loop that fails ends it. -/
theorem putRecords_failed {a : Answers} {pad : Padding} {turn : Nat} {record : LogRecord} {s s₁ : Engine} {code : Int}
    (h : (putObservation turn (record.key pad) record.data pad).run a s = (some code, s₁)) (records : List LogRecord) :
    (putRecords pad turn (record :: records)).run a s = (.error code, s₁) :=
  OracleM.run_bind_of _ _ _ _ h

/-- A turn of the loop that does not fail is followed by the next one. -/
theorem putRecords_next {a : Answers} {pad : Padding} {turn : Nat} {record : LogRecord} {s s₁ : Engine}
    (h : (putObservation turn (record.key pad) record.data pad).run a s = (none, s₁)) (records : List LogRecord) :
    (putRecords pad turn (record :: records)).run a s = (putRecords pad (turn + 1) records).run a s₁ :=
  OracleM.run_bind_of _ _ _ _ h

/-- The loop from some turn on: it fails with a negative code and nothing committed, or reaches its end
with the losses of every turn. -/
theorem putRecords_run (a : Answers) (pad : Padding) {start : Store} (records : List LogRecord) (turn : Nat)
    (writes : List (Bytes × Bytes)) (s : Engine) (hlen : writes.length = 2 * turn)
    (h : Pending start writes (importLoss a turn) s) : ∃ s₁,
      ((∀ i, turn ≤ i → i < turn + records.length → observationFailure a i = none) →
        (putRecords pad turn records).run a s = (.ok (turn + records.length), s₁) ∧
          Pending start (writes ++ importWrites pad records) (importLoss a (turn + records.length)) s₁) ∧
      ((∃ i, turn ≤ i ∧ i < turn + records.length ∧ observationFailure a i ≠ none) →
        ∃ code < 0, (putRecords pad turn records).run a s = (.error code, s₁) ∧ s₁.committed = start) := by
  induction records generalizing turn writes s with
  | nil =>
      refine ⟨s, fun _ => ⟨rfl, ?_⟩, ?_⟩
      · rw [importWrites, List.flatMap_nil, List.append_nil]
        exact h
      · rintro ⟨i, hlo, hhi, -⟩
        simp only [List.length_nil] at hhi
        omega
  | cons record records ih =>
      obtain ⟨s₁, hrun, hcommitted, hnext⟩ := h.observation (a := a) turn (record.key pad) record.data pad
      cases hfail : observationFailure a turn with
      | some code =>
          rw [hfail] at hrun
          refine ⟨s₁, fun hall => ?_, fun _ =>
            ⟨code, observationFailure_neg hfail, putRecords_failed hrun records, hcommitted⟩⟩
          have hnone := hall turn le_rfl (by simp)
          rw [hfail] at hnone
          cases hnone
      | none =>
          rw [hfail] at hrun
          rw [putRecords_next hrun]
          have hpending := hnext hfail
          rw [hlen] at hpending
          obtain ⟨s₂, hok, herr⟩ := ih (turn + 1) _ s₁
            (by rw [List.length_append, hlen]; simp only [observationWrites, List.length_cons, List.length_nil]; omega)
            hpending
          have hcount : turn + 1 + records.length = turn + (record :: records).length := by
            rw [List.length_cons]
            omega
          rw [hcount] at hok herr
          rw [List.append_assoc, ← importWrites_cons] at hok
          refine ⟨s₂, fun hall => hok fun i hlo hhi => hall i (by omega) hhi, ?_⟩
          rintro ⟨i, hlo, hhi, hi⟩
          refine herr ⟨i, ?_, hhi, hi⟩
          rcases Nat.eq_or_lt_of_le hlo with rfl | hlt
          · exact absurd hfail hi
          · exact hlt

/-- The result of `putLogEntries`, and what it commits. -/
theorem putLogEntries_run (a : Answers) (records : List LogRecord) (pad : Padding) (s : Store) :
    (Succeeds a records.length →
      ((putLogEntries records pad).run a (.idle s)).1 = (records.length : Int) ∧
        ((putLogEntries records pad).run a (.idle s)).2.committed = s.putAll (survivors a pad records)) ∧
      (¬Succeeds a records.length → ((putLogEntries records pad).run a (.idle s)).1 < 0 ∧
        ((putLogEntries records pad).run a (.idle s)).2.committed = s) := by
  rw [putLogEntries, mdbTxnBegin, OracleM.run_status_bind]
  by_cases hbegin : a (0, .txnBegin) = 0
  · simp only [hbegin, ne_eq, not_true_eq_false, if_false]
    obtain ⟨s₁, hok, herr⟩ := putRecords_run a pad records 0 [] _ rfl (pending_begin s)
    rw [Nat.zero_add, List.nil_append] at hok
    rw [Nat.zero_add] at herr
    by_cases hall : ∀ i < records.length, observationFailure a i = none
    · obtain ⟨hrun, hpending⟩ := hok fun i _ hhi => hall i hhi
      rw [OracleM.run_bind_of _ _ _ _ hrun]
      simp only [mdbTxnCommit, OracleM.run_status_bind]
      by_cases hcommit : a (0, .first .commit) = 0
      · simp only [hcommit, not_true_eq_false, if_false, OracleM.run_pure]
        refine ⟨fun _ => ⟨trivial, ?_⟩, fun hno => absurd ⟨hbegin, hall, hcommit⟩ hno⟩
        rw [TxnStore.commit_committed, if_pos rfl, hpending.pending, hpending.committed, survivors]
        cases importLoss a records.length <;> rfl
      · simp only [hcommit, not_false_eq_true, if_true, OracleM.run_pure]
        refine ⟨fun hs => absurd hs.2.2 hcommit, fun _ => ⟨by decide, ?_⟩⟩
        rw [TxnStore.commit_committed, if_neg hcommit, hpending.committed]
    · obtain ⟨i, hi, hfail⟩ : ∃ i < records.length, observationFailure a i ≠ none := by
        by_contra hno
        exact hall fun i hi => by_contra fun hne => hno ⟨i, hi, hne⟩
      obtain ⟨code, hneg, hrun, hcommitted⟩ := herr ⟨i, Nat.zero_le i, hi, hfail⟩
      rw [OracleM.run_bind_of _ _ _ _ hrun]
      exact ⟨fun hs => absurd hs.2.1 hall, fun _ => ⟨hneg, hcommitted⟩⟩
  · simp only [hbegin, ne_eq, not_false_eq_true, if_true, OracleM.run_pure]
    refine ⟨fun hs => absurd hs.1 hbegin, fun _ => ⟨by decide, ?_⟩⟩
    rw [TxnStore.begin_committed, TxnStore.idle_committed]

/-! ### All or nothing -/

/-- The last record supplied for the address and time of a record. -/
def lastFor (records : List LogRecord) (record : LogRecord) : LogRecord :=
  (records.reverse.find? fun r => decide (r.sa = record.sa ∧ r.dt = record.dt)).getD record

/-- `putLogEntries` with a count, which does not run over its `int`, has every record in the store, and with an error
code nothing of them. -/
def AllOrNothing (a : Answers) (records : List LogRecord) (pad : Padding) (s : Store) : Prop :=
  (0 ≤ ((putLogEntries records pad).run a (.idle s)).1 →
    int32 ((putLogEntries records pad).run a (.idle s)).1 = ((putLogEntries records pad).run a (.idle s)).1 ∧
      ((putLogEntries records pad).run a (.idle s)).1 = (records.length : Int) ∧
      ∀ record ∈ records,
        HoldsLog ((putLogEntries records pad).run a (.idle s)).2.committed (record.key pad)
          (lastFor records record).data ∧
        (((putLogEntries records pad).run a (.idle s)).2.committed.get (probeKey record.sa).bytes).isSome) ∧
  (((putLogEntries records pad).run a (.idle s)).1 < 0 →
    ((putLogEntries records pad).run a (.idle s)).2.committed = s)

/-- Some of the writes are to the key. -/
def WrittenTo (writes : List (Bytes × Bytes)) (key : Bytes) : Prop := ∃ w ∈ writes, w.1 = key

theorem recordKey_eq_iff (pad : Padding) (r r' : LogRecord) :
    (r.key pad).bytes = (r'.key pad).bytes ↔ r.sa = r'.sa ∧ r.dt = r'.dt := by
  rw [LogRecord.key, LogRecord.key, logKey_bytes r.sa pad.key r.dt r.data 0,
    logKey_bytes r'.sa pad.key r'.dt r'.data 0, log_key_eq_iff]
  simp

/-- The last write of a batch to the key of a log record is that of the last record supplied for it. -/
theorem lastWrite_logKey (pad : Padding) (records : List LogRecord) (record : LogRecord) :
    OrderedMap.lastWrite (importWrites pad records) (record.key pad).bytes =
      (records.reverse.find? fun r => decide (r.sa = record.sa ∧ r.dt = record.dt)).map fun r =>
        r.data.bytes pad.data := by
  induction records using List.reverseRecOn with
  | nil => rfl
  | append_singleton records r ih =>
      have hwrites : importWrites pad (records ++ [r]) =
          importWrites pad records ++ [((r.key pad).bytes, r.data.bytes pad.data)] ++
            [((probeKey (r.key pad).sa).bytes, probeValue (r.key pad))] := by
        simp [importWrites, observationWrites]
      have hprobe : ¬(probeKey (r.key pad).sa).bytes = (record.key pad).bytes :=
        (logKey_ne_probeKey (record.key pad) _).symm
      rw [hwrites, OrderedMap.lastWrite_concat, if_neg hprobe, OrderedMap.lastWrite_concat, ih,
        List.reverse_concat]
      by_cases heq : r.sa = record.sa ∧ r.dt = record.dt
      · rw [if_pos ((recordKey_eq_iff pad r record).mpr heq), List.find?_cons_of_pos (by simpa using heq)]
        rfl
      · rw [if_neg (mt (recordKey_eq_iff pad r record).mp heq), List.find?_cons_of_neg (by simpa using heq)]

theorem get_putAll_of_not_written {writes : List (Bytes × Bytes)} {key : Bytes} (s : Store)
    (h : ¬WrittenTo writes key) : (s.putAll writes).get key = s.get key := by
  have hnone : OrderedMap.lastWrite writes key = none := by
    simpa using mt (OrderedMap.lastWrite_isSome_iff writes key).mp h
  rw [OrderedMap.get_putAll, hnone, Option.none_or]

theorem get_putAll_of_written {writes : List (Bytes × Bytes)} {key : Bytes} (s : Store)
    (h : WrittenTo writes key) : (s.putAll writes).get key = OrderedMap.lastWrite writes key := by
  obtain ⟨v, hv⟩ := Option.isSome_iff_exists.mp ((OrderedMap.lastWrite_isSome_iff writes key).mpr h)
  rw [OrderedMap.get_putAll, hv, Option.some_or]

section Survivors

variable (a : Answers) (records : List LogRecord) (pad : Padding) (s : Store) (record : LogRecord)

/-- A log record of the batch is in the store when a write of it survives, or it was there before. -/
theorem holdsLog_survivors_iff (hmem : record ∈ records) :
    HoldsLog (s.putAll (survivors a pad records)) (record.key pad) (lastFor records record).data ↔
      WrittenTo (survivors a pad records) (record.key pad).bytes ∨
        HoldsLog s (record.key pad) (lastFor records record).data := by
  by_cases hwritten : WrittenTo (survivors a pad records) (record.key pad).bytes
  · refine iff_of_true ⟨pad.data, ?_⟩ (Or.inl hwritten)
    have hlast : OrderedMap.lastWrite (survivors a pad records) (record.key pad).bytes =
        OrderedMap.lastWrite (importWrites pad records) (record.key pad).bytes := by
      unfold survivors at hwritten ⊢
      cases hloss : importLoss a records.length with
      | none =>
          rw [hloss] at hwritten
          obtain ⟨w, hw, -⟩ := hwritten
          exact absurd hw List.not_mem_nil
      | some l =>
          rw [hloss] at hwritten
          exact OrderedMap.lastWrite_drop _ l _ hwritten
    rw [get_putAll_of_written s hwritten, hlast, lastWrite_logKey, lastFor]
    cases hfind : records.reverse.find? fun r => decide (r.sa = record.sa ∧ r.dt = record.dt) with
    | none => exact absurd (List.find?_eq_none.mp hfind record (List.mem_reverse.mpr hmem)) (by simp)
    | some r => rfl
  · rw [HoldsLog, get_putAll_of_not_written s hwritten]
    exact ⟨fun h => Or.inr h, fun h => h.resolve_left hwritten⟩

theorem holdsProbe_survivors_iff :
    ((s.putAll (survivors a pad records)).get (probeKey record.sa).bytes).isSome ↔
      WrittenTo (survivors a pad records) (probeKey record.sa).bytes ∨
        (s.get (probeKey record.sa).bytes).isSome := by
  by_cases hwritten : WrittenTo (survivors a pad records) (probeKey record.sa).bytes
  · rw [get_putAll_of_written s hwritten]
    exact iff_of_true ((OrderedMap.lastWrite_isSome_iff _ _).mpr hwritten) (Or.inl hwritten)
  · rw [get_putAll_of_not_written s hwritten]
    exact ⟨fun h => Or.inr h, fun h => h.resolve_left hwritten⟩

end Survivors

/-- `putLogEntries` is all or nothing exactly when a batch the engine lets succeed is no longer than an `int` counts,
and what a recovery loses of a record in it is put again after it or was in the store before. -/
theorem putLogEntries_allOrNothing_iff (a : Answers) (records : List LogRecord) (pad : Padding) (s : Store) :
    AllOrNothing a records pad s ↔ (Succeeds a records.length → records.length < 2 ^ 31 ∧ ∀ record ∈ records,
      (WrittenTo (survivors a pad records) (record.key pad).bytes ∨
        HoldsLog s (record.key pad) (lastFor records record).data) ∧
      (WrittenTo (survivors a pad records) (probeKey record.sa).bytes ∨
        (s.get (probeKey record.sa).bytes).isSome)) := by
  obtain ⟨hok, herr⟩ := putLogEntries_run a records pad s
  unfold AllOrNothing
  by_cases hsucc : Succeeds a records.length
  · obtain ⟨hcount, hcommitted⟩ := hok hsucc
    have hnonneg : (0 : Int) ≤ records.length := Int.natCast_nonneg _
    simp only [hcount, hcommitted, hnonneg, hsucc, true_implies, true_and, not_lt.mpr hnonneg, false_implies,
      and_true, int32_natCast_iff]
    refine and_congr_right fun _ => forall_congr' fun record => forall_congr' fun hmem => ?_
    rw [holdsLog_survivors_iff a records pad s record hmem, holdsProbe_survivors_iff]
  · obtain ⟨hneg, hcommitted⟩ := herr hsucc
    exact iff_of_true ⟨fun h => absurd h (not_le.mpr hneg), fun _ => hcommitted⟩ fun h => absurd h hsucc

/-- The map is found full once, by the log record of the second turn. -/
def fullAtSecond : Answers := fun c => if c = (1, .first .log) then MDB_MAP_FULL else 0

/-- `putLogEntries` reports two records and has committed one. -/
theorem putLogEntries_loses_record : ¬∀ (a : Answers) (records : List LogRecord) (pad : Padding) (s : Store),
    AllOrNothing a records pad s := by
  intro h
  have hall := ((h fullAtSecond [⟨sampleMac, 1, 1, 0⟩, ⟨sampleMac', 2, 1, 0⟩] ⟨0, 0⟩ .empty).1
    (by decide)).2.2 ⟨sampleMac, 1, 1, 0⟩ List.mem_cons_self
  exact absurd hall.2 (by decide)

end Wacs
