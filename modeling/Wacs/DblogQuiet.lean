import Wacs.DblogScan

/-! What each function of `dblog.cpp` does when the engine reports no fault: what it returns, and the
store it leaves committed. -/

namespace Wacs

open OrderedCursor

/-- Every call answered with success. -/
def quiet : Answers := fun _ => 0

/-- A function run on a store by a faultless engine: its result, and the store left. -/
def quietly {α : Type} (x : EngineM α) (s : Store) : α × Store :=
  ((x.run quiet (.idle s)).1, (x.run quiet (.idle s)).2.committed)

/-- The items handed to the callback of a listing. -/
def handedItems {σ ι : Type} (r : Int × Option (Listing σ ι)) : List ι := (r.2.map Listing.calls).getD []

@[simp] theorem quiet_apply (c : Nat × Call) : quiet c = 0 := rfl

theorem withMapFull_of_ne {a : Answers} (turn : Nat) (p : Phase) (act : Nat × Call → EngineM Int)
    {s s' : Engine} {r : Int} (h : (act (turn, .first p)).run a s = (r, s')) (hr : r ≠ MDB_MAP_FULL) :
    (withMapFull turn p act).run a s = (r, s') := by
  rw [withMapFull, OracleM.run_bind_of _ _ _ _ h, if_neg hr]
  rfl

theorem zero_ne_mapFull : (0 : Int) ≠ MDB_MAP_FULL := by decide

theorem withMapFull_quiet_bind {β : Type} (turn : Nat) (p : Phase) (act : Int → Engine → Engine)
    (f : Int → EngineM β) (s : Engine) :
    (withMapFull turn p (fun c => .status c act) >>= f).run quiet s = (f 0).run quiet (act 0 s) :=
  OracleM.run_bind_of _ _ _ _ (withMapFull_of_ne turn p _ rfl zero_ne_mapFull)

theorem commit_quiet_bind {β : Type} (turn : Nat) (p : Phase) (f : Int → EngineM β) (s : Engine) :
    (withMapFull turn p mdbTxnCommit >>= f).run quiet s = (f 0).run quiet (s.commit 0) :=
  withMapFull_quiet_bind turn p TxnStore.commit f s

/-- The store after the two records of an observation. -/
def observe (key : LogKey) (data : LogData) (pad : Padding) (s : Store) : Store :=
  (s.put key.bytes (data.bytes pad.data)).put (probeKey key.sa).bytes (probeValue key)

/-- The two puts of an observation in a transaction. -/
def observeTxn (key : LogKey) (data : LogData) (pad : Padding) (s : Engine) : Engine :=
  (s.put key.bytes (data.bytes pad.data) 0).put (probeKey key.sa).bytes (probeValue key) 0

@[simp] theorem observeTxn_committed (key : LogKey) (data : LogData) (pad : Padding) (s : Engine) :
    (observeTxn key data pad s).committed = s.committed := by
  simp [observeTxn]

@[simp] theorem observeTxn_pending (key : LogKey) (data : LogData) (pad : Padding) (s : Engine) :
    (observeTxn key data pad s).pending = s.pending.map (observe key data pad) := by
  simp only [observeTxn, TxnStore.put_pending, if_true, Option.map_map]
  rfl

theorem putObservation_quiet (turn : Nat) (key : LogKey) (data : LogData) (pad : Padding) (s : Engine) :
    (putObservation turn key data pad).run quiet s = (none, observeTxn key data pad s) := by
  simp only [putObservation, mdbPut, withMapFull_quiet_bind, ne_eq, not_true_eq_false, if_false,
    OracleM.run_pure, observeTxn]

/-- The key `putLog` builds for a buffer received at a time. -/
def bufferKey (buffer : Bytes) (now : Int) (pad : Padding) : LogKey :=
  logKey (ntohLogEntry (LogEntry.ofBytes buffer)).sa pad.key (time32 now)

def bufferData (buffer : Bytes) : LogData :=
  ⟨(ntohLogEntry (LogEntry.ofBytes buffer)).deviceId,
    (ntohLogEntry (LogEntry.ofBytes buffer)).ssiSignal.toInt8⟩

/-- `putLog` on a whole buffer, with the key and the data named. -/
theorem putLog_eq {buffer : Bytes} (now : Int) (pad : Padding) (hlen : ¬buffer.length < sizeofLogEntry) :
    putLog buffer now pad = (do
      let r ← mdbTxnBegin (0, .txnBegin)
      if r ≠ 0 then
        return ERRCODE_LMDB_TXN_BEGIN
      let failed ← putObservation 0 (bufferKey buffer now pad) (bufferData buffer) pad
      match failed with
      | some code => return code
      | none =>
          let r ← withMapFull 0 .commit mdbTxnCommit
          if r ≠ 0 then
            return ERRCODE_LMDB_TXN_COMMIT
          return r) := by
  rw [putLog, if_neg hlen]
  rfl

theorem putLog_quiet (buffer : Bytes) (now : Int) (pad : Padding) (s : Store) :
    quietly (putLog buffer now pad) s =
      if buffer.length < sizeofLogEntry then (ERRCODE_NO_MEMORY, s)
      else (0, observe (bufferKey buffer now pad) (bufferData buffer) pad s) := by
  unfold quietly
  by_cases hlen : buffer.length < sizeofLogEntry
  · simp [putLog, hlen]
  · rw [if_neg hlen, putLog_eq now pad hlen]
    simp only [mdbTxnBegin, OracleM.run_status_bind, quiet_apply, ne_eq, not_true_eq_false, if_false,
      OracleM.run_bind_of _ _ _ _ (putObservation_quiet _ _ _ _ _), commit_quiet_bind, OracleM.run_pure]
    simp

/-- The store after a record of an import. -/
def importRecord (pad : Padding) (s : Store) (record : LogRecord) : Store :=
  observe (logKey record.sa pad.key record.dt) ⟨record.deviceId, record.ssiSignal⟩ pad s

theorem putRecords_quiet (pad : Padding) (turn : Nat) (records : List LogRecord) (s : Engine) (m : Store)
    (hm : s.pending = some m) :
    ∃ s', (putRecords pad turn records).run quiet s = (.ok (turn + records.length), s') ∧
      s'.committed = s.committed ∧ s'.pending = some (records.foldl (importRecord pad) m) := by
  induction records generalizing turn s m with
  | nil => exact ⟨s, rfl, rfl, hm⟩
  | cons record records ih =>
      let s₁ := observeTxn (logKey record.sa pad.key record.dt) ⟨record.deviceId, record.ssiSignal⟩ pad s
      obtain ⟨s₂, hrun, hcommitted, hpending⟩ := ih (turn + 1) s₁ (importRecord pad m record)
        (by simp [s₁, hm, importRecord])
      refine ⟨s₂, ?_, hcommitted.trans (observeTxn_committed _ _ _ _), hpending⟩
      rw [putRecords, OracleM.run_bind_of _ _ _ _ (putObservation_quiet turn _ _ _ _)]
      simp only [List.length_cons]
      rw [← Nat.add_assoc, Nat.add_right_comm]
      exact hrun

theorem putLogEntries_quiet (records : List LogRecord) (pad : Padding) (s : Store) :
    quietly (putLogEntries records pad) s =
      ((records.length : Int), records.foldl (importRecord pad) s) := by
  obtain ⟨s', hrun, -, hpending⟩ := putRecords_quiet pad 0 records ((TxnStore.idle s).begin 0) s
    (by simp)
  have h : (putLogEntries records pad).run quiet (.idle s) = ((records.length : Int), s'.commit 0) := by
    simp only [putLogEntries, mdbTxnBegin, OracleM.run_status_bind, quiet_apply, ne_eq,
      not_true_eq_false, if_false, OracleM.run_bind_of _ _ _ _ hrun, mdbTxnCommit, OracleM.run_pure,
      Nat.zero_add]
  rw [quietly, h]
  simp [hpending]

theorem putNotification_quiet (sa : Mac) (value : Bytes) (stray : Stray) (s : Store) :
    quietly (putNotification sa value stray) s =
      if value.length ≠ 0 then (0, s.put (noteKey sa stray) value)
      else if (s.get (noteKey sa stray)).isSome then (0, s.del (noteKey sa stray))
      else (ERRCODE_LMDB_PUT, s) := by
  have hview : ((TxnStore.idle s).begin 0).pending = some s := by simp
  simp only [quietly, putNotification, mdbTxnBegin, OracleM.run_status_bind, quiet_apply, ne_eq,
    not_true_eq_false, if_false]
  by_cases hv : value.length = 0
  · -- a delete, which may not find its key
    simp only [hv, not_true_eq_false, if_false]
    by_cases hk : (s.get (noteKey sa stray)).isSome
    · have hrun := withMapFull_of_ne (a := quiet) 0 .note (fun c => mdbDel c (noteKey sa stray))
        (TxnStore.del_present _ MDB_NOTFOUND (noteKey sa stray) hview hk) zero_ne_mapFull
      rw [OracleM.run_bind_of _ _ _ _ hrun, if_pos hk]
      simp [mdbTxnCommit]
    · have hrun := withMapFull_of_ne (a := quiet) 0 .note (fun c => mdbDel c (noteKey sa stray))
        (TxnStore.del_absent _ MDB_NOTFOUND (noteKey sa stray) hview hk) (by decide)
      rw [OracleM.run_bind_of _ _ _ _ hrun, if_neg hk]
      simp [mdbTxnAbort, MDB_NOTFOUND]
  · simp only [hv, not_false_eq_true, if_true, mdbPut, withMapFull_quiet_bind]
    simp [mdbTxnCommit]

/-! ### Cursors -/

theorem cursorLoop_quiet {σ : Type} (view : σ → Store) (body : σ → Bytes × Bytes → σ × Bool)
    (hahead : ∀ s e, (view (body s e).1).after e.1 = (view s).after e.1) (s : σ) {seek : Bytes}
    {e : Bytes × Bytes} {es : List (Bytes × Bytes)} (h : (view s).seek seek = e :: es) (engine : Engine) :
    (cursorLoop view body s e).run quiet engine = (deliver body s (e :: es), engine.note .used) := by
  have hafter := (view s).after_of_seek_eq_cons h
  have hmem : e ∈ (view s).entries := (((view s).mem_seek seek e).mp (h ▸ List.mem_cons_self)).1
  have hfuel : ((view s).after e.1).length < (view s).entries.length :=
    List.length_filter_lt_length_iff_exists.mpr ⟨e, hmem, by simp⟩
  have hloop := loop_eq_deliver view body hahead _ 0 s e hfuel
  rw [hafter] at hloop
  exact Prod.ext hloop rfl

theorem mdbCursorGet_quiet (seek : Bytes) (s : Engine) :
    (mdbCursorGet (some seek)).run quiet s =
      (match s.view.seek seek with
        | [] => .error MDB_NOTFOUND
        | e :: _ => .ok e, s.note .used) := rfl

theorem remove_ahead (test : Bytes × Bytes → Verdict) (s : Store × Nat) (e : Bytes × Bytes) :
    (guarded test remove s e).1.1.after e.1 = s.1.after e.1 := by
  unfold guarded
  split
  · rfl
  · rfl
  · exact s.1.after_del e.1

/-- A transaction begun on a store, without a write so far. -/
structure Begun (s : Store) (engine : Engine) : Prop where
  committed : engine.committed = s
  pending : engine.pending = some s

theorem begun_begin (s : Engine) : Begun s.committed (s.begin 0) := by
  constructor <;> simp

section Begun

variable {s : Store} {engine : Engine} (h : Begun s engine)
include h

theorem Begun.note (event : Nat → TxnEvent) : Begun s (engine.note event) := ⟨h.committed, h.pending⟩

theorem Begun.view : engine.view = s := by
  rw [TxnStore.view, h.pending, Option.getD_some]

theorem Begun.commit (status : Int) : (engine.commit status).committed = s := by
  rw [TxnStore.commit_committed, h.pending, h.committed, Option.getD_some, ite_self]

/-- The cursor is open, and the seek made. -/
theorem Begun.sought : Begun s ((engine.note .used).note .used) := (h.note _).note _

theorem Begun.sees : engine.view = engine.committed := h.view.trans h.committed.symm

theorem Begun.txnView_run (a : Answers) : txnView.run a engine = (s, engine) := Prod.ext h.view rfl

end Begun

section Frames

variable {σ ι : Type} (seek : Bytes) (test : Bytes × Bytes → Verdict) (s : Store)

theorem listRecords_quiet (item : Bytes × Bytes → ι) (callback : σ → ι → σ × Bool) (env : σ)
    (missed : EngineM Unit)
    (hmissed : ∀ engine, Begun s engine → (missed.run quiet engine).2.committed = s) :
    quietly (listRecords seek test item callback env missed) s =
      (match s.seek seek with
        | [] => (MDB_NOTFOUND, none)
        | es => (0, some (deliver (guarded test (report callback item)) ⟨env, []⟩ es)), s) := by
  have hbegun : Begun s ((TxnStore.idle s).begin 0) := begun_begin (.idle s)
  have hsought := hbegun.sought
  have hget := mdbCursorGet_quiet seek (((TxnStore.idle s).begin 0).note .used)
  rw [(hbegun.note .used).view] at hget
  simp only [quietly, listRecords, mdbTxnBegin, mdbCursorOpen, OracleM.run_status_bind, quiet_apply, ne_eq,
    not_true_eq_false, if_false, OracleM.run_bind_of _ _ _ _ hget]
  cases hseek : s.seek seek with
  | nil => simp only [OracleM.run_bind, OracleM.run_pure, hmissed _ hsought]
  | cons e es =>
      have hloop := cursorLoop_quiet (fun _ => s) (guarded test (report callback item))
        (fun _ _ => rfl) ⟨env, []⟩ hseek ((((TxnStore.idle s).begin 0).note .used).note .used)
      simp only [OracleM.run_bind_of _ _ _ _ (hsought.txnView_run quiet), OracleM.run_bind_of _ _ _ _ hloop,
        mdbTxnCommit, OracleM.run_status_bind, quiet_apply, not_true_eq_false, if_false, OracleM.run_pure,
        (hsought.note .used).commit]

/-- What a faultless listing hands to its callback: the items of the records visited from the key sought
on, cut where the callback stops. -/
theorem handedItems_listRecords (item : Bytes × Bytes → ι) (callback : σ → ι → σ × Bool) (env : σ)
    (missed : EngineM Unit)
    (hmissed : ∀ engine, Begun s engine → (missed.run quiet engine).2.committed = s) :
    handedItems (quietly (listRecords seek test item callback env missed) s).1 =
      handed callback env ((visited test (s.seek seek)).map item) := by
  have hcalls := deliver_report_calls callback item ⟨env, []⟩ (visited test (s.seek seek))
  rw [← deliver_guarded, List.nil_append] at hcalls
  rw [listRecords_quiet seek test s item callback env missed hmissed, ← hcalls]
  cases s.seek seek <;> rfl

theorem listRecords_quiet_store (item : Bytes × Bytes → ι) (callback : σ → ι → σ × Bool) (env : σ)
    (missed : EngineM Unit)
    (hmissed : ∀ engine, Begun s engine → (missed.run quiet engine).2.committed = s) :
    (quietly (listRecords seek test item callback env missed) s).2 = s := by
  rw [listRecords_quiet seek test s item callback env missed hmissed]

theorem removeRecords_quiet (missed : Int → EngineM Int) (r : Int)
    (hmissed : ∀ engine, Begun s engine → ((missed MDB_NOTFOUND).run quiet engine).1 = r ∧
      ((missed MDB_NOTFOUND).run quiet engine).2.committed = s) :
    quietly (removeRecords seek test missed) s =
      (if s.seek seek = [] then r else (visited test (s.seek seek)).length,
        s.filter fun e => decide (e.1 ∉ (visited test (s.seek seek)).map Prod.fst)) := by
  have hbegun : Begun s ((TxnStore.idle s).begin 0) := begun_begin (.idle s)
  have hsought := hbegun.sought
  have hget := mdbCursorGet_quiet seek (((TxnStore.idle s).begin 0).note .used)
  rw [(hbegun.note .used).view] at hget
  simp only [quietly, removeRecords, mdbTxnBegin, mdbCursorOpen, OracleM.run_status_bind, quiet_apply, ne_eq,
    not_true_eq_false, if_false, OracleM.run_bind_of _ _ _ _ hget]
  cases hseek : s.seek seek with
  | nil =>
      have hall : s.filter (fun e => decide (e.1 ∉ (visited test ([] : List (Bytes × Bytes))).map Prod.fst)) =
          s := OrderedMap.ext_mem fun e => by simp [visited]
      rw [hall]
      exact Prod.ext (hmissed _ hsought).1 (hmissed _ hsought).2
  | cons e es =>
      have hloop := cursorLoop_quiet Prod.fst (guarded test remove) (remove_ahead test) (s, 0) hseek
        ((((TxnStore.idle s).begin 0).note .used).note .used)
      rw [deliver_guarded, deliver_remove] at hloop
      simp only [OracleM.run_bind_of _ _ _ _ (hsought.txnView_run quiet), OracleM.run_bind_of _ _ _ _ hloop, setView,
        OracleM.run_modify_bind, mdbTxnCommit, OracleM.run_status_bind, quiet_apply, not_true_eq_false,
        if_false, OracleM.run_pure]
      simp

/-- What a removal returns is the number of records gone from the store, and the `int` it counts them in does not
run over. -/
structure CountsGone (s : Store) (r : Int × Store) : Prop where
  int : int32 r.1 = r.1
  count : r.1 = s.entries.length - r.2.entries.length

theorem countsGone_iff {r : Int × Store} {n : Nat} (hr : r.1 = n)
    (hlen : n + r.2.entries.length = s.entries.length) : CountsGone s r ↔ n < 2 ^ 31 := by
  rw [← int32_natCast_iff, ← hr]
  exact ⟨CountsGone.int, fun hint => ⟨hint, by omega⟩⟩

end Frames

theorem commitMissed_quiet (s : Store) (engine : Engine) (h : Begun s engine) :
    (commitMissed.run quiet engine).2.committed = s := h.commit 0

theorem abort_quiet (s : Store) (engine : Engine) (h : Begun s engine) :
    (mdbTxnAbort.run quiet engine).2.committed = s := h.committed

section Scans

variable {σ : Type} (slack : Slack) (f : Filter) (start finish : Int) (pad : UInt8) (onLog : OnLog σ)
  (env : σ) (s : Store)

theorem readLog_quiet :
    handedItems (quietly (readLog slack f start finish pad (some onLog) (some env)) s).1 =
      handed onLog env ((visited (readLogTest slack f (timeRange start finish))
        (s.seek (readLogSeek f start pad))).map (readLogItem slack)) :=
  handedItems_listRecords _ _ _ _ _ _ _ (commitMissed_quiet s)

theorem readLog_quiet_store :
    (quietly (readLog slack f start finish pad (some onLog) (some env)) s).2 = s :=
  listRecords_quiet_store _ _ _ _ _ _ _ (commitMissed_quiet s)

theorem readLastProbe_quiet :
    handedItems (quietly (readLastProbe slack f start finish (some onLog) (some env)) s).1 =
      handed onLog env ((visited (readLastProbeTest slack f (timeRange start finish))
        (s.seek (tagP :: f.bytes))).map (readLastProbeItem slack)) :=
  handedItems_listRecords _ _ _ _ _ _ _ (commitMissed_quiet s)

theorem lsNotification_quiet (onNotification : σ → Mac × Bytes → σ × Bool) :
    handedItems (quietly (lsNotification slack (some onNotification) env) s).1 =
      handed onNotification env
        ((visited lsNotificationTest (s.seek lsNotificationSeek)).map (lsNotificationItem slack)) :=
  handedItems_listRecords _ _ _ _ _ _ _ (abort_quiet s)

theorem rmLog_quiet :
    quietly (rmLog slack f start finish pad) s =
      (if s.seek (rmLogSeek f start pad) = [] then MDB_NOTFOUND
        else (visited (rmLogTest slack f (timeRange start finish)) (s.seek (rmLogSeek f start pad))).length,
        s.filter fun e => decide (e.1 ∉ (visited (rmLogTest slack f (timeRange start finish))
          (s.seek (rmLogSeek f start pad))).map Prod.fst)) :=
  removeRecords_quiet _ _ _ _ _ fun engine h => ⟨rfl, commitMissed_quiet s engine h⟩

theorem rmNotification_quiet (p : NotePrefix) :
    quietly (rmNotification slack p) s =
      (if s.seek (tagT :: p.bytes) = [] then 0
        else ((visited (rmNotificationTest slack p) (s.seek (tagT :: p.bytes))).length : Int),
        s.filter fun e => decide (e.1 ∉ (visited (rmNotificationTest slack p)
          (s.seek (tagT :: p.bytes))).map Prod.fst)) :=
  removeRecords_quiet _ _ _ _ _ fun engine h => ⟨rfl, abort_quiet s engine h⟩

end Scans

theorem doGetNotification_quiet (sa : Mac) {s : Store} {engine : Engine} (h : Begun s engine) :
    (doGetNotification sa).run quiet engine =
      ((if s.entries = [] then MDB_NOTFOUND else 0,
        s.entries.head?.filter fun e => decide (e.2.length ≠ 0)), (engine.note .used).note .used) := by
  have hget : (mdbCursorGet none).run quiet (engine.note .used) =
      (match s.entries with
        | [] => .error MDB_NOTFOUND
        | e :: _ => .ok e, (engine.note .used).note .used) := by
    rw [← (h.note .used).view]
    rfl
  simp only [doGetNotification, mdbCursorOpen, OracleM.run_status_bind, quiet_apply, ne_eq, not_true_eq_false,
    if_false, OracleM.run_bind_of _ _ _ _ hget]
  cases s.entries with
  | nil => rfl
  | cons e es => simp [Option.filter]

/-- `getNotification` takes the text of the first record of the store, whatever it is. -/
theorem getNotification_quiet (useLmdb : Bool) (sa : Mac) (s : Store) :
    (quietly (getNotification useLmdb sa) s).1.2 =
      s.entries.head?.filter fun e => decide (e.2.length ≠ 0) := by
  simp only [quietly, getNotification, mdbTxnBegin, OracleM.run_status_bind, quiet_apply, ne_eq,
    not_true_eq_false, if_false, OracleM.run_bind_of _ _ _ _ (doGetNotification_quiet sa (begun_begin (.idle s)))]
  rw [OracleM.run_bind, OracleM.run_ite]
  split_ifs <;> rfl

end Wacs
