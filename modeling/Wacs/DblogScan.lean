import Wacs.DblogWrite

/-! The functions of `dblog.cpp` that move a cursor over the store: `readLog`, `rmLog`,
`readLastProbe`, `getNotification`, `lsNotification` and `rmNotification`. The tests at the head of
each loop body are a definition of their own, in the order the source makes them. A key may be read
past its end; `slack` is what lies there, chosen anew for each key. -/

namespace Wacs

open OrderBytes OrderedCursor

/-- What lies past the end of a key in memory. -/
abbrev Slack := Bytes → Nat → UInt8

/-- What `onLog` is given: the fields of `LogKey` that are set, and `LogData` unless it is NULL. -/
structure LogItem where
  sa : Mac
  dt : UInt32
  data : Option LogData
  deriving DecidableEq

/-- A callback over an environment `σ`; it returns true to stop. -/
abbrev OnLog (σ : Type) := σ → LogItem → σ × Bool

/-- `finish == 0` is no limit; a range the wrong way round is swapped through a `uint32_t`. -/
def timeRange (start finish : Int) : Int × Int :=
  let finish := if finish = 0 then 2 ^ 32 - 1 else finish
  if finish < start then (finish, ((time32 start).toNat : Int)) else (start, finish)

/-- The status of the advance on turn `n` of a cursor's loop. -/
def fetched (a : Answers) (n : Nat) : Bool := a (n, .cursorNext) = 0

/-- `mdb_cursor_open`, on the live transaction. -/
def mdbCursorOpen : EngineM Int := .status (0, .cursorOpen) fun _ s => s.note .used

/-- `mdb_cursor_get` with `MDB_SET_RANGE`, or with `MDB_FIRST` when no key is given. -/
def mdbCursorGet (key : Option Bytes) : EngineM (Except Int (Bytes × Bytes)) :=
  .call (0, .cursorGet) fun r s =>
    (if r ≠ 0 then .error r
      else match (match key with | some key => s.view.seek key | none => s.view.entries) with
        | [] => .error MDB_NOTFOUND
        | e :: _ => .ok e, s.note .used)

/-- The loop from record `e` on over the view of the transaction, all its calls of the cursor as one use of the
transaction. Each record is met once at most. -/
def cursorLoop {σ : Type} (view : σ → Store) (body : σ → Bytes × Bytes → σ × Bool) (s : σ)
    (e : Bytes × Bytes) : EngineM σ :=
  .op (fun a engine =>
    (OrderedCursor.loop (fetched a) view body (view s).entries.length 0 s e, engine.note .used)) .done

/-- The map the transaction sees. -/
def txnView : EngineM Store := .op (fun _ s => (s.view, s)) .done

/-- Deletions under a cursor reach the transaction. -/
def setView (m : Store) : EngineM Unit :=
  .modify fun s => { s.note .used with pending := s.pending.map fun _ => m }

/-- The frame of the functions that list: a transaction around a cursor's loop that hands the records
passing the tests to the callback. `missed` ends the transaction when the seek fails. -/
def listRecords {σ ι : Type} (seek : Bytes) (test : Bytes × Bytes → Verdict) (item : Bytes × Bytes → ι)
    (callback : σ → ι → σ × Bool) (env : σ) (missed : EngineM Unit) :
    EngineM (Int × Option (Listing σ ι)) := do
  let r ← mdbTxnBegin (0, .txnBegin)
  if r ≠ 0 then
    return (ERRCODE_LMDB_TXN_BEGIN, none)
  let r ← mdbCursorOpen
  if r ≠ 0 then
    let _ ← mdbTxnCommit (0, .first .commit)
    return (r, none)
  let found ← mdbCursorGet (some seek)
  match found with
  | .error r =>
      missed
      return (r, none)
  | .ok e =>
      let view ← txnView
      let listing ← cursorLoop (fun _ => view) (guarded test (report callback item)) ⟨env, []⟩ e
      let r ← mdbTxnCommit (0, .first .commit)
      if r ≠ 0 then
        return (ERRCODE_LMDB_TXN_COMMIT, some listing)
      return (r, some listing)

/-- The frame of the functions that remove: the records passing the tests are deleted under the cursor
and counted. `missed` ends the transaction when the seek fails, and gives the result. The count has no bound
here: in the source it is an `int`, with which a call is undefined that goes on counting past `2 ^ 31 - 1`. -/
def removeRecords (seek : Bytes) (test : Bytes × Bytes → Verdict) (missed : Int → EngineM Int) :
    EngineM Int := do
  let r ← mdbTxnBegin (0, .txnBegin)
  if r ≠ 0 then
    return ERRCODE_LMDB_TXN_BEGIN
  let r ← mdbCursorOpen
  if r ≠ 0 then
    let _ ← mdbTxnCommit (0, .first .commit)
    return r
  let found ← mdbCursorGet (some seek)
  match found with
  | .error r => missed r
  | .ok e =>
      let view ← txnView
      let left ← cursorLoop Prod.fst (guarded test remove) (view, 0) e
      setView left.1
      let r ← mdbTxnCommit (0, .first .commit)
      if r ≠ 0 then
        return ERRCODE_LMDB_TXN_COMMIT
      return left.2

/-- `mdb_txn_commit` with its status dropped. -/
def commitMissed : EngineM Unit := do
  let _ ← mdbTxnCommit (0, .first .commit)
  return ()

/-! ### Log records -/

/-- The key `readLog` seeks: whole for a whole MAC address, else the tag and the filter bytes. -/
def readLogSeek (f : Filter) (start : Int) (pad : UInt8) : Bytes :=
  if f.sz = 6 then tagL :: f.padded ++ pad :: leBytes sizeofTimeT (htobe32 (time32 start)).toNat
  else tagL :: f.bytes

def readLogTest (slack : Slack) (f : Filter) (range : Int × Int) (e : Bytes × Bytes) : Verdict :=
  if e.2.length < sizeofLogData then .skip
  else if f.sa.isSome ∧ f.sz ≠ 0 ∧ (keySa (slack e.1) e.1).val.take f.sz ≠ f.bytes then .stop
  else if ((keyDt (slack e.1) e.1).toNat : Int) > range.2 then if f.sz = 6 then .stop else .skip
  else if ((keyDt (slack e.1) e.1).toNat : Int) < range.1 then .skip
  else if keyTag (slack e.1) e.1 ≠ tagL then .stop
  else .hit

/-- The callback's arguments. -/
def readLogItem (slack : Slack) (e : Bytes × Bytes) : LogItem :=
  ⟨keySa (slack e.1) e.1, keyDt (slack e.1) e.1, some (LogData.ofBytes e.2)⟩

def readLog {σ : Type} (slack : Slack) (f : Filter) (start finish : Int) (pad : UInt8)
    (onLog : Option (OnLog σ)) (onLogEnv : Option σ) : EngineM (Int × Option (Listing σ LogItem)) :=
  match onLogEnv, onLog with
  | some env, some onLog =>
      listRecords (readLogSeek f start pad) (readLogTest slack f (timeRange start finish))
        (readLogItem slack) onLog env commitMissed
  | _, _ => return (ERRCODE_WRONG_PARAM, none)

/-- The key `rmLog` seeks is always a whole one. -/
def rmLogSeek (f : Filter) (start : Int) (pad : UInt8) : Bytes :=
  tagL :: f.padded ++ pad :: leBytes sizeofTimeT (htobe32 (time32 start)).toNat

def rmLogTest (slack : Slack) (f : Filter) (range : Int × Int) (e : Bytes × Bytes) : Verdict :=
  if e.2.length < sizeofLogData ∨ e.1.length < sizeofLogKey then .skip
  else if f.sa.isSome ∧ (keySa (slack e.1) e.1).val.take f.sz ≠ f.bytes then .stop
  else if ((keyDt (slack e.1) e.1).toNat : Int) > range.2 then if f.sz = 6 then .stop else .skip
  else if ((keyDt (slack e.1) e.1).toNat : Int) < range.1 then .skip
  else if keyTag (slack e.1) e.1 ≠ tagL then .stop
  else .hit

def rmLog (slack : Slack) (f : Filter) (start finish : Int) (pad : UInt8) : EngineM Int :=
  removeRecords (rmLogSeek f start pad) (rmLogTest slack f (timeRange start finish)) fun r => do
    commitMissed
    return r

/-! ### Last probes -/

def readLastProbeTest (slack : Slack) (f : Filter) (range : Int × Int) (e : Bytes × Bytes) : Verdict :=
  if e.1.length < sizeofLastProbeKey ∨ e.2.length < sizeofTimeT then .skip
  else if f.sa.isSome ∧ (keySa (slack e.1) e.1).val.take f.sz ≠ f.bytes then .stop
  else if ((valueTime e.2).toNat : Int) > range.2 ∨ ((valueTime e.2).toNat : Int) < range.1 then .skip
  else .hit

def readLastProbeItem (slack : Slack) (e : Bytes × Bytes) : LogItem :=
  ⟨keySa (slack e.1) e.1, valueTime e.2, none⟩

def readLastProbe {σ : Type} (slack : Slack) (f : Filter) (start finish : Int)
    (onLog : Option (OnLog σ)) (onLogEnv : Option σ) : EngineM (Int × Option (Listing σ LogItem)) :=
  match onLogEnv, onLog with
  | some env, some onLog =>
      -- the key without the address bytes the filter does not give
      listRecords (tagP :: f.bytes) (readLastProbeTest slack f (timeRange start finish))
        (readLastProbeItem slack) onLog env commitMissed
  | _, _ => return (ERRCODE_WRONG_PARAM, none)

/-! ### Notifications -/

/-- The record a text is taken from, key and text. -/
abbrev Found := Option (Bytes × Bytes)

/-- The key that is filled in is not the one the cursor goes to: `MDB_FIRST` takes none. -/
def doGetNotification (_sa : Mac) : EngineM (Int × Found) := do
  let r ← mdbCursorOpen
  if r ≠ 0 then
    return (r, none)
  let found ← mdbCursorGet none
  match found with
  | .error r => return (r, none)
  | .ok e => return (0, if e.2.length ≠ 0 then some e else none)

/-- Ends the transaction of `getNotification`. An abort reports success. -/
def endGetNotification (r : Int) : EngineM Int := do
  if r < 0 then
    mdbTxnAbort
    return 0
  mdbTxnCommit (0, .first .commit)

/-- `useLmdb` is whether `USE_LMDB` is defined; with it the status of the end of the transaction is
dropped. -/
def getNotification (useLmdb : Bool) (sa : Mac) : EngineM (Int × Found) := do
  let r ← mdbTxnBegin (0, .txnBegin)
  if r ≠ 0 then
    return (ERRCODE_LMDB_TXN_BEGIN, none)
  let got ← doGetNotification sa
  let ended ← endGetNotification got.1
  let r := if useLmdb then got.1 else ended
  if r ≠ 0 then
    return (ERRCODE_LMDB_TXN_COMMIT, got.2)
  return (r, got.2)

def lsNotificationTest (e : Bytes × Bytes) : Verdict :=
  if e.2.length ≤ 0 ∨ e.1.length < 6 then .skip else .hit

/-- The callback's arguments: the six bytes at `sa`, and the text. -/
def lsNotificationItem (slack : Slack) (e : Bytes × Bytes) : Mac × Bytes := (keySa (slack e.1) e.1, e.2)

/-- The key `lsNotification` seeks: six bytes of one whose address is all zero. -/
def lsNotificationSeek : Bytes := tagT :: List.replicate 5 0

def lsNotification {σ : Type} (slack : Slack) (onNotification : Option (σ → Mac × Bytes → σ × Bool))
    (env : σ) : EngineM (Int × Option (Listing σ (Mac × Bytes))) :=
  match onNotification with
  | none => return (ERRCODE_WRONG_PARAM, none)
  | some onNotification =>
      listRecords lsNotificationSeek lsNotificationTest (lsNotificationItem slack) onNotification env
        mdbTxnAbort

/-- The arguments `sa` and `sa_size` of `rmNotification`, the size not negative; the bytes the function is
to look at are there. -/
structure NotePrefix where
  sa : Bytes
  saSize : Nat
  readable : (if saSize < 6 then saSize else 6) ≤ sa.length

def NotePrefix.sz (p : NotePrefix) : Nat := if p.saSize < 6 then p.saSize else 6

def NotePrefix.bytes (p : NotePrefix) : Bytes := p.sa.take p.sz

def rmNotificationTest (slack : Slack) (p : NotePrefix) (e : Bytes × Bytes) : Verdict :=
  if e.1.length < 6 then .stop
  else if keyTag (slack e.1) e.1 ≠ tagT then .stop
  else if (keySa (slack e.1) e.1).val.take p.sz ≠ p.bytes then .stop
  else .hit

def rmNotification (slack : Slack) (p : NotePrefix) : EngineM Int :=
  removeRecords (tagT :: p.bytes) (rmNotificationTest slack p) fun r => do
    mdbTxnAbort
    return if r = MDB_NOTFOUND then 0 else r

end Wacs
