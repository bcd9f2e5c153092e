import Wacs.DblogEngine

/-! The functions of `dblog.cpp` that write one record after another in a transaction: `putLog`,
`putLogEntries` and `putNotification`. -/

namespace Wacs

open OrderBytes

def logKey (sa : Mac) (pad : UInt8) (dt : UInt32) : LogKey := ⟨tagL, sa, pad, (htobe32 dt).toUInt64⟩

/-- The `LastProbeKey` prefix of a log key whose tag has been changed to `P`. -/
def probeKey (sa : Mac) : LastProbeKey := ⟨tagP, sa⟩

def probeValue (key : LogKey) : Bytes := leBytes sizeofTimeT key.dt.toNat

/-- The two records of one observation, put one after the other on turn `turn`. The status of the first
put that fails for good ends the call with the code of its record; the transaction is aborted. -/
def putObservation (turn : Nat) (key : LogKey) (data : LogData) (pad : Padding) : EngineM (Option Int) := do
  let r ← withMapFull turn .log fun c => mdbPut c key.bytes (data.bytes pad.data)
  if r ≠ 0 then
    mdbTxnAbort
    return some ERRCODE_LMDB_PUT
  -- probe
  let r ← withMapFull turn .probe fun c => mdbPut c (probeKey key.sa).bytes (probeValue key)
  if r ≠ 0 then
    mdbTxnAbort
    return some ERRCODE_LMDB_PUT_PROBE
  return none

/-- `now` is what `time(NULL)` returns. -/
def putLog (buffer : Bytes) (now : Int) (pad : Padding) : EngineM Int := do
  if buffer.length < sizeofLogEntry then
    return ERRCODE_NO_MEMORY
  let entry := ntohLogEntry (LogEntry.ofBytes buffer)
  let r ← mdbTxnBegin (0, .txnBegin)
  if r ≠ 0 then
    return ERRCODE_LMDB_TXN_BEGIN
  let key := logKey entry.sa pad.key (time32 now)
  let data : LogData := ⟨entry.deviceId, entry.ssiSignal.toInt8⟩
  let failed ← putObservation 0 key data pad
  match failed with
  | some code => return code
  | none =>
      let r ← withMapFull 0 .commit mdbTxnCommit
      if r ≠ 0 then
        return ERRCODE_LMDB_TXN_COMMIT
      return r

/-- The loop of `putLogEntries` over the records its callback supplies, from turn `turn` on: the code of
the put that failed for good, or the number of records. Past `2 ^ 31 - 1` the source's `int c` runs over. -/
def putRecords (pad : Padding) : Nat → List LogRecord → EngineM (Except Int Nat)
  | turn, [] => return .ok turn
  | turn, record :: records => do
      let key := logKey record.sa pad.key record.dt
      let data : LogData := ⟨record.deviceId, record.ssiSignal⟩
      let failed ← putObservation turn key data pad
      match failed with
      | some code => return .error code
      | none => putRecords pad (turn + 1) records

/-- `records` are the records that the successive calls of `onPutLogEntry` leave before the one that
returns true. After the loop the status of the last put is zero, so the test on it that the source
makes there never fires. -/
def putLogEntries (records : List LogRecord) (pad : Padding) : EngineM Int := do
  let r ← mdbTxnBegin (0, .txnBegin)
  if r ≠ 0 then
    return ERRCODE_LMDB_TXN_BEGIN
  let c ← putRecords pad 0 records
  match c with
  | .error code => return code
  | .ok c =>
      let r ← mdbTxnCommit (0, .first .commit)
      if r ≠ 0 then
        return ERRCODE_LMDB_TXN_COMMIT
      return c

/-- The key of `putNotification`: `sizeof(LogKey)` bytes from the start of a `LastProbeKey`. -/
def noteKey (sa : Mac) (stray : Stray) : Bytes := (LastProbeKey.mk tagT sa).bytes ++ stray.val

def putNotification (sa : Mac) (value : Bytes) (stray : Stray) : EngineM Int := do
  let r ← mdbTxnBegin (0, .txnBegin)
  if r ≠ 0 then
    return ERRCODE_LMDB_TXN_BEGIN
  let r ← withMapFull 0 .note fun c =>
    if value.length ≠ 0 then mdbPut c (noteKey sa stray) value else mdbDel c (noteKey sa stray)
  if r ≠ 0 then
    mdbTxnAbort
    return ERRCODE_LMDB_PUT
  let r ← mdbTxnCommit (0, .first .commit)
  if r ≠ 0 then
    return ERRCODE_LMDB_TXN_COMMIT
  return r

end Wacs
