import Wacs.Layout
import Wacs.OrderedCursor
import Wacs.OrderedTxn

/-! The engine calls of `dblog.cpp` and the functions that open, close and grow the environment. Every
call of the engine has a label of its own, made of the turn of the caller's loop and the place in the
source, and the engine answers a call with any status. -/

namespace Wacs

def ERRCODE_WRONG_PARAM : Int := -3
def ERRCODE_LMDB_TXN_BEGIN : Int := -10
def ERRCODE_LMDB_TXN_COMMIT : Int := -11
def ERRCODE_LMDB_OPEN : Int := -12
def ERRCODE_LMDB_CLOSE : Int := -13
def ERRCODE_LMDB_PUT : Int := -14
def ERRCODE_LMDB_PUT_PROBE : Int := -15
def ERRCODE_NO_MEMORY : Int := -42

def MDB_MAP_FULL : Int := -30792
def MDB_NOTFOUND : Int := -30798

/-- The engine calls of `openDb`. -/
inductive OpenCall where
  | envCreate
  | envOpen
  | txnBegin
  | dbiOpen
  | txnCommit
  deriving DecidableEq

/-- The engine calls of `processMapFull`. -/
inductive RecoverCall where
  | envInfo
  | envCreate
  | envSetMapsize
  | envOpen
  | openDb (c : OpenCall)
  | txnBegin
  deriving DecidableEq

/-- The calls after which the source handles a full map: the put of the log record, that of the probe
record, the put or delete of a notification, the commit. -/
inductive Phase where
  | log
  | probe
  | note
  | commit
  deriving DecidableEq

/-- A place in the source that calls the engine. -/
inductive Call where
  | txnBegin
  | first (p : Phase)
  | recover (p : Phase) (c : RecoverCall)
  | again (p : Phase)
  | openDb (c : OpenCall)
  | cursorOpen
  | cursorGet
  | cursorNext
  deriving DecidableEq

/-- The status of each call: the turn of the loop it is made in, and its place. -/
abbrev Answers := Nat × Call → Int

abbrev Store := OrderedMap Bytes Bytes

abbrev Engine := TxnStore Bytes Bytes

abbrev EngineM := OracleM (Nat × Call) Engine

def mdbTxnBegin (c : Nat × Call) : EngineM Int := .status c TxnStore.begin

def mdbPut (c : Nat × Call) (key value : Bytes) : EngineM Int := .status c (TxnStore.put key value)

def mdbDel (c : Nat × Call) (key : Bytes) : EngineM Int := .call c (TxnStore.del MDB_NOTFOUND key)

def mdbTxnCommit (c : Nat × Call) : EngineM Int := .status c TxnStore.commit

def mdbTxnAbort : EngineM Unit := .modify TxnStore.abort

/-- A call that only reports a status. -/
def mdbStatus (c : Nat × Call) : EngineM Int := .status c fun _ s => s

/-- `mdb_dbi_open`, on the live transaction. -/
def mdbDbiOpen (c : Nat × Call) : EngineM Int := .status c fun _ s => s.note .used

def mdbEnvOpen (c : Nat × Call) : EngineM Int := .status c fun r s => { s with opened := decide (r = 0) }

/-- `mdb_env_close`, and `env->env = NULL`. -/
def mdbEnvClose : EngineM Unit := .modify fun s => { s with opened := false }

def openDb (c : OpenCall → Nat × Call) : EngineM Bool := do
  let rc ← mdbStatus (c .envCreate)
  if rc ≠ 0 then
    mdbEnvClose
    return false
  let rc ← mdbEnvOpen (c .envOpen)
  if rc ≠ 0 then
    mdbEnvClose
    return false
  let rc ← mdbTxnBegin (c .txnBegin)
  if rc ≠ 0 then
    mdbEnvClose
    return false
  let rc ← mdbDbiOpen (c .dbiOpen)
  if rc ≠ 0 then
    mdbEnvClose
    return false
  let rc ← mdbTxnCommit (c .txnCommit)
  return decide (rc = 0)

def closeDb : EngineM Bool := do
  mdbEnvClose
  return true

/-- Re-opens the database with a map twice the size, and starts a new transaction. When the database
does not re-open, the status returned is the one `mdb_env_open` gave before it. -/
def processMapFull (turn : Nat) (p : Phase) : EngineM Int := do
  mdbTxnAbort
  let r ← mdbStatus (turn, .recover p .envInfo)
  if r ≠ 0 then
    return r
  let closed ← closeDb
  if closed = false then
    return ERRCODE_LMDB_CLOSE
  let r ← mdbStatus (turn, .recover p .envCreate)
  if r ≠ 0 then
    mdbEnvClose
    return ERRCODE_LMDB_OPEN
  let _ ← mdbStatus (turn, .recover p .envSetMapsize)
  let r ← mdbEnvOpen (turn, .recover p .envOpen)
  mdbEnvClose
  let reopened ← openDb fun c => (turn, .recover p (.openDb c))
  if reopened = false then
    return r
  mdbTxnBegin (turn, .recover p .txnBegin)

/-- The pattern around a call that may find the map full: recover, and on success call again. -/
def withMapFull (turn : Nat) (p : Phase) (act : Nat × Call → EngineM Int) : EngineM Int := do
  let r ← act (turn, .first p)
  if r = MDB_MAP_FULL then
    let r ← processMapFull turn p
    if r = 0 then
      act (turn, .again p)
    else
      return r
  else
    return r

end Wacs
