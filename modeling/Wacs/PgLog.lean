import Wacs.PgEngine

/-! `pglog.cpp`: `putLog`, `putLogEntries` and `readLog` over a table of a PostgreSQL server. A statement is
checked for `PGRES_COMMAND_OK`; one with any other status finishes the connection and ends the function. -/

namespace Wacs

open OrderBytes OrderedCursor TextLike TextNumeral TextScan

/-- `mactostr2`: a colon after each group, and the last one dropped. -/
def mactostr2 (value : Bytes) : Bytes :=
  let r := value.flatMap fun p => numeral 16 2 p.toNat ++ [58]
  if r.length > 1 then r.dropLast else r

/-- What `onLog` is given by `readLog`. -/
structure LocItem where
  sa : Mac
  dt : Int
  data : LogData
  deriving DecidableEq

def locItem (row : LocRow) : LocItem where
  sa := (strtomacaddress (pqGetvalue row 0)).2
  dt := strtol10 (pqGetvalue row 1)
  data := ⟨UInt16.ofNat (strtol10 (pqGetvalue row 2) % 2 ^ 16).toNat, Int8.ofInt (strtol10 (pqGetvalue row 3))⟩

namespace Pg

/-- The failing branch of `CHECK_STMT`. -/
def checkStmtFails : PgM Int := do
  pqFinish
  return ERRCODE_DATABASE_STATEMENT_FAIL

/-- `turn` counts the messages of the caller; `now` is what `time(NULL)` returns. -/
def putLog (turn : Nat) (buffer : Bytes) (now : Int) : PgM Int := do
  if buffer.length < sizeofLogEntry then
    return ERRCODE_NO_MEMORY
  let entry := ntohLogEntry (LogEntry.ofBytes buffer)
  let res ← pqExec turn .start
  if res.status ≠ PGRES_COMMAND_OK then
    checkStmtFails
  else
    let res ← pqExec turn (.insert ⟨mactostr entry.sa, now, entry.deviceId.toNat, entry.ssiSignal.toInt⟩)
    if res.status ≠ PGRES_COMMAND_OK then
      checkStmtFails
    else
      let res ← pqExec turn .commit
      if res.status ≠ PGRES_COMMAND_OK then
        checkStmtFails
      else
        return 0

/-- The loop of `putLogEntries` from turn `c` on: whether every statement passed, and the count, which runs over
the source's `int` past `2 ^ 31 - 1`. Each record comes with the clock at its turn. -/
def putRecords : Nat → List (LogRecord × Int) → PgM (Option Nat)
  | c, [] => return some c
  | c, (entry, now) :: records => do
      let res ← pqExec c (.insert ⟨mactostr entry.sa, now, entry.deviceId.toNat, entry.ssiSignal.toInt⟩)
      if res.status ≠ PGRES_COMMAND_OK then
        return none
      putRecords (c + 1) records

def putLogEntries (records : List (LogRecord × Int)) : PgM Int := do
  let res ← pqExec 0 .start
  if res.status ≠ PGRES_COMMAND_OK then
    checkStmtFails
  else
    match ← putRecords 0 records with
    | none => checkStmtFails
    | some c =>
        let res ← pqExec 0 .commit
        if res.status ≠ PGRES_COMMAND_OK then
          checkStmtFails
        else
          return c

/-- The pattern `readLog` looks for. `saSize` bytes are read from `sa`, whatever the filter has. -/
def likePattern (slack : Nat → UInt8) (f : Filter) : Bytes :=
  mactostr2 (peek slack (f.sa.getD []) 0 f.saSize.toNat) ++ if f.saSize < 6 then [37] else []

def readLog {σ : Type} (slack : Nat → UInt8) (f : Filter) (start finish : Int)
    (onLog : Option (σ → LocItem → σ × Bool)) (onLogEnv : Option σ) : PgM (Int × Option (Listing σ LocItem)) :=
  match onLogEnv, onLog with
  | some env, some onLog => do
      let res ← pqExec 0 .start
      if res.status ≠ PGRES_COMMAND_OK then
        return (← checkStmtFails, none)
      else
        let range := timeRange start finish
        let res ← pqExec 0 (.select (likePattern slack f) range.2 range.1)
        if res.status ≠ PGRES_COMMAND_OK then
          return (← checkStmtFails, none)
        else
          let listing := deliver (report onLog locItem) ⟨env, []⟩ res.tuples
          let res ← pqExec 0 .commit
          if res.status ≠ PGRES_COMMAND_OK then
            return (← checkStmtFails, some listing)
          else
            return (0, some listing)
  | _, _ => return (ERRCODE_WRONG_PARAM, none)

end Pg

end Wacs
