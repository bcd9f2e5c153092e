import Wacs.DumpLine
import Wacs.TextLike

/-! The connection of `pglog.cpp` to a PostgreSQL server: its statements with what their text carries, and the
calls of `libpq`. Every call has a label, made of the turn of the caller's loop and its place in the source,
and the server answers it with any status. -/

namespace Wacs

open TextLike TextNumeral TextScan

def ERRCODE_NN_BIND : Int := -22
def ERRCODE_NN_SHUTDOWN : Int := -24
def ERRCODE_DATABASE_NO_CONNECTION : Int := -80
def ERRCODE_DATABASE_STATEMENT_FAIL : Int := -81

def CONNECTION_OK : Int := 0

def PGRES_COMMAND_OK : Int := 1
def PGRES_TUPLES_OK : Int := 2
def PGRES_FATAL_ERROR : Int := 7

/-- A row of the table `loc`. -/
structure LocRow where
  sa : Bytes
  dt : Int
  deviceId : Int
  ssiSignal : Int
  deriving DecidableEq

/-- The statements, with the values printed into their text:
`BEGIN`; `INSERT INTO loc(sa, dt, device_id, ssi_signal) VALUES ('sa', dt, deviceId, ssiSignal)`;
`SELECT sa, dt, device_id, ssi_signal FROM loc WHERE sa LIKE 'pattern' AND dt <= finish AND dt >= start`;
`END`. -/
inductive Statement where
  | start
  | insert (row : LocRow)
  | select (pattern : Bytes) (finish start : Int)
  | commit

/-- The places that call the server or a socket. -/
inductive PgCall where
  | nnBind
  | nnSetsockopt
  | connect
  | start
  | insert
  | select
  | commit
  | nnShutdown
  deriving DecidableEq

def Statement.call : Statement → PgCall
  | start => .start
  | insert _ => .insert
  | select .. => .select
  | commit => .commit

/-- The status of a statement that succeeds: only a query yields tuples. -/
def Statement.success : Statement → Int
  | select .. => PGRES_TUPLES_OK
  | _ => PGRES_COMMAND_OK

/-- The committed table, the table as the open transaction sees it, the connection and its history. -/
structure PgConn where
  loc : List LocRow
  pending : Option (List LocRow)
  conn : Nat
  trace : List TxnEvent

namespace PgConn

/-- A connection just made. -/
def fresh (loc : List LocRow) : PgConn := ⟨loc, none, 1, [.begun 1]⟩

def note (s : PgConn) (event : Nat → TxnEvent) : PgConn := { s with trace := s.trace ++ [event s.conn] }

/-- The rows a statement sees. -/
def view (s : PgConn) : List LocRow := s.pending.getD s.loc

/-- A statement that succeeds. One outside a transaction is a transaction of its own. -/
def execute (s : PgConn) : Statement → List LocRow × PgConn
  | .start => ([], { s with pending := some s.view })
  | .insert row =>
      ([], match s.pending with
        | none => { s with loc := s.loc ++ [row] }
        | some rows => { s with pending := some (rows ++ [row]) })
  | .select pattern finish start =>
      (s.view.filter fun row => like pattern row.sa && decide (row.dt ≤ finish) && decide (row.dt ≥ start), s)
  | .commit => ([], { s with loc := s.view, pending := none })

end PgConn

/-- `PGresult`: its status and its tuples. -/
structure PGresult where
  status : Int
  tuples : List LocRow

abbrev PgM := OracleM (Nat × PgCall) PgConn

/-- `PQconnectdb` or `PQsetdbLogin`, and `PQstatus` after it. -/
def pqConnect : PgM Int :=
  .status (0, .connect) fun _ s => { s with conn := s.conn + 1, trace := s.trace ++ [.begun (s.conn + 1)] }

/-- A statement of any other status than its success has no effect and no tuples. -/
def pqExec (turn : Nat) (st : Statement) : PgM PGresult :=
  .call (turn, st.call) fun r s =>
    if r = st.success then (⟨r, (s.execute st).1⟩, (s.execute st).2.note .used) else (⟨r, []⟩, s.note .used)

/-- The server drops the open transaction. -/
def pqFinish : PgM Unit := .modify fun s => { s.note .ended with pending := none }

/-- The text of a column. -/
def pqGetvalue (row : LocRow) : Nat → Bytes
  | 0 => row.sa
  | 1 => decimal row.dt
  | 2 => decimal row.deviceId
  | _ => decimal row.ssiSignal

end Wacs
