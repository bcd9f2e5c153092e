import Wacs.OrderedHandles
import Wacs.PgReadLog

/-! `pgwriter.cpp`: the loop that receives observations and stores each of them over one connection, whatever
becomes of the ones before. The connection is used as it should exactly when every statement that is to store
an observation succeeds. -/

namespace Wacs

open OracleM

/-- What `nn_recv` comes back with: a message, of which the first `sizeof(LogEntry)` bytes are kept and the
whole length is returned; or an error, `EINTR`, `ETIMEDOUT` or another. -/
inductive Received where
  | message (buffer : Bytes) (now : Int)
  | interrupted
  | timedOut
  | failed

namespace Pg

/-- The loop of `run` from turn `turn` on, until the stop that comes after the last thing received. An
interrupted call is itself a stop. -/
def collect : Nat → List Received → PgM Unit
  | _, [] => return ()
  | turn, .message buffer now :: received => do
      let _ ← putLog turn buffer now
      collect (turn + 1) received
  | _, .interrupted :: _ => return ()
  | turn, .timedOut :: received => collect (turn + 1) received
  | turn, .failed :: received => collect (turn + 1) received

def openDb : PgM Bool := return (← pqConnect) = CONNECTION_OK

def closeDb : PgM Bool := do
  pqFinish
  return true

/-- A call on the socket. -/
def nnCall (c : PgCall) : PgM Int := .status (0, c) fun _ s => s

/-- `closeDb` always returns true, so its error branch is dead. -/
def run (received : List Received) : PgM Int := do
  let eid ← nnCall .nnBind
  if eid < 0 then
    return ERRCODE_NN_BIND
  let r ← nnCall .nnSetsockopt
  if r < 0 then
    return ERRCODE_NN_BIND
  if !(← openDb) then
    return ERRCODE_DATABASE_NO_CONNECTION
  collect 0 received
  let _ ← closeDb
  let r ← nnCall .nnShutdown
  if r ≠ 0 then
    return ERRCODE_NN_SHUTDOWN
  return r

end Pg

/-- No connection yet. -/
def PgConn.unconnected (loc : List LocRow) : PgConn := ⟨loc, none, 0, []⟩

/-- The statements that store the message of a turn all succeed. -/
def Stored (a : Nat × PgCall → Int) (turn : Nat) : Prop :=
  a (turn, .start) = PGRES_COMMAND_OK ∧ a (turn, .insert) = PGRES_COMMAND_OK ∧ a (turn, .commit) = PGRES_COMMAND_OK

instance (a : Nat × PgCall → Int) (turn : Nat) : Decidable (Stored a turn) :=
  inferInstanceAs (Decidable (_ ∧ _ ∧ _))

/-- What the loop gets to: all that comes before an interrupted call. -/
def processed (received : List Received) : List Received :=
  received.takeWhile fun r => match r with | .interrupted => false | _ => true

/-- The loop is come to. -/
def Connects (a : Nat × PgCall → Int) : Prop :=
  0 ≤ a (0, .nnBind) ∧ 0 ≤ a (0, .nnSetsockopt) ∧ a (0, .connect) = CONNECTION_OK

/-! ### What each part does to the connection -/

section Events

variable (a : Nat × PgCall → Int)

/-- What `putLog` does to connection `conn`. -/
def putLogEvents (conn turn : Nat) (buffer : Bytes) : List TxnEvent :=
  if buffer.length < sizeofLogEntry then []
  else .used conn ::
    if a (turn, .start) ≠ PGRES_COMMAND_OK then [.ended conn]
    else .used conn ::
      if a (turn, .insert) ≠ PGRES_COMMAND_OK then [.ended conn]
      else .used conn :: if a (turn, .commit) ≠ PGRES_COMMAND_OK then [.ended conn] else []

def collectEvents (conn : Nat) : Nat → List Received → List TxnEvent
  | _, [] => []
  | turn, .message buffer _ :: received =>
      putLogEvents a conn turn buffer ++ collectEvents conn (turn + 1) received
  | _, .interrupted :: _ => []
  | turn, .timedOut :: received => collectEvents conn (turn + 1) received
  | turn, .failed :: received => collectEvents conn (turn + 1) received

/-- A state comes from another by so many more events on the same connection. -/
def After (s s' : PgConn) (events : List TxnEvent) : Prop := s'.trace = s.trace ++ events ∧ s'.conn = s.conn

theorem After.refl (s : PgConn) : After s s [] := ⟨(List.append_nil _).symm, rfl⟩

theorem After.trans {s s' s'' : PgConn} {es es' : List TxnEvent} (h : After s s' es) (h' : After s' s'' es') :
    After s s'' (es ++ es') :=
  ⟨by rw [h'.1, h.1, List.append_assoc], h'.2.trans h.2⟩

theorem execute_history (s : PgConn) (st : Statement) :
    (s.execute st).2.trace = s.trace ∧ (s.execute st).2.conn = s.conn := by
  cases st with
  | start => exact ⟨rfl, rfl⟩
  | select => exact ⟨rfl, rfl⟩
  | commit => exact ⟨rfl, rfl⟩
  | insert row => cases hpending : s.pending <;> simp [PgConn.execute, hpending]

/-- A statement answers with the status of its place, and uses the connection. -/
theorem pqExec_run (turn : Nat) (st : Statement) (s : PgConn) : ∃ tuples s',
    (pqExec turn st).run a s = (⟨a (turn, st.call), tuples⟩, s') ∧ After s s' [.used s.conn] := by
  obtain ⟨htrace, hconn⟩ := execute_history s st
  by_cases h : a (turn, st.call) = st.success
  · refine ⟨(s.execute st).1, (s.execute st).2.note .used, if_pos h, ?_, hconn⟩
    rw [PgConn.note, htrace, hconn]
  · exact ⟨[], s.note .used, if_neg h, rfl, rfl⟩

/-- A statement with its check, and what follows when it passes. -/
theorem exec_check_after (turn : Nat) (st : Statement) {k : PGresult → PgM Int} {conn : Nat} {events : List TxnEvent}
    {s : PgConn} (hs : s.conn = conn) (hk : ∀ res s', s'.conn = conn → After s' ((k res).run a s').2 events) :
    After s ((pqExec turn st >>= fun res =>
        if res.status ≠ PGRES_COMMAND_OK then Pg.checkStmtFails else k res).run a s).2
      (.used conn :: if a (turn, st.call) ≠ PGRES_COMMAND_OK then [.ended conn] else events) := by
  subst hs
  obtain ⟨tuples, s', hrun, hafter⟩ := pqExec_run a turn st s
  rw [run_bind_of _ _ _ _ hrun]
  by_cases hfails : a (turn, st.call) ≠ PGRES_COMMAND_OK
  · have hfinish : After s' (Pg.checkStmtFails.run a s').2 [.ended s'.conn] := ⟨rfl, rfl⟩
    rw [hafter.2] at hfinish
    rw [if_pos hfails, if_pos hfails]
    exact hafter.trans hfinish
  · rw [if_neg hfails, if_neg hfails]
    exact hafter.trans (hk _ s' hafter.2)

theorem putLog_after (turn : Nat) (buffer : Bytes) (now : Int) {conn : Nat} {s : PgConn} (hs : s.conn = conn) :
    After s ((Pg.putLog turn buffer now).run a s).2 (putLogEvents a conn turn buffer) := by
  rw [Pg.putLog, putLogEvents]
  by_cases hlen : buffer.length < sizeofLogEntry
  · rw [if_pos hlen, if_pos hlen]
    exact After.refl s
  · rw [if_neg hlen, if_neg hlen]
    apply exec_check_after a turn .start hs
    intro _ s₁ h₁
    apply exec_check_after a turn (.insert _) h₁
    intro _ s₂ h₂
    exact exec_check_after a turn .commit h₂ fun _ s₃ _ => After.refl s₃

theorem collect_after (turn : Nat) (received : List Received) {conn : Nat} {s : PgConn} (hs : s.conn = conn) :
    After s ((Pg.collect turn received).run a s).2 (collectEvents a conn turn received) := by
  induction received generalizing turn s with
  | nil => exact After.refl s
  | cons r received ih =>
      cases r with
      | message buffer now =>
          have hput := putLog_after a turn buffer now hs
          rw [Pg.collect, collectEvents, run_bind]
          exact hput.trans (ih (turn + 1) (hput.2.trans hs))
      | interrupted => exact After.refl s
      | timedOut => exact ih (turn + 1) hs
      | failed => exact ih (turn + 1) hs

/-- What a run does to its connection. -/
def runEvents (received : List Received) : List TxnEvent :=
  if a (0, .nnBind) < 0 ∨ a (0, .nnSetsockopt) < 0 then []
  else .begun 1 :: if a (0, .connect) = CONNECTION_OK then collectEvents a 1 0 received ++ [.ended 1] else []

theorem run_trace (received : List Received) (loc : List LocRow) :
    ((Pg.run received).run a (.unconnected loc)).2.trace = runEvents a received := by
  have hbind : ∀ c s, (Pg.nnCall c).run a s = (a (0, c), s) := fun _ _ => rfl
  rw [Pg.run, runEvents, run_bind_of _ _ _ _ (hbind .nnBind _)]
  by_cases heid : a (0, .nnBind) < 0
  · rw [if_pos heid, if_pos (Or.inl heid)]
    rfl
  rw [if_neg heid, run_bind_of _ _ _ _ (hbind .nnSetsockopt _)]
  by_cases hopt : a (0, .nnSetsockopt) < 0
  · rw [if_pos hopt, if_pos (Or.inr hopt)]
    rfl
  have hopen : Pg.openDb.run a (.unconnected loc) = (decide (a (0, .connect) = CONNECTION_OK), .fresh loc) := rfl
  rw [if_neg hopt, if_neg (not_or.mpr ⟨heid, hopt⟩), run_bind_of _ _ _ _ hopen]
  by_cases hconnect : a (0, .connect) = CONNECTION_OK
  · obtain ⟨htrace, hconn⟩ := collect_after a 0 received (s := .fresh loc) rfl
    have hclose : ∀ s : PgConn, (Pg.closeDb.run a s).2.trace = s.trace ++ [.ended s.conn] := fun _ => rfl
    have hhistory : (Pg.closeDb.run a ((Pg.collect 0 received).run a (.fresh loc)).2).2.trace =
        .begun 1 :: (collectEvents a 1 0 received ++ [.ended 1]) := by
      rw [hclose, htrace, hconn]
      rfl
    simp only [hconnect, decide_true, Bool.not_true, Bool.false_eq_true, if_false, if_true, run_bind, hbind]
    split_ifs
    · exact hhistory
    · exact hhistory
  · simp only [hconnect, decide_false, Bool.not_false, if_false, if_true]
    rfl

end Events

/-! ### The discipline of the connection -/

section Discipline

variable (a : Nat × PgCall → Int)

/-- Events on one connection that is not finished among them. -/
theorem noneAfterEnd_of_unended {t : List TxnEvent} (h : ∀ e ∈ t, ∀ k, e ≠ .ended k) : NoneAfterEnd t :=
  List.pairwise_of_forall_mem_list fun e he _ _ k hk => absurd hk (h e he k)

theorem mem_putLogEvents {conn turn : Nat} {buffer : Bytes} {e : TxnEvent} (he : e ∈ putLogEvents a conn turn buffer) :
    e = .used conn ∨ e = .ended conn := by
  unfold putLogEvents at he
  split_ifs at he <;> simp at he <;> tauto

theorem mem_collectEvents {conn turn : Nat} {received : List Received} {e : TxnEvent}
    (he : e ∈ collectEvents a conn turn received) : e = .used conn ∨ e = .ended conn := by
  induction received generalizing turn with
  | nil => cases he
  | cons r received ih =>
      cases r with
      | message buffer now =>
          rw [collectEvents, List.mem_append] at he
          rcases he with he | he
          · exact mem_putLogEvents a he
          · exact ih he
      | interrupted => cases he
      | timedOut => exact ih he
      | failed => exact ih he

/-- `putLog` finishes the connection when a statement fails. -/
theorem ended_mem_putLogEvents (conn turn : Nat) (buffer : Bytes) :
    .ended conn ∈ putLogEvents a conn turn buffer ↔ ¬(sizeofLogEntry ≤ buffer.length → Stored a turn) := by
  unfold putLogEvents Stored
  split_ifs <;> simp <;> omega

/-- Every message of the list is stored, the first at turn `turn`. -/
def AllStored (turn : Nat) (received : List Received) : Prop :=
  ∀ (i : Nat) (buffer : Bytes) (now : Int), (processed received)[i]? = some (.message buffer now) →
    sizeofLogEntry ≤ buffer.length → Stored a (turn + i)

theorem allStored_cons_iff (turn : Nat) (r : Received) (hr : r ≠ .interrupted) (received : List Received) :
    AllStored a turn (r :: received) ↔
      (∀ buffer now, r = .message buffer now → sizeofLogEntry ≤ buffer.length → Stored a turn) ∧
        AllStored a (turn + 1) received := by
  have hprocessed : processed (r :: received) = r :: processed received := by
    cases r with
    | interrupted => exact absurd rfl hr
    | message => rfl
    | timedOut => rfl
    | failed => rfl
  unfold AllStored
  rw [hprocessed]
  refine ⟨fun h => ⟨fun buffer now heq => h 0 buffer now (congrArg some heq), fun i buffer now hi => ?_⟩,
    fun h i buffer now hi => ?_⟩
  · rw [Nat.add_right_comm]
    exact h (i + 1) buffer now hi
  · cases i with
    | zero => exact h.1 buffer now (Option.some.inj hi)
    | succ i =>
        have hlater := h.2 i buffer now hi
        rwa [Nat.add_right_comm] at hlater

/-- The loop finishes the connection when some message is not stored. -/
theorem ended_mem_collectEvents (conn turn : Nat) (received : List Received) :
    .ended conn ∈ collectEvents a conn turn received ↔ ¬AllStored a turn received := by
  induction received generalizing turn with
  | nil => exact iff_of_false List.not_mem_nil fun h => h fun _ _ _ hi => by cases hi
  | cons r received ih =>
      cases r with
      | message buffer now =>
          rw [collectEvents, List.mem_append, ended_mem_putLogEvents, ih,
            allStored_cons_iff a turn (.message buffer now) nofun, not_and_or]
          refine or_congr_left (not_congr ⟨fun h _ _ heq => ?_, fun h => h buffer now rfl⟩)
          cases heq
          exact h
      | interrupted => exact iff_of_false List.not_mem_nil fun h => h fun _ _ _ hi => by cases hi
      | timedOut =>
          rw [collectEvents, ih, allStored_cons_iff a turn .timedOut nofun]
          exact not_congr ⟨fun h => ⟨nofun, h⟩, And.right⟩
      | failed =>
          rw [collectEvents, ih, allStored_cons_iff a turn .failed nofun]
          exact not_congr ⟨fun h => ⟨nofun, h⟩, And.right⟩

/-- A run that receives can finish no connection but its own. -/
theorem ended_of_mem_received {received : List Received} {k : Nat}
    (h : .ended k ∈ .begun 1 :: collectEvents a 1 0 received) : .ended 1 ∈ collectEvents a 1 0 received := by
  have hmem := (List.mem_cons.mp h).resolve_left nofun
  rcases mem_collectEvents a hmem with hused | hended
  · cases hused
  · exact hended ▸ hmem

/-- In a run of the collector no statement is made on a finished connection and the connection is finished once
at most, exactly when it is not come to receiving, or every statement that stores a message succeeds. -/
theorem run_noneAfterEnd_iff (received : List Received) (loc : List LocRow) :
    NoneAfterEnd ((Pg.run received).run a (.unconnected loc)).2.trace ↔ (Connects a → AllStored a 0 received) := by
  rw [run_trace, runEvents]
  by_cases hsocket : a (0, .nnBind) < 0 ∨ a (0, .nnSetsockopt) < 0
  · rw [if_pos hsocket]
    apply iff_of_true List.Pairwise.nil
    intro hconnects
    unfold Connects at hconnects
    omega
  rw [if_neg hsocket]
  by_cases hconnect : a (0, .connect) = CONNECTION_OK
  · rw [if_pos hconnect]
    have hconnects : Connects a := ⟨by omega, by omega, hconnect⟩
    rw [forall_prop_of_true hconnects, ← not_not (a := AllStored a 0 received), ← ended_mem_collectEvents a 1,
      ← List.cons_append, noneAfterEnd_concat]
    refine ⟨fun h hmem => (h.2 1 (List.mem_cons_of_mem _ hmem)).2 rfl, fun h => ⟨?_, fun k hk => ?_⟩⟩
    · apply noneAfterEnd_of_unended
      intro e he k heq
      subst heq
      exact h (ended_of_mem_received a he)
    · exact absurd (ended_of_mem_received a hk) h
  · rw [if_neg hconnect]
    exact iff_of_true (List.pairwise_singleton _ _) fun hconnects => absurd hconnects.2.2 hconnect

end Discipline

/-- The server answers everything but the first insertion. -/
def insertFails (c : Nat × PgCall) : Int :=
  if c = (0, .insert) then PGRES_FATAL_ERROR else served c

/-- One message whose insertion fails: the connection is finished by `putLog`, and again at the end. -/
theorem run_finishes_twice : ¬∀ (a : Nat × PgCall → Int) (received : List Received) (loc : List LocRow),
    NoneAfterEnd ((Pg.run received).run a (.unconnected loc)).2.trace := by
  intro h
  have hnone := h insertFails [.message sampleBuffer 100] []
  rw [show ((Pg.run [.message sampleBuffer 100]).run insertFails (.unconnected [])).2.trace =
    [.begun 1, .used 1, .used 1, .ended 1] ++ [.ended 1] by decide, noneAfterEnd_concat] at hnone
  exact (hnone.2 1 (by decide)).2 rfl

end Wacs
