import Wacs.DumpMac
import Wacs.FaultHandles
import Wacs.PgWriter

/-! `lmdbwriter.cpp`: the loop that receives observations into one structure, stores them and shows them to the
SNMP agent. The counters are set from the structure whatever became of the message. -/

namespace Wacs

open OracleM

/-- The counters set by each message. -/
structure MonitoringParams where
  lastmac : Bytes
  lastssisignal : Int32

namespace MonitoringParams

def clear : MonitoringParams := ⟨[], 0⟩

def put (value : LogEntry) : MonitoringParams := ⟨mactostr value.sa, value.ssiSignal.toInt32⟩

end MonitoringParams

namespace Lmdb

/-- What a turn of the loop comes upon: what is received, what its local `LogEntry` holds before, the padding of
the records, and the engine's answers to `putLog`. -/
structure Turn where
  received : Received
  stale : { bytes : Bytes // bytes.length = sizeofLogEntry }
  pad : Padding
  answers : Answers

/-- The database, the counters and the request to stop; and the last message for which `putLog` returned zero, in
host order, which the source does not keep. -/
structure Writer where
  env : Engine
  counter : MonitoringParams
  stopRequest : Bool
  stored : Option LogEntry

/-- The structure after `nn_recv`: as much of the message as fits, and behind a shorter one what was there. -/
def filled (buffer stale : Bytes) : LogEntry :=
  LogEntry.ofBytes (buffer.take sizeofLogEntry ++ stale.drop buffer.length)

/-- The structure after `putLog`, which converts it in place unless the message is too short. -/
def left (buffer stale : Bytes) : LogEntry :=
  if buffer.length < sizeofLogEntry then filled buffer stale else ntohLogEntry (filled buffer stale)

/-- A turn of the loop of `run`. -/
def turn (snmpAgent : Bool) (w : Writer) (t : Turn) : Writer :=
  match t.received with
  | .message buffer now =>
      let rr := (putLog buffer now t.pad).run t.answers w.env
      { w with
        env := rr.2
        counter := if snmpAgent then .put (left buffer t.stale) else w.counter
        stored := if rr.1 = 0 then some (ntohLogEntry (LogEntry.ofBytes buffer)) else w.stored }
  | .interrupted => { w with stopRequest := true }
  | .timedOut => w
  | .failed => w

/-- The states of the loop, the first one included. -/
def states (snmpAgent : Bool) : Writer → List Turn → List Writer
  | w, [] => [w]
  | w, t :: ts => if w.stopRequest then [w] else w :: states snmpAgent (turn snmpAgent w t) ts

/-- Before the loop, with an open database. -/
def initial (env : Engine) : Writer := ⟨env, .clear, false, none⟩

/-- The counters tell of the last message stored, and are clear while there is none. -/
def Describes (w : Writer) : Prop := w.counter = w.stored.elim .clear .put

end Lmdb

/-! ### What `putLog` returns -/

section Status

variable (a : Answers)

theorem putObservation_fst (turn : Nat) (key : LogKey) (data : LogData) (pad : Padding) (s : Engine) :
    ((putObservation turn key data pad).run a s).1 = observationFailure a turn := by
  rw [putObservation_eq, run_bind, withMapFull_put_fst, observationFailure, run_ite]
  by_cases hlog : finalStatus a turn .log = 0
  · rw [if_neg (not_not_intro hlog), if_neg (not_not_intro hlog), putProbe, run_bind, withMapFull_put_fst, run_ite]
    by_cases hprobe : finalStatus a turn .probe = 0
    · rw [if_neg (not_not_intro hprobe), if_neg (not_not_intro hprobe)]
      rfl
    · rw [if_pos hprobe, if_pos hprobe]
      rfl
  · rw [if_pos hlog, if_pos hlog]
    rfl

theorem withMapFull_commit_fst (turn : Nat) (p : Phase) (s : Engine) :
    ((withMapFull turn p mdbTxnCommit).run a s).1 = finalStatus a turn p := by
  obtain ⟨s₁, hrun, -⟩ := withMapFull_run a turn p TxnStore.commit s
    fun r s hr => by rw [TxnStore.commit_committed, if_neg hr]
  exact congrArg Prod.fst hrun

/-- The message is long enough, and the engine begins, puts and commits without an error that stays. -/
structure Stores (buffer : Bytes) : Prop where
  length : sizeofLogEntry ≤ buffer.length
  txnBegin : a (0, .txnBegin) = 0
  puts : observationFailure a 0 = none
  commit : finalStatus a 0 .commit = 0

theorem putLog_eq_zero_iff (buffer : Bytes) (now : Int) (pad : Padding) (s : Engine) :
    ((putLog buffer now pad).run a s).1 = 0 ↔ Stores a buffer := by
  by_cases hlen : buffer.length < sizeofLogEntry
  · refine iff_of_false (fun h => ?_) fun h => absurd h.length (not_le.mpr hlen)
    rw [putLog, if_pos hlen] at h
    exact absurd (show ERRCODE_NO_MEMORY = 0 from h) (by decide)
  · rw [putLog_eq now pad hlen, mdbTxnBegin, run_status_bind, run_ite]
    by_cases hbegin : a (0, .txnBegin) = 0
    · have hputs := putObservation_fst a 0 (bufferKey buffer now pad) (bufferData buffer) pad
        (s.begin (a (0, .txnBegin)))
      rw [if_neg (not_not_intro hbegin), run_bind, hputs]
      cases hfail : observationFailure a 0 with
      | some code =>
          have hcode : code ≠ 0 := (observationFailure_neg hfail).ne
          exact iff_of_false hcode fun h => absurd (h.puts.symm.trans hfail) (Option.some_ne_none code).symm
      | none =>
          dsimp only
          rw [run_bind, withMapFull_commit_fst, run_ite]
          by_cases hcommit : finalStatus a 0 .commit = 0
          · rw [if_neg (not_not_intro hcommit)]
            exact iff_of_true hcommit ⟨not_lt.mp hlen, hbegin, hfail, hcommit⟩
          · rw [if_pos hcommit]
            refine iff_of_false (fun h => ?_) fun h => hcommit h.commit
            exact absurd (show ERRCODE_LMDB_TXN_COMMIT = 0 from h) (by decide)
    · rw [if_pos hbegin]
      refine iff_of_false (fun h => ?_) fun h => hbegin h.txnBegin
      exact absurd (show ERRCODE_LMDB_TXN_BEGIN = 0 from h) (by decide)

end Status

/-! ### The counters -/

/-- A read inside the first bytes of a string does not go by what follows them. -/
theorem peek_take (slack : Nat → UInt8) (b : Bytes) {n off len : Nat} (h : off + len ≤ n) :
    peek slack (b.take n) off len = peek slack b off len := by
  refine List.map_congr_left fun i hi => ?_
  have hlt : off + i < n := by
    have := List.mem_range.mp hi
    omega
  rw [List.getD_eq_getElem?_getD, List.getD_eq_getElem?_getD, List.getElem?_take_of_lt hlt]

theorem mactostr_injective {m m' : Mac} (h : mactostr m = mactostr m') : m = m' := by
  have hread := congrArg strtomacaddress h
  rw [strtomacaddress_mactostr, strtomacaddress_mactostr] at hread
  exact (Prod.ext_iff.mp hread).2

namespace Lmdb

theorem filled_of_long {buffer : Bytes} (h : sizeofLogEntry ≤ buffer.length)
    (stale : { b : Bytes // b.length = sizeofLogEntry }) :
    filled buffer stale = LogEntry.ofBytes buffer := by
  have hdrop : stale.val.drop buffer.length = [] := List.drop_eq_nil_of_le (stale.property.trans_le h)
  rw [filled, hdrop, List.append_nil, LogEntry.ofBytes, LogEntry.ofBytes, LogEntry.mk.injEq]
  refine ⟨?_, ?_, Subtype.ext ?_⟩
  · rw [peek_take _ _ (show 0 + 2 ≤ sizeofLogEntry by decide)]
  · rw [peek_take _ _ (show 2 + 2 ≤ sizeofLogEntry by decide)]
  · change peek (fun _ => 0) (buffer.take sizeofLogEntry) 4 6 = peek (fun _ => 0) buffer 4 6
    rw [peek_take _ _ (show 4 + 6 ≤ sizeofLogEntry by decide)]

/-- A message stored is left in host order. -/
theorem left_of_stores {a : Answers} {buffer : Bytes} (h : Stores a buffer)
    (stale : { b : Bytes // b.length = sizeofLogEntry }) :
    left buffer stale = ntohLogEntry (LogEntry.ofBytes buffer) := by
  rw [left, if_neg (not_lt.mpr h.length), filled_of_long h.length]

theorem put_eq_put_iff (e e' : LogEntry) :
    MonitoringParams.put e = .put e' ↔ e.sa = e'.sa ∧ e.ssiSignal = e'.ssiSignal := by
  rw [MonitoringParams.put, MonitoringParams.put, MonitoringParams.mk.injEq]
  refine ⟨fun ⟨hmac, hssi⟩ => ⟨mactostr_injective hmac, ?_⟩, fun ⟨hsa, hssi⟩ => ?_⟩
  · have h := congrArg Int32.toInt16 hssi
    rwa [Int16.toInt16_toInt32, Int16.toInt16_toInt32] at h
  · rw [hsa, hssi]
    exact ⟨rfl, rfl⟩

theorem put_ne_clear (e : LogEntry) : MonitoringParams.put e ≠ .clear :=
  fun h => mactostr_ne_nil e.sa (congrArg MonitoringParams.lastmac h)

/-- A message is stored, or what it leaves in the structure has the address and the signal of the last one that
was. -/
def Harmless (w : Writer) (t : Turn) : Prop :=
  ∀ buffer now, t.received = .message buffer now → Stores t.answers buffer ∨
    ∃ e ∈ w.stored, (left buffer t.stale).sa = e.sa ∧ (left buffer t.stale).ssiSignal = e.ssiSignal

/-- Every turn of a run, up to the stop, is harmless in the state it starts from. -/
def HarmlessRun : Writer → List Turn → Prop
  | _, [] => True
  | w, t :: ts => w.stopRequest = true ∨ Harmless w t ∧ HarmlessRun (turn true w t) ts

/-- One turn keeps the counters right exactly when it is harmless. -/
theorem describes_turn_iff {w : Writer} (h : Describes w) (t : Turn) : Describes (turn true w t) ↔ Harmless w t := by
  obtain ⟨received, stale, pad, answers⟩ := t
  cases received with
  | message buffer now =>
      have hzero := putLog_eq_zero_iff answers buffer now pad w.env
      have hharmless : Harmless w ⟨.message buffer now, stale, pad, answers⟩ ↔ Stores answers buffer ∨
          ∃ e ∈ w.stored, (left buffer stale).sa = e.sa ∧ (left buffer stale).ssiSignal = e.ssiSignal := by
        refine ⟨fun h => h buffer now rfl, fun h buffer' now' heq => ?_⟩
        obtain ⟨rfl, rfl⟩ := Received.message.inj heq
        exact h
      rw [hharmless, Describes, turn]
      dsimp only
      rw [if_pos rfl]
      by_cases hstores : Stores answers buffer
      · rw [if_pos (hzero.mpr hstores), left_of_stores hstores]
        exact iff_of_true rfl (Or.inl hstores)
      · rw [if_neg (mt hzero.mp hstores), or_iff_right hstores]
        cases hstored : w.stored with
        | none => exact iff_of_false (put_ne_clear _) (by simp)
        | some e => simpa using put_eq_put_iff (left buffer stale) e
  | interrupted => exact iff_of_true h nofun
  | timedOut => exact iff_of_true h nofun
  | failed => exact iff_of_true h nofun

theorem describes_initial (env : Engine) : Describes (initial env) := rfl

theorem states_head (w : Writer) (ts : List Turn) : w ∈ states true w ts := by
  cases ts with
  | nil => exact List.mem_singleton_self w
  | cons t ts =>
      rw [states]
      split_ifs
      · exact List.mem_singleton_self w
      · exact List.mem_cons_self

theorem describes_states_iff {w : Writer} (h : Describes w) (ts : List Turn) :
    (∀ w' ∈ states true w ts, Describes w') ↔ HarmlessRun w ts := by
  induction ts generalizing w with
  | nil => simpa [states, HarmlessRun] using h
  | cons t ts ih =>
      rw [states, HarmlessRun]
      by_cases hstop : w.stopRequest = true
      · rw [if_pos hstop]
        exact iff_of_true (List.forall_mem_singleton.mpr h) (Or.inl hstop)
      · rw [if_neg hstop, List.forall_mem_cons, or_iff_right hstop]
        constructor
        · rintro ⟨-, hall⟩
          have hnext := hall _ (states_head _ ts)
          exact ⟨(describes_turn_iff h t).mp hnext, (ih hnext).mp hall⟩
        · rintro ⟨hharmless, hrun⟩
          exact ⟨h, (ih ((describes_turn_iff h t).mpr hharmless)).mpr hrun⟩

/-- **The counters describe what was stored** in every state of a run exactly when each of its turns is
harmless. -/
theorem counters_describe_iff (env : Engine) (ts : List Turn) :
    (∀ w ∈ states true (initial env) ts, Describes w) ↔ HarmlessRun (initial env) ts :=
  describes_states_iff (describes_initial env) ts

/-- A short message, received into a structure of zeroes. -/
def shortTurn : Turn := ⟨.message (sampleBuffer.take 4) 100, ⟨List.replicate 10 0, rfl⟩, ⟨0, 0⟩, quiet⟩

/-- It is shown, and nothing has been stored. -/
theorem counters_show_refused :
    ¬∀ (env : Engine) (ts : List Turn), ∀ w ∈ states true (initial env) ts, Describes w := by
  intro h
  have hall := h (.idle .empty) [shortTurn]
  rw [describes_states_iff (describes_initial _), HarmlessRun] at hall
  rcases hall with hstop | ⟨hharmless, -⟩
  · exact absurd hstop nofun
  · rcases hharmless _ _ rfl with hstores | ⟨e, he, -⟩
    · exact absurd hstores.length (by decide)
    · cases he

end Lmdb

end Wacs
