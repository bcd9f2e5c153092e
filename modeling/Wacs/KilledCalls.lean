import Wacs.FaultHandles
import Wacs.OracleKills
import Wacs.ScanFaults

/-! A call on the store that is killed: wherever the kill comes, what is committed is what was there before the call
or what the call would have left. So a run in which processes are killed leaves what a run leaves in which they are
not, and some calls are refused their transaction. -/

namespace Wacs

open OracleM OrderedCursor

/-! ### Calls -/

/-- A call of one of the functions of `dblog.cpp`, and its arguments. -/
inductive StoreCall : Type 1 where
  | write (c : WriteCall)
  | scan (c : ScanCall)

namespace StoreCall

def exec : StoreCall → EngineM Int
  | write c => c.exec
  | scan c => c.exec

end StoreCall

/-! ### Parts that commit nothing -/

section Parts

variable {a : Answers} {s : Engine}

theorem still_status (c : Nat × Call) : Still TxnStore.committed a (mdbStatus c) s := still_op rfl

theorem still_envOpen (c : Nat × Call) : Still TxnStore.committed a (mdbEnvOpen c) s := still_op rfl

theorem still_dbiOpen (c : Nat × Call) : Still TxnStore.committed a (mdbDbiOpen c) s := still_op rfl

theorem still_cursorOpen : Still TxnStore.committed a mdbCursorOpen s := still_op rfl

theorem still_cursorGet (key : Option Bytes) : Still TxnStore.committed a (mdbCursorGet key) s := still_op rfl

theorem still_view : Still TxnStore.committed a txnView s := still_op rfl

theorem still_loop {σ : Type} (view : σ → Store) (body : σ → Bytes × Bytes → σ × Bool) (env : σ)
    (e : Bytes × Bytes) : Still TxnStore.committed a (cursorLoop view body env e) s := still_op rfl

/-- The deletions reach the transaction alone. -/
theorem still_setView (m : Store) : Still TxnStore.committed a (setView m) s := still_op rfl

theorem still_begin (c : Nat × Call) : Still TxnStore.committed a (mdbTxnBegin c) s :=
  still_op (s.begin_committed (a c))

theorem still_put (c : Nat × Call) (k v : Bytes) : Still TxnStore.committed a (mdbPut c k v) s :=
  still_op (s.put_committed (a c) k v)

theorem still_del (c : Nat × Call) (k : Bytes) : Still TxnStore.committed a (mdbDel c k) s :=
  still_op (s.del_committed (a c) MDB_NOTFOUND k)

theorem still_abort : Still TxnStore.committed a mdbTxnAbort s := still_op s.abort_committed

theorem still_envClose : Still TxnStore.committed a mdbEnvClose s := still_op rfl

/-- The commit of a transaction that has written nothing. -/
theorem still_commit (c : Nat × Call) (h : s.view = s.committed) :
    Still TxnStore.committed a (mdbTxnCommit c) s := still_op (sameStore_commit c a s h)

/-- A commit that fails. -/
theorem still_commit_of_ne {c : Nat × Call} (h : a c ≠ 0) : Still TxnStore.committed a (mdbTxnCommit c) s := by
  refine still_op ?_
  change (s.commit (a c)).committed = s.committed
  rw [TxnStore.commit_committed, if_neg h]

theorem openDb_still (c : OpenCall → Nat × Call) : Still TxnStore.committed a (openDb c) s := by
  have hfail : ∀ s, Still TxnStore.committed a (mdbEnvClose >>= fun _ => pure false : EngineM Bool) s :=
    fun s => still_envClose.bind fun _ _ _ => still_pure false
  refine (still_status _).bind fun _ _ _ => Still.ite (fun _ => hfail _) fun _ => ?_
  refine (still_envOpen _).bind fun _ s' _ => Still.ite (fun _ => hfail _) fun _ => ?_
  refine (still_begin _).bind fun rc s₁ hbegun => Still.ite (fun _ => hfail _) fun hzero => ?_
  refine (still_dbiOpen _).bind fun _ s₂ hopened => Still.ite (fun _ => hfail _) fun _ => ?_
  refine (still_commit _ ?_).bind fun _ _ _ => still_pure _
  -- the transaction of `openDb` has begun and written nothing
  have hrc : a (c .txnBegin) = 0 := (congrArg Prod.fst hbegun).trans (not_not.mp hzero)
  have hs₁ : s'.begin (a (c .txnBegin)) = s₁ := congrArg Prod.snd hbegun
  have hs₂ : s₁.note .used = s₂ := congrArg Prod.snd hopened
  rw [← hs₂, ← hs₁, hrc]
  rfl

theorem processMapFull_still (turn : Nat) (p : Phase) : Still TxnStore.committed a (processMapFull turn p) s := by
  refine still_abort.bind fun _ _ _ => ?_
  refine (still_status _).bind fun _ _ _ => Still.ite (fun _ => still_pure _) fun _ => ?_
  refine (still_envClose.bind fun _ _ _ => still_pure true).bind fun _ _ _ => ?_
  refine Still.ite (fun _ => still_pure _) fun _ => ?_
  refine (still_status _).bind fun _ _ _ => ?_
  refine Still.ite (fun _ => still_envClose.bind fun _ _ _ => still_pure _) fun _ => ?_
  refine (still_status _).bind fun _ _ _ => ?_
  refine (still_envOpen _).bind fun _ s' _ => ?_
  refine still_envClose.bind fun _ _ _ => ?_
  exact (openDb_still _).bind fun _ _ _ => Still.ite (fun _ => still_pure _) fun _ => still_begin _

theorem withMapFull_still (turn : Nat) (p : Phase) {act : Nat × Call → EngineM Int}
    (hact : ∀ c s, Still TxnStore.committed a (act c) s) :
    Still TxnStore.committed a (withMapFull turn p act) s := by
  refine (hact _ _).bind fun _ _ _ => Still.ite (fun _ => ?_) fun _ => still_pure _
  refine (processMapFull_still turn p).bind fun _ _ _ => ?_
  exact Still.ite (fun _ => hact _ _) fun _ => still_pure _

/-- A commit that is answered with zero is the end of it; after any other the change is still to come. -/
theorem withMapFull_commit_atomic (turn : Nat) (p : Phase) :
    Atomic TxnStore.committed a (withMapFull turn p mdbTxnCommit) s := by
  by_cases hzero : a (turn, .first p) = 0
  · refine (atomic_op _).bind_still fun r s' hrun => Still.ite (fun hfull => ?_) fun _ => still_pure _
    have hr : a (turn, .first p) = r := congrArg Prod.fst hrun
    exact absurd (hzero.symm.trans (hr.trans hfull)) zero_ne_mapFull
  · refine (still_commit_of_ne hzero).bind_atomic fun _ _ _ => Atomic.ite (fun _ => ?_) fun _ => (still_pure _).atomic
    refine (processMapFull_still turn p).bind_atomic fun _ _ _ => ?_
    exact Atomic.ite (fun _ => atomic_op _) fun _ => (still_pure _).atomic

theorem putObservation_still (turn : Nat) (key : LogKey) (data : LogData) (pad : Padding) :
    Still TxnStore.committed a (putObservation turn key data pad) s := by
  have hfail : ∀ (code : Int) s,
      Still TxnStore.committed a (mdbTxnAbort >>= fun _ => pure (some code) : EngineM (Option Int)) s :=
    fun code s => still_abort.bind fun _ _ _ => still_pure (some code)
  refine (withMapFull_still _ _ fun c s => still_put c _ _).bind fun _ _ _ => ?_
  refine Still.ite (fun _ => hfail _ _) fun _ => ?_
  refine (withMapFull_still _ _ fun c s => still_put c _ _).bind fun _ _ _ => ?_
  exact Still.ite (fun _ => hfail _ _) fun _ => still_pure _

theorem putRecords_still (pad : Padding) (turn : Nat) (records : List LogRecord) :
    Still TxnStore.committed a (putRecords pad turn records) s := by
  induction records generalizing turn s with
  | nil => exact still_pure _
  | cons record records ih =>
      refine (putObservation_still _ _ _ _).bind fun failed _ _ => ?_
      cases failed with
      | some code => exact still_pure _
      | none => exact ih (turn + 1)

/-! ### All or nothing -/

/-- The end of a transaction: a commit, and what is made of its status. -/
theorem commit_atomic {α : Type} (c : Nat × Call) (f : Int → α) :
    Atomic TxnStore.committed a (mdbTxnCommit c >>= fun r => pure (f r)) s :=
  (atomic_op _).bind_still fun _ _ _ => still_pure _

theorem commit_ite_atomic {α : Type} (c : Nat × Call) (p : Int → Prop) [DecidablePred p] (r r' : Int → α) :
    Atomic TxnStore.committed a (mdbTxnCommit c >>= fun x => if p x then pure (r x) else pure (r' x)) s :=
  (atomic_op _).bind_still fun _ _ _ => Still.ite (fun _ => still_pure _) fun _ => still_pure _

/-- A transaction that does not begin is nothing. -/
theorem begin_atomic {α : Type} (c : Nat × Call) (refused : α) {x : EngineM α}
    (hx : ∀ s, Atomic TxnStore.committed a x s) :
    Atomic TxnStore.committed a (mdbTxnBegin c >>= fun r => if r ≠ 0 then pure refused else x) s :=
  (still_begin _).bind_atomic fun _ _ _ => Atomic.ite (fun _ => (still_pure _).atomic) fun _ => hx _

theorem putLog_atomic (buffer : Bytes) (now : Int) (pad : Padding) :
    Atomic TxnStore.committed a (putLog buffer now pad) s := by
  refine Atomic.ite (fun _ => (still_pure _).atomic) fun _ => begin_atomic _ _ fun _ => ?_
  refine (putObservation_still _ _ _ _).bind_atomic fun failed _ _ => ?_
  cases failed with
  | some code => exact (still_pure _).atomic
  | none =>
      refine (withMapFull_commit_atomic _ _).bind_still fun _ _ _ => ?_
      exact Still.ite (fun _ => still_pure _) fun _ => still_pure _

theorem putLogEntries_atomic (records : List LogRecord) (pad : Padding) :
    Atomic TxnStore.committed a (putLogEntries records pad) s := by
  refine begin_atomic _ _ fun _ => (putRecords_still _ _ _).bind_atomic fun c _ _ => ?_
  cases c with
  | error code => exact (still_pure _).atomic
  | ok c => exact commit_ite_atomic _ _ _ _

theorem putNotification_atomic (sa : Mac) (value : Bytes) (stray : Stray) :
    Atomic TxnStore.committed a (putNotification sa value stray) s := by
  refine begin_atomic _ _ fun _ => (withMapFull_still _ _ fun c s => ?_).bind_atomic fun _ _ _ => ?_
  · split_ifs
    · exact still_put c _ _
    · exact still_del c _
  · refine Atomic.ite (fun _ => ?_) fun _ => commit_ite_atomic _ _ _ _
    exact (still_abort.bind fun _ _ _ => still_pure _).atomic

theorem commitMissed_atomic : Atomic TxnStore.committed a commitMissed s := commit_atomic _ _

theorem listRecords_atomic {σ ι : Type} (seek : Bytes) (test : Bytes × Bytes → Verdict) (item : Bytes × Bytes → ι)
    (callback : σ → ι → σ × Bool) (env : σ) {missed : EngineM Unit}
    (hmissed : ∀ s, Atomic TxnStore.committed a missed s) :
    Atomic TxnStore.committed a (listRecords seek test item callback env missed) s := by
  refine begin_atomic _ _ fun _ => still_cursorOpen.bind_atomic fun _ _ _ => ?_
  refine Atomic.ite (fun _ => commit_atomic _ _) fun _ => ?_
  refine (still_cursorGet _).bind_atomic fun found _ _ => ?_
  cases found with
  | error r => exact (hmissed _).bind_still fun _ _ _ => still_pure _
  | ok e =>
      refine still_view.bind_atomic fun view _ _ => (still_loop _ _ _ e).bind_atomic fun listing _ _ => ?_
      exact commit_ite_atomic _ _ _ _

theorem removeRecords_atomic (seek : Bytes) (test : Bytes × Bytes → Verdict) {missed : Int → EngineM Int}
    (hmissed : ∀ r s, Atomic TxnStore.committed a (missed r) s) :
    Atomic TxnStore.committed a (removeRecords seek test missed) s := by
  refine begin_atomic _ _ fun _ => still_cursorOpen.bind_atomic fun _ _ _ => ?_
  refine Atomic.ite (fun _ => commit_atomic _ _) fun _ => ?_
  refine (still_cursorGet _).bind_atomic fun found _ _ => ?_
  cases found with
  | error r => exact hmissed r _
  | ok e =>
      refine still_view.bind_atomic fun view _ _ => (still_loop _ _ _ e).bind_atomic fun left _ _ => ?_
      refine (still_setView _).bind_atomic fun _ _ _ => ?_
      exact commit_ite_atomic _ _ _ _

theorem doGetNotification_still (sa : Mac) : Still TxnStore.committed a (doGetNotification sa) s := by
  refine still_cursorOpen.bind fun _ _ _ => Still.ite (fun _ => still_pure _) fun _ => ?_
  refine (still_cursorGet _).bind fun found _ _ => ?_
  cases found with
  | error r => exact still_pure _
  | ok e => exact still_pure _

theorem getNotification_atomic (useLmdb : Bool) (sa : Mac) :
    Atomic TxnStore.committed a (getNotification useLmdb sa) s := by
  refine begin_atomic _ _ fun _ => (doGetNotification_still sa).bind_atomic fun got _ _ => ?_
  have hend : ∀ s, Atomic TxnStore.committed a (endGetNotification got.1) s := by
    intro s
    refine Atomic.ite (fun _ => ?_) fun _ => atomic_op _
    exact (still_abort.bind fun _ _ _ => still_pure _).atomic
  exact (hend _).bind_still fun _ _ _ => Still.ite (fun _ => still_pure _) fun _ => still_pure _

end Parts

theorem WriteCall.exec_atomic (c : WriteCall) (a : Answers) (s : Engine) :
    Atomic TxnStore.committed a c.exec s := by
  cases c with
  | putLog buffer now pad => exact putLog_atomic buffer now pad
  | putLogEntries records pad => exact putLogEntries_atomic records pad
  | putNotification sa value stray => exact putNotification_atomic sa value stray

theorem ScanCall.exec_atomic (c : ScanCall) (a : Answers) (s : Engine) :
    Atomic TxnStore.committed a c.exec s := by
  cases c with
  | readLog slack f start finish pad onLog env =>
      exact (listRecords_atomic _ _ _ _ _ fun _ => commitMissed_atomic).bind_still fun _ _ _ => still_pure _
  | readLastProbe slack f start finish onLog env =>
      exact (listRecords_atomic _ _ _ _ _ fun _ => commitMissed_atomic).bind_still fun _ _ _ => still_pure _
  | getNotification useLmdb sa => exact (getNotification_atomic useLmdb sa).bind_still fun _ _ _ => still_pure _
  | lsNotification slack onNotification env =>
      exact (listRecords_atomic _ _ _ _ _ fun _ => still_abort.atomic).bind_still fun _ _ _ => still_pure _
  | remove c =>
      cases c with
      | rmLog slack f start finish pad =>
          exact removeRecords_atomic _ _ fun _ _ => commitMissed_atomic.bind_still fun _ _ _ => still_pure _
      | rmNotification slack p =>
          exact removeRecords_atomic _ _ fun _ _ => (still_abort.bind fun _ _ _ => still_pure _).atomic

theorem StoreCall.exec_atomic (c : StoreCall) (a : Answers) (s : Engine) :
    Atomic TxnStore.committed a c.exec s := by
  cases c with
  | write c => exact c.exec_atomic a s
  | scan c => exact c.exec_atomic a s

/-! ### Calls that are refused their transaction -/

/-- The engine does not begin a transaction for the call. -/
def refused (a : Answers) : Answers := fun c => if c = (0, .txnBegin) then 1 else a c

theorem begin_refused {α : Type} (a : Answers) (s : Engine) (r : α) (x : EngineM α) :
    ((mdbTxnBegin (0, .txnBegin) >>= fun status => if status ≠ 0 then pure r else x).run (refused a) s).2 = s := by
  have hstatus : refused a (0, .txnBegin) ≠ 0 := by
    rw [refused, if_pos rfl]
    decide
  rw [mdbTxnBegin, run_status_bind, if_pos hstatus, TxnStore.begin_of_ne s hstatus]
  rfl

theorem StoreCall.refused_run (c : StoreCall) (a : Answers) (s : Engine) : (c.exec.run (refused a) s).2 = s := by
  cases c with
  | write c =>
      cases c with
      | putLog buffer now pad =>
          change ((putLog buffer now pad).run (refused a) s).2 = s
          rw [putLog, run_ite]
          split_ifs
          · rfl
          · exact begin_refused a s _ _
      | putLogEntries records pad => exact begin_refused a s _ _
      | putNotification sa value stray => exact begin_refused a s _ _
  | scan c =>
      cases c with
      | readLog slack f start finish pad onLog env =>
          change ((readLog slack f start finish pad (some onLog) (some env)).run (refused a) s).2 = s
          exact begin_refused a s _ _
      | readLastProbe slack f start finish onLog env =>
          change ((readLastProbe slack f start finish (some onLog) (some env)).run (refused a) s).2 = s
          exact begin_refused a s _ _
      | getNotification useLmdb sa =>
          change ((getNotification useLmdb sa).run (refused a) s).2 = s
          exact begin_refused a s _ _
      | lsNotification slack onNotification env =>
          change ((lsNotification slack (some onNotification) env).run (refused a) s).2 = s
          exact begin_refused a s _ _
      | remove c =>
          cases c with
          | rmLog => exact begin_refused a s _ _
          | rmNotification => exact begin_refused a s _ _

/-! ### Runs -/

/-- A call made by some process, the engine's answers to it, and after how many operations the process is killed, if
it is. -/
structure Attempt : Type 1 where
  call : StoreCall
  answers : Answers
  kill : Option Nat

/-- The database after a call on it. -/
def Attempt.perform (m : Store) (t : Attempt) : Store :=
  match t.kill with
  | none => (t.call.exec.run t.answers (.idle m)).2.committed
  | some n => (killed t.answers n t.call.exec (.idle m)).committed

/-- The database after one call and another, each on what those before have committed. -/
def attempts (m : Store) (ts : List Attempt) : Store := ts.foldl Attempt.perform m

/-- The same call by a process that is not killed: as it was answered, or, when it is one that was killed, with its
transaction refused. -/
structure Attempt.Survived (t t' : Attempt) : Prop where
  call : t'.call = t.call
  kill : t'.kill = none
  answers : t'.answers = t.answers ∨ t.kill ≠ none ∧ t'.answers = refused t.answers

theorem Attempt.exists_survived (m : Store) (t : Attempt) : ∃ t', t.Survived t' ∧ t'.perform m = t.perform m := by
  obtain ⟨c, a, kill⟩ := t
  cases kill with
  | none => exact ⟨⟨c, a, none⟩, ⟨rfl, rfl, Or.inl rfl⟩, rfl⟩
  | some n =>
      rcases c.exec_atomic a (.idle m) n with hbefore | hafter
      · refine ⟨⟨c, refused a, none⟩, ⟨rfl, rfl, Or.inr ⟨Option.some_ne_none n, rfl⟩⟩, ?_⟩
        exact (congrArg TxnStore.committed (c.refused_run a (.idle m))).trans hbefore.symm
      · exact ⟨⟨c, a, none⟩, ⟨rfl, rfl, Or.inl rfl⟩, hafter.symm⟩

/-- **Kills leave no trace of their own**: for calls by processes that may be killed anywhere in them, whatever the
engine answers, there are answers under which the same calls, none of them killed, leave the same database; the
answers change for calls that were killed alone, which are then refused their transaction. -/
theorem attempts_survived (m : Store) (ts : List Attempt) :
    ∃ ts', List.Forall₂ Attempt.Survived ts ts' ∧ attempts m ts' = attempts m ts := by
  induction ts generalizing m with
  | nil => exact ⟨[], .nil, rfl⟩
  | cons t ts ih =>
      obtain ⟨t', ht', hperform⟩ := t.exists_survived m
      obtain ⟨ts', hts', hattempts⟩ := ih (t.perform m)
      refine ⟨t' :: ts', .cons ht' hts', ?_⟩
      rw [attempts, List.foldl_cons, hperform]
      exact hattempts

end Wacs
