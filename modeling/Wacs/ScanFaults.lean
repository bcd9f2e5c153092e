import Wacs.FaultRecovery
import Wacs.OrderedHandles

/-! The functions of `dblog.cpp` that move a cursor, for every pattern of engine answers: the transaction each of
them begins is ended once, the ones that read leave the store as it is, and an advance that fails cuts the scan
short without a word. -/

namespace Wacs

open OracleM OrderedCursor

/-- A call of one of the functions that remove, and its arguments. -/
inductive RemoveCall where
  | rmLog (slack : Slack) (f : Filter) (start finish : Int) (pad : UInt8)
  | rmNotification (slack : Slack) (p : NotePrefix)

def RemoveCall.exec : RemoveCall → EngineM Int
  | rmLog slack f start finish pad => Wacs.rmLog slack f start finish pad
  | rmNotification slack p => Wacs.rmNotification slack p

/-- A call of one of the functions that move a cursor, and its arguments. -/
inductive ScanCall : Type 1 where
  | readLog {σ : Type} (slack : Slack) (f : Filter) (start finish : Int) (pad : UInt8) (onLog : OnLog σ) (env : σ)
  | readLastProbe {σ : Type} (slack : Slack) (f : Filter) (start finish : Int) (onLog : OnLog σ) (env : σ)
  | getNotification (useLmdb : Bool) (sa : Mac)
  | lsNotification {σ : Type} (slack : Slack) (onNotification : σ → Mac × Bytes → σ × Bool) (env : σ)
  | remove (c : RemoveCall)

namespace ScanCall

/-- The call, with its status. -/
def exec : ScanCall → EngineM Int
  | readLog slack f start finish pad onLog env =>
      return (← Wacs.readLog slack f start finish pad (some onLog) (some env)).1
  | readLastProbe slack f start finish onLog env =>
      return (← Wacs.readLastProbe slack f start finish (some onLog) (some env)).1
  | getNotification useLmdb sa => return (← Wacs.getNotification useLmdb sa).1
  | lsNotification slack onNotification env =>
      return (← Wacs.lsNotification slack (some onNotification) env).1
  | remove c => c.exec

def removes : ScanCall → Bool
  | remove _ => true
  | _ => false

end ScanCall

/-- Calls one after the other, each with the engine's answers to it. -/
def scans (s : Engine) (calls : List (ScanCall × Answers)) : Engine :=
  calls.foldl (fun s c => (c.1.exec.run c.2 s).2) s

/-! ### What a computation does to the engine -/

/-- Whatever the answers, the states before and after are so related. -/
def Always {α : Type} (R : Engine → Engine → Prop) (x : EngineM α) : Prop := ∀ a s, R s (x.run a s).2

/-- The handle has been used some times, and nothing else is changed. -/
def Used (s s' : Engine) : Prop := ∃ k, s' = { s with trace := s.trace ++ List.replicate k (.used s.handle) }

/-- The live transaction is used, and then ended, and no other is begun. -/
structure EndsTxn (s s' : Engine) : Prop where
  trace : ∃ k, s'.trace = s.trace ++ List.replicate k (.used s.handle) ++ [.ended s.handle]
  handle : s'.handle = s.handle
  pending : s'.pending = none

/-- A transaction without writes leaves the store as it is. -/
def SameStore (s s' : Engine) : Prop := s.view = s.committed → s'.committed = s.committed

/-- The relation does not go by what has been used before. -/
def PastUse (R : Engine → Engine → Prop) : Prop := ∀ s s' s'', Used s s' → R s' s'' → R s s''

theorem used_refl (s : Engine) : Used s s := ⟨0, by rw [List.replicate_zero, List.append_nil]⟩

theorem EndsTxn.of_note {s s' : Engine} (htrace : s'.trace = s.trace ++ [.ended s.handle])
    (hhandle : s'.handle = s.handle) (hpending : s'.pending = none) : EndsTxn s s' :=
  ⟨⟨0, by rw [htrace, List.replicate_zero, List.append_nil]⟩, hhandle, hpending⟩

theorem pastUse_used : PastUse Used := by
  rintro s _ _ ⟨j, rfl⟩ ⟨k, rfl⟩
  refine ⟨j + k, ?_⟩
  dsimp only
  rw [List.append_assoc, List.replicate_append_replicate]

theorem pastUse_endsTxn : PastUse EndsTxn := by
  rintro s _ s'' ⟨j, rfl⟩ h
  obtain ⟨k, htrace⟩ := h.trace
  refine ⟨⟨j + k, ?_⟩, h.handle, h.pending⟩
  rw [htrace, List.append_assoc s.trace, List.replicate_append_replicate]

theorem pastUse_sameStore : PastUse SameStore := by
  rintro s _ _ ⟨k, rfl⟩ h
  exact h

section Always

variable {α β : Type} {R : Engine → Engine → Prop}

theorem Always.bind {x : EngineM α} {f : α → EngineM β} (hx : Always Used x) (hpast : PastUse R)
    (hf : ∀ r, Always R (f r)) : Always R (x >>= f) := by
  intro a s
  rw [run_bind]
  exact hpast _ _ _ (hx a s) (hf _ a _)

theorem Always.ite {p : Prop} [Decidable p] {x y : EngineM α} (hx : Always R x) (hy : Always R y) :
    Always R (if p then x else y) := by
  split_ifs
  · exact hx
  · exact hy

/-- A relation of the state before and that after does not go by the result. -/
theorem Always.map {x : EngineM α} (hx : Always R x) (f : α → β) : Always R (x >>= fun r => pure (f r)) := by
  intro a s
  rw [run_bind]
  exact hx a s

theorem used_pure (r : α) : Always Used (pure r) := fun _ s => used_refl s

theorem used_cursorOpen : Always Used mdbCursorOpen := fun _ _ => ⟨1, rfl⟩

theorem used_cursorGet (key : Option Bytes) : Always Used (mdbCursorGet key) := fun _ _ => ⟨1, rfl⟩

theorem used_view : Always Used txnView := fun _ s => used_refl s

theorem used_loop {σ : Type} (view : σ → Store) (body : σ → Bytes × Bytes → σ × Bool) (s : σ) (e : Bytes × Bytes) :
    Always Used (cursorLoop view body s e) := fun _ _ => ⟨1, rfl⟩

theorem endsTxn_commit (c : Nat × Call) : Always EndsTxn (mdbTxnCommit c) := fun _ _ => .of_note rfl rfl rfl

theorem endsTxn_abort : Always EndsTxn mdbTxnAbort := fun _ _ => .of_note rfl rfl rfl

theorem sameStore_commit (c : Nat × Call) : Always SameStore (mdbTxnCommit c) := by
  intro a s hview
  change (s.commit (a c)).committed = s.committed
  rw [TxnStore.commit_committed]
  split_ifs
  · exact hview
  · rfl

theorem sameStore_abort : Always SameStore mdbTxnAbort := fun _ _ _ => rfl

theorem endsTxn_commitMissed : Always EndsTxn commitMissed := (endsTxn_commit _).map _

theorem sameStore_commitMissed : Always SameStore commitMissed := (sameStore_commit _).map _

/-- A commit, and a result that goes by its status. -/
theorem commit_ite (hcommit : ∀ c, Always R (mdbTxnCommit c)) (c : Nat × Call) (p : Int → Prop) [DecidablePred p]
    (r r' : Int → α) : Always R (mdbTxnCommit c >>= fun x => if p x then pure (r x) else pure (r' x)) := by
  intro a s
  have hend := hcommit c a s
  rw [run_bind, run_ite]
  split_ifs <;> exact hend

/-- A transaction is not come to, or what is done in it is so related. -/
def Within (R : Engine → Engine → Prop) (s s' : Engine) : Prop := s' = s ∨ R (s.begin 0) s'

theorem Always.within {x : EngineM α} (hx : Always R x) (c : Nat × Call) (refused : α) :
    Always (Within R) (mdbTxnBegin c >>= fun r => if r ≠ 0 then pure refused else x) := by
  intro a s
  rw [mdbTxnBegin, run_status_bind]
  by_cases hbegin : a c = 0
  · rw [hbegin, if_neg (not_not_intro rfl)]
    exact Or.inr (hx a _)
  · rw [if_pos hbegin, TxnStore.begin_of_ne s hbegin]
    exact Or.inl rfl

end Always

/-! ### The frames -/

section Frames

variable {R : Engine → Engine → Prop} (hpast : PastUse R) (hcommit : ∀ c, Always R (mdbTxnCommit c))
include hpast hcommit

theorem listRecords_within {σ ι : Type} (seek : Bytes) (test : Bytes × Bytes → Verdict) (item : Bytes × Bytes → ι)
    (callback : σ → ι → σ × Bool) (env : σ) {missed : EngineM Unit} (hmissed : Always R missed) :
    Always (Within R) (listRecords seek test item callback env missed) := by
  apply Always.within
  refine used_cursorOpen.bind hpast fun _ => ((hcommit _).map _).ite ?_
  refine (used_cursorGet _).bind hpast fun found => ?_
  cases found with
  | error r => exact hmissed.map _
  | ok e =>
      refine used_view.bind hpast fun view => (used_loop _ _ _ e).bind hpast fun listing => ?_
      exact commit_ite hcommit _ _ _ _

theorem getNotification_within (habort : Always R mdbTxnAbort) (useLmdb : Bool) (sa : Mac) :
    Always (Within R) (getNotification useLmdb sa) := by
  apply Always.within
  have hused : Always Used (doGetNotification sa) := by
    refine used_cursorOpen.bind pastUse_used fun _ => (used_pure _).ite ?_
    refine (used_cursorGet _).bind pastUse_used fun found => ?_
    cases found with
    | error r => exact used_pure _
    | ok e => exact used_pure _
  refine hused.bind hpast fun got => ?_
  have hend : Always R (endGetNotification got.1) := (habort.map _).ite (hcommit _)
  intro a s
  have hafter := hend a s
  rw [run_bind, run_ite]
  split_ifs <;> exact hafter

end Frames

/-! ### Cut short -/

section Cut

variable (a : Answers)

/-- The records a cursor comes to before an advance fails. -/
def cameTo : List (Bytes × Bytes) → List (Bytes × Bytes)
  | [] => []
  | e :: es => e :: es.take (reach (fetched a) 0 es.length)

theorem cameTo_initial (es : List (Bytes × Bytes)) : cameTo a es <+: es := by
  cases es with
  | nil => exact List.prefix_rfl
  | cons e es => exact (List.prefix_cons_inj e).mpr (List.take_prefix _ _)

theorem cursorLoop_run {σ : Type} (view : σ → Store) (body : σ → Bytes × Bytes → σ × Bool)
    (hahead : ∀ s e, (view (body s e).1).after e.1 = (view s).after e.1) (s : σ) {seek : Bytes}
    {e : Bytes × Bytes} {es : List (Bytes × Bytes)} (h : (view s).seek seek = e :: es) (engine : Engine) :
    (cursorLoop view body s e).run a engine = (deliver body s (cameTo a (e :: es)), engine.note .used) := by
  have hafter := (view s).after_of_seek_eq_cons h
  have hmem : e ∈ (view s).entries := (((view s).mem_seek seek e).mp (h ▸ List.mem_cons_self)).1
  have hfuel : ((view s).after e.1).length < (view s).entries.length :=
    List.length_filter_lt_length_iff_exists.mpr ⟨e, hmem, by simp⟩
  have hloop := loop_eq_deliver_take (fetched a) view body hahead _ 0 s e hfuel
  rw [hafter] at hloop
  exact Prod.ext hloop rfl

/-- The status of a seek: that of the call, or that there is nothing at or after the key. -/
def seekStatus (s : Store) (seek : Bytes) : Int :=
  if a (0, .cursorGet) ≠ 0 then a (0, .cursorGet) else if s.seek seek = [] then MDB_NOTFOUND else 0

theorem cursorGet_run (seek : Bytes) {s : Engine} {m : Store} (hview : s.view = m) :
    (mdbCursorGet (some seek)).run a s =
      (if seekStatus a m seek ≠ 0 then .error (seekStatus a m seek)
        else match m.seek seek with
          | [] => .error MDB_NOTFOUND
          | e :: _ => .ok e, s.note .used) := by
  subst hview
  have hmissing : MDB_NOTFOUND ≠ 0 := by decide
  refine Prod.ext ?_ rfl
  change (if a (0, .cursorGet) ≠ 0 then Except.error (a (0, .cursorGet))
    else match s.view.seek seek with
      | [] => Except.error MDB_NOTFOUND
      | e :: _ => Except.ok e) = _
  unfold seekStatus
  by_cases hget : a (0, .cursorGet) = 0
  · cases hseek : s.view.seek seek <;> simp [hget, hmissing]
  · simp [hget]

theorem seekStatus_eq_zero {s : Store} {seek : Bytes} (h : seekStatus a s seek = 0) :
    ∃ e es, s.seek seek = e :: es := by
  unfold seekStatus at h
  split_ifs at h with hget hnil
  · exact absurd h hget
  · exact absurd h (by decide)
  · exact List.exists_cons_of_ne_nil hnil

end Cut

/-! ### Listings -/

section Listings

variable {σ ι : Type} (a : Answers) (s : Engine)

/-- What the callback is given under any answers is the beginning of what it is given without a fault. -/
theorem listRecords_cut (seek : Bytes) (test : Bytes × Bytes → Verdict) (item : Bytes × Bytes → ι)
    (callback : σ → ι → σ × Bool) (env : σ) (missed : EngineM Unit) :
    handedItems ((listRecords seek test item callback env missed).run a s).1 <+:
      handed callback env ((visited test (s.committed.seek seek)).map item) := by
  unfold listRecords
  rw [mdbTxnBegin, run_status_bind]
  by_cases hbegin : a (0, .txnBegin) = 0
  swap
  · rw [if_pos hbegin]
    exact List.nil_prefix
  rw [hbegin, if_neg (not_not_intro rfl), mdbCursorOpen, run_status_bind]
  have hopened := (begun_begin s).note .used
  by_cases hopen : a (0, .cursorOpen) = 0
  swap
  · rw [if_pos hopen]
    exact List.nil_prefix
  rw [if_neg (not_not_intro hopen), run_bind_of _ _ _ _ (cursorGet_run a seek hopened.view)]
  by_cases hseek : seekStatus a s.committed seek = 0
  swap
  · rw [if_pos hseek]
    dsimp only
    rw [run_bind]
    exact List.nil_prefix
  obtain ⟨e, es, hes⟩ := seekStatus_eq_zero a hseek
  have hloop := cursorLoop_run a (fun _ => s.committed) (guarded test (report callback item))
    (fun _ _ => rfl) ⟨env, []⟩ hes (((s.begin 0).note .used).note .used)
  have hcalls := deliver_report_calls callback item ⟨env, []⟩ (visited test (cameTo a (e :: es)))
  rw [← deliver_guarded, List.nil_append] at hcalls
  rw [if_neg (not_not_intro hseek), hes]
  dsimp only
  rw [run_bind_of _ _ _ _ ((hopened.note .used).txnView_run a), run_bind_of _ _ _ _ hloop, mdbTxnCommit,
    run_status_bind, run_ite]
  have hcut : handed callback env ((visited test (cameTo a (e :: es))).map item) <+:
      handed callback env ((visited test (e :: es)).map item) :=
    handed_mono callback env ((visited_mono test (cameTo_initial a _)).map item)
  rw [← hcalls] at hcut
  split_ifs <;> exact hcut

end Listings

/-! ### Removals -/

/-- The result of a computation, and the store it leaves committed. -/
def outcome {α : Type} (x : EngineM α) (a : Answers) (s : Engine) : α × Store :=
  ((x.run a s).1, (x.run a s).2.committed)

/-- The records a removal takes out when no advance fails. -/
def removable (seek : Bytes) (test : Bytes × Bytes → Verdict) (s : Store) : List (Bytes × Bytes) :=
  visited test (s.seek seek)

/-- The records it takes out under any answers. -/
def taken (a : Answers) (seek : Bytes) (test : Bytes × Bytes → Verdict) (s : Store) : List (Bytes × Bytes) :=
  visited test (cameTo a (s.seek seek))

theorem taken_initial (a : Answers) (seek : Bytes) (test : Bytes × Bytes → Verdict) (s : Store) :
    taken a seek test s <+: removable seek test s :=
  visited_mono test (cameTo_initial a _)

section Removals

variable (a : Answers) (seek : Bytes) (test : Bytes × Bytes → Verdict)

/-- What a removal comes to. `given` is the result it makes of the status of a seek that fails. -/
def removalOutcome (given : Int → Int) (s : Store) : Int × Store :=
  if a (0, .txnBegin) ≠ 0 then (ERRCODE_LMDB_TXN_BEGIN, s)
  else if a (0, .cursorOpen) ≠ 0 then (a (0, .cursorOpen), s)
  else if seekStatus a s seek ≠ 0 then (given (seekStatus a s seek), s)
  else if a (0, .first .commit) ≠ 0 then (ERRCODE_LMDB_TXN_COMMIT, s)
  else ((taken a seek test s).length, s.without (taken a seek test s))

theorem removeRecords_outcome {missed : Int → EngineM Int} {given : Int → Int}
    (hmissed : ∀ r, Always SameStore (missed r)) (hgiven : ∀ r s, ((missed r).run a s).1 = given r) (s : Engine) :
    outcome (removeRecords seek test missed) a s = removalOutcome a seek test given s.committed := by
  unfold outcome removeRecords removalOutcome
  rw [mdbTxnBegin, run_status_bind]
  by_cases hbegin : a (0, .txnBegin) = 0
  swap
  · rw [if_pos hbegin, if_pos hbegin, TxnStore.begin_of_ne s hbegin]
    rfl
  rw [hbegin, if_neg (not_not_intro rfl), if_neg (not_not_intro rfl), mdbCursorOpen, run_status_bind]
  have hopened := (begun_begin s).note .used
  by_cases hopen : a (0, .cursorOpen) = 0
  swap
  · rw [if_pos hopen, if_pos hopen]
    exact Prod.ext rfl ((sameStore_commit _ a _ hopened.sees).trans hopened.committed)
  rw [if_neg (not_not_intro hopen), if_neg (not_not_intro hopen),
    run_bind_of _ _ _ _ (cursorGet_run a seek hopened.view)]
  by_cases hseek : seekStatus a s.committed seek = 0
  swap
  · rw [if_pos hseek, if_pos hseek]
    exact Prod.ext (hgiven _ _) ((hmissed _ a _ (hopened.note .used).sees).trans hopened.committed)
  obtain ⟨e, es, hes⟩ := seekStatus_eq_zero a hseek
  have hloop := cursorLoop_run a Prod.fst (guarded test remove) (remove_ahead test) (s.committed, 0) hes
    (((s.begin 0).note .used).note .used)
  rw [deliver_guarded, deliver_remove, Nat.zero_add] at hloop
  rw [if_neg (not_not_intro hseek), if_neg (not_not_intro hseek), hes]
  dsimp only
  rw [run_bind_of _ _ _ _ ((hopened.note .used).txnView_run a), run_bind_of _ _ _ _ hloop, setView, run_modify_bind,
    mdbTxnCommit, run_status_bind, run_ite, taken, hes]
  by_cases hcommit : a (0, .first .commit) = 0
  · rw [if_neg (not_not_intro hcommit), if_neg (not_not_intro hcommit), hcommit]
    refine Prod.ext rfl ?_
    simp [OrderedMap.without]
  · rw [if_pos hcommit, if_pos hcommit]
    refine Prod.ext rfl ?_
    simp [hcommit]

end Removals

namespace RemoveCall

def seek : RemoveCall → Bytes
  | rmLog _ f start _ pad => rmLogSeek f start pad
  | rmNotification _ p => tagT :: p.bytes

def test : RemoveCall → Bytes × Bytes → Verdict
  | rmLog slack f start finish _ => rmLogTest slack f (timeRange start finish)
  | rmNotification slack p => rmNotificationTest slack p

/-- The result made of the status of a seek that fails. -/
def given : RemoveCall → Int → Int
  | rmLog .., r => r
  | rmNotification .., r => if r = MDB_NOTFOUND then 0 else r

theorem outcome_exec (c : RemoveCall) (a : Answers) (s : Engine) :
    outcome c.exec a s = removalOutcome a c.seek c.test c.given s.committed := by
  cases c with
  | rmLog slack f start finish pad =>
      apply removeRecords_outcome
      · exact fun r => sameStore_commitMissed.map _
      · exact fun _ _ => rfl
  | rmNotification slack p =>
      apply removeRecords_outcome
      · exact fun r => sameStore_abort.map _
      · exact fun _ _ => rfl

theorem exec_within (c : RemoveCall) : Always (Within EndsTxn) c.exec := by
  have hframe : ∀ (seek : Bytes) (test : Bytes × Bytes → Verdict) (missed : Int → EngineM Int),
      (∀ r, Always EndsTxn (missed r)) → Always (Within EndsTxn) (removeRecords seek test missed) := by
    intro seek test missed hmissed
    apply Always.within
    refine used_cursorOpen.bind pastUse_endsTxn fun _ => ((endsTxn_commit _).map _).ite ?_
    refine (used_cursorGet _).bind pastUse_endsTxn fun found => ?_
    cases found with
    | error r => exact hmissed r
    | ok e =>
        refine used_view.bind pastUse_endsTxn fun view => (used_loop _ _ _ e).bind pastUse_endsTxn fun left => ?_
        -- the deletions use the handle once more
        intro a s
        rw [setView, run_modify_bind, mdbTxnCommit, run_status_bind, run_ite]
        split_ifs <;> exact ⟨⟨1, rfl⟩, rfl, rfl⟩
  cases c with
  | rmLog => exact hframe _ _ _ fun _ => endsTxn_commitMissed.map _
  | rmNotification => exact hframe _ _ _ fun _ => endsTxn_abort.map _

end RemoveCall

/-! ### Every sequence of scans -/

theorem Within.settled {s s' : Engine} (h : Within EndsTxn s s') (hs : Settled s.trace s.handle) :
    Settled s'.trace s'.handle := by
  rcases h with rfl | h
  · exact hs
  · obtain ⟨k, htrace⟩ := h.trace
    rw [htrace, h.handle]
    exact (hs.begin.uses k).finish.toSettled

theorem Within.committed {s s' : Engine} (h : Within SameStore s s') : s'.committed = s.committed := by
  rcases h with rfl | h
  · rfl
  · exact (h (begun_begin s).sees).trans (s.begin_committed 0)

namespace ScanCall

theorem exec_within (c : ScanCall) : Always (Within EndsTxn) c.exec := by
  cases c with
  | readLog => exact (listRecords_within pastUse_endsTxn endsTxn_commit _ _ _ _ _ endsTxn_commitMissed).map _
  | readLastProbe => exact (listRecords_within pastUse_endsTxn endsTxn_commit _ _ _ _ _ endsTxn_commitMissed).map _
  | getNotification useLmdb sa =>
      exact (getNotification_within pastUse_endsTxn endsTxn_commit endsTxn_abort useLmdb sa).map _
  | lsNotification => exact (listRecords_within pastUse_endsTxn endsTxn_commit _ _ _ _ _ endsTxn_abort).map _
  | remove c => exact c.exec_within

theorem exec_committed {c : ScanCall} (hc : c.removes = false) (a : Answers) (s : Engine) :
    (c.exec.run a s).2.committed = s.committed := by
  have hwithin : Always (Within SameStore) c.exec := by
    cases c with
    | readLog => exact (listRecords_within pastUse_sameStore sameStore_commit _ _ _ _ _ sameStore_commitMissed).map _
    | readLastProbe =>
        exact (listRecords_within pastUse_sameStore sameStore_commit _ _ _ _ _ sameStore_commitMissed).map _
    | getNotification useLmdb sa =>
        exact (getNotification_within pastUse_sameStore sameStore_commit sameStore_abort useLmdb sa).map _
    | lsNotification => exact (listRecords_within pastUse_sameStore sameStore_commit _ _ _ _ _ sameStore_abort).map _
    | remove => exact absurd hc (by simp [removes])
  exact (hwithin a s).committed

/-- What a call leaves committed goes by what was committed. -/
theorem exec_committed_congr (c : ScanCall) (a : Answers) {s s' : Engine} (h : s.committed = s'.committed) :
    (c.exec.run a s).2.committed = (c.exec.run a s').2.committed := by
  cases hc : c.removes with
  | false => rw [exec_committed hc, exec_committed hc, h]
  | true =>
      cases c with
      | remove c =>
          have hs := congrArg Prod.snd (c.outcome_exec a s)
          have hs' := congrArg Prod.snd (c.outcome_exec a s')
          rw [h, ← hs'] at hs
          exact hs
      | readLog => cases hc
      | readLastProbe => cases hc
      | getNotification => cases hc
      | lsNotification => cases hc

end ScanCall

theorem scans_settled {s : Engine} (hs : Settled s.trace s.handle) (calls : List (ScanCall × Answers)) :
    Settled (scans s calls).trace (scans s calls).handle := by
  induction calls generalizing s with
  | nil => exact hs
  | cons c calls ih => exact ih ((c.1.exec_within c.2 s).settled hs)

theorem scans_committed_congr {s s' : Engine} (h : s.committed = s'.committed) (calls : List (ScanCall × Answers)) :
    (scans s calls).committed = (scans s' (calls.filter fun c => c.1.removes)).committed := by
  induction calls generalizing s s' with
  | nil => exact h
  | cons c calls ih =>
      cases hc : c.1.removes with
      | false =>
          rw [List.filter_cons, if_neg (ne_true_of_eq_false hc)]
          exact ih ((ScanCall.exec_committed hc c.2 s).trans h)
      | true =>
          rw [List.filter_cons, if_pos hc]
          exact ih (c.1.exec_committed_congr c.2 h)

/-- **Scans of the store**, whatever the engine answers to each of their calls, end every transaction they begin
once and touch none that has ended; and the store they leave is the one that the removals among them leave by
themselves. -/
theorem scans_frame (m : Store) (calls : List (ScanCall × Answers)) :
    Disciplined (scans (.idle m) calls).trace ∧
      (scans (.idle m) calls).committed = (scans (.idle m) (calls.filter fun c => c.1.removes)).committed :=
  ⟨(scans_settled (settled_nil 0) calls).disciplined, scans_committed_congr rfl calls⟩

/-- The listings under any answers: what each shows its callback is the beginning of what it shows without a
fault. -/
structure CutShort (a : Answers) (s : Engine) : Prop where
  readLog : ∀ {σ : Type} (slack : Slack) (f : Filter) (start finish : Int) (pad : UInt8) (onLog : OnLog σ) (env : σ),
    handedItems ((Wacs.readLog slack f start finish pad (some onLog) (some env)).run a s).1 <+:
      handedItems (quietly (Wacs.readLog slack f start finish pad (some onLog) (some env)) s.committed).1
  readLastProbe : ∀ {σ : Type} (slack : Slack) (f : Filter) (start finish : Int) (onLog : OnLog σ) (env : σ),
    handedItems ((Wacs.readLastProbe slack f start finish (some onLog) (some env)).run a s).1 <+:
      handedItems (quietly (Wacs.readLastProbe slack f start finish (some onLog) (some env)) s.committed).1
  lsNotification : ∀ {σ : Type} (slack : Slack) (onNotification : σ → Mac × Bytes → σ × Bool) (env : σ),
    handedItems ((Wacs.lsNotification slack (some onNotification) env).run a s).1 <+:
      handedItems (quietly (Wacs.lsNotification slack (some onNotification) env) s.committed).1

/-- A fault of the engine only cuts a listing short. -/
theorem listings_cutShort (a : Answers) (s : Engine) : CutShort a s where
  readLog := by
    intro σ slack f start finish pad onLog env
    rw [readLog_quiet]
    exact listRecords_cut a s _ _ _ onLog env _
  readLastProbe := by
    intro σ slack f start finish onLog env
    rw [readLastProbe_quiet]
    exact listRecords_cut a s _ _ _ onLog env _
  lsNotification := by
    intro σ slack onNotification env
    rw [lsNotification_quiet]
    exact listRecords_cut a s _ _ _ onNotification env _

/-- The advance after the first record fails. -/
def failsToAdvance : Answers := fun c => if c = (0, .cursorNext) then -30796 else 0

/-- Notifications of two addresses. -/
def twoAddresses : Store :=
  (OrderedMap.empty.put (tagT :: List.replicate 6 1) [1]).put (tagT :: List.replicate 6 2) [2]

/-- One of two notifications is listed, with a status of zero. -/
example :
    let shown := (lsNotification (fun _ _ => 0) (some fun (_ : Unit) (_ : Mac × Bytes) => ((), false)) ()).run
      failsToAdvance (.idle twoAddresses)
    shown.1.1 = 0 ∧ handedItems shown.1 = [(⟨List.replicate 6 1, rfl⟩, [1])] := by
  decide

/-! ### What a removal tells -/

namespace RemoveCall

/-- The records the call takes out when the engine makes no fault. -/
def removable (c : RemoveCall) (s : Store) : List (Bytes × Bytes) := Wacs.removable c.seek c.test s

/-- The result says what has been done: one that is not negative is the number of records gone, and with a
negative one none has gone. -/
def Truthful (c : RemoveCall) (a : Answers) (s : Engine) : Prop :=
  (0 ≤ (outcome c.exec a s).1 → CountsGone s.committed (outcome c.exec a s)) ∧
    ((outcome c.exec a s).1 < 0 → (outcome c.exec a s).2 = s.committed)

end RemoveCall

/-- The cursor is refused, or its seek fails, with a positive status: a number of the operating system. -/
def PositiveStatus (a : Answers) : Prop :=
  a (0, .txnBegin) = 0 ∧ (0 < a (0, .cursorOpen) ∨ a (0, .cursorOpen) = 0 ∧ 0 < a (0, .cursorGet))

theorem taken_sublist (a : Answers) (seek : Bytes) (test : Bytes × Bytes → Verdict) (s : Store) :
    (taken a seek test s).Sublist s.entries :=
  ((visited_sublist test _).trans (cameTo_initial a _).sublist).trans (s.seek_sublist seek)

namespace RemoveCall

theorem given_eq_of_pos (c : RemoveCall) {r : Int} (h : 0 < r) : c.given r = r := by
  cases c with
  | rmLog => rfl
  | rmNotification =>
      have hne : r ≠ MDB_NOTFOUND := by
        rintro rfl
        exact absurd h (by decide)
      exact if_neg hne

theorem given_nonpos (c : RemoveCall) {r : Int} (h : r ≤ 0) : c.given r ≤ 0 := by
  cases c with
  | rmLog => exact h
  | rmNotification =>
      rw [given]
      split_ifs
      · exact le_rfl
      · exact h

/-- A faultless call takes out all that can be. -/
theorem quiet_removes (c : RemoveCall) (s : Store) : (quietly c.exec s).2 = s.without (c.removable s) := by
  cases c with
  | rmLog =>
      refine (congrArg Prod.snd (rmLog_quiet _ _ _ _ _ s)).trans (OrderedMap.ext_mem fun e => ?_)
      rw [OrderedMap.mem_filter, OrderedMap.mem_without, decide_eq_true_eq]
      rfl
  | rmNotification =>
      refine (congrArg Prod.snd (rmNotification_quiet _ s _)).trans (OrderedMap.ext_mem fun e => ?_)
      rw [OrderedMap.mem_filter, OrderedMap.mem_without, decide_eq_true_eq]
      rfl

theorem outcome_store (c : RemoveCall) (a : Answers) (s : Engine) :
    ∃ l, l <+: c.removable s.committed ∧ (outcome c.exec a s).2 = s.committed.without l := by
  have hnone : ∃ l, l <+: c.removable s.committed ∧ s.committed = s.committed.without l :=
    ⟨[], List.nil_prefix, (OrderedMap.without_nil _).symm⟩
  rw [outcome_exec, removalOutcome]
  split_ifs
  · exact hnone
  · exact hnone
  · exact hnone
  · exact hnone
  · exact ⟨_, taken_initial a c.seek c.test s.committed, rfl⟩

/-- A status that is handed on with nothing done tells the truth unless it is positive. -/
theorem nothing_done_iff (m : Store) (r : Int) :
    ((0 ≤ r → CountsGone m (r, m)) ∧ (r < 0 → m = m)) ↔ r ≤ 0 := by
  constructor
  · intro h
    by_contra hpos
    have hcount : r = m.entries.length - m.entries.length := (h.1 (by omega)).count
    omega
  · intro h
    refine ⟨fun h0 => ?_, fun _ => rfl⟩
    obtain rfl := le_antisymm h h0
    exact ⟨(by decide : int32 0 = 0), (sub_self _).symm⟩

/-- What is made of the status of the seek. -/
theorem given_seekStatus_iff (c : RemoveCall) (a : Answers) (m : Store) :
    c.given (seekStatus a m c.seek) ≤ 0 ↔ ¬0 < a (0, .cursorGet) := by
  by_cases hget : a (0, .cursorGet) = 0
  · have hmissing : seekStatus a m c.seek ≤ 0 := by
      rw [seekStatus, if_neg (not_not_intro hget)]
      split_ifs <;> decide
    exact iff_of_true (c.given_nonpos hmissing) hget.not_gt
  · have hstatus : seekStatus a m c.seek = a (0, .cursorGet) := if_pos hget
    rw [hstatus]
    by_cases hpos : 0 < a (0, .cursorGet)
    · rw [c.given_eq_of_pos hpos]
      exact not_lt.symm
    · exact iff_of_true (c.given_nonpos (not_lt.mp hpos)) hpos

theorem truthful_iff (c : RemoveCall) (a : Answers) (s : Engine) (hsmall : s.committed.entries.length < 2 ^ 31) :
    c.Truthful a s ↔ ¬PositiveStatus a := by
  unfold Truthful PositiveStatus
  rw [outcome_exec, removalOutcome]
  by_cases hbegin : a (0, .txnBegin) = 0
  swap
  · rw [if_pos hbegin]
    exact iff_of_true ((nothing_done_iff _ _).mpr (show ERRCODE_LMDB_TXN_BEGIN ≤ 0 by decide)) fun h => hbegin h.1
  rw [if_neg (not_not_intro hbegin)]
  by_cases hopen : a (0, .cursorOpen) = 0
  swap
  · rw [if_pos hopen, nothing_done_iff]
    omega
  rw [if_neg (not_not_intro hopen)]
  by_cases hseek : seekStatus a s.committed c.seek = 0
  swap
  · rw [if_pos hseek, nothing_done_iff, c.given_seekStatus_iff a s.committed]
    omega
  rw [if_neg (not_not_intro hseek)]
  have hget : a (0, .cursorGet) = 0 := by
    by_contra hget
    rw [seekStatus, if_pos hget] at hseek
    exact hget hseek
  by_cases hcommit : a (0, .first .commit) = 0
  · rw [if_neg (not_not_intro hcommit)]
    have hlength := s.committed.length_without (taken_sublist a c.seek c.test s.committed)
    apply iff_of_true
    · refine ⟨fun _ => ?_, fun hneg => absurd hneg (by omega)⟩
      exact (countsGone_iff s.committed rfl ((Nat.add_comm _ _).trans hlength)).mpr (by omega)
    · omega
  · rw [if_pos hcommit]
    refine iff_of_true ((nothing_done_iff _ _).mpr (show ERRCODE_LMDB_TXN_COMMIT ≤ 0 by decide)) ?_
    omega

/-- **A removal under any answers** takes out, from their beginning, some of the records it takes out without a
fault; and its result says how many, of no more than an `int` counts, exactly when the engine answers the opening of
the cursor and the seek with no positive status. -/
theorem removes_beginning (c : RemoveCall) (a : Answers) (s : Engine) (hsmall : s.committed.entries.length < 2 ^ 31) :
    (quietly c.exec s.committed).2 = s.committed.without (c.removable s.committed) ∧
      (∃ l, l <+: c.removable s.committed ∧ (outcome c.exec a s).2 = s.committed.without l) ∧
      (c.Truthful a s ↔ ¬PositiveStatus a) :=
  ⟨c.quiet_removes s.committed, c.outcome_store a s, c.truthful_iff a s hsmall⟩

/-- Of two notifications one goes when the cursor does not advance, and this is what is told. -/
theorem removes_beginning_sample :
    Truthful (.rmNotification (fun _ _ => 0) ⟨[], 0, by decide⟩) failsToAdvance (.idle twoAddresses) :=
  (removes_beginning (.rmNotification (fun _ _ => 0) ⟨[], 0, by decide⟩) failsToAdvance (.idle twoAddresses)
    (by decide)).2.2.mpr (by unfold PositiveStatus; decide)

end RemoveCall

end Wacs
