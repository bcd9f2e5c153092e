import Wacs.DblogQuiet

/-! What `processMapFull` leaves behind for every pattern of answers: a fresh transaction that holds none
of the pending writes, or no transaction at all, with the committed store untouched. -/

namespace Wacs

section OpenDb

variable (a : Answers) (c : OpenCall → Nat × Call)

/-- `openDb` succeeds. -/
def openDbOk : Bool :=
  decide (a (c .envCreate) = 0 ∧ a (c .envOpen) = 0 ∧ a (c .txnBegin) = 0 ∧ a (c .dbiOpen) = 0 ∧
    a (c .txnCommit) = 0)

/-- `openDb` fails with the transaction it began still live. -/
def openDbLeaves : Bool :=
  decide (a (c .envCreate) = 0 ∧ a (c .envOpen) = 0 ∧ a (c .txnBegin) = 0 ∧ a (c .dbiOpen) ≠ 0)

theorem openDb_run (s : Engine) (hs : s.pending = none) : ∃ s',
    (openDb c).run a s = (openDbOk a c, s') ∧ s'.committed = s.committed ∧
      s'.pending = if openDbLeaves a c then some s.committed else none := by
  simp only [openDb, mdbStatus, mdbDbiOpen, mdbEnvOpen, mdbTxnBegin, mdbTxnCommit, mdbEnvClose,
    OracleM.run_status_bind, OracleM.run_modify_bind, OracleM.run_ite, OracleM.run_pure, openDbOk, openDbLeaves]
  by_cases h₁ : a (c .envCreate) = 0
  · by_cases h₂ : a (c .envOpen) = 0
    · by_cases h₃ : a (c .txnBegin) = 0
      · by_cases h₄ : a (c .dbiOpen) = 0
        · simp [h₁, h₂, h₃, h₄]
        · simp [h₁, h₂, h₃, h₄]
      · simp [h₁, h₂, h₃, hs]
    · simp [h₁, h₂, hs]
  · simp [h₁, hs]

end OpenDb

section Recover

variable (a : Answers) (turn : Nat) (p : Phase)

/-- The status `processMapFull` returns. -/
def recoverStatus : Int :=
  if a (turn, .recover p .envInfo) ≠ 0 then a (turn, .recover p .envInfo)
  else if a (turn, .recover p .envCreate) ≠ 0 then ERRCODE_LMDB_OPEN
  else if openDbOk a fun c => (turn, .recover p (.openDb c)) then a (turn, .recover p .txnBegin)
  else a (turn, .recover p .envOpen)

/-- `processMapFull` leaves a live transaction. -/
def recoverLive : Bool :=
  decide (a (turn, .recover p .envInfo) = 0 ∧ a (turn, .recover p .envCreate) = 0) &&
    if openDbOk a fun c => (turn, .recover p (.openDb c)) then decide (a (turn, .recover p .txnBegin) = 0)
    else openDbLeaves a fun c => (turn, .recover p (.openDb c))

theorem openDbLeaves_of_ok {c : OpenCall → Nat × Call} (h : openDbOk a c = true) : openDbLeaves a c = false := by
  simp only [openDbOk, decide_eq_true_eq] at h
  simp [openDbLeaves, h]

/-- The end of `processMapFull`, from the call of `openDb` on. -/
theorem reopen_run (r : Int) (s : Engine) (hs : s.pending = none) : ∃ s',
    (openDb (fun c => (turn, .recover p (.openDb c))) >>= fun reopened =>
      if reopened = false then pure r else mdbTxnBegin (turn, .recover p .txnBegin)).run a s =
        (if openDbOk a fun c => (turn, .recover p (.openDb c)) then a (turn, .recover p .txnBegin) else r, s') ∧
      s'.committed = s.committed ∧
      s'.pending =
        if (if openDbOk a fun c => (turn, .recover p (.openDb c)) then decide (a (turn, .recover p .txnBegin) = 0)
          else openDbLeaves a fun c => (turn, .recover p (.openDb c))) then some s.committed else none := by
  obtain ⟨s₁, hrun, hcommitted, hpending⟩ := openDb_run a (fun c => (turn, .recover p (.openDb c))) s hs
  rw [OracleM.run_bind_of _ _ _ _ hrun]
  cases hok : openDbOk a fun c => (turn, .recover p (.openDb c)) with
  | false => exact ⟨s₁, rfl, hcommitted, by simpa using hpending⟩
  | true =>
      rw [openDbLeaves_of_ok a hok] at hpending
      refine ⟨s₁.begin (a (turn, .recover p .txnBegin)), rfl, ?_, ?_⟩
      · rw [TxnStore.begin_committed, hcommitted]
      · rw [TxnStore.begin_pending, hcommitted, hpending]
        simp

/-- The pending writes are gone after a recovery. -/
theorem processMapFull_run (s : Engine) : ∃ s',
    (processMapFull turn p).run a s = (recoverStatus a turn p, s') ∧ s'.committed = s.committed ∧
      s'.pending = if recoverLive a turn p then some s.committed else none := by
  have hclose : ∀ (f : Bool → EngineM Int) (s : Engine),
      (closeDb >>= f).run a s = (f true).run a { s with opened := false } := fun _ _ => rfl
  simp only [processMapFull, mdbTxnAbort, mdbStatus, mdbEnvOpen, mdbEnvClose, OracleM.run_status_bind,
    OracleM.run_modify_bind, OracleM.run_ite, hclose, OracleM.run_pure, Bool.true_eq_false, if_false]
  by_cases h₁ : a (turn, .recover p .envInfo) = 0
  · by_cases h₂ : a (turn, .recover p .envCreate) = 0
    · simp only [recoverStatus, recoverLive, h₁, h₂, ne_eq, not_true_eq_false, if_false, and_self, decide_true,
        Bool.true_and]
      exact reopen_run a turn p _ _ rfl
    · simp [recoverStatus, recoverLive, h₁, h₂]
  · simp [recoverStatus, recoverLive, h₁]

end Recover

/-! ### Puts and commits under a full map -/

section Writes

variable (a : Answers) (turn : Nat) (p : Phase)

/-- The status a call that may find the map full comes to. -/
def finalStatus : Int :=
  if a (turn, .first p) = MDB_MAP_FULL then
    if recoverStatus a turn p = 0 then a (turn, .again p) else recoverStatus a turn p
  else a (turn, .first p)

/-- The call found the map full. -/
def Full : Prop := a (turn, .first p) = MDB_MAP_FULL

instance : Decidable (Full a turn p) := inferInstanceAs (Decidable (a (turn, .first p) = MDB_MAP_FULL))

/-- The view a call starts from: the pending one, or after a recovery the committed one, if any. -/
def startView (s : Engine) : Option Store :=
  if Full a turn p then if recoverLive a turn p then some s.committed else none else s.pending

/-- A call that succeeds has done its work on the view it starts from; one that fails has published
nothing. -/
theorem withMapFull_run (act : Int → Engine → Engine) (s : Engine)
    (hact : ∀ r s, r ≠ 0 → (act r s).committed = s.committed) : ∃ s₁,
    (withMapFull turn p fun c => .status c act).run a s = (finalStatus a turn p, s₁) ∧
      (finalStatus a turn p ≠ 0 → s₁.committed = s.committed) ∧
      (finalStatus a turn p = 0 → ∃ s₀ : Engine, s₁ = act 0 s₀ ∧ s₀.committed = s.committed ∧
        s₀.pending = startView a turn p s) := by
  rw [withMapFull, OracleM.run_status_bind]
  by_cases hfull : Full a turn p
  · obtain ⟨s', hrun, hcommitted, hpending⟩ := processMapFull_run a turn p (act MDB_MAP_FULL s)
    have hfirst : a (turn, .first p) = MDB_MAP_FULL := hfull
    rw [hact _ _ (by decide)] at hcommitted hpending
    simp only [finalStatus, startView, hfull, hfirst, if_true, OracleM.run_bind_of _ _ _ _ hrun]
    by_cases hrec : recoverStatus a turn p = 0
    · simp only [hrec, if_true]
      refine ⟨act (a (turn, .again p)) s', rfl, fun hne => ?_, fun heq => ⟨s', ?_, hcommitted, hpending⟩⟩
      · rw [hact _ _ hne, hcommitted]
      · rw [heq]
    · simp only [hrec, if_false]
      exact ⟨s', rfl, fun _ => hcommitted, fun h => h.elim⟩
  · have hfirst : ¬a (turn, .first p) = MDB_MAP_FULL := hfull
    simp only [finalStatus, startView, hfull, hfirst, if_false]
    refine ⟨act (a (turn, .first p)) s, rfl, fun hne => hact _ _ hne, fun heq => ⟨s, ?_, rfl, rfl⟩⟩
    rw [heq]

end Writes

/-! ### What is pending -/

/-- The observation of a turn, as writes. -/
def observationWrites (key : LogKey) (data : LogData) (pad : Padding) : List (Bytes × Bytes) :=
  [(key.bytes, data.bytes pad.data), ((probeKey key.sa).bytes, probeValue key)]

/-- After `writes` on `start` with nothing committed, the first `loss` of them have been lost with an
aborted transaction; with `none` there is no transaction left. -/
structure Pending (start : Store) (writes : List (Bytes × Bytes)) (loss : Option Nat) (s : Engine) : Prop where
  committed : s.committed = start
  pending : s.pending = loss.map fun l => start.putAll (writes.drop l)
  le : ∀ l, loss = some l → l ≤ writes.length

/-- The loss after a call that may find the map full, `written` writes into the transaction. -/
def lossAfter (a : Answers) (turn : Nat) (p : Phase) (written : Nat) (loss : Option Nat) : Option Nat :=
  if Full a turn p then if recoverLive a turn p then some written else none else loss

/-- How an observation fails. -/
def observationFailure (a : Answers) (turn : Nat) : Option Int :=
  if finalStatus a turn .log ≠ 0 then some ERRCODE_LMDB_PUT
  else if finalStatus a turn .probe ≠ 0 then some ERRCODE_LMDB_PUT_PROBE
  else none

theorem observationFailure_neg {a : Answers} {turn : Nat} {code : Int}
    (h : observationFailure a turn = some code) : code < 0 := by
  unfold observationFailure at h
  split_ifs at h <;> cases h <;> decide

namespace Pending

variable {a : Answers} {start : Store} {writes : List (Bytes × Bytes)} {loss : Option Nat} {s : Engine}

theorem lossAfter_le (h : Pending start writes loss s) (turn : Nat) (p : Phase) (l : Nat)
    (hl : lossAfter a turn p writes.length loss = some l) : l ≤ writes.length := by
  unfold lossAfter at hl
  split_ifs at hl
  · exact (Option.some.inj hl).ge
  · exact h.le l hl

/-- The view a call starts from. -/
theorem startView_eq (h : Pending start writes loss s) (turn : Nat) (p : Phase) :
    startView a turn p s =
      (lossAfter a turn p writes.length loss).map fun l => start.putAll (writes.drop l) := by
  unfold startView lossAfter
  split_ifs
  · simp [h.committed]
  · rfl
  · exact h.pending

theorem put (h : Pending start writes loss s) (turn : Nat) (p : Phase) (k v : Bytes) : ∃ s₁,
    (withMapFull turn p fun c => mdbPut c k v).run a s = (finalStatus a turn p, s₁) ∧
      s₁.committed = start ∧
      (finalStatus a turn p = 0 →
        Pending start (writes ++ [(k, v)]) (lossAfter a turn p writes.length loss) s₁) := by
  obtain ⟨s₁, hrun, hfail, hdone⟩ := withMapFull_run a turn p (TxnStore.put k v) s
    fun r s _ => TxnStore.put_committed s r k v
  by_cases hzero : finalStatus a turn p = 0
  · obtain ⟨s₀, rfl, hcommitted, hpending⟩ := hdone hzero
    have hc : (TxnStore.put k v 0 s₀).committed = start := by
      rw [TxnStore.put_committed, hcommitted, h.committed]
    refine ⟨_, hrun, hc, fun _ => ⟨hc, ?_, ?_⟩⟩
    · rw [TxnStore.put_pending, if_pos rfl, hpending, h.startView_eq, Option.map_map]
      refine Option.map_congr fun l hl => ?_
      rw [Function.comp_apply, List.drop_append_of_le_length (h.lossAfter_le turn p l hl),
        OrderedMap.putAll_append]
      rfl
    · intro l hl
      rw [List.length_append]
      exact (h.lossAfter_le turn p l hl).trans (Nat.le_add_right _ _)
  · exact ⟨s₁, hrun, (hfail hzero).trans h.committed, fun h => absurd h hzero⟩

theorem observation (h : Pending start writes loss s) (turn : Nat) (key : LogKey) (data : LogData)
    (pad : Padding) : ∃ s₁,
    (putObservation turn key data pad).run a s = (observationFailure a turn, s₁) ∧ s₁.committed = start ∧
      (observationFailure a turn = none → Pending start (writes ++ observationWrites key data pad)
        (lossAfter a turn .probe (writes.length + 1) (lossAfter a turn .log writes.length loss)) s₁) := by
  obtain ⟨s₁, hrun, hcommitted, hnext⟩ := h.put (a := a) turn .log key.bytes (data.bytes pad.data)
  rw [putObservation, OracleM.run_bind_of _ _ _ _ hrun]
  by_cases hlog : finalStatus a turn .log = 0
  · obtain ⟨s₂, hrun', hcommitted', hnext'⟩ :=
      (hnext hlog).put (a := a) turn .probe (probeKey key.sa).bytes (probeValue key)
    simp only [observationFailure, hlog, ne_eq, not_true_eq_false, if_false, OracleM.run_bind_of _ _ _ _ hrun']
    by_cases hprobe : finalStatus a turn .probe = 0
    · simp only [hprobe, not_true_eq_false, if_false, true_implies]
      refine ⟨s₂, rfl, hcommitted', ?_⟩
      have hp := hnext' hprobe
      rw [List.length_append, List.append_assoc] at hp
      exact hp
    · simp only [hprobe, not_false_eq_true, if_true]
      exact ⟨s₂.abort, rfl, hcommitted', fun h => by cases h⟩
  · simp only [observationFailure, hlog, ne_eq, not_false_eq_true, if_true]
    exact ⟨s₁.abort, rfl, hcommitted, fun h => by cases h⟩

/-- A commit that succeeds publishes what is pending then. -/
theorem commit (h : Pending start writes loss s) (turn : Nat) (p : Phase) : ∃ s₁,
    (withMapFull turn p mdbTxnCommit).run a s = (finalStatus a turn p, s₁) ∧
      s₁.committed = if finalStatus a turn p = 0 then
        start.putAll (((lossAfter a turn p writes.length loss).map fun l => writes.drop l).getD [])
      else start := by
  obtain ⟨s₁, hrun, hfail, hdone⟩ := withMapFull_run a turn p TxnStore.commit s fun r s hr => by
    rw [TxnStore.commit_committed, if_neg hr]
  refine ⟨s₁, hrun, ?_⟩
  split_ifs with hzero
  · obtain ⟨s₀, rfl, hcommitted, hpending⟩ := hdone hzero
    rw [TxnStore.commit_committed, if_pos rfl, hpending, h.startView_eq, hcommitted, h.committed]
    cases lossAfter a turn p writes.length loss <;> rfl
  · exact (hfail hzero).trans h.committed

end Pending

end Wacs
