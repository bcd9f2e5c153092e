import Wacs.FaultImport
import Wacs.OrderedHandles

/-! The transaction handles of `putLog`, `putLogEntries` and `putNotification` for every pattern of engine
answers. After a call that finds the map full the caller has the handle `processMapFull` leaves, and goes
on with it, or aborts it, whether or not it has ended. -/

namespace Wacs

open OracleM

/-- A call of one of the functions that write, and its arguments. -/
inductive WriteCall where
  | putLog (buffer : Bytes) (now : Int) (pad : Padding)
  | putLogEntries (records : List LogRecord) (pad : Padding)
  | putNotification (sa : Mac) (value : Bytes) (stray : Stray)

def WriteCall.exec : WriteCall → EngineM Int
  | putLog buffer now pad => Wacs.putLog buffer now pad
  | putLogEntries records pad => Wacs.putLogEntries records pad
  | putNotification sa value stray => Wacs.putNotification sa value stray

/-! ### Every function adds to the trace -/

section Growth

variable (c : Nat × Call)

theorem mdbTxnBegin_grows : Grows (mdbTxnBegin c) := fun a s => s.begin_grows (a c)

theorem mdbTxnCommit_grows : Grows (mdbTxnCommit c) := fun _ _ => List.prefix_append _ _

theorem mdbTxnAbort_grows : Grows mdbTxnAbort := fun _ _ => List.prefix_append _ _

theorem mdbStatus_grows : Grows (mdbStatus c) := fun _ _ => List.prefix_rfl

theorem mdbDbiOpen_grows : Grows (mdbDbiOpen c) := fun _ _ => List.prefix_append _ _

theorem mdbEnvOpen_grows : Grows (mdbEnvOpen c) := fun _ _ => List.prefix_rfl

theorem mdbEnvClose_grows : Grows mdbEnvClose := fun _ _ => List.prefix_rfl

theorem openDb_grows (c : OpenCall → Nat × Call) : Grows (openDb c) := by
  have hfail : Grows (mdbEnvClose >>= fun _ => pure false) := mdbEnvClose_grows.bind fun _ => grows_pure false
  refine (mdbStatus_grows _).bind fun _ => hfail.ite ?_
  refine (mdbEnvOpen_grows _).bind fun _ => hfail.ite ?_
  refine (mdbTxnBegin_grows _).bind fun _ => hfail.ite ?_
  refine (mdbDbiOpen_grows _).bind fun _ => hfail.ite ?_
  exact (mdbTxnCommit_grows _).bind fun _ => grows_pure _

/-- `processMapFull` is an abort and what comes after it. -/
theorem processMapFull_abort (turn : Nat) (p : Phase) :
    ∃ rest : EngineM Int, Grows rest ∧ processMapFull turn p = mdbTxnAbort >>= fun _ => rest := by
  refine ⟨_, ?_, rfl⟩
  refine (mdbStatus_grows _).bind fun _ => (grows_pure _).ite ?_
  refine (mdbEnvClose_grows.bind fun _ => grows_pure _).bind fun _ => (grows_pure _).ite ?_
  refine (mdbStatus_grows _).bind fun _ => (mdbEnvClose_grows.bind fun _ => grows_pure _).ite ?_
  refine (mdbStatus_grows _).bind fun _ => (mdbEnvOpen_grows _).bind fun _ => mdbEnvClose_grows.bind fun _ => ?_
  exact (openDb_grows _).bind fun _ => (grows_pure _).ite (mdbTxnBegin_grows _)

theorem processMapFull_grows (turn : Nat) (p : Phase) : Grows (processMapFull turn p) := by
  obtain ⟨rest, hrest, heq⟩ := processMapFull_abort turn p
  rw [heq]
  exact mdbTxnAbort_grows.bind fun _ => hrest

theorem withMapFull_grows (turn : Nat) (p : Phase) {act : Nat × Call → EngineM Int} (hact : ∀ c, Grows (act c)) :
    Grows (withMapFull turn p act) :=
  (hact _).bind fun _ => Grows.ite ((processMapFull_grows turn p).bind fun _ => (hact _).ite (grows_pure _))
    (grows_pure _)

end Growth

/-! ### What a recovery leaves -/

section Recover

variable (a : Answers) (turn : Nat) (p : Phase)

/-- The newest handle after `openDb`, which is handed a spent one. -/
theorem openDb_handles (c : OpenCall → Nat × Call) {s : Engine} (h : Spent s.trace s.handle) :
    (openDbLeaves a c = true →
      Live ((openDb c).run a s).2.trace ((openDb c).run a s).2.handle) ∧
    (openDbLeaves a c = false →
      Spent ((openDb c).run a s).2.trace ((openDb c).run a s).2.handle) := by
  have hlive : Live (s.trace ++ [.begun (s.handle + 1)]) (s.handle + 1) := h.toSettled.begin
  simp only [openDb, mdbStatus, mdbDbiOpen, mdbEnvOpen, mdbTxnBegin, mdbTxnCommit, mdbEnvClose,
    run_status_bind, run_modify_bind, run_ite, run_pure, openDbLeaves]
  by_cases h₁ : a (c .envCreate) = 0
  · by_cases h₂ : a (c .envOpen) = 0
    · by_cases h₃ : a (c .txnBegin) = 0
      · by_cases h₄ : a (c .dbiOpen) = 0
        · simp only [h₁, h₂, h₃, h₄, ne_eq, not_true_eq_false, if_false, and_false, decide_false,
            Bool.false_eq_true, false_implies, true_implies, true_and]
          exact hlive.use.finish
        · simp only [h₁, h₂, h₃, h₄, ne_eq, not_true_eq_false, not_false_eq_true, if_false, if_true, and_self,
            decide_true, true_implies, Bool.true_eq_false, false_implies, and_true]
          exact hlive.use
      · simpa [h₁, h₂, h₃, TxnStore.begin_of_ne] using h
    · simpa [h₁, h₂] using h
  · simpa [h₁] using h

theorem openDb_opened (c : OpenCall → Nat × Call) (s : Engine) :
    (openDbOk a c = true → ((openDb c).run a s).2.opened = true) ∧
    (openDbLeaves a c = true → ((openDb c).run a s).2.opened = false) := by
  simp only [openDb, mdbStatus, mdbDbiOpen, mdbEnvOpen, mdbTxnBegin, mdbTxnCommit, mdbEnvClose,
    run_status_bind, run_modify_bind, run_ite, run_pure, openDbOk, openDbLeaves, decide_eq_true_eq]
  constructor
  · rintro ⟨h₁, h₂, h₃, h₄, -⟩
    simp only [h₁, h₂, h₃, h₄, ne_eq, not_true_eq_false, if_false]
    rfl
  · rintro ⟨h₁, h₂, h₃, h₄⟩
    simp only [h₁, h₂, h₃, h₄, ne_eq, not_true_eq_false, not_false_eq_true, if_false, if_true]

theorem closeDb_run_bind {α : Type} (f : Bool → EngineM α) (s : Engine) :
    (closeDb >>= f).run a s = (f true).run a { s with opened := false } := rfl

/-- The state `processMapFull` leaves, when it gets as far as `openDb`. -/
theorem processMapFull_state (s : Engine) (hinfo : a (turn, .recover p .envInfo) = 0)
    (hcreate : a (turn, .recover p .envCreate) = 0) :
    ((processMapFull turn p).run a s).2 =
      if openDbOk a fun c => (turn, .recover p (.openDb c)) then
        ((openDb fun c => (turn, .recover p (.openDb c))).run a { s.abort with opened := false }).2.begin
          (a (turn, .recover p .txnBegin))
      else ((openDb fun c => (turn, .recover p (.openDb c))).run a { s.abort with opened := false }).2 := by
  obtain ⟨s₁, hrun, -⟩ := openDb_run a (fun c => (turn, .recover p (.openDb c))) { s.abort with opened := false } rfl
  simp only [processMapFull, mdbTxnAbort, mdbStatus, mdbEnvOpen, mdbEnvClose, run_status_bind, run_modify_bind,
    closeDb_run_bind, hinfo, hcreate, ne_eq, not_true_eq_false, if_false, Bool.true_eq_false]
  rw [run_bind_of _ _ _ _ hrun, hrun]
  cases openDbOk a fun c => (turn, .recover p (.openDb c)) with
  | false => rfl
  | true => rfl

/-- When it does not, there is nothing after the abort. -/
theorem processMapFull_early (s : Engine)
    (h : ¬(a (turn, .recover p .envInfo) = 0 ∧ a (turn, .recover p .envCreate) = 0)) :
    ((processMapFull turn p).run a s).2.trace = s.abort.trace ∧
      ((processMapFull turn p).run a s).2.handle = s.abort.handle := by
  simp only [processMapFull, mdbTxnAbort, mdbStatus, mdbEnvOpen, mdbEnvClose, run_status_bind, run_modify_bind,
    run_ite, closeDb_run_bind, run_pure, Bool.true_eq_false, if_false]
  by_cases hinfo : a (turn, .recover p .envInfo) = 0
  · have hcreate : a (turn, .recover p .envCreate) ≠ 0 := fun hcreate => h ⟨hinfo, hcreate⟩
    simp only [hinfo, hcreate, ne_eq, not_true_eq_false, not_false_eq_true, if_false, if_true, and_self]
  · simp only [hinfo, ne_eq, not_false_eq_true, if_true, and_self]

/-- The newest handle after `processMapFull`, which is handed a live one. -/
theorem processMapFull_handles {s : Engine} (h : Live s.trace s.handle) :
    (recoverLive a turn p = true →
      Live ((processMapFull turn p).run a s).2.trace ((processMapFull turn p).run a s).2.handle) ∧
    (recoverLive a turn p = false →
      Spent ((processMapFull turn p).run a s).2.trace ((processMapFull turn p).run a s).2.handle) := by
  have hspent : Spent s.abort.trace s.abort.handle := h.finish
  by_cases hearly : a (turn, .recover p .envInfo) = 0 ∧ a (turn, .recover p .envCreate) = 0
  · obtain ⟨hleaves, hgone⟩ := openDb_handles a (fun c => (turn, .recover p (.openDb c)))
      (s := { s.abort with opened := false }) hspent
    rw [processMapFull_state a turn p s hearly.1 hearly.2]
    simp only [recoverLive, hearly, and_self, decide_true, Bool.true_and]
    cases hok : openDbOk a fun c => (turn, .recover p (.openDb c)) with
    | false => exact ⟨hleaves, hgone⟩
    | true =>
        have hclosed := hgone (openDbLeaves_of_ok a hok)
        simp only [if_true, decide_eq_true_eq, decide_eq_false_iff_not]
        refine ⟨fun hbegin => ?_, fun hbegin => ?_⟩
        · rw [hbegin]
          exact hclosed.toSettled.begin
        · rw [TxnStore.begin_of_ne _ hbegin]
          exact hclosed
  · obtain ⟨htrace, hhandle⟩ := processMapFull_early a turn p s hearly
    rw [htrace, hhandle, recoverLive, decide_eq_false hearly, Bool.false_and]
    exact ⟨fun hlive => absurd hlive Bool.false_ne_true, fun _ => hspent⟩

/-- A live transaction left by `processMapFull` is on an open environment when `openDb` succeeded. -/
theorem processMapFull_opened (s : Engine) (hlive : recoverLive a turn p = true) :
    ((processMapFull turn p).run a s).2.opened = openDbOk a fun c => (turn, .recover p (.openDb c)) := by
  simp only [recoverLive, Bool.and_eq_true, decide_eq_true_eq] at hlive
  obtain ⟨⟨hinfo, hcreate⟩, hlive⟩ := hlive
  obtain ⟨hopen, hclosed⟩ := openDb_opened a (fun c => (turn, .recover p (.openDb c)))
    { s.abort with opened := false }
  rw [processMapFull_state a turn p s hinfo hcreate]
  cases hok : openDbOk a fun c => (turn, .recover p (.openDb c)) with
  | false =>
      rw [hok] at hlive
      exact hclosed hlive
  | true =>
      rw [hok, if_pos rfl, decide_eq_true_eq] at hlive
      rw [if_pos rfl, hlive]
      exact hopen hok

/-- `processMapFull` returns 0 only when a live transaction on an open environment is left. -/
def RecoversLive : Prop := ∀ s : Engine, ((processMapFull turn p).run a s).1 = 0 →
  ((processMapFull turn p).run a s).2.pending.isSome ∧ ((processMapFull turn p).run a s).2.opened = true

theorem recoversLive_iff : RecoversLive a turn p ↔ (recoverStatus a turn p = 0 →
    recoverLive a turn p = true ∧ openDbOk a (fun c => (turn, .recover p (.openDb c))) = true) := by
  have hstate : ∀ s : Engine, ((processMapFull turn p).run a s).1 = recoverStatus a turn p ∧
      (((processMapFull turn p).run a s).2.pending.isSome ↔ recoverLive a turn p = true) := by
    intro s
    obtain ⟨s', hrun, -, hpending⟩ := processMapFull_run a turn p s
    rw [hrun, hpending]
    refine ⟨rfl, ?_⟩
    cases recoverLive a turn p with
    | false => exact iff_of_false nofun nofun
    | true => exact iff_of_true rfl rfl
  refine ⟨fun h hzero => ?_, fun h s hzero => ?_⟩
  · obtain ⟨hsome, hopened⟩ := h (.idle .empty) ((hstate _).1.trans hzero)
    have hlive := (hstate _).2.mp hsome
    exact ⟨hlive, (processMapFull_opened a turn p _ hlive).symm.trans hopened⟩
  · obtain ⟨hlive, hok⟩ := h ((hstate s).1.symm.trans hzero)
    exact ⟨(hstate s).2.mpr hlive, (processMapFull_opened a turn p s hlive).trans hok⟩

/-- The answers to the calls of `processMapFull` that leave its caller a transaction to go on with, or to
abort: `openDb` comes as far as `mdb_dbi_open`, and from there all succeeds; or that call fails, and the
`mdb_env_open` whose status is returned then had failed before. -/
def Mended : Prop :=
  a (turn, .recover p .envInfo) = 0 ∧ a (turn, .recover p .envCreate) = 0 ∧
    a (turn, .recover p (.openDb .envCreate)) = 0 ∧ a (turn, .recover p (.openDb .envOpen)) = 0 ∧
    a (turn, .recover p (.openDb .txnBegin)) = 0 ∧
    if a (turn, .recover p (.openDb .dbiOpen)) = 0 then
      a (turn, .recover p (.openDb .txnCommit)) = 0 ∧ a (turn, .recover p .txnBegin) = 0
    else a (turn, .recover p .envOpen) ≠ 0

instance : Decidable (Mended a turn p) := by
  unfold Mended
  infer_instance

theorem mended_iff : Mended a turn p ↔ recoverLive a turn p = true ∧ RecoversLive a turn p := by
  rw [recoversLive_iff]
  by_cases hearly : a (turn, .recover p .envInfo) = 0 ∧ a (turn, .recover p .envCreate) = 0
  · by_cases hopen : a (turn, .recover p (.openDb .envCreate)) = 0 ∧ a (turn, .recover p (.openDb .envOpen)) = 0 ∧
        a (turn, .recover p (.openDb .txnBegin)) = 0
    · by_cases hdbi : a (turn, .recover p (.openDb .dbiOpen)) = 0
      · by_cases hcommit : a (turn, .recover p (.openDb .txnCommit)) = 0 <;>
          simp [Mended, recoverLive, recoverStatus, openDbOk, openDbLeaves, hearly, hopen, hdbi, hcommit]
      · simp [Mended, recoverLive, recoverStatus, openDbOk, openDbLeaves, hearly, hopen, hdbi]
    · have hok : openDbOk a (fun c => (turn, .recover p (.openDb c))) = false := by
        rw [openDbOk, decide_eq_false_iff_not]
        exact fun h => hopen ⟨h.1, h.2.1, h.2.2.1⟩
      have hleaves : openDbLeaves a (fun c => (turn, .recover p (.openDb c))) = false := by
        rw [openDbLeaves, decide_eq_false_iff_not]
        exact fun h => hopen ⟨h.1, h.2.1, h.2.2.1⟩
      refine iff_of_false (fun h => hopen ⟨h.2.2.1, h.2.2.2.1, h.2.2.2.2.1⟩) fun h => ?_
      simp [recoverLive, hok, hleaves] at h
  · refine iff_of_false (fun h => hearly ⟨h.1, h.2.1⟩) fun h => ?_
    rw [recoverLive, decide_eq_false hearly, Bool.false_and] at h
    exact Bool.false_ne_true h.1

end Recover

/-! ### A call that may find the map full -/

section Phases

variable (a : Answers) (turn : Nat) (p : Phase)

/-- A recovery, when there is one, leaves the caller a transaction. -/
def SoundPhase : Prop := Full a turn p → Mended a turn p

/-- The call comes to a status of zero, at once or after a recovery. -/
def Passes : Prop :=
  a (turn, .first p) = 0 ∨
    Full a turn p ∧ a (turn, .recover p (.openDb .dbiOpen)) = 0 ∧ a (turn, .again p) = 0

theorem passes_iff (h : SoundPhase a turn p) : Passes a turn p ↔ finalStatus a turn p = 0 := by
  by_cases hfull : Full a turn p
  · have hfirst : a (turn, .first p) = MDB_MAP_FULL := hfull
    obtain ⟨hinfo, hcreate, henv, hopen, hbegin, hrest⟩ := h hfull
    by_cases hdbi : a (turn, .recover p (.openDb .dbiOpen)) = 0
    · rw [if_pos hdbi] at hrest
      simp [Passes, finalStatus, recoverStatus, openDbOk, hfull, hfirst, hinfo, hcreate, henv, hopen, hbegin, hdbi,
        hrest, MDB_MAP_FULL]
    · rw [if_neg hdbi] at hrest
      simp [Passes, finalStatus, recoverStatus, openDbOk, hfirst, hinfo, hcreate, henv, hopen, hbegin, hdbi,
        hrest, MDB_MAP_FULL]
  · have hfirst : ¬a (turn, .first p) = MDB_MAP_FULL := hfull
    simp [Passes, finalStatus, hfull, hfirst]

/-- A call on the transaction, which finds the map full when it is so answered. -/
structure UsesHandle (act : Nat × Call → EngineM Int) : Prop where
  noted : ∀ c (s : Engine), ((act c).run a s).2.trace = s.trace ++ [.used s.handle] ∧
    ((act c).run a s).2.handle = s.handle
  full_iff : ∀ c (s : Engine), ((act c).run a s).1 = MDB_MAP_FULL ↔ a c = MDB_MAP_FULL

variable {a}

theorem UsesHandle.grows {act : Nat × Call → EngineM Int} (hact : ∀ a, UsesHandle a act) (c : Nat × Call) :
    Grows (act c) := by
  intro a s
  rw [((hact a).noted c s).1]
  exact List.prefix_append _ _

variable {act : Nat × Call → EngineM Int} (hact : UsesHandle a act) {s : Engine} (h : Live s.trace s.handle)

include hact

theorem UsesHandle.live (h : Live s.trace s.handle) (c : Nat × Call) :
    Live ((act c).run a s).2.trace ((act c).run a s).2.handle := by
  obtain ⟨htrace, hhandle⟩ := hact.noted c s
  rw [htrace, hhandle]
  exact h.use

theorem UsesHandle.broken (h : Spent s.trace s.handle) (c : Nat × Call) :
    ¬NoneAfterEnd ((act c).run a s).2.trace := by
  rw [(hact.noted c s).1]
  exact h.not_used

include h

/-- The steps of a call that finds the map full. -/
theorem withMapFull_full (hfull : Full a turn p) : ∃ s₁ : Engine, Live s₁.trace s₁.handle ∧
    (withMapFull turn p act).run a s =
      if recoverStatus a turn p = 0 then (act (turn, .again p)).run a ((processMapFull turn p).run a s₁).2
      else (recoverStatus a turn p, ((processMapFull turn p).run a s₁).2) := by
  have hfirst := (hact.full_iff (turn, .first p) s).mpr hfull
  refine ⟨((act (turn, .first p)).run a s).2, hact.live h _, ?_⟩
  obtain ⟨s₂, hrun, -⟩ := processMapFull_run a turn p ((act (turn, .first p)).run a s).2
  rw [withMapFull, run_bind, if_pos hfirst, run_bind_of _ _ _ _ hrun, hrun]
  split_ifs <;> rfl

/-- The transaction is live after the call when a recovery leaves one. -/
theorem withMapFull_live (hlive : Full a turn p → recoverLive a turn p = true) :
    Live ((withMapFull turn p act).run a s).2.trace ((withMapFull turn p act).run a s).2.handle := by
  by_cases hfull : Full a turn p
  · obtain ⟨s₁, h₁, hrun⟩ := withMapFull_full turn p hact h hfull
    have h₂ := (processMapFull_handles a turn p h₁).1 (hlive hfull)
    rw [hrun]
    split_ifs
    · exact hact.live h₂ _
    · exact h₂
  · have hfirst := mt (hact.full_iff (turn, .first p) s).mp hfull
    rw [withMapFull, run_bind, if_neg hfirst]
    exact hact.live h _

/-- When a recovery leaves none, the second call breaks the trace, or there is a failure to report. -/
theorem withMapFull_spent (hfull : Full a turn p) (hgone : recoverLive a turn p = false) :
    ¬NoneAfterEnd ((withMapFull turn p act).run a s).2.trace ∨
      ((withMapFull turn p act).run a s).1 ≠ 0 ∧
        Spent ((withMapFull turn p act).run a s).2.trace ((withMapFull turn p act).run a s).2.handle := by
  obtain ⟨s₁, h₁, hrun⟩ := withMapFull_full turn p hact h hfull
  have h₂ := (processMapFull_handles a turn p h₁).2 hgone
  rw [hrun]
  split_ifs with hzero
  · exact Or.inl (hact.broken h₂ _)
  · exact Or.inr ⟨hzero, h₂⟩

variable {β : Type} (code : β) {k : EngineM β}

omit h in
/-- A failure is answered with an abort; the caller goes on with a live transaction otherwise. -/
theorem abortOnFailure_live (h : Live s.trace s.handle) (hlive : Full a turn p → recoverLive a turn p = true) :
    ∃ s₁ : Engine, Live s₁.trace s₁.handle ∧
      (withMapFull turn p act >>= fun r => if r ≠ 0 then mdbTxnAbort >>= fun _ => pure code else k).run a s =
        if ((withMapFull turn p act).run a s).1 ≠ 0 then (code, s₁.abort) else k.run a s₁ := by
  refine ⟨((withMapFull turn p act).run a s).2, withMapFull_live turn p hact h hlive, ?_⟩
  rw [run_bind, run_ite]
  rfl

/-- After a recovery that leaves no transaction the trace is broken, by the second call or by the abort. -/
theorem abortOnFailure_broken (hk : Grows k) (hfull : Full a turn p) (hgone : recoverLive a turn p = false) :
    ¬NoneAfterEnd ((withMapFull turn p act >>= fun r =>
      if r ≠ 0 then mdbTxnAbort >>= fun _ => pure code else k).run a s).2.trace := by
  rw [run_bind]
  rcases withMapFull_spent turn p hact h hfull hgone with hbroken | ⟨hne, hspent⟩
  · exact Grows.broken ((mdbTxnAbort_grows.bind fun _ => grows_pure code).ite hk) a hbroken
  · rw [if_pos hne]
    exact hspent.not_ended

end Phases

section Sound

variable {a : Answers} {turn : Nat} {p : Phase}

theorem SoundPhase.live (h : SoundPhase a turn p) (hfull : Full a turn p) : recoverLive a turn p = true :=
  ((mended_iff a turn p).mp (h hfull)).1

theorem SoundPhase.recoversLive (h : SoundPhase a turn p) (hfull : Full a turn p) : RecoversLive a turn p :=
  ((mended_iff a turn p).mp (h hfull)).2

theorem full_of_not_sound (h : ¬SoundPhase a turn p) :
    Full a turn p ∧ (recoverLive a turn p = false ∨ ¬RecoversLive a turn p) := by
  obtain ⟨hfull, hmended⟩ := Classical.not_imp.mp h
  refine ⟨hfull, ?_⟩
  rw [mended_iff, not_and_or, Bool.not_eq_true] at hmended
  exact hmended

end Sound

theorem usesHandle_put (a : Answers) (key value : Bytes) : UsesHandle a fun c => mdbPut c key value :=
  ⟨fun c s => s.put_noted (a c) key value, fun _ _ => Iff.rfl⟩

/-- The write of `putNotification`. -/
def noteWrite (sa : Mac) (value : Bytes) (stray : Stray) (c : Nat × Call) : EngineM Int :=
  if value.length ≠ 0 then mdbPut c (noteKey sa stray) value else mdbDel c (noteKey sa stray)

theorem usesHandle_note (a : Answers) (sa : Mac) (value : Bytes) (stray : Stray) :
    UsesHandle a (noteWrite sa value stray) := by
  have hdel : UsesHandle a fun c => mdbDel c (noteKey sa stray) := by
    refine ⟨fun c s => s.del_noted (a c) MDB_NOTFOUND (noteKey sa stray), fun c s => ?_⟩
    rw [show ((mdbDel c (noteKey sa stray)).run a s).1 = (s.del MDB_NOTFOUND (noteKey sa stray) (a c)).1 from rfl]
    unfold TxnStore.del
    split_ifs with hzero
    · rw [hzero]
      split
      · exact Iff.rfl
      · split_ifs
        · exact Iff.rfl
        · exact iff_of_false (fun h => absurd (show MDB_NOTFOUND = MDB_MAP_FULL from h) (by decide)) (by decide)
    · exact Iff.rfl
  by_cases hvalue : value.length ≠ 0
  · rw [show noteWrite sa value stray = fun c => mdbPut c (noteKey sa stray) value from
      funext fun c => if_pos hvalue]
    exact usesHandle_put a _ value
  · rw [show noteWrite sa value stray = fun c => mdbDel c (noteKey sa stray) from funext fun c => if_neg hvalue]
    exact hdel

theorem withMapFull_put_fst (a : Answers) (turn : Nat) (p : Phase) (key value : Bytes) (s : Engine) :
    ((withMapFull turn p fun c => mdbPut c key value).run a s).1 = finalStatus a turn p := by
  obtain ⟨s₁, hrun, -⟩ := withMapFull_run a turn p (TxnStore.put key value) s
    fun r s _ => TxnStore.put_committed s r key value
  exact congrArg Prod.fst hrun

/-! ### The two puts of a turn -/

section Turns

variable (a : Answers) (turn : Nat)

/-- The recoveries of a turn leave the caller a transaction. -/
def SoundTurn : Prop := SoundPhase a turn .log ∧ (Passes a turn .log → SoundPhase a turn .probe)

/-- A turn recovers from a full map at one of its puts. -/
def TurnRecovers (p : Phase) : Prop :=
  Full a turn p ∧ (p = .log ∨ p = .probe ∧ finalStatus a turn .log = 0)

variable {a turn} (key : LogKey) (data : LogData) (pad : Padding) {s : Engine}

theorem SoundTurn.recoversLive (h : SoundTurn a turn) {p : Phase} (hp : TurnRecovers a turn p) :
    RecoversLive a turn p := by
  obtain ⟨hfull, rfl | ⟨rfl, hlog⟩⟩ := hp
  · exact h.1.recoversLive hfull
  · exact (h.2 ((passes_iff a turn .log h.1).mpr hlog)).recoversLive hfull

/-- The second put of an observation. -/
def putProbe (turn : Nat) (key : LogKey) : EngineM (Option Int) := do
  let r ← withMapFull turn .probe fun c => mdbPut c (probeKey key.sa).bytes (probeValue key)
  if r ≠ 0 then
    mdbTxnAbort
    return some ERRCODE_LMDB_PUT_PROBE
  return none

theorem putObservation_eq (turn : Nat) (key : LogKey) (data : LogData) (pad : Padding) :
    putObservation turn key data pad =
      (withMapFull turn .log fun c => mdbPut c key.bytes (data.bytes pad.data)) >>= fun r =>
        if r ≠ 0 then mdbTxnAbort >>= fun _ => pure (some ERRCODE_LMDB_PUT) else putProbe turn key := rfl

theorem putObservation_log (h : Live s.trace s.handle) (hlog : SoundPhase a turn .log) : ∃ s₁ : Engine,
    Live s₁.trace s₁.handle ∧ (putObservation turn key data pad).run a s =
      if finalStatus a turn .log ≠ 0 then (some ERRCODE_LMDB_PUT, s₁.abort) else (putProbe turn key).run a s₁ := by
  rw [putObservation_eq, ← withMapFull_put_fst a turn .log key.bytes (data.bytes pad.data) s]
  exact abortOnFailure_live turn .log (usesHandle_put a _ _) _ h hlog.live

theorem putProbe_run (h : Live s.trace s.handle) (hprobe : SoundPhase a turn .probe) : ∃ s₁ : Engine,
    Live s₁.trace s₁.handle ∧ (putProbe turn key).run a s =
      if finalStatus a turn .probe ≠ 0 then (some ERRCODE_LMDB_PUT_PROBE, s₁.abort) else (none, s₁) := by
  rw [← withMapFull_put_fst a turn .probe (probeKey key.sa).bytes (probeValue key) s]
  exact abortOnFailure_live turn .probe (usesHandle_put a _ _) _ h hprobe.live

theorem observation_sound (h : Live s.trace s.handle) (hsound : SoundTurn a turn) : ∃ s₁ : Engine,
    (putObservation turn key data pad).run a s = (observationFailure a turn, s₁) ∧
      (observationFailure a turn = none → Live s₁.trace s₁.handle) ∧
      (observationFailure a turn ≠ none → Spent s₁.trace s₁.handle) := by
  obtain ⟨s₁, h₁, hrun⟩ := putObservation_log key data pad h hsound.1
  rw [hrun, observationFailure]
  by_cases hlog : finalStatus a turn .log = 0
  · have hprobe := hsound.2 ((passes_iff a turn .log hsound.1).mpr hlog)
    obtain ⟨s₂, h₂, hrun'⟩ := putProbe_run key h₁ hprobe
    rw [if_neg (not_not_intro hlog), if_neg (not_not_intro hlog), hrun']
    by_cases hzero : finalStatus a turn .probe = 0
    · rw [if_neg (not_not_intro hzero), if_neg (not_not_intro hzero)]
      exact ⟨s₂, rfl, fun _ => h₂, fun hne => absurd rfl hne⟩
    · rw [if_pos hzero, if_pos hzero]
      exact ⟨s₂.abort, rfl, fun hnone => absurd hnone (Option.some_ne_none _), fun _ => h₂.finish⟩
  · rw [if_pos hlog, if_pos hlog]
    exact ⟨s₁.abort, rfl, fun hnone => absurd hnone (Option.some_ne_none _), fun _ => h₁.finish⟩

theorem putProbe_grows (turn : Nat) (key : LogKey) : Grows (putProbe turn key) :=
  (withMapFull_grows turn .probe (UsesHandle.grows fun a => usesHandle_put a _ _)).bind fun _ =>
    (mdbTxnAbort_grows.bind fun _ => grows_pure _).ite (grows_pure _)

theorem putObservation_grows (turn : Nat) (key : LogKey) (data : LogData) (pad : Padding) :
    Grows (putObservation turn key data pad) :=
  (withMapFull_grows turn .log (UsesHandle.grows fun a => usesHandle_put a _ _)).bind fun _ =>
    (mdbTxnAbort_grows.bind fun _ => grows_pure _).ite (putProbe_grows turn key)

theorem observation_unsound (h : Live s.trace s.handle) (hsound : ¬SoundTurn a turn) :
    ¬NoneAfterEnd ((putObservation turn key data pad).run a s).2.trace ∨
      ∃ p, TurnRecovers a turn p ∧ ¬RecoversLive a turn p := by
  by_cases hlog : SoundPhase a turn .log
  · obtain ⟨hpasses, hprobe⟩ := Classical.not_imp.mp fun himp => hsound ⟨hlog, himp⟩
    have hzero := (passes_iff a turn .log hlog).mp hpasses
    obtain ⟨hfull, hgone | hdead⟩ := full_of_not_sound hprobe
    · obtain ⟨s₁, h₁, hrun⟩ := putObservation_log key data pad h hlog
      rw [hrun, if_neg (not_not_intro hzero)]
      exact Or.inl (abortOnFailure_broken turn .probe (usesHandle_put a _ _) h₁ _ (grows_pure _) hfull hgone)
    · exact Or.inr ⟨.probe, ⟨hfull, Or.inr ⟨rfl, hzero⟩⟩, hdead⟩
  · obtain ⟨hfull, hgone | hdead⟩ := full_of_not_sound hlog
    · exact Or.inl (abortOnFailure_broken turn .log (usesHandle_put a _ _) h _ (putProbe_grows turn key) hfull hgone)
    · exact Or.inr ⟨.log, ⟨hfull, Or.inl rfl⟩, hdead⟩

end Turns

/-! ### The turns of a batch -/

section Batches

variable (a : Answers)

/-- The recoveries of so many turns from one on, as far as they are come to, leave a transaction. -/
def SoundTurns : Nat → Nat → Prop
  | _, 0 => True
  | turn, n + 1 => SoundTurn a turn ∧ (Passes a turn .log → Passes a turn .probe → SoundTurns (turn + 1) n)

/-- Turn `i`, of so many from `turn` on, is come to and recovers from a full map. -/
def BatchRecovers (turn n i : Nat) (p : Phase) : Prop :=
  (turn ≤ i ∧ i < turn + n) ∧ (∀ j, turn ≤ j → j < i → observationFailure a j = none) ∧ TurnRecovers a i p

variable {a}

theorem observationFailure_eq_none_iff {turn : Nat} :
    observationFailure a turn = none ↔ finalStatus a turn .log = 0 ∧ finalStatus a turn .probe = 0 := by
  unfold observationFailure
  split_ifs with hlog hprobe
  · exact iff_of_false nofun fun h => hlog h.1
  · exact iff_of_false nofun fun h => hprobe h.2
  · exact iff_of_true rfl ⟨not_not.mp hlog, not_not.mp hprobe⟩

theorem SoundTurn.passes_iff {turn : Nat} (h : SoundTurn a turn) :
    Passes a turn .log ∧ Passes a turn .probe ↔ observationFailure a turn = none := by
  rw [observationFailure_eq_none_iff, Wacs.passes_iff a turn .log h.1]
  apply and_congr_right
  intro hlog
  exact Wacs.passes_iff a turn .probe (h.2 ((Wacs.passes_iff a turn .log h.1).mpr hlog))

theorem batchRecovers_succ (turn n i : Nat) (p : Phase) : BatchRecovers a turn (n + 1) i p ↔
    i = turn ∧ TurnRecovers a turn p ∨ observationFailure a turn = none ∧ BatchRecovers a (turn + 1) n i p := by
  refine ⟨fun ⟨⟨hlo, hhi⟩, hbefore, hp⟩ => ?_, fun h => ?_⟩
  · rcases Nat.eq_or_lt_of_le hlo with rfl | hlt
    · exact Or.inl ⟨rfl, hp⟩
    · exact Or.inr ⟨hbefore turn le_rfl hlt, ⟨hlt, by omega⟩, fun j hj => hbefore j (by omega), hp⟩
  · rcases h with ⟨rfl, hp⟩ | ⟨hnone, ⟨hlo, hhi⟩, hbefore, hp⟩
    · exact ⟨⟨le_rfl, by omega⟩, fun j hj hlt => absurd hlt (not_lt.mpr hj), hp⟩
    · refine ⟨⟨by omega, by omega⟩, fun j hj hlt => ?_, hp⟩
      rcases Nat.eq_or_lt_of_le hj with rfl | hj
      · exact hnone
      · exact hbefore j hj hlt

variable {pad : Padding}

theorem putRecords_grows (pad : Padding) (turn : Nat) (records : List LogRecord) :
    Grows (putRecords pad turn records) := by
  induction records generalizing turn with
  | nil => exact grows_pure _
  | cons record records ih =>
      apply (putObservation_grows turn _ _ pad).bind
      intro failed
      cases failed with
      | none => exact ih (turn + 1)
      | some code => exact grows_pure _

theorem putRecords_broken {record : LogRecord} (records : List LogRecord) {turn : Nat} {s : Engine}
    (h : ¬NoneAfterEnd ((putObservation turn (record.key pad) record.data pad).run a s).2.trace) :
    ¬NoneAfterEnd ((putRecords pad turn (record :: records)).run a s).2.trace := by
  cases hrun : (putObservation turn (record.key pad) record.data pad).run a s with
  | mk failed s₁ =>
      rw [hrun] at h
      cases failed with
      | some code => rwa [putRecords_failed hrun]
      | none =>
          rw [putRecords_next hrun]
          exact (putRecords_grows pad _ records).broken a h

theorem putRecords_sound (pad : Padding) (records : List LogRecord) (turn : Nat) {s : Engine}
    (h : Live s.trace s.handle)
    (hsound : SoundTurns a turn records.length) :
    (∃ result s₁, (putRecords pad turn records).run a s = (result, s₁) ∧
        (∀ c, result = .ok c → Live s₁.trace s₁.handle) ∧
        (∀ code, result = .error code → Spent s₁.trace s₁.handle)) ∧
      ∀ i p, BatchRecovers a turn records.length i p → RecoversLive a i p := by
  induction records generalizing turn s with
  | nil =>
      refine ⟨⟨_, s, rfl, fun _ _ => h, nofun⟩, fun i p hrec => ?_⟩
      have := hrec.1
      simp only [List.length_nil] at this
      omega
  | cons record records ih =>
      obtain ⟨hturn, hrest⟩ := hsound
      obtain ⟨s₁, hrun, hnone, hsome⟩ :=
        observation_sound (record.key pad) record.data pad h hturn
      rw [List.length_cons]
      simp only [batchRecovers_succ]
      cases hfail : observationFailure a turn with
      | some code =>
          rw [hfail] at hrun hsome
          refine ⟨⟨.error code, s₁, putRecords_failed hrun records, nofun, fun _ _ => hsome nofun⟩, ?_⟩
          rintro i p (⟨rfl, hp⟩ | ⟨hno, -⟩)
          · exact hturn.recoversLive hp
          · cases hno
      | none =>
          rw [hfail] at hrun
          obtain ⟨hlog, hprobe⟩ := hturn.passes_iff.mpr hfail
          obtain ⟨hends, hrec⟩ := ih (turn + 1) (hnone hfail) (hrest hlog hprobe)
          rw [putRecords_next hrun]
          refine ⟨hends, ?_⟩
          rintro i p (⟨rfl, hp⟩ | ⟨-, hp⟩)
          · exact hturn.recoversLive hp
          · exact hrec i p hp

theorem putRecords_unsound (pad : Padding) (records : List LogRecord) (turn : Nat) {s : Engine}
    (h : Live s.trace s.handle)
    (hsound : ¬SoundTurns a turn records.length) :
    ¬NoneAfterEnd ((putRecords pad turn records).run a s).2.trace ∨
      ∃ i p, BatchRecovers a turn records.length i p ∧ ¬RecoversLive a i p := by
  induction records generalizing turn s with
  | nil => exact absurd trivial hsound
  | cons record records ih =>
      rw [List.length_cons]
      simp only [batchRecovers_succ]
      by_cases hturn : SoundTurn a turn
      · obtain ⟨hlog, hrest⟩ := Classical.not_imp.mp fun himp => hsound ⟨hturn, himp⟩
        obtain ⟨hprobe, hrest⟩ := Classical.not_imp.mp hrest
        have hfail := hturn.passes_iff.mp ⟨hlog, hprobe⟩
        obtain ⟨s₁, hrun, hnone, -⟩ :=
          observation_sound (record.key pad) record.data pad h hturn
        rw [hfail] at hrun
        rw [putRecords_next hrun]
        rcases ih (turn + 1) (hnone hfail) hrest with hbroken | ⟨i, p, hp, hdead⟩
        · exact Or.inl hbroken
        · exact Or.inr ⟨i, p, Or.inr ⟨hfail, hp⟩, hdead⟩
      · rcases observation_unsound (record.key pad) record.data pad h hturn with
          hbroken | ⟨p, hp, hdead⟩
        · exact Or.inl (putRecords_broken records hbroken)
        · exact Or.inr ⟨turn, p, Or.inl ⟨rfl, hp⟩, hdead⟩

end Batches

/-! ### The commit of `putLog` -/

section Commits

variable {a : Answers} {turn : Nat} {p : Phase} {s : Engine}

/-- A commit that finds the map full has ended the transaction that the recovery aborts. -/
theorem withMapFull_commit_broken (h : Live s.trace s.handle) (hfull : Full a turn p) :
    ¬NoneAfterEnd ((withMapFull turn p mdbTxnCommit).run a s).2.trace := by
  have hspent : Spent (s.commit MDB_MAP_FULL).trace (s.commit MDB_MAP_FULL).handle := h.finish
  have hfirst : a (turn, .first p) = MDB_MAP_FULL := hfull
  obtain ⟨rest, hrest, heq⟩ := processMapFull_abort turn p
  rw [withMapFull, mdbTxnCommit, run_status_bind, hfirst, if_pos rfl, heq, run_bind, run_bind]
  refine Grows.broken ((mdbTxnCommit_grows _).ite (grows_pure _)) a (hrest.broken a ?_)
  exact hspent.not_ended

theorem withMapFull_commit_run (hfull : ¬Full a turn p) :
    (withMapFull turn p mdbTxnCommit).run a s = (a (turn, .first p), s.commit (a (turn, .first p))) :=
  withMapFull_of_ne turn p mdbTxnCommit rfl hfull

end Commits

/-! ### The functions from their transaction on -/

section Functions

variable {a : Answers} {s s₁ : Engine} {code : Int} (hbegin : a (0, .txnBegin) = 0)
include hbegin

section Message

variable {buffer : Bytes} {now : Int} {pad : Padding} (hlen : ¬buffer.length < sizeofLogEntry)
include hlen

theorem putLog_failed (h : (putObservation 0 (bufferKey buffer now pad) (bufferData buffer) pad).run a (s.begin 0) =
    (some code, s₁)) : (putLog buffer now pad).run a s = (code, s₁) := by
  rw [putLog_eq now pad hlen, mdbTxnBegin, run_status_bind, hbegin, if_neg (not_not_intro rfl), run_bind_of _ _ _ _ h]
  rfl

theorem putLog_next (h : (putObservation 0 (bufferKey buffer now pad) (bufferData buffer) pad).run a (s.begin 0) =
    (none, s₁)) : ((putLog buffer now pad).run a s).2 = ((withMapFull 0 .commit mdbTxnCommit).run a s₁).2 := by
  rw [putLog_eq now pad hlen, mdbTxnBegin, run_status_bind, hbegin, if_neg (not_not_intro rfl), run_bind_of _ _ _ _ h]
  simp only [run_bind, run_ite, run_pure]
  split_ifs <;> rfl

end Message

section Batch

variable {records : List LogRecord} {pad : Padding}

theorem putLogEntries_failed (h : (putRecords pad 0 records).run a (s.begin 0) = (.error code, s₁)) :
    ((putLogEntries records pad).run a s).2 = s₁ := by
  rw [putLogEntries, mdbTxnBegin, run_status_bind, hbegin, if_neg (not_not_intro rfl), run_bind_of _ _ _ _ h]
  rfl

theorem putLogEntries_next {c : Nat} (h : (putRecords pad 0 records).run a (s.begin 0) = (.ok c, s₁)) :
    ((putLogEntries records pad).run a s).2 = s₁.commit (a (0, .first .commit)) := by
  rw [putLogEntries, mdbTxnBegin, run_status_bind, hbegin, if_neg (not_not_intro rfl), run_bind_of _ _ _ _ h]
  simp only [mdbTxnCommit, run_status_bind, run_ite, run_pure]
  split_ifs <;> rfl

end Batch

/-- The end of `putNotification`, from its commit on. -/
def commitNote : EngineM Int := do
  let r ← mdbTxnCommit (0, .first .commit)
  if r ≠ 0 then
    return ERRCODE_LMDB_TXN_COMMIT
  return r

theorem putNotification_eq {sa : Mac} {value : Bytes} {stray : Stray} : (putNotification sa value stray).run a s =
    (withMapFull 0 .note (noteWrite sa value stray) >>= fun r =>
      if r ≠ 0 then mdbTxnAbort >>= fun _ => pure ERRCODE_LMDB_PUT else commitNote).run a (s.begin 0) := by
  rw [putNotification, mdbTxnBegin, run_status_bind, hbegin, if_neg (not_not_intro rfl)]
  rfl

end Functions

theorem commitNote_grows : Grows commitNote :=
  (mdbTxnCommit_grows _).bind fun _ => (grows_pure _).ite (grows_pure _)

theorem commitNote_spent {a : Answers} {s : Engine} (h : Live s.trace s.handle) :
    Spent (commitNote.run a s).2.trace (commitNote.run a s).2.handle := by
  simp only [commitNote, mdbTxnCommit, run_status_bind, run_ite, run_pure]
  split_ifs <;> exact h.finish

/-! ### The discipline -/

namespace WriteCall

variable (a : Answers)

/-- The call recovers from a full map at this place. -/
def Recovers : WriteCall → Nat → Phase → Prop
  | putLog buffer _ _, i, p => ¬buffer.length < sizeofLogEntry ∧ a (0, .txnBegin) = 0 ∧ i = 0 ∧
      (TurnRecovers a 0 p ∨ observationFailure a 0 = none ∧ p = .commit ∧ Full a 0 .commit)
  | putLogEntries records _, i, p => a (0, .txnBegin) = 0 ∧ BatchRecovers a 0 records.length i p
  | putNotification .., i, p => a (0, .txnBegin) = 0 ∧ i = 0 ∧ p = .note ∧ Full a 0 .note

/-- No engine call is made on a handle that has ended, every handle begun is ended once, and every recovery
that returns 0 leaves a live transaction on an open environment. -/
structure KeepsHandles (c : WriteCall) (s : Engine) : Prop where
  handles : Disciplined (c.exec.run a s.restart).2.trace
  recoveries : ∀ i p, c.Recovers a i p → RecoversLive a i p

/-- Every recovery that is come to leaves the caller a transaction, and the commit of `putLog` does not find
the map full. -/
def Sound : WriteCall → Prop
  | putLog buffer _ _ => ¬buffer.length < sizeofLogEntry → a (0, .txnBegin) = 0 →
      SoundTurn a 0 ∧ (Passes a 0 .log → Passes a 0 .probe → ¬Full a 0 .commit)
  | putLogEntries records _ => a (0, .txnBegin) = 0 → SoundTurns a 0 records.length
  | putNotification .. => a (0, .txnBegin) = 0 → SoundPhase a 0 .note

variable {a}

/-- The transaction a call begins. -/
theorem live_begin (s : Engine) : Live (s.restart.begin 0).trace (s.restart.begin 0).handle :=
  (settled_nil s.handle).begin

/-- A call whose transaction does not begin touches no handle. -/
theorem keepsHandles_of_trace {c : WriteCall} {s : Engine} (htrace : (c.exec.run a s.restart).2.trace = [])
    (hrec : ∀ i p, ¬c.Recovers a i p) : c.KeepsHandles a s :=
  ⟨htrace ▸ (settled_nil 0).disciplined, fun i p hp => absurd hp (hrec i p)⟩

theorem not_keepsHandles {c : WriteCall} {s : Engine} (h : ¬NoneAfterEnd (c.exec.run a s.restart).2.trace ∨
    ∃ i p, c.Recovers a i p ∧ ¬RecoversLive a i p) : ¬c.KeepsHandles a s := by
  intro hkeeps
  rcases h with hbroken | ⟨i, p, hp, hdead⟩
  · exact hbroken hkeeps.handles.noneAfterEnd
  · exact hdead (hkeeps.recoveries i p hp)

section Begun

variable {s : Engine} (hbegin : a (0, .txnBegin) = 0)
include hbegin

section Message

variable {buffer : Bytes} {now : Int} {pad : Padding} (hlen : ¬buffer.length < sizeofLogEntry)
include hlen

theorem putLog_sound (hturn : SoundTurn a 0)
    (hcommit : Passes a 0 .log → Passes a 0 .probe → ¬Full a 0 .commit) :
    (putLog buffer now pad).KeepsHandles a s := by
  obtain ⟨s₁, hrun, hnone, hsome⟩ := observation_sound (bufferKey buffer now pad) (bufferData buffer) pad
    (live_begin s) hturn
  cases hfail : observationFailure a 0 with
  | some code =>
      rw [hfail] at hrun hsome
      have hexec : (putLog buffer now pad).exec.run a s.restart = (code, s₁) := putLog_failed hbegin hlen hrun
      refine ⟨?_, fun i p hp => ?_⟩
      · rw [hexec]
        exact (hsome nofun).disciplined
      · obtain ⟨-, -, rfl, hp | ⟨hno, -⟩⟩ := hp
        · exact hturn.recoversLive hp
        · exact absurd (hfail.symm.trans hno) nofun
  | none =>
      rw [hfail] at hrun
      have hfull := hcommit (hturn.passes_iff.mpr hfail).1 (hturn.passes_iff.mpr hfail).2
      have hexec : ((putLog buffer now pad).exec.run a s.restart).2 = s₁.commit (a (0, .first .commit)) :=
        (putLog_next hbegin hlen hrun).trans (congrArg Prod.snd (withMapFull_commit_run hfull))
      refine ⟨?_, fun i p hp => ?_⟩
      · rw [hexec]
        exact (hnone hfail).finish.disciplined
      · obtain ⟨-, -, rfl, hp | ⟨-, rfl, hno⟩⟩ := hp
        · exact hturn.recoversLive hp
        · exact absurd hno hfull

theorem putLog_unsound (h : ¬(SoundTurn a 0 ∧ (Passes a 0 .log → Passes a 0 .probe → ¬Full a 0 .commit))) :
    ¬(putLog buffer now pad).KeepsHandles a s := by
  refine not_keepsHandles ?_
  by_cases hturn : SoundTurn a 0
  · obtain ⟨hlog, hrest⟩ := Classical.not_imp.mp fun himp => h ⟨hturn, himp⟩
    obtain ⟨hprobe, hfull⟩ := Classical.not_imp.mp hrest
    have hfail := hturn.passes_iff.mp ⟨hlog, hprobe⟩
    obtain ⟨s₁, hrun, hnone, -⟩ := observation_sound (bufferKey buffer now pad) (bufferData buffer) pad
      (live_begin s) hturn
    rw [hfail] at hrun
    refine Or.inl ?_
    rw [exec, putLog_next hbegin hlen hrun]
    exact withMapFull_commit_broken (hnone hfail) (not_not.mp hfull)
  · rcases observation_unsound (bufferKey buffer now pad) (bufferData buffer) pad (live_begin s)
      hturn with hbroken | ⟨p, hp, hdead⟩
    · refine Or.inl ?_
      cases hrun : (putObservation 0 (bufferKey buffer now pad) (bufferData buffer) pad).run a
          (s.restart.begin 0) with
      | mk failed s₁ =>
          rw [hrun] at hbroken
          cases failed with
          | some code => rwa [exec, putLog_failed hbegin hlen hrun]
          | none =>
              rw [exec, putLog_next hbegin hlen hrun]
              exact (withMapFull_grows 0 .commit mdbTxnCommit_grows).broken a hbroken
    · exact Or.inr ⟨0, p, ⟨hlen, hbegin, rfl, Or.inl hp⟩, hdead⟩

end Message

section Batch

variable {records : List LogRecord} {pad : Padding}

theorem putLogEntries_sound (h : SoundTurns a 0 records.length) : (putLogEntries records pad).KeepsHandles a s := by
  obtain ⟨⟨result, s₁, hrun, hok, herror⟩, hrec⟩ := putRecords_sound pad records 0 (live_begin s) h
  refine ⟨?_, fun i p hp => hrec i p hp.2⟩
  cases result with
  | error code =>
      rw [exec, putLogEntries_failed hbegin hrun]
      exact (herror code rfl).disciplined
  | ok c =>
      rw [exec, putLogEntries_next hbegin hrun]
      exact (hok c rfl).finish.disciplined

theorem putLogEntries_unsound (h : ¬SoundTurns a 0 records.length) :
    ¬(putLogEntries records pad).KeepsHandles a s := by
  refine not_keepsHandles ?_
  rcases putRecords_unsound pad records 0 (live_begin s) h with hbroken | ⟨i, p, hp, hdead⟩
  · refine Or.inl ?_
    cases hrun : (putRecords pad 0 records).run a (s.restart.begin 0) with
    | mk result s₁ =>
        rw [hrun] at hbroken
        cases result with
        | error code => rwa [exec, putLogEntries_failed hbegin hrun]
        | ok c =>
            rw [exec, putLogEntries_next hbegin hrun]
            exact fun hnone => hbroken (hnone.of_isPrefix (List.prefix_append _ _))
  · exact Or.inr ⟨i, p, ⟨hbegin, hp⟩, hdead⟩

end Batch

section Note

variable {sa : Mac} {value : Bytes} {stray : Stray}

theorem putNotification_sound (h : SoundPhase a 0 .note) : (putNotification sa value stray).KeepsHandles a s := by
  obtain ⟨s₁, h₁, hrun⟩ := abortOnFailure_live 0 .note (usesHandle_note a sa value stray) ERRCODE_LMDB_PUT
    (live_begin s) h.live (k := commitNote)
  refine ⟨?_, fun i p ⟨_, hi, hp, hfull⟩ => ?_⟩
  · rw [exec, putNotification_eq hbegin, hrun]
    split_ifs
    · exact h₁.finish.disciplined
    · exact (commitNote_spent h₁).disciplined
  · subst hi hp
    exact h.recoversLive hfull

theorem putNotification_unsound (h : ¬SoundPhase a 0 .note) :
    ¬(putNotification sa value stray).KeepsHandles a s := by
  refine not_keepsHandles ?_
  obtain ⟨hfull, hgone | hdead⟩ := full_of_not_sound h
  · refine Or.inl ?_
    rw [exec, putNotification_eq hbegin]
    exact abortOnFailure_broken 0 .note (usesHandle_note a sa value stray) (live_begin s) _ commitNote_grows hfull hgone
  · exact Or.inr ⟨0, .note, ⟨hbegin, rfl, rfl, hfull⟩, hdead⟩

end Note

end Begun

/-- The functions that write keep to the discipline of their handles exactly when every recovery they come
to leaves a transaction, and the commit of `putLog` does not find the map full. -/
theorem keepsHandles_iff (c : WriteCall) (a : Answers) (s : Engine) : c.KeepsHandles a s ↔ c.Sound a := by
  by_cases hbegin : a (0, .txnBegin) = 0
  · cases c with
    | putLog buffer now pad =>
        by_cases hlen : buffer.length < sizeofLogEntry
        · refine iff_of_true (keepsHandles_of_trace ?_ fun _ _ h => h.1 hlen) fun h => absurd hlen h
          simp [exec, Wacs.putLog, hlen, TxnStore.restart]
        · refine ⟨fun h _ _ => ?_, fun h => putLog_sound hbegin hlen (h hlen hbegin).1 (h hlen hbegin).2⟩
          exact Classical.by_contradiction fun hno => putLog_unsound hbegin hlen hno h
    | putLogEntries records pad =>
        refine ⟨fun h _ => ?_, fun h => putLogEntries_sound hbegin (h hbegin)⟩
        exact Classical.by_contradiction fun hno => putLogEntries_unsound hbegin hno h
    | putNotification sa value stray =>
        refine ⟨fun h _ => ?_, fun h => putNotification_sound hbegin (h hbegin)⟩
        exact Classical.by_contradiction fun hno => putNotification_unsound hbegin hno h
  · have hidle : s.restart.begin (a (0, .txnBegin)) = s.restart := TxnStore.begin_of_ne _ hbegin
    cases c with
    | putLog buffer now pad =>
        refine iff_of_true (keepsHandles_of_trace ?_ fun _ _ h => hbegin h.2.1) fun _ h => absurd h hbegin
        by_cases hlen : buffer.length < sizeofLogEntry
        · simp [exec, Wacs.putLog, hlen, TxnStore.restart]
        · rw [exec, putLog_eq now pad hlen, mdbTxnBegin, run_status_bind, if_pos hbegin, hidle]
          rfl
    | putLogEntries records pad =>
        refine iff_of_true (keepsHandles_of_trace ?_ fun _ _ h => hbegin h.1) fun h => absurd h hbegin
        rw [exec, Wacs.putLogEntries, mdbTxnBegin, run_status_bind, if_pos hbegin, hidle]
        rfl
    | putNotification sa value stray =>
        refine iff_of_true (keepsHandles_of_trace ?_ fun _ _ h => hbegin h.1) fun h => absurd h hbegin
        rw [exec, Wacs.putNotification, mdbTxnBegin, run_status_bind, if_pos hbegin, hidle]
        rfl

/-- The map is found full by the put of a log record, and `mdb_env_info` fails. -/
def fullThenNoInfo : Answers := fun c =>
  if c = (0, .first .log) then MDB_MAP_FULL else if c = (0, .recover .log .envInfo) then 5 else 0

/-- `putLog` aborts the transaction that `processMapFull` has aborted already. -/
theorem putLog_aborts_twice : ¬∀ (c : WriteCall) (a : Answers) (s : Engine), c.KeepsHandles a s := by
  intro h
  have hnone := (h (putLog sampleBuffer 100 ⟨0, 0⟩) fullThenNoInfo (.idle .empty)).handles.noneAfterEnd
  have htrace : ((putLog sampleBuffer 100 ⟨0, 0⟩).exec.run fullThenNoInfo (TxnStore.idle .empty).restart).2.trace =
      [.begun 1, .used 1, .ended 1, .ended 1] := by decide
  rw [htrace] at hnone
  exact absurd rfl ((noneAfterEnd_concat [.begun 1, .used 1, .ended 1] (.ended 1)).mp hnone |>.2 1 (by simp)).2

end WriteCall

end Wacs
