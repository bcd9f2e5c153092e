import Wacs.FaultRecovery

/-! `putLog` when the engine finds the map full: a recovery loses what the transaction held. -/

namespace Wacs

/-- The store holds the data at the key of a log record. -/
def HoldsLog (s : Store) (key : LogKey) (data : LogData) : Prop :=
  ∃ tail, s.get key.bytes = some (data.bytes tail)

/-- The store holds the time of the key as the last probe of its address. -/
def HoldsProbe (s : Store) (key : LogKey) : Prop := s.get (probeKey key.sa).bytes = some (probeValue key)

instance (s : Store) (key : LogKey) : Decidable (HoldsProbe s key) :=
  inferInstanceAs (Decidable (s.get (probeKey key.sa).bytes = some (probeValue key)))

/-- Both records of an observation are in the new store, and nothing else has changed. -/
structure Recorded (s s' : Store) (key : LogKey) (data : LogData) : Prop where
  log : HoldsLog s' key data
  probe : HoldsProbe s' key
  others : ∀ k, k ≠ key.bytes → k ≠ (probeKey key.sa).bytes → s'.get k = s.get k

theorem logKey_bytes_length (key : LogKey) : key.bytes.length = sizeofLogKey := by
  simp [LogKey.bytes, key.sa.property, sizeofTimeT, sizeofLogKey]

theorem probeKey_bytes_length (sa : Mac) : (probeKey sa).bytes.length = sizeofLastProbeKey := by
  simp [LastProbeKey.bytes, (probeKey sa).sa.property, sizeofLastProbeKey]

theorem logKey_ne_probeKey (key : LogKey) (sa : Mac) : key.bytes ≠ (probeKey sa).bytes := fun h => by
  have hlen := congrArg List.length h
  rw [logKey_bytes_length, probeKey_bytes_length] at hlen
  exact absurd hlen (by decide)

section Drops

variable (s : Store) (key : LogKey) (data : LogData) (pad : Padding)

theorem recorded_observe : Recorded s (observe key data pad s) key data where
  log := by
    refine ⟨pad.data, ?_⟩
    rw [observe, OrderedMap.get_put_of_ne _ _ (logKey_ne_probeKey key key.sa), OrderedMap.get_put_self]
  probe := OrderedMap.get_put_self _ _ _
  others := by
    intro k hlog hprobe
    rw [observe, OrderedMap.get_put_of_ne _ _ hprobe, OrderedMap.get_put_of_ne _ _ hlog]

theorem recorded_probe_only_iff : Recorded s (s.put (probeKey key.sa).bytes (probeValue key)) key data ↔
    HoldsLog s key data := by
  have hget : (s.put (probeKey key.sa).bytes (probeValue key)).get key.bytes = s.get key.bytes :=
    s.get_put_of_ne _ (logKey_ne_probeKey key key.sa)
  constructor
  · intro h
    obtain ⟨tail, htail⟩ := h.log
    exact ⟨tail, hget ▸ htail⟩
  · rintro ⟨tail, htail⟩
    refine ⟨⟨tail, hget.trans htail⟩, s.get_put_self _ _, fun k _ hprobe => ?_⟩
    exact s.get_put_of_ne _ hprobe

theorem recorded_nothing_iff : Recorded s s key data ↔ HoldsLog s key data ∧ HoldsProbe s key :=
  ⟨fun h => ⟨h.log, h.probe⟩, fun h => ⟨h.1, h.2, fun _ _ _ => rfl⟩⟩

end Drops

/-! ### Every pattern of answers -/

/-- The writes a commit of one observation publishes. -/
def publishedWrites (a : Answers) (key : LogKey) (data : LogData) (pad : Padding) : List (Bytes × Bytes) :=
  ((lossAfter a 0 .commit 2 (lossAfter a 0 .probe 1 (lossAfter a 0 .log 0 (some 0)))).map fun l =>
    (observationWrites key data pad).drop l).getD []

theorem pending_begin (s : Store) : Pending s [] (some 0) ((TxnStore.idle s).begin 0) :=
  ⟨by simp, by simp, fun _ h => (Option.some.inj h).ge⟩

theorem putLog_run (a : Answers) (buffer : Bytes) (now : Int) (pad : Padding) (s : Store)
    (hlen : ¬buffer.length < sizeofLogEntry) (hbegin : a (0, .txnBegin) = 0) :
    (((putLog buffer now pad).run a (.idle s)).1 = 0 ↔
        observationFailure a 0 = none ∧ finalStatus a 0 .commit = 0) ∧
      ((putLog buffer now pad).run a (.idle s)).2.committed =
        if observationFailure a 0 = none ∧ finalStatus a 0 .commit = 0 then
          s.putAll (publishedWrites a (bufferKey buffer now pad) (bufferData buffer) pad)
        else s := by
  obtain ⟨s₁, hrun, hcommitted, hnext⟩ := (pending_begin s).observation (a := a) 0
    (bufferKey buffer now pad) (bufferData buffer) pad
  rw [putLog_eq now pad hlen]
  simp only [mdbTxnBegin, OracleM.run_status_bind, hbegin, ne_eq, not_true_eq_false, if_false,
    OracleM.run_bind_of _ _ _ _ hrun]
  cases hfail : observationFailure a 0 with
  | some code =>
      have hcode : code ≠ 0 := (observationFailure_neg hfail).ne
      simp [hcode, hcommitted]
  | none =>
      obtain ⟨s₂, hrun', hcommitted'⟩ := (hnext hfail).commit (a := a) 0 .commit
      simp only [OracleM.run_bind_of _ _ _ _ hrun', true_and]
      by_cases hzero : finalStatus a 0 .commit = 0
      · simp only [hzero, not_true_eq_false, if_false, if_true, OracleM.run_pure, true_and]
        rw [hcommitted', if_pos hzero]
        rfl
      · simp only [hzero, not_false_eq_true, if_true, if_false, OracleM.run_pure]
        refine ⟨by decide, ?_⟩
        rw [hcommitted', if_neg hzero]

/-! ### A full map and nothing else -/

/-- The engine answers the puts and commits with success or a full map, every other call with success. -/
structure MapFullOnly (a : Answers) : Prop where
  first : ∀ turn p, a (turn, .first p) = 0 ∨ a (turn, .first p) = MDB_MAP_FULL
  again : ∀ turn p, a (turn, .again p) = 0 ∨ a (turn, .again p) = MDB_MAP_FULL
  other : ∀ turn c, (∀ p, c ≠ .first p ∧ c ≠ .again p) → a (turn, c) = 0

/-- The call finds the map full again after the recovery. -/
def FullTwice (a : Answers) (p : Phase) : Prop := Full a 0 p ∧ a (0, .again p) = MDB_MAP_FULL

instance (a : Answers) (p : Phase) : Decidable (FullTwice a p) :=
  inferInstanceAs (Decidable (Full a 0 p ∧ a (0, .again p) = MDB_MAP_FULL))

namespace MapFullOnly

variable {a : Answers} (h : MapFullOnly a)

include h

theorem recoverStatus_eq (turn : Nat) (p : Phase) : recoverStatus a turn p = 0 := by
  simp [recoverStatus, openDbOk, h.other]

theorem recoverLive_eq (turn : Nat) (p : Phase) : recoverLive a turn p = true := by
  simp [recoverLive, openDbOk, h.other]

theorem finalStatus_eq_zero_iff (p : Phase) : finalStatus a 0 p = 0 ↔ ¬FullTwice a p := by
  unfold finalStatus FullTwice Full
  rcases h.first 0 p with hf | hf
  · simp [hf, zero_ne_mapFull]
  · rcases h.again 0 p with ha | ha
    · simp [hf, ha, h.recoverStatus_eq, zero_ne_mapFull]
    · simp [hf, ha, h.recoverStatus_eq, zero_ne_mapFull.symm]

theorem succeeds_iff : observationFailure a 0 = none ∧ finalStatus a 0 .commit = 0 ↔
    ¬FullTwice a .log ∧ ¬FullTwice a .probe ∧ ¬FullTwice a .commit := by
  rw [← h.finalStatus_eq_zero_iff, ← h.finalStatus_eq_zero_iff, ← h.finalStatus_eq_zero_iff]
  unfold observationFailure
  by_cases hlog : finalStatus a 0 .log = 0
  · by_cases hprobe : finalStatus a 0 .probe = 0
    · simp [hlog, hprobe]
    · simp [hlog, hprobe]
  · simp [hlog]

/-- A recovery at the probe loses the log record, one at the commit loses both. -/
theorem publishedWrites_eq (key : LogKey) (data : LogData) (pad : Padding) :
    publishedWrites a key data pad = (observationWrites key data pad).drop
      (if Full a 0 .commit then 2 else if Full a 0 .probe then 1 else 0) := by
  unfold publishedWrites lossAfter
  simp only [h.recoverLive_eq, if_true, ite_self]
  split_ifs <;> rfl

end MapFullOnly

/-- `putLog` with a return of 0 has both records committed, and with any other return nothing. -/
def Durable (a : Answers) (buffer : Bytes) (now : Int) (pad : Padding) (s : Store) : Prop :=
  (((putLog buffer now pad).run a (.idle s)).1 = 0 →
    Recorded s ((putLog buffer now pad).run a (.idle s)).2.committed (bufferKey buffer now pad)
      (bufferData buffer)) ∧
  (((putLog buffer now pad).run a (.idle s)).1 ≠ 0 →
    ((putLog buffer now pad).run a (.idle s)).2.committed = s)

/-- `putLog` is durable exactly when it gives up on a call that finds the map full twice, or the records a
recovery loses were in the store before: the log record for a full map at the probe or the commit, the
probe record for one at the commit. -/
theorem putLog_durable_iff (a : Answers) (ha : MapFullOnly a) (buffer : Bytes)
    (hlen : ¬buffer.length < sizeofLogEntry) (now : Int) (pad : Padding) (s : Store) :
    Durable a buffer now pad s ↔
      (FullTwice a .log ∨ FullTwice a .probe ∨ FullTwice a .commit) ∨
        ((Full a 0 .probe ∨ Full a 0 .commit → HoldsLog s (bufferKey buffer now pad) (bufferData buffer)) ∧
          (Full a 0 .commit → HoldsProbe s (bufferKey buffer now pad))) := by
  obtain ⟨hreturn, hcommitted⟩ := putLog_run a buffer now pad s hlen
    (ha.other 0 .txnBegin fun p => ⟨by simp, by simp⟩)
  have hsucceeds := ha.succeeds_iff
  unfold Durable
  by_cases hsucc : observationFailure a 0 = none ∧ finalStatus a 0 .commit = 0
  · obtain ⟨hlog, hprobe, hcommit⟩ := hsucceeds.mp hsucc
    have hzero := hreturn.mpr hsucc
    rw [if_pos hsucc, ha.publishedWrites_eq] at hcommitted
    simp only [hzero, hcommitted, hlog, hprobe, hcommit, true_implies, ne_eq, not_true_eq_false,
      false_implies, and_true, or_self, false_or]
    by_cases hc : Full a 0 .commit
    · simp only [hc, if_true, or_true, true_implies]
      exact recorded_nothing_iff s _ _
    · by_cases hp : Full a 0 .probe
      · simp only [hc, hp, if_true, if_false, or_false, true_implies, false_implies, and_true]
        exact recorded_probe_only_iff s _ _
      · simp only [hc, hp, if_false, or_self, false_implies, and_self, iff_true]
        exact recorded_observe s _ _ pad
  · have hne := mt hreturn.mp hsucc
    rw [if_neg hsucc] at hcommitted
    have htwice : FullTwice a .log ∨ FullTwice a .probe ∨ FullTwice a .commit := by
      by_contra hno
      simp only [not_or] at hno
      exact hsucc (hsucceeds.mpr hno)
    exact iff_of_true ⟨fun h => absurd h hne, fun _ => hcommitted⟩ (Or.inl htwice)

/-- The map is found full once, by the commit. -/
def fullAtCommit : Answers := fun c => if c = (0, .first .commit) then MDB_MAP_FULL else 0

theorem fullAtCommit_mapFullOnly : MapFullOnly fullAtCommit where
  first := by
    intro turn p
    unfold fullAtCommit
    split_ifs
    · exact Or.inr rfl
    · exact Or.inl rfl
  again := fun turn p => Or.inl (if_neg (by simp))
  other := fun turn c h => if_neg (by simpa using fun _ => (h .commit).1)

/-- The map is full at the commit of a message that was stored before. -/
theorem putLog_durable_again :
    Durable fullAtCommit sampleBuffer 100 ⟨0, 0⟩ (quietly (putLog sampleBuffer 100 ⟨0, 0⟩) .empty).2 :=
  (putLog_durable_iff fullAtCommit fullAtCommit_mapFullOnly sampleBuffer (by decide) 100 ⟨0, 0⟩ _).mpr
    (Or.inr ⟨fun _ => ⟨0, by decide⟩, fun _ => by decide⟩)

/-- `putLog` reports success and has committed nothing. -/
theorem putLog_loses_record : ¬∀ (a : Answers) (buffer : Bytes) (now : Int) (pad : Padding) (s : Store),
    MapFullOnly a → buffer.length = sizeofLogEntry → Durable a buffer now pad s := by
  intro h
  have hprobe := ((h fullAtCommit sampleBuffer 100 ⟨0, 0⟩ .empty fullAtCommit_mapFullOnly rfl).1 (by decide)).probe
  exact absurd hprobe (by decide)

end Wacs
