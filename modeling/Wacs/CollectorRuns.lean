import Wacs.LmdbWriter
import Wacs.LogExact

/-! What a turn of the collector leaves in its database, whatever it receives and whatever the engine answers: the
observation of the message if it acknowledges it, and else nothing. -/

namespace Wacs

open OracleM OrderedCursor

section PutLog

variable (a : Answers)

/-- How many of the two writes of an observation go with the transactions that are aborted for a full map. -/
def lostWrites : Nat := (lossAfter a 0 .commit 2 (lossAfter a 0 .probe 1 (lossAfter a 0 .log 0 (some 0)))).getD 2

/-- Without a full map nothing goes. -/
theorem lostWrites_eq_zero (h : ∀ p, ¬Full a 0 p) : lostWrites a = 0 := by
  rw [lostWrites, lossAfter, if_neg (h .commit), lossAfter, if_neg (h .probe), lossAfter, if_neg (h .log),
    Option.getD_some]

/-- A recovery at the probe loses the log record, one at the commit loses both. -/
theorem lostWrites_eq (h : ∀ p, recoverLive a 0 p = true) :
    lostWrites a = if Full a 0 .commit then 2 else if Full a 0 .probe then 1 else 0 := by
  unfold lostWrites lossAfter
  simp only [h, if_true, ite_self]
  split_ifs <;> rfl

theorem publishedWrites_eq_drop (key : LogKey) (data : LogData) (pad : Padding) :
    publishedWrites a key data pad = (observationWrites key data pad).drop (lostWrites a) := by
  unfold publishedWrites lostWrites
  cases lossAfter a 0 .commit 2 (lossAfter a 0 .probe 1 (lossAfter a 0 .log 0 (some 0))) with
  | none => rfl
  | some l => rfl

theorem pending_begin_any (s : Engine) : Pending s.committed [] (some 0) (s.begin 0) :=
  ⟨s.begin_committed 0, by simp, fun _ h => (Option.some.inj h).ge⟩

/-- `putLog` on any state of the engine: what it stores it has acknowledged. -/
theorem putLog_committed (buffer : Bytes) (now : Int) (pad : Padding) (s : Engine) :
    ((putLog buffer now pad).run a s).2.committed =
      if ((putLog buffer now pad).run a s).1 = 0 then
        s.committed.putAll ((observationWrites (bufferKey buffer now pad) (bufferData buffer) pad).drop (lostWrites a))
      else s.committed := by
  rw [← publishedWrites_eq_drop]
  by_cases hlen : buffer.length < sizeofLogEntry
  · rw [putLog, if_pos hlen]
    exact (if_neg (show ERRCODE_NO_MEMORY ≠ 0 by decide)).symm
  rw [putLog_eq now pad hlen, mdbTxnBegin, run_status_bind]
  by_cases hbegin : a (0, .txnBegin) = 0
  swap
  · rw [if_pos hbegin, TxnStore.begin_of_ne s hbegin]
    exact (if_neg (show ERRCODE_LMDB_TXN_BEGIN ≠ 0 by decide)).symm
  rw [hbegin, if_neg (not_not_intro rfl)]
  obtain ⟨s₁, hrun, hcommitted, hnext⟩ := (pending_begin_any s).observation (a := a) 0
    (bufferKey buffer now pad) (bufferData buffer) pad
  rw [run_bind_of _ _ _ _ hrun]
  cases hfail : observationFailure a 0 with
  | some code =>
      have hcode : code ≠ 0 := (observationFailure_neg hfail).ne
      dsimp only
      rw [run_pure, if_neg hcode]
      exact hcommitted
  | none =>
      obtain ⟨s₂, hrun', hcommitted'⟩ := (hnext hfail).commit (a := a) 0 .commit
      dsimp only
      rw [run_bind_of _ _ _ _ hrun', run_ite]
      by_cases hzero : finalStatus a 0 .commit = 0
      · rw [if_pos hzero] at hcommitted'
        rw [if_neg (not_not_intro hzero), run_pure, if_pos hzero]
        exact hcommitted'
      · rw [if_neg hzero] at hcommitted'
        rw [if_pos hzero, run_pure, if_neg (show ERRCODE_LMDB_TXN_COMMIT ≠ 0 by decide)]
        exact hcommitted'

end PutLog

namespace Lmdb

/-! ### The turns of a run -/

/-- The message of a turn that `putLog` acknowledges with zero. -/
def Turn.acknowledged (t : Turn) : Option (Bytes × Int) :=
  match t.received with
  | .message buffer now =>
      if ((putLog buffer now t.pad).run t.answers (.idle .empty)).1 = 0 then some (buffer, now) else none
  | .interrupted => none
  | .timedOut => none
  | .failed => none

/-- The two writes of the message acknowledged. -/
def Turn.observation (t : Turn) : List (Bytes × Bytes) :=
  match t.acknowledged with
  | some (buffer, now) => observationWrites (bufferKey buffer now t.pad) (bufferData buffer) t.pad
  | none => []

/-- The writes a turn leaves in the database. -/
def Turn.writes (t : Turn) : List (Bytes × Bytes) := t.observation.drop (lostWrites t.answers)

/-- With room in the map both writes stay. -/
theorem Turn.writes_of_room {t : Turn} (h : ∀ p, ¬Full t.answers 0 p) : t.writes = t.observation := by
  rw [writes, lostWrites_eq_zero _ h, List.drop_zero]

theorem Turn.writes_of_none {t : Turn} (h : t.acknowledged = none) : t.writes = [] := by
  rw [writes, observation, h, List.drop_nil]

/-- What `putLog` returns does not go by the state of the engine. -/
theorem putLog_zero_iff (t : Turn) (buffer : Bytes) (now : Int) (s : Engine) :
    ((putLog buffer now t.pad).run t.answers s).1 = 0 ↔
      ((putLog buffer now t.pad).run t.answers (.idle .empty)).1 = 0 :=
  (putLog_eq_zero_iff t.answers buffer now t.pad s).trans
    (putLog_eq_zero_iff t.answers buffer now t.pad (.idle .empty)).symm

theorem turn_committed (snmpAgent : Bool) (w : Writer) (t : Turn) :
    (turn snmpAgent w t).env.committed = w.env.committed.putAll t.writes := by
  obtain ⟨received, stale, pad, answers⟩ := t
  cases received with
  | message buffer now =>
      have hzero := putLog_zero_iff ⟨.message buffer now, stale, pad, answers⟩ buffer now w.env
      have hstore := putLog_committed answers buffer now pad w.env
      unfold Turn.writes Turn.observation Turn.acknowledged
      dsimp only at hzero ⊢
      by_cases hacked : ((putLog buffer now pad).run answers (.idle .empty)).1 = 0
      · rw [if_pos (hzero.mpr hacked)] at hstore
        rw [if_pos hacked]
        exact hstore
      · rw [if_neg (mt hzero.mp hacked)] at hstore
        rw [if_neg hacked, List.drop_nil]
        exact hstore
  | interrupted =>
      rw [Turn.writes_of_none rfl]
      rfl
  | timedOut =>
      rw [Turn.writes_of_none rfl]
      rfl
  | failed =>
      rw [Turn.writes_of_none rfl]
      rfl

/-- A turn of a message that is stored. -/
def sampleTurn : Turn := { shortTurn with received := .message sampleBuffer 100 }

/-! ### Without a full map -/

/-- The call that a message acknowledged comes to. -/
def Turn.step (t : Turn) : Option Step :=
  t.acknowledged.map fun m => (.putLog m.1 m.2, { filledMemory 0 with pad := t.pad })

theorem Turn.acknowledged_length {t : Turn} {buffer : Bytes} {now : Int} (h : t.acknowledged = some (buffer, now)) :
    ¬buffer.length < sizeofLogEntry := by
  unfold Turn.acknowledged at h
  cases hreceived : t.received with
  | message buffer' now' =>
      rw [hreceived] at h
      dsimp only at h
      split_ifs at h with hzero
      · obtain ⟨rfl, rfl⟩ := Prod.mk.inj (Option.some.inj h)
        exact not_lt.mpr ((putLog_eq_zero_iff t.answers _ _ t.pad (.idle .empty)).mp hzero).length
  | interrupted =>
      rw [hreceived] at h
      cases h
  | timedOut =>
      rw [hreceived] at h
      cases h
  | failed =>
      rw [hreceived] at h
      cases h

/-- What a message acknowledged leaves is what its call does. -/
theorem putAll_observation (t : Turn) (s : Store) : s.putAll t.observation = run s t.step.toList := by
  unfold Turn.observation Turn.step
  cases hacked : t.acknowledged with
  | none => rfl
  | some m =>
      have hquiet := putLog_quiet m.1 m.2 t.pad s
      rw [if_neg (Turn.acknowledged_length hacked)] at hquiet
      exact (congrArg Prod.snd hquiet).symm

/-- The calls that the messages acknowledged come to. -/
def steps (ts : List Turn) : List Step := ts.filterMap Turn.step

theorem putAll_steps {ts : List Turn} (hfull : ∀ t ∈ ts, ∀ p, ¬Full t.answers 0 p) (s : Store) :
    s.putAll (ts.flatMap Turn.writes) = run s (steps ts) := by
  induction ts generalizing s with
  | nil => rfl
  | cons t ts ih =>
      have hwrites := Turn.writes_of_room (hfull t List.mem_cons_self)
      have hsteps : steps (t :: ts) = t.step.toList ++ steps ts := by
        unfold steps
        cases hstep : t.step with
        | none => rw [List.filterMap_cons_none hstep, Option.toList_none, List.nil_append]
        | some c => rw [List.filterMap_cons_some hstep, Option.toList_some, List.singleton_append]
      rw [List.flatMap_cons, OrderedMap.putAll_append, hwrites, putAll_observation, hsteps, run_append]
      exact ih (fun t' ht' => hfull t' (List.mem_cons_of_mem _ ht')) _

theorem steps_pad {ts : List Turn} {pad : UInt8} (hpads : ∀ t ∈ ts, t.pad.key = pad) :
    ∀ c ∈ steps ts, c.2.pad.key = pad := by
  intro c hc
  obtain ⟨t, ht, hstep⟩ := List.mem_filterMap.mp hc
  obtain ⟨m, -, rfl⟩ := Option.map_eq_some_iff.mp hstep
  exact hpads t ht

end Lmdb

end Wacs
