import Wacs.LocalActions
import Wacs.LogExact

/-! The processes that work on one store do not get in each other's way as long as they work on different
addresses: what the log and the last probes have of an address goes by the calls that concern it, whatever comes
between them. -/

namespace Wacs

open OrderBytes OrderedCursor LocalActions

/-- A call concerns the addresses it may observe or remove. -/
def Op.concerns : Op → Mac → Bool
  | .putLog buffer _, m =>
      decide (sizeofLogEntry ≤ buffer.length ∧ (ntohLogEntry (LogEntry.ofBytes buffer)).sa = m)
  | .putLogEntries records, m => records.any fun record => decide (record.sa = m)
  | .rmLog f _ _, m => decide (f.Matches m)
  | .readLog .., _ => false
  | .putNotification .., _ => false
  | .rmNotification .., _ => false

namespace LogTables

/-- What the tables have of an address: its log, second by second, and its last probe. -/
def look (T : LogTables) (m : Mac) : (UInt32 → Option LogData) × Option UInt32 :=
  (fun t => T.log.get (toLex (m, t)), T.last.get m)

theorem ext_look {T T' : LogTables} (h : ∀ m, T.look m = T'.look m) : T = T' := by
  obtain ⟨log, last⟩ := T
  obtain ⟨log', last'⟩ := T'
  have hlog : log = log' := by
    apply OrderedMap.ext_get
    intro k
    exact congrFun (congrArg Prod.fst (h (ofLex k).1)) (ofLex k).2
  have hlast : last = last' := OrderedMap.ext_get fun m => congrArg Prod.snd (h m)
  rw [hlog, hlast]

section Look

variable (T T' : LogTables) (m m' : Mac)

theorem look_observe_of_ne (t : UInt32) (d : LogData) (h : m' ≠ m) : (T.observe m t d).look m' = T.look m' := by
  refine Prod.ext (funext fun t' => ?_) (OrderedMap.get_put_of_ne _ _ h)
  have hkey : toLex (m', t') ≠ toLex (m, t) := fun heq => h (congrArg Prod.fst (toLex.injective heq))
  exact OrderedMap.get_put_of_ne _ _ hkey

theorem look_observe_congr (t : UInt32) (d : LogData) (h : T.look m' = T'.look m') :
    (T.observe m t d).look m' = (T'.observe m t d).look m' := by
  by_cases hm : m' = m
  · subst hm
    refine Prod.ext (funext fun t' => ?_) ?_
    · show (T.log.put _ d).get _ = (T'.log.put _ d).get _
      by_cases ht : t' = t
      · rw [ht, OrderedMap.get_put_self, OrderedMap.get_put_self]
      · have hkey : toLex (m', t') ≠ toLex (m', t) := fun heq => ht (congrArg Prod.snd (toLex.injective heq))
        rw [OrderedMap.get_put_of_ne _ _ hkey, OrderedMap.get_put_of_ne _ _ hkey]
        exact congrFun (congrArg Prod.fst h) t'
    · show (T.last.put m' t).get m' = (T'.last.put m' t).get m'
      rw [OrderedMap.get_put_self, OrderedMap.get_put_self]
  · rw [look_observe_of_ne T m m' t d hm, look_observe_of_ne T' m m' t d hm, h]

/-- A removal takes from what is seen at an address what it picks there. -/
theorem look_remove (picks : Mac → UInt32 → Bool) :
    look { T with log := T.log.filter fun x => !onKeys picks x } m =
      (fun t => ((T.look m).1 t).filter fun _ => !picks m t, (T.look m).2) :=
  Prod.ext (funext fun _ => OrderedMap.get_filter _ _ _) rfl

end Look

/-- A call leaves alone what is seen at an address it does not concern. -/
theorem look_step_of_not_concerns {op : Op} {m : Mac} (hop : op.concerns m = false) (T : LogTables) :
    (step T op).look m = T.look m := by
  cases op with
  | putLog buffer now =>
      simp only [Op.concerns, decide_eq_false_iff_not] at hop
      unfold step
      dsimp only
      split_ifs with hlen
      · rfl
      · exact look_observe_of_ne T _ m _ _ fun heq => hop ⟨not_lt.mp hlen, heq.symm⟩
  | putLogEntries records =>
      unfold step
      dsimp only
      induction records generalizing T with
      | nil => rfl
      | cons record records ih =>
          simp only [Op.concerns, List.any_cons, Bool.or_eq_false_iff, decide_eq_false_iff_not] at hop
          exact (ih _ hop.2).trans (look_observe_of_ne T record.sa m _ _ (Ne.symm hop.1))
  | rmLog f start finish =>
      simp only [Op.concerns, decide_eq_false_iff_not] at hop
      have hnone : ∀ t, rmLogPicks f start finish m t = false := by
        intro t
        rw [rmLogPicks, decide_eq_false (fun h => hop h.1), Bool.false_and]
      refine (look_remove T m _).trans (Prod.ext (funext fun t => ?_) rfl)
      show ((T.look m).1 t).filter (fun _ => !rmLogPicks f start finish m t) = (T.look m).1 t
      rw [hnone t]
      cases (T.look m).1 t <;> rfl
  | readLog => rfl
  | putNotification => rfl
  | rmNotification => rfl

/-- What a call leaves at an address goes by what is there before it alone. -/
theorem look_step_congr (op : Op) {m : Mac} {T T' : LogTables} (h : T.look m = T'.look m) :
    (step T op).look m = (step T' op).look m := by
  cases op with
  | putLog buffer now =>
      unfold step
      dsimp only
      split_ifs
      · exact h
      · exact look_observe_congr T T' _ m _ _ h
  | putLogEntries records =>
      unfold step
      dsimp only
      induction records generalizing T T' with
      | nil => exact h
      | cons record records ih => exact ih (look_observe_congr T T' record.sa m _ _ h)
  | rmLog f start finish =>
      refine (look_remove T m _).trans (Eq.trans ?_ (look_remove T' m _).symm)
      rw [h]
  | readLog => exact h
  | putNotification => exact h
  | rmNotification => exact h

theorem step_local : Local look step Op.concerns where
  frame := fun _ _ hop T => look_step_of_not_concerns hop T
  congr := fun op _ _ _ h => look_step_congr op h

end LogTables

/-! ### In the store -/

/-- What a store has of an address. -/
structure SameAt (s s' : Store) (m : Mac) : Prop where
  log : ∀ t d, HasLog s m t d ↔ HasLog s' m t d
  last : ∀ t, (Record.probe m t).entry ∈ s.entries ↔ (Record.probe m t).entry ∈ s'.entries

theorem Refines.sameAt {s s' : Store} {T T' : LogTables} (h : Refines s T) (h' : Refines s' T') {m : Mac}
    (hlook : T.look m = T'.look m) : SameAt s s' m where
  log := by
    intro t d
    rw [← h.log, ← h'.log]
    exact Eq.congr_left (congrFun (congrArg Prod.fst hlook) t)
  last := by
    intro t
    rw [← h.last, ← h'.last]
    exact Eq.congr_left (congrArg Prod.snd hlook)

/-- The calls that concern an address. -/
def concerning (m : Mac) (calls : List Step) : List Step := calls.filter fun c => c.1.concerns m

theorem map_concerning (m : Mac) (calls : List Step) :
    (concerning m calls).map Prod.fst = (calls.map Prod.fst).filter fun op => op.concerns m := by
  rw [concerning, List.filter_map]
  rfl

/-- **Addresses are kept apart**: after any calls the store has of an address what it has after those of the calls
alone that concern it. -/
theorem address_isolated (pad : UInt8) (calls : List Step) (hcalls : ∀ c ∈ calls, c.2.pad.key = pad) (m : Mac) :
    SameAt (run .empty calls) (run .empty (concerning m calls)) m := by
  have hconcerning : ∀ c ∈ concerning m calls, c.2.pad.key = pad := fun c hc => hcalls c (List.mem_of_mem_filter hc)
  apply (run_refines hcalls).sameAt (run_refines hconcerning)
  rw [map_concerning]
  exact LogTables.step_local.foldl_filter .empty m (calls.map Prod.fst)

/-- An import for another address than the one of the collector's message. -/
def besideImport : Step := (.putLogEntries [⟨sampleMac', 50, 1, 0⟩], filledMemory 0)

/-- The import concerns only its own address. -/
theorem address_isolated_sample :
    SameAt (run .empty [(.putLog sampleBuffer 100, filledMemory 0), besideImport]) (run .empty [besideImport])
      sampleMac' :=
  address_isolated 0 [(.putLog sampleBuffer 100, filledMemory 0), besideImport] (by simp [besideImport, filledMemory])
    sampleMac'

/-- **The order of the processes does not matter** to the log: two sequences of calls that have the calls on each
address in the same order leave the same log, which every listing shows. -/
theorem reordered_calls_agree (pad : UInt8) (calls calls' : List Step) (hcalls : ∀ c ∈ calls, c.2.pad.key = pad)
    (hcalls' : ∀ c ∈ calls', c.2.pad.key = pad)
    (hsame : ∀ m, (calls.map Prod.fst).filter (fun op => op.concerns m) =
      (calls'.map Prod.fst).filter fun op => op.concerns m) :
    logEntries (run .empty calls) = logEntries (run .empty calls') ∧
      ∀ {σ : Type} (slack : Slack) (f : Filter) (start finish : Int) (onLog : OnLog σ) (env : σ),
        handedItems (quietly (readLog slack f start finish pad (some onLog) (some env)) (run .empty calls)).1 =
          handedItems (quietly (readLog slack f start finish pad (some onLog) (some env)) (run .empty calls')).1 := by
  have h := run_refines hcalls
  have h' := run_refines hcalls'
  have htables : LogTables.empty.run (calls.map Prod.fst) = LogTables.empty.run (calls'.map Prod.fst) :=
    LogTables.ext_look fun m => LogTables.step_local.foldl_reorder .empty hsame m
  refine ⟨?_, fun slack f start finish onLog env => ?_⟩
  · rw [← h.entries, ← h'.entries, htables]
  · rw [readLog_items h slack f start finish (fun _ => ((constPads_empty pad).run hcalls).2 f.mac) onLog env,
      readLog_items h' slack f start finish (fun _ => ((constPads_empty pad).run hcalls').2 f.mac) onLog env, htables]

/-- No address is concerned by both. -/
theorem besideImport_apart (m : Mac) :
    ([(.putLog sampleBuffer 100, filledMemory 0), besideImport].map Prod.fst).filter (fun op => op.concerns m) =
      ([besideImport, (.putLog sampleBuffer 100, filledMemory 0)].map Prod.fst).filter fun op => op.concerns m := by
  have hmessage : (Op.putLog sampleBuffer 100).concerns m = decide (sampleMac = m) :=
    decide_eq_decide.mpr ⟨And.right, fun h => ⟨by decide, h⟩⟩
  have himport : besideImport.1.concerns m = decide (sampleMac' = m) := Bool.or_false _
  by_cases hm : sampleMac = m
  · have hm' : sampleMac' ≠ m := fun h => absurd (hm.trans h.symm) (by decide)
    simp [hmessage, himport, hm, hm']
  · by_cases hm' : sampleMac' = m <;> simp [hmessage, himport, hm, hm']

/-- The message and the import may come either way round. -/
theorem reordered_calls_agree_sample :
    logEntries (run .empty [(.putLog sampleBuffer 100, filledMemory 0), besideImport]) =
      logEntries (run .empty [besideImport, (.putLog sampleBuffer 100, filledMemory 0)]) :=
  (reordered_calls_agree 0 _ _ (by simp [besideImport, filledMemory]) (by simp [besideImport, filledMemory])
    besideImport_apart).1

end Wacs
