import Wacs.WacscMain

/-! Sessions: commands of `wacsc`, one after the other, on the database a collector writes to. Each command comes down
to calls, the calls to a change of the tables, and what the commands on the log print is told by the tables. -/

namespace Wacs.Wacsc

open OrderBytes OrderedCursor OrderedPages TextNumeral HistogramMacsPerTime

/-! ### Commands as calls -/

/-- The calls of `notificationRm`, which ends with the first that removes anything. -/
def rmSteps : Store → List (Bytes × Memory) → List Step
  | _, [] => []
  | s, (text, mem) :: mac =>
      if (strtomacaddress text).1 < 0 then []
      else
        let r := quietly (rmNotification mem.slack (notePrefix text)) s
        (.rmNotification (notePrefix text), mem) :: if r.1 ≠ 0 then [] else rmSteps r.2 mac

theorem notificationRm_store (s : Store) (mac : List (Bytes × Memory)) :
    (notificationRm s mac).2 = run s (rmSteps s mac) := by
  induction mac generalizing s with
  | nil => rfl
  | cons x mac ih =>
      obtain ⟨text, mem⟩ := x
      unfold notificationRm rmSteps
      dsimp only
      by_cases hblank : (strtomacaddress text).1 < 0
      · rw [if_pos hblank, if_pos hblank]
        rfl
      · rw [if_neg hblank, if_neg hblank]
        by_cases hends : (quietly (rmNotification mem.slack (notePrefix text)) s).1 ≠ 0
        · rw [if_pos hends, if_pos hends]
          rfl
        · rw [if_neg hends, if_neg hends]
          exact ih _

theorem mem_rmSteps {s : Store} {mac : List (Bytes × Memory)} {c : Step} (h : c ∈ rmSteps s mac) :
    ∃ x ∈ mac, c = (.rmNotification (notePrefix x.1), x.2) := by
  induction mac generalizing s with
  | nil => cases h
  | cons x mac ih =>
      obtain ⟨text, mem⟩ := x
      unfold rmSteps at h
      dsimp only at h
      by_cases hblank : (strtomacaddress text).1 < 0
      · rw [if_pos hblank] at h
        cases h
      · rw [if_neg hblank, List.mem_cons] at h
        rcases h with rfl | hmem
        · exact ⟨(text, mem), List.mem_cons_self, rfl⟩
        · split_ifs at hmem
          · cases hmem
          · obtain ⟨y, hy, rfl⟩ := ih hmem
            exact ⟨y, List.mem_cons_of_mem _ hy, rfl⟩

section Steps

variable (config : Config) (sur : Surroundings)

/-- The calls a command makes on the store it finds. -/
def Config.steps (s : Store) : List Step :=
  if !sur.opens then []
  else
    match config.cmd with
    | .remove => removeSteps config.start config.finish (config.texts sur)
    | .logRead => [(.putLogEntries (supplied sur.zone sur.record sur.input), sur.memory 0)]
    | .logNotificationPut =>
        if validMacs (config.texts sur) = false ∨ sur.input.length = 0 then []
        else ((config.texts sur).filter WholeMac).map (putStep sur.input)
    | .logNotificationRm => rmSteps s (config.texts sur)
    | _ => []

theorem withDb_store {σ : Type} (s : Store) (env : σ) (work : Option Int × σ × Store) :
    (withDb sur s env work).store = if !sur.opens then s else work.2.2 := by
  unfold withDb
  split_ifs <;> rfl

/-- A command leaves the store that its calls leave. -/
theorem command_store (calls : List Step) :
    (command config sur (run .empty calls)).2 = run .empty (calls ++ config.steps sur (run .empty calls)) := by
  have hsame : ∀ {σ : Type} (env : σ) (r : Option Int) (env' : σ),
      (withDb sur (run .empty calls) env (r, env', run .empty calls)).store = run .empty calls := by
    intro σ env r env'
    rw [withDb_store, ite_self]
  unfold command Config.steps
  cases hcmd : config.cmd with
  | none => simp
  | sendTest => simp
  | lsLog => simp [listing, hsame]
  | lsLastProbe => simp [listing, hsame]
  | countLog => simp [listing, hsame]
  | countLastProbe => simp [listing, hsame]
  | macsPerTime => simp [histogram, hsame]
  | logNotification => simp [notificationList, hsame]
  | remove =>
      simp only [removal, withDb_store]
      split_ifs
      · rw [List.append_nil]
      · exact rmLogFrom_store config.start config.finish 0 calls (config.texts sur)
  | logRead =>
      simp only [loadLog, withDb_store]
      split_ifs
      · rw [List.append_nil]
      · rw [run_append]
        rfl
  | logNotificationPut =>
      simp only [notificationPutDb]
      by_cases hrefused : validMacs (config.texts sur) = false ∨ sur.input.length = 0
      · rw [if_pos hrefused, if_pos hrefused, ite_self, List.append_nil]
      · rw [if_neg hrefused, if_neg hrefused, withDb_store, notificationPutFrom_eq (fun h => hrefused (Or.inr h))]
        split_ifs
        · rw [List.append_nil]
        · exact (run_append .empty calls _).symm
  | logNotificationRm =>
      simp only [notificationRmDb, withDb_store]
      split_ifs
      · rw [List.append_nil]
      · rw [run_append]
        exact notificationRm_store _ _

end Steps

/-- What a command means for the tables. -/
def Config.means (config : Config) (sur : Surroundings) (T : LogTables) : LogTables :=
  if !sur.opens then T
  else
    match config.cmd with
    | .remove => T.run (config.mac.map fun text => .rmLog (macFilter text) config.start config.finish)
    | .logRead => T.step (.putLogEntries (supplied sur.zone sur.record sur.input))
    | _ => T

section Meaning

variable (config : Config) (sur : Surroundings) (s : Store)

theorem texts_padded {pad : UInt8} (hpad : ∀ i, (sur.memory i).pad.key = pad) :
    ∀ x ∈ config.texts sur, x.2.pad.key = pad := by
  intro x hx
  obtain ⟨y, -, rfl⟩ := List.mem_map.mp hx
  exact hpad y.2

theorem Config.steps_padded {pad : UInt8} (hpad : ∀ i, (sur.memory i).pad.key = pad) :
    ∀ c ∈ config.steps sur s, c.2.pad.key = pad := by
  have htexts := texts_padded config sur hpad
  intro c hc
  unfold Config.steps at hc
  by_cases hopens : (!sur.opens) = true
  · rw [if_pos hopens] at hc
    cases hc
  · rw [if_neg hopens] at hc
    split at hc
    · obtain ⟨x, hx, rfl⟩ := List.mem_map.mp hc
      exact htexts x hx
    · obtain rfl := List.mem_singleton.mp hc
      exact hpad 0
    · split_ifs at hc
      · cases hc
      · obtain ⟨x, hx, rfl⟩ := List.mem_map.mp hc
        exact htexts x (List.mem_of_mem_filter hx)
    · obtain ⟨x, hx, rfl⟩ := mem_rmSteps hc
      exact htexts x hx
    · cases hc

/-- Calls on the notifications mean nothing to the tables. -/
theorem run_onNotes {ops : List Op} (h : ∀ op ∈ ops, op.OnNotes) (T : LogTables) : T.run ops = T := by
  induction ops generalizing T with
  | nil => rfl
  | cons op ops ih =>
      have hop := h op List.mem_cons_self
      have hstep : T.step op = T := by
        cases op with
        | putNotification => rfl
        | rmNotification => rfl
        | putLog => exact hop.elim
        | putLogEntries => exact hop.elim
        | readLog => exact hop.elim
        | rmLog => exact hop.elim
      have hrest := ih (fun op' hop' => h op' (List.mem_cons_of_mem _ hop')) T
      exact (congrArg (fun T => LogTables.run T ops) hstep).trans hrest

theorem map_removeSteps : (removeSteps config.start config.finish (config.texts sur)).map Prod.fst =
    config.mac.map fun text => .rmLog (macFilter text) config.start config.finish := by
  calc (removeSteps config.start config.finish (config.texts sur)).map Prod.fst
      = (config.mac.zipIdx.map Prod.fst).map fun text => .rmLog (macFilter text) config.start config.finish := by
        rw [removeSteps, Config.texts, List.map_map, List.map_map, List.map_map]
        rfl
    _ = _ := by rw [List.zipIdx_map_fst]

/-- The calls of a command mean for the tables what the command does. -/
theorem Config.run_steps (T : LogTables) : T.run ((config.steps sur s).map Prod.fst) = config.means sur T := by
  have hputs : ∀ op ∈ (((config.texts sur).filter WholeMac).map (putStep sur.input)).map Prod.fst, op.OnNotes := by
    intro op hop
    obtain ⟨c, hc, rfl⟩ := List.mem_map.mp hop
    obtain ⟨x, -, rfl⟩ := List.mem_map.mp hc
    trivial
  have hremovals : ∀ op ∈ (rmSteps s (config.texts sur)).map Prod.fst, op.OnNotes := by
    intro op hop
    obtain ⟨c, hc, rfl⟩ := List.mem_map.mp hop
    obtain ⟨x, -, rfl⟩ := mem_rmSteps hc
    trivial
  have hmap := map_removeSteps config sur
  unfold Config.steps Config.means
  by_cases hopens : (!sur.opens) = true
  · rw [if_pos hopens, if_pos hopens]
    rfl
  · rw [if_neg hopens, if_neg hopens]
    cases config.cmd with
    | remove => exact congrArg T.run hmap
    | logRead => rfl
    | logNotificationPut =>
        dsimp only
        split_ifs
        · rfl
        · exact run_onNotes hputs T
    | logNotificationRm => exact run_onNotes hremovals T
    | none => rfl
    | sendTest => rfl
    | lsLog => rfl
    | lsLastProbe => rfl
    | countLog => rfl
    | countLastProbe => rfl
    | macsPerTime => rfl
    | logNotification => rfl

end Meaning

/-! ### Sessions -/

/-- What happens to the database: the collector stores a message it has received, or a command is run. -/
inductive Event where
  | message (buffer : Bytes) (now : Int) (mem : Memory)
  | command (line : CommandLine) (sur : Surroundings)

namespace Event

def steps (s : Store) : Event → List Step
  | message buffer now mem => [(.putLog buffer now, mem)]
  | command line sur =>
      let config := parseCmd sur.zone sur.now line
      if config.errorcode ≠ 0 then [] else config.steps sur s

def exec (s : Store) : Event → Store
  | message buffer now mem => (perform s (.putLog buffer now, mem)).2
  | command line sur => (main line sur s).2

/-- One alignment byte in all the keys that are built. -/
def Padded (pad : UInt8) : Event → Prop
  | message _ _ mem => mem.pad.key = pad
  | command _ sur => ∀ i, (sur.memory i).pad.key = pad

/-- What an event means for the tables, whatever memory its calls meet. -/
def means (T : LogTables) : Event → LogTables
  | message buffer now _ => T.step (.putLog buffer now)
  | command line sur =>
      let config := parseCmd sur.zone sur.now line
      if config.errorcode ≠ 0 then T else config.means sur T

end Event

/-- The database after a session. -/
def session (events : List Event) : Store := events.foldl Event.exec .empty

/-- The calls of a session. -/
def sessionCalls (events : List Event) : List Step :=
  events.foldl (fun calls e => calls ++ e.steps (run .empty calls)) []

theorem session_concat (events : List Event) (e : Event) : session (events ++ [e]) = e.exec (session events) := by
  rw [session, List.foldl_append]
  rfl

theorem sessionCalls_concat (events : List Event) (e : Event) :
    sessionCalls (events ++ [e]) = sessionCalls events ++ e.steps (run .empty (sessionCalls events)) := by
  rw [sessionCalls, List.foldl_append]
  rfl

theorem Event.exec_run (e : Event) (calls : List Step) :
    e.exec (run .empty calls) = run .empty (calls ++ e.steps (run .empty calls)) := by
  cases e with
  | message buffer now mem => exact (run_concat .empty calls _).symm
  | command line sur =>
      unfold Event.exec Event.steps main
      dsimp only
      split_ifs
      · rw [List.append_nil]
      · exact command_store _ sur calls

theorem session_eq_run (events : List Event) : session events = run .empty (sessionCalls events) := by
  induction events using List.reverseRecOn with
  | nil => rfl
  | append_singleton events e ih => rw [session_concat, sessionCalls_concat, ih, Event.exec_run]

/-! ### The tables -/

theorem Event.steps_padded {e : Event} {pad : UInt8} (h : e.Padded pad) (s : Store) :
    ∀ c ∈ e.steps s, c.2.pad.key = pad := by
  cases e with
  | message buffer now mem =>
      intro c hc
      obtain rfl := List.mem_singleton.mp hc
      exact h
  | command line sur =>
      unfold Event.steps
      dsimp only
      split_ifs
      · exact fun c hc => absurd hc List.not_mem_nil
      · exact Config.steps_padded _ sur s h

theorem Event.run_steps (e : Event) (s : Store) (T : LogTables) : T.run ((e.steps s).map Prod.fst) = e.means T := by
  cases e with
  | message buffer now mem => rfl
  | command line sur =>
      unfold Event.steps Event.means
      dsimp only
      split_ifs
      · rfl
      · exact Config.run_steps _ sur s T

theorem sessionCalls_padded {pad : UInt8} {events : List Event} (h : ∀ e ∈ events, e.Padded pad) :
    ∀ c ∈ sessionCalls events, c.2.pad.key = pad := by
  induction events using List.reverseRecOn with
  | nil => exact fun c hc => absurd hc List.not_mem_nil
  | append_singleton events e ih =>
      intro c hc
      rw [sessionCalls_concat] at hc
      rcases List.mem_append.mp hc with hc | hc
      · exact ih (fun e he => h e (List.mem_append_left _ he)) c hc
      · exact Event.steps_padded (h e (List.mem_append_right _ List.mem_cons_self)) _ c hc

/-- The tables a session means. -/
def sessionTables (events : List Event) : LogTables := events.foldl Event.means .empty

theorem run_sessionCalls (events : List Event) :
    LogTables.empty.run ((sessionCalls events).map Prod.fst) = sessionTables events := by
  induction events using List.reverseRecOn with
  | nil => rfl
  | append_singleton events e ih =>
      have hmeans : sessionTables (events ++ [e]) = e.means (sessionTables events) := List.foldl_append
      rw [sessionCalls_concat, List.map_append, LogTables.run_append, ih, hmeans, Event.run_steps]

/-- The database of a session stands for its tables. -/
theorem session_refines {pad : UInt8} {events : List Event} (h : ∀ e ∈ events, e.Padded pad) :
    Refines (session events) (sessionTables events) ∧ ConstPads (session events) pad := by
  have hcalls := sessionCalls_padded h
  rw [session_eq_run, ← run_sessionCalls]
  exact ⟨run_refines hcalls, ((constPads_empty pad).run hcalls).2⟩

end Wacs.Wacsc
