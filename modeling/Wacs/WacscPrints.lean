import Wacs.ScanStatus
import Wacs.WacscSession

/-! What the commands of `wacsc` print: the listings what the tables of the session say, the counts the number of
lines the listings print, and the removals the number of records the database has lost. -/

namespace Wacs.Wacsc

open OrderBytes OrderedCursor OrderedPages TextNumeral HistogramMacsPerTime

/-! ### Listings -/

/-- The page of a configuration; without a count there is no limit, and nothing comes before an end that wraps. -/
def Config.pageOf (config : Config) (items : List LogItem) : List LogItem :=
  if sizeT config.count = -1 then items.drop config.offset.toNat
  else if config.offset.toNat + (sizeT config.count).toNat < 2 ^ 64 then
    page config.offset.toNat (sizeT config.count).toNat items
  else []

/-- The entries of the log that a command is about; a database that cannot be opened has none. -/
def Config.answer (config : Config) (sur : Surroundings) (T : LogTables) : List LogItem :=
  if !sur.opens then [] else T.selected (config.mac.map macFilter) config.start config.finish

theorem map_filters (config : Config) (sur : Surroundings) :
    (config.filters sur).map Prod.fst = config.mac.map macFilter := by
  calc (config.filters sur).map Prod.fst = (config.mac.zipIdx.map Prod.fst).map macFilter := by
        rw [Config.filters, Config.texts, List.map_map, List.map_map, List.map_map]
        rfl
    _ = config.mac.map macFilter := by rw [List.zipIdx_map_fst]

theorem withDb_env {σ : Type} (sur : Surroundings) (s : Store) (env : σ) (r : Int) (env' : σ) (s' : Store) :
    (withDb sur s env (some r, env', s')).env = if !sur.opens then env else env' := by
  unfold withDb
  split_ifs with hopens hfault
  · rfl
  · cases hfault
  · rfl
  · rfl

/-- What a command that lists the log comes to. -/
theorem wholeAnswer_filters {s : Store} {T : LogTables} (h : Refines s T) {pad : UInt8} (hpads : ConstPads s pad)
    (config : Config) {sur : Surroundings} (hsur : ∀ i, (sur.memory i).pad.key = pad) :
    wholeAnswer .log config.start config.finish s (config.filters sur) =
      T.selected (config.mac.map macFilter) config.start config.finish := by
  have hfilters : ∀ x ∈ config.filters sur, x.2.pad.key = pad := by
    intro x hx
    obtain ⟨y, hy, rfl⟩ := List.mem_map.mp hx
    exact texts_padded config sur hsur y hy
  rw [h.wholeAnswer hpads hfilters, map_filters]

section Listing

variable (config : Config) (sur : Surroundings) (scan : Listed) (calls : List Step)

/-- The whole answer of a command, over the store as it finds it. -/
def Config.whole : List LogItem :=
  if !sur.opens then [] else wholeAnswer scan config.start config.finish (run .empty calls) (config.filters sur)

theorem pageOf_nil : config.pageOf [] = [] := by
  unfold Config.pageOf page
  split_ifs
  · exact List.drop_nil
  · rw [List.drop_nil, List.take_nil]
  · rfl

/-- A listing prints its page of the whole answer. -/
theorem listing_out (z : Zone)
    (hlen : sizeT config.count = -1 → (config.whole sur scan calls).length ≤ 2 ^ 64 ∨ config.offset = 0) :
    (listing config sur (run .empty calls) scan (onLog z) config.reqEnv).env.out =
      (config.pageOf (config.whole sur scan calls)).flatMap (logLine z) := by
  unfold listing Config.whole at *
  dsimp only
  rw [withDb_env]
  split_ifs at hlen ⊢ with hopens
  · rw [pageOf_nil]
    rfl
  · unfold Config.pageOf Config.reqEnv
    split_ifs with hall hbound
    · rw [hall]
      exact list_out_rest calls scan config.start config.finish (config.filters sur) z config.offset (hlen hall)
    · exact list_out_page calls scan config.start config.finish (config.filters sur) z config.offset _ hbound hall
    · rw [list_out, if_neg hall, Pager.pass_wrapped (not_lt.mp hbound)]

theorem deliver_onLogCount (sum : UInt64) (items : List LogItem) :
    deliver (onLogCount false) sum items = sum + UInt64.ofNat items.length := by
  induction items generalizing sum with
  | nil => exact (UInt64.add_zero sum).symm
  | cons item items ih =>
      show deliver (onLogCount false) (sum + 1) items = _
      rw [ih, List.length_cons, UInt64.add_assoc, UInt64.add_comm 1, UInt64.ofNat_add]
      rfl

/-- A count is of the whole answer, modulo `2 ^ 64`. -/
theorem listing_count : (listing config sur (run .empty calls) scan (onLogCount false) 0).env =
    UInt64.ofNat (config.whole sur scan calls).length := by
  have hsum : ∀ (answers : List (List LogItem)) (sum : UInt64),
      answers.foldl (deliver (onLogCount false)) sum = sum + UInt64.ofNat answers.flatten.length := by
    intro answers
    induction answers with
    | nil => exact fun sum => (UInt64.add_zero sum).symm
    | cons l answers ih =>
        intro sum
        rw [List.foldl_cons, ih, deliver_onLogCount, List.flatten_cons, List.length_append, UInt64.ofNat_add,
          UInt64.add_assoc]
  unfold listing Config.whole
  dsimp only
  rw [withDb_env]
  split_ifs
  · rfl
  · rw [list_env, hsum, UInt64.zero_add]
    rfl

/-- The histogram of a command is of its whole answer. -/
theorem histogram_eq : (histogram config sur (run .empty calls)).env =
    (HistogramMacsPerTime.make config.start config.finish config.stepSeconds).putAll
      ((config.whole sur .log calls).map fun item => (item.dt, item.sa)) := by
  unfold histogram Config.whole
  dsimp only
  rw [withDb_env]
  split_ifs
  · rfl
  · rw [wacsc_macsPerTime_eq, http_macsPerTime_eq]

end Listing

/-- What the commands on the log print, by the tables: the lines of a page, the number of entries, or their histogram.
A listing without a count is good for `2 ^ 64` entries. -/
structure Tells (T : LogTables) (config : Config) (sur : Surroundings) (outcome : Outcome) : Prop where
  log : config.cmd = .lsLog → (config.answer sur T).length ≤ 2 ^ 64 →
    outcome.out = (config.pageOf (config.answer sur T)).flatMap (logLine sur.zone)
  count : config.cmd = .countLog →
    outcome.out = numeral 10 1 ((config.answer sur T).length % 2 ^ 64) ++ [10]
  macsPerTime : config.cmd = .macsPerTime →
    outcome.out = ((HistogramMacsPerTime.make config.start config.finish config.stepSeconds).putAll
      ((config.answer sur T).map fun item => (item.dt, item.sa))).toString sur.zone ++ [10]

theorem command_tells {T : LogTables} {pad : UInt8} (config : Config) {sur : Surroundings} (calls : List Step)
    (h : Refines (run .empty calls) T) (hpads : ConstPads (run .empty calls) pad)
    (hsur : ∀ i, (sur.memory i).pad.key = pad) : Tells T config sur (command config sur (run .empty calls)).1 := by
  have hwhole : config.whole sur .log calls = config.answer sur T := by
    unfold Config.whole Config.answer
    rw [wholeAnswer_filters h hpads config hsur]
  refine ⟨fun hcmd hlen => ?_, fun hcmd => ?_, fun hcmd => ?_⟩
  · rw [← hwhole] at hlen ⊢
    unfold command
    rw [hcmd]
    exact listing_out config sur .log calls sur.zone fun _ => Or.inl hlen
  · unfold command
    rw [hcmd, ← hwhole, ← UInt64.toNat_ofNat', ← listing_count config sur .log calls]
  · unfold command
    rw [hcmd, ← hwhole, ← histogram_eq config sur calls]

/-- **Sessions refine the tables**: after any session of commands and messages of the collector, whatever memory their
calls meet beyond one alignment byte, the database stands for the tables the session means, and what a command on the
log prints is told by these tables. -/
theorem session_tells (pad : UInt8) (events : List Event) (hevents : ∀ e ∈ events, e.Padded pad)
    (line : CommandLine) (sur : Surroundings) (hsur : ∀ i, (sur.memory i).pad.key = pad)
    (hline : (parseCmd sur.zone sur.now line).errorcode = 0) :
    Refines (session events) (sessionTables events) ∧
      Tells (sessionTables events) (parseCmd sur.zone sur.now line) sur (main line sur (session events)).1 := by
  obtain ⟨hrefines, hpads⟩ := session_refines hevents
  refine ⟨hrefines, ?_⟩
  unfold main
  dsimp only
  rw [if_neg (not_not_intro hline)]
  rw [session_eq_run] at hrefines hpads ⊢
  exact command_tells _ _ hrefines hpads hsur

/-- `log-count` with its defaults. -/
def countLine : CommandLine :=
  ⟨some [108, 111, 103, 45, 99, 111, 117, 110, 116], none, [], none, none, none, none, none, none, none, false, 0⟩

def sampleSurroundings : Surroundings :=
  ⟨sampleZone, 200, [46], true, true, [], ⟨sampleMac, 0, 0, 0⟩, fun _ => filledMemory 0, 0, fun _ => 0⟩

/-- Messages of three addresses, one of which is removed before the last message. -/
def sampleSession : List Event :=
  [.message sampleBuffer 100 (filledMemory 0), .message [0, 3, 0xff, 0xb0, 9, 0, 0, 0, 0, 1] 110 (filledMemory 0),
    .message [0, 2, 0xff, 0xba, 2, 0, 0, 0, 0, 2] 150 (filledMemory 0),
    .command { countLine with cmd := some [114, 101, 109, 111, 118, 101], mac := [[57]] } sampleSurroundings,
    .message sampleBuffer 300 (filledMemory 0)]

/-- Of the addresses "9" and "2:0" it has two entries up to the time of the clock. -/
theorem session_tells_sample :
    (main { countLine with mac := [[57], [50, 58, 48]] } sampleSurroundings (session sampleSession)).1.out = [50, 10] :=
  ((session_tells 0 sampleSession (by simp [sampleSession, Event.Padded, filledMemory, sampleSurroundings])
    { countLine with mac := [[57], [50, 58, 48]] } sampleSurroundings (fun _ => rfl) rfl).2.count rfl).trans (by decide)

/-! ### Counts and lines -/

theorem count_newline_logLine (z : Zone) (item : LogItem) : (logLine z item).count 10 = 1 := by
  have hne : ∀ l : Bytes, (∀ c ∈ l, c ≠ 10) → (l ++ [10]).count 10 = 1 := by
    intro l hl
    rw [List.count_append, List.count_eq_zero_of_not_mem fun h => hl 10 h rfl]
    rfl
  obtain ⟨sa, dt, data⟩ := item
  cases data with
  | some data =>
      rw [logLine_eq]
      exact hne _ (logFields_ne_newline z sa dt data)
  | none =>
      refine hne (mactostr sa ++ [9] ++ timeT2string z dt.toNat ++ []) ?_
      rintro c hmem rfl
      simp only [List.append_nil, List.mem_append, List.mem_singleton] at hmem
      rcases hmem with (h | h) | h
      · exact absurd (mactostr_graph h) (by decide)
      · exact absurd h (by decide)
      · exact absurd (timeT2string_graph z _ h) (by decide)

theorem count_newline_lines (z : Zone) (items : List LogItem) :
    (items.flatMap (logLine z)).count 10 = items.length := by
  induction items with
  | nil => rfl
  | cons item items ih =>
      rw [List.flatMap_cons, List.count_append, count_newline_logLine, ih, List.length_cons, Nat.add_comm]

/-- A listing without offset and limit prints a line for each entry of its whole answer. -/
theorem count_newline_listing (calls : List Step) (config : Config) (sur : Surroundings) (scan : Listed)
    (hoffset : config.offset = 0) (hcount : config.count = -1) :
    (listing config sur (run .empty calls) scan (onLog sur.zone) config.reqEnv).env.out.count 10 =
      (config.whole sur scan calls).length := by
  have hall : sizeT (-1) = -1 := by decide
  rw [listing_out config sur scan calls sur.zone fun _ => Or.inr hoffset, count_newline_lines, Config.pageOf, hcount,
    if_pos hall, hoffset]
  rfl

/-- **The counts count lines**: on every reachable database `log-count` and `probe-count` print the number of lines
that `log` and `probe` print without offset and limit, modulo `2 ^ 64`. -/
theorem counts_lines (calls : List Step) (config : Config) (sur : Surroundings) (scan : Listed) :
    (command { config with cmd := Command.counting scan } sur (run .empty calls)).1.out =
      numeral 10 1 ((command { config with cmd := Command.listing scan, offset := 0, count := -1 } sur
        (run .empty calls)).1.out.count 10 % 2 ^ 64) ++ [10] := by
  have hlines := count_newline_listing calls { config with cmd := Command.listing scan, offset := 0, count := -1 } sur
    scan rfl rfl
  have hcount := congrArg UInt64.toNat (listing_count { config with cmd := Command.counting scan } sur scan calls)
  rw [UInt64.toNat_ofNat'] at hcount
  have hwhole : Config.whole { config with cmd := Command.counting scan } sur scan calls =
      Config.whole { config with cmd := Command.listing scan, offset := 0, count := -1 } sur scan calls := rfl
  rw [hwhole, ← hlines] at hcount
  cases scan with
  | log => exact congrArg (fun n => numeral 10 1 n ++ [10]) hcount
  | lastProbe => exact congrArg (fun n => numeral 10 1 n ++ [10]) hcount

/-! ### Removals -/

/-- On an empty database the first removal is an error. -/
theorem rmLog_of_entries_eq_nil {s : Store} (h : s.entries = []) (start finish : Int) (mac : List (Bytes × Memory)) :
    (rmLog start finish s mac).1 < 0 ∨ ∃ n : Nat, (rmLog start finish s mac).1 = n ∧
      n + (rmLog start finish s mac).2.entries.length = s.entries.length := by
  cases mac with
  | nil => exact Or.inr ⟨0, rfl, Nat.zero_add _⟩
  | cons x mac =>
      obtain ⟨text, mem⟩ := x
      have hstatus : (quietly (Wacs.rmLog mem.slack (macFilter text) start finish mem.pad.key) s).1 < 0 := by
        rw [rmLog_quiet, if_pos (seek_of_entries_eq_nil h _)]
        show MDB_NOTFOUND < 0
        decide
      refine Or.inl ?_
      rw [rmLog, rmLogFrom, if_pos hstatus]
      exact hstatus

/-- The outcome says how many records the database has lost, a number that an `int` holds. -/
def SaysLost (s : Store) (r : Outcome × Store) : Prop :=
  ∃ n : Nat, n < 2 ^ 31 ∧ r.1.out = decimal n ++ recordsRemoved ++ [10] ∧
    n + r.2.entries.length = s.entries.length

theorem report_natCast (n : Nat) (records : Bytes) :
    (report (some (n : Int)) records).1 = decimal n ++ records ++ [10] := by
  unfold report
  dsimp only
  rw [if_neg (not_lt.mpr (Int.natCast_nonneg n))]

/-- An error is not reported on the standard output. -/
theorem report_error {c : Int} (h : c < 0) (records : Bytes) : (report (some c) records).1 = [] := by
  unfold report
  dsimp only
  rw [if_pos h]

section Lost

variable (sur : Surroundings) {s s' : Store} {r : Option Int} (hsmall : s.entries.length < 2 ^ 31)

/-- The outcome of a removal by its result. -/
def lostOutcome (sur : Surroundings) (s s' : Store) (r : Option Int) : Outcome × Store :=
  let w := withDb sur s () (r, (), s')
  let said := report w.r recordsRemoved
  (⟨w.r.map fun _ => 0, said.1, w.err ++ said.2⟩, w.store)

include hsmall

theorem saysLost_lostOutcome (hopens : sur.opens = true) (hcloses : sur.closes = true) {n : Nat}
    (hr : r = some (n : Int)) (hlost : n + s'.entries.length = s.entries.length) :
    SaysLost s (lostOutcome sur s s' r) := by
  subst hr
  refine ⟨n, by omega, ?_, ?_⟩
  · unfold lostOutcome withDb
    simp only [hopens, hcloses, Bool.not_true, Bool.false_eq_true, if_false, reduceCtorEq]
    exact report_natCast n _
  · unfold lostOutcome withDb
    simpa only [hopens, hcloses, Bool.not_true, Bool.false_eq_true, if_false, reduceCtorEq] using hlost

theorem lostOutcome_cases (h : ∀ c, r = some c → c < 0 ∨ ∃ n : Nat, c = n ∧ n + s'.entries.length = s.entries.length) :
    (lostOutcome sur s s' r).1.out = [] ∨ SaysLost s (lostOutcome sur s s' r) := by
  cases hopens : sur.opens with
  | false =>
      refine Or.inl ?_
      unfold lostOutcome withDb
      simp only [hopens, Bool.not_false, if_true]
      exact report_error (by decide) _
  | true =>
      cases r with
      | none =>
          refine Or.inl ?_
          unfold lostOutcome withDb
          simp only [hopens, Bool.not_true, Bool.false_eq_true, if_false, if_true]
          rfl
      | some c =>
          cases hcloses : sur.closes with
          | false =>
              refine Or.inl ?_
              unfold lostOutcome withDb
              simp only [hopens, hcloses, Bool.not_true, Bool.not_false, Bool.false_eq_true, if_false, if_true,
                reduceCtorEq]
              exact report_error (by decide) _
          | true =>
              rcases h c rfl with hneg | ⟨n, rfl, hlost⟩
              · refine Or.inl ?_
                unfold lostOutcome withDb
                simp only [hopens, hcloses, Bool.not_true, Bool.false_eq_true, if_false, reduceCtorEq]
                exact report_error hneg _
              · exact Or.inr (saysLost_lostOutcome sur hsmall hopens hcloses rfl hlost)

end Lost

/-- The two commands are reported alike. -/
theorem command_remove {config : Config} (hcmd : config.cmd = .remove) (sur : Surroundings) (s : Store) :
    command config sur s = lostOutcome sur s (rmLog config.start config.finish s (config.texts sur)).2
      (some (rmLog config.start config.finish s (config.texts sur)).1) := by
  unfold command
  rw [hcmd]
  rfl

theorem command_notificationRm {config : Config} (hcmd : config.cmd = .logNotificationRm) (sur : Surroundings)
    (s : Store) : command config sur s = lostOutcome sur s (notificationRm s (config.texts sur)).2
      (notificationRm s (config.texts sur)).1 := by
  unfold command
  rw [hcmd]
  rfl

/-- **Removals are accounted for**: on every reachable database of no more records than an `int` counts, for any list of
texts, `remove` and `notification-rm` print either nothing or the number of records the database has lost; and they
print the number if the database can be opened and closed and has a record, and the command comes to its end. -/
theorem removals_account (calls : List Step) (hsmall : (run .empty calls).entries.length < 2 ^ 31) (config : Config)
    (sur : Surroundings) (hcmd : config.cmd = .remove ∨ config.cmd = .logNotificationRm) :
    ((command config sur (run .empty calls)).1.out = [] ∨
        SaysLost (run .empty calls) (command config sur (run .empty calls))) ∧
      (sur.opens = true → sur.closes = true → (run .empty calls).entries ≠ [] →
        (command config sur (run .empty calls)).1.status ≠ none →
        SaysLost (run .empty calls) (command config sur (run .empty calls))) := by
  rcases hcmd with hcmd | hcmd
  · rw [command_remove hcmd]
    by_cases hempty : (run .empty calls).entries = []
    · refine ⟨lostOutcome_cases sur hsmall ?_, fun _ _ hne => absurd hempty hne⟩
      rintro c ⟨rfl⟩
      exact rmLog_of_entries_eq_nil hempty config.start config.finish _
    · have hother := hasOther_of_ne_nil (run_wellFormed calls) (run_attended calls) hempty
      obtain ⟨n, hn, hlost⟩ := rmLogFrom_accounts hother config.start config.finish 0 (config.texts sur)
      rw [Nat.zero_add] at hlost
      refine ⟨lostOutcome_cases sur hsmall ?_,
        fun hopens hcloses _ _ => saysLost_lostOutcome sur hsmall hopens hcloses ?_ hlost⟩
      · rintro c ⟨rfl⟩
        exact Or.inr ⟨n, hn, hlost⟩
      · exact congrArg some hn
  · rw [command_notificationRm hcmd]
    have haccounts : ∀ c, (notificationRm (run .empty calls) (config.texts sur)).1 = some c → c < 0 ∨ ∃ n : Nat,
        c = n ∧ n + (notificationRm (run .empty calls) (config.texts sur)).2.entries.length =
          (run .empty calls).entries.length := fun c hc => Or.inr (notificationRm_accounts hc)
    refine ⟨lostOutcome_cases sur hsmall haccounts, fun hopens hcloses _ hstatus => ?_⟩
    cases hr : (notificationRm (run .empty calls) (config.texts sur)).1 with
    | none =>
        refine absurd ?_ hstatus
        unfold lostOutcome withDb
        simp [hr, hopens]
    | some c =>
        obtain ⟨n, rfl, hlost⟩ := notificationRm_accounts hr
        exact saysLost_lostOutcome sur hsmall hopens hcloses rfl hlost

/-- `remove` with its defaults. -/
def removeConfig : Config := parseCmd sampleZone 200 { countLine with cmd := some [114, 101, 109, 111, 118, 101] }

/-- The observations of one address in a range, among the records of two. -/
def removeFive : Config :=
  { removeConfig with mac := [macText [2, 0, 0, 0, 0]], start := 90, finish := 160 }

theorem removals_account_sample :
    SaysLost (run .empty sampleRun) (command removeFive sampleSurroundings (run .empty sampleRun)) :=
  (removals_account sampleRun (by decide) removeFive sampleSurroundings (Or.inl rfl)).2
    rfl rfl (by decide) (by decide)

end Wacs.Wacsc
