import Wacs.CommandRemove
import Wacs.DumpLoad
import Wacs.OrderedPages

/-! The listings of `wacsc` and of the HTTP server: one scan for each filter, all with one request state, whose
position decides what is printed. -/

namespace Wacs

open OrderedCursor OrderedPages TextNumeral

/-- What is listed. -/
inductive Listed where
  | log
  | lastProbe

/-- One scan, with its result and the environment of the callback after it. -/
def listOnce {σ : Type} (scan : Listed) (start finish : Int) (onLog : OnLog σ) (s : Store) (env : σ)
    (x : Filter × Memory) : Int × σ :=
  let r := match scan with
    | .log => (quietly (readLog x.2.slack x.1 start finish x.2.pad.key (some onLog) (some env)) s).1
    | .lastProbe => (quietly (readLastProbe x.2.slack x.1 start finish (some onLog) (some env)) s).1
  (r.1, (r.2.map Listing.env).getD env)

/-! ### `wacsc` -/

namespace Wacsc

section List

variable {σ : Type} (start finish : Int) (onLog : OnLog σ) (s : Store)

/-- The loop of `lsLog` over the filters left; a scan that fails is the last. -/
def lsLog : Int → σ → List (Filter × Memory) → Int × σ
  | rr, env, [] => (rr, env)
  | rr, env, x :: mac =>
      let r := listOnce .log start finish onLog s env x
      if r.1 < 0 then r else lsLog (rr + r.1) r.2 mac

/-- The loop of `lsLastProbe`, which returns the last result. -/
def lsLastProbe : Int → σ → List (Filter × Memory) → Int × σ
  | r, env, [] => (r, env)
  | _, env, x :: mac =>
      let r := listOnce .lastProbe start finish onLog s env x
      lsLastProbe r.1 r.2 mac

def list (scan : Listed) (env : σ) (mac : List (Filter × Memory)) : Int × σ :=
  match scan with
  | .log => lsLog start finish onLog s 0 env mac
  | .lastProbe => lsLastProbe start finish onLog s 0 env mac

end List

end Wacsc

/-! ### The HTTP server -/

/-- `struct ReqEnv` of `http-server.cpp`. -/
structure HttpReqEnv where
  sum : Int
  position : UInt64
  offset : UInt64
  count : UInt64
  retval : Bytes

/-- `{"sa":"..","dt":..,"device_id":..,"ssi_signal":..},`; a last probe has no data. -/
def reqLogText (item : LogItem) : Bytes :=
  [123, 34, 115, 97, 34, 58, 34] ++ mactostr item.sa ++ [34, 44, 34, 100, 116, 34, 58] ++ numeral 10 1 item.dt.toNat ++
    (match item.data with
      | some data => [44, 34, 100, 101, 118, 105, 99, 101, 95, 105, 100, 34, 58] ++ numeral 10 1 data.deviceId.toNat ++
          [44, 34, 115, 115, 105, 95, 115, 105, 103, 110, 97, 108, 34, 58] ++ decimal data.ssiSignal.toInt
      | none => []) ++ [125, 44]

def onReqLog : OnLog HttpReqEnv := fun req item =>
  -- paginate
  if req.position < req.offset then ({ req with position := req.position + 1 }, false)
  else if req.position ≥ req.offset + req.count then (req, true)
  else ({ req with position := req.position + 1, retval := req.retval ++ reqLogText item }, false)

def onReqLogCount : OnLog HttpReqEnv := fun req _ => ({ req with sum := req.sum + 1 }, false)

/-- The conversion of an `int` to `size_t`. -/
def sizeT (n : Int) : UInt64 := UInt64.ofNat (n % 2 ^ 64).toNat

namespace Http

/-- The body of the loop of `lsLog` and `lsLastProbe`. -/
def lsFilter (scan : Listed) (start finish : Int) (onLog : OnLog HttpReqEnv) (s : Store) (env : HttpReqEnv)
    (x : Filter × Memory) : HttpReqEnv :=
  let env := (listOnce scan start finish onLog s env x).2
  if env.sum ≠ 0 then { env with retval := env.retval ++ decimal env.sum ++ [44] } else env

/-- The loop over the filters left. -/
def lsFrom (scan : Listed) (start finish : Int) (onLog : OnLog HttpReqEnv) (s : Store) :
    HttpReqEnv → List (Filter × Memory) → HttpReqEnv
  | env, [] => env
  | env, x :: sa => lsFrom scan start finish onLog s (lsFilter scan start finish onLog s env x) sa

/-- The request state of the parameters; a count of zero stands for that of the configuration. -/
def reqEnv (configCount offset count : Int) : HttpReqEnv :=
  ⟨0, 0, sizeT offset, sizeT (if count = 0 then configCount else count), []⟩

/-- The answer, with the last comma taken out. -/
def response (body : Bytes) : Bytes :=
  let r := [91] ++ body ++ [93]
  if r.length > 2 then r.set (r.length - 2) 32 else r

def lsLog (configCount start finish offset count : Int) (onLog : OnLog HttpReqEnv) (s : Store)
    (sa : List (Filter × Memory)) : Bytes :=
  response (lsFrom .log start finish onLog s (reqEnv configCount offset count) sa).retval

def lsLastProbe (configCount start finish offset count : Int) (onLog : OnLog HttpReqEnv) (s : Store)
    (sa : List (Filter × Memory)) : Bytes :=
  response (lsFrom .lastProbe start finish onLog s (reqEnv configCount offset count) sa).retval

end Http

/-! ### The whole answer -/

/-- The key a scan begins at. -/
def Listed.seek (scan : Listed) (start : Int) (x : Filter × Memory) : Bytes :=
  match scan with
  | .log => readLogSeek x.1 start x.2.pad.key
  | .lastProbe => tagP :: x.1.bytes

/-- The test a scan makes of a record. -/
def Listed.test (scan : Listed) (start finish : Int) (x : Filter × Memory) : Bytes × Bytes → Verdict :=
  match scan with
  | .log => readLogTest x.2.slack x.1 (timeRange start finish)
  | .lastProbe => readLastProbeTest x.2.slack x.1 (timeRange start finish)

/-- A record as a scan hands it to the callback. -/
def Listed.item (scan : Listed) (x : Filter × Memory) : Bytes × Bytes → LogItem :=
  match scan with
  | .log => readLogItem x.2.slack
  | .lastProbe => readLastProbeItem x.2.slack

/-- The records a scan comes to, as they are handed to the callback. -/
def unpaged (scan : Listed) (start finish : Int) (s : Store) (x : Filter × Memory) : List LogItem :=
  match scan with
  | .log => handedItems (quietly (readLog x.2.slack x.1 start finish x.2.pad.key (some takeAll) (some ())) s).1
  | .lastProbe => handedItems (quietly (readLastProbe x.2.slack x.1 start finish (some takeAll) (some ())) s).1

def wholeAnswer (scan : Listed) (start finish : Int) (s : Store) (mac : List (Filter × Memory)) : List LogItem :=
  (mac.map (unpaged scan start finish s)).flatten

theorem unpaged_eq (scan : Listed) (start finish : Int) (s : Store) (x : Filter × Memory) :
    unpaged scan start finish s x =
      (visited (scan.test start finish x) (s.seek (scan.seek start x))).map (scan.item x) := by
  have hnever : ∀ (env : Unit) (i : LogItem), (takeAll env i).2 = false := fun _ _ => rfl
  cases scan with
  | log =>
      rw [unpaged, readLog_quiet, handed_of_never takeAll hnever]
      rfl
  | lastProbe =>
      rw [unpaged, readLastProbe_quiet, handed_of_never takeAll hnever]
      rfl

section Scan

variable {σ : Type} (start finish : Int) (onLog : OnLog σ)

/-- A faultless listing leaves the environment of its callback over the records visited. -/
theorem env_listRecords {ι : Type} (seek : Bytes) (test : Bytes × Bytes → Verdict) (s : Store)
    (item : Bytes × Bytes → ι) (callback : σ → ι → σ × Bool) (env : σ) (missed : EngineM Unit)
    (hmissed : ∀ engine, Begun s engine → (missed.run quiet engine).2.committed = s) :
    ((quietly (listRecords seek test item callback env missed) s).1.2.map Listing.env).getD env =
      deliver callback env ((visited test (s.seek seek)).map item) := by
  rw [listRecords_quiet seek test s item callback env missed hmissed]
  cases s.seek seek with
  | nil => rfl
  | cons e es =>
      show (deliver (guarded test (report callback item)) ⟨env, []⟩ (e :: es)).env = _
      rw [deliver_guarded, deliver_report_env]

/-- A scan runs its callback over what it would list. -/
theorem listOnce_env (scan : Listed) (s : Store) (env : σ) (x : Filter × Memory) :
    (listOnce scan start finish onLog s env x).2 = deliver onLog env (unpaged scan start finish s x) := by
  rw [unpaged_eq]
  cases scan with
  | log => exact env_listRecords _ _ s _ onLog env _ (commitMissed_quiet s)
  | lastProbe => exact env_listRecords _ _ s _ onLog env _ (commitMissed_quiet s)

end Scan

/-- The status of a faultless listing. -/
theorem listRecords_status {σ ι : Type} (seek : Bytes) (test : Bytes × Bytes → Verdict) (s : Store)
    (item : Bytes × Bytes → ι) (callback : σ → ι → σ × Bool) (env : σ) :
    (quietly (listRecords seek test item callback env commitMissed) s).1.1 =
      if s.seek seek = [] then MDB_NOTFOUND else 0 := by
  rw [listRecords_quiet seek test s item callback env commitMissed (commitMissed_quiet s)]
  cases s.seek seek with
  | nil => rfl
  | cons e es => rw [if_neg (List.cons_ne_nil e es)]

theorem listOnce_log_status {σ : Type} (start finish : Int) (onLog : OnLog σ) (s : Store) (env : σ)
    (x : Filter × Memory) : (listOnce .log start finish onLog s env x).1 =
      if s.seek (readLogSeek x.1 start x.2.pad.key) = [] then MDB_NOTFOUND else 0 :=
  listRecords_status _ _ s _ onLog env

/-- A scan of the log fails on an empty store only. -/
theorem entries_of_listOnce_neg {σ : Type} (calls : List Step) {start finish : Int} {onLog : OnLog σ} {env : σ}
    {x : Filter × Memory} (h : (listOnce .log start finish onLog (run .empty calls) env x).1 < 0) :
    (run .empty calls).entries = [] := by
  refine (readLog_seek_eq_nil (run_wellFormed calls) (run_attended calls) x.1 start x.2.pad.key).mp ?_
  by_contra hne
  rw [listOnce_log_status, if_neg hne] at h
  exact lt_irrefl 0 h

/-- An empty store has nothing to list. -/
theorem unpaged_log_of_entries_eq_nil {s : Store} (h : s.entries = []) (start finish : Int) (x : Filter × Memory) :
    unpaged .log start finish s x = [] := by
  rw [unpaged_eq, seek_of_entries_eq_nil h]
  rfl

section Loops

variable {σ : Type} (calls : List Step) (start finish : Int) (onLog : OnLog σ)

/-- The loop of `lsLog` runs its callback over all the answers. -/
theorem lsLog_env (rr : Int) (env : σ) (mac : List (Filter × Memory)) :
    (Wacsc.lsLog start finish onLog (run .empty calls) rr env mac).2 =
      (mac.map (unpaged .log start finish (run .empty calls))).foldl (deliver onLog) env := by
  induction mac generalizing rr env with
  | nil => rfl
  | cons x mac ih =>
      rw [Wacsc.lsLog, List.map_cons, List.foldl_cons, ← listOnce_env start finish onLog .log]
      split_ifs with hneg
      · -- the answers that are not asked for are empty too
        refine (Pager.foldl_deliver_of_nil onLog (fun l hl => ?_) _).symm
        obtain ⟨y, -, rfl⟩ := List.mem_map.mp hl
        exact unpaged_log_of_entries_eq_nil (entries_of_listOnce_neg calls hneg) start finish y
      · exact ih _ _

theorem lsLastProbe_env (s : Store) (r : Int) (env : σ) (mac : List (Filter × Memory)) :
    (Wacsc.lsLastProbe start finish onLog s r env mac).2 =
      (mac.map (unpaged .lastProbe start finish s)).foldl (deliver onLog) env := by
  induction mac generalizing r env with
  | nil => rfl
  | cons x mac ih =>
      rw [Wacsc.lsLastProbe, List.map_cons, List.foldl_cons, ← listOnce_env start finish onLog .lastProbe]
      exact ih _ _

theorem list_env (scan : Listed) (env : σ) (mac : List (Filter × Memory)) :
    (Wacsc.list start finish onLog (run .empty calls) scan env mac).2 =
      (mac.map (unpaged scan start finish (run .empty calls))).foldl (deliver onLog) env := by
  cases scan with
  | log => exact lsLog_env calls start finish onLog 0 env mac
  | lastProbe => exact lsLastProbe_env start finish onLog _ 0 env mac

end Loops

/-! ### The callbacks as pagers -/

/-- The request state of `wacsc` stands for a pager. -/
def Shows (z : Zone) (e : ReqEnv) (p : Pager LogItem) : Prop :=
  e.interruptFlag = false ∧ p.position = e.position ∧ p.offset = e.offset ∧
    p.limit = (if e.count = -1 then none else some e.count) ∧ e.out = p.out.flatMap (logLine z)

theorem Shows.step {z : Zone} {e : ReqEnv} {p : Pager LogItem} (h : Shows z e p) (item : LogItem) :
    Shows z (onLog z e item).1 (p.step item).1 ∧ (onLog z e item).2 = (p.step item).2 := by
  obtain ⟨hflag, hposition, hoffset, hlimit, hout⟩ := h
  have hfull : p.full = true ↔ e.count ≠ -1 ∧ e.position ≥ e.offset + e.count := by
    rw [Pager.full, hlimit, hposition, hoffset]
    split_ifs with hcount
    · exact iff_of_false Bool.false_ne_true fun h => h.1 hcount
    · rw [Option.any_some, decide_eq_true_iff]
      exact (and_iff_right hcount).symm
  rw [onLog, Pager.step, hposition, hoffset]
  by_cases hskip : e.position < e.offset
  · rw [if_pos hskip, if_pos hskip]
    exact ⟨⟨hflag, rfl, rfl, hlimit, hout⟩, rfl⟩
  · rw [if_neg hskip, if_neg hskip]
    by_cases hdone : e.count ≠ -1 ∧ e.position ≥ e.offset + e.count
    · rw [if_pos hdone, if_pos (hfull.mpr hdone)]
      exact ⟨⟨hflag, hposition, hoffset, hlimit, hout⟩, rfl⟩
    · rw [if_neg hdone, if_neg (mt hfull.mp hdone)]
      refine ⟨⟨hflag, rfl, rfl, hlimit, ?_⟩, hflag⟩
      show e.out ++ logLine z item = (p.out ++ [item]).flatMap (logLine z)
      rw [List.flatMap_append, List.flatMap_singleton, hout]

/-- The request state of the HTTP server stands for a pager. -/
def HttpShows (e : HttpReqEnv) (p : Pager LogItem) : Prop :=
  e.sum = 0 ∧ p.position = e.position ∧ p.offset = e.offset ∧ p.limit = some e.count ∧
    e.retval = p.out.flatMap reqLogText

theorem HttpShows.step {e : HttpReqEnv} {p : Pager LogItem} (h : HttpShows e p) (item : LogItem) :
    HttpShows (onReqLog e item).1 (p.step item).1 ∧ (onReqLog e item).2 = (p.step item).2 := by
  obtain ⟨hsum, hposition, hoffset, hlimit, hout⟩ := h
  have hfull : p.full = true ↔ e.position ≥ e.offset + e.count := by
    rw [Pager.full, hlimit, hposition, hoffset, Option.any_some, decide_eq_true_iff]
  rw [onReqLog, Pager.step, hposition, hoffset]
  by_cases hskip : e.position < e.offset
  · rw [if_pos hskip, if_pos hskip]
    exact ⟨⟨hsum, rfl, rfl, hlimit, hout⟩, rfl⟩
  · rw [if_neg hskip, if_neg hskip]
    by_cases hdone : e.position ≥ e.offset + e.count
    · rw [if_pos hdone, if_pos (hfull.mpr hdone)]
      exact ⟨⟨hsum, hposition, hoffset, hlimit, hout⟩, rfl⟩
    · rw [if_neg hdone, if_neg (mt hfull.mp hdone)]
      refine ⟨⟨hsum, rfl, rfl, hlimit, ?_⟩, rfl⟩
      show e.retval ++ reqLogText item = (p.out ++ [item]).flatMap reqLogText
      rw [List.flatMap_append, List.flatMap_singleton, hout]

/-- `onReqLog` counts nothing, so no sum is printed behind an answer. -/
theorem lsFilter_shows (scan : Listed) (start finish : Int) (s : Store) {e : HttpReqEnv} {p : Pager LogItem}
    (h : HttpShows e p) (x : Filter × Memory) :
    HttpShows (Http.lsFilter scan start finish onReqLog s e x)
      (deliver Pager.step p (unpaged scan start finish s x)) := by
  have hnext := Pager.simulates_deliver HttpShows.step h (unpaged scan start finish s x)
  rw [Http.lsFilter, listOnce_env]
  simp only [hnext.1, ne_eq, not_true_eq_false, if_false]
  exact hnext

/-- A listing over HTTP stands for a pager over all the answers. -/
theorem lsFrom_shows (scan : Listed) (start finish : Int) (s : Store) {e : HttpReqEnv} {p : Pager LogItem}
    (h : HttpShows e p) (sa : List (Filter × Memory)) :
    HttpShows (Http.lsFrom scan start finish onReqLog s e sa) (p.pass (sa.map (unpaged scan start finish s))) := by
  induction sa generalizing e p with
  | nil => exact h
  | cons x sa ih => exact ih (lsFilter_shows scan start finish s h x)

/-! ### Pages -/

section Exact

variable (calls : List Step) (scan : Listed) (start finish : Int) (mac : List (Filter × Memory))

/-- A listing of `wacsc` prints what a pager of its offset and count shows. -/
theorem list_out (z : Zone) (offset count : UInt64) :
    (Wacsc.list start finish (onLog z) (run .empty calls) scan ⟨false, 0, offset, count, []⟩ mac).2.out =
      ((Pager.start offset (if count = -1 then none else some count)).pass
        (mac.map (unpaged scan start finish (run .empty calls)))).out.flatMap (logLine z) := by
  have hstart : Shows z ⟨false, 0, offset, count, []⟩ (Pager.start offset (if count = -1 then none else some count)) :=
    ⟨rfl, rfl, rfl, rfl, rfl⟩
  rw [list_env]
  exact (Pager.simulates_pass Shows.step hstart _).2.2.2.2

theorem list_out_page (z : Zone) (offset n : UInt64) (hbound : offset.toNat + n.toNat < 2 ^ 64) (hn : n ≠ -1) :
    (Wacsc.list start finish (onLog z) (run .empty calls) scan ⟨false, 0, offset, n, []⟩ mac).2.out =
      (page offset.toNat n.toNat (wholeAnswer scan start finish (run .empty calls) mac)).flatMap (logLine z) := by
  rw [list_out, if_neg hn, Pager.pass_limited hbound]
  rfl

theorem list_out_rest (z : Zone) (offset : UInt64)
    (hlen : (wholeAnswer scan start finish (run .empty calls) mac).length ≤ 2 ^ 64 ∨ offset = 0) :
    (Wacsc.list start finish (onLog z) (run .empty calls) scan ⟨false, 0, offset, -1, []⟩ mac).2.out =
      ((wholeAnswer scan start finish (run .empty calls) mac).drop offset.toNat).flatMap (logLine z) := by
  rw [list_out, if_pos rfl, Pager.pass_unlimited _ hlen]
  rfl

end Exact

/-! ### The answer over HTTP -/

/-- What ends in a comma ends in a blank in the answer. -/
theorem response_comma (body : Bytes) : Http.response (body ++ [44]) = [91] ++ body ++ [32, 93] := by
  have hsplit : [91] ++ (body ++ [44]) ++ [93] = ([91] ++ body) ++ [44, 93] := by
    rw [List.append_assoc, List.append_assoc, List.append_assoc]
    rfl
  have hlen : (([91] ++ body) ++ [44, 93]).length = ([91] ++ body).length + 2 := List.length_append
  have hlong : ([91] ++ body).length + 2 > 2 := by
    rw [List.length_append]
    exact Nat.lt_add_of_pos_left (Nat.lt_add_right _ Nat.one_pos)
  rw [Http.response, hsplit, hlen, if_pos hlong, Nat.add_sub_cancel, List.set_append_right _ _ le_rfl, Nat.sub_self]
  rfl

theorem sizeT_toNat {n : Int} (hlo : 0 ≤ n) (hhi : n < 2 ^ 64) : (sizeT n).toNat = n.toNat := by
  rw [sizeT, UInt64.toNat_ofNat']
  omega

end Wacs
