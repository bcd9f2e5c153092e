import Wacs.HttpScans

/-! What a request is about by its arguments, what `/log` answers over a whole run of the collector, and what a client
has read who goes on from page to page while the collector writes, also between the scans for one page. -/

namespace Wacs

open OrderBytes OrderedCursor OrderedPages TextJson TextScan

/-! ### The arguments -/

/-- The value an argument gives to a key; an argument without a key or without a value gives none. -/
def valueOf (key : Bytes) (arg : Option Bytes × Option Bytes) : Option Bytes :=
  arg.1.bind fun k => arg.2.bind fun value => if cString k = key then some (cString value) else none

def valuesOf (key : Bytes) (args : List (Option Bytes × Option Bytes)) : List Bytes := args.filterMap (valueOf key)

/-- The last value of a key, read as a number. -/
def lastOf (key : Bytes) (read : Bytes → Int) (given : Int) (args : List (Option Bytes × Option Bytes)) : Int :=
  ((valuesOf key args).getLast?.map read).getD given

theorem valuesOf_concat (key : Bytes) (args : List (Option Bytes × Option Bytes)) (arg : Option Bytes × Option Bytes) :
    valuesOf key (args ++ [arg]) = valuesOf key args ++ (valueOf key arg).toList := by
  rw [valuesOf, List.filterMap_append, List.filterMap_cons, List.filterMap_nil]
  cases valueOf key arg <;> rfl

theorem lastOf_concat (key : Bytes) (read : Bytes → Int) (given : Int) (args : List (Option Bytes × Option Bytes))
    (arg : Option Bytes × Option Bytes) :
    lastOf key read given (args ++ [arg]) = ((valueOf key arg).map read).getD (lastOf key read given args) := by
  rw [lastOf, valuesOf_concat]
  cases valueOf key arg with
  | none => rw [Option.toList_none, List.append_nil]; rfl
  | some value => rw [Option.toList_some, List.getLast?_concat]; rfl

namespace RequestParams

/-- An argument changes the parameter it names. -/
theorem callbackArg_eq (rp : RequestParams) (arg : Option Bytes × Option Bytes) :
    rp.callbackArg arg =
      { requestType := rp.requestType
        start := ((valueOf [115] arg).map strtol).getD rp.start
        finish := ((valueOf [102] arg).map strtol).getD rp.finish
        sa := rp.sa ++ (valueOf [115, 97] arg).toList
        offset := ((valueOf [111] arg).map fun value => int32 (strtol value)).getD rp.offset
        count := ((valueOf [99] arg).map fun value => int32 (strtol value)).getD rp.count
        step := ((valueOf [115, 116, 101, 112] arg).map fun value => int32 (strtol value)).getD rp.step } := by
  obtain ⟨key, value⟩ := arg
  cases key with
  | none => simp [callbackArg, valueOf]
  | some key =>
      cases value with
      | none => simp [callbackArg, valueOf]
      | some value =>
          unfold callbackArg
          dsimp only
          split_ifs with hs hf hsa ho hc hstep <;> simp [valueOf, *]

/-- The parameters of a request in terms of its arguments: numbers go by the last value given to their key, and every
address given counts. -/
theorem make_eq (now : Int) (url : Bytes) (args : List (Option Bytes × Option Bytes)) :
    make now url args =
      { requestType := parseRequestType url
        start := lastOf [115] strtol 0 args
        finish := lastOf [102] strtol now args
        sa := if valuesOf [115, 97] args = [] then [[]] else valuesOf [115, 97] args
        offset := lastOf [111] (fun value => int32 (strtol value)) 0 args
        count := lastOf [99] (fun value => int32 (strtol value)) 0 args
        step := lastOf [115, 116, 101, 112] (fun value => int32 (strtol value)) 1 args } := by
  have hargs : args.foldl callbackArg ⟨parseRequestType url, 0, now, [], 0, 0, 1⟩ =
      { requestType := parseRequestType url
        start := lastOf [115] strtol 0 args
        finish := lastOf [102] strtol now args
        sa := valuesOf [115, 97] args
        offset := lastOf [111] (fun value => int32 (strtol value)) 0 args
        count := lastOf [99] (fun value => int32 (strtol value)) 0 args
        step := lastOf [115, 116, 101, 112] (fun value => int32 (strtol value)) 1 args } := by
    induction args using List.reverseRecOn with
    | nil => rfl
    | append_singleton args arg ih =>
        rw [List.foldl_append, ih, List.foldl_cons, List.foldl_nil, callbackArg_eq]
        simp only [lastOf_concat, valuesOf_concat]
  rw [make, hargs]
  simp only [List.length_eq_zero_iff]
  split_ifs with hsa
  · rw [hsa]
    rfl
  · rfl

theorem int32_lt (n : Int) : int32 n < 2 ^ 31 := by
  unfold int32
  omega

theorem lastOf_int32_lt (key : Bytes) {given : Int} (hgiven : given < 2 ^ 31)
    (args : List (Option Bytes × Option Bytes)) :
    lastOf key (fun value => int32 (strtol value)) given args < 2 ^ 31 := by
  unfold lastOf
  cases (valuesOf key args).getLast? with
  | none => exact hgiven
  | some value => exact int32_lt _

end RequestParams

def numberKeys : List Bytes := [[115], [102], [111], [99], [115, 116, 101, 112]]

/-- **The answer goes by the values**: two requests for one path are answered alike if they give the same addresses
in the same order and, to each of the other keys, the same last value. -/
theorem answer_by_values (server : HttpServer) (db : Database) (memory : Nat → Memory) (now : Int) (url : Bytes)
    {args args' : List (Option Bytes × Option Bytes)}
    (hlast : ∀ key ∈ numberKeys, (valuesOf key args).getLast? = (valuesOf key args').getLast?)
    (hsa : valuesOf [115, 97] args = valuesOf [115, 97] args') :
    httpHandler server db memory now url args = httpHandler server db memory now url args' := by
  have hsame : ∀ key ∈ numberKeys, ∀ (read : Bytes → Int) (given : Int),
      lastOf key read given args = lastOf key read given args' := by
    intro key hkey read given
    rw [lastOf, lastOf, hlast key hkey]
  have hparams : RequestParams.make now url args = RequestParams.make now url args' := by
    rw [RequestParams.make_eq, RequestParams.make_eq, hsa, hsame [115] (by decide), hsame [102] (by decide),
      hsame [111] (by decide), hsame [99] (by decide), hsame [115, 116, 101, 112] (by decide)]
  unfold httpHandler
  rw [hparams]

/-- A count given twice, an unknown key and a key without a value. -/
theorem answer_by_values_sample :
    httpHandler onePageServer ⟨true, true, .empty⟩ (fun _ => filledMemory 0) 200 Listed.log.path
        [(some [99], some [49]), (some [120], none), (some [99], some [50])] =
      httpHandler onePageServer ⟨true, true, .empty⟩ (fun _ => filledMemory 0) 200 Listed.log.path
        [(some [99], some [50]), (some [120], some [49])] :=
  answer_by_values onePageServer _ _ 200 _ (by decide) (by decide)

/-! ### One page -/

/-- The entries of the log that a request is about, address by address of the request. -/
def RequestParams.selected (params : RequestParams) (T : LogTables) : List LogItem :=
  T.selected (params.sa.map Http.saFilter) params.start params.finish

/-- The entries that some address of the request picks. -/
def RequestParams.Picks (params : RequestParams) : Mac → UInt32 → Prop :=
  LogTables.Picked (params.sa.map Http.saFilter) params.start params.finish

/-- The page a request asks for; its end is counted in 64 bits, and nothing comes before an end that wraps. -/
def RequestParams.pageOf (params : RequestParams) (server : HttpServer) (items : List LogItem) : List LogItem :=
  if (sizeT params.offset).toNat + pageSize server params < 2 ^ 64 then
    page (sizeT params.offset).toNat (pageSize server params) items
  else []

/-- The entries that a body read as JSON stands for. -/
def Answer.items : Answer → Option (List LogItem)
  | .data body =>
      match parse body with
      | some (.arr js) => js.mapM itemOfJson
      | _ => none
  | _ => none

theorem mapM_itemOfJson (items : List LogItem) : (items.map itemJson).mapM itemOfJson = some items := by
  induction items with
  | nil => rfl
  | cons item items ih => rw [List.map_cons, List.mapM_cons, itemOfJson_itemJson, ih]; rfl

/-- A listing of the entries read back. -/
theorem items_dataAnswer (items : List LogItem) :
    (Http.dataAnswer (Http.response (items.flatMap reqLogText))).items = some items := by
  rw [Http.dataAnswer, if_neg (response_ne_nil _), Answer.items, parse_items]
  exact mapM_itemOfJson items

/-- A limited pager over the answers shows the page of the request. -/
theorem pass_eq_pageOf (server : HttpServer) (params : RequestParams) (answers : List (List LogItem)) :
    ((Pager.start (Http.reqEnv server.count params.offset params.count).offset
      (some (Http.reqEnv server.count params.offset params.count).count)).pass answers).out =
      params.pageOf server answers.flatten := by
  unfold RequestParams.pageOf
  split_ifs with hbound
  · exact Pager.pass_limited hbound _
  · exact Pager.pass_wrapped (not_lt.mp hbound) _

theorem map_filters (params : RequestParams) (memory : Nat → Memory) :
    (Http.filters params memory).map Prod.fst = params.sa.map Http.saFilter := by
  calc (Http.filters params memory).map Prod.fst
      = (params.sa.zipIdx.map Prod.fst).map Http.saFilter := by
        rw [Http.filters, List.map_map, List.map_map]
        rfl
    _ = params.sa.map Http.saFilter := by rw [List.zipIdx_map_fst]

theorem filters_padded {memory : Nat → Memory} {pad : UInt8} (hmemory : ∀ i, (memory i).pad.key = pad)
    (params : RequestParams) : ∀ x ∈ Http.filters params memory, x.2.pad.key = pad := by
  intro x hx
  obtain ⟨y, -, rfl⟩ := List.mem_map.mp hx
  exact hmemory y.2

theorem items_log {s : Store} {T : LogTables} (h : Refines s T) {pad : UInt8} (hpads : ConstPads s pad)
    (server : HttpServer) {memory : Nat → Memory} (hmemory : ∀ i, (memory i).pad.key = pad) (now : Int)
    (args : List (Option Bytes × Option Bytes)) :
    (httpHandler server ⟨true, true, s⟩ memory now Listed.log.path args).items =
      some ((RequestParams.make now Listed.log.path args).pageOf server
        ((RequestParams.make now Listed.log.path args).selected T)) := by
  rw [httpHandler_path, ls_items server _ memory .log _ rfl rfl, items_dataAnswer, emitted, pass_eq_pageOf,
    ← wholeAnswer, h.wholeAnswer hpads (filters_padded hmemory _), map_filters, RequestParams.selected]

/-- Two entries up to time 250 after the first of those of the addresses "9" and "2:0". -/
def pageArgs : List (Option Bytes × Option Bytes) :=
  [(some [111], some [49]), (some [115, 97], some [57]), (some [99], some [50]), (some [102], some [50, 53, 48]),
    (some [115, 97], some [50, 58, 48])]

/-- The entries that a request is about when each of its addresses finds tables of its own. -/
def RequestParams.selectedOver (params : RequestParams) (Ts : List LogTables) : List LogItem :=
  (params.sa.zip Ts).flatMap fun x => x.2.selected [Http.saFilter x.1] params.start params.finish

theorem RequestParams.mem_selectedOver {params : RequestParams} {T : Nat → LogTables} {item : LogItem} :
    item ∈ params.selectedOver ((List.range params.sa.length).map T) ↔ ∃ i text d, params.sa[i]? = some text ∧
      readLogPicks (Http.saFilter text) params.start params.finish item.sa item.dt = true ∧ item.data = some d ∧
        (T i).log.get (toLex (item.sa, item.dt)) = some d := by
  rw [selectedOver, Http.zip_range, List.flatMap_map, List.mem_flatMap]
  constructor
  · rintro ⟨⟨text, i⟩, hmem, hitem⟩
    obtain ⟨d, hdata, hget, f, hf, hpicks⟩ := LogTables.mem_selected.mp hitem
    rw [List.mem_singleton.mp hf] at hpicks
    exact ⟨i, text, d, List.mk_mem_zipIdx_iff_getElem?.mp hmem, hpicks, hdata, hget⟩
  · rintro ⟨i, text, d, hi, hpicks, hdata, hget⟩
    exact ⟨(text, i), List.mk_mem_zipIdx_iff_getElem?.mpr hi,
      LogTables.mem_selected.mpr ⟨d, hdata, hget, _, List.mem_singleton_self _, hpicks⟩⟩

/-- Tables that grow put new entries between the old ones. -/
theorem RequestParams.selectedOver_sublist (params : RequestParams) {Ts Ts' : List LogTables}
    (h : List.Forall₂ LogTables.Grows Ts Ts') :
    ((params.selectedOver Ts).map LogTables.itemKey).Sublist ((params.selectedOver Ts').map LogTables.itemKey) := by
  unfold selectedOver
  generalize params.sa = sa
  induction h generalizing sa with
  | nil => rw [List.zip_nil_right, List.flatMap_nil, List.map_nil]
  | cons hgrows _ ih =>
      cases sa with
      | nil => exact List.Sublist.refl []
      | cons text sa =>
          rw [List.zip_cons_cons, List.zip_cons_cons, List.flatMap_cons, List.flatMap_cons, List.map_append,
            List.map_append]
          exact List.Sublist.append (hgrows.selected _ _ _) (ih sa)

/-- What the scan for an address finds stands for tables, with one alignment byte. -/
def StandsFor (pad : UInt8) (x : Store × Memory) (T : LogTables) : Prop :=
  Refines x.1 T ∧ ConstPads x.1 pad ∧ x.2.pad.key = pad

theorem StandsFor.unpaged {pad : UInt8} {x : Store × Memory} {T : LogTables} (h : StandsFor pad x T) (f : Filter)
    (start finish : Int) : unpaged .log start finish x.1 (f, x.2) = T.selected [f] start finish := by
  obtain ⟨hrefines, hpads, hmemory⟩ := h
  have hmac : ∀ y ∈ [(f, x.2)], y.2.pad.key = pad := List.forall_mem_singleton.mpr hmemory
  have hwhole := hrefines.wholeAnswer hpads hmac start finish
  rwa [wholeAnswer, List.map_singleton, List.flatten_singleton] at hwhole

namespace Http

theorem gather_shows (params : RequestParams) (scan : Listed) {e : HttpReqEnv} {p : Pager LogItem}
    (h : HttpShows e p) (sa : List Bytes) (found : List (Store × Memory)) :
    ∃ e', (Gathering.listing scan onReqLog e).gather params sa found = .listing scan onReqLog e' ∧
      HttpShows e' (p.pass ((sa.zip found).map fun x =>
        unpaged scan params.start params.finish x.2.1 (saFilter x.1, x.2.2))) := by
  unfold Gathering.gather
  induction sa.zip found generalizing e p with
  | nil => exact ⟨e, rfl, h⟩
  | cons x xs ih => exact ih (lsFilter_shows scan params.start params.finish x.2.1 h (saFilter x.1, x.2.2))

end Http

/-- What `/log` gathers over what the scans find stands for a pager over the answers for its addresses. -/
theorem gather_log (server : HttpServer) {params : RequestParams} (htype : params.requestType = .log)
    (found : List (Store × Memory)) :
    ∃ g e, Http.Gathering.begin server params = some g ∧ g.gather params params.sa found = .listing .log onReqLog e ∧
      e.retval = (params.pageOf server ((params.sa.zip found).map fun x =>
        unpaged .log params.start params.finish x.2.1 (Http.saFilter x.1, x.2.2)).flatten).flatMap reqLogText := by
  have hstart : HttpShows (Http.reqEnv server.count params.offset params.count)
      (Pager.start (Http.reqEnv server.count params.offset params.count).offset
        (some (Http.reqEnv server.count params.offset params.count).count)) := ⟨rfl, rfl, rfl, rfl, rfl⟩
  obtain ⟨e, hgather, -, -, -, -, hbody⟩ := Http.gather_shows params .log hstart params.sa found
  refine ⟨_, e, ?_, hgather, ?_⟩
  · rw [Http.Gathering.begin, htype]
  · rw [hbody, pass_eq_pageOf]

theorem make_log (now : Int) (args : List (Option Bytes × Option Bytes)) :
    (RequestParams.make now Listed.log.path args).requestType = .log := by
  rw [RequestParams.make_requestType, Listed.parse_path]
  rfl

theorem answerOver_log (server : HttpServer) (now : Int) (args : List (Option Bytes × Option Bytes))
    (found : List (Store × Memory)) :
    (Http.answerOver server true true now Listed.log.path args found).items =
      some ((RequestParams.make now Listed.log.path args).pageOf server
        (((RequestParams.make now Listed.log.path args).sa.zip found).map fun x =>
          unpaged .log (RequestParams.make now Listed.log.path args).start
            (RequestParams.make now Listed.log.path args).finish x.2.1 (Http.saFilter x.1, x.2.2)).flatten) := by
  obtain ⟨g, e, hbegin, hgather, hbody⟩ := gather_log server (make_log now args) found
  unfold Http.answerOver
  dsimp only
  rw [hbegin]
  show ((g.gather _ _ found).answer true).items = _
  rw [hgather, ← items_dataAnswer, ← hbody]
  rfl

/-- Each address is listed from the tables it finds. -/
theorem answerOver_items (server : HttpServer) (now : Int) (args : List (Option Bytes × Option Bytes)) {pad : UInt8}
    {found : List (Store × Memory)} {Ts : List LogTables} (h : List.Forall₂ (StandsFor pad) found Ts) :
    (Http.answerOver server true true now Listed.log.path args found).items =
      some ((RequestParams.make now Listed.log.path args).pageOf server
        ((RequestParams.make now Listed.log.path args).selectedOver Ts)) := by
  have hscans : ∀ (sa : List Bytes) (start finish : Int),
      (sa.zip found).map (fun x => unpaged .log start finish x.2.1 (Http.saFilter x.1, x.2.2)) =
        (sa.zip Ts).map fun x => x.2.selected [Http.saFilter x.1] start finish := by
    intro sa start finish
    induction h generalizing sa with
    | nil => rw [List.zip_nil_right, List.zip_nil_right, List.map_nil, List.map_nil]
    | cons hx _ ih =>
        cases sa with
        | nil => rfl
        | cons text sa =>
            rw [List.zip_cons_cons, List.zip_cons_cons, List.map_cons, List.map_cons, ih, hx.unpaged]
  rw [answerOver_log, hscans, RequestParams.selectedOver, List.flatMap_def]

/-! ### Page after page -/

/-- A client goes from page to page of a listing. The calls go on all the while, from the first scan on none of them
removes an entry, and the scan for an address of a page finds what the calls up to its time have left. -/
structure Browsing (server : HttpServer) (pad : UInt8) (params : RequestParams) (last : Nat) where
  calls : List Step
  time : Nat → Nat → Nat
  memory : Nat → Nat → Memory
  now : Nat → Int
  args : Nat → List (Option Bytes × Option Bytes)
  padded : ∀ c ∈ calls, c.2.pad.key = pad
  scansPadded : ∀ k i, (memory k i).pad.key = pad
  asks : ∀ k ≤ last, RequestParams.make (now k) Listed.log.path (args k) =
    { params with offset := k * params.count }
  scans : ∀ k i, time k i ≤ time k (i + 1)
  pages : ∀ k, time k params.sa.length ≤ time (k + 1) 0
  writes : ∀ c ∈ calls.drop (time 0 0), c.1.removesLog = false

namespace Browsing

variable {server : HttpServer} {pad : UInt8} {params : RequestParams} {last : Nat}
  (b : Browsing server pad params last)

/-- The store as the scan for an address of a page finds it. -/
def store (k i : Nat) : Store := run .empty (b.calls.take (b.time k i))

def answer (k : Nat) : Answer :=
  Http.answerOver server true true (b.now k) Listed.log.path (b.args k)
    ((List.range params.sa.length).map fun i => (b.store k i, b.memory k i))

/-- The entries that the client reads on a page. -/
def shown (k : Nat) : List LogItem := (b.answer k).items.getD []

/-- What the client has of the pages: each reads back, its entries are picked by an address and of the log that the
scan for it has found, it is no longer than was asked, and if the last one is shorter then no entry that was there at
the start has been missed. -/
structure MeetsAll : Prop where
  decodes : ∀ k ≤ last, (b.answer k).items = some (b.shown k)
  sound : ∀ k ≤ last, ∀ item ∈ b.shown k, ∃ i text d, params.sa[i]? = some text ∧
    readLogPicks (Http.saFilter text) params.start params.finish item.sa item.dt = true ∧ item.data = some d ∧
      HasLog (b.store k i) item.sa item.dt d
  bounded : ∀ k ≤ last, (b.shown k).length ≤ params.count
  complete : (b.shown last).length < params.count →
    ∀ m t d, HasLog (b.store 0 0) m t d → params.Picks m t →
      ∃ k ≤ last, ∃ item ∈ b.shown k, item.sa = m ∧ item.dt = t

def tables (n : Nat) : LogTables := LogTables.empty.run ((b.calls.take n).map Prod.fst)

theorem refines (k i : Nat) : Refines (b.store k i) (b.tables (b.time k i)) :=
  run_refines fun c hc => b.padded c (List.mem_of_mem_take hc)

theorem standsFor (k i : Nat) : StandsFor pad (b.store k i, b.memory k i) (b.tables (b.time k i)) :=
  ⟨b.refines k i, ((constPads_empty pad).run fun c hc => b.padded c (List.mem_of_mem_take hc)).2, b.scansPadded k i⟩

theorem time_mono (k : Nat) : Monotone (b.time k) := monotone_nat_of_le_succ (b.scans k)

theorem time_succ (k : Nat) {i : Nat} (hi : i ≤ params.sa.length) : b.time k i ≤ b.time (k + 1) i :=
  calc b.time k i
      ≤ b.time k params.sa.length := b.time_mono k hi
    _ ≤ b.time (k + 1) 0 := b.pages k
    _ ≤ b.time (k + 1) i := b.time_mono (k + 1) (Nat.zero_le i)

theorem time_zero (k i : Nat) : b.time 0 0 ≤ b.time k i := by
  have hfirst : b.time 0 0 ≤ b.time k 0 := by
    induction k with
    | zero => exact le_rfl
    | succ k ih => exact ih.trans (b.time_succ k (Nat.zero_le _))
  exact hfirst.trans (b.time_mono k (Nat.zero_le i))

theorem grows {n n' : Nat} (hstart : b.time 0 0 ≤ n) (h : n ≤ n') : (b.tables n).Grows (b.tables n') := by
  have htake := (List.take_append_drop n (b.calls.take n')).symm
  rw [List.take_take, min_eq_left h] at htake
  unfold tables
  rw [htake, List.map_append, LogTables.run_append]
  refine LogTables.grows_run (fun op hop => ?_) _
  obtain ⟨c, hc, rfl⟩ := List.mem_map.mp hop
  rw [List.drop_take] at hc
  refine b.writes c ?_
  rw [← Nat.sub_add_cancel hstart, Nat.add_comm, ← List.drop_drop] at hc
  exact List.mem_of_mem_drop (List.mem_of_mem_take hc)

def tablesOf (k : Nat) : List LogTables := (List.range params.sa.length).map fun i => b.tables (b.time k i)

theorem tablesOf_grow (k : Nat) : List.Forall₂ LogTables.Grows (b.tablesOf k) (b.tablesOf (k + 1)) := by
  rw [tablesOf, tablesOf, List.forall₂_map_left_iff, List.forall₂_map_right_iff, List.forall₂_same]
  intro i hi
  exact b.grows (b.time_zero k i) (b.time_succ k (List.mem_range.mp hi).le)

/-- What was in the log at the start is found by the scans for the first page. -/
theorem mem_first {m : Mac} {t : UInt32} {d : LogData} (hlog : HasLog (b.store 0 0) m t d) (hpicks : params.Picks m t) :
    (m, t) ∈ (params.selectedOver (b.tablesOf 0)).map LogTables.itemKey := by
  obtain ⟨f, hf, hpicks⟩ := hpicks
  obtain ⟨text, htext, rfl⟩ := List.mem_map.mp hf
  obtain ⟨i, hi⟩ := List.mem_iff_getElem?.mp htext
  have hget := ((b.refines 0 0).log _ _ _).mpr hlog
  obtain ⟨d', hd'⟩ := Option.isSome_iff_exists.mp
    (b.grows le_rfl (b.time_zero 0 i) _ (Option.isSome_iff_exists.mpr ⟨d, hget⟩))
  exact List.mem_map.mpr ⟨⟨m, t, some d'⟩,
    RequestParams.mem_selectedOver.mpr ⟨i, text, d', hi, hpicks, rfl, hd'⟩, rfl⟩

section Pages

variable (hcount : 0 < params.count)
include hcount

/-- The request for a page asks for it in full. -/
theorem pageOf_asked {k : Nat} (hk : k ≤ last) (items : List LogItem) :
    (RequestParams.make (b.now k) Listed.log.path (b.args k)).pageOf server items =
      page (k * params.count.toNat) params.count.toNat items := by
  have hoffset : (RequestParams.make (b.now k) Listed.log.path (b.args k)).offset < 2 ^ 31 := by
    rw [RequestParams.make_eq]
    exact RequestParams.lastOf_int32_lt _ (by decide) _
  have hbound : (RequestParams.make (b.now k) Listed.log.path (b.args k)).count < 2 ^ 31 := by
    rw [RequestParams.make_eq]
    exact RequestParams.lastOf_int32_lt _ (by decide) _
  rw [b.asks k hk] at hoffset hbound ⊢
  dsimp only at hoffset hbound
  have hmul : (k * params.count : Int).toNat = k * params.count.toNat := by
    rw [Int.toNat_mul (Int.natCast_nonneg k) hcount.le, Int.toNat_natCast]
  have hat : (sizeT (k * params.count)).toNat = k * params.count.toNat := by
    rw [sizeT_toNat (Int.mul_nonneg (Int.natCast_nonneg k) hcount.le) (hoffset.trans (by decide)), hmul]
  have hsize : pageSize server { params with offset := k * params.count } = params.count.toNat := by
    rw [pageSize, if_neg hcount.ne', sizeT_toNat hcount.le (hbound.trans (by decide))]
  rw [RequestParams.pageOf, hsize]
  dsimp only
  rw [hat, if_pos]
  omega

theorem answer_items {k : Nat} (hk : k ≤ last) : (b.answer k).items =
    some (page (k * params.count.toNat) params.count.toNat (params.selectedOver (b.tablesOf k))) := by
  have hfound : List.Forall₂ (StandsFor pad)
      ((List.range params.sa.length).map fun i => (b.store k i, b.memory k i)) (b.tablesOf k) := by
    rw [tablesOf, List.forall₂_map_left_iff, List.forall₂_map_right_iff, List.forall₂_same]
    exact fun i _ => b.standsFor k i
  have hanswer := answerOver_items server (b.now k) (b.args k) hfound
  rw [pageOf_asked b hcount hk, b.asks k hk] at hanswer
  exact hanswer

theorem shown_eq {k : Nat} (hk : k ≤ last) :
    b.shown k = page (k * params.count.toNat) params.count.toNat (params.selectedOver (b.tablesOf k)) := by
  rw [shown, answer_items b hcount hk, Option.getD_some]

/-- **A client meets every entry** that was in the log at the start and is picked, whatever is written while it goes
from page to page. -/
theorem meetsAll : b.MeetsAll where
  decodes := by
    intro k hk
    rw [answer_items b hcount hk, shown_eq b hcount hk]
  sound := by
    intro k hk item hitem
    rw [shown_eq b hcount hk] at hitem
    have hmem := List.mem_of_mem_drop (List.mem_of_mem_take hitem)
    obtain ⟨i, text, d, hi, hpicks, hdata, hget⟩ := RequestParams.mem_selectedOver.mp hmem
    exact ⟨i, text, d, hi, hpicks, hdata, ((b.refines k i).log _ _ _).mp hget⟩
  bounded := by
    intro k hk
    have hle : (b.shown k).length ≤ params.count.toNat := by
      rw [shown_eq b hcount hk]
      exact List.length_take_le _ _
    omega
  complete := by
    intro hshort m t d hlog hpicked
    have hgrows : ∀ k < last, ((params.selectedOver (b.tablesOf k)).map LogTables.itemKey).Sublist
        ((params.selectedOver (b.tablesOf (k + 1))).map LogTables.itemKey) :=
      fun k _ => params.selectedOver_sublist (b.tablesOf_grow k)
    have hlast : (page (last * params.count.toNat) params.count.toNat
        ((params.selectedOver (b.tablesOf last)).map LogTables.itemKey)).length < params.count.toNat := by
      rw [page_map, List.length_map, ← shown_eq b hcount le_rfl]
      omega
    obtain ⟨k, hk, hmem⟩ := exists_mem_page_of_growing hgrows hlast (b.mem_first hlog hpicked)
    rw [page_map, ← shown_eq b hcount hk] at hmem
    obtain ⟨item, hitem, hkey⟩ := List.mem_map.mp hmem
    exact ⟨k, hk, item, hitem, congrArg Prod.fst hkey, congrArg Prod.snd hkey⟩

end Pages

end Browsing

/-- Pages of two entries, of the addresses "9" and "2:0". -/
def sampleParams : RequestParams := ⟨.log, 0, 250, [[57], [50, 58, 48]], 0, 2, 1⟩

def sampleArgs (k : Nat) : List (Option Bytes × Option Bytes) :=
  [(some [111], some [48 + 2 * UInt8.ofNat k]), (some [115, 97], some [57]), (some [99], some [50]),
    (some [102], some [50, 53, 48]), (some [115, 97], some [50, 58, 48])]

deriving instance DecidableEq for RequestParams

theorem sampleArgs_asks : ∀ k ≤ 2, RequestParams.make 400 Listed.log.path (sampleArgs k) =
    { sampleParams with offset := k * sampleParams.count } := by
  intro k hk
  interval_cases k <;> decide

/-- Between the two scans for the first page, and after it, entries are put before and behind those already read. -/
def sampleTime : Nat → Nat → Nat
  | 0, 0 => 2
  | 0, _ + 1 => 4
  | _ + 1, _ => 5

def sampleBrowsing : Browsing onePageServer 0 sampleParams 2 where
  calls := sampleRun
  time := sampleTime
  memory := fun _ _ => filledMemory 0
  now := fun _ => 400
  args := sampleArgs
  padded := sampleRun_pads
  scansPadded := fun _ _ => rfl
  asks := sampleArgs_asks
  scans := by rintro (_ | k) (_ | i) <;> simp [sampleTime]
  pages := by rintro (_ | k) <;> simp [sampleTime, sampleParams]
  writes := by simp [sampleRun, sampleTime, Op.removesLog]

theorem meetsAll_sample :
    (sampleBrowsing.shown 0).length = 2 ∧ (sampleBrowsing.shown 2).length = 0 ∧ sampleBrowsing.MeetsAll := by
  refine ⟨?_, ?_, sampleBrowsing.meetsAll (by decide)⟩
  · rw [sampleBrowsing.shown_eq (by decide) (by decide)]
    decide
  · rw [sampleBrowsing.shown_eq (by decide) le_rfl]
    decide

end Wacs
