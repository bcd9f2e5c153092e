import Wacs.HttpPages
import Wacs.WacscPrints

/-! The two programs that read the database side by side: asked the same, `wacs-http` answers and `wacsc` prints the
same entries and the same histogram, though they make the arguments of their scans in different ways. -/

namespace Wacs

open OrderBytes OrderedCursor TextJson

/-! ### The filters of a text -/

/-- A scan looks at the bytes of its filter only. -/
theorem readLogPicks_congr {f g : Filter} (hsz : f.sz = g.sz) (hbytes : f.bytes = g.bytes) (start finish : Int) :
    readLogPicks f start finish = readLogPicks g start finish := by
  funext m t
  have hmatches : f.Matches m ↔ g.Matches m := by rw [Filter.Matches, Filter.Matches, hsz, hbytes]
  unfold readLogPicks
  rw [Bool.eq_iff_iff, Bool.and_eq_true, Bool.and_eq_true]
  simp only [decide_eq_true_eq, hmatches, hsz]

/-- Where no byte is read it does not matter whether there is an address. -/
theorem readLogPicks_saFilter (text : Bytes) (start finish : Int) :
    readLogPicks (Http.saFilter text) start finish = readLogPicks (macFilter text) start finish := by
  apply readLogPicks_congr
  · rfl
  · by_cases hnone : (strtomacaddress text).1 ≤ 0
    · have hsz : clampSa (strtomacaddress text).1 = 0 := by
        unfold clampSa
        split_ifs <;> omega
      have hzero : (Http.saFilter text).sz = 0 ∧ (macFilter text).sz = 0 := ⟨hsz, hsz⟩
      rw [Filter.bytes, Filter.bytes, hzero.1, hzero.2, List.take_zero, List.take_zero]
    · have hsa : (Http.saFilter text).sa = (macFilter text).sa := if_neg hnone
      rw [Filter.bytes, Filter.bytes, hsa]
      rfl

theorem LogTables.selected_congr (T : LogTables) {fs gs : Bytes → Filter} {start finish : Int}
    (h : ∀ text, readLogPicks (fs text) start finish = readLogPicks (gs text) start finish) (texts : List Bytes) :
    T.selected (texts.map fs) start finish = T.selected (texts.map gs) start finish := by
  unfold LogTables.selected
  rw [List.flatMap_map, List.flatMap_map]
  exact List.flatMap_congr fun text _ => by rw [h text]

/-! ### The same question -/

/-- A command line asks what a request asks. Without a limit `wacsc` has a way of its own. -/
structure SameQuery (server : HttpServer) (params : RequestParams) (config : Wacsc.Config) : Prop where
  mac : config.mac = params.sa
  start : config.start = params.start
  finish : config.finish = params.finish
  offset : config.offset = sizeT params.offset
  count : sizeT config.count = sizeT (if params.count = 0 then server.count else params.count)
  limited : sizeT config.count ≠ -1
  step : config.stepSeconds = params.step

/-- "/macs-per-time" -/
def macsPerTimePath : Bytes := [47, 109, 97, 99, 115, 45, 112, 101, 114, 45, 116, 105, 109, 101]

/-- What both show of a store: the entries of a page, as JSON and as lines; and a histogram. -/
structure SameShown (server : HttpServer) (config : Wacsc.Config) (memory : Nat → Memory) (sur : Wacsc.Surroundings)
    (now : Int) (args : List (Option Bytes × Option Bytes)) (s : Store) : Prop where
  log : ∃ items, (httpHandler server ⟨true, true, s⟩ memory now Listed.log.path args).items = some items ∧
    (Wacsc.command { config with cmd := .lsLog } sur s).1.out = items.flatMap (logLine sur.zone)
  histogram : ∃ h : HistogramMacsPerTime,
    httpHandler server ⟨true, true, s⟩ memory now macsPerTimePath args = .data h.toJSON ∧
      (Wacsc.command { config with cmd := .macsPerTime } sur s).1.out = h.toString sur.zone ++ [10]

section Shown

variable {server : HttpServer} {params : RequestParams} {config : Wacsc.Config} (h : SameQuery server params config)
include h

theorem SameQuery.pageOf (items : List LogItem) : config.pageOf items = params.pageOf server items := by
  have hsize : pageSize server params = (sizeT config.count).toNat := by rw [pageSize, h.count]
  rw [Wacsc.Config.pageOf, if_neg h.limited, RequestParams.pageOf, hsize, h.offset]

theorem SameQuery.selected (T : LogTables) :
    T.selected (config.mac.map macFilter) config.start config.finish = params.selected T := by
  rw [RequestParams.selected, h.mac, h.start, h.finish]
  exact (LogTables.selected_congr T (fun text => readLogPicks_saFilter text _ _) params.sa).symm

end Shown

/-- The path decides nothing but what is done. -/
theorem make_path (now : Int) (url url' : Bytes) (args : List (Option Bytes × Option Bytes)) :
    RequestParams.make now url args =
      { RequestParams.make now url' args with requestType := RequestParams.parseRequestType url } := by
  rw [RequestParams.make_eq, RequestParams.make_eq]

def RequestParams.histogram (params : RequestParams) (items : List LogItem) : HistogramMacsPerTime :=
  (HistogramMacsPerTime.make params.start params.finish params.step).putAll
    (items.map fun item => (item.dt, item.sa))

theorem macsPerTimeText_open (s : Store) (memory : Nat → Memory) (params : RequestParams) :
    Http.macsPerTimeText ⟨true, true, s⟩ memory params =
      (params.histogram (wholeAnswer .log params.start params.finish s (Http.filters params memory))).toJSON := by
  rw [RequestParams.histogram, ← http_macsPerTime_eq]
  rfl

theorem httpHandler_macsPerTime (server : HttpServer) (s : Store) (memory : Nat → Memory) (now : Int)
    (args : List (Option Bytes × Option Bytes)) :
    httpHandler server ⟨true, true, s⟩ memory now macsPerTimePath args =
      let params := RequestParams.make now macsPerTimePath args
      .data (params.histogram (wholeAnswer .log params.start params.finish s (Http.filters params memory))).toJSON := by
  unfold httpHandler
  dsimp only
  rw [RequestParams.make_requestType]
  show Http.dataAnswer (Http.macsPerTimeText ⟨true, true, s⟩ memory _) = _
  rw [Http.dataAnswer, macsPerTimeText_open, HistogramMacsPerTime.toJSON, if_neg (response_ne_nil _)]

/-- **The front ends agree**: over any run of the collector, `wacs-http` and `wacsc` asked the same show the same,
whatever memory their scans find beyond one alignment byte. -/
theorem front_ends_agree (server : HttpServer) (config : Wacsc.Config) (now : Int)
    (args : List (Option Bytes × Option Bytes))
    (hquery : SameQuery server (RequestParams.make now Listed.log.path args) config) (pad : UInt8) (calls : List Step)
    (hcalls : ∀ c ∈ calls, c.2.pad.key = pad) (memory : Nat → Memory) (hmemory : ∀ i, (memory i).pad.key = pad)
    (sur : Wacsc.Surroundings) (hsur : ∀ i, (sur.memory i).pad.key = pad) (hopens : sur.opens = true) :
    SameShown server config memory sur now args (run .empty calls) := by
  have hrefines := run_refines hcalls
  have hpads := ((constPads_empty pad).run hcalls).2
  generalize LogTables.empty.run (calls.map Prod.fst) = T at hrefines
  have hwhole : ∀ cmd, Wacsc.Config.whole { config with cmd := cmd } sur .log calls =
      (RequestParams.make now Listed.log.path args).selected T := by
    intro cmd
    rw [← hquery.selected T, ← Wacsc.wholeAnswer_filters hrefines hpads config hsur, Wacsc.Config.whole, hopens]
    rfl
  refine ⟨⟨_, items_log hrefines hpads server hmemory now args, ?_⟩,
    ⟨_, httpHandler_macsPerTime server _ memory now args, ?_⟩⟩
  · have hout := Wacsc.listing_out { config with cmd := .lsLog } sur .log calls sur.zone
      fun h => absurd h hquery.limited
    rw [hwhole] at hout
    exact hout.trans (by rw [← hquery.pageOf]; rfl)
  · have hhistogram := Wacsc.histogram_eq { config with cmd := .macsPerTime } sur calls
    have hanswer := hrefines.wholeAnswer hpads
      (filters_padded hmemory (RequestParams.make now macsPerTimePath args))
      (RequestParams.make now macsPerTimePath args).start (RequestParams.make now macsPerTimePath args).finish
    rw [hwhole] at hhistogram
    rw [map_filters, make_path now macsPerTimePath Listed.log.path] at hanswer
    show HistogramMacsPerTime.toString sur.zone _ ++ [10] = _
    rw [hhistogram, make_path now macsPerTimePath Listed.log.path, hanswer, hquery.start, hquery.finish, hquery.step]
    rfl

/-- The request with the sample arguments as a command. -/
def sampleQuery : Wacsc.Config := ⟨0, .none, 1, [[57], [50, 58, 48]], 0, 250, 0, 0, 1, 2, 1⟩

theorem front_ends_agree_sample : SameShown onePageServer sampleQuery (fun _ => filledMemory 0)
    Wacsc.sampleSurroundings 400 pageArgs (run .empty sampleRun) :=
  front_ends_agree onePageServer sampleQuery 400 pageArgs
    ⟨by decide, by decide, by decide, by decide, by decide, by decide, by decide⟩ 0 sampleRun sampleRun_pads
    (fun _ => filledMemory 0) (fun _ => rfl) Wacsc.sampleSurroundings (fun _ => rfl) rfl

end Wacs
