import Wacs.Histogram

/-! `macsPerTime` of `wacsc` and of the HTTP server: the log listed into a histogram, which takes the bounds of the
range as they are given, where `readLog` puts them in order first. -/

namespace Wacs

open OrderedCursor HistogramMacsPerTime

namespace Wacsc

/-- The callback of `wacsc`, with the flag of an interrupt. -/
def onLogHistogram (interruptFlag : Bool) : OnLog HistogramMacsPerTime := fun h item =>
  (h.put item.dt.toNat item.sa, interruptFlag)

/-- The loop of `macsPerTime` over the filters left, which returns the last result. -/
def macsPerTime (start finish : Int) (s : Store) :
    Int → HistogramMacsPerTime → List (Filter × Memory) → Int × HistogramMacsPerTime
  | r, retval, [] => (r, retval)
  | _, retval, x :: mac =>
      let r := listOnce .log start finish (onLogHistogram false) s retval x
      macsPerTime start finish s r.1 r.2 mac

end Wacsc

namespace Http

def onLogHistogram : OnLog HistogramMacsPerTime := fun h item => (h.put item.dt.toNat item.sa, false)

def macsPerTime (start finish : Int) (s : Store) :
    HistogramMacsPerTime → List (Filter × Memory) → HistogramMacsPerTime
  | retval, [] => retval
  | retval, x :: sa =>
      macsPerTime start finish s (listOnce .log start finish onLogHistogram s retval x).2 sa

end Http

def HistogramMacsPerTime.total (h : HistogramMacsPerTime) : Nat := (h.histogram.entries.map Prod.snd).sum

theorem deliver_onLogHistogram (h : HistogramMacsPerTime) (items : List LogItem) :
    deliver Http.onLogHistogram h items = h.putAll (items.map fun item => (item.dt, item.sa)) := by
  induction items generalizing h with
  | nil => rfl
  | cons item items ih => exact ih (h.put item.dt.toNat item.sa)

theorem http_macsPerTime_eq (start finish : Int) (s : Store) (h : HistogramMacsPerTime) (sa : List (Filter × Memory)) :
    Http.macsPerTime start finish s h sa =
      h.putAll ((wholeAnswer .log start finish s sa).map fun item => (item.dt, item.sa)) := by
  induction sa generalizing h with
  | nil => rfl
  | cons x sa ih =>
      have hwhole : wholeAnswer .log start finish s (x :: sa) =
          unpaged .log start finish s x ++ wholeAnswer .log start finish s sa := rfl
      calc Http.macsPerTime start finish s h (x :: sa)
          = Http.macsPerTime start finish s
              (h.putAll ((unpaged .log start finish s x).map fun item => (item.dt, item.sa))) sa := by
            rw [Http.macsPerTime, listOnce_env, deliver_onLogHistogram]
        _ = (h.putAll ((unpaged .log start finish s x).map fun item => (item.dt, item.sa))).putAll
              ((wholeAnswer .log start finish s sa).map fun item => (item.dt, item.sa)) := ih _
        _ = h.putAll ((wholeAnswer .log start finish s (x :: sa)).map fun item => (item.dt, item.sa)) := by
            rw [hwhole, List.map_append, putAll, putAll, putAll, List.foldl_append]

theorem wacsc_macsPerTime_eq (start finish : Int) (s : Store) (r : Int) (h : HistogramMacsPerTime)
    (mac : List (Filter × Memory)) :
    (Wacsc.macsPerTime start finish s r h mac).2 = Http.macsPerTime start finish s h mac := by
  induction mac generalizing r h with
  | nil => rfl
  | cons x mac ih => exact ih _ _

theorem total_putAll (start finish step : Int) (puts : List (UInt32 × Mac)) :
    ((make start finish step).putAll puts).total = (counted start finish puts).length := by
  rw [total, putAll_make, OrderedMap.sum_tally, List.length_map]

/-! ### Records in the range of the histogram -/

/-- No log record that a scan of some filter comes to has a time out of the range as it is given. -/
def NoneOutside (s : Store) (start finish : Int) (mac : List (Filter × Memory)) : Prop :=
  ∀ x ∈ mac, ∀ m p t d e, ComesTo s x.1 (timeRange start finish) (readLogSeek x.1 start x.2.pad.key) m p t d e →
    start ≤ (t.toNat : Int) ∧ (t.toNat : Int) ≤ finish

theorem noneOutside_of_le {start finish : Int} (hfinish : finish ≠ 0) (hle : start ≤ finish) (s : Store)
    (mac : List (Filter × Memory)) : NoneOutside s start finish mac := by
  have hend : rangeEnd finish = finish := if_neg hfinish
  rintro x - m p t d e ⟨-, -, ht, -, -⟩
  rwa [timeRange_of_le (by rwa [hend]), hend] at ht

theorem forall_listed_iff {s : Store} (hwf : WellFormed s) (start finish : Int) (mac : List (Filter × Memory)) :
    (∀ item ∈ wholeAnswer .log start finish s mac, start ≤ (item.dt.toNat : Int) ∧ (item.dt.toNat : Int) ≤ finish) ↔
      NoneOutside s start finish mac := by
  have hcomes : ∀ x : Filter × Memory, ∀ m p t d e, (Record.log m p t d e).entry ∈
      visited (readLogTest x.2.slack x.1 (timeRange start finish)) (s.seek (readLogSeek x.1 start x.2.pad.key)) ↔
        ComesTo s x.1 (timeRange start finish) (readLogSeek x.1 start x.2.pad.key) m p t d e := fun x =>
    mem_visited_log (fun _ _ _ _ _ => rfl) (fun _ _ _ _ _ h => bytes_le_of_readLogSeek h) hwf
  have hlist : ∀ x : Filter × Memory, unpaged .log start finish s x =
      (visited (readLogTest x.2.slack x.1 (timeRange start finish)) (s.seek (readLogSeek x.1 start x.2.pad.key))).map
        (readLogItem x.2.slack) := unpaged_eq .log start finish s
  constructor
  · intro h x hx m p t d e hrecord
    have hlisted := List.mem_map_of_mem (f := readLogItem x.2.slack) ((hcomes x m p t d e).mpr hrecord)
    rw [← hlist] at hlisted
    have hrange := h _ (List.mem_flatten_of_mem (List.mem_map_of_mem hx) hlisted)
    rwa [readLogItem, keyDt_slack] at hrange
  · intro h item hitem
    obtain ⟨l, hl, hitem⟩ := List.mem_flatten.mp hitem
    obtain ⟨x, hx, rfl⟩ := List.mem_map.mp hl
    rw [hlist] at hitem
    obtain ⟨e, he, rfl⟩ := List.mem_map.mp hitem
    obtain ⟨r, rfl⟩ := hwf e ((s.mem_seek _ e).mp (visited_hit he).1).1
    obtain ⟨m, p, t, d, y, rfl, -⟩ := (readLogTest_hit _ _ _ r).mp (visited_hit he).2
    rw [readLogItem, keyDt_slack]
    exact h x hx m p t d y ((hcomes x m p t d y).mp he)

/-- The counts of the histograms of both programs add up to the number of records that are listed. -/
structure AccountsForAll (s : Store) (start finish step : Int) (mac : List (Filter × Memory)) : Prop where
  wacsc : (Wacsc.macsPerTime start finish s 0 (make start finish step) mac).2.total =
    (wholeAnswer .log start finish s mac).length
  http : (Http.macsPerTime start finish s (make start finish step) mac).total =
    (wholeAnswer .log start finish s mac).length

/-- Over any reachable store the histogram accounts for every record listed exactly when all of them lie in the
range as it is given. -/
theorem accountsForAll_iff (calls : List Step) (start finish step : Int) (mac : List (Filter × Memory)) :
    AccountsForAll (run .empty calls) start finish step mac ↔ NoneOutside (run .empty calls) start finish mac := by
  have htotal : (Http.macsPerTime start finish (run .empty calls) (make start finish step) mac).total =
      ((wholeAnswer .log start finish (run .empty calls) mac).filter fun item =>
        decide (start ≤ (item.dt.toNat : Int) ∧ (item.dt.toNat : Int) ≤ finish)).length := by
    rw [http_macsPerTime_eq, total_putAll, counted, List.map_map, List.filter_map, List.length_map]
    rfl
  have hhttp : (Http.macsPerTime start finish (run .empty calls) (make start finish step) mac).total =
      (wholeAnswer .log start finish (run .empty calls) mac).length ↔
        NoneOutside (run .empty calls) start finish mac := by
    rw [htotal, List.length_filter_eq_length_iff, ← forall_listed_iff (run_wellFormed calls)]
    simp only [decide_eq_true_eq]
  constructor
  · exact fun h => hhttp.mp h.http
  · intro h
    refine ⟨?_, hhttp.mpr h⟩
    rw [wacsc_macsPerTime_eq]
    exact hhttp.mpr h

/-- Without a limit the record is listed and not counted. -/
theorem no_limit_counts_nothing : ¬∀ (calls : List Step) (start finish step : Int) (mac : List (Filter × Memory)),
    0 ≤ start → 0 ≤ finish → AccountsForAll (run .empty calls) start finish step mac := by
  intro h
  have htotal := (h [(.putLog sampleBuffer 100, filledMemory 0)] 0 0 1 [(anyMac, filledMemory 0)] le_rfl le_rfl).http
  exact absurd htotal (by decide)

end Wacs
