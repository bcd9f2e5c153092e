import Wacs.DblogQuiet
import Wacs.StoreRecords

/-! What the scans visit on a store made of records as they are put. -/

namespace Wacs

open OrderBytes OrderedCursor

/-- Every entry is a record as it is put. -/
def WellFormed (s : Store) : Prop := ∀ e ∈ s.entries, ∃ r : Record, e = r.entry

/-- The log record is in the store, whatever the bytes that are never assigned. -/
def HasLog (s : Store) (sa : Mac) (dt : UInt32) (data : LogData) : Prop :=
  ∃ pad tail, (Record.log sa pad dt data tail).entry ∈ s.entries

/-- The alignment byte of every log record of the address. -/
def PadsOf (s : Store) (sa : Mac) (pad : UInt8) : Prop :=
  ∀ pad' dt data tail, (Record.log sa pad' dt data tail).entry ∈ s.entries → pad' = pad

/-- The time lies in a range, both ends included. -/
def InRange (range : Int × Int) (dt : UInt32) : Prop := range.1 ≤ (dt.toNat : Int) ∧ (dt.toNat : Int) ≤ range.2

instance (range : Int × Int) : DecidablePred (InRange range) := fun dt =>
  inferInstanceAs (Decidable (range.1 ≤ (dt.toNat : Int) ∧ (dt.toNat : Int) ≤ range.2))

/-- What an entry shows of a record, when it is whole. -/
def entryTag (e : Bytes × Bytes) : UInt8 := keyTag (fun _ => 0) e.1

def entrySa (e : Bytes × Bytes) : Mac := keySa (fun _ => 0) e.1

def entryDt (e : Bytes × Bytes) : UInt32 := keyDt (fun _ => 0) e.1

/-- The log entries at the addresses and times of a selection. -/
def onLogs (picks : Mac → UInt32 → Bool) (e : Bytes × Bytes) : Bool :=
  decide (entryTag e = tagL) && picks (entrySa e) (entryDt e)

@[simp] theorem entryTag_entry (r : Record) : entryTag r.entry = r.tag := rfl

@[simp] theorem entrySa_entry (r : Record) : entrySa r.entry = r.sa := keySa_key _ r

@[simp] theorem entryDt_log (m : Mac) (p : UInt8) (t : UInt32) (d : LogData) (e : UInt8) :
    entryDt (Record.log m p t d e).entry = t := keyDt_log _ m p t d e

@[simp] theorem onLogs_log (picks : Mac → UInt32 → Bool) (m : Mac) (p : UInt8) (t : UInt32) (d : LogData)
    (e : UInt8) : onLogs picks (Record.log m p t d e).entry = picks m t := by
  simp [onLogs, Record.tag, Record.sa]

@[simp] theorem onLogs_probe (picks : Mac → UInt32 → Bool) (m : Mac) (t : UInt32) :
    onLogs picks (Record.probe m t).entry = false := by
  simp [onLogs, Record.tag, tagP, tagL]

@[simp] theorem onLogs_note (picks : Mac → UInt32 → Bool) (m : Mac) (stray : Stray) (text : Text) :
    onLogs picks (Record.note m stray text).entry = false := by
  simp [onLogs, Record.tag, tagT, tagL]

theorem tagL_le (r : Record) : tagL ≤ r.tag := by
  cases r <;> simp [Record.tag, tagL, tagP, tagT]

theorem seek_ne_nil {s : Store} {r : Record} (hr : r.entry ∈ s.entries) {k : Bytes} (hle : k ≤ r.key) :
    s.seek k ≠ [] :=
  List.ne_nil_of_mem ((s.mem_seek k r.entry).mpr ⟨hr, hle⟩)

theorem log_of_tag {r : Record} (h : r.tag = tagL) : ∃ m p t d e, r = .log m p t d e := by
  cases r with
  | log m p t d e => exact ⟨m, p, t, d, e, rfl⟩
  | probe => exact absurd h tagP_ne_tagL
  | note => exact absurd h tagT_ne_tagL

/-- Before a log record there are log records only. -/
theorem log_of_key_lt_log {r : Record} {m : Mac} {p : UInt8} {t : UInt32} {d : LogData} {e : UInt8}
    (h : r.key < (Record.log m p t d e).key) : ∃ m' p' t' d' e', r = .log m' p' t' d' e' :=
  log_of_tag (le_antisymm (tag_le_of_key_lt h) (tagL_le r))

/-- A scan over log records from a key on: what its tests hit, where they stop it, and which records come
at or after the key. `late` is whether a record of a matching address does. -/
structure LogScan (s : Store) (f : Filter) (range : Int × Int) (seek : Bytes)
    (test : Bytes × Bytes → Verdict) (late : Mac → UInt32 → Bool) : Prop where
  hit : ∀ r : Record, test r.entry = .hit ↔
    ∃ m p t d e, r = .log m p t d e ∧ f.Matches m ∧ InRange range t
  stop : ∀ m p t d e, test (Record.log m p t d e).entry = .stop →
    ¬f.Matches m ∨ f.sz = 6 ∧ range.2 < (t.toNat : Int)
  from_seek : ∀ m p t d e, seek ≤ (Record.log m p t d e).key → f.bytes ≤ m.val.take f.sz
  late_iff : ∀ m p t d e, (Record.log m p t d e).entry ∈ s.entries → f.Matches m →
    (seek ≤ (Record.log m p t d e).key ↔ late m t = true)
  pads : f.sz = 6 → ∃ pad, PadsOf s f.mac pad

/-- The selection of a scan. -/
def scanPicks (f : Filter) (range : Int × Int) (late : Mac → UInt32 → Bool) (m : Mac) (t : UInt32) : Bool :=
  decide (f.Matches m ∧ InRange range t) && late m t

namespace LogScan

variable {s : Store} {f : Filter} {range : Int × Int} {seek : Bytes} {test : Bytes × Bytes → Verdict}
  {late : Mac → UInt32 → Bool}

theorem hit_iff (h : LogScan s f range seek test late) {r : Record} (hmem : r.entry ∈ s.entries)
    (hle : seek ≤ r.key) : test r.entry = .hit ↔ onLogs (scanPicks f range late) r.entry = true := by
  rw [h.hit]
  cases r with
  | log m p t d e =>
      simp only [onLogs_log, scanPicks, Bool.and_eq_true, decide_eq_true_eq]
      constructor
      · rintro ⟨_, _, _, _, _, heq, hm, ht⟩
        cases heq
        exact ⟨⟨hm, ht⟩, (h.late_iff m p t d e hmem hm).mp hle⟩
      · rintro ⟨⟨hm, ht⟩, -⟩
        exact ⟨m, p, t, d, e, rfl, hm, ht⟩
  | probe => simp
  | note => simp

/-- Past a record that stops the scan there is nothing of the selection. -/
theorem not_picked_of_stop (h : LogScan s f range seek test late) {r r' : Record} (hmem : r.entry ∈ s.entries)
    (hmem' : r'.entry ∈ s.entries) (hle : seek ≤ r.key) (hlt : r.key < r'.key) (hstop : test r.entry = .stop) :
    onLogs (scanPicks f range late) r'.entry = false := by
  cases r' with
  | probe => simp
  | note => simp
  | log m p t d e =>
      obtain ⟨m', p', t', d', e', rfl⟩ := log_of_key_lt_log hlt
      simp only [onLogs_log, scanPicks, Bool.and_eq_false_iff, decide_eq_false_iff_not]
      refine Or.inl fun hpicked => ?_
      by_cases hm' : f.Matches m'
      · -- past the range, at the one address that matches
        obtain ⟨hsz, ht'⟩ := (h.stop m' p' t' d' e' hstop).resolve_left (not_not_intro hm')
        obtain ⟨pad, hpad⟩ := h.pads hsz
        obtain rfl := f.eq_mac_of_matches hsz hpicked.1
        obtain rfl := f.eq_mac_of_matches hsz hm'
        obtain rfl := hpad p t d e hmem'
        obtain rfl := hpad p' t' d' e' hmem
        have htime : t' < t := by simpa [log_key_lt_iff] using hlt
        have := hpicked.2.2
        have := UInt32.lt_iff_toNat_lt.mp htime
        omega
      · -- past the addresses that match
        have hsa := sa_le_of_key_lt hlt rfl
        exact f.not_matches_of_le (h.from_seek m' p' t' d' e' hle) hm' hsa hpicked.1

/-- Before the key sought there is nothing of the selection. -/
theorem not_picked_of_lt (h : LogScan s f range seek test late) {r : Record} (hmem : r.entry ∈ s.entries)
    (hlt : r.key < seek) : onLogs (scanPicks f range late) r.entry = false := by
  cases r with
  | probe => simp
  | note => simp
  | log m p t d e =>
      simp only [onLogs_log, scanPicks, Bool.and_eq_false_iff, decide_eq_false_iff_not]
      by_cases hm : f.Matches m
      · refine Or.inr ?_
        by_contra hl
        exact absurd ((h.late_iff m p t d e hmem hm).mpr (by simpa using hl)) (not_le.mpr hlt)
      · exact Or.inl fun hpicked => hm hpicked.1

/-- The scan visits the entries of its selection. -/
theorem visited_eq (h : LogScan s f range seek test late) (hwf : WellFormed s) :
    visited test (s.seek seek) = s.entries.filter (onLogs (scanPicks f range late)) := by
  rw [visited_eq_filter _ (onLogs (scanPicks f range late))]
  · refine s.filter_seek seek _ fun e he hlt => ?_
    obtain ⟨r, rfl⟩ := hwf e he
    exact h.not_picked_of_lt he hlt
  · intro e he
    obtain ⟨hmem, hle⟩ := (s.mem_seek seek e).mp he
    obtain ⟨r, rfl⟩ := hwf e hmem
    exact h.hit_iff hmem hle
  · refine (s.seek_sorted seek).imp_of_mem fun {a b} ha hb hlt hstop => ?_
    obtain ⟨ha, hle⟩ := (s.mem_seek seek a).mp ha
    obtain ⟨hb, -⟩ := (s.mem_seek seek b).mp hb
    obtain ⟨ra, rfl⟩ := hwf a ha
    obtain ⟨rb, rfl⟩ := hwf b hb
    exact h.not_picked_of_stop ha hb hle hlt hstop

end LogScan

/-! ### The log scans -/

/-- The tests common to the two log scans decide alike on records. -/
theorem keyDt_slack (slack : Slack) (m : Mac) (p : UInt8) (t : UInt32) (d : LogData) (e : UInt8) :
    keyDt (slack (Record.log m p t d e).entry.1) (Record.log m p t d e).entry.1 = t :=
  keyDt_log _ m p t d e

theorem keySa_slack (slack : Slack) (r : Record) : keySa (slack r.entry.1) r.entry.1 = r.sa := keySa_key _ r

theorem keyTag_slack (slack : Slack) (r : Record) : keyTag (slack r.entry.1) r.entry.1 = r.tag := rfl

/-- The records `readLog` reports: with a whole address the key sought bounds the time too. -/
def readLogPicks (f : Filter) (start finish : Int) (m : Mac) (t : UInt32) : Bool :=
  decide (f.Matches m ∧ InRange (timeRange start finish) t) && decide (f.sz = 6 → time32 start ≤ t)

/-- The records `rmLog` removes: the key sought bounds the time at the padded address. -/
def rmLogPicks (f : Filter) (start finish : Int) (m : Mac) (t : UInt32) : Bool :=
  decide (f.Matches m ∧ InRange (timeRange start finish) t) && decide (m = f.mac → time32 start ≤ t)

section LogTests

variable (slack : Slack) (f : Filter) (range : Int × Int)

theorem readLogTest_log (m : Mac) (p : UInt8) (t : UInt32) (d : LogData) (e : UInt8) :
    readLogTest slack f range (Record.log m p t d e).entry =
      if ¬f.Matches m then .stop
      else if (t.toNat : Int) > range.2 then if f.sz = 6 then .stop else .skip
      else if (t.toNat : Int) < range.1 then .skip
      else .hit := by
  have hlen : ¬(Record.log m p t d e).entry.2.length < sizeofLogData := by
    rw [Record.entry, log_value_length]
    exact lt_irrefl _
  rw [readLogTest, if_neg hlen]
  simp only [keySa_slack, keyDt_slack, keyTag_slack, f.mismatch_iff' , Record.sa, Record.tag, ne_eq,
    not_true_eq_false, if_false]

theorem readLogTest_hit_tag {r : Record} (h : readLogTest slack f range r.entry = .hit) :
    r.tag = tagL := by
  rw [readLogTest, keyTag_slack] at h
  split_ifs at h with _ _ _ _ _ htag
  exact not_not.mp htag

theorem rmLogTest_hit_tag {r : Record} (h : rmLogTest slack f range r.entry = .hit) : r.tag = tagL := by
  rw [rmLogTest, keyTag_slack] at h
  split_ifs at h with _ _ _ _ _ htag
  exact not_not.mp htag

theorem readLogTest_hit (r : Record) : readLogTest slack f range r.entry = .hit ↔
    ∃ m p t d e, r = .log m p t d e ∧ f.Matches m ∧ InRange range t := by
  constructor
  · intro h
    obtain ⟨m, p, t, d, e, rfl⟩ := log_of_tag (readLogTest_hit_tag slack f range h)
    rw [readLogTest_log] at h
    split_ifs at h with hm hhi hsz hlo
    exact ⟨m, p, t, d, e, rfl, hm, not_lt.mp hlo, not_lt.mp hhi⟩
  · rintro ⟨m, p, t, d, e, rfl, hm, hlo, hhi⟩
    rw [readLogTest_log, if_neg (not_not_intro hm), if_neg (not_lt.mpr hhi), if_neg (not_lt.mpr hlo)]

theorem rmLogTest_log (m : Mac) (p : UInt8) (t : UInt32) (d : LogData) (e : UInt8) :
    rmLogTest slack f range (Record.log m p t d e).entry =
      readLogTest slack f range (Record.log m p t d e).entry := by
  have hlen : ¬((Record.log m p t d e).entry.2.length < sizeofLogData ∨
      (Record.log m p t d e).entry.1.length < sizeofLogKey) := by
    rw [Record.entry, log_value_length, log_key_length]
    simp
  rw [readLogTest_log, rmLogTest, if_neg hlen]
  simp only [keySa_slack, keyDt_slack, keyTag_slack, f.mismatch_iff, Record.sa, Record.tag, ne_eq,
    not_true_eq_false, if_false]

theorem rmLogTest_hit (r : Record) : rmLogTest slack f range r.entry = .hit ↔
    ∃ m p t d e, r = .log m p t d e ∧ f.Matches m ∧ InRange range t := by
  rw [← readLogTest_hit slack f range r]
  refine ⟨fun h => ?_, fun h => ?_⟩
  · obtain ⟨m, p, t, d, e, rfl⟩ := log_of_tag (rmLogTest_hit_tag slack f range h)
    exact (rmLogTest_log slack f range m p t d e).symm.trans h
  · obtain ⟨m, p, t, d, e, rfl⟩ := log_of_tag (readLogTest_hit_tag slack f range h)
    exact (rmLogTest_log slack f range m p t d e).trans h

theorem readLogTest_stop {m : Mac} {p : UInt8} {t : UInt32} {d : LogData} {e : UInt8}
    (h : readLogTest slack f range (Record.log m p t d e).entry = .stop) :
    ¬f.Matches m ∨ f.sz = 6 ∧ range.2 < (t.toNat : Int) := by
  rw [readLogTest_log] at h
  by_cases hm : f.Matches m
  · rw [if_neg (not_not_intro hm)] at h
    split_ifs at h with hhi hsz
    exact Or.inr ⟨hsz, hhi⟩
  · exact Or.inl hm

end LogTests

section LogSeeks

variable {s : Store} {f : Filter} {start : Int} {pad : UInt8}

/-- A whole key at the filter's address bounds the address of what comes at or after it. -/
theorem mac_le_of_seek {m : Mac} {p : UInt8} {t : UInt32} {d : LogData} {e : UInt8}
    (h : rmLogSeek f start pad ≤ (Record.log m p t d e).key) : f.mac ≤ m := by
  have hkey : (Record.log f.mac pad (time32 start) d e).key ≤ (Record.log m p t d e).key := h
  rcases hkey.lt_or_eq with hlt | heq
  · exact sa_le_of_key_lt hlt rfl
  · exact ((key_eq_iff _ _).mp heq).2.1.le

/-- At a matching address the whole key bounds the time, when no other alignment byte is about. -/
theorem seek_le_iff {m : Mac} {t : UInt32} {d : LogData} {e p : UInt8} (hm : f.Matches m)
    (hpad : m = f.mac → p = pad) :
    rmLogSeek f start pad ≤ (Record.log m p t d e).key ↔ (m = f.mac → time32 start ≤ t) := by
  have hseek : rmLogSeek f start pad = (Record.log f.mac pad (time32 start) d e).key := rfl
  rw [hseek, ← not_lt, log_key_lt_iff]
  have hle := f.mac_le hm
  constructor
  · intro h heq
    by_contra hlt
    exact h (Or.inr ⟨heq, Or.inr ⟨hpad heq, UInt32.not_le.mp hlt⟩⟩)
  · rintro h (hlt | ⟨heq, hlt | ⟨-, hlt⟩⟩)
    · exact absurd hle (not_le.mpr hlt)
    · exact hlt.ne (hpad heq)
    · exact absurd (h heq) (UInt32.not_le.mpr hlt)

theorem readLogSeek_whole (hsz : f.sz = 6) : readLogSeek f start pad = rmLogSeek f start pad := if_pos hsz

theorem bytes_le_of_readLogSeek {m : Mac} {p : UInt8} {t : UInt32} {d : LogData} {e : UInt8}
    (h : readLogSeek f start pad ≤ (Record.log m p t d e).key) : f.bytes ≤ m.val.take f.sz := by
  by_cases hsz : f.sz = 6
  · rw [readLogSeek_whole hsz] at h
    exact f.bytes_le_take (mac_le_of_seek h)
  · rw [readLogSeek, if_neg hsz, prefix_le_key_iff _ _ (by simpa using f.sz_le)] at h
    rcases h with h | h
    · exact absurd h (lt_irrefl _)
    · have hle := h.2
      rwa [f.bytes_length] at hle

theorem readLogSeek_le_iff {m : Mac} {t : UInt32} {d : LogData} {e p : UInt8} (hm : f.Matches m)
    (hpad : f.sz = 6 → m = f.mac → p = pad) :
    readLogSeek f start pad ≤ (Record.log m p t d e).key ↔ (f.sz = 6 → time32 start ≤ t) := by
  by_cases hsz : f.sz = 6
  · rw [readLogSeek_whole hsz, seek_le_iff hm (hpad hsz)]
    simp [hsz, f.eq_mac_of_matches hsz hm]
  · rw [readLogSeek, if_neg hsz, prefix_le_key_iff _ _ (by simpa using f.sz_le), f.bytes_length]
    have hle : f.bytes ≤ m.val.take f.sz := hm.ge
    simp [hsz, Record.tag, Record.sa, hle]

end LogSeeks

/-- A log record that a scan comes to and takes: of a matching address, with a time of the range, at or after the
key sought, and for a whole address with no later time before it. -/
def ComesTo (s : Store) (f : Filter) (range : Int × Int) (seek : Bytes) (m : Mac) (p : UInt8) (t : UInt32)
    (d : LogData) (e : UInt8) : Prop :=
  (Record.log m p t d e).entry ∈ s.entries ∧ f.Matches m ∧ InRange range t ∧ seek ≤ (Record.log m p t d e).key ∧
    (f.sz = 6 → ∀ p' t' d' e', (Record.log m p' t' d' e').entry ∈ s.entries →
      seek ≤ (Record.log m p' t' d' e').key → (Record.log m p' t' d' e').key < (Record.log m p t d e).key →
        (t'.toNat : Int) ≤ range.2)

theorem readLogTest_log_hit (slack : Slack) (f : Filter) (range : Int × Int) (m : Mac) (p : UInt8) (t : UInt32)
    (d : LogData) (e : UInt8) :
    readLogTest slack f range (Record.log m p t d e).entry = .hit ↔ f.Matches m ∧ InRange range t := by
  rw [readLogTest_hit]
  constructor
  · rintro ⟨_, _, _, _, _, heq, hm, ht⟩
    cases heq
    exact ⟨hm, ht⟩
  · exact fun h => ⟨m, p, t, d, e, rfl, h.1, h.2⟩

section ComesTo

variable {s : Store} {f : Filter} {range : Int × Int} {seek : Bytes} {slack : Slack} {test : Bytes × Bytes → Verdict}
  (htest : ∀ m p t d e, test (Record.log m p t d e).entry = readLogTest slack f range (Record.log m p t d e).entry)
  (hfrom : ∀ m p t d e, seek ≤ (Record.log m p t d e).key → f.bytes ≤ m.val.take f.sz)
include htest hfrom

/-- What ends a scan before a record of a matching address is a later time of the same address, and this only when
the whole address is given. -/
theorem late_of_stop_before {r : Record} {m : Mac} {p : UInt8} {t : UInt32} {d : LogData} {e : UInt8}
    (hm : f.Matches m) (hle : seek ≤ r.key) (hlt : r.key < (Record.log m p t d e).key) (hstop : test r.entry = .stop) :
    f.sz = 6 ∧ ∃ p' t' d' e', r = .log m p' t' d' e' ∧ range.2 < (t'.toNat : Int) := by
  obtain ⟨m', p', t', d', e', rfl⟩ := log_of_key_lt_log hlt
  have hm' : f.Matches m' := by
    by_contra hno
    exact f.not_matches_of_le (hfrom m' p' t' d' e' hle) hno (sa_le_of_key_lt hlt rfl) hm
  obtain ⟨hsz, hlate⟩ := (readLogTest_stop slack f _ ((htest m' p' t' d' e').symm.trans hstop)).resolve_left
    (not_not_intro hm')
  obtain rfl := f.eq_mac_of_matches hsz hm
  obtain rfl := f.eq_mac_of_matches hsz hm'
  exact ⟨hsz, p', t', d', e', rfl, hlate⟩

/-- A scan with the tests of `readLog` visits the log records it comes to. -/
theorem mem_visited_log (hwf : WellFormed s) (m : Mac) (p : UInt8) (t : UInt32) (d : LogData) (e : UInt8) :
    (Record.log m p t d e).entry ∈ visited test (s.seek seek) ↔ ComesTo s f range seek m p t d e := by
  have hhit : test (Record.log m p t d e).entry = .hit ↔ f.Matches m ∧ InRange range t := by
    rw [htest, readLogTest_log_hit]
  rw [mem_visited _ (s.seek_sorted _), hhit, s.mem_seek]
  constructor
  · rintro ⟨⟨hmem, hle⟩, ⟨hm, ht⟩, hbefore⟩
    refine ⟨hmem, hm, ht, hle, fun hsz p' t' d' e' hmem' hle' hlt => ?_⟩
    by_contra hlate
    refine hbefore _ ((s.mem_seek _ _).mpr ⟨hmem', hle'⟩) hlt ?_
    rw [htest, readLogTest_log, if_neg (not_not_intro hm), if_pos (not_le.mp hlate), if_pos hsz]
  · rintro ⟨hmem, hm, ht, hle, hlast⟩
    refine ⟨⟨hmem, hle⟩, ⟨hm, ht⟩, fun y hy hlt hstop => ?_⟩
    obtain ⟨hmem', hle'⟩ := (s.mem_seek _ y).mp hy
    obtain ⟨r, rfl⟩ := hwf y hmem'
    obtain ⟨hsz, p', t', d', e', rfl, hlate⟩ := late_of_stop_before htest hfrom hm hle' hlt hstop
    exact absurd (hlast hsz p' t' d' e' hmem' hle' hlt) (not_le.mpr hlate)

end ComesTo

/-- `readLog` visits the log records of its selection, in key order. -/
theorem readLog_visited {s : Store} (hwf : WellFormed s) (slack : Slack) (f : Filter) (start finish : Int)
    {pad : UInt8} (hpad : f.sz = 6 → PadsOf s f.mac pad) :
    visited (readLogTest slack f (timeRange start finish)) (s.seek (readLogSeek f start pad)) =
      s.entries.filter (onLogs (readLogPicks f start finish)) := by
  refine LogScan.visited_eq ⟨readLogTest_hit slack f _, ?_, ?_, ?_, fun hsz => ⟨pad, hpad hsz⟩⟩ hwf
  · exact fun m p t d e h => readLogTest_stop slack f _ h
  · exact fun m p t d e h => bytes_le_of_readLogSeek h
  · intro m p t d e hmem hm
    rw [readLogSeek_le_iff hm fun hsz heq => hpad hsz p t d e (heq ▸ hmem), decide_eq_true_iff]

/-- `rmLog` visits the log records of its selection. -/
theorem rmLog_visited {s : Store} (hwf : WellFormed s) (slack : Slack) (f : Filter) (start finish : Int)
    {pad : UInt8} (hpad : PadsOf s f.mac pad) :
    visited (rmLogTest slack f (timeRange start finish)) (s.seek (rmLogSeek f start pad)) =
      s.entries.filter (onLogs (rmLogPicks f start finish)) := by
  refine LogScan.visited_eq ⟨rmLogTest_hit slack f _, ?_, ?_, ?_, fun _ => ⟨pad, hpad⟩⟩ hwf
  · exact fun m p t d e h => readLogTest_stop slack f _ ((rmLogTest_log slack f _ m p t d e).symm.trans h)
  · exact fun m p t d e h => f.bytes_le_take (mac_le_of_seek h)
  · intro m p t d e hmem hm
    rw [seek_le_iff hm fun heq => hpad p t d e (heq ▸ hmem), decide_eq_true_iff]

/-- The end of a range: `finish`, or the last time there is when it is zero. -/
def rangeEnd (finish : Int) : Int := if finish = 0 then 2 ^ 32 - 1 else finish

/-- A range the right way round is itself. -/
theorem timeRange_of_le {start finish : Int} (h : start ≤ rangeEnd finish) :
    timeRange start finish = (start, rangeEnd finish) :=
  if_neg (not_lt.mpr h)

theorem time32_le_iff {start : Int} (h : 0 ≤ start) (hlt : start < 2 ^ 32) (t : UInt32) :
    time32 start ≤ t ↔ start ≤ (t.toNat : Int) := by
  rw [UInt32.le_iff_toNat_le, time32, UInt32.toNat_ofNat']
  omega

/-- The log entries of a filter and a range of times. -/
def logPicks (f : Filter) (start finish : Int) (m : Mac) (t : UInt32) : Bool :=
  decide (f.Matches m ∧ InRange (start, rangeEnd finish) t)

section RightWayRound

variable (f : Filter) {start finish : Int} (hstart : 0 ≤ start) (hle : start ≤ rangeEnd finish)
  (hlt : rangeEnd finish < 2 ^ 32)

include hstart hle hlt

/-- On a range the right way round the time in the key sought changes nothing. -/
theorem time32_le_of_inRange {t : UInt32} (h : InRange (start, rangeEnd finish) t) : time32 start ≤ t :=
  (time32_le_iff hstart (hle.trans_lt hlt) t).mpr h.1

theorem readLogPicks_eq : readLogPicks f start finish = logPicks f start finish := by
  funext m t
  rw [readLogPicks, logPicks, timeRange_of_le hle]
  by_cases h : f.Matches m ∧ InRange (start, rangeEnd finish) t
  · simp [h, time32_le_of_inRange hstart hle hlt h.2]
  · simp [h]

theorem rmLogPicks_eq : rmLogPicks f start finish = logPicks f start finish := by
  funext m t
  rw [rmLogPicks, logPicks, timeRange_of_le hle]
  by_cases h : f.Matches m ∧ InRange (start, rangeEnd finish) t
  · simp [h, time32_le_of_inRange hstart hle hlt h.2]
  · simp [h]

end RightWayRound

/-! ### The notification scans -/

/-- The notification entries at the addresses of a selection. -/
def onNotes (picks : Mac → Bool) (e : Bytes × Bytes) : Bool := decide (entryTag e = tagT) && picks (entrySa e)

@[simp] theorem onNotes_log (picks : Mac → Bool) (m : Mac) (p : UInt8) (t : UInt32) (d : LogData)
    (e : UInt8) : onNotes picks (Record.log m p t d e).entry = false := by
  simp [onNotes, Record.tag, tagT, tagL]

@[simp] theorem onNotes_probe (picks : Mac → Bool) (m : Mac) (t : UInt32) :
    onNotes picks (Record.probe m t).entry = false := by
  simp [onNotes, Record.tag, tagT, tagP]

@[simp] theorem onNotes_note (picks : Mac → Bool) (m : Mac) (stray : Stray) (text : Text) :
    onNotes picks (Record.note m stray text).entry = picks m := by
  simp [onNotes, Record.tag, Record.sa]

/-- The entries of a selection of notifications are notifications at addresses of the selection. -/
theorem note_of_onNotes {s : Store} (hwf : WellFormed s) {picks : Mac → Bool} {x : Bytes × Bytes}
    (h : x ∈ s.entries.filter (onNotes picks)) : ∃ m stray text, x = (Record.note m stray text).entry ∧
      (Record.note m stray text).entry ∈ s.entries ∧ picks m = true := by
  obtain ⟨hmem, hpick⟩ := List.mem_filter.mp h
  obtain ⟨r, rfl⟩ := hwf x hmem
  cases r with
  | log => simp at hpick
  | probe => simp at hpick
  | note m stray text => exact ⟨m, stray, text, rfl, hmem, by simpa using hpick⟩

/-- After a key of the notification table there are notifications only. -/
theorem note_of_le_key {b : Bytes} (hb : b.length ≤ 6) {r : Record} (h : tagT :: b ≤ r.key) :
    ∃ m stray text, r = .note m stray text ∧ b ≤ m.val.take b.length := by
  rw [prefix_le_key_iff _ _ hb] at h
  cases r with
  | log => exact absurd h (by simp [Record.tag, tagT, tagL])
  | probe => exact absurd h (by simp [Record.tag, tagT, tagP])
  | note m stray text =>
      rcases h with h | h
      · exact absurd h (lt_irrefl _)
      · exact ⟨m, stray, text, rfl, h.2⟩

/-- A scan from a key of the notification table on that stops at the first address that is not selected visits
the selection, when the key is not past it and no selected address follows one that is not. -/
theorem notes_visited {s : Store} (hwf : WellFormed s) {b : Bytes} (hb : b.length ≤ 6) {picks : Mac → Bool}
    {test : Bytes × Bytes → Verdict}
    (htest : ∀ m stray text, test (Record.note m stray text).entry = if picks m = true then .hit else .stop)
    (hfrom : ∀ m, picks m = true → b ≤ m.val.take b.length)
    (hpast : ∀ m m', b ≤ m.val.take b.length → picks m = false → m ≤ m' → picks m' = false) :
    visited test (s.seek (tagT :: b)) = s.entries.filter (onNotes picks) := by
  rw [visited_eq_filter _ (onNotes picks)]
  · refine s.filter_seek _ _ fun e he hbefore => ?_
    rw [Bool.eq_false_iff]
    intro hpick
    obtain ⟨m, stray, text, rfl, -, hm⟩ := note_of_onNotes hwf (List.mem_filter.mpr ⟨he, hpick⟩)
    exact absurd hbefore (not_lt.mpr ((prefix_le_key_iff _ _ hb _).mpr (Or.inr ⟨rfl, hfrom m hm⟩)))
  · intro e he
    obtain ⟨hmem, hle⟩ := (s.mem_seek _ e).mp he
    obtain ⟨r, rfl⟩ := hwf e hmem
    obtain ⟨m, stray, text, rfl, -⟩ := note_of_le_key hb hle
    rw [htest, onNotes_note]
    split_ifs with hm <;> simp [hm]
  · refine (s.seek_sorted _).imp_of_mem fun {a a'} ha ha' hkey hs => ?_
    obtain ⟨ha, hle⟩ := (s.mem_seek _ a).mp ha
    obtain ⟨ha', hle'⟩ := (s.mem_seek _ a').mp ha'
    obtain ⟨r, rfl⟩ := hwf a ha
    obtain ⟨r', rfl⟩ := hwf a' ha'
    obtain ⟨m, stray, text, rfl, hbytes⟩ := note_of_le_key hb hle
    obtain ⟨m', stray', text', rfl, -⟩ := note_of_le_key hb hle'
    rw [htest] at hs
    rw [onNotes_note]
    split_ifs at hs with hm
    have hlt : (Record.note m stray text).key < (Record.note m' stray' text').key := hkey
    exact hpast m m' hbytes (Bool.eq_false_iff.mpr hm) (sa_le_of_key_lt hlt rfl)

namespace NotePrefix

variable (p : NotePrefix)

/-- The address begins with the prefix. -/
def Matches (m : Mac) : Prop := m.val.take p.sz = p.bytes

instance : DecidablePred p.Matches := fun m => inferInstanceAs (Decidable (m.val.take p.sz = p.bytes))

theorem sz_le : p.sz ≤ 6 := by
  unfold sz
  split_ifs <;> omega

@[simp] theorem bytes_length : p.bytes.length = p.sz := by
  rw [bytes, List.length_take]
  exact Nat.min_eq_left p.readable

end NotePrefix

theorem rmNotificationTest_note (slack : Slack) (p : NotePrefix) (m : Mac) (stray : Stray) (text : Text) :
    rmNotificationTest slack p (Record.note m stray text).entry = if ¬p.Matches m then .stop else .hit := by
  have hlen : ¬(Record.note m stray text).entry.1.length < 6 :=
    not_lt.mpr (le_trans (by decide) (key_length_ge _))
  rw [rmNotificationTest, if_neg hlen]
  simp only [keySa_slack, keyTag_slack, Record.sa, Record.tag, ne_eq, not_true_eq_false, if_false]
  rfl

/-- `rmNotification` visits the notifications of the addresses with its prefix. -/
theorem rmNotification_visited {s : Store} (hwf : WellFormed s) (slack : Slack) (p : NotePrefix) :
    visited (rmNotificationTest slack p) (s.seek (tagT :: p.bytes)) =
      s.entries.filter (onNotes fun m => decide (p.Matches m)) := by
  apply notes_visited hwf (by simpa using p.sz_le)
  · intro m stray text
    rw [rmNotificationTest_note]
    by_cases hm : p.Matches m
    · rw [if_neg (not_not_intro hm), if_pos (decide_eq_true hm)]
    · rw [if_pos hm, if_neg (by simpa using hm)]
  · intro m hm
    rw [p.bytes_length]
    exact (of_decide_eq_true hm).ge
  · intro m m' hbytes hm hle
    rw [p.bytes_length] at hbytes
    apply decide_eq_false
    intro hm'
    have htake := take_le_take p.sz hle
    exact of_decide_eq_false hm (le_antisymm (htake.trans hm'.le) hbytes)

/-- `lsNotification` visits every notification. -/
theorem lsNotification_visited {s : Store} (hwf : WellFormed s) :
    visited lsNotificationTest (s.seek lsNotificationSeek) = s.entries.filter (onNotes fun _ => true) := by
  apply notes_visited hwf (by decide)
  · intro m stray text
    have hkey : ¬(Record.note m stray text).entry.1.length < 6 :=
      not_lt.mpr (le_trans (by decide) (key_length_ge _))
    have hval : ¬(Record.note m stray text).entry.2.length ≤ 0 := fun h => text.property (Nat.le_zero.mp h)
    exact if_neg (not_or.mpr ⟨hval, hkey⟩)
  · -- the zeros sought come at or before every address
    intro m _
    have hlen : (m.val.take 5).length = 5 := by rw [List.length_take, m.property]; rfl
    have hzeros := zeros_le (m.val.take 5)
    rw [hlen] at hzeros
    exact hzeros
  · intro _ _ _ h
    cases h

end Wacs
