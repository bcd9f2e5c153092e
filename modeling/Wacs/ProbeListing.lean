import Wacs.StoreRuns

/-! `readLastProbe` lists the last probes, and with them, where the scan gets that far, the notifications
that are long enough to be taken for one. -/

namespace Wacs

open OrderBytes OrderedCursor

/-- A record of the last-probe table as the callback is to be given it. -/
def probeItem (e : Bytes × Bytes) : LogItem := ⟨entrySa e, valueTime e.2, none⟩

/-- The last-probe records of a filter and a range of times. -/
def onProbes (f : Filter) (start finish : Int) (e : Bytes × Bytes) : Bool :=
  decide (entryTag e = tagP ∧ f.Matches (entrySa e) ∧ InRange (start, rangeEnd finish) (valueTime e.2))

/-- The items are those of the last-probe records, by ascending address. -/
def ListsProbes (items : List LogItem) (s : Store) (f : Filter) (start finish : Int) : Prop :=
  items = (s.entries.filter (onProbes f start finish)).map probeItem ∧
    (items.map LogItem.sa).Pairwise (· < ·)

/-- A notification the scan takes for a last probe: its first bytes make a time of the range, its address
matches, and nothing ends the scan before it. -/
def ForeignProbe (s : Store) (f : Filter) (start finish : Int) : Prop :=
  (∃ m stray text, (Record.note m stray text).entry ∈ s.entries ∧ sizeofTimeT ≤ text.val.length ∧
      f.Matches m ∧ InRange (start, rangeEnd finish) (valueTime text.val)) ∧
    (∀ m t, (Record.probe m t).entry ∈ s.entries → ¬f.bytes < m.val.take f.sz) ∧
    ∀ m stray text, (Record.note m stray text).entry ∈ s.entries → sizeofTimeT ≤ text.val.length →
      ¬m.val.take f.sz < f.bytes

section Tests

variable (slack : Slack) (f : Filter) (range : Int × Int)

/-- The tests of the scan on an address and a time. -/
def probeVerdict (m : Mac) (t : UInt32) : Verdict :=
  if ¬f.Matches m then .stop else if ¬InRange range t then .skip else .hit

theorem readLastProbeTest_of_length (r : Record) (hval : ¬r.value.length < sizeofTimeT) :
    readLastProbeTest slack f range r.entry = probeVerdict f range r.sa (valueTime r.value) := by
  have hlen : ¬(r.entry.1.length < sizeofLastProbeKey ∨ r.entry.2.length < sizeofTimeT) :=
    not_or.mpr ⟨not_lt.mpr (key_length_ge r), hval⟩
  rw [readLastProbeTest, if_neg hlen, probeVerdict]
  simp only [keySa_slack, f.mismatch_iff]
  congr 1
  unfold InRange
  simp only [not_and_or, not_le, or_comm]
  rfl

theorem readLastProbeTest_probe (m : Mac) (t : UInt32) :
    readLastProbeTest slack f range (Record.probe m t).entry = probeVerdict f range m t := by
  rw [readLastProbeTest_of_length slack f range _ (by rw [probe_value_length]; exact lt_irrefl _),
    valueTime_probe]
  rfl

theorem readLastProbeTest_note (m : Mac) (stray : Stray) (text : Text) :
    readLastProbeTest slack f range (Record.note m stray text).entry =
      if text.val.length < sizeofTimeT then .skip else probeVerdict f range m (valueTime text.val) := by
  split_ifs with hlen
  · exact if_pos (Or.inr hlen)
  · exact readLastProbeTest_of_length slack f range _ hlen

theorem probeVerdict_hit_iff (m : Mac) (t : UInt32) :
    probeVerdict f range m t = .hit ↔ f.Matches m ∧ InRange range t := by
  unfold probeVerdict
  split_ifs <;> simp_all

theorem probeVerdict_stop_iff (m : Mac) (t : UInt32) : probeVerdict f range m t = .stop ↔ ¬f.Matches m := by
  unfold probeVerdict
  split_ifs <;> simp_all

end Tests

theorem probe_of_tag {r : Record} (h : r.tag = tagP) : ∃ m t, r = .probe m t := by
  cases r with
  | log => exact absurd h tagP_ne_tagL.symm
  | probe m t => exact ⟨m, t, rfl⟩
  | note => exact absurd h tagT_ne_tagP

section Visited

variable {s : Store} (slack : Slack) (f : Filter) (range : Int × Int)

/-- The records the scan goes over. -/
theorem mem_probeSeek (r : Record) : r.entry ∈ s.seek (tagP :: f.bytes) ↔ r.entry ∈ s.entries ∧
    (tagP < r.tag ∨ tagP = r.tag ∧ f.bytes ≤ r.sa.val.take f.sz) := by
  have hle := prefix_le_key_iff tagP f.bytes (by simpa using f.sz_le) r
  rw [f.bytes_length] at hle
  exact (s.mem_seek _ _).trans (and_congr_right fun _ => hle)

theorem probe_mem_visited (hwf : WellFormed s) (m : Mac) (t : UInt32) :
    (Record.probe m t).entry ∈ visited (readLastProbeTest slack f range) (s.seek (tagP :: f.bytes)) ↔
      (Record.probe m t).entry ∈ s.entries ∧ f.Matches m ∧ InRange range t := by
  rw [mem_visited _ (s.seek_sorted _), readLastProbeTest_probe, probeVerdict_hit_iff, mem_probeSeek]
  constructor
  · rintro ⟨⟨hmem, -⟩, hhit, -⟩
    exact ⟨hmem, hhit⟩
  · rintro ⟨hmem, hm, ht⟩
    refine ⟨⟨hmem, Or.inr ⟨rfl, hm.ge⟩⟩, ⟨hm, ht⟩, fun x hx hlt => ?_⟩
    -- what comes before is a last probe of a matching address
    obtain ⟨r, rfl⟩ := hwf x ((s.mem_seek _ _).mp hx).1
    have hkey : r.key < (Record.probe m t).key := hlt
    obtain ⟨-, htag | ⟨htag, hbytes⟩⟩ := (mem_probeSeek f r).mp hx
    · exact absurd (tag_le_of_key_lt hkey) (not_le.mpr htag)
    · obtain ⟨m', t', rfl⟩ := probe_of_tag htag.symm
      have htake := take_le_take f.sz (sa_le_of_key_lt hkey rfl)
      have hm' : f.Matches m' := le_antisymm (htake.trans hm.le) hbytes
      rw [readLastProbeTest_probe, ne_eq, probeVerdict_stop_iff]
      exact not_not_intro hm'

theorem foreign_of_visited {start finish : Int} {m : Mac} {stray : Stray} {text : Text}
    (h : (Record.note m stray text).entry ∈
      visited (readLastProbeTest slack f (start, rangeEnd finish)) (s.seek (tagP :: f.bytes))) :
    ForeignProbe s f start finish := by
  obtain ⟨hseek, hhit, hbefore⟩ := (mem_visited _ (s.seek_sorted _) _).mp h
  have hmem := ((mem_probeSeek f _).mp hseek).1
  rw [readLastProbeTest_note] at hhit
  split_ifs at hhit with hlen
  obtain ⟨hm, ht⟩ := (probeVerdict_hit_iff f _ _ _).mp hhit
  refine ⟨⟨m, stray, text, hmem, not_lt.mp hlen, hm, ht⟩, fun m' t' hmem' hlt => ?_, ?_⟩
  · -- a last probe past the matching addresses would have ended the scan
    have hkey : (Record.probe m' t').entry.1 < (Record.note m stray text).entry.1 :=
      (key_lt_iff (.probe m' t') (.note m stray text)).mpr (Or.inl tagP_lt_tagT)
    refine hbefore _ ((mem_probeSeek f _).mpr ⟨hmem', Or.inr ⟨rfl, hlt.le⟩⟩) hkey ?_
    rw [readLastProbeTest_probe, probeVerdict_stop_iff]
    exact hlt.ne'
  · intro m' stray' text' hmem' hlen' hlt
    have hlt' : m'.val.take f.sz < m.val.take f.sz := by rwa [hm]
    have hsa : m' < m := not_le.mp fun hle => absurd (take_le_take f.sz hle) (not_le.mpr hlt')
    have hkey : (Record.note m' stray' text').entry.1 < (Record.note m stray text).entry.1 :=
      (key_lt_iff (.note m' stray' text') (.note m stray text)).mpr (Or.inr ⟨rfl, Or.inl hsa⟩)
    refine hbefore _ ((mem_probeSeek f _).mpr ⟨hmem', Or.inl tagP_lt_tagT⟩) hkey ?_
    rw [readLastProbeTest_note, if_neg (not_lt.mpr hlen'), probeVerdict_stop_iff]
    exact hlt.ne

theorem visited_of_foreign (hwf : WellFormed s) {start finish : Int} (h : ForeignProbe s f start finish) :
    ∃ m stray text, (Record.note m stray text).entry ∈
      visited (readLastProbeTest slack f (start, rangeEnd finish)) (s.seek (tagP :: f.bytes)) := by
  obtain ⟨⟨m, stray, text, hmem, hlen, hm, ht⟩, hprobes, hnotes⟩ := h
  refine ⟨m, stray, text, (mem_visited _ (s.seek_sorted _) _).mpr ⟨?_, ?_, fun x hx hlt => ?_⟩⟩
  · exact (mem_probeSeek f _).mpr ⟨hmem, Or.inl tagP_lt_tagT⟩
  · rw [readLastProbeTest_note, if_neg (not_lt.mpr hlen), probeVerdict_hit_iff]
    exact ⟨hm, ht⟩
  · obtain ⟨r, rfl⟩ := hwf x ((s.mem_seek _ _).mp hx).1
    have hkey : r.key < (Record.note m stray text).key := hlt
    obtain ⟨hmem', htag⟩ := (mem_probeSeek f r).mp hx
    cases r with
    | log => exact absurd htag (by simp [Record.tag, tagP, tagL])
    | probe m' t' =>
        rcases htag with htag | ⟨-, hbytes⟩
        · exact absurd htag (lt_irrefl _)
        · rw [readLastProbeTest_probe, ne_eq, probeVerdict_stop_iff]
          exact not_not_intro (hbytes.lt_or_eq.resolve_left (hprobes m' t' hmem')).symm
    | note m' stray' text' =>
        rw [readLastProbeTest_note]
        split_ifs with hlen'
        · simp
        · rw [ne_eq, probeVerdict_stop_iff]
          have htake := take_le_take f.sz (sa_le_of_key_lt hkey rfl)
          have hle : m'.val.take f.sz ≤ f.bytes := htake.trans hm.le
          exact not_not_intro (hle.lt_or_eq.resolve_left (hnotes m' stray' text' hmem' (not_lt.mp hlen')))

/-- Without such a notification the scan visits last probes only. -/
theorem probe_of_visited (hwf : WellFormed s) {start finish : Int} (h : ¬ForeignProbe s f start finish)
    {e : Bytes × Bytes}
    (hv : e ∈ visited (readLastProbeTest slack f (start, rangeEnd finish)) (s.seek (tagP :: f.bytes))) :
    entryTag e = tagP := by
  have hseek := (visited_hit hv).1
  obtain ⟨r, rfl⟩ := hwf e ((s.mem_seek _ _).mp hseek).1
  cases r with
  | log =>
      have htag := ((mem_probeSeek f _).mp hseek).2
      exact absurd htag (by simp [Record.tag, tagP, tagL])
  | probe => rfl
  | note => exact absurd (foreign_of_visited slack f hv) h

end Visited

/-- The last probes among the records visited are those of the filter and the range. -/
theorem visited_probes {s : Store} (hwf : WellFormed s) (slack : Slack) (f : Filter) (start finish : Int) :
    (visited (readLastProbeTest slack f (start, rangeEnd finish)) (s.seek (tagP :: f.bytes))).filter
        (fun e => decide (entryTag e = tagP)) = s.entries.filter (onProbes f start finish) := by
  refine OrderedMap.eq_of_mem ?_ (s.sorted.filter _) fun e => ?_
  · exact ((s.seek_sorted _).sublist (visited_sublist _ _)).filter _
  · have hmem := probe_mem_visited slack f (start, rangeEnd finish) hwf
    simp only [List.mem_filter, decide_eq_true_eq, onProbes]
    constructor
    · rintro ⟨hv, htag⟩
      obtain ⟨r, rfl⟩ := hwf e ((s.mem_seek _ _).mp (visited_hit hv).1).1
      obtain ⟨m, t, rfl⟩ := probe_of_tag htag
      obtain ⟨he, hm, ht⟩ := (hmem m t).mp hv
      refine ⟨he, rfl, ?_, ?_⟩
      · rwa [entrySa_entry]
      · rwa [Record.entry, valueTime_probe]
    · rintro ⟨he, htag, hm, ht⟩
      obtain ⟨r, rfl⟩ := hwf e he
      obtain ⟨m, t, rfl⟩ := probe_of_tag htag
      rw [entrySa_entry] at hm
      rw [Record.entry, valueTime_probe] at ht
      exact ⟨(hmem m t).mpr ⟨he, hm, ht⟩, rfl⟩

/-- The last probes of a filter stand by ascending address. -/
theorem probes_ascending {s : Store} (hwf : WellFormed s) (f : Filter) (start finish : Int) :
    (((s.entries.filter (onProbes f start finish)).map probeItem).map LogItem.sa).Pairwise (· < ·) := by
  rw [List.map_map, List.pairwise_map]
  refine (s.sorted.filter _).imp_of_mem fun {a b} ha hb hlt => ?_
  obtain ⟨ha, hapick⟩ := List.mem_filter.mp ha
  obtain ⟨hb, hbpick⟩ := List.mem_filter.mp hb
  obtain ⟨ra, rfl⟩ := hwf a ha
  obtain ⟨rb, rfl⟩ := hwf b hb
  obtain ⟨m, t, rfl⟩ := probe_of_tag (of_decide_eq_true hapick).1
  obtain ⟨m', t', rfl⟩ := probe_of_tag (of_decide_eq_true hbpick).1
  have hkey : (Record.probe m t).key < (Record.probe m' t').key := hlt
  rcases (key_lt_iff _ _).mp hkey with htag | ⟨-, hsa | ⟨-, hrest⟩⟩
  · exact absurd htag (lt_irrefl _)
  · simpa [probeItem] using hsa
  · exact absurd hrest (lt_irrefl _)

/-- `readLastProbe`, with a callback that never stops, lists exactly the last probes when no notification
passes for one. -/
theorem readLastProbe_exact_iff {σ : Type} (calls : List Step) (slack : Slack) (f : Filter)
    (start finish : Int) (hle : start ≤ rangeEnd finish) (onLog : OnLog σ)
    (hnever : ∀ env i, (onLog env i).2 = false) (env : σ) :
    ListsProbes
        (handedItems (quietly (readLastProbe slack f start finish (some onLog) (some env)) (run .empty calls)).1)
        (run .empty calls) f start finish ↔
      ¬ForeignProbe (run .empty calls) f start finish := by
  have hwf := run_wellFormed calls
  have hprobes := visited_probes hwf slack f start finish
  have hitem : ∀ e ∈ (run .empty calls).entries, readLastProbeItem slack e = probeItem e := by
    intro e he
    obtain ⟨r, rfl⟩ := hwf e he
    rw [readLastProbeItem, keySa_slack, probeItem, entrySa_entry]
  rw [readLastProbe_quiet, handed_of_never onLog hnever, timeRange_of_le hle]
  rw [List.map_congr_left fun e he => hitem e ((OrderedMap.mem_seek _ _ _).mp (visited_hit he).1).1]
  rw [ListsProbes, ← hprobes]
  constructor
  · rintro ⟨hitems, -⟩ hforeign
    obtain ⟨m, stray, text, hv⟩ := visited_of_foreign slack f hwf hforeign
    have hlen := congrArg List.length hitems
    rw [List.length_map, List.length_map] at hlen
    have htag := List.length_filter_eq_length_iff.mp hlen.symm _ hv
    exact absurd (of_decide_eq_true htag) tagT_ne_tagP
  · intro hforeign
    have hself := List.filter_eq_self.mpr fun e hv => decide_eq_true (probe_of_visited slack f hwf hforeign hv)
    refine ⟨by rw [hself], ?_⟩
    rw [← hself, hprobes]
    exact probes_ascending hwf f start finish

theorem readLastProbe_exact_sample :
    ¬ForeignProbe (run .empty [(.putLog sampleBuffer 100, filledMemory 0)]) anyMac 0 0 :=
  (readLastProbe_exact_iff [(.putLog sampleBuffer 100, filledMemory 0)] (fun _ _ => 0) anyMac 0 0 (by decide)
    takeAll (fun _ _ => rfl) ()).mp ⟨by decide, by decide⟩

/-- A notification is listed as a last probe of the year 2035. -/
theorem readLastProbe_reports_note : ¬∀ (calls : List Step) (slack : Slack) (f : Filter) (start finish : Int),
    0 ≤ start → start ≤ rangeEnd finish → rangeEnd finish < 2 ^ 32 →
    ListsProbes
      (handedItems (quietly (readLastProbe slack f start finish (some takeAll) (some ())) (run .empty calls)).1)
      (run .empty calls) f start finish := by
  intro h
  have hitems := (h [(.putNotification sampleMac sampleText, filledMemory 0)] (fun _ _ => 0) anyMac 0 0
    (by decide) (by decide) (by decide)).1
  exact absurd (congrArg List.length hitems) (by decide)

end Wacs
