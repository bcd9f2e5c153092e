import Wacs.LogTables
import Wacs.OrderedChecked

/-! The loops over the store with every access to a key or a value checked against the size of the record under
the cursor. -/

namespace Wacs

open OrderBytes OrderedCursor

/-! ### Checked accesses -/

/-- The field `sa` of a key: seven bytes with the tag. -/
def checkedSa (k : Bytes) : Option Mac :=
  if sizeofLastProbeKey ≤ k.length then some (keySa (fun _ => 0) k) else none

/-- The field `dt` of a key read as a `LogKey`. -/
def checkedDt (k : Bytes) : Option UInt32 :=
  if sizeofLogKey ≤ k.length then some (keyDt (fun _ => 0) k) else none

/-- A value read as `LogData`. -/
def checkedData (v : Bytes) : Option LogData :=
  if sizeofLogData ≤ v.length then some (LogData.ofBytes v) else none

/-- A value read as a `time_t`. -/
def checkedTime (v : Bytes) : Option UInt32 :=
  if sizeofTimeT ≤ v.length then some (valueTime v) else none

/-- Inside the string, what lies past its end does not matter. -/
theorem peek_eq_of_le {b : Bytes} {off len : Nat} (h : off + len ≤ b.length) (slack slack' : Nat → UInt8) :
    peek slack b off len = peek slack' b off len := by
  apply List.map_congr_left
  intro i hi
  have hin : off + i < b.length := by
    rw [List.mem_range] at hi
    omega
  rw [List.getD_eq_getElem _ _ hin, List.getD_eq_getElem _ _ hin]

theorem checkedSa_of_le {k : Bytes} (h : sizeofLastProbeKey ≤ k.length) (slack : Nat → UInt8) :
    checkedSa k = some (keySa slack k) := by
  have hpeek : peek (fun _ => 0) k 1 6 = peek slack k 1 6 := peek_eq_of_le h _ _
  rw [checkedSa, if_pos h]
  exact congrArg some (Subtype.ext hpeek)

theorem checkedDt_of_le {k : Bytes} (h : sizeofLogKey ≤ k.length) (slack : Nat → UInt8) :
    checkedDt k = some (keyDt slack k) := by
  rw [checkedDt, if_pos h, keyDt, keyDt, peek_eq_of_le h]

theorem checkedData_of_le {v : Bytes} (h : sizeofLogData ≤ v.length) :
    checkedData v = some (LogData.ofBytes v) := if_pos h

theorem checkedTime_of_le {v : Bytes} (h : sizeofTimeT ≤ v.length) : checkedTime v = some (valueTime v) := if_pos h

theorem keyTag_of_le {k : Bytes} (h : sizeofLastProbeKey ≤ k.length) (slack slack' : Nat → UInt8) :
    keyTag slack k = keyTag slack' k := by
  have hpos : 0 < k.length := Nat.lt_of_lt_of_le (by decide) h
  rw [keyTag, keyTag, List.getD_eq_getElem _ _ hpos, List.getD_eq_getElem _ _ hpos]

/-! ### The loop bodies -/

section Bodies

variable {σ : Type} (f : Filter) (range : Int × Int)

/-- The loop body of `readLog`: both fields of the key are read before any of them is looked at. -/
def readLogBody (onLog : OnLog σ) (l : Listing σ LogItem) (e : Bytes × Bytes) : Option (Listing σ LogItem × Bool) :=
  if e.2.length < sizeofLogData then some (l, false)
  else do
    let sa ← checkedSa e.1
    let dt ← checkedDt e.1
    if f.sa.isSome ∧ f.sz ≠ 0 ∧ sa.val.take f.sz ≠ f.bytes then return (l, true)
    if (dt.toNat : Int) > range.2 then return if f.sz = 6 then (l, true) else (l, false)
    if (dt.toNat : Int) < range.1 then return (l, false)
    if keyTag (fun _ => 0) e.1 ≠ tagL then return (l, true)
    let data ← checkedData e.2
    return report onLog (fun _ => ⟨sa, dt, some data⟩) l e

/-- The loop body of `rmLog`. -/
def rmLogBody (s : Store × Nat) (e : Bytes × Bytes) : Option ((Store × Nat) × Bool) :=
  if e.2.length < sizeofLogData ∨ e.1.length < sizeofLogKey then some (s, false)
  else do
    let sa ← checkedSa e.1
    let dt ← checkedDt e.1
    if f.sa.isSome ∧ sa.val.take f.sz ≠ f.bytes then return (s, true)
    if (dt.toNat : Int) > range.2 then return if f.sz = 6 then (s, true) else (s, false)
    if (dt.toNat : Int) < range.1 then return (s, false)
    if keyTag (fun _ => 0) e.1 ≠ tagL then return (s, true)
    let _ ← checkedData e.2
    return remove s e

/-- The loop body of `readLastProbe`. -/
def readLastProbeBody (onLog : OnLog σ) (l : Listing σ LogItem) (e : Bytes × Bytes) :
    Option (Listing σ LogItem × Bool) :=
  if e.1.length < sizeofLastProbeKey ∨ e.2.length < sizeofTimeT then some (l, false)
  else do
    let sa ← checkedSa e.1
    if f.sa.isSome ∧ sa.val.take f.sz ≠ f.bytes then return (l, true)
    let dt ← checkedTime e.2
    if (dt.toNat : Int) > range.2 ∨ (dt.toNat : Int) < range.1 then return (l, false)
    return report onLog (fun _ => ⟨sa, dt, none⟩) l e

/-- The loop body of `lsNotification`. -/
def lsNotificationBody (onNotification : σ → Mac × Bytes → σ × Bool) (l : Listing σ (Mac × Bytes))
    (e : Bytes × Bytes) : Option (Listing σ (Mac × Bytes) × Bool) :=
  if e.2.length ≤ 0 ∨ e.1.length < 6 then some (l, false)
  else do
    let sa ← checkedSa e.1
    return report onNotification (fun _ => (sa, e.2)) l e

/-- The loop body of `rmNotification`. -/
def rmNotificationBody (p : NotePrefix) (s : Store × Nat) (e : Bytes × Bytes) : Option ((Store × Nat) × Bool) :=
  if e.1.length < 6 then some (s, true)
  else if keyTag (fun _ => 0) e.1 ≠ tagT then some (s, true)
  else do
    let sa ← checkedSa e.1
    if sa.val.take p.sz ≠ p.bytes then return (s, true)
    return remove s e

end Bodies

/-! ### The loops over a store -/

section Loops

variable {σ : Type} (f : Filter) (start finish : Int) (pad : UInt8) (s : Store)

def readLogChecked (onLog : OnLog σ) (env : σ) : Option (Listing σ LogItem) :=
  deliverChecked (readLogBody f (timeRange start finish) onLog) ⟨env, []⟩ (s.seek (readLogSeek f start pad))

def rmLogChecked : Option (Store × Nat) :=
  deliverChecked (rmLogBody f (timeRange start finish)) (s, 0) (s.seek (rmLogSeek f start pad))

def readLastProbeChecked (onLog : OnLog σ) (env : σ) : Option (Listing σ LogItem) :=
  deliverChecked (readLastProbeBody f (timeRange start finish) onLog) ⟨env, []⟩ (s.seek (tagP :: f.bytes))

def lsNotificationChecked (onNotification : σ → Mac × Bytes → σ × Bool) (env : σ) : Option (Listing σ (Mac × Bytes)) :=
  deliverChecked (lsNotificationBody onNotification) ⟨env, []⟩ (s.seek lsNotificationSeek)

def rmNotificationChecked (p : NotePrefix) : Option (Store × Nat) :=
  deliverChecked (rmNotificationBody p) (s, 0) (s.seek (tagT :: p.bytes))

end Loops

/-! ### Inside the record, a checked body is the body of the model -/

section Agree

variable {σ : Type} (slack : Slack) (f : Filter) (range : Int × Int) {e : Bytes × Bytes}

/-- The records `readLog` reads inside: those it passes over, and those with a whole key. -/
def ReadLogFits (e : Bytes × Bytes) : Prop := e.2.length < sizeofLogData ∨ sizeofLogKey ≤ e.1.length

theorem readLogBody_eq (h : ReadLogFits e) (onLog : OnLog σ) (l : Listing σ LogItem) :
    readLogBody f range onLog l e =
      some (guarded (readLogTest slack f range) (report onLog (readLogItem slack)) l e) := by
  unfold readLogBody guarded readLogTest
  by_cases hval : e.2.length < sizeofLogData
  · rw [if_pos hval, if_pos hval]
  · have hdt : sizeofLogKey ≤ e.1.length := h.resolve_left hval
    have hsa : sizeofLastProbeKey ≤ e.1.length := le_trans (by decide) hdt
    rw [if_neg hval, if_neg hval, checkedSa_of_le hsa (slack e.1), checkedDt_of_le hdt (slack e.1),
      checkedData_of_le (not_lt.mp hval), keyTag_of_le hsa _ (slack e.1)]
    simp only [Option.bind_eq_bind, Option.bind_some]
    split_ifs <;> rfl

theorem readLogFits_of_isSome {onLog : OnLog σ} {l : Listing σ LogItem}
    (h : (readLogBody f range onLog l e).isSome) : ReadLogFits e := by
  by_contra hfits
  obtain ⟨hval, hkey⟩ := not_or.mp hfits
  rw [readLogBody, if_neg hval] at h
  obtain ⟨r, hr⟩ := Option.isSome_iff_exists.mp h
  obtain ⟨sa, -, hr⟩ := Option.bind_eq_some_iff.mp hr
  obtain ⟨dt, hdt, -⟩ := Option.bind_eq_some_iff.mp hr
  rw [checkedDt, if_neg hkey] at hdt
  cases hdt

theorem rmLogBody_eq (s : Store × Nat) :
    rmLogBody f range s e = some (guarded (rmLogTest slack f range) remove s e) := by
  unfold rmLogBody guarded rmLogTest
  by_cases hshort : e.2.length < sizeofLogData ∨ e.1.length < sizeofLogKey
  · rw [if_pos hshort, if_pos hshort]
  · obtain ⟨hval, hkey⟩ := not_or.mp hshort
    have hdt : sizeofLogKey ≤ e.1.length := not_lt.mp hkey
    have hsa : sizeofLastProbeKey ≤ e.1.length := le_trans (by decide) hdt
    rw [if_neg hshort, if_neg hshort, checkedSa_of_le hsa (slack e.1), checkedDt_of_le hdt (slack e.1),
      checkedData_of_le (not_lt.mp hval), keyTag_of_le hsa _ (slack e.1)]
    simp only [Option.bind_eq_bind, Option.bind_some]
    split_ifs <;> rfl

theorem readLastProbeBody_eq (onLog : OnLog σ) (l : Listing σ LogItem) : readLastProbeBody f range onLog l e =
    some (guarded (readLastProbeTest slack f range) (report onLog (readLastProbeItem slack)) l e) := by
  unfold readLastProbeBody guarded readLastProbeTest
  by_cases hshort : e.1.length < sizeofLastProbeKey ∨ e.2.length < sizeofTimeT
  · rw [if_pos hshort, if_pos hshort]
  · obtain ⟨hkey, hval⟩ := not_or.mp hshort
    rw [if_neg hshort, if_neg hshort, checkedSa_of_le (not_lt.mp hkey) (slack e.1),
      checkedTime_of_le (not_lt.mp hval)]
    simp only [Option.bind_eq_bind, Option.bind_some]
    split_ifs <;> rfl

theorem lsNotificationBody_eq (h : sizeofLastProbeKey ≤ e.1.length)
    (onNotification : σ → Mac × Bytes → σ × Bool) (l : Listing σ (Mac × Bytes)) :
    lsNotificationBody onNotification l e =
      some (guarded lsNotificationTest (report onNotification (lsNotificationItem slack)) l e) := by
  unfold lsNotificationBody guarded lsNotificationTest
  rw [checkedSa_of_le h (slack e.1)]
  split_ifs <;> rfl

theorem rmNotificationBody_eq (h : sizeofLastProbeKey ≤ e.1.length) (p : NotePrefix) (s : Store × Nat) :
    rmNotificationBody p s e = some (guarded (rmNotificationTest slack p) remove s e) := by
  unfold rmNotificationBody guarded rmNotificationTest
  rw [checkedSa_of_le h (slack e.1), keyTag_of_le h _ (slack e.1)]
  simp only [Option.bind_eq_bind, Option.bind_some]
  split_ifs <;> rfl

end Agree

/-! ### The loops of the functions -/

section Loops

variable {σ ι : Type} {seek : Bytes} {test : Bytes × Bytes → Verdict} {s : Store}

theorem handedItems_deliver {item : Bytes × Bytes → ι} {callback : σ → ι → σ × Bool} {env : σ} {missed : EngineM Unit}
    (hmissed : ∀ engine, Begun s engine → (missed.run quiet engine).2.committed = s) :
    handedItems (quietly (listRecords seek test item callback env missed) s).1 =
      (deliver (guarded test (report callback item)) ⟨env, []⟩ (s.seek seek)).calls := by
  rw [handedItems_listRecords _ _ _ _ _ _ _ hmissed, deliver_guarded, deliver_report_calls]
  exact (List.nil_append _).symm

theorem store_deliver {missed : Int → EngineM Int} {r : Int}
    (hmissed : ∀ engine, Begun s engine → ((missed MDB_NOTFOUND).run quiet engine).1 = r ∧
      ((missed MDB_NOTFOUND).run quiet engine).2.committed = s) :
    (quietly (removeRecords seek test missed) s).2 = (deliver (guarded test remove) (s, 0) (s.seek seek)).1 := by
  rw [removeRecords_quiet _ _ _ _ _ hmissed, deliver_guarded, deliver_remove]
  change s.filter _ = s.filter _
  congr!

end Loops

section Whole

variable {σ : Type} {s : Store} (slack : Slack) (f : Filter) (start finish : Int) (pad : UInt8)

theorem key_fits (hwf : WellFormed s) {seek : Bytes} {e : Bytes × Bytes} (he : e ∈ s.seek seek) :
    sizeofLastProbeKey ≤ e.1.length := by
  obtain ⟨r, rfl⟩ := hwf e ((s.mem_seek seek e).mp he).1
  exact key_length_ge r

/-- `rmLog` reads inside the records of any store, and removes what its loop removes. -/
theorem rmLogChecked_store :
    (rmLogChecked f start finish pad s).map Prod.fst = some (quietly (rmLog slack f start finish pad) s).2 := by
  calc (rmLogChecked f start finish pad s).map Prod.fst
      = some (deliver (guarded (rmLogTest slack f (timeRange start finish)) remove) (s, 0)
          (s.seek (rmLogSeek f start pad))).1 :=
        congrArg (Option.map Prod.fst) (deliverChecked_eq_of_forall (fun _ _ => rmLogBody_eq slack f _) _)
    _ = some (quietly (rmLog slack f start finish pad) s).2 :=
        congrArg some (store_deliver fun engine h => ⟨rfl, commitMissed_quiet s engine h⟩).symm

theorem readLastProbeChecked_calls (onLog : OnLog σ) (env : σ) :
    (readLastProbeChecked f start finish s onLog env).map Listing.calls =
      some (handedItems (quietly (readLastProbe slack f start finish (some onLog) (some env)) s).1) := by
  calc (readLastProbeChecked f start finish s onLog env).map Listing.calls
      = some (deliver (guarded (readLastProbeTest slack f (timeRange start finish))
          (report onLog (readLastProbeItem slack))) ⟨env, []⟩ (s.seek (tagP :: f.bytes))).calls :=
        congrArg (Option.map Listing.calls)
          (deliverChecked_eq_of_forall (fun _ _ => readLastProbeBody_eq slack f _ onLog) _)
    _ = some (handedItems (quietly (readLastProbe slack f start finish (some onLog) (some env)) s).1) :=
        congrArg some (handedItems_deliver (commitMissed_quiet s)).symm

theorem lsNotificationChecked_calls (hwf : WellFormed s) (onNotification : σ → Mac × Bytes → σ × Bool) (env : σ) :
    (lsNotificationChecked s onNotification env).map Listing.calls =
      some (handedItems (quietly (lsNotification slack (some onNotification) env) s).1) := by
  calc (lsNotificationChecked s onNotification env).map Listing.calls
      = some (deliver (guarded lsNotificationTest (report onNotification (lsNotificationItem slack))) ⟨env, []⟩
          (s.seek lsNotificationSeek)).calls :=
        congrArg (Option.map Listing.calls)
          (deliverChecked_eq_of_forall (fun _ he => lsNotificationBody_eq slack (key_fits hwf he) onNotification) _)
    _ = some (handedItems (quietly (lsNotification slack (some onNotification) env) s).1) :=
        congrArg some (handedItems_deliver (abort_quiet s)).symm

theorem rmNotificationChecked_store (hwf : WellFormed s) (p : NotePrefix) :
    (rmNotificationChecked s p).map Prod.fst = some (quietly (rmNotification slack p) s).2 := by
  calc (rmNotificationChecked s p).map Prod.fst
      = some (deliver (guarded (rmNotificationTest slack p) remove) (s, 0) (s.seek (tagT :: p.bytes))).1 :=
        congrArg (Option.map Prod.fst)
          (deliverChecked_eq_of_forall (fun _ he => rmNotificationBody_eq slack (key_fits hwf he) p) _)
    _ = some (quietly (rmNotification slack p) s).2 :=
        congrArg some (store_deliver fun engine h => ⟨rfl, abort_quiet s engine h⟩).symm

end Whole

/-! ### `readLog` -/

/-- A log record at which the loop of `readLog` ends before it comes to the probes: of an address past the
filter bytes, or past the range at the one address of a whole filter. -/
def EndsLog (f : Filter) (start finish : Int) (pad : UInt8) (m : Mac) (p : UInt8) (t : UInt32) : Prop :=
  f.bytes < m.val.take f.sz ∨
    f.sz = 6 ∧ m = f.mac ∧ (timeRange start finish).2 < (t.toNat : Int) ∧ (pad < p ∨ pad = p ∧ time32 start ≤ t)

/-- The store has no probe, or a log record that ends the loop. -/
def ProbesOutOfReach (s : Store) (f : Filter) (start finish : Int) (pad : UInt8) : Prop :=
  (∀ m t, (Record.probe m t).entry ∉ s.entries) ∨
    ∃ m p t d e, (Record.log m p t d e).entry ∈ s.entries ∧ EndsLog f start finish pad m p t

section ReadLog

variable {s : Store} {f : Filter} {start finish : Int} {pad : UInt8}

theorem readLogTest_stop_iff (slack : Slack) (range : Int × Int) (m : Mac) (p : UInt8) (t : UInt32) (d : LogData)
    (e : UInt8) : readLogTest slack f range (Record.log m p t d e).entry = .stop ↔
      ¬f.Matches m ∨ f.sz = 6 ∧ range.2 < (t.toNat : Int) := by
  refine ⟨readLogTest_stop slack f range, fun h => ?_⟩
  rw [readLogTest_log]
  by_cases hm : f.Matches m
  · obtain ⟨hsz, hlate⟩ := h.resolve_left (not_not_intro hm)
    rw [if_neg (not_not_intro hm), if_pos hlate, if_pos hsz]
  · exact if_pos hm

/-- At an address past the filter bytes a record is past the key sought. -/
theorem readLogSeek_le_of_bytes_lt {m : Mac} (h : f.bytes < m.val.take f.sz) (p : UInt8) (t : UInt32) (d : LogData)
    (e : UInt8) : readLogSeek f start pad ≤ (Record.log m p t d e).key := by
  by_cases hsz : f.sz = 6
  · have hm : f.mac < m := by
      refine not_le.mp fun hle => absurd h (not_lt.mpr ?_)
      have htake := take_le_take f.sz hle
      rwa [f.mac_matches] at htake
    have hkey : (Record.log f.mac pad (time32 start) d e).key < (Record.log m p t d e).key :=
      (log_key_lt_iff _ _ _ _ _ _ _ _ _ _).mpr (Or.inl hm)
    rw [readLogSeek_whole hsz]
    exact hkey.le
  · rw [readLogSeek, if_neg hsz, prefix_le_key_iff _ _ (by simpa using f.sz_le), f.bytes_length]
    exact Or.inr ⟨rfl, h.le⟩

/-- At the address of a whole filter the alignment byte and the time of the key sought count. -/
theorem readLogSeek_le_mac_iff (hsz : f.sz = 6) (p : UInt8) (t : UInt32) (d : LogData) (e : UInt8) :
    readLogSeek f start pad ≤ (Record.log f.mac p t d e).key ↔ pad < p ∨ pad = p ∧ time32 start ≤ t := by
  have hseek : readLogSeek f start pad = (Record.log f.mac pad (time32 start) d e).key := readLogSeek_whole hsz
  rw [hseek, ← not_lt, log_key_lt_iff]
  constructor
  · intro h
    rcases lt_trichotomy pad p with hlt | heq | hgt
    · exact Or.inl hlt
    · refine Or.inr ⟨heq, ?_⟩
      exact UInt32.not_lt.mp fun hlt => h (Or.inr ⟨rfl, Or.inr ⟨heq.symm, hlt⟩⟩)
    · exact absurd (Or.inr ⟨rfl, Or.inl hgt⟩) h
  · rintro h (hm | ⟨-, hlt | ⟨heq, hlt⟩⟩)
    · exact lt_irrefl _ hm
    · rcases h with h | h
      · exact absurd hlt h.asymm
      · exact hlt.ne h.1.symm
    · rcases h with h | h
      · exact h.ne heq.symm
      · exact absurd hlt (UInt32.not_lt.mpr h.2)

/-- A record ends the loop before the probes exactly when it is at or after the key sought and the tests stop. -/
theorem endsLog_iff (slack : Slack) (m : Mac) (p : UInt8) (t : UInt32) (d : LogData) (e : UInt8) :
    EndsLog f start finish pad m p t ↔ readLogSeek f start pad ≤ (Record.log m p t d e).key ∧
      readLogTest slack f (timeRange start finish) (Record.log m p t d e).entry = .stop := by
  rw [readLogTest_stop_iff]
  constructor
  · rintro (hlt | ⟨hsz, rfl, hlate, hfrom⟩)
    · exact ⟨readLogSeek_le_of_bytes_lt hlt p t d e, Or.inl hlt.ne'⟩
    · exact ⟨(readLogSeek_le_mac_iff hsz p t d e).mpr hfrom, Or.inr ⟨hsz, hlate⟩⟩
  · rintro ⟨hle, hstop⟩
    by_cases hm : f.Matches m
    · obtain ⟨hsz, hlate⟩ := hstop.resolve_left (not_not_intro hm)
      obtain rfl := f.eq_mac_of_matches hsz hm
      exact Or.inr ⟨hsz, rfl, hlate, (readLogSeek_le_mac_iff hsz p t d e).mp hle⟩
    · exact Or.inl (lt_of_le_of_ne (bytes_le_of_readLogSeek hle) fun heq => hm heq.symm)

theorem readLogFits_log (m : Mac) (p : UInt8) (t : UInt32) (d : LogData) (e : UInt8) :
    ReadLogFits (Record.log m p t d e).entry := Or.inr (log_key_length m p t d e).ge

theorem readLogFits_note (m : Mac) (stray : Stray) (text : Text) : ReadLogFits (Record.note m stray text).entry := by
  refine Or.inr ?_
  simp [Record.entry, Record.key, Record.sa, Record.rest, m.property, stray.property, sizeofLogKey]

/-- The value of a probe is long enough, its key is not. -/
theorem not_readLogFits_probe (m : Mac) (t : UInt32) : ¬ReadLogFits (Record.probe m t).entry := by
  have hkey : (Record.probe m t).entry.1.length = 7 := by
    simp [Record.entry, Record.key, Record.sa, Record.rest, m.property]
  have hval : (Record.probe m t).entry.2.length = 8 := probe_value_length m t
  rw [ReadLogFits, hkey, hval]
  decide

/-- Decoding its key fails. -/
theorem readLogBody_probe {σ : Type} (range : Int × Int) (onLog : OnLog σ) (l : Listing σ LogItem) (m : Mac)
    (t : UInt32) : readLogBody f range onLog l (Record.probe m t).entry = none := by
  refine Option.not_isSome_iff_eq_none.mp fun h => ?_
  exact not_readLogFits_probe m t (readLogFits_of_isSome f range h)

/-- The log records that the filter and the range pick from the key sought on: what `readLog` lists when no log record
ends its loop. -/
def pickedLogs (s : Store) (f : Filter) (start finish : Int) (pad : UInt8) : List LogItem :=
  ((s.seek (readLogSeek f start pad)).filter fun e =>
    decide (readLogTest (fun _ _ => 0) f (timeRange start finish) e = .hit)).map (readLogItem fun _ _ => 0)

/-- The part of the store past the log. -/
def pastLog (e : Bytes × Bytes) : Bool := decide (entryTag e ≠ tagL)

theorem log_of_not_pastLog (hwf : WellFormed s) {e : Bytes × Bytes} (he : e ∈ s.entries) (h : pastLog e = false) :
    ∃ m p t d y, e = (Record.log m p t d y).entry := by
  obtain ⟨r, rfl⟩ := hwf e he
  rw [pastLog, decide_eq_false_iff_not, not_not, entryTag_entry] at h
  obtain ⟨m, p, t, d, y, rfl⟩ := log_of_tag h
  exact ⟨m, p, t, d, y, rfl⟩

/-- What a scan comes to is the log first, then the rest. -/
theorem seek_parts (hwf : WellFormed s) (seek : Bytes) :
    (s.seek seek).filter (fun e => !pastLog e) ++ (s.seek seek).filter pastLog = s.seek seek := by
  refine filter_append_filter ((s.seek_sorted seek).imp_of_mem fun {a b} ha hb hlt hpast => ?_)
  obtain ⟨r, rfl⟩ := hwf a ((s.mem_seek seek a).mp ha).1
  obtain ⟨r', rfl⟩ := hwf b ((s.mem_seek seek b).mp hb).1
  have hle := tag_le_of_key_lt (show r.key < r'.key from hlt)
  rw [pastLog, decide_eq_true_eq, entryTag_entry] at hpast ⊢
  intro hlog
  rw [hlog] at hle
  exact hpast (le_antisymm hle (tagL_le r))

/-- With a probe in the store, the rest begins with one: there the loop cannot go on. -/
theorem deliverChecked_pastLog {σ : Type} (hwf : WellFormed s) {m : Mac} {t : UInt32}
    (hprobe : (Record.probe m t).entry ∈ s.entries) (onLog : OnLog σ) (l : Listing σ LogItem) :
    deliverChecked (readLogBody f (timeRange start finish) onLog) l
      ((s.seek (readLogSeek f start pad)).filter pastLog) = none := by
  have hseek : readLogSeek f start pad ≤ (Record.probe m t).key := by
    rw [readLogSeek]
    split_ifs
    · exact (List.cons_lt_cons_iff.mpr (Or.inl tagL_lt_tagP)).le
    · exact (List.cons_lt_cons_iff.mpr (Or.inl tagL_lt_tagP)).le
  have hin : (Record.probe m t).entry ∈ (s.seek (readLogSeek f start pad)).filter pastLog := by
    refine List.mem_filter.mpr ⟨(s.mem_seek _ _).mpr ⟨hprobe, hseek⟩, ?_⟩
    rw [pastLog, entryTag_entry]
    exact decide_eq_true (show tagP ≠ tagL by decide)
  have hsorted : ((s.seek (readLogSeek f start pad)).filter pastLog).Pairwise fun a b => a.1 < b.1 :=
    (s.seek_sorted _).sublist List.filter_sublist
  have hmem : ∀ e ∈ (s.seek (readLogSeek f start pad)).filter pastLog, e ∈ s.entries ∧ pastLog e = true :=
    fun e he => ⟨((s.mem_seek _ e).mp (List.mem_filter.mp he).1).1, (List.mem_filter.mp he).2⟩
  generalize (s.seek (readLogSeek f start pad)).filter pastLog = rest at hin hsorted hmem
  cases rest with
  | nil => cases hin
  | cons x rest =>
      obtain ⟨hx, hpast⟩ := hmem x List.mem_cons_self
      obtain ⟨r, rfl⟩ := hwf x hx
      cases r with
      | log m' p t' d y =>
          rw [pastLog, entryTag_entry] at hpast
          exact absurd rfl (of_decide_eq_true hpast)
      | probe m' t' => rw [deliverChecked, readLogBody_probe, Option.bind_none]
      | note m' stray text =>
          -- a notification is past every probe
          have hlater := (List.mem_cons.mp hin).resolve_left fun heq => by
            have htag := congrArg entryTag heq
            rw [entryTag_entry, entryTag_entry] at htag
            exact absurd htag (show tagP ≠ tagT by decide)
          have hkey : (Record.note m' stray text).key < (Record.probe m t).key :=
            (List.pairwise_cons.mp hsorted).1 _ hlater
          exact absurd (tag_le_of_key_lt hkey) (not_le.mpr tagP_lt_tagT)

/-- The log records that a scan comes to. -/
theorem log_of_mem_seek (hwf : WellFormed s) {e : Bytes × Bytes}
    (he : e ∈ (s.seek (readLogSeek f start pad)).filter fun e => !pastLog e) :
    readLogSeek f start pad ≤ e.1 ∧ ∃ m p t d y, (Record.log m p t d y).entry ∈ s.entries ∧
      e = (Record.log m p t d y).entry := by
  obtain ⟨hat, hlog⟩ := List.mem_filter.mp he
  obtain ⟨hmem, hle⟩ := (s.mem_seek _ e).mp hat
  rw [Bool.not_eq_true'] at hlog
  obtain ⟨m, p, t, d, y, rfl⟩ := log_of_not_pastLog hwf hmem hlog
  exact ⟨hle, m, p, t, d, y, hmem, rfl⟩

/-- The loop over the log part is stopped by a log record that ends it, or by the callback. -/
theorem asks_logs_iff {σ : Type} (hwf : WellFormed s) (onLog : OnLog σ) (env : σ) :
    asks (guarded (readLogTest (fun _ _ => 0) f (timeRange start finish)) (report onLog (readLogItem fun _ _ => 0)))
        ⟨env, []⟩ ((s.seek (readLogSeek f start pad)).filter fun e => !pastLog e) = true ↔
      (∃ m p t d e, (Record.log m p t d e).entry ∈ s.entries ∧ EndsLog f start finish pad m p t) ∨
        asks onLog env (pickedLogs s f start finish pad) = true := by
  by_cases hends : ∃ m p t d e, (Record.log m p t d e).entry ∈ s.entries ∧ EndsLog f start finish pad m p t
  · refine iff_of_true ?_ (Or.inl hends)
    obtain ⟨m, p, t, d, y, hmem, hend⟩ := hends
    obtain ⟨hle, hstop⟩ := (endsLog_iff (fun _ _ => 0) m p t d y).mp hend
    have hin : (Record.log m p t d y).entry ∈ (s.seek (readLogSeek f start pad)).filter fun e => !pastLog e := by
      refine List.mem_filter.mpr ⟨(s.mem_seek _ _).mpr ⟨hmem, hle⟩, ?_⟩
      rw [pastLog, entryTag_entry]
      rfl
    refine asks_of_mem hin (fun l => ?_) _
    rw [guarded, hstop]
  · have hgoes : ∀ e ∈ (s.seek (readLogSeek f start pad)).filter fun e => !pastLog e,
        readLogTest (fun _ _ => 0) f (timeRange start finish) e ≠ .stop := by
      intro e he hstop
      obtain ⟨hle, m, p, t, d, y, hmem, rfl⟩ := log_of_mem_seek hwf he
      exact hends ⟨m, p, t, d, y, hmem, (endsLog_iff (fun _ _ => 0) m p t d y).mpr ⟨hle, hstop⟩⟩
    have hhits : ((s.seek (readLogSeek f start pad)).filter fun e => !pastLog e).filter (fun e =>
          decide (readLogTest (fun _ _ => 0) f (timeRange start finish) e = .hit)) =
        (s.seek (readLogSeek f start pad)).filter fun e =>
          decide (readLogTest (fun _ _ => 0) f (timeRange start finish) e = .hit) := by
      rw [List.filter_filter]
      refine List.filter_congr fun e he => ?_
      obtain ⟨r, rfl⟩ := hwf e ((s.mem_seek _ e).mp he).1
      rw [Bool.and_eq_left_iff_imp, decide_eq_true_eq]
      intro hhit
      rw [pastLog, entryTag_entry, readLogTest_hit_tag _ _ _ hhit]
      rfl
    rw [asks_guarded _ hgoes, hhits, asks_report, pickedLogs, or_iff_right hends]

/-- With a probe in the store `readLog` reads inside exactly when its loop is stopped within the log. -/
theorem readLogChecked_isSome_iff_asks {σ : Type} (hwf : WellFormed s) {m : Mac} {t : UInt32}
    (hprobe : (Record.probe m t).entry ∈ s.entries) (onLog : OnLog σ) (env : σ) :
    (readLogChecked f start finish pad s onLog env).isSome ↔
      asks (guarded (readLogTest (fun _ _ => 0) f (timeRange start finish)) (report onLog (readLogItem fun _ _ => 0)))
        ⟨env, []⟩ ((s.seek (readLogSeek f start pad)).filter fun e => !pastLog e) = true := by
  have hbody : ∀ e ∈ (s.seek (readLogSeek f start pad)).filter fun e => !pastLog e, ∀ l,
      readLogBody f (timeRange start finish) onLog l e = some (guarded
        (readLogTest (fun _ _ => 0) f (timeRange start finish)) (report onLog (readLogItem fun _ _ => 0)) l e) := by
    intro e he l
    obtain ⟨-, m, p, t, d, y, -, rfl⟩ := log_of_mem_seek hwf he
    exact readLogBody_eq (fun _ _ => 0) f _ (readLogFits_log m p t d y) onLog l
  have hparts := deliverChecked_append hbody ((s.seek (readLogSeek f start pad)).filter pastLog) ⟨env, []⟩
  rw [seek_parts hwf, deliverChecked_pastLog hwf hprobe] at hparts
  rw [readLogChecked, hparts]
  split_ifs with hasks
  · exact iff_of_true rfl hasks
  · exact iff_of_false Bool.false_ne_true hasks

/-- `readLog` reads inside the records exactly when it does not come to a probe: there is none, or a log record ends
the loop, or the callback asks to stop at one it is given. -/
theorem readLogChecked_isSome_iff {σ : Type} (hwf : WellFormed s) (onLog : OnLog σ) (env : σ) :
    (readLogChecked f start finish pad s onLog env).isSome ↔
      ProbesOutOfReach s f start finish pad ∨ asks onLog env (pickedLogs s f start finish pad) = true := by
  by_cases hprobes : ∀ m t, (Record.probe m t).entry ∉ s.entries
  · have hbody : ∀ e ∈ s.seek (readLogSeek f start pad), ∀ l, readLogBody f (timeRange start finish) onLog l e =
        some (guarded (readLogTest (fun _ _ => 0) f (timeRange start finish))
          (report onLog (readLogItem fun _ _ => 0)) l e) := by
      intro e he l
      have hmem := ((s.mem_seek _ e).mp he).1
      apply readLogBody_eq
      obtain ⟨r, rfl⟩ := hwf e hmem
      cases r with
      | log m p t d y => exact readLogFits_log m p t d y
      | probe m t => exact absurd hmem (hprobes m t)
      | note m stray text => exact readLogFits_note m stray text
    refine iff_of_true ?_ (Or.inl (Or.inl hprobes))
    rw [readLogChecked, deliverChecked_eq_of_forall hbody]
    rfl
  · rw [ProbesOutOfReach, or_iff_right hprobes, ← asks_logs_iff hwf]
    push Not at hprobes
    obtain ⟨m, t, hprobe⟩ := hprobes
    exact readLogChecked_isSome_iff_asks hwf hprobe onLog env

/-- Where it reads inside, the checked loop of `readLog` hands over what the function does. -/
theorem readLogChecked_calls {σ : Type} (slack : Slack) (onLog : OnLog σ) (env : σ)
    (h : (readLogChecked f start finish pad s onLog env).isSome) :
    (readLogChecked f start finish pad s onLog env).map Listing.calls =
      some (handedItems (quietly (readLog slack f start finish pad (some onLog) (some env)) s).1) := by
  obtain ⟨l, hl⟩ := Option.isSome_iff_exists.mp h
  have hbody : ∀ {l e r}, readLogBody f (timeRange start finish) onLog l e = some r →
      r = guarded (readLogTest slack f (timeRange start finish)) (report onLog (readLogItem slack)) l e := by
    intro l e r hr
    have hfits : ReadLogFits e := readLogFits_of_isSome f _ (Option.isSome_iff_exists.mpr ⟨r, hr⟩)
    rw [readLogBody_eq slack f _ hfits] at hr
    exact (Option.some.inj hr).symm
  have hdone := eq_deliver_of_deliverChecked hbody hl
  rw [hl, hdone]
  exact congrArg some (handedItems_deliver (commitMissed_quiet s)).symm

end ReadLog

/-! ### Every scan -/

/-- The five scans read inside the records of a store: `readLog` with its callback, the others whatever theirs do. -/
structure ScansInBounds {σ : Type} (s : Store) (f : Filter) (start finish : Int) (pad : UInt8) (p : NotePrefix)
    (onLog : OnLog σ) (env : σ) : Prop where
  readLog : (readLogChecked f start finish pad s onLog env).isSome
  rmLog : (rmLogChecked f start finish pad s).isSome
  readLastProbe : ∀ (τ : Type) (onProbe : OnLog τ) (env : τ), (readLastProbeChecked f start finish s onProbe env).isSome
  lsNotification : ∀ (τ : Type) (onNotification : τ → Mac × Bytes → τ × Bool) (env : τ),
    (lsNotificationChecked s onNotification env).isSome
  rmNotification : (rmNotificationChecked s p).isSome

theorem isSome_of_map_eq {α β : Type} {x : Option α} {f : α → β} {y : β} (h : x.map f = some y) : x.isSome := by
  rw [← Option.isSome_map, h]
  rfl

theorem scans_in_bounds_iff {σ : Type} (calls : List Step) (f : Filter) (start finish : Int) (pad : UInt8)
    (p : NotePrefix) (onLog : OnLog σ) (env : σ) :
    ScansInBounds (run .empty calls) f start finish pad p onLog env ↔
      ProbesOutOfReach (run .empty calls) f start finish pad ∨
        asks onLog env (pickedLogs (run .empty calls) f start finish pad) = true := by
  have hwf := run_wellFormed calls
  rw [← readLogChecked_isSome_iff hwf]
  refine ⟨ScansInBounds.readLog, fun h => ⟨h, ?_, ?_, ?_, ?_⟩⟩
  · exact isSome_of_map_eq (rmLogChecked_store (fun _ _ => 0) f start finish pad)
  · exact fun τ onProbe env => isSome_of_map_eq (readLastProbeChecked_calls (fun _ _ => 0) f start finish onProbe env)
  · exact fun τ onNotification env =>
      isSome_of_map_eq (lsNotificationChecked_calls (fun _ _ => 0) hwf onNotification env)
  · exact isSome_of_map_eq (rmNotificationChecked_store (fun _ _ => 0) hwf p)

/-- After one observation a listing of the whole log goes on to the probe, whose key has no time. -/
theorem readLog_reads_past_key : ¬∀ (calls : List Step) (f : Filter) (start finish : Int) (pad : UInt8)
    (p : NotePrefix) (onLog : OnLog Unit), ScansInBounds (run .empty calls) f start finish pad p onLog () := by
  intro h
  have hreads := (h [(.putLog sampleBuffer 100, filledMemory 0)] anyMac 0 0 0 ⟨[], 0, by decide⟩ takeAll).readLog
  have hout : (readLogChecked anyMac 0 0 0 (run .empty [(.putLog sampleBuffer 100, filledMemory 0)])
      takeAll ()).isSome = false := by decide
  rw [hout] at hreads
  cases hreads

/-- A callback that stops at that observation does not come to the probe. -/
example : asks (fun _ _ => ((), true)) ()
    (pickedLogs (run .empty [(.putLog sampleBuffer 100, filledMemory 0)]) anyMac 0 0 0) = true := by decide

end Wacs
