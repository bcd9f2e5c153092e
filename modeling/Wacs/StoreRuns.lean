import Wacs.StoreScans

/-! Runs: sequences of calls on the store by a faultless engine, each with the bytes of memory it takes
in without having set them. A call comes down to edits of the store: observations put, notifications
put, records dropped. -/

namespace Wacs

open OrderBytes OrderedCursor

/-- The bytes a call meets in memory that no assignment of its own reaches. -/
structure Memory where
  pad : Padding
  stray : Stray
  slack : Slack

/-- A call and its arguments; `now` is the clock. -/
inductive Op : Type 1 where
  | putLog (buffer : Bytes) (now : Int)
  | putLogEntries (records : List LogRecord)
  | readLog {σ : Type} (f : Filter) (start finish : Int) (onLog : OnLog σ) (env : σ)
  | rmLog (f : Filter) (start finish : Int)
  | putNotification (sa : Mac) (value : Bytes)
  | rmNotification (p : NotePrefix)

abbrev Step := Op × Memory

/-- What the caller sees of a call: the callbacks of a listing, the count of a removal. -/
inductive Seen where
  | done
  | listed (items : List LogItem)
  | removed (count : Int)
  deriving DecidableEq

/-- One call. -/
def perform (s : Store) (c : Step) : Seen × Store :=
  match c.1 with
  | .putLog buffer now => (.done, (quietly (putLog buffer now c.2.pad) s).2)
  | .putLogEntries records => (.done, (quietly (putLogEntries records c.2.pad) s).2)
  | .readLog f start finish onLog env =>
      let r := quietly (readLog c.2.slack f start finish c.2.pad.key (some onLog) (some env)) s
      (.listed (handedItems r.1), r.2)
  | .rmLog f start finish =>
      let r := quietly (rmLog c.2.slack f start finish c.2.pad.key) s
      (.removed r.1, r.2)
  | .putNotification sa value => (.done, (quietly (putNotification sa value c.2.stray) s).2)
  | .rmNotification p => (.done, (quietly (rmNotification c.2.slack p) s).2)

/-- The store after a sequence of calls. -/
def run (s : Store) (calls : List Step) : Store := calls.foldl (fun s c => (perform s c).2) s

/-- What the caller sees of a sequence of calls. -/
def seen : Store → List Step → List Seen
  | _, [] => []
  | s, c :: calls => (perform s c).1 :: seen (perform s c).2 calls

theorem run_append (s : Store) (calls calls' : List Step) : run s (calls ++ calls') = run (run s calls) calls' :=
  List.foldl_append

theorem run_concat (s : Store) (calls : List Step) (c : Step) :
    run s (calls ++ [c]) = (perform (run s calls) c).2 :=
  run_append s calls [c]

/-- Every call of a run meets a condition on the store before it. -/
def EachCall (P : Store → Step → Prop) : Store → List Step → Prop
  | _, [] => True
  | s, c :: calls => P s c ∧ EachCall P (perform s c).2 calls

theorem eachCall_concat {P : Store → Step → Prop} (s : Store) (calls : List Step) (c : Step) :
    EachCall P s (calls ++ [c]) ↔ EachCall P s calls ∧ P (run s calls) c := by
  induction calls generalizing s with
  | nil => exact ⟨fun h => ⟨trivial, h.1⟩, fun h => ⟨h.2, trivial⟩⟩
  | cons c' calls ih => exact (and_congr_right fun _ => ih _).trans and_assoc.symm

/-- When a call keeps a property exactly under a condition, the property holds all along a run exactly when
every call meets the condition. -/
theorem forall_prefix_iff {P : List Step → Prop} {Q : Store → Step → Prop} (hnil : P [])
    (hstep : ∀ calls c, P calls → (P (calls ++ [c]) ↔ Q (run .empty calls) c)) (calls : List Step) :
    (∀ n, P (calls.take n)) ↔ EachCall Q .empty calls := by
  induction calls using List.reverseRecOn with
  | nil => exact ⟨fun _ => trivial, fun _ n => by rwa [List.take_nil]⟩
  | append_singleton calls c ih =>
      rw [eachCall_concat, ← ih]
      constructor
      · intro h
        have hbefore : ∀ n, P (calls.take n) := by
          intro n
          have hp := h (min n calls.length)
          rw [List.take_append_of_le_length (Nat.min_le_right _ _)] at hp
          rwa [← List.take_eq_take_min] at hp
        have hall := hbefore calls.length
        rw [List.take_length] at hall
        have hlast := h (calls.length + 1)
        rw [List.take_of_length_le (by simp)] at hlast
        exact ⟨hbefore, (hstep calls c hall).mp hlast⟩
      · rintro ⟨hbefore, hc⟩ n
        have hall := hbefore calls.length
        rw [List.take_length] at hall
        rcases Nat.lt_or_ge calls.length n with hn | hn
        · rw [List.take_of_length_le (by simpa using hn)]
          exact (hstep calls c hall).mpr hc
        · rw [List.take_append_of_le_length hn]
          exact hbefore n

/-- Memory with the one byte in every place that is never set. -/
def filledMemory (b : UInt8) : Memory := ⟨⟨b, b⟩, ⟨List.replicate 9 b, rfl⟩, fun _ _ => b⟩

/-- The filter that gives no address. -/
def anyMac : Filter := ⟨none, 0, by decide⟩

/-- A filter of five bytes. -/
def fiveBytes : Filter := ⟨some [2, 0, 0, 0, 0], 5, by decide⟩

/-- Observations of three addresses, two of which begin alike, and a notification. -/
def sampleRun : List Step :=
  [(.putLog sampleBuffer 100, filledMemory 0), (.putLog [0, 3, 0xff, 0xb0, 9, 0, 0, 0, 0, 1] 110, filledMemory 0),
    (.putNotification sampleMac sampleText, filledMemory 0),
    (.putLogEntries [⟨sampleMac', 150, 2, -70⟩, ⟨sampleMac, 200, 1, -60⟩], filledMemory 0),
    (.putLog sampleBuffer 300, filledMemory 0)]

theorem sampleRun_pads : ∀ c ∈ sampleRun, c.2.pad.key = 0 := by simp [sampleRun, filledMemory]

/-- A callback that takes every item. -/
def takeAll : OnLog Unit := fun _ _ => ((), false)

/-! ### Edits -/

/-- What a call does to the store. -/
inductive Edit where
  | observe (sa : Mac) (pad : UInt8) (dt : UInt32) (data : LogData) (tail : UInt8)
  | note (sa : Mac) (stray : Stray) (text : Text)
  | drop (gone : Bytes × Bytes → Bool)

/-- The store with a record put. -/
def putRecord (s : Store) (r : Record) : Store := s.put r.key r.value

def Edit.apply (s : Store) : Edit → Store
  | observe sa pad dt data tail => putRecord (putRecord s (.log sa pad dt data tail)) (.probe sa dt)
  | note sa stray text => putRecord s (.note sa stray text)
  | drop gone => s.filter fun e => !gone e

/-- The edit a buffer received at a time stands for. -/
def bufferEdit (buffer : Bytes) (now : Int) (pad : Padding) : Edit :=
  .observe (ntohLogEntry (LogEntry.ofBytes buffer)).sa pad.key (time32 now) (bufferData buffer) pad.data

/-- The edit a record of an import stands for. -/
def importEdit (pad : Padding) (record : LogRecord) : Edit :=
  .observe record.sa pad.key record.dt ⟨record.deviceId, record.ssiSignal⟩ pad.data

/-- The edits of a call. -/
def edits (s : Store) (c : Step) : List Edit :=
  match c.1 with
  | .putLog buffer now => if buffer.length < sizeofLogEntry then [] else [bufferEdit buffer now c.2.pad]
  | .putLogEntries records => records.map (importEdit c.2.pad)
  | .readLog .. => []
  | .rmLog f start finish =>
      [.drop fun e => decide (e.1 ∈ (visited (rmLogTest c.2.slack f (timeRange start finish))
        (s.seek (rmLogSeek f start c.2.pad.key))).map Prod.fst)]
  | .putNotification sa value =>
      if h : value.length ≠ 0 then [.note sa c.2.stray ⟨value, h⟩]
      else [.drop fun e => decide (e.1 = noteKey sa c.2.stray)]
  | .rmNotification p =>
      [.drop fun e => decide (e.1 ∈ (visited (rmNotificationTest c.2.slack p)
        (s.seek (tagT :: p.bytes))).map Prod.fst)]

theorem observe_logKey (sa : Mac) (pad : Padding) (dt : UInt32) (data : LogData) (s : Store) :
    observe (logKey sa pad.key dt) data pad s = Edit.apply s (.observe sa pad.key dt data pad.data) := by
  rw [observe, probeValue_logKey, logKey_bytes sa pad.key dt data pad.data]
  change (s.put _ _).put (probeKey sa).bytes _ = _
  rw [probeKey_bytes sa dt]
  rfl

theorem filter_not_mem (s : Store) (keys : List Bytes) :
    (s.filter fun e => decide (e.1 ∉ keys)) = s.filter fun e => !decide (e.1 ∈ keys) := by
  congr 1
  funext e
  exact decide_not

theorem perform_store (s : Store) (c : Step) : (perform s c).2 = (edits s c).foldl Edit.apply s := by
  obtain ⟨op, mem⟩ := c
  cases op with
  | putLog buffer now =>
      simp only [perform, edits, putLog_quiet]
      split_ifs
      · rfl
      · exact observe_logKey _ mem.pad (time32 now) (bufferData buffer) s
  | putLogEntries records =>
      simp only [perform, edits, putLogEntries_quiet, List.foldl_map]
      congr 1
      funext s record
      exact observe_logKey record.sa mem.pad record.dt _ s
  | readLog f start finish onLog env => exact readLog_quiet_store _ _ _ _ _ _ _ _
  | rmLog f start finish =>
      simp only [perform, edits, rmLog_quiet]
      exact filter_not_mem s _
  | putNotification sa value =>
      simp only [perform, edits, putNotification_quiet]
      by_cases hv : value.length ≠ 0
      · rw [if_pos hv, dif_pos hv]
        rfl
      · rw [if_neg hv, dif_neg hv]
        split_ifs with hk
        · refine OrderedMap.ext_mem fun e => ?_
          simp [Edit.apply]
        · -- nothing to delete
          have hnone : s.get (noteKey sa mem.stray) = none := by simpa using hk
          have hne := (s.get_eq_none_iff _).mp hnone
          refine OrderedMap.ext_mem fun e => ?_
          simp only [List.foldl_cons, List.foldl_nil, Edit.apply, OrderedMap.mem_filter, Bool.not_eq_true',
            decide_eq_false_iff_not]
          exact ⟨fun he => ⟨he, hne e he⟩, fun he => he.1⟩
  | rmNotification p =>
      simp only [perform, edits, rmNotification_quiet]
      exact filter_not_mem s _

/-! ### Records in an edited store -/

theorem mem_putRecord (s : Store) (r r' : Record) :
    r'.entry ∈ (putRecord s r).entries ↔ r'.entry = r.entry ∨ r'.entry ∈ s.entries ∧ r'.key ≠ r.key :=
  s.mem_put r.key r.value r'.entry

theorem mem_putRecord_of_tag_ne (s : Store) {r r' : Record} (h : r'.tag ≠ r.tag) :
    r'.entry ∈ (putRecord s r).entries ↔ r'.entry ∈ s.entries := by
  have hkey : r'.key ≠ r.key := fun hk => h ((key_eq_iff r' r).mp hk).1
  rw [mem_putRecord]
  constructor
  · rintro (heq | hmem)
    · exact absurd (congrArg Prod.fst heq) hkey
    · exact hmem.1
  · exact fun hmem => Or.inr ⟨hmem, hkey⟩

theorem probe_entry_inj {m m' : Mac} {t t' : UInt32} :
    (Record.probe m t).entry = (Record.probe m' t').entry ↔ m = m' ∧ t = t' := by
  constructor
  · intro h
    have hsa := congrArg entrySa h
    have ht := congrArg (fun e => valueTime e.2) h
    simp only [entrySa_entry] at hsa
    exact ⟨hsa, by simpa [Record.entry] using ht⟩
  · rintro ⟨rfl, rfl⟩
    rfl

theorem log_entry_data {m m' : Mac} {p p' : UInt8} {t t' : UInt32} {d d' : LogData} {e e' : UInt8}
    (h : (Record.log m p t d e).entry = (Record.log m' p' t' d' e').entry) :
    m = m' ∧ p = p' ∧ t = t' ∧ d = d' := by
  obtain ⟨hm, hp, ht⟩ := (log_key_eq_iff m m' p p' t t' d d' e e').mp (congrArg Prod.fst h)
  have hd := congrArg (fun x => LogData.ofBytes x.2) h
  exact ⟨hm, hp, ht, by simpa [Record.entry] using hd⟩

theorem note_entry_inj {m m' : Mac} {y y' : Stray} {v v' : Text} :
    (Record.note m y v).entry = (Record.note m' y' v').entry ↔ m = m' ∧ y = y' ∧ v = v' := by
  constructor
  · intro h
    obtain ⟨-, hm, hy⟩ := (key_eq_iff _ _).mp (congrArg Prod.fst h)
    exact ⟨hm, Subtype.ext hy, Subtype.ext (congrArg Prod.snd h)⟩
  · rintro ⟨rfl, rfl, rfl⟩
    rfl

section Observed

variable (s : Store) (m m' : Mac) (p p' : UInt8) (t t' : UInt32) (d d' : LogData) (e e' : UInt8)

/-- The last observation of an address is its probe record. -/
theorem probe_mem_observe : (Record.probe m' t').entry ∈ (Edit.apply s (.observe m p t d e)).entries ↔
    (m' = m ∧ t' = t) ∨ m' ≠ m ∧ (Record.probe m' t').entry ∈ s.entries := by
  have hlog : (Record.probe m' t').entry ∈ (putRecord s (.log m p t d e)).entries ↔ _ :=
    mem_putRecord_of_tag_ne s tagP_ne_tagL
  rw [Edit.apply, mem_putRecord, hlog, probe_entry_inj, ne_eq, key_eq_iff]
  simp only [Record.tag, Record.sa, Record.rest, true_and, and_true]
  tauto

theorem log_mem_observe : (Record.log m' p' t' d' e').entry ∈ (Edit.apply s (.observe m p t d e)).entries ↔
    (Record.log m' p' t' d' e').entry = (Record.log m p t d e).entry ∨
      (Record.log m' p' t' d' e').entry ∈ s.entries ∧ ¬(m' = m ∧ p' = p ∧ t' = t) := by
  have hne : (Record.log m' p' t' d' e').tag ≠ (Record.probe m t).tag := tagP_ne_tagL.symm
  rw [Edit.apply, mem_putRecord_of_tag_ne _ hne, mem_putRecord, ne_eq,
    log_key_eq_iff]

/-- The other records are left alone. -/
theorem mem_observe_of_tag_eq {r : Record} (hr : r.tag = tagT) :
    r.entry ∈ (Edit.apply s (.observe m p t d e)).entries ↔ r.entry ∈ s.entries := by
  rw [Edit.apply, mem_putRecord_of_tag_ne _ (by rw [hr]; exact tagT_ne_tagP),
    mem_putRecord_of_tag_ne _ (by rw [hr]; exact tagT_ne_tagL)]

end Observed

section Noted

variable (s : Store) (m m' : Mac) (y y' : Stray) (v v' : Text)

theorem note_mem_note : (Record.note m' y' v').entry ∈ (Edit.apply s (.note m y v)).entries ↔
    (m' = m ∧ y' = y ∧ v' = v) ∨ (Record.note m' y' v').entry ∈ s.entries ∧ ¬(m' = m ∧ y' = y) := by
  rw [Edit.apply, mem_putRecord, note_entry_inj, ne_eq, key_eq_iff]
  simp only [Record.tag, Record.sa, Record.rest, true_and, Subtype.ext_iff]

theorem mem_note_of_tag_ne {r : Record} (h : r.tag ≠ tagT) :
    r.entry ∈ (Edit.apply s (.note m y v)).entries ↔ r.entry ∈ s.entries :=
  mem_putRecord_of_tag_ne s h

end Noted

theorem mem_drop (s : Store) (gone : Bytes × Bytes → Bool) (e : Bytes × Bytes) :
    e ∈ (Edit.apply s (.drop gone)).entries ↔ e ∈ s.entries ∧ gone e = false := by
  simp [Edit.apply]

/-! ### Invariants of every run -/

theorem WellFormed.putRecord {s : Store} (h : WellFormed s) (r : Record) : WellFormed (putRecord s r) := by
  intro e he
  rcases (s.mem_put r.key r.value e).mp he with rfl | he
  · exact ⟨r, rfl⟩
  · exact h e he.1

theorem WellFormed.apply {s : Store} (h : WellFormed s) (x : Edit) : WellFormed (Edit.apply s x) := by
  cases x with
  | observe sa pad dt data tail => exact (h.putRecord _).putRecord _
  | note sa stray text => exact h.putRecord _
  | drop gone => exact fun e he => h e ((mem_drop s gone e).mp he).1

theorem WellFormed.edits {s : Store} (h : WellFormed s) (xs : List Edit) :
    WellFormed (xs.foldl Edit.apply s) := by
  induction xs generalizing s with
  | nil => exact h
  | cons x xs ih => exact ih (h.apply x)

theorem WellFormed.perform {s : Store} (h : WellFormed s) (c : Step) : WellFormed (perform s c).2 := by
  rw [perform_store]
  exact h.edits _

theorem wellFormed_empty : WellFormed .empty := fun e he => absurd he (OrderedMap.mem_empty e)

theorem WellFormed.run {s : Store} (h : WellFormed s) (calls : List Step) : WellFormed (run s calls) := by
  induction calls generalizing s with
  | nil => exact h
  | cons c calls ih => exact ih (h.perform c)

theorem run_wellFormed (calls : List Step) : WellFormed (run .empty calls) := wellFormed_empty.run calls

/-- A record is among the keys of those visited exactly when it is visited. -/
theorem mem_visited_keys {s : Store} {test : Bytes × Bytes → Verdict} {seek : Bytes} {e : Bytes × Bytes}
    (he : e ∈ s.entries) :
    e.1 ∈ (visited test (s.seek seek)).map Prod.fst ↔ e ∈ visited test (s.seek seek) := by
  constructor
  · intro h
    obtain ⟨x, hx, hkey⟩ := List.mem_map.mp h
    have hmem := ((s.mem_seek seek x).mp (visited_hit hx).1).1
    have hval : x.2 = e.2 := s.key_inj (k := e.1) (by rw [← hkey]; exact hmem) he
    rwa [← Prod.ext hkey hval]
  · exact fun h => List.mem_map_of_mem h

/-- What a call drops from a store: log records of `rmLog`, notifications of the notification calls. -/
theorem edits_drop {s : Store} {c : Step} {gone : Bytes × Bytes → Bool}
    (h : .drop gone ∈ edits s c) {r : Record} (hr : r.entry ∈ s.entries) (hgone : gone r.entry = true) :
    (∃ f start finish, c.1 = .rmLog f start finish) ∧ r.tag = tagL ∨
      (∃ sa value, c.1 = .putNotification sa value) ∧ r.tag = tagT ∨
      (∃ p, c.1 = .rmNotification p) ∧ r.tag = tagT := by
  obtain ⟨op, mem⟩ := c
  cases op with
  | putLog buffer now =>
      simp only [edits] at h
      split_ifs at h <;> simp [bufferEdit] at h
  | putLogEntries records => simp [edits, importEdit] at h
  | readLog f start finish onLog env => simp [edits] at h
  | rmLog f start finish =>
      simp only [edits, List.mem_singleton, Edit.drop.injEq] at h
      subst h
      have hvisited := (mem_visited_keys hr).mp (of_decide_eq_true hgone)
      exact Or.inl ⟨⟨f, start, finish, rfl⟩, rmLogTest_hit_tag _ _ _ (visited_hit hvisited).2⟩
  | putNotification sa value =>
      simp only [edits] at h
      split_ifs at h
      · simp at h
      · simp only [List.mem_singleton, Edit.drop.injEq] at h
        subst h
        have hkey : r.key = noteKey sa mem.stray := of_decide_eq_true hgone
        exact Or.inr (Or.inl ⟨⟨sa, value, rfl⟩, (List.cons.inj hkey).1⟩)
  | rmNotification p =>
      simp only [edits, List.mem_singleton, Edit.drop.injEq] at h
      subst h
      have hvisited := (mem_visited_keys hr).mp (of_decide_eq_true hgone)
      obtain ⟨-, hle⟩ := (s.mem_seek _ _).mp (visited_hit hvisited).1
      obtain ⟨m, stray, text, rfl, -⟩ := note_of_le_key (by simpa using p.sz_le) hle
      exact Or.inr (Or.inr ⟨⟨p, rfl⟩, rfl⟩)

/-- A call observes, or puts one notification, or drops. -/
theorem edits_cases (s : Store) (c : Step) :
    (∀ x ∈ edits s c, ∃ m p t d e, x = .observe m p t d e) ∨ (∃ m y v, edits s c = [.note m y v]) ∨
      ∃ gone, edits s c = [.drop gone] := by
  obtain ⟨op, mem⟩ := c
  cases op with
  | putLog buffer now =>
      refine Or.inl fun x hx => ?_
      simp only [edits] at hx
      split_ifs at hx
      · simp at hx
      · exact ⟨_, _, _, _, _, List.mem_singleton.mp hx⟩
  | putLogEntries records =>
      refine Or.inl fun x hx => ?_
      obtain ⟨record, -, rfl⟩ := List.mem_map.mp hx
      exact ⟨_, _, _, _, _, rfl⟩
  | readLog f start finish onLog env => exact Or.inl fun x hx => absurd hx List.not_mem_nil
  | rmLog f start finish => exact Or.inr (Or.inr ⟨_, rfl⟩)
  | putNotification sa value =>
      simp only [edits]
      split_ifs with hv
      · exact Or.inr (Or.inl ⟨_, _, _, rfl⟩)
      · exact Or.inr (Or.inr ⟨_, rfl⟩)
  | rmNotification p => exact Or.inr (Or.inr ⟨_, rfl⟩)

/-- Whether a call is one of the notification table's. -/
def Op.OnNotes : Op → Prop
  | .putNotification .. => True
  | .rmNotification .. => True
  | _ => False

/-- The calls of the notification table leave the other records alone. -/
theorem mem_perform_onNotes {s : Store} {c : Step} (hc : c.1.OnNotes) {r : Record} (hr : r.tag ≠ tagT) :
    r.entry ∈ (perform s c).2.entries ↔ r.entry ∈ s.entries := by
  have hdrop : ∀ gone, edits s c = [.drop gone] →
      (r.entry ∈ (perform s c).2.entries ↔ r.entry ∈ s.entries) := by
    intro gone hx
    rw [perform_store, hx]
    refine (mem_drop s gone _).trans ⟨fun h => h.1, fun h => ⟨h, ?_⟩⟩
    by_contra hgone
    rcases edits_drop (hx ▸ List.mem_singleton_self _) h (by simpa using hgone) with hd | hd | hd
    · obtain ⟨⟨f, start, finish, heq⟩, -⟩ := hd
      rw [heq] at hc
      exact hc
    · exact hr hd.2
    · exact hr hd.2
  rcases edits_cases s c with hxs | ⟨m, y, v, hx⟩ | ⟨gone, hx⟩
  · obtain ⟨op, mem⟩ := c
    cases op with
    | putNotification sa value =>
        simp only [edits] at hxs
        split_ifs at hxs <;> simp at hxs
    | rmNotification p => simp [edits] at hxs
    | putLog => exact absurd hc id
    | putLogEntries => exact absurd hc id
    | readLog => exact absurd hc id
    | rmLog => exact absurd hc id
  · rw [perform_store, hx]
    exact mem_note_of_tag_ne s m y v hr
  · exact hdrop gone hx

/-- Observations leave the notifications alone. -/
theorem mem_observations {r : Record} (hr : r.tag = tagT) (xs : List Edit) (s : Store)
    (hxs : ∀ x ∈ xs, ∃ m p t d e, x = .observe m p t d e) :
    r.entry ∈ (xs.foldl Edit.apply s).entries ↔ r.entry ∈ s.entries := by
  induction xs generalizing s with
  | nil => exact Iff.rfl
  | cons x xs ih =>
      obtain ⟨m, p, t, d, e, rfl⟩ := hxs x List.mem_cons_self
      refine (ih _ fun x hx => hxs x (List.mem_cons_of_mem _ hx)).trans ?_
      exact mem_observe_of_tag_eq s m p t d e hr

/-- The other calls leave the notifications alone. -/
theorem mem_perform_of_not_onNotes {s : Store} {c : Step} (hc : ¬c.1.OnNotes) {r : Record}
    (hr : r.tag = tagT) : r.entry ∈ (perform s c).2.entries ↔ r.entry ∈ s.entries := by
  rw [perform_store]
  rcases edits_cases s c with hxs | ⟨m, y, v, hx⟩ | ⟨gone, hx⟩
  · exact mem_observations hr _ s hxs
  · -- only `putNotification` puts one
    obtain ⟨op, mem⟩ := c
    cases op with
    | putNotification => exact absurd trivial hc
    | rmNotification => exact absurd trivial hc
    | putLog buffer now =>
        simp only [edits] at hx
        split_ifs at hx
        simp [bufferEdit] at hx
    | putLogEntries records =>
        have hmem : Edit.note m y v ∈ records.map (importEdit mem.pad) := by
          rw [show records.map (importEdit mem.pad) = [.note m y v] from hx]
          exact List.mem_singleton_self _
        simp [importEdit] at hmem
    | readLog => simp [edits] at hx
    | rmLog => simp [edits] at hx
  · rw [hx]
    refine (mem_drop s gone _).trans ⟨fun h => h.1, fun h => ⟨h, ?_⟩⟩
    by_contra hgone
    rcases edits_drop (hx ▸ List.mem_singleton_self _) h (by simpa using hgone) with hd | hd | hd
    · exact absurd (hr.symm.trans hd.2) (by decide)
    · obtain ⟨⟨sa, value, heq⟩, -⟩ := hd
      exact hc (heq ▸ trivial)
    · obtain ⟨⟨p, heq⟩, -⟩ := hd
      exact hc (heq ▸ trivial)

/-- The alignment byte of what a call puts is its own. -/
theorem edits_pad {s : Store} {c : Step} {m : Mac} {p : UInt8} {t : UInt32} {d : LogData} {e : UInt8}
    (h : .observe m p t d e ∈ edits s c) : p = c.2.pad.key := by
  obtain ⟨op, mem⟩ := c
  cases op with
  | putLog buffer now =>
      simp only [edits] at h
      split_ifs at h
      · simp at h
      · simp only [bufferEdit, List.mem_singleton, Edit.observe.injEq] at h
        exact h.2.1
  | putLogEntries records =>
      obtain ⟨record, -, heq⟩ := List.mem_map.mp h
      simp only [importEdit, Edit.observe.injEq] at heq
      exact heq.2.1.symm
  | readLog => simp [edits] at h
  | rmLog => simp [edits] at h
  | putNotification sa value =>
      simp only [edits] at h
      split_ifs at h <;> simp at h
  | rmNotification => simp [edits] at h

/-- A property every kind of edit preserves holds after every run; no call drops a probe record. -/
theorem run_invariant {P : Store → Prop}
    (hobserve : ∀ s m p t d e, P s → P (Edit.apply s (.observe m p t d e)))
    (hnote : ∀ s m y v, P s → P (Edit.apply s (.note m y v)))
    (hdrop : ∀ s gone, P s → (∀ r : Record, r.entry ∈ s.entries → gone r.entry = true → r.tag ≠ tagP) →
      P (Edit.apply s (.drop gone)))
    {s : Store} (h : P s) (calls : List Step) : P (run s calls) := by
  induction calls generalizing s with
  | nil => exact h
  | cons c calls ih =>
      refine ih ?_
      change P (perform s c).2
      rw [perform_store]
      rcases edits_cases s c with hxs | ⟨m, y, v, hx⟩ | ⟨gone, hx⟩
      · -- an import observes many times
        have hfold : ∀ (xs : List Edit) (s : Store), P s → (∀ x ∈ xs, ∃ m p t d e, x = .observe m p t d e) →
            P (xs.foldl Edit.apply s) := by
          intro xs
          induction xs with
          | nil => exact fun s h _ => h
          | cons x xs ihx =>
              intro s h hxs
              obtain ⟨m, p, t, d, e, rfl⟩ := hxs x List.mem_cons_self
              exact ihx _ (hobserve s m p t d e h) fun x hx => hxs x (List.mem_cons_of_mem _ hx)
        exact hfold _ s h hxs
      · rw [hx]
        exact hnote s m y v h
      · rw [hx]
        refine hdrop s gone h fun r hr hgone => ?_
        rcases edits_drop (hx ▸ List.mem_singleton_self _) hr hgone with h | h | h
        · simp [h.2, tagL, tagP]
        · simp [h.2, tagT, tagP]
        · simp [h.2, tagT, tagP]

/-- Every address with a log record has a probe record. -/
def Attended (s : Store) : Prop :=
  ∀ m t d, HasLog s m t d → ∃ t', (Record.probe m t').entry ∈ s.entries

theorem Attended.observe {s : Store} (h : Attended s) (m : Mac) (p : UInt8) (t : UInt32) (d : LogData)
    (e : UInt8) : Attended (Edit.apply s (.observe m p t d e)) := by
  rintro m' t' d' ⟨p', e', hlog⟩
  simp only [probe_mem_observe]
  by_cases hm : m' = m
  · exact ⟨t, Or.inl ⟨hm, rfl⟩⟩
  · rcases (log_mem_observe s m m' p p' t t' d d' e e').mp hlog with heq | ⟨hmem, -⟩
    · exact absurd (log_entry_data heq).1 hm
    · obtain ⟨t'', hprobe⟩ := h m' t' d' ⟨p', e', hmem⟩
      exact ⟨t'', Or.inr ⟨hm, hprobe⟩⟩

theorem run_attended (calls : List Step) : Attended (run .empty calls) := by
  refine run_invariant (P := Attended) (fun s m p t d e h => h.observe m p t d e) ?_ ?_ ?_ calls
  · rintro s m y v h m' t' d' ⟨p', e', hlog⟩
    have hne : (Record.log m' p' t' d' e').tag ≠ tagT := tagT_ne_tagL.symm
    rw [mem_note_of_tag_ne _ _ _ _ hne] at hlog
    obtain ⟨t'', hprobe⟩ := h m' t' d' ⟨p', e', hlog⟩
    have hne' : (Record.probe m' t'').tag ≠ tagT := tagT_ne_tagP.symm
    exact ⟨t'', (mem_note_of_tag_ne _ _ _ _ hne').mpr hprobe⟩
  · rintro s gone h hspare m' t' d' ⟨p', e', hlog⟩
    obtain ⟨t'', hprobe⟩ := h m' t' d' ⟨p', e', ((mem_drop s gone _).mp hlog).1⟩
    refine ⟨t'', (mem_drop s gone _).mpr ⟨hprobe, ?_⟩⟩
    by_contra hgone
    exact hspare _ hprobe (by simpa using hgone) rfl
  · rintro m' t' d' ⟨p', e', hlog⟩
    exact absurd hlog (OrderedMap.mem_empty _)

end Wacs
