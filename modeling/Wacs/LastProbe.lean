import Wacs.StoreRuns

/-! The table of last probes against the log: the probe record of an address is its last observation put,
which is its latest only if no later one was put before. -/

namespace Wacs

/-- Some log record of the address has the time. -/
def Logged (s : Store) (m : Mac) (t : UInt32) : Prop := ∃ d, HasLog s m t d

/-- Every address of the log has one probe record, and no log record of the address is later. -/
def LastProbeExact (s : Store) : Prop :=
  ∀ m, (∃ t, Logged s m t) → ∃ t', (∀ t, (Record.probe m t).entry ∈ s.entries ↔ t = t') ∧
    ∀ t, Logged s m t → t ≤ t'

/-- The time of the last record supplied for an address. -/
def lastDt (records : List LogRecord) (m : Mac) : Option UInt32 :=
  (records.reverse.find? fun r => decide (r.sa = m)).map LogRecord.dt

/-- The last observation a call puts for an address is no earlier than those held and those it puts. -/
def PutsLatest (s : Store) (c : Step) : Prop :=
  match c.1 with
  | .putLog buffer now => ¬buffer.length < sizeofLogEntry →
      ∀ t, Logged s (ntohLogEntry (LogEntry.ofBytes buffer)).sa t → t ≤ time32 now
  | .putLogEntries records => ∀ m t', lastDt records m = some t' →
      ∀ t, Logged s m t ∨ (∃ r ∈ records, r.sa = m ∧ r.dt = t) → t ≤ t'
  | _ => True

/-- One observation adds its time, whatever alignment bytes are about. -/
theorem logged_observe (s : Store) (m m' : Mac) (p : UInt8) (t t' : UInt32) (d : LogData) (e : UInt8) :
    Logged (Edit.apply s (.observe m p t d e)) m' t' ↔ Logged s m' t' ∨ (m = m' ∧ t = t') := by
  constructor
  · rintro ⟨d', p', e', hlog⟩
    rcases (log_mem_observe s m m' p p' t t' d d' e e').mp hlog with heq | ⟨hmem, -⟩
    · obtain ⟨hm, -, ht, -⟩ := log_entry_data heq
      exact Or.inr ⟨hm.symm, ht.symm⟩
    · exact Or.inl ⟨d', p', e', hmem⟩
  · rintro (⟨d', p', e', hmem⟩ | ⟨rfl, rfl⟩)
    · by_cases hsame : m' = m ∧ p' = p ∧ t' = t
      · obtain ⟨rfl, rfl, rfl⟩ := hsame
        exact ⟨d, p', e, (log_mem_observe s m' m' p' p' t' t' d d e e).mpr (Or.inl rfl)⟩
      · exact ⟨d', p', e', (log_mem_observe s m m' p p' t t' d d' e e').mpr (Or.inr ⟨hmem, hsame⟩)⟩
    · exact ⟨d, p, e, (log_mem_observe s m m p p t t d d e e).mpr (Or.inl rfl)⟩

section Imports

variable (s : Store) (pad : Padding) (records : List LogRecord)

/-- The store after a batch. -/
def imported : Store := (records.map (importEdit pad)).foldl Edit.apply s

theorem imported_concat (r : LogRecord) :
    imported s pad (records ++ [r]) = Edit.apply (imported s pad records) (importEdit pad r) := by
  rw [imported, List.map_append, List.foldl_append]
  rfl

theorem logged_imported (m : Mac) (t : UInt32) :
    Logged (imported s pad records) m t ↔ Logged s m t ∨ ∃ r ∈ records, r.sa = m ∧ r.dt = t := by
  induction records using List.reverseRecOn with
  | nil => simp [imported]
  | append_singleton records r ih =>
      rw [imported_concat, importEdit, logged_observe, ih]
      simp only [List.mem_append, List.mem_singleton, or_and_right, exists_or, exists_eq_left, or_assoc]

theorem lastDt_concat (r : LogRecord) (m : Mac) :
    lastDt (records ++ [r]) m = if r.sa = m then some r.dt else lastDt records m := by
  rw [lastDt, List.reverse_concat]
  split_ifs with h
  · rw [List.find?_cons_of_pos (by simpa using h)]
    rfl
  · rw [List.find?_cons_of_neg (by simpa using h), lastDt]

theorem lastDt_singleton (r : LogRecord) (m : Mac) :
    lastDt [r] m = if r.sa = m then some r.dt else none :=
  lastDt_concat [] r m

/-- The probe record of an address is the last one supplied for it, or the one there was. -/
theorem probe_mem_imported (m : Mac) (t : UInt32) :
    (Record.probe m t).entry ∈ (imported s pad records).entries ↔
      match lastDt records m with
      | some t' => t = t'
      | none => (Record.probe m t).entry ∈ s.entries := by
  induction records using List.reverseRecOn with
  | nil => rfl
  | append_singleton records r ih =>
      rw [imported_concat, importEdit, probe_mem_observe, lastDt_concat, ih]
      by_cases hm : m = r.sa
      · simp [hm]
      · simp [hm, Ne.symm hm]

end Imports

theorem lastDt_eq_none_iff {records : List LogRecord} {m : Mac} :
    lastDt records m = none ↔ ∀ r ∈ records, r.sa ≠ m := by
  simp [lastDt]

/-- A batch keeps the table of last probes exactly when its last time for each address is no earlier than
the others. -/
theorem LastProbeExact.imported_iff {s : Store} (h : LastProbeExact s) (pad : Padding)
    (records : List LogRecord) :
    LastProbeExact (imported s pad records) ↔ ∀ m t', lastDt records m = some t' →
      ∀ t, Logged s m t ∨ (∃ r ∈ records, r.sa = m ∧ r.dt = t) → t ≤ t' := by
  constructor
  · intro hnew m t' hlast t ht
    have hlogged := (logged_imported s pad records m t).mpr ht
    obtain ⟨t'', hprobe, hle⟩ := hnew m ⟨t, hlogged⟩
    have hmem := (probe_mem_imported s pad records m t').mpr (by rw [hlast])
    rw [(hprobe t').mp hmem]
    exact hle t hlogged
  · rintro hlatest m ⟨t, hlogged⟩
    cases hlast : lastDt records m with
    | some t' =>
        refine ⟨t', fun t₁ => ?_, fun t₁ ht₁ => ?_⟩
        · rw [probe_mem_imported, hlast]
        · exact hlatest m t' hlast t₁ ((logged_imported s pad records m t₁).mp ht₁)
    | none =>
        -- the batch has nothing of the address
        have hno := lastDt_eq_none_iff.mp hlast
        have hsame : ∀ t₁, Logged (imported s pad records) m t₁ ↔ Logged s m t₁ := by
          intro t₁
          rw [logged_imported]
          exact or_iff_left fun ⟨r, hr, hm, _⟩ => hno r hr hm
        obtain ⟨t', hprobe, hle⟩ := h m ⟨t, (hsame t).mp hlogged⟩
        refine ⟨t', fun t₁ => ?_, fun t₁ ht₁ => hle t₁ ((hsame t₁).mp ht₁)⟩
        rw [probe_mem_imported, hlast]
        exact hprobe t₁

/-- Losing log records, with the probe records as they were, keeps the table. -/
theorem LastProbeExact.of_le {s s' : Store} (h : LastProbeExact s) (hlog : ∀ m t, Logged s' m t → Logged s m t)
    (hprobe : ∀ m t, (Record.probe m t).entry ∈ s'.entries ↔ (Record.probe m t).entry ∈ s.entries) :
    LastProbeExact s' := by
  rintro m ⟨t, ht⟩
  obtain ⟨t', hp, hle⟩ := h m ⟨t, hlog m t ht⟩
  exact ⟨t', fun t₁ => (hprobe m t₁).trans (hp t₁), fun t₁ ht₁ => hle t₁ (hlog m t₁ ht₁)⟩

theorem LastProbeExact.notes {s : Store} (h : LastProbeExact s) {c : Step} (hc : c.1.OnNotes) :
    LastProbeExact (perform s c).2 := by
  refine h.of_le ?_ fun m t => mem_perform_onNotes hc (by exact tagT_ne_tagP.symm)
  rintro m t ⟨d, p, e, hlog⟩
  exact ⟨d, p, e, (mem_perform_onNotes hc (by exact tagT_ne_tagL.symm)).mp hlog⟩

theorem LastProbeExact.rm {s : Store} (h : LastProbeExact s) (f : Filter) (start finish : Int) (mem : Memory) :
    LastProbeExact (perform s (.rmLog f start finish, mem)).2 := by
  rw [perform_store]
  refine h.of_le ?_ fun m t => ?_
  · rintro m t ⟨d, p, e, hlog⟩
    exact ⟨d, p, e, ((mem_drop s _ _).mp hlog).1⟩
  · refine (mem_drop s _ _).trans ⟨fun hp => hp.1, fun hp => ⟨hp, ?_⟩⟩
    by_contra hgone
    have hdrop := edits_drop (s := s) (c := (.rmLog f start finish, mem)) (List.mem_singleton_self _) hp
      (by simpa using hgone)
    rcases hdrop with hd | ⟨⟨_, _, heq⟩, -⟩ | ⟨⟨_, heq⟩, -⟩
    · exact absurd hd.2 tagP_ne_tagL
    · cases heq
    · cases heq

/-- A call keeps the table of last probes exactly when what it puts is the latest. -/
theorem LastProbeExact.step_iff {s : Store} (h : LastProbeExact s) (c : Step) :
    LastProbeExact (perform s c).2 ↔ PutsLatest s c := by
  obtain ⟨op, mem⟩ := c
  cases op with
  | putLog buffer now =>
      rw [perform_store]
      simp only [edits, PutsLatest]
      split_ifs with hlen
      · exact iff_of_true h fun hno => absurd hlen hno
      · -- a batch of one record
        have hone := h.imported_iff mem.pad [⟨(ntohLogEntry (LogEntry.ofBytes buffer)).sa, time32 now,
          (bufferData buffer).deviceId, (bufferData buffer).ssiSignal⟩]
        refine Iff.trans hone ⟨fun hall _ t ht => ?_, fun hlatest m t' hlast t ht => ?_⟩
        · exact hall _ (time32 now) ((lastDt_singleton _ _).trans (if_pos rfl)) t (Or.inl ht)
        · rw [lastDt_singleton] at hlast
          split_ifs at hlast with hm
          obtain rfl := hm
          obtain rfl := Option.some.inj hlast
          rcases ht with ht | ⟨r, hr, -, rfl⟩
          · exact hlatest hlen t ht
          · rw [List.mem_singleton.mp hr]
  | putLogEntries records =>
      rw [perform_store]
      exact h.imported_iff mem.pad records
  | readLog f start finish onLog env =>
      rw [perform_store]
      exact iff_of_true h trivial
  | rmLog f start finish => exact iff_of_true (h.rm f start finish mem) trivial
  | putNotification sa value => exact iff_of_true (h.notes (c := (.putNotification sa value, mem)) trivial) trivial
  | rmNotification p => exact iff_of_true (h.notes (c := (.rmNotification p, mem)) trivial) trivial

theorem lastProbeExact_empty : LastProbeExact .empty :=
  fun _ ⟨_, _, _, _, h⟩ => absurd h (OrderedMap.mem_empty _)

/-- The last probes are the latest of the log all along a run exactly when every `putLog` and
`putLogEntries` of the run puts nothing earlier than what the log has of the address. -/
theorem lastProbe_exact_iff (calls : List Step) :
    (∀ n, LastProbeExact (run .empty (calls.take n))) ↔ EachCall PutsLatest .empty calls := by
  refine forall_prefix_iff (P := fun calls => LastProbeExact (run .empty calls)) lastProbeExact_empty
    (fun calls c h => ?_) calls
  rw [run_concat]
  exact h.step_iff c

/-- The clock of a run, where it is read, never goes back and stays below `2 ^ 32`. -/
def ClockForward (calls : List Step) : Prop :=
  (calls.filterMap fun c => match c.1 with | .putLog _ now => some now | _ => none).Pairwise (· ≤ ·) ∧
    ∀ c ∈ calls, ∀ buffer now, c.1 = .putLog buffer now → 0 ≤ now ∧ now < 2 ^ 32

/-- A message, then an import of an older record of its address. -/
def putThenImport : List Step :=
  [(.putLog sampleBuffer 100, filledMemory 0), (.putLogEntries [⟨sampleMac, 50, 1, 0⟩], filledMemory 0)]

theorem putThenImport_clockForward : ClockForward putThenImport := by
  refine ⟨by decide, ?_⟩
  intro c hc buffer now heq
  simp only [putThenImport, List.mem_cons, List.not_mem_nil, or_false] at hc
  rcases hc with rfl | rfl
  · cases heq
    decide
  · cases heq

/-- The last probe of an address is earlier than a record of its log. -/
theorem import_sets_lastProbe_back : ¬∀ calls : List Step, ClockForward calls →
    LastProbeExact (run .empty calls) := by
  intro h
  have hlogged : Logged (run .empty putThenImport) sampleMac 100 := ⟨⟨1, -50⟩, 0, 0, by decide⟩
  have hprobe : (Record.probe sampleMac 50).entry ∈ (run .empty putThenImport).entries := by decide
  obtain ⟨t', hp, hle⟩ := h putThenImport putThenImport_clockForward sampleMac ⟨100, hlogged⟩
  obtain rfl := (hp 50).mp hprobe
  exact absurd (hle 100 hlogged) (by decide)

end Wacs
