import Wacs.LogExact

/-! What a caller sees of the log calls does not depend on the alignment byte of the keys, as long as no
call builds a key for an address whose log records have another one. -/

namespace Wacs

open OrderBytes OrderedCursor

namespace LogTables

/-- What a call on the tables shows, when there are no notifications. -/
def see (T : LogTables) : Op → Seen
  | .readLog f start finish onLog env =>
      .listed (handed onLog env ((T.log.entries.filter (onKeys (readLogPicks f start finish))).map logItem))
  | .rmLog f start finish =>
      .removed (if T.last.entries = [] then MDB_NOTFOUND
        else ((T.log.entries.filter (onKeys (rmLogPicks f start finish))).length : Int))
  | _ => .done

/-- What a sequence of calls on the tables shows. -/
def seen : LogTables → List Op → List Seen
  | _, [] => []
  | T, op :: ops => T.see op :: seen (T.step op) ops

end LogTables

/-- There are no notifications in the store. -/
def NoNotes (s : Store) : Prop := ∀ r : Record, r.entry ∈ s.entries → r.tag ≠ tagT

theorem NoNotes.perform {s : Store} (h : NoNotes s) {c : Step} (hc : ¬c.1.OnNotes) :
    NoNotes (perform s c).2 :=
  fun r hr htag => h r ((mem_perform_of_not_onNotes hc htag).mp hr) htag

theorem noNotes_empty : NoNotes .empty := fun _ h => absurd h (OrderedMap.mem_empty _)

/-- Without notifications the store is empty when the table of last probes is. -/
theorem Refines.entries_eq_nil {s : Store} {T : LogTables} (h : Refines s T) (hnotes : NoNotes s) :
    s.entries = [] ↔ T.last.entries = [] := by
  refine ⟨fun hnil => ?_, fun hnil => ?_⟩
  · refine List.eq_nil_iff_forall_not_mem.mpr fun x hx => ?_
    have hprobe := (h.last x.1 x.2).mp ((T.last.get_eq_some_iff _ _).mpr hx)
    rw [hnil] at hprobe
    exact List.not_mem_nil hprobe
  · have hno : ∀ m t, (Record.probe m t).entry ∉ s.entries := by
      intro m t hmem
      have hget := (T.last.get_eq_some_iff _ _).mp ((h.last m t).mpr hmem)
      rw [hnil] at hget
      exact List.not_mem_nil hget
    refine List.eq_nil_iff_forall_not_mem.mpr fun x hx => ?_
    obtain ⟨r, rfl⟩ := h.wellFormed x hx
    cases r with
    | log m p t d e =>
        obtain ⟨t', ht'⟩ := h.attended m t d ⟨p, e, hx⟩
        exact hno m t' ht'
    | probe m t => exact hno m t hx
    | note => exact hnotes _ hx rfl

theorem Refines.see {s : Store} {T : LogTables} (h : Refines s T) (hnotes : NoNotes s) {c : Step}
    (hc : Aligned s c) : (perform s c).1 = T.see c.1 := by
  obtain ⟨op, mem⟩ := c
  cases op with
  | readLog f start finish onLog env =>
      have hitems := readLog_items h mem.slack f start finish hc onLog env
      exact congrArg Seen.listed hitems
  | rmLog f start finish =>
      have hcount := rmLog_count h mem.slack f start finish hc
      simp only [h.entries_eq_nil hnotes] at hcount
      exact congrArg Seen.removed hcount
  | putLog => rfl
  | putLogEntries => rfl
  | putNotification => rfl
  | rmNotification => rfl

/-- An aligned run of log calls shows what its calls mean. -/
theorem Refines.seen_calls {s : Store} {T : LogTables} (h : Refines s T) (hnotes : NoNotes s) {calls : List Step}
    (hcalls : AlignedRun s calls) (hlog : ∀ c ∈ calls, ¬c.1.OnNotes) :
    seen s calls = T.seen (calls.map Prod.fst) := by
  induction calls generalizing s T with
  | nil => rfl
  | cons c calls ih =>
      have htail := ih (h.step_call hcalls.1) (hnotes.perform (hlog c List.mem_cons_self)) hcalls.2
        fun c hmem => hlog c (List.mem_cons_of_mem _ hmem)
      simp only [seen, List.map_cons, LogTables.seen]
      rw [h.see hnotes hcalls.1, htail]

/-- Two aligned runs of the same log calls, whatever bytes they meet in memory, show the same callbacks
and counts and leave the same log, those of the table of address and time. -/
theorem aligned_runs_agree (calls calls' : List Step) (hops : calls.map Prod.fst = calls'.map Prod.fst)
    (hlog : ∀ c ∈ calls, ¬c.1.OnNotes) (haligned : AlignedRun .empty calls)
    (haligned' : AlignedRun .empty calls') :
    seen .empty calls = seen .empty calls' ∧
      logEntries (run .empty calls) = logEntries (run .empty calls') ∧
      seen .empty calls = LogTables.empty.seen (calls.map Prod.fst) ∧
      logEntries (run .empty calls) = (logAfter calls).entries := by
  have hlog' : ∀ c ∈ calls', ¬c.1.OnNotes := by
    intro c hc
    obtain ⟨c₁, hc₁, heq⟩ := List.mem_map.mp (hops ▸ List.mem_map_of_mem hc : c.1 ∈ calls.map Prod.fst)
    exact heq ▸ hlog c₁ hc₁
  have hseen := refines_empty.seen_calls noNotes_empty haligned hlog
  have hseen' := refines_empty.seen_calls noNotes_empty haligned' hlog'
  have hentries := (refines_empty.run_calls haligned).entries
  have hentries' := (refines_empty.run_calls haligned').entries
  refine ⟨?_, ?_, hseen, hentries.symm⟩
  · rw [hseen, hseen', hops]
  · rw [← hentries, ← hentries', hops]

/-- A call that finds `pad` in the alignment byte of its key. -/
def withPad (c : Step) (pad : UInt8) : Step := (c.1, { c.2 with pad := ⟨pad, c.2.pad.data⟩ })

/-- Two messages of one address in one second. -/
def twoPuts (pad pad' : UInt8) : List Step :=
  [withPad (.putLog sampleBuffer 100, filledMemory 0) pad, withPad (.putLog sampleBuffer 100, filledMemory 0) pad']

theorem aligned_runs_agree_sample : logEntries (run .empty (twoPuts 7 7)) = logEntries (run .empty (twoPuts 0 0)) :=
  (aligned_runs_agree (twoPuts 7 7) (twoPuts 0 0) rfl (by simp [twoPuts, withPad, Op.OnNotes])
    ((constPads_empty 7).run (by simp [twoPuts, withPad])).1
    ((constPads_empty 0).run (by simp [twoPuts, withPad])).1).2.1

/-- With two alignment bytes the two messages leave two entries, with one they leave one. -/
theorem padding_shows : ¬∀ calls : List (Step × UInt8 × UInt8), (∀ c ∈ calls, ¬c.1.1.OnNotes) →
    seen .empty (calls.map fun c => withPad c.1 c.2.1) = seen .empty (calls.map fun c => withPad c.1 c.2.2) ∧
      logEntries (run .empty (calls.map fun c => withPad c.1 c.2.1)) =
        logEntries (run .empty (calls.map fun c => withPad c.1 c.2.2)) := by
  intro h
  have hboth := h [((.putLog sampleBuffer 100, filledMemory 0), 0, 0),
    ((.putLog sampleBuffer 100, filledMemory 0), 1, 0)] (by simp [Op.OnNotes])
  exact absurd (congrArg List.length hboth.2) (by decide)

end Wacs
