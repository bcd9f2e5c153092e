import Wacs.StoreRuns

/-! The notification table as a map from addresses to texts, and when the calls keep it one: a key of
`putNotification` ends in bytes that are never set, and only an equal key replaces or clears a record. -/

namespace Wacs

open OrderBytes OrderedCursor

/-- What a call means for the notification of an address. -/
def noteStep (m : Mac) (current : Option Text) : Op → Option Text
  | .putNotification sa value =>
      if sa = m then if h : value.length ≠ 0 then some ⟨value, h⟩ else none else current
  | .rmNotification p => if p.Matches m then none else current
  | _ => current

/-- The last text put for an address and not cleared since. -/
def noteOf (ops : List Op) (m : Mac) : Option Text := ops.foldl (noteStep m) none

theorem noteOf_concat (ops : List Op) (op : Op) (m : Mac) :
    noteOf (ops ++ [op]) m = noteStep m (noteOf ops m) op := by
  rw [noteOf, List.foldl_append]
  rfl

theorem noteStep_of_not_onNotes {op : Op} (h : ¬op.OnNotes) (m : Mac) (current : Option Text) :
    noteStep m current op = current := by
  cases op with
  | putNotification => exact absurd trivial h
  | rmNotification => exact absurd trivial h
  | putLog => rfl
  | putLogEntries => rfl
  | readLog => rfl
  | rmLog => rfl

/-! ### Notifications in the store -/

section Members

variable (s : Store) (mem : Memory) (m : Mac) (y : Stray) (v : Text)

theorem note_mem_put (sa : Mac) (value : Bytes) (hv : value.length ≠ 0) :
    (Record.note m y v).entry ∈ (perform s (.putNotification sa value, mem)).2.entries ↔
      (m = sa ∧ y = mem.stray ∧ v = ⟨value, hv⟩) ∨
        (Record.note m y v).entry ∈ s.entries ∧ ¬(m = sa ∧ y = mem.stray) := by
  rw [perform_store]
  simp only [edits, dif_pos hv]
  exact note_mem_note s sa m mem.stray y ⟨value, hv⟩ v

theorem note_mem_clear (sa : Mac) (value : Bytes) (hv : ¬value.length ≠ 0) :
    (Record.note m y v).entry ∈ (perform s (.putNotification sa value, mem)).2.entries ↔
      (Record.note m y v).entry ∈ s.entries ∧ ¬(m = sa ∧ y = mem.stray) := by
  have hkey : (Record.note m y v).key = noteKey sa mem.stray ↔ m = sa ∧ y = mem.stray := by
    rw [noteKey_eq sa mem.stray v, key_eq_iff]
    simp only [Record.tag, Record.sa, Record.rest, true_and, Subtype.ext_iff]
  rw [perform_store]
  simp only [edits, dif_neg hv]
  refine (mem_drop s _ _).trans (and_congr_right fun _ => ?_)
  rw [decide_eq_false_iff_not]
  exact not_congr hkey

theorem note_mem_rm (hwf : WellFormed s) (p : NotePrefix) :
    (Record.note m y v).entry ∈ (perform s (.rmNotification p, mem)).2.entries ↔
      (Record.note m y v).entry ∈ s.entries ∧ ¬p.Matches m := by
  rw [perform_store]
  simp only [edits]
  refine (mem_drop s _ _).trans (and_congr_right fun he => ?_)
  rw [decide_eq_false_iff_not, not_iff_not, mem_visited_keys he, rmNotification_visited hwf]
  simp [he]

end Members

/-- The notification of an address is in the store, under some key. -/
def HasNote (s : Store) (m : Mac) (v : Text) : Prop := ∃ y, (Record.note m y v).entry ∈ s.entries

/-- Whatever is last put and not cleared is in the store. -/
theorem hasNote_of_noteOf (calls : List Step) (m : Mac) (v : Text)
    (h : noteOf (calls.map Prod.fst) m = some v) : HasNote (run .empty calls) m v := by
  induction calls using List.reverseRecOn generalizing v with
  | nil => simp [noteOf] at h
  | append_singleton calls c ih =>
      rw [List.map_append, List.map_cons, List.map_nil, noteOf_concat] at h
      rw [run_concat]
      obtain ⟨op, mem⟩ := c
      by_cases hop : op.OnNotes
      · cases op with
        | putNotification sa value =>
            simp only [noteStep] at h
            split_ifs at h with hsa hv
            · subst hsa
              exact ⟨mem.stray, (note_mem_put _ mem sa _ v sa value hv).mpr
                (Or.inl ⟨rfl, rfl, (Option.some.inj h).symm⟩)⟩
            · obtain ⟨y, hy⟩ := ih v h
              by_cases hv : value.length ≠ 0
              · exact ⟨y, (note_mem_put _ mem m y v sa value hv).mpr (Or.inr ⟨hy, fun hm => hsa hm.1.symm⟩)⟩
              · exact ⟨y, (note_mem_clear _ mem m y v sa value hv).mpr ⟨hy, fun hm => hsa hm.1.symm⟩⟩
        | rmNotification p =>
            simp only [noteStep] at h
            split_ifs at h with hp
            obtain ⟨y, hy⟩ := ih v h
            exact ⟨y, (note_mem_rm _ mem m y v (run_wellFormed calls) p).mpr ⟨hy, hp⟩⟩
        | putLog => exact absurd hop id
        | putLogEntries => exact absurd hop id
        | readLog => exact absurd hop id
        | rmLog => exact absurd hop id
      · rw [noteStep_of_not_onNotes hop] at h
        obtain ⟨y, hy⟩ := ih v h
        exact ⟨y, (mem_perform_of_not_onNotes (c := (op, mem)) hop rfl).mpr hy⟩

/-! ### One record for each address -/

/-- The notifications in the store are the map of the calls: one record for each address that has a text,
and that text. -/
structure NotesExact (s : Store) (ops : List Op) : Prop where
  one : ∀ m y v y' v', (Record.note m y v).entry ∈ s.entries → (Record.note m y' v').entry ∈ s.entries → y = y'
  holds : ∀ m v, HasNote s m v ↔ noteOf ops m = some v

/-- The bytes after the key structure of a `putNotification` are those of the notification held for its
address. -/
def StrayAligned (s : Store) (c : Step) : Prop :=
  match c.1 with
  | .putNotification sa _ => ∀ y v, (Record.note sa y v).entry ∈ s.entries → y = c.2.stray
  | _ => True

theorem notesExact_empty : NotesExact .empty [] where
  one := fun _ _ _ _ _ h => absurd h (OrderedMap.mem_empty _)
  holds := fun _ _ => ⟨fun ⟨_, h⟩ => absurd h (OrderedMap.mem_empty _), fun h => by simp [noteOf] at h⟩

theorem NotesExact.other {s : Store} {ops : List Op} (h : NotesExact s ops) {c : Step} (hc : ¬c.1.OnNotes) :
    NotesExact (perform s c).2 (ops ++ [c.1]) where
  one := by
    intro m y v y' v' hmem hmem'
    rw [mem_perform_of_not_onNotes hc rfl] at hmem hmem'
    exact h.one m y v y' v' hmem hmem'
  holds := by
    intro m v
    rw [noteOf_concat, noteStep_of_not_onNotes hc, ← h.holds]
    exact exists_congr fun y => mem_perform_of_not_onNotes hc rfl

theorem NotesExact.rm {s : Store} {ops : List Op} (h : NotesExact s ops) (hwf : WellFormed s) (p : NotePrefix)
    (mem : Memory) : NotesExact (perform s (.rmNotification p, mem)).2 (ops ++ [.rmNotification p]) where
  one := by
    intro m y v y' v' hmem hmem'
    exact h.one m y v y' v' ((note_mem_rm s mem m y v hwf p).mp hmem).1 ((note_mem_rm s mem m y' v' hwf p).mp hmem').1
  holds := by
    intro m v
    have hmem := fun y => note_mem_rm s mem m y v hwf p
    rw [noteOf_concat]
    simp only [HasNote, hmem, noteStep, exists_and_right]
    split_ifs with hp
    · simp [hp]
    · rw [← h.holds]
      simp [hp, HasNote]

/-- Away from the record it is aligned with, a key is that of another address. -/
theorem StrayAligned.ne_iff {s : Store} {sa : Mac} {value : Bytes} {mem : Memory}
    (hc : StrayAligned s (.putNotification sa value, mem)) (m : Mac) (y : Stray) (v : Text) :
    (Record.note m y v).entry ∈ s.entries ∧ ¬(m = sa ∧ y = mem.stray) ↔
      (Record.note m y v).entry ∈ s.entries ∧ m ≠ sa := by
  refine and_congr_right fun hmem => not_congr ⟨fun h => h.1, ?_⟩
  rintro rfl
  exact ⟨rfl, hc y v hmem⟩

theorem NotesExact.put {s : Store} {ops : List Op} (h : NotesExact s ops) (sa : Mac) (value : Bytes) (mem : Memory)
    (hc : StrayAligned s (.putNotification sa value, mem)) :
    NotesExact (perform s (.putNotification sa value, mem)).2 (ops ++ [.putNotification sa value]) := by
  by_cases hv : value.length ≠ 0
  · have hmem := fun m y v => (note_mem_put s mem m y v sa value hv).trans (or_congr_right (hc.ne_iff m y v))
    refine ⟨fun m y v y' v' h₁ h₂ => ?_, fun m v => ?_⟩
    · rcases (hmem m y v).mp h₁ with ⟨hm, hy, -⟩ | ⟨h₁, hm⟩
      · rcases (hmem m y' v').mp h₂ with ⟨-, hy', -⟩ | ⟨-, hm'⟩
        · rw [hy, hy']
        · exact absurd hm hm'
      · rcases (hmem m y' v').mp h₂ with ⟨hm', -, -⟩ | ⟨h₂, -⟩
        · exact absurd hm' hm
        · exact h.one m y v y' v' h₁ h₂
    · rw [noteOf_concat]
      simp only [HasNote, hmem, noteStep, dif_pos hv]
      by_cases hm : m = sa
      · simp [hm, eq_comm]
      · rw [if_neg (Ne.symm hm), ← h.holds]
        simp [hm, HasNote]
  · have hmem := fun m y v => (note_mem_clear s mem m y v sa value hv).trans (hc.ne_iff m y v)
    refine ⟨fun m y v y' v' h₁ h₂ => ?_, fun m v => ?_⟩
    · exact h.one m y v y' v' ((hmem m y v).mp h₁).1 ((hmem m y' v').mp h₂).1
    · rw [noteOf_concat]
      simp only [HasNote, hmem, noteStep, dif_neg hv, exists_and_right]
      by_cases hm : m = sa
      · simp [hm]
      · rw [if_neg (Ne.symm hm), ← h.holds]
        simp [hm, HasNote]

/-- A call keeps the notifications a map exactly when it is aligned. -/
theorem NotesExact.step_iff {s : Store} {ops : List Op} (h : NotesExact s ops) (hwf : WellFormed s) (c : Step) :
    NotesExact (perform s c).2 (ops ++ [c.1]) ↔ StrayAligned s c := by
  obtain ⟨op, mem⟩ := c
  cases op with
  | putLog => exact iff_of_true (h.other id) trivial
  | putLogEntries => exact iff_of_true (h.other id) trivial
  | readLog => exact iff_of_true (h.other id) trivial
  | rmLog => exact iff_of_true (h.other id) trivial
  | rmNotification p => exact iff_of_true (h.rm hwf p mem) trivial
  | putNotification sa value =>
      refine ⟨fun hnew y v hmem => ?_, h.put sa value mem⟩
      by_contra hy
      have hne : ¬(sa = sa ∧ y = mem.stray) := fun h => hy h.2
      by_cases hv : value.length ≠ 0
      · -- the old record stays beside the new one
        have hold := (note_mem_put s mem sa y v sa value hv).mpr (Or.inr ⟨hmem, hne⟩)
        have hput := (note_mem_put s mem sa mem.stray ⟨value, hv⟩ sa value hv).mpr (Or.inl ⟨rfl, rfl, rfl⟩)
        exact hy (hnew.one sa y v mem.stray _ hold hput)
      · -- the old record is not cleared
        have hold := (note_mem_clear s mem sa y v sa value hv).mpr ⟨hmem, hne⟩
        have hnone := (hnew.holds sa v).mp ⟨y, hold⟩
        rw [noteOf_concat] at hnone
        simp [noteStep, hv] at hnone

/-! ### What `lsNotification` lists -/

/-- Each address is listed once at most, and with the text last put for it and not cleared since. -/
def ListsNotes (items : List (Mac × Bytes)) (ops : List Op) : Prop :=
  (items.map Prod.fst).Nodup ∧ ∀ m v, (m, v) ∈ items ↔ ∃ text, noteOf ops m = some text ∧ text.val = v

/-- The address and text of each notification entry. -/
def noteItems (s : Store) : List (Mac × Bytes) :=
  (s.entries.filter (onNotes fun _ => true)).map fun e => (entrySa e, e.2)

theorem mem_noteItems {s : Store} (hwf : WellFormed s) (m : Mac) (v : Bytes) :
    (m, v) ∈ noteItems s ↔ ∃ text, HasNote s m text ∧ text.val = v := by
  rw [noteItems, List.mem_map]
  constructor
  · rintro ⟨e, he, heq⟩
    obtain ⟨m', y, text, rfl, hmem, -⟩ := note_of_onNotes hwf he
    obtain ⟨hsa, rfl⟩ := Prod.mk.inj heq
    rw [entrySa_entry] at hsa
    exact ⟨text, ⟨y, hsa ▸ hmem⟩, rfl⟩
  · rintro ⟨text, ⟨y, hmem⟩, rfl⟩
    exact ⟨_, List.mem_filter.mpr ⟨hmem, onNotes_note _ m y text⟩, Prod.ext (entrySa_entry _) rfl⟩

/-- No address is listed twice when its records agree in the bytes after the key structure. -/
theorem noteItems_nodup_iff {s : Store} (hwf : WellFormed s) : ((noteItems s).map Prod.fst).Nodup ↔
    ∀ m y v y' v', (Record.note m y v).entry ∈ s.entries → (Record.note m y' v').entry ∈ s.entries → y = y' := by
  have hnodup : (s.entries.filter (onNotes fun _ => true)).Nodup := s.keys_nodup.of_map.filter _
  rw [noteItems, List.map_map, List.nodup_map_iff_inj_on hnodup]
  constructor
  · intro hinj m y v y' v' hmem hmem'
    have heq := hinj _ (List.mem_filter.mpr ⟨hmem, onNotes_note _ m y v⟩) _
      (List.mem_filter.mpr ⟨hmem', onNotes_note _ m y' v'⟩) (by simp [Record.sa])
    exact (note_entry_inj.mp heq).2.1
  · intro hone e he e' he' hsa
    obtain ⟨m, y, v, rfl, hmem, -⟩ := note_of_onNotes hwf he
    obtain ⟨m', y', v', rfl, hmem', -⟩ := note_of_onNotes hwf he'
    simp only [Function.comp_apply, entrySa_entry, Record.sa] at hsa
    subst hsa
    obtain rfl := hone m y v y' v' hmem hmem'
    exact Prod.ext rfl (s.key_inj hmem hmem')

theorem noteItems_eq {s : Store} (hwf : WellFormed s) (slack : Slack) :
    (s.entries.filter (onNotes fun _ => true)).map (lsNotificationItem slack) = noteItems s := by
  refine List.map_congr_left fun e he => ?_
  obtain ⟨r, rfl⟩ := hwf e (List.mem_filter.mp he).1
  rw [lsNotificationItem, keySa_slack, entrySa_entry]

/-- The entries list the map exactly when the records are the map. -/
theorem listsNotes_iff {s : Store} (hwf : WellFormed s) (ops : List Op) :
    ListsNotes (noteItems s) ops ↔ NotesExact s ops := by
  have hexact : (∀ m v, (m, v) ∈ noteItems s ↔ ∃ text, noteOf ops m = some text ∧ text.val = v) ↔
      ∀ m v, HasNote s m v ↔ noteOf ops m = some v := by
    constructor
    · intro h m v
      have hval := (mem_noteItems hwf m v.val).symm.trans (h m v.val)
      simpa only [Subtype.val_inj, exists_eq_right] using hval
    · exact fun h m v => (mem_noteItems hwf m v).trans (exists_congr fun text => by rw [h])
  rw [ListsNotes, noteItems_nodup_iff hwf, hexact]
  exact ⟨fun h => ⟨h.1, h.2⟩, fun h => ⟨h.one, h.holds⟩⟩

/-- What `lsNotification` hands to a callback that never stops, after a sequence of calls. -/
def listedNotes {σ : Type} (slack : Slack) (onNotification : σ → Mac × Bytes → σ × Bool) (env : σ)
    (calls : List Step) : List (Mac × Bytes) :=
  handedItems (quietly (lsNotification slack (some onNotification) env) (run .empty calls)).1

/-- The list is the map all along a run exactly when every `putNotification` of the run finds, after its
key structure, the bytes of the notification held for its address. -/
theorem lsNotification_exact_iff {σ : Type} (slack : Slack) (onNotification : σ → Mac × Bytes → σ × Bool)
    (hnever : ∀ env i, (onNotification env i).2 = false) (env : σ) (calls : List Step) :
    (∀ n, ListsNotes (listedNotes slack onNotification env (calls.take n)) ((calls.take n).map Prod.fst)) ↔
      EachCall StrayAligned .empty calls := by
  have hexact : ∀ calls : List Step,
      ListsNotes (listedNotes slack onNotification env calls) (calls.map Prod.fst) ↔
        NotesExact (run .empty calls) (calls.map Prod.fst) := by
    intro calls
    have hwf := run_wellFormed calls
    rw [listedNotes, lsNotification_quiet, handed_of_never onNotification hnever, lsNotification_visited hwf,
      noteItems_eq hwf]
    exact listsNotes_iff hwf _
  simp only [hexact]
  refine forall_prefix_iff (P := fun calls => NotesExact (run .empty calls) (calls.map Prod.fst))
    notesExact_empty (fun calls c h => ?_) calls
  rw [List.map_append, run_concat]
  exact h.step_iff (run_wellFormed calls) c

/-- A callback that takes every notification. -/
def takeNotes : Unit → Mac × Bytes → Unit × Bool := fun _ _ => ((), false)

/-- A text put, then cleared, with the bytes after the key structure given for each call. -/
def putThenClear (y y' : UInt8) : List Step :=
  [(.putNotification sampleMac sampleText, filledMemory y), (.putNotification sampleMac [], filledMemory y')]

theorem lsNotification_exact_sample :
    ListsNotes (listedNotes (fun _ _ => 0) takeNotes () (putThenClear 0 0)) ((putThenClear 0 0).map Prod.fst) :=
  (lsNotification_exact_iff (fun _ _ => 0) takeNotes (fun _ _ => rfl) () (putThenClear 0 0)).mpr
    ⟨fun y v h => absurd h (OrderedMap.mem_empty _), fun y v h => by
      rcases (note_mem_put _ _ _ y v sampleMac sampleText (by decide)).mp h with ⟨-, hy, -⟩ | ⟨h, -⟩
      · exact hy
      · exact absurd h (OrderedMap.mem_empty _), trivial⟩ 2

/-- A text that has been cleared is listed. -/
theorem lsNotification_lists_cleared : ¬∀ calls : List Step,
    ListsNotes (listedNotes (fun _ _ => 0) takeNotes () calls) (calls.map Prod.fst) := by
  intro h
  have hlisted := ((h (putThenClear 0 1)).2 sampleMac sampleText).mp (by decide)
  obtain ⟨text, hnote, -⟩ := hlisted
  have hnone : noteOf ((putThenClear 0 1).map Prod.fst) sampleMac = none := by decide
  exact absurd (hnone.symm.trans hnote) (by simp)

end Wacs
