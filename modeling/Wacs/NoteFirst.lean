import Wacs.NoteTable

/-! `getNotification` takes the text of the first record of the store. -/

namespace Wacs

/-- A text found is the one expected, and taken from a notification of the address. -/
def GivesNote (found : Found) (m : Mac) (expected : Option Text) : Prop :=
  found.map Prod.snd = expected.map Subtype.val ∧
    ∀ e, found = some e → entryTag e = tagT ∧ entrySa e = m

/-- No record has an empty value. -/
theorem value_length_ne_zero (r : Record) : r.value.length ≠ 0 := by
  cases r with
  | log sa pad dt data tail =>
      rw [log_value_length]
      decide
  | probe sa dt =>
      rw [probe_value_length]
      decide
  | note sa stray text => exact text.property

theorem note_of_tag {r : Record} (h : r.tag = tagT) : ∃ m stray text, r = .note m stray text := by
  cases r with
  | log => exact absurd h.symm tagT_ne_tagL
  | probe => exact absurd h.symm tagT_ne_tagP
  | note m stray text => exact ⟨m, stray, text, rfl⟩

theorem getNotification_nil (useLmdb : Bool) (m : Mac) {s : Store} (h : s.entries = []) :
    (quietly (getNotification useLmdb m) s).1.2 = none := by
  rw [getNotification_quiet, h]
  rfl

theorem getNotification_cons (useLmdb : Bool) (m : Mac) {s : Store} (hwf : WellFormed s) {e : Bytes × Bytes}
    {es : List (Bytes × Bytes)} (h : s.entries = e :: es) :
    (quietly (getNotification useLmdb m) s).1.2 = some e := by
  obtain ⟨r, rfl⟩ := hwf e (h ▸ List.mem_cons_self)
  rw [getNotification_quiet, h, List.head?_cons, Option.filter_some, if_pos]
  exact decide_eq_true (value_length_ne_zero r)

/-- `getNotification` gives the last text put for an address and not cleared since exactly when the store
is empty, or its first record is the address's notification and holds that text. -/
theorem getNotification_exact_iff (useLmdb : Bool) (calls : List Step) (m : Mac) :
    GivesNote (quietly (getNotification useLmdb m) (run .empty calls)).1.2 m (noteOf (calls.map Prod.fst) m) ↔
      (run .empty calls).entries = [] ∨
        ∃ stray text, (run .empty calls).entries.head? = some (Record.note m stray text).entry ∧
          noteOf (calls.map Prod.fst) m = some text := by
  have hwf := run_wellFormed calls
  cases hes : (run .empty calls).entries with
  | nil =>
      refine iff_of_true ?_ (Or.inl rfl)
      have hnone : noteOf (calls.map Prod.fst) m = none := by
        by_contra hsome
        obtain ⟨v, hv⟩ := Option.ne_none_iff_exists'.mp hsome
        obtain ⟨y, hy⟩ := hasNote_of_noteOf calls m v hv
        rw [hes] at hy
        exact List.not_mem_nil hy
      rw [getNotification_nil useLmdb m hes, hnone]
      exact ⟨rfl, fun e he => by cases he⟩
  | cons e es =>
      rw [getNotification_cons useLmdb m hwf hes]
      simp only [reduceCtorEq, false_or, List.head?_cons, Option.some.injEq]
      constructor
      · rintro ⟨htext, hkey⟩
        obtain ⟨htag, hsa⟩ := hkey e rfl
        obtain ⟨r, rfl⟩ := hwf e (hes ▸ List.mem_cons_self)
        obtain ⟨m', stray, text, rfl⟩ := note_of_tag htag
        obtain rfl : m' = m := (entrySa_entry _).symm.trans hsa
        obtain ⟨text', htext', hval⟩ := Option.map_eq_some_iff.mp htext.symm
        have heq : text' = text := Subtype.ext hval
        exact ⟨stray, text, rfl, heq ▸ htext'⟩
      · rintro ⟨stray, text, rfl, htext⟩
        rw [htext]
        refine ⟨rfl, fun e he => ?_⟩
        obtain rfl := Option.some.inj he
        exact ⟨rfl, entrySa_entry _⟩

/-- The text given for an address without notifications is the data of a log record. -/
theorem getNotification_gives_log : ¬∀ (useLmdb : Bool) (calls : List Step) (m : Mac),
    GivesNote (quietly (getNotification useLmdb m) (run .empty calls)).1.2 m (noteOf (calls.map Prod.fst) m) := by
  intro h
  have htext := (h true [(.putLog sampleBuffer 100, filledMemory 0)] sampleMac).1
  exact absurd htext (by decide)

end Wacs
