import Wacs.LogExact
import Wacs.PagedListing

/-! What the listings show of the log table: the entries that the filters pick, filter by filter, and how it changes
while entries are only added. -/

namespace Wacs

open OrderBytes OrderedCursor

/-- A call that takes entries out of the log. -/
def Op.removesLog : Op → Bool
  | .rmLog .. => true
  | _ => false

namespace LogTables

theorem run_append (T : LogTables) (ops ops' : List Op) : T.run (ops ++ ops') = (T.run ops).run ops' :=
  List.foldl_append

/-- The entries of the log that the filters pick, in the order of the filters. -/
def selected (T : LogTables) (fs : List Filter) (start finish : Int) : List LogItem :=
  fs.flatMap fun f => (T.log.entries.filter (onKeys (readLogPicks f start finish))).map logItem

/-- An entry that some filter picks. -/
def Picked (fs : List Filter) (start finish : Int) (m : Mac) (t : UInt32) : Prop :=
  ∃ f ∈ fs, readLogPicks f start finish m t = true

theorem mem_selected {T : LogTables} {fs : List Filter} {start finish : Int} {item : LogItem} :
    item ∈ T.selected fs start finish ↔ ∃ d, item.data = some d ∧
      T.log.get (toLex (item.sa, item.dt)) = some d ∧ Picked fs start finish item.sa item.dt := by
  simp only [selected, List.mem_flatMap, List.mem_map, List.mem_filter, Picked]
  constructor
  · rintro ⟨f, hf, x, ⟨hx, hpicks⟩, rfl⟩
    exact ⟨x.2, rfl, (T.log.get_eq_some_iff x.1 x.2).mpr hx, f, hf, hpicks⟩
  · rintro ⟨d, hdata, hget, f, hf, hpicks⟩
    obtain ⟨sa, dt, data⟩ := item
    obtain rfl : data = some d := hdata
    exact ⟨f, hf, (toLex (sa, dt), d), ⟨(T.log.get_eq_some_iff _ _).mp hget, hpicks⟩, rfl⟩

/-! ### A log that grows -/

/-- A later table of the log has all its keys. -/
def Grows (T T' : LogTables) : Prop := ∀ k, (T.log.get k).isSome → (T'.log.get k).isSome

theorem grows_observe (T : LogTables) (m : Mac) (t : UInt32) (d : LogData) : T.Grows (T.observe m t d) :=
  fun _ h => OrderedMap.isSome_get_put h _ _

theorem grows_step {op : Op} (h : op.removesLog = false) (T : LogTables) : T.Grows (T.step op) := by
  cases op with
  | putLog buffer now =>
      unfold step
      dsimp only
      split_ifs
      · exact fun _ h => h
      · exact grows_observe T _ _ _
  | putLogEntries records =>
      unfold step
      dsimp only
      induction records generalizing T with
      | nil => exact fun _ h => h
      | cons record records ih => exact fun k hk => ih _ rfl k (grows_observe T _ _ _ k hk)
  | rmLog => cases h
  | readLog => exact fun _ h => h
  | putNotification => exact fun _ h => h
  | rmNotification => exact fun _ h => h

theorem grows_run {ops : List Op} (h : ∀ op ∈ ops, op.removesLog = false) (T : LogTables) : T.Grows (T.run ops) := by
  induction ops generalizing T with
  | nil => exact fun _ h => h
  | cons op ops ih =>
      intro k hk
      refine ih (fun op' hop' => h op' (List.mem_cons_of_mem _ hop')) (T.step op) k ?_
      exact grows_step (h op List.mem_cons_self) T k hk

/-- What is seen of an entry when its data may be written again. -/
def itemKey (item : LogItem) : Mac × UInt32 := (item.sa, item.dt)

/-- A log that grows puts new entries between the old ones. -/
theorem Grows.selected {T T' : LogTables} (h : T.Grows T') (fs : List Filter) (start finish : Int) :
    ((T.selected fs start finish).map itemKey).Sublist ((T'.selected fs start finish).map itemKey) := by
  have hkeys : ∀ (T : LogTables) (picks : Mac → UInt32 → Bool),
      ((T.log.entries.filter (onKeys picks)).map logItem).map itemKey =
        ((T.log.entries.map Prod.fst).filter fun k => picks (ofLex k).1 (ofLex k).2).map ofLex := by
    intro T picks
    rw [List.map_map, List.filter_map, List.map_map]
    rfl
  unfold LogTables.selected
  induction fs with
  | nil => exact List.Sublist.refl []
  | cons f fs ih =>
      rw [List.flatMap_cons, List.flatMap_cons, List.map_append, List.map_append, hkeys, hkeys]
      exact List.Sublist.append (((OrderedMap.keys_sublist h).filter _).map _) ih

end LogTables

/-- The scans come to the entries of the table, whatever memory they find beyond the keys. -/
theorem Refines.wholeAnswer {s : Store} {T : LogTables} (h : Refines s T) {pad : UInt8} (hpads : ConstPads s pad)
    {mac : List (Filter × Memory)} (hmac : ∀ x ∈ mac, x.2.pad.key = pad) (start finish : Int) :
    wholeAnswer .log start finish s mac = T.selected (mac.map Prod.fst) start finish := by
  have hscan : ∀ x ∈ mac, unpaged .log start finish s x =
      (T.log.entries.filter (onKeys (readLogPicks x.1 start finish))).map logItem := by
    intro x hx
    have hitems := readLog_items h x.2.slack x.1 start finish (fun _ => hmac x hx ▸ hpads _) takeAll ()
    exact hitems.trans (handed_of_never takeAll (fun _ _ => rfl) () _)
  unfold Wacs.wholeAnswer LogTables.selected
  rw [List.map_congr_left hscan, List.flatMap_def, List.map_map]
  rfl

end Wacs
