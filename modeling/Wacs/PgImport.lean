import Wacs.DumpLoad
import Wacs.PgReadLog

/-! `putLogEntries` over the two engines. The LMDB store gets the time of each record, the PostgreSQL table the
time of its insertion, so the two logs are the same when the clock reads, in some order, the times of the
records. -/

namespace Wacs

open OracleM

/-- What is stored of a record with a time. -/
def stamped (record : LogRecord) (dt : Int) : LocRecord :=
  ⟨record.sa, dt, record.deviceId.toNat, record.ssiSignal.toInt⟩

/-- A log record of the LMDB store in the terms of the table. -/
def observed (m : Mac) (t : UInt32) (d : LogData) : LocRecord := stamped ⟨m, t, d.deviceId, d.ssiSignal⟩ t.toNat

/-- Both imports return the number of records, with no `int` run over, and the rows of the table are what the log of
the store has. Each record comes with the clock at its insertion. -/
structure SameImport (clocked : List (LogRecord × Int)) (pad : Padding) : Prop where
  int : int32 clocked.length = clocked.length
  count : (quietly (putLogEntries (clocked.map Prod.fst) pad) .empty).1 = clocked.length
  pgCount : ((Pg.putLogEntries clocked).run served (.fresh [])).1 = clocked.length
  rows : ∀ row, row ∈ ((Pg.putLogEntries clocked).run served (.fresh [])).2.loc ↔
    ∃ m t d, HasLog (quietly (putLogEntries (clocked.map Prod.fst) pad) .empty).2 m t d ∧ row = (observed m t d).row

theorem LocRecord.row_injective : Function.Injective LocRecord.row := by
  intro r r' h
  obtain ⟨hsa, hdt, hdev, hssi⟩ := LocRow.mk.inj h
  exact LocRecord.ext (Subtype.ext (macText_inj (r.sa.property.trans r'.sa.property.symm) hsa)) hdt hdev hssi

/-! ### The table -/

theorem putRecords_served (c : Nat) (clocked : List (LogRecord × Int)) {s : PgConn} {rows : List LocRow}
    (hs : s.pending = some rows) : ∃ s', (Pg.putRecords c clocked).run served s = (some (c + clocked.length), s') ∧
      s'.pending = some (rows ++ clocked.map fun x => (stamped x.1 x.2).row) := by
  induction clocked generalizing c s rows with
  | nil => exact ⟨s, rfl, by rw [hs, List.map_nil, List.append_nil]⟩
  | cons x clocked ih =>
      obtain ⟨record, now⟩ := x
      have hinsert : (pqExec c (.insert (stamped record now).row)).run served s =
          (⟨PGRES_COMMAND_OK, []⟩, (s.execute (.insert (stamped record now).row)).2.note .used) := rfl
      have hpending : ((s.execute (.insert (stamped record now).row)).2.note .used).pending =
          some (rows ++ [(stamped record now).row]) := by
        simp [PgConn.execute, PgConn.note, hs]
      obtain ⟨s', hrun, hrows⟩ := ih (c + 1) hpending
      refine ⟨s', ?_, ?_⟩
      · rw [Pg.putRecords]
        refine (run_bind_of _ _ _ _ hinsert).trans ?_
        rw [if_neg (not_not_intro rfl), hrun, List.length_cons, Nat.add_assoc, Nat.add_comm 1]
      · rw [hrows, List.append_assoc]
        rfl

theorem putLogEntries_served (clocked : List (LogRecord × Int)) :
    ((Pg.putLogEntries clocked).run served (.fresh [])).1 = clocked.length ∧
      ((Pg.putLogEntries clocked).run served (.fresh [])).2.loc = clocked.map fun x => (stamped x.1 x.2).row := by
  have hstart : (pqExec 0 .start).run served (.fresh []) =
      (⟨PGRES_COMMAND_OK, []⟩, ⟨[], some [], 1, [.begun 1, .used 1]⟩) := rfl
  obtain ⟨s', hrun, hrows⟩ := putRecords_served 0 clocked
    (s := ⟨[], some [], 1, [.begun 1, .used 1]⟩) rfl
  have hcommit : (pqExec 0 .commit).run served s' =
      (⟨PGRES_COMMAND_OK, []⟩, { s' with loc := s'.view, pending := none }.note .used) := rfl
  rw [Pg.putLogEntries, run_bind_of _ _ _ _ hstart, if_neg (not_not_intro rfl), run_bind_of _ _ _ _ hrun]
  simp only [Nat.zero_add]
  rw [run_bind_of _ _ _ _ hcommit, if_neg (not_not_intro rfl)]
  refine ⟨rfl, ?_⟩
  show s'.pending.getD s'.loc = _
  rw [hrows]
  rfl

/-! ### The store -/

theorem hasLog_putLogEntries {records : List LogRecord} (hdistinct : (records.map fun r => (r.sa, r.dt)).Nodup)
    (pad : Padding) (m : Mac) (t : UInt32) (d : LogData) :
    HasLog (quietly (putLogEntries records pad) .empty).2 m t d ↔
      ∃ r ∈ records, r.sa = m ∧ r.dt = t ∧ (⟨r.deviceId, r.ssiSignal⟩ : LogData) = d := by
  have hkeys : ((records.map fun r => (toLex (r.sa, r.dt), (⟨r.deviceId, r.ssiSignal⟩ : LogData))).map
      Prod.fst).Nodup := by
    rw [List.map_map]
    exact hdistinct
  rw [← (refines_putLogEntries records pad).log, step_putLogEntries_log, OrderedMap.get_putAll_empty_iff _ hkeys,
    List.mem_map]
  refine exists_congr fun r => and_congr_right fun _ => ?_
  rw [Prod.mk.injEq, toLex_inj, Prod.mk.injEq, and_assoc]

/-- What the table would have to hold. -/
theorem mem_observed_iff {records : List LogRecord} (hdistinct : (records.map fun r => (r.sa, r.dt)).Nodup)
    (pad : Padding) (row : LocRow) :
    (∃ m t d, HasLog (quietly (putLogEntries records pad) .empty).2 m t d ∧ row = (observed m t d).row) ↔
      row ∈ records.map fun r => (stamped r r.dt.toNat).row := by
  rw [List.mem_map]
  refine ⟨fun ⟨m, t, d, hlog, hrow⟩ => ?_, fun ⟨r, hr, hrow⟩ => ?_⟩
  · obtain ⟨r, hr, rfl, rfl, rfl⟩ := (hasLog_putLogEntries hdistinct pad m t d).mp hlog
    exact ⟨r, hr, hrow.symm⟩
  · exact ⟨r.sa, r.dt, ⟨r.deviceId, r.ssiSignal⟩,
      (hasLog_putLogEntries hdistinct pad _ _ _).mpr ⟨r, hr, rfl, rfl, rfl⟩, hrow.symm⟩

/-! ### Both -/

section Agree

variable {clocked : List (LogRecord × Int)} (hdistinct : (clocked.map fun x => (x.1.sa, x.1.dt)).Nodup)
include hdistinct

/-- The imports agree when the records stamped by the clock and the records as they were given are the same, and no
more than an `int` counts. -/
theorem sameImport_iff_mem (pad : Padding) : SameImport clocked pad ↔ clocked.length < 2 ^ 31 ∧
    ∀ r, r ∈ clocked.map (fun x => stamped x.1 x.2) ↔ r ∈ clocked.map fun x => stamped x.1 x.1.dt.toNat := by
  have hrecords : ((clocked.map Prod.fst).map fun r => (r.sa, r.dt)).Nodup := by
    rw [List.map_map]
    exact hdistinct
  have hreturns : (quietly (putLogEntries (clocked.map Prod.fst) pad) .empty).1 = clocked.length := by
    rw [putLogEntries_quiet, List.length_map]
  have hmap : (clocked.map Prod.fst).map (fun r => (stamped r r.dt.toNat).row) =
      (clocked.map fun x => stamped x.1 x.1.dt.toNat).map LocRecord.row := by
    rw [List.map_map, List.map_map]
    rfl
  obtain ⟨hcount, hloc⟩ := putLogEntries_served clocked
  have hrows : (∀ row, row ∈ ((Pg.putLogEntries clocked).run served (.fresh [])).2.loc ↔ ∃ m t d,
      HasLog (quietly (putLogEntries (clocked.map Prod.fst) pad) .empty).2 m t d ∧ row = (observed m t d).row) ↔
        ∀ row, row ∈ (clocked.map fun x => stamped x.1 x.2).map LocRecord.row ↔
          row ∈ (clocked.map fun x => stamped x.1 x.1.dt.toNat).map LocRecord.row := by
    simp only [mem_observed_iff hrecords, hloc, hmap, List.map_map]
    rfl
  constructor
  · intro h
    refine ⟨(int32_natCast_iff _).mp h.int, fun r => ?_⟩
    rw [← List.mem_map_of_injective LocRecord.row_injective, hrows.mp h.rows,
      List.mem_map_of_injective LocRecord.row_injective]
  · rintro ⟨hlt, h⟩
    refine ⟨(int32_natCast_iff _).mpr hlt, hreturns, hcount, hrows.mpr fun row => ?_⟩
    simp only [List.mem_map (f := LocRecord.row), h]

/-- Records of one address and time each stay apart with their own times. -/
theorem ownTimes_nodup : (clocked.map fun x => stamped x.1 x.1.dt.toNat).Nodup := by
  apply List.Nodup.of_map fun r => (r.sa, r.dt)
  have hkey : Function.Injective fun k : Mac × UInt32 => (k.1, (k.2.toNat : Int)) := by
    intro k k' hk
    obtain ⟨hsa, hdt⟩ := Prod.mk.inj hk
    exact Prod.ext hsa (UInt32.toNat_inj.mp (Int.ofNat.inj hdt))
  have hmapped := hdistinct.map hkey
  rw [List.map_map] at hmapped ⊢
  exact hmapped

end Agree

/-- Records of one address and time each come out of both imports alike exactly when, up to their order, the
records stamped by the clock are the records as they were given, and an `int` counts them. -/
theorem imports_agree_iff (clocked : List (LogRecord × Int))
    (hdistinct : (clocked.map fun x => (x.1.sa, x.1.dt)).Nodup) (pad : Padding) :
    SameImport clocked pad ↔ clocked.length < 2 ^ 31 ∧
      (clocked.map fun x => stamped x.1 x.2).Perm (clocked.map fun x => stamped x.1 x.1.dt.toNat) := by
  rw [sameImport_iff_mem hdistinct]
  refine and_congr_right fun _ => ⟨fun h => ?_, fun h r => h.mem_iff⟩
  have hlen : (clocked.map fun x => stamped x.1 x.2).length ≤
      (clocked.map fun x => stamped x.1 x.1.dt.toNat).length := by
    rw [List.length_map, List.length_map]
  exact (((ownTimes_nodup hdistinct).subperm fun r hr => (h r).mpr hr).perm_of_length_le hlen).symm

/-- Two records of one address, each imported at the time of the other, and one of another address imported at its
own. -/
def crossedImport : List (LogRecord × Int) :=
  [(⟨sampleMac, 100, 1, -50⟩, 200), (⟨sampleMac', 150, 2, 20⟩, 150), (⟨sampleMac, 200, 1, -50⟩, 100)]

theorem imports_agree_sample : SameImport crossedImport ⟨0, 0⟩ :=
  (imports_agree_iff crossedImport (by decide) ⟨0, 0⟩).mpr ⟨by decide, by decide⟩

/-- A record of time 50 imported at time 100. -/
theorem imports_differ : ¬∀ (clocked : List (LogRecord × Int)) (pad : Padding),
    (clocked.map fun x => (x.1.sa, x.1.dt)).Nodup → SameImport clocked pad := by
  intro h
  have hsame := h [(⟨sampleMac, 50, 1, -50⟩, 100)] ⟨0, 0⟩ (List.nodup_singleton _)
  obtain ⟨m, t, d, hlog, hrow⟩ := (hsame.rows (stamped ⟨sampleMac, 50, 1, -50⟩ 100).row).mp (by decide)
  have hdistinct : ([(⟨sampleMac, 50, 1, -50⟩ : LogRecord)].map fun r => (r.sa, r.dt)).Nodup := List.nodup_singleton _
  obtain ⟨r, hr, -, rfl, -⟩ := (hasLog_putLogEntries hdistinct ⟨0, 0⟩ m t d).mp hlog
  obtain rfl := List.mem_singleton.mp hr
  exact absurd (congrArg LocRow.dt hrow) (show (100 : Int) ≠ 50 by decide)

end Wacs
