import Wacs.CollectorRuns
import Wacs.PgImport

/-! The two collectors side by side, receiving the same. The table of the PostgreSQL server gets a row for each
message, and the LMDB store keeps of these rows, read as `readLog` over PostgreSQL reads them, the last one of each
address and second. -/

namespace Wacs

open OracleM OrderedCursor TextNumeral TextScan

/-- The row that stores a message. -/
def bufferRow (buffer : Bytes) (now : Int) : LocRow :=
  let entry := ntohLogEntry (LogEntry.ofBytes buffer)
  ⟨mactostr entry.sa, now, entry.deviceId.toNat, entry.ssiSignal.toInt⟩

def Received.row : Received → Option LocRow
  | .message buffer now => if buffer.length < sizeofLogEntry then none else some (bufferRow buffer now)
  | .interrupted => none
  | .timedOut => none
  | .failed => none

/-- The rows of the messages that the loop gets to. -/
def messageRows (received : List Received) : List LocRow := (processed received).filterMap Received.row

/-- What a row is in the log, and what it says of its address. -/
def rowCell (row : LocRow) : (Mac ×ₗ UInt32) × LogData :=
  (toLex ((locItem row).sa, time32 (locItem row).dt), (locItem row).data)

def rowProbe (row : LocRow) : Mac × UInt32 := ((locItem row).sa, time32 (locItem row).dt)

/-- The store has the last row of each address and second, and the time of the last row of each address. -/
structure Condenses (s : Store) (loc : List LocRow) : Prop where
  log : ∀ m t d, HasLog s m t d ↔ OrderedMap.lastWrite (loc.map rowCell) (toLex (m, t)) = some d
  last : ∀ m t, (Record.probe m t).entry ∈ s.entries ↔ OrderedMap.lastWrite (loc.map rowProbe) m = some t

/-- The tables that rows come to. -/
def LogTables.ofRows (loc : List LocRow) : LogTables :=
  ⟨OrderedMap.empty.putAll (loc.map rowCell), OrderedMap.empty.putAll (loc.map rowProbe)⟩

theorem condenses_of_refines {s : Store} {loc : List LocRow} (h : Refines s (.ofRows loc)) : Condenses s loc where
  log m t d := by
    rw [← h.log, LogTables.ofRows, OrderedMap.get_putAll, OrderedMap.get_empty, Option.or_none]
  last m t := by
    rw [← h.last, LogTables.ofRows, OrderedMap.get_putAll, OrderedMap.get_empty, Option.or_none]

theorem ofRows_concat (loc : List LocRow) (row : LocRow) : LogTables.ofRows (loc ++ [row]) =
    (LogTables.ofRows loc).observe (locItem row).sa (time32 (locItem row).dt) (locItem row).data := by
  rw [LogTables.ofRows, List.map_append, List.map_append, OrderedMap.putAll_append, OrderedMap.putAll_append]
  rfl

/-- The clock is in range of `strtol`. -/
def ClockFits (now : Int) : Prop := -2 ^ 63 ≤ now ∧ now < 2 ^ 63

/-- The row of a message is read back with the values the LMDB store takes from the message. -/
theorem locItem_bufferRow (buffer : Bytes) {now : Int} (hnow : ClockFits now) : locItem (bufferRow buffer now) =
    ⟨(ntohLogEntry (LogEntry.ofBytes buffer)).sa, now, bufferData buffer⟩ := by
  generalize hentry : ntohLogEntry (LogEntry.ofBytes buffer) = entry
  have hsa : (strtomacaddress (mactostr entry.sa)).2 = entry.sa := by rw [strtomacaddress_mactostr]
  have hdev : strtol10 (decimal entry.deviceId.toNat) = entry.deviceId.toNat := by
    have := entry.deviceId.toNat_lt
    exact strtol10_decimal (by omega) (by omega)
  have hssi : strtol10 (decimal entry.ssiSignal.toInt) = entry.ssiSignal.toInt := by
    have := entry.ssiSignal.le_toInt
    have := entry.ssiSignal.toInt_lt
    exact strtol10_decimal (by omega) (by omega)
  have hdev16 : UInt16.ofNat ((entry.deviceId.toNat : Int) % 2 ^ 16).toNat = entry.deviceId := by
    have := entry.deviceId.toNat_lt
    have hmod : ((entry.deviceId.toNat : Int) % 2 ^ 16).toNat = entry.deviceId.toNat := by omega
    rw [hmod, UInt16.ofNat_toNat]
  rw [bufferRow, bufferData, hentry, locItem]
  simp only [pqGetvalue, hsa, strtol10_decimal hnow.1 hnow.2, hdev, hssi, hdev16, Int8.ofInt_int16ToInt]

/-! ### The table -/

section Table

variable (a : Nat × PgCall → Int)

/-- A connection with so many more rows in its table, between transactions. -/
def Inserted (s s' : PgConn) (rows : List LocRow) : Prop := s'.loc = s.loc ++ rows ∧ s'.pending = none

theorem Inserted.trans {s s' s'' : PgConn} {rows rows' : List LocRow} (h : Inserted s s' rows)
    (h' : Inserted s' s'' rows') : Inserted s s'' (rows ++ rows') :=
  ⟨by rw [h'.1, h.1, List.append_assoc], h'.2⟩

/-- A statement that succeeds passes its check. -/
theorem exec_check_passes {turn : Nat} (st : Statement) (h : a (turn, st.call) = PGRES_COMMAND_OK)
    (hst : st.success = PGRES_COMMAND_OK) (k : PGresult → PgM Int) (s : PgConn) :
    (pqExec turn st >>= fun res => if res.status ≠ PGRES_COMMAND_OK then Pg.checkStmtFails else k res).run a s =
      (k ⟨PGRES_COMMAND_OK, (s.execute st).1⟩).run a ((s.execute st).2.note .used) := by
  have hexec : (pqExec turn st).run a s = if a (turn, st.call) = st.success
      then (⟨a (turn, st.call), (s.execute st).1⟩, (s.execute st).2.note .used)
      else (⟨a (turn, st.call), []⟩, s.note .used) := rfl
  rw [h, hst, if_pos rfl] at hexec
  rw [run_bind_of _ _ _ _ hexec]
  exact congrArg (fun x : PgM Int => x.run a _) (if_neg (not_not_intro rfl))

/-- A message whose statements succeed has its row in the table. -/
theorem putLog_inserted (turn : Nat) (buffer : Bytes) (now : Int) {s : PgConn} (hs : s.pending = none)
    (hstored : sizeofLogEntry ≤ buffer.length → Stored a turn) :
    Inserted s ((Pg.putLog turn buffer now).run a s).2 (Received.message buffer now).row.toList := by
  rw [Pg.putLog, Received.row]
  by_cases hlen : buffer.length < sizeofLogEntry
  · rw [if_pos hlen, if_pos hlen]
    exact ⟨(List.append_nil _).symm, hs⟩
  · obtain ⟨hstart, hinsert, hcommit⟩ := hstored (not_lt.mp hlen)
    rw [if_neg hlen, if_neg hlen]
    rw [exec_check_passes a .start hstart rfl, exec_check_passes a (.insert _) hinsert rfl,
      exec_check_passes a .commit hcommit rfl]
    refine ⟨?_, rfl⟩
    show s.view ++ [bufferRow buffer now] = s.loc ++ [bufferRow buffer now]
    rw [PgConn.view, hs, Option.getD_none]

theorem processed_cons {r : Received} (hr : r ≠ .interrupted) (received : List Received) :
    processed (r :: received) = r :: processed received := by
  cases r with
  | interrupted => exact absurd rfl hr
  | message => rfl
  | timedOut => rfl
  | failed => rfl

theorem messageRows_cons {r : Received} (hr : r ≠ .interrupted) (received : List Received) :
    messageRows (r :: received) = r.row.toList ++ messageRows received := by
  rw [messageRows, processed_cons hr]
  cases hrow : r.row with
  | none => rw [List.filterMap_cons_none hrow, Option.toList_none, List.nil_append, messageRows]
  | some row => rw [List.filterMap_cons_some hrow, Option.toList_some, List.singleton_append, messageRows]

theorem collect_inserted {turn : Nat} {received : List Received} (hstored : AllStored a turn received) {s : PgConn}
    (hs : s.pending = none) : Inserted s ((Pg.collect turn received).run a s).2 (messageRows received) := by
  induction received generalizing turn s with
  | nil => exact ⟨(List.append_nil _).symm, hs⟩
  | cons r received ih =>
      cases r with
      | message buffer now =>
          rw [allStored_cons_iff a turn (.message buffer now) (by simp)] at hstored
          have hput := putLog_inserted a turn buffer now hs (hstored.1 buffer now rfl)
          rw [Pg.collect, run_bind, messageRows_cons (r := .message buffer now) (by simp)]
          exact hput.trans (ih hstored.2 hput.2)
      | interrupted => exact ⟨(List.append_nil _).symm, hs⟩
      | timedOut =>
          rw [allStored_cons_iff a turn .timedOut (by simp)] at hstored
          exact ih hstored.2 hs
      | failed =>
          rw [allStored_cons_iff a turn .failed (by simp)] at hstored
          exact ih hstored.2 hs

/-- A collector that is connected inserts the rows of its messages. -/
theorem run_loc (hconnects : Connects a) {received : List Received} (hstored : AllStored a 0 received)
    (loc : List LocRow) :
    ((Pg.run received).run a (.unconnected loc)).2.loc = loc ++ messageRows received := by
  have hcall : ∀ c s, (Pg.nnCall c).run a s = (a (0, c), s) := fun _ _ => rfl
  have hopen : Pg.openDb.run a (.unconnected loc) = (decide (a (0, .connect) = CONNECTION_OK), .fresh loc) := rfl
  have hclose : ∀ s : PgConn, (Pg.closeDb.run a s).2.loc = s.loc := fun _ => rfl
  obtain ⟨hbind, hopt, hconnect⟩ := hconnects
  rw [Pg.run, run_bind_of _ _ _ _ (hcall .nnBind _), if_neg (not_lt.mpr hbind),
    run_bind_of _ _ _ _ (hcall .nnSetsockopt _), if_neg (not_lt.mpr hopt), run_bind_of _ _ _ _ hopen]
  simp only [hconnect, decide_true, Bool.not_true, Bool.false_eq_true, if_false, run_bind, hcall]
  have hcollect := (collect_inserted a hstored (s := .fresh loc) rfl).1
  split_ifs
  · exact (hclose _).trans hcollect
  · exact (hclose _).trans hcollect

end Table

/-! ### The store -/

/-- A turn of the LMDB collector that stores its message, with the alignment byte of the records there. -/
structure Lmdb.Turn.Kept (pad : UInt8) (t : Lmdb.Turn) : Prop where
  pad : t.pad.key = pad
  room : ∀ p, ¬Full t.answers 0 p
  message : ∀ buffer now, t.received = .message buffer now → sizeofLogEntry ≤ buffer.length →
    Stores t.answers buffer ∧ ClockFits now

/-- What both know of the rows so far. -/
structure Alike (pad : UInt8) (s : Store) (loc : List LocRow) : Prop where
  refines : Refines s (.ofRows loc)
  pads : ConstPads s pad

theorem alike_empty (pad : UInt8) : Alike pad .empty [] := ⟨refines_empty, constPads_empty pad⟩

namespace Lmdb

theorem Turn.Kept.step {pad : UInt8} {t : Turn} (h : t.Kept pad) {buffer : Bytes} {now : Int}
    (hreceived : t.received = .message buffer now) (hlen : sizeofLogEntry ≤ buffer.length) :
    t.step = some (.putLog buffer now, { filledMemory 0 with pad := t.pad }) := by
  have hzero := (putLog_eq_zero_iff t.answers buffer now t.pad (.idle .empty)).mpr
    (h.message buffer now hreceived hlen).1
  have hacked : t.acknowledged = some (buffer, now) := by
    rw [acknowledged, hreceived]
    exact if_pos hzero
  rw [Turn.step, hacked, Option.map_some]

/-- Without a message of full length there is no call. -/
theorem Turn.step_of_row_none {t : Turn} (h : t.received.row = none) : t.step = none := by
  unfold Turn.step
  cases hacked : t.acknowledged with
  | none => rfl
  | some m =>
      have hlen := Turn.acknowledged_length hacked
      unfold Turn.acknowledged at hacked
      cases hreceived : t.received with
      | message buffer now =>
          rw [hreceived] at hacked h
          dsimp only at hacked
          split_ifs at hacked
          obtain rfl := Option.some.inj hacked
          rw [Received.row, if_neg hlen] at h
          cases h
      | interrupted => rw [hreceived] at hacked; cases hacked
      | timedOut => rw [hreceived] at hacked; cases hacked
      | failed => rw [hreceived] at hacked; cases hacked

/-- The call of a turn means the row of its message. -/
theorem Turn.Kept.means {pad : UInt8} {t : Turn} (h : t.Kept pad) (loc : List LocRow) :
    (LogTables.ofRows loc).run (t.step.toList.map Prod.fst) = .ofRows (loc ++ t.received.row.toList) := by
  cases hrow : t.received.row with
  | none =>
      rw [Turn.step_of_row_none hrow, Option.toList_none, Option.toList_none, List.append_nil]
      rfl
  | some row =>
      cases hreceived : t.received with
      | message buffer now =>
          rw [hreceived, Received.row] at hrow
          split_ifs at hrow with hlen
          obtain rfl := Option.some.inj hrow
          have hstep := h.step hreceived (not_lt.mp hlen)
          have hclock := (h.message buffer now hreceived (not_lt.mp hlen)).2
          rw [hstep, Option.toList_some, Option.toList_some, ofRows_concat, locItem_bufferRow buffer hclock]
          exact if_neg hlen
      | interrupted => rw [hreceived] at hrow; cases hrow
      | timedOut => rw [hreceived] at hrow; cases hrow
      | failed => rw [hreceived] at hrow; cases hrow

theorem alike_turn {pad : UInt8} {w : Writer} {loc : List LocRow} (h : Alike pad w.env.committed loc)
    (snmpAgent : Bool) {t : Turn} (ht : t.Kept pad) :
    Alike pad (turn snmpAgent w t).env.committed (loc ++ t.received.row.toList) := by
  have hwrites := Turn.writes_of_room ht.room
  have hcalls : ∀ c ∈ t.step.toList, c.2.pad.key = pad := by
    intro c hc
    obtain ⟨m, -, rfl⟩ := Option.map_eq_some_iff.mp (Option.mem_toList.mp hc)
    exact ht.pad
  rw [turn_committed, hwrites, putAll_observation]
  obtain ⟨haligned, hpads⟩ := h.pads.run hcalls
  have hrefines := h.refines.run_calls haligned
  rw [ht.means] at hrefines
  exact ⟨hrefines, hpads⟩

/-- After a stop there is no further state. -/
theorem eq_of_stopped {snmpAgent : Bool} {w w' : Writer} (hstop : w.stopRequest = true) {ts : List Turn} {i : Nat}
    (h : (states snmpAgent w ts)[i]? = some w') : i = 0 ∧ w = w' := by
  have hstates : states snmpAgent w ts = [w] := by
    cases ts with
    | nil => rfl
    | cons t ts => rw [states, if_pos hstop]
  rw [hstates] at h
  cases i with
  | zero => exact ⟨rfl, Option.some.inj h⟩
  | succ i => cases h

theorem alike_states {pad : UInt8} (snmpAgent : Bool) {ts : List Turn} {w w' : Writer} {loc : List LocRow}
    (h : Alike pad w.env.committed loc) {i : Nat} (hi : (states snmpAgent w ts)[i]? = some w')
    (hkept : ∀ t ∈ ts.take i, t.Kept pad) :
    Alike pad w'.env.committed (loc ++ messageRows ((ts.take i).map Turn.received)) := by
  induction ts generalizing w loc i with
  | nil =>
      obtain ⟨rfl, rfl⟩ : i = 0 ∧ w = w' := by
        cases i with
        | zero => exact ⟨rfl, Option.some.inj hi⟩
        | succ i => cases hi
      rw [List.take_nil]
      exact (List.append_nil loc).symm ▸ h
  | cons t ts ih =>
      cases i with
      | zero =>
          obtain rfl : w = w' := by
            rw [states] at hi
            split_ifs at hi
            · exact Option.some.inj hi
            · exact Option.some.inj hi
          exact (List.append_nil loc).symm ▸ h
      | succ i =>
          rw [states] at hi
          split_ifs at hi with hstop
          · cases hi
          rw [List.getElem?_cons_succ] at hi
          rw [List.take_succ_cons] at hkept ⊢
          have hturn := alike_turn h snmpAgent (hkept t List.mem_cons_self)
          have hlater : ∀ t' ∈ ts.take i, t'.Kept pad := fun t' ht' => hkept t' (List.mem_cons_of_mem _ ht')
          rw [List.map_cons]
          by_cases hr : t.received = .interrupted
          · -- The call interrupted is the last turn.
            have hstopped : (turn snmpAgent w t).stopRequest = true := by
              rw [turn, hr]
            obtain ⟨rfl, rfl⟩ := eq_of_stopped hstopped hi
            rw [hr] at hturn ⊢
            exact hturn
          · rw [messageRows_cons hr, ← List.append_assoc]
            exact ih hturn hi hlater

end Lmdb

/-- **Two collectors**, started on an LMDB store and a table that are alike, receiving the same, with neither of them
refused by its database: the table has gained one row for each message of full length, in the order of the messages,
and the store has of all the rows, as they read back, the last one of each address and second. -/
theorem backEnds_agree (a : Nat × PgCall → Int) (hconnects : Connects a) (snmpAgent : Bool) (pad : UInt8)
    (env : Engine) (loc : List LocRow) (h : Alike pad env.committed loc) (ts : List Lmdb.Turn) (i : Nat)
    (w : Lmdb.Writer) (hi : (Lmdb.states snmpAgent (Lmdb.initial env) ts)[i]? = some w)
    (hkept : ∀ t ∈ ts.take i, t.Kept pad) (hstored : AllStored a 0 ((ts.take i).map Lmdb.Turn.received)) :
    ((Pg.run ((ts.take i).map Lmdb.Turn.received)).run a (.unconnected loc)).2.loc =
        loc ++ messageRows ((ts.take i).map Lmdb.Turn.received) ∧
      Condenses w.env.committed ((Pg.run ((ts.take i).map Lmdb.Turn.received)).run a (.unconnected loc)).2.loc := by
  have hloc := run_loc a hconnects hstored loc
  have hstore := Lmdb.alike_states snmpAgent h hi hkept
  rw [hloc]
  exact ⟨rfl, condenses_of_refines hstore.refines⟩

theorem kept_sampleTurn : Lmdb.sampleTurn.Kept 0 where
  pad := rfl
  room := fun _ => zero_ne_mapFull
  message := by
    intro buffer now hreceived _
    obtain ⟨rfl, rfl⟩ := Received.message.inj hreceived
    exact ⟨⟨by decide, rfl, rfl, rfl⟩, by decide, by decide⟩

/-- One message to both. -/
theorem backEnds_agree_sample :
    ((Pg.run [.message sampleBuffer 100]).run served (.unconnected [])).2.loc = [⟨mactostr sampleMac, 100, 1, -50⟩] ∧
      Condenses (Lmdb.turn true (Lmdb.initial (.idle .empty)) Lmdb.sampleTurn).env.committed
        ((Pg.run [.message sampleBuffer 100]).run served (.unconnected [])).2.loc := by
  have hkept : ∀ t ∈ [Lmdb.sampleTurn].take 1, t.Kept 0 := by
    intro t ht
    rw [List.mem_singleton.mp ht]
    exact kept_sampleTurn
  have hstored : AllStored served 0 (([Lmdb.sampleTurn].take 1).map Lmdb.Turn.received) :=
    fun _ _ _ _ _ => ⟨rfl, rfl, rfl⟩
  obtain ⟨hloc, hcondenses⟩ := backEnds_agree served ⟨by decide, by decide, rfl⟩ true 0 (.idle .empty) []
    (alike_empty 0) [Lmdb.sampleTurn] 1 _ rfl hkept hstored
  exact ⟨hloc.trans (by decide), hcondenses⟩

end Wacs
