import Wacs.LogExact

/-! `wacs-c.cpp` and `send-log-entry.cpp`: an observation sent to the collector, and what comes of it in a
listing. -/

namespace Wacs

open OrderBytes OrderedCursor

def htons (x : UInt16) : UInt16 := ntohs x

def htonLogEntry (e : LogEntry) : LogEntry :=
  { e with deviceId := htons e.deviceId, ssiSignal := (htons e.ssiSignal.toUInt16).toInt16 }

/-- The packed structure on a little-endian host. -/
def LogEntry.bytes (e : LogEntry) : Bytes :=
  leBytes 2 e.deviceId.toNat ++ leBytes 2 e.ssiSignal.toUInt16.toNat ++ e.sa.val

/-- What the network library answers: opening and closing the socket, and each `nn_send`. -/
structure SendAnswers where
  openSocketLog : Int
  nnSend : Nat → Int
  closeSocketLog : Int

/-- The result, and the messages sent. -/
def sendLogEntrySocket (a : SendAnswers) (value : LogEntry) (repeats : Int) : Int × List Bytes :=
  let v := htonLogEntry value
  (0, (List.range repeats.toNat).filterMap fun i => if a.nnSend i < 0 then none else some v.bytes)

/-- The entry is swapped here too, into a local structure that is not sent. -/
def sendLogEntry (a : SendAnswers) (value : LogEntry) (repeats : Int) : Int × List Bytes :=
  let _v := htonLogEntry value
  if a.openSocketLog ≠ 0 then (a.openSocketLog, [])
  else (a.closeSocketLog, (sendLogEntrySocket a value repeats).2)

/-- `unset` is what the structure holds for the address when there is none. -/
def sendLogEntryC (a : SendAnswers) (deviceId : UInt32) (ssiSignal : Int32) (sa : Option Mac) (unset : Mac)
    (repeats : Int) : Int × List Bytes :=
  sendLogEntry a ⟨deviceId.toUInt16, ssiSignal.toInt16, sa.getD unset⟩ repeats

/-! ### The message -/

theorem ntohs_htons (x : UInt16) : ntohs (htons x) = x := by
  have hswap : ∀ y : UInt16, leBytes 2 (ntohs y).toNat = (leBytes 2 y.toNat).reverse := by
    intro y
    have hlt := leNat_lt (leBytes 2 y.toNat).reverse
    have hlen := leBytes_leNat (leBytes 2 y.toNat).reverse
    simp only [List.length_reverse, leBytes_length] at hlt hlen
    rw [ntohs, UInt16.toNat_ofNat', Nat.mod_eq_of_lt (by simpa using hlt), hlen]
  rw [htons, ntohs, hswap, List.reverse_reverse, leNat_leBytes]
  apply UInt16.toNat_inj.mp
  rw [UInt16.toNat_ofNat']
  have := x.toNat_lt
  omega

theorem ntohLogEntry_htonLogEntry (e : LogEntry) : ntohLogEntry (htonLogEntry e) = e := by
  rw [ntohLogEntry, htonLogEntry]
  simp only [ntohs_htons, UInt16.toUInt16_toInt16, Int16.toInt16_toUInt16]

/-- The bytes of an entry are read back as the entry. -/
theorem ofBytes_bytes_entry (e : LogEntry) : LogEntry.ofBytes e.bytes = e := by
  have hfield : ∀ x : UInt16, UInt16.ofNat (leNat (leBytes 2 x.toNat)) = x := by
    intro x
    rw [leNat_leBytes]
    apply UInt16.toNat_inj.mp
    rw [UInt16.toNat_ofNat']
    have := x.toNat_lt
    omega
  have hdev := peek_append (fun _ => 0) [] (leBytes 2 e.deviceId.toNat)
    (leBytes 2 e.ssiSignal.toUInt16.toNat ++ e.sa.val)
  have hssi := peek_append (fun _ => 0) (leBytes 2 e.deviceId.toNat) (leBytes 2 e.ssiSignal.toUInt16.toNat) e.sa.val
  have hsa := peek_append (fun _ => 0) (leBytes 2 e.deviceId.toNat ++ leBytes 2 e.ssiSignal.toUInt16.toNat) e.sa.val []
  simp only [List.nil_append, List.append_nil, List.length_nil, List.length_append, leBytes_length, e.sa.property,
    ← List.append_assoc] at hdev hssi hsa
  obtain ⟨deviceId, ssiSignal, sa⟩ := e
  rw [LogEntry.ofBytes, LogEntry.mk.injEq]
  refine ⟨?_, ?_, Subtype.ext hsa⟩
  · exact (congrArg (fun b => UInt16.ofNat (leNat b)) hdev).trans (hfield deviceId)
  · rw [← Int16.toInt16_toUInt16 ssiSignal]
    exact congrArg UInt16.toInt16 ((congrArg (fun b => UInt16.ofNat (leNat b)) hssi).trans (hfield _))

theorem bytes_length_entry (e : LogEntry) : e.bytes.length = sizeofLogEntry := by
  rw [LogEntry.bytes, List.length_append, List.length_append, leBytes_length, leBytes_length, e.sa.property]
  rfl

/-- Every message sent is the entry in network order. -/
theorem mem_sendLogEntryC {a : SendAnswers} {deviceId : UInt32} {ssiSignal : Int32} {sa unset : Mac} {repeats : Int}
    {message : Bytes} (h : message ∈ (sendLogEntryC a deviceId ssiSignal (some sa) unset repeats).2) :
    message = (htonLogEntry ⟨deviceId.toUInt16, ssiSignal.toInt16, sa⟩).bytes := by
  rw [sendLogEntryC, sendLogEntry] at h
  split_ifs at h
  · cases h
  · obtain ⟨i, -, hi⟩ := List.mem_filterMap.mp h
    split_ifs at hi
    exact (Option.some.inj hi).symm

/-! ### The listing -/

/-- Every listing whose filter and range take in the observation has an entry for it, with the address, the time,
the device and the signal level observed. -/
def Survives (s : Store) (m : Mac) (deviceId : UInt16) (ssiSignal : Int16) (t : UInt32) : Prop :=
  ∀ (slack : Slack) (f : Filter) (start finish : Int), f.Matches m → 0 ≤ start → start ≤ t.toNat →
    (t.toNat : Int) ≤ rangeEnd finish → rangeEnd finish < 2 ^ 32 →
    ∃ d, ⟨m, t, some d⟩ ∈ handedItems (quietly (readLog slack f start finish 0 (some takeAll) (some ())) s).1 ∧
      d.deviceId = deviceId ∧ d.ssiSignal.toInt = ssiSignal.toInt

/-- What is listed of an address and a time is what the log has for them. -/
theorem mem_listed_iff {s : Store} {T : LogTables} (h : Refines s T) (slack : Slack) (f : Filter) {start finish : Int}
    (hpad : f.sz = 6 → PadsOf s f.mac 0) (hstart : 0 ≤ start) (hle : start ≤ rangeEnd finish)
    (hlt : rangeEnd finish < 2 ^ 32) (m : Mac) (t : UInt32) (d : LogData) :
    ⟨m, t, some d⟩ ∈ handedItems (quietly (readLog slack f start finish 0 (some takeAll) (some ())) s).1 ↔
      T.log.get (toLex (m, t)) = some d ∧ logPicks f start finish m t = true := by
  rw [readLog_items h slack f start finish hpad takeAll (), handed_of_never takeAll (fun _ _ => rfl),
    readLogPicks_eq f hstart hle hlt, OrderedMap.get_eq_some_iff, List.mem_map]
  refine ⟨fun ⟨x, hx, hitem⟩ => ?_, fun ⟨hmem, hpick⟩ => ?_⟩
  · obtain ⟨hmem, hpick⟩ := List.mem_filter.mp hx
    obtain ⟨hm, ht, hd⟩ := LogItem.mk.inj hitem
    have hcell : x = (toLex (m, t), d) := Prod.ext (congrArg toLex (Prod.ext hm ht)) (Option.some.inj hd)
    subst hcell
    exact ⟨hmem, hpick⟩
  · exact ⟨(toLex (m, t), d), List.mem_filter.mpr ⟨hmem, hpick⟩, rfl⟩

theorem narrow_eq_iff (x : Int16) : x.toInt8.toInt = x.toInt ↔ -128 ≤ x.toInt ∧ x.toInt ≤ 127 := by
  rw [Int16.toInt_toInt8]
  refine ⟨fun h => ?_, fun ⟨hlo, hhi⟩ => ?_⟩
  · have hlo := Int.le_bmod (x := x.toInt) (m := 2 ^ 8) (by decide)
    have hhi := Int.bmod_lt (x := x.toInt) (m := 2 ^ 8) (by decide)
    omega
  · exact Int.bmod_eq_of_le (by omega) (by omega)

section Observation

variable {a : SendAnswers} {deviceId : UInt16} {ssiSignal : Int16} {m unset : Mac} {repeats : Int} {message : Bytes}
  (hsent : message ∈ (sendLogEntryC a deviceId.toUInt32 ssiSignal.toInt32 (some m) unset repeats).2)
include hsent

/-- The log after the collector has stored a message: its table has the observation, the signal level cut down to
a byte. -/
theorem log_after_message (T : LogTables) (t : UInt32) :
    (T.step (.putLog message t.toNat)).log = T.log.put (toLex (m, t)) ⟨deviceId, ssiSignal.toInt8⟩ := by
  have htime : time32 (t.toNat : Int) = t := by
    apply UInt32.toNat_inj.mp
    rw [time32, UInt32.toNat_ofNat']
    have := t.toNat_lt
    omega
  have hbytes := mem_sendLogEntryC hsent
  rw [UInt16.toUInt16_toUInt32, Int16.toInt16_toInt32] at hbytes
  subst hbytes
  have hread := ofBytes_bytes_entry (htonLogEntry ⟨deviceId, ssiSignal, m⟩)
  have hlen : ¬(htonLogEntry ⟨deviceId, ssiSignal, m⟩).bytes.length < sizeofLogEntry := by
    rw [bytes_length_entry]
    exact lt_irrefl _
  rw [LogTables.step, if_neg hlen, bufferData, hread, ntohLogEntry_htonLogEntry, htime]
  rfl

theorem logAfter_message (calls : List Step) (t : UInt32) (mem : Memory) :
    (logAfter (calls ++ [(.putLog message t.toNat, mem)])).get (toLex (m, t)) =
      some ⟨deviceId, ssiSignal.toInt8⟩ := by
  rw [logAfter, List.map_append, LogTables.run, List.foldl_append]
  show (LogTables.step _ (Op.putLog message t.toNat)).log.get _ = _
  rw [log_after_message hsent, OrderedMap.get_put_self]

end Observation

/-- An entry with the signal level cut down to a byte is the one observed when nothing is cut off. -/
theorem survives_iff {s : Store} {T : LogTables} (h : Refines s T) (hpads : ConstPads s 0) {m : Mac}
    {deviceId : UInt16} {ssiSignal : Int16} {t : UInt32}
    (hlog : T.log.get (toLex (m, t)) = some ⟨deviceId, ssiSignal.toInt8⟩) :
    Survives s m deviceId ssiSignal t ↔ ssiSignal.toInt8.toInt = ssiSignal.toInt := by
  constructor
  · intro hsurvives
    have hend : (t.toNat : Int) ≤ rangeEnd 0 := by
      have := t.toNat_lt
      rw [rangeEnd, if_pos rfl]
      omega
    have hany : anyMac.Matches m := by
      rw [Filter.Matches]
      rfl
    obtain ⟨d, hd, -, hssi⟩ := hsurvives (fun _ _ => 0) anyMac 0 0 hany le_rfl (Int.natCast_nonneg _) hend (by decide)
    obtain ⟨hget, -⟩ := (mem_listed_iff h _ anyMac (fun _ => hpads _) le_rfl (by decide) (by decide) m t d).mp hd
    have hdata : (⟨deviceId, ssiSignal.toInt8⟩ : LogData) = d := Option.some.inj (hlog.symm.trans hget)
    rw [← hdata] at hssi
    exact hssi
  · intro hnarrow slack f start finish hm hstart hfrom hto hlt
    refine ⟨⟨deviceId, ssiSignal.toInt8⟩, ?_, rfl, hnarrow⟩
    apply (mem_listed_iff h slack f (fun _ => hpads _) hstart (hfrom.trans hto) hlt m t _).mpr
    exact ⟨hlog, decide_eq_true ⟨hm, hfrom, hto⟩⟩

/-- What is sent and stored comes back in the listings exactly when its signal level fits a signed byte. -/
theorem observation_survives_iff (calls : List Step) (hcalls : ∀ c ∈ calls, c.2.pad.key = 0) (a : SendAnswers)
    (deviceId : UInt16) (ssiSignal : Int16) (m unset : Mac) (repeats : Int) (message : Bytes)
    (hsent : message ∈ (sendLogEntryC a deviceId.toUInt32 ssiSignal.toInt32 (some m) unset repeats).2) (t : UInt32)
    (mem : Memory) (hmem : mem.pad.key = 0) :
    Survives (run .empty (calls ++ [(.putLog message t.toNat, mem)])) m deviceId ssiSignal t ↔
      -128 ≤ ssiSignal.toInt ∧ ssiSignal.toInt ≤ 127 := by
  have hall : ∀ c ∈ calls ++ [(.putLog message t.toNat, mem)], c.2.pad.key = 0 := by
    intro c hc
    rcases List.mem_append.mp hc with hc | hc
    · exact hcalls c hc
    · rw [List.mem_singleton.mp hc]
      exact hmem
  have hpads := ((constPads_empty 0).run hall).2
  rw [← narrow_eq_iff]
  exact survives_iff (run_refines hall) hpads (logAfter_message hsent calls t mem)

/-- One message sent, stored at time 100 in an empty store. -/
theorem observation_survives_sample :
    Survives (run .empty ([] ++ [(.putLog sampleBuffer (100 : UInt32).toNat, filledMemory 0)])) sampleMac 1 (-50)
      100 :=
  (observation_survives_iff [] (fun _ hc => absurd hc List.not_mem_nil) ⟨0, fun _ => 10, 0⟩ 1 (-50) sampleMac
    sampleMac 1 sampleBuffer (by decide) 100 (filledMemory 0) rfl).mpr (by decide)

/-- A level of 200 is listed as -56. -/
theorem observation_changes : ¬∀ (a : SendAnswers) (deviceId : UInt16) (ssiSignal : Int16) (m unset : Mac)
    (repeats : Int) (message : Bytes) (t : UInt32),
    message ∈ (sendLogEntryC a deviceId.toUInt32 ssiSignal.toInt32 (some m) unset repeats).2 →
      Survives (run .empty [(.putLog message t.toNat, filledMemory 0)]) m deviceId ssiSignal t := by
  intro h
  have hany : anyMac.Matches sampleMac := by decide
  obtain ⟨d, hd, -, hssi⟩ := h ⟨0, fun _ => 10, 0⟩ 1 200 sampleMac sampleMac 1 [0, 1, 0, 200, 2, 0, 0, 0, 0, 1] 100
    (by decide) (fun _ _ => 0) anyMac 0 0 hany (by decide) (by decide) (by decide) (by decide)
  have hlisted : handedItems (quietly (readLog (fun _ _ => 0) anyMac 0 0 0 (some takeAll) (some ()))
      (run .empty [(.putLog [0, 1, 0, 200, 2, 0, 0, 0, 0, 1] (100 : UInt32).toNat, filledMemory 0)])).1 =
        [⟨sampleMac, 100, some ⟨1, -56⟩⟩] := by decide
  rw [hlisted, List.mem_singleton] at hd
  obtain ⟨-, -, hdata⟩ := LogItem.mk.inj hd
  rw [Option.some.inj hdata] at hssi
  exact absurd hssi (by decide)

end Wacs
