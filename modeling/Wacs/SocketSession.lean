import Mathlib.Data.List.Enum
import Wacs.SendFaults

/-! `wacs-c.cpp`: the calls with which a program keeps its socket, against `sendLogEntryC`, which opens one for every
entry. Both hand the same messages to the network as long as sockets are connected; what differs is what a socket
that is not connected costs. -/

namespace Wacs.Nn

open OracleM

section Calls

variable {τ : Type} (turn : τ)

/-- `given` tells that neither of the two pointers is NULL. -/
def openSocketLogC (given : Bool) : NnM τ (Except Int (Int × Int)) :=
  if given then openSocketLog turn else return .error ERRCODE_WRONG_PARAM

def sendLogEntrySocketC (socket : Int) (deviceId : UInt32) (ssiSignal : Int32) (sa : Option Mac) (unset : Mac)
    (repeats : Int) : NnM τ Int :=
  sendLogEntrySocket turn socket ⟨deviceId.toUInt16, ssiSignal.toInt16, sa.getD unset⟩ repeats

def closeSocketLogC (socket endpoint : Int) : NnM τ Int := closeSocketLog turn socket endpoint

end Calls

/-- What an access point has to tell. -/
structure Report where
  deviceId : UInt32
  ssiSignal : Int32
  sa : Option Mac
  unset : Mac
  repeats : Int

namespace Report

variable (r : Report)

def value : LogEntry := ⟨r.deviceId.toUInt16, r.ssiSignal.toInt16, r.sa.getD r.unset⟩

/-- The messages of a report with what `nn_send` answers to each on its turn. -/
def handsOver (answers : Nat × NnCall → Int) (turn : Nat) : List (Bytes × Int) :=
  (List.range r.repeats.toNat).map fun i => ((htonLogEntry r.value).bytes, answers (turn, .send i))

end Report

/-- A socket for each report. -/
def sendEach : Nat → List Report → NnM Nat Unit
  | _, [] => return ()
  | turn, r :: reports => do
      let _r ← sendLogEntryC turn r.deviceId r.ssiSignal r.sa r.unset r.repeats
      sendEach (turn + 1) reports

/-- All the reports on one socket. -/
def sendOn (socket : Int) : Nat → List Report → NnM Nat Unit
  | _, [] => return ()
  | turn, r :: reports => do
      let _r ← sendLogEntrySocketC turn socket r.deviceId r.ssiSignal r.sa r.unset r.repeats
      sendOn socket (turn + 1) reports

def sendTogether (reports : List Report) : NnM Nat Int := do
  match ← openSocketLogC 0 true with
  | .error r => return r
  | .ok (socket, endpoint) =>
      sendOn socket 0 reports
      closeSocketLogC 0 socket endpoint

/-- What becomes of sockets. -/
def sockets (s : List NnEvent) : List NnEvent := s.filter fun e => e.handed.isNone

section Run

variable (answers : Nat × NnCall → Int)

/-- The opening on a turn succeeds. -/
def Opens (turn : Nat) : Prop := 0 ≤ answers (turn, .socket) ∧ 0 ≤ answers (turn, .connect)

instance : DecidablePred (Opens answers) := fun turn =>
  inferInstanceAs (Decidable (0 ≤ answers (turn, .socket) ∧ 0 ≤ answers (turn, .connect)))

/-- What an opening on a turn does to sockets, with the closing that follows it when it succeeds. -/
def socketsOf (turn : Nat) : List NnEvent :=
  if answers (turn, .socket) < 0 then []
  else if answers (turn, .connect) < 0 then [.opened (answers (turn, .socket))]
  else [.opened (answers (turn, .socket)), .closed (answers (turn, .socket))]

theorem sockets_append (s s' : List NnEvent) : sockets (s ++ s') = sockets s ++ sockets s' := List.filter_append ..

theorem sockets_sends (turn : Nat) (socket : Int) (message : Bytes) (n i : Nat) :
    sockets (sends turn answers socket message n i) = [] := by
  refine List.filter_eq_nil_iff.mpr fun e he => ?_
  obtain ⟨k, -, rfl⟩ := List.mem_map.mp he
  exact Bool.false_ne_true

theorem handedOver_report (r : Report) (turn : Nat) (socket : Int) :
    handedOver (sends turn answers socket (htonLogEntry r.value).bytes r.repeats.toNat 0) =
      r.handsOver answers turn := by
  rw [handedOver_sends, ← List.range_eq_range', Report.handsOver]

/-- A report on a socket of its own. -/
theorem report_run (r : Report) (turn : Nat) (s : List NnEvent) : ∃ code events,
    (sendLogEntryC turn r.deviceId r.ssiSignal r.sa r.unset r.repeats).run answers s = (code, s ++ events) ∧
      handedOver events = (if Opens answers turn then r.handsOver answers turn else []) ∧
      sockets events = socketsOf answers turn := by
  have hrun := run_sendLogEntry turn answers s r.value r.repeats
  unfold socketsOf
  by_cases hsocket : answers (turn, .socket) < 0
  · have hopens : ¬Opens answers turn := fun h => absurd h.1 (not_le.mpr hsocket)
    rw [if_pos hsocket] at hrun
    rw [if_pos hsocket, if_neg hopens]
    exact ⟨_, [], hrun.trans (by rw [List.append_nil]), rfl, rfl⟩
  rw [if_neg hsocket] at hrun
  by_cases hconnect : answers (turn, .connect) < 0
  · have hopens : ¬Opens answers turn := fun h => absurd h.2 (not_le.mpr hconnect)
    rw [if_pos hconnect] at hrun
    rw [if_neg hsocket, if_pos hconnect, if_neg hopens]
    exact ⟨_, _, hrun, rfl, rfl⟩
  · have hopens : Opens answers turn := ⟨not_lt.mp hsocket, not_lt.mp hconnect⟩
    rw [if_neg hconnect, List.append_assoc, List.append_assoc] at hrun
    rw [if_neg hsocket, if_neg hconnect, if_pos hopens]
    refine ⟨_, _, hrun, ?_, ?_⟩
    · rw [handedOver_append, handedOver_append, handedOver_report]
      exact List.append_nil _
    · rw [sockets_append, sockets_append, sockets_sends]
      rfl

theorem sendEach_run (reports : List Report) (turn : Nat) (s : List NnEvent) : ∃ events,
    (sendEach turn reports).run answers s = ((), s ++ events) ∧
      handedOver events = (reports.zipIdx turn).flatMap
        (fun x => if Opens answers x.2 then x.1.handsOver answers x.2 else []) ∧
      sockets events = (reports.zipIdx turn).flatMap fun x => socketsOf answers x.2 := by
  induction reports generalizing turn s with
  | nil => exact ⟨[], by rw [List.append_nil]; rfl, rfl, rfl⟩
  | cons r reports ih =>
      obtain ⟨code, first, hrun, hhanded, hsockets⟩ := report_run answers r turn s
      obtain ⟨rest, hrest, hhanded', hsockets'⟩ := ih (turn + 1) (s ++ first)
      refine ⟨first ++ rest, ?_, ?_, ?_⟩
      · rw [sendEach, run_bind_of _ _ _ _ hrun, hrest, List.append_assoc]
      · rw [handedOver_append, hhanded, hhanded', List.zipIdx_cons, List.flatMap_cons]
      · rw [sockets_append, hsockets, hsockets', List.zipIdx_cons, List.flatMap_cons]

theorem sendOn_run (socket : Int) (reports : List Report) (turn : Nat) (s : List NnEvent) : ∃ events,
    (sendOn socket turn reports).run answers s = ((), s ++ events) ∧
      handedOver events = (reports.zipIdx turn).flatMap (fun x => x.1.handsOver answers x.2) ∧
      sockets events = [] := by
  induction reports generalizing turn s with
  | nil => exact ⟨[], by rw [List.append_nil]; rfl, rfl, rfl⟩
  | cons r reports ih =>
      have hrun := run_sendLogEntrySocket turn answers s socket r.value r.repeats
      obtain ⟨rest, hrest, hhanded, hsockets⟩ := ih (turn + 1)
        (s ++ sends turn answers socket (htonLogEntry r.value).bytes r.repeats.toNat 0)
      refine ⟨sends turn answers socket (htonLogEntry r.value).bytes r.repeats.toNat 0 ++ rest, ?_, ?_, ?_⟩
      · rw [sendOn]
        exact (run_bind_of _ _ _ _ hrun).trans (hrest.trans (by rw [List.append_assoc]))
      · rw [handedOver_append, handedOver_report, hhanded, List.zipIdx_cons, List.flatMap_cons]
      · rw [sockets_append, sockets_sends, hsockets, List.nil_append]

theorem sendTogether_run (reports : List Report) : ∃ code events,
    (sendTogether reports).run answers [] = (code, events) ∧
      handedOver events =
        (if Opens answers 0 then reports.zipIdx.flatMap (fun x => x.1.handsOver answers x.2) else []) ∧
      sockets events = socketsOf answers 0 := by
  have hopening := run_openSocketLog 0 answers []
  unfold socketsOf
  by_cases hsocket : answers (0, .socket) < 0
  · have hopens : ¬Opens answers 0 := fun h => absurd h.1 (not_le.mpr hsocket)
    rw [if_pos hsocket] at hopening
    rw [if_pos hsocket, if_neg hopens]
    exact ⟨_, _, run_bind_of _ _ _ _ hopening, rfl, rfl⟩
  rw [if_neg hsocket] at hopening
  by_cases hconnect : answers (0, .connect) < 0
  · have hopens : ¬Opens answers 0 := fun h => absurd h.2 (not_le.mpr hconnect)
    rw [if_pos hconnect] at hopening
    rw [if_neg hsocket, if_pos hconnect, if_neg hopens]
    exact ⟨_, _, run_bind_of _ _ _ _ hopening, rfl, rfl⟩
  · have hopens : Opens answers 0 := ⟨not_lt.mp hsocket, not_lt.mp hconnect⟩
    rw [if_neg hconnect] at hopening
    obtain ⟨events, hrun, hhanded, hsockets⟩ := sendOn_run answers (answers (0, .socket)) reports 0
      [.opened (answers (0, .socket))]
    rw [if_neg hsocket, if_neg hconnect, if_pos hopens]
    refine ⟨answers (0, .shutdown),
      [.opened (answers (0, .socket))] ++ events ++ [.closed (answers (0, .socket))], ?_, ?_, ?_⟩
    · exact (run_bind_of _ _ _ _ hopening).trans (run_bind_of _ _ _ _ hrun)
    · rw [handedOver_append, handedOver_append, hhanded]
      exact List.append_nil _
    · rw [sockets_append, sockets_append, hsockets]
      rfl

/-- What the two ways of telling reports come to, whatever the network answers. With its own socket a report is lost
when that is not connected, and with one socket all are; a socket that is opened and not connected is never closed. -/
structure SocketKept (reports : List Report) : Prop where
  together : handedOver ((sendTogether reports).run answers []).2 =
    if Opens answers 0 then reports.zipIdx.flatMap (fun x => x.1.handsOver answers x.2) else []
  each : handedOver ((sendEach 0 reports).run answers []).2 =
    reports.zipIdx.flatMap fun x => if Opens answers x.2 then x.1.handsOver answers x.2 else []
  agree : (∀ turn < reports.length, Opens answers turn) →
    handedOver ((sendTogether reports).run answers []).2 = handedOver ((sendEach 0 reports).run answers []).2
  oneSocket : sockets ((sendTogether reports).run answers []).2 = socketsOf answers 0
  eachSocket : sockets ((sendEach 0 reports).run answers []).2 =
    (List.range reports.length).flatMap (socketsOf answers)

/-- **A socket that is kept** tells the collector what a socket for each report does. -/
theorem socketKept (reports : List Report) : SocketKept answers reports := by
  obtain ⟨code, events, hrun, htogether, hsocket⟩ := sendTogether_run answers reports
  obtain ⟨events', hrun', heach, hsockets⟩ := sendEach_run answers reports 0 []
  rw [List.nil_append] at hrun'
  have hindices : (reports.zipIdx.flatMap fun x => socketsOf answers x.2) =
      (List.range reports.length).flatMap (socketsOf answers) := by
    rw [List.range_eq_range', ← List.zipIdx_map_snd 0 reports, List.flatMap_map]
  refine ⟨?_, ?_, fun hopens => ?_, ?_, ?_⟩
  · rw [hrun, htogether]
  · rw [hrun', heach]
  · rw [hrun, hrun', htogether, heach]
    cases reports with
    | nil => exact ite_self _
    | cons report reports =>
        rw [if_pos (hopens 0 (Nat.succ_pos _))]
        refine List.flatMap_congr fun x hx => ?_
        have hlt := List.snd_lt_of_mem_zipIdx hx
        rw [if_pos (hopens x.2 hlt)]
  · rw [hrun, hsocket]
  · rw [hrun', hsockets, hindices]

end Run

end Wacs.Nn
