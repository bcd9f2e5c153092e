import Wacs.OrderedTxn
import Wacs.SendLogEntry

/-! `send-log-entry.cpp` call by call: what each call of the network library answers, the sockets opened and
closed, and what is handed to `nn_send`. -/

namespace Wacs.Nn

def ERRCODE_NN_CONNECT : Int := -21

/-- A call whose result the code looks at. -/
inductive NnCall where
  | socket
  | connect
  | send (i : Nat)
  | shutdown
  deriving DecidableEq

/-- What has been done to sockets; `nn_send` with its result. -/
inductive NnEvent where
  | opened (socket : Int)
  | send (socket : Int) (message : Bytes) (result : Int)
  | closed (socket : Int)
  deriving DecidableEq

/-- `τ` tells one call of `sendLogEntry` from another. -/
abbrev NnM (τ α : Type) : Type 1 := OracleM (τ × NnCall) (List NnEvent) α

section Calls

variable {τ : Type} (turn : τ)

def nnSocket : NnM τ Int :=
  .status (turn, .socket) fun r s => if r < 0 then s else s ++ [.opened r]

def nnConnect : NnM τ Int := .status (turn, .connect) fun _ s => s

def nnSend (i : Nat) (socket : Int) (message : Bytes) : NnM τ Int :=
  .status (turn, .send i) fun r s => s ++ [.send socket message r]

def nnShutdown : NnM τ Int := .status (turn, .shutdown) fun _ s => s

def nnClose (socket : Int) : NnM τ Unit := .modify fun s => s ++ [.closed socket]

/-- The code, or the socket and the endpoint. The second test of the endpoint, behind `nn_poll`, never fires. -/
def openSocketLog : NnM τ (Except Int (Int × Int)) := do
  let socket ← nnSocket turn
  if socket < 0 then
    return .error ERRCODE_NN_CONNECT
  let endpoint ← nnConnect turn
  if endpoint < 0 then
    return .error ERRCODE_NN_CONNECT
  return .ok (socket, endpoint)

def closeSocketLog (socket _endpoint : Int) : NnM τ Int := do
  let r ← nnShutdown turn
  nnClose socket
  return r

/-- The loop of `sendLogEntrySocket`, `n` turns from turn `i` on. -/
def sendRepeats (socket : Int) (message : Bytes) : Nat → Nat → NnM τ Unit
  | 0, _ => return ()
  | n + 1, i => do
      -- a negative result is logged
      let _bytes ← nnSend turn i socket message
      sendRepeats socket message n (i + 1)

def sendLogEntrySocket (socket : Int) (value : LogEntry) (repeats : Int) : NnM τ Int := do
  let v := htonLogEntry value
  sendRepeats turn socket v.bytes repeats.toNat 0
  return 0

def sendLogEntry (value : LogEntry) (repeats : Int) : NnM τ Int := do
  let _v := htonLogEntry value
  let opened ← openSocketLog turn
  match opened with
  | .error r => return r
  | .ok (writeSocket, eid) =>
      let _r ← sendLogEntrySocket turn writeSocket value repeats
      closeSocketLog turn writeSocket eid

/-- `unset` is what the structure holds for the address when there is none. -/
def sendLogEntryC (deviceId : UInt32) (ssiSignal : Int32) (sa : Option Mac) (unset : Mac) (repeats : Int) :
    NnM τ Int :=
  sendLogEntry turn ⟨deviceId.toUInt16, ssiSignal.toInt16, sa.getD unset⟩ repeats

end Calls

/-! ### What a call of `sendLogEntry` does -/

section Run

variable {τ : Type} (turn : τ) (answers : τ × NnCall → Int) (s : List NnEvent)

/-- The events of the send loop. -/
def sends (socket : Int) (message : Bytes) (n i : Nat) : List NnEvent :=
  (List.range' i n).map fun k => .send socket message (answers (turn, .send k))

theorem run_sendRepeats (socket : Int) (message : Bytes) (n i : Nat) :
    (sendRepeats turn socket message n i).run answers s = ((), s ++ sends turn answers socket message n i) := by
  induction n generalizing s i with
  | zero => simp [sendRepeats, sends]
  | succ n ih =>
      rw [sendRepeats, nnSend, OracleM.run_status_bind, ih]
      simp [sends, List.range'_succ]

theorem run_openSocketLog : (openSocketLog turn).run answers s =
    if answers (turn, .socket) < 0 then (.error ERRCODE_NN_CONNECT, s)
    else if answers (turn, .connect) < 0 then (.error ERRCODE_NN_CONNECT, s ++ [.opened (answers (turn, .socket))])
    else (.ok (answers (turn, .socket), answers (turn, .connect)), s ++ [.opened (answers (turn, .socket))]) := by
  rw [openSocketLog, nnSocket, OracleM.run_status_bind, OracleM.run_ite]
  split_ifs with hsocket hconnect
  · rfl
  · rw [nnConnect, OracleM.run_status_bind, if_pos hconnect]
    rfl
  · rw [nnConnect, OracleM.run_status_bind, if_neg hconnect]
    rfl

theorem run_sendLogEntrySocket (socket : Int) (value : LogEntry) (repeats : Int) :
    (sendLogEntrySocket turn socket value repeats).run answers s =
      (0, s ++ sends turn answers socket (htonLogEntry value).bytes repeats.toNat 0) := by
  rw [sendLogEntrySocket, OracleM.run_bind_of _ _ _ _ (run_sendRepeats turn answers s socket _ repeats.toNat 0)]
  rfl

theorem run_closeSocketLog (socket eid : Int) :
    (closeSocketLog turn socket eid).run answers s = (answers (turn, .shutdown), s ++ [.closed socket]) := rfl

/-- The socket is not opened, or opened and not connected, or the entry is handed to `nn_send` on every turn of
the loop and the socket closed. -/
theorem run_sendLogEntry (value : LogEntry) (repeats : Int) :
    (sendLogEntry turn value repeats).run answers s =
      if answers (turn, .socket) < 0 then (ERRCODE_NN_CONNECT, s)
      else if answers (turn, .connect) < 0 then (ERRCODE_NN_CONNECT, s ++ [.opened (answers (turn, .socket))])
      else (answers (turn, .shutdown), s ++ [.opened (answers (turn, .socket))] ++
        sends turn answers (answers (turn, .socket)) (htonLogEntry value).bytes repeats.toNat 0 ++
          [.closed (answers (turn, .socket))]) := by
  have hopen := run_openSocketLog turn answers s
  rw [sendLogEntry, OracleM.run_bind_of _ _ _ _ (Prod.eta _).symm, hopen]
  split_ifs with hsocket hconnect
  · rfl
  · rfl
  · dsimp only
    rw [OracleM.run_bind_of _ _ _ _ (run_sendLogEntrySocket turn answers _ _ value repeats), run_closeSocketLog]

/-! ### Errors and sockets left open -/

def NnEvent.handed : NnEvent → Option (Bytes × Int)
  | .send _ message result => some (message, result)
  | _ => none

/-- The messages handed to `nn_send`, with its results. -/
def handedOver (s : List NnEvent) : List (Bytes × Int) := s.filterMap NnEvent.handed

theorem handedOver_append (s s' : List NnEvent) : handedOver (s ++ s') = handedOver s ++ handedOver s' :=
  List.filterMap_append

theorem handedOver_sends (socket : Int) (message : Bytes) (n i : Nat) :
    handedOver (sends turn answers socket message n i) =
      (List.range' i n).map fun k => (message, answers (turn, .send k)) := by
  rw [handedOver, sends, List.filterMap_map, ← List.filterMap_eq_map]
  rfl

theorem count_sends (socket : Int) (message : Bytes) (n i : Nat) {e : NnEvent}
    (he : e.handed = none) : (sends turn answers socket message n i).count e = 0 := by
  refine List.count_eq_zero_of_not_mem fun hmem => ?_
  obtain ⟨k, -, rfl⟩ := List.mem_map.mp hmem
  cases he

/-- What the caller of `sendLogEntry` relies on: zero is returned only if a socket was opened and `repeats` calls
of `nn_send` succeeded, and each socket has been closed as many times as it has been opened. -/
structure Lawful (repeats : Int) (out : Int × List NnEvent) : Prop where
  reports : out.1 = 0 → (∃ socket, .opened socket ∈ out.2) ∧ (handedOver out.2).length = repeats.toNat ∧
    ∀ x ∈ handedOver out.2, 0 ≤ x.2
  closes : ∀ socket, out.2.count (.opened socket) = out.2.count (.closed socket)

/-- The socket is refused, or it is connected and then every message is sent or the shutdown fails. -/
def FaultsShow (repeats : Int) : Prop :=
  answers (turn, .socket) < 0 ∨ 0 ≤ answers (turn, .connect) ∧
    ((∀ i < repeats.toNat, 0 ≤ answers (turn, .send i)) ∨ answers (turn, .shutdown) ≠ 0)

theorem lawful_refused (repeats : Int) : Lawful repeats (ERRCODE_NN_CONNECT, []) :=
  ⟨fun h => absurd h (by decide), fun _ => rfl⟩

theorem not_lawful_unconnected (repeats socket : Int) : ¬Lawful repeats (ERRCODE_NN_CONNECT, [.opened socket]) := by
  intro h
  have hcount := h.closes socket
  rw [List.count_singleton_self, List.count_eq_zero_of_not_mem (by simp)] at hcount
  exact absurd hcount one_ne_zero

theorem lawful_connected_iff (value : Bytes) (repeats socket : Int) :
    Lawful repeats (answers (turn, .shutdown),
        [.opened socket] ++ sends turn answers socket value repeats.toNat 0 ++ [.closed socket]) ↔
      (∀ i < repeats.toNat, 0 ≤ answers (turn, .send i)) ∨ answers (turn, .shutdown) ≠ 0 := by
  have hover : handedOver ([.opened socket] ++ sends turn answers socket value repeats.toNat 0 ++ [.closed socket]) =
      (List.range repeats.toNat).map fun k => (value, answers (turn, .send k)) := by
    rw [handedOver_append, handedOver_append, handedOver_sends, List.range_eq_range']
    exact List.append_nil _
  constructor
  · intro h
    by_cases hzero : answers (turn, .shutdown) = 0
    · obtain ⟨-, -, hall⟩ := h.reports hzero
      refine Or.inl fun i hi => hall (value, answers (turn, .send i)) ?_
      rw [hover]
      exact List.mem_map_of_mem (List.mem_range.mpr hi)
    · exact Or.inr hzero
  · intro h
    refine ⟨fun hzero => ⟨⟨socket, by simp⟩, ?_, fun x hx => ?_⟩, fun other => ?_⟩
    · rw [hover, List.length_map, List.length_range]
    · rw [hover] at hx
      obtain ⟨i, hi, rfl⟩ := List.mem_map.mp hx
      exact h.resolve_right (not_not_intro hzero) i (List.mem_range.mp hi)
    · rw [List.count_append, List.count_append, List.count_append, List.count_append,
        count_sends turn answers _ _ _ _ rfl, count_sends turn answers _ _ _ _ rfl]
      simp [List.count_singleton]

theorem sendLogEntry_lawful_iff (value : LogEntry) (repeats : Int) :
    Lawful repeats ((sendLogEntry turn value repeats).run answers []) ↔ FaultsShow turn answers repeats := by
  rw [run_sendLogEntry, FaultsShow]
  split_ifs with hsocket hconnect
  · exact iff_of_true (lawful_refused repeats) (Or.inl hsocket)
  · refine iff_of_false (not_lawful_unconnected repeats _) ?_
    rintro (h | h)
    · exact hsocket h
    · exact absurd h.1 (not_le.mpr hconnect)
  · rw [List.nil_append, lawful_connected_iff]
    refine ⟨fun h => Or.inr ⟨not_lt.mp hconnect, h⟩, fun h => (h.resolve_left hsocket).2⟩

end Run

/-- **Send errors show, and sockets are closed**, exactly when a socket that is opened is connected and a failed
`nn_send` is followed by a failed shutdown; so it is for `hostapd` too. -/
theorem sendLogEntry_faults_iff {τ : Type} (turn : τ) (answers : τ × NnCall → Int) (repeats : Int) :
    (∀ value : LogEntry, Lawful repeats ((sendLogEntry turn value repeats).run answers []) ↔
      FaultsShow turn answers repeats) ∧
    ∀ (deviceId : UInt32) (ssiSignal : Int32) (sa : Option Mac) (unset : Mac),
      Lawful repeats ((sendLogEntryC turn deviceId ssiSignal sa unset repeats).run answers []) ↔
        FaultsShow turn answers repeats :=
  ⟨fun value => sendLogEntry_lawful_iff turn answers value repeats,
    fun _ _ _ _ => sendLogEntry_lawful_iff turn answers _ repeats⟩

/-- An answer for each call: the second message is refused. -/
def refuseSecond : Unit × NnCall → Int
  | ((), .send i) => if i = 1 then -1 else sizeofLogEntry
  | _ => 0

/-- A message lost goes unreported. -/
theorem sendLogEntry_hides_fault : ¬∀ (answers : Unit × NnCall → Int) (value : LogEntry) (repeats : Int),
    Lawful repeats ((sendLogEntry () value repeats).run answers []) := by
  intro h
  have hlawful := h refuseSecond ⟨1, -50, sampleMac⟩ 2
  rw [sendLogEntry_lawful_iff] at hlawful
  rcases hlawful with hsocket | ⟨-, hall | hshutdown⟩
  · exact absurd hsocket (by decide)
  · exact absurd (hall 1 (by decide)) (by decide)
  · exact absurd hshutdown (by decide)

/-! ### The calls taken together -/

section Coarse

variable {τ : Type} (turn : τ) (answers : τ × NnCall → Int)

/-- The answers of a call of `sendLogEntry`, its opening of the socket in one. -/
def sendAnswers : SendAnswers where
  openSocketLog :=
    if answers (turn, .socket) < 0 ∨ answers (turn, .connect) < 0 then ERRCODE_NN_CONNECT else 0
  nnSend i := answers (turn, .send i)
  closeSocketLog := answers (turn, .shutdown)

/-- The messages that went out. -/
def delivered (s : List NnEvent) : List Bytes :=
  (handedOver s).filterMap fun x => if x.2 < 0 then none else some x.1

theorem delivered_connected (value : LogEntry) (repeats socket : Int) :
    delivered ([.opened socket] ++ sends turn answers socket (htonLogEntry value).bytes repeats.toNat 0 ++
        [.closed socket]) = (Wacs.sendLogEntrySocket (sendAnswers turn answers) value repeats).2 := by
  rw [delivered, handedOver_append, handedOver_append, handedOver_sends, ← List.range_eq_range',
    Wacs.sendLogEntrySocket]
  show ((([] : List (Bytes × Int)) ++ _) ++ []).filterMap _ = _
  rw [List.nil_append, List.append_nil, List.filterMap_map]
  rfl

/-- Result and messages are those of the summary. -/
theorem sendLogEntry_refines (value : LogEntry) (repeats : Int) :
    (((sendLogEntry turn value repeats).run answers []).1,
        delivered ((sendLogEntry turn value repeats).run answers []).2) =
      Wacs.sendLogEntry (sendAnswers turn answers) value repeats := by
  have hcode : ERRCODE_NN_CONNECT ≠ 0 := by decide
  rw [run_sendLogEntry, Wacs.sendLogEntry]
  by_cases hsocket : answers (turn, .socket) < 0
  · have hopen : (sendAnswers turn answers).openSocketLog = ERRCODE_NN_CONNECT := if_pos (Or.inl hsocket)
    rw [if_pos hsocket, hopen, if_pos hcode]
    rfl
  · by_cases hconnect : answers (turn, .connect) < 0
    · have hopen : (sendAnswers turn answers).openSocketLog = ERRCODE_NN_CONNECT := if_pos (Or.inr hconnect)
      rw [if_neg hsocket, if_pos hconnect, hopen, if_pos hcode]
      rfl
    · have hopen : (sendAnswers turn answers).openSocketLog = 0 := if_neg (not_or.mpr ⟨hsocket, hconnect⟩)
      rw [if_neg hsocket, if_neg hconnect, hopen, if_neg (not_not_intro rfl), List.nil_append, delivered_connected]
      rfl

end Coarse

end Wacs.Nn
