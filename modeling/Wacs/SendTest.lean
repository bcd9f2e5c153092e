import Wacs.MacFilter
import Wacs.SendFaults

/-! `wacsc test`: the messages handed to the network for a repeat count and a list of addresses. The count is the
bound of the loop in `sendTest` and of the loop in `sendLogEntrySocket`. -/

namespace Wacs.Nn

/-- The parameters of the command that `sendTest` reads. -/
structure WacscConfig where
  deviceId : UInt16
  ssiSignal : Int16
  mac : List Bytes
  repeats : Int

section Command

variable (config : WacscConfig) (interrupted : Nat × Nat → Bool)

/-- The inner loop on turn `i` of the outer one, from the address number `j` on: what `sendTest` returns at once,
or the last result. -/
def sendMacs (i : Nat) : Nat → List Bytes → Int → NnM (Nat × Nat) (Except Int Int)
  | _, [], r => return .ok r
  | j, it :: its, _ => do
      let macSize := (strtomacaddress it).1
      if macSize = 6 then
        let r ← sendLogEntry (i, j) ⟨config.deviceId, config.ssiSignal, (strtomacaddress it).2⟩ config.repeats
        if interrupted (i, j) then
          return .error 0
        sendMacs i (j + 1) its r
      else
        return .error ERRCODE_WRONG_PARAM

/-- The outer loop, `n` turns from turn `i` on. -/
def sendTurns : Nat → Nat → Int → NnM (Nat × Nat) Int
  | 0, _, r => return r
  | n + 1, i, r => do
      let sent ← sendMacs config interrupted i 0 config.mac r
      match sent with
      | .error r => return r
      | .ok r => sendTurns n (i + 1) r

/-- `unset` is what the result holds before the first call of `sendLogEntry`. -/
def sendTest (unset : Int) : NnM (Nat × Nat) Int := sendTurns config interrupted config.repeats.toNat 0 unset

end Command

/-! ### The messages of a run -/

/-- The message for an address. -/
def testMessage (config : WacscConfig) (m : Mac) : Bytes :=
  (htonLogEntry ⟨config.deviceId, config.ssiSignal, m⟩).bytes

def messages (s : List NnEvent) : List Bytes := (handedOver s).map Prod.fst

theorem messages_append (s s' : List NnEvent) : messages (s ++ s') = messages s ++ messages s' := by
  rw [messages, handedOver_append, List.map_append]
  rfl

/-- Sockets are opened and connected, messages sent and shutdowns made without an error. -/
structure Succeeds {τ : Type} (answers : τ × NnCall → Int) : Prop where
  socket : ∀ turn, 0 ≤ answers (turn, .socket)
  connect : ∀ turn, 0 ≤ answers (turn, .connect)
  send : ∀ turn i, 0 ≤ answers (turn, .send i)
  shutdown : ∀ turn, answers (turn, .shutdown) = 0

/-- The texts are well-formed addresses of six bytes, namely these. -/
def Addresses (texts : List Bytes) (macs : List Mac) : Prop :=
  List.Forall₂ (fun text m => MacList text m.val) texts macs

theorem strtomacaddress_address {text : Bytes} {m : Mac} (h : MacList text m.val) : strtomacaddress text = (6, m) := by
  obtain ⟨hcount, -, hbytes⟩ := strtomacaddress_macList h
  rw [m.property] at hcount hbytes
  refine Prod.ext hcount (Subtype.ext ?_)
  rwa [List.take_of_length_le (strtomacaddress text).2.property.le] at hbytes

section Run

variable {τ : Type} {answers : τ × NnCall → Int} (hanswers : Succeeds answers)
include hanswers

/-- One call of `sendLogEntry` sends its entry `repeats` times. -/
theorem run_sendLogEntry_succeeds (turn : τ) (value : LogEntry) (repeats : Int) (s : List NnEvent) :
    ((sendLogEntry turn value repeats).run answers s).1 = 0 ∧
      messages ((sendLogEntry turn value repeats).run answers s).2 =
        messages s ++ List.replicate repeats.toNat (htonLogEntry value).bytes := by
  have hsends : ∀ socket, messages (sends turn answers socket (htonLogEntry value).bytes repeats.toNat 0) =
      List.replicate repeats.toNat (htonLogEntry value).bytes := by
    intro socket
    rw [messages, handedOver_sends, List.map_map]
    calc (List.range' 0 repeats.toNat).map (fun _ => (htonLogEntry value).bytes)
        = List.replicate (List.range' 0 repeats.toNat).length (htonLogEntry value).bytes := List.map_const'
      _ = List.replicate repeats.toNat (htonLogEntry value).bytes := by rw [List.length_range']
  rw [run_sendLogEntry, if_neg (not_lt.mpr (hanswers.socket turn)), if_neg (not_lt.mpr (hanswers.connect turn))]
  refine ⟨hanswers.shutdown turn, ?_⟩
  rw [messages_append, messages_append, messages_append, hsends]
  show messages s ++ [] ++ _ ++ [] = _
  rw [List.append_nil, List.append_nil]

end Run

section Loops

variable {config : WacscConfig} {answers : (Nat × Nat) × NnCall → Int} (hanswers : Succeeds answers)
include hanswers

/-- A pass over the addresses sends `repeats` messages for each. -/
theorem run_sendMacs {texts : List Bytes} {macs : List Mac} (h : Addresses texts macs) (i j : Nat) (r : Int)
    (s : List NnEvent) : ∃ r' s', (sendMacs config (fun _ => false) i j texts r).run answers s = (.ok r', s') ∧
      messages s' = messages s ++ macs.flatMap fun m => List.replicate config.repeats.toNat (testMessage config m) := by
  induction h generalizing j r s with
  | nil => exact ⟨r, s, rfl, (List.append_nil _).symm⟩
  | @cons text m texts macs hm _ ih =>
      have hread := strtomacaddress_address hm
      have hcall := run_sendLogEntry_succeeds hanswers (i, j) ⟨config.deviceId, config.ssiSignal, m⟩ config.repeats s
      obtain ⟨r', s', hrun, hmessages⟩ := ih (j + 1) _
        ((sendLogEntry (i, j) ⟨config.deviceId, config.ssiSignal, m⟩ config.repeats).run answers s).2
      refine ⟨r', s', ?_, ?_⟩
      · rw [sendMacs, hread]
        simp only [if_true, OracleM.run_bind, Bool.false_eq_true, if_false]
        exact hrun
      · rw [hmessages, hcall.2, List.append_assoc]
        rfl

theorem run_sendTurns {macs : List Mac} (h : Addresses config.mac macs) (n i : Nat) (r : Int) (s : List NnEvent) :
    messages ((sendTurns config (fun _ => false) n i r).run answers s).2 = messages s ++
      (List.replicate n
        (macs.flatMap fun m => List.replicate config.repeats.toNat (testMessage config m))).flatten := by
  induction n generalizing i r s with
  | zero => exact (List.append_nil _).symm
  | succ n ih =>
      obtain ⟨r', s', hrun, hmessages⟩ := run_sendMacs hanswers h i 0 r s
      rw [sendTurns, OracleM.run_bind_of _ _ _ _ hrun, ih, hmessages, List.replicate_succ, List.flatten_cons,
        List.append_assoc]

end Loops

/-- `repeats` messages for each occurrence of an address, and no others, in some order. -/
def SendsAsked (config : WacscConfig) (macs : List Mac) (s : List NnEvent) : Prop :=
  (messages s).Perm (macs.flatMap fun m => List.replicate config.repeats.toNat (testMessage config m))

/-- Passes over the addresses send what one pass sends only if there is one of them. -/
theorem flatten_replicate_perm_iff {α : Type} (n : Nat) (l : List α) :
    (List.replicate n l).flatten.Perm l ↔ n = 1 ∨ l = [] := by
  constructor
  · intro h
    have hlen := h.length_eq
    rw [List.length_flatten, List.map_replicate, List.sum_replicate, smul_eq_mul] at hlen
    rcases Nat.eq_zero_or_pos l.length with hzero | hpos
    · exact Or.inr (List.eq_nil_of_length_eq_zero hzero)
    · exact Or.inl (Nat.eq_of_mul_eq_mul_right hpos (hlen.trans (Nat.one_mul _).symm))
  · rintro (rfl | rfl)
    · rw [List.replicate_one, List.flatten_singleton]
    · rw [List.flatten_replicate_nil]

/-- **The test command sends what it is asked to** for one repeat, or no address. -/
theorem sendTest_sendsAsked_iff (config : WacscConfig) (macs : List Mac) (unset : Int)
    (answers : (Nat × Nat) × NnCall → Int) (hrepeats : 1 ≤ config.repeats) (hmacs : Addresses config.mac macs)
    (hanswers : Succeeds answers) :
    SendsAsked config macs ((sendTest config (fun _ => false) unset).run answers []).2 ↔
      config.repeats = 1 ∨ macs = [] := by
  have hpos : config.repeats.toNat ≠ 0 := by omega
  have hone : config.repeats.toNat = 1 ↔ config.repeats = 1 := by omega
  rw [SendsAsked, sendTest, run_sendTurns hanswers hmacs]
  show (([] : List Bytes) ++ _).Perm _ ↔ _
  rw [List.nil_append, flatten_replicate_perm_iff, hone]
  refine or_congr_right ⟨fun h => ?_, fun h => by rw [h]; rfl⟩
  cases macs with
  | nil => rfl
  | cons m macs =>
      rw [List.flatMap_cons, List.append_eq_nil_iff, List.replicate_eq_nil_iff] at h
      exact absurd h.1 hpos

def allSent : (Nat × Nat) × NnCall → Int
  | (_, .send _) => sizeofLogEntry
  | _ => 0

theorem allSent_succeeds : Succeeds allSent :=
  ⟨fun _ => le_rfl, fun _ => le_rfl, fun _ _ => Int.natCast_nonneg _, fun _ => rfl⟩

/-- `wacsc test -d 1 -b "-50"` with one address. -/
def sampleTest (repeats : Int) : WacscConfig := ⟨1, -50, [mactostr sampleMac], repeats⟩

theorem sampleTest_addresses (repeats : Int) : Addresses (sampleTest repeats).mac [sampleMac] :=
  List.Forall₂.cons (macList_mactostr sampleMac) List.Forall₂.nil

theorem sendTest_once : SendsAsked (sampleTest 1) [sampleMac]
    ((sendTest (sampleTest 1) (fun _ => false) 0).run allSent []).2 :=
  (sendTest_sendsAsked_iff (sampleTest 1) [sampleMac] 0 allSent (by decide) (sampleTest_addresses 1)
    allSent_succeeds).mpr (Or.inl rfl)

/-- With `-n 2` an address gets four messages. -/
theorem sendTest_repeats_twice : ¬∀ (config : WacscConfig) (macs : List Mac) (unset : Int)
    (answers : (Nat × Nat) × NnCall → Int), 1 ≤ config.repeats → Addresses config.mac macs → Succeeds answers →
      SendsAsked config macs ((sendTest config (fun _ => false) unset).run answers []).2 := by
  intro h
  have hperm := (h (sampleTest 2) [sampleMac] 0 allSent (by decide) (sampleTest_addresses 2) allSent_succeeds).length_eq
  have hrun := run_sendTurns allSent_succeeds (sampleTest_addresses 2) 2 0 0 []
  have hfour := congrArg List.length hrun
  exact absurd (hfour.symm.trans hperm) (by decide)

end Wacs.Nn
