import Wacs.DumpMac
import Wacs.StoreRuns

/-! `wacsc notification-put`: the addresses are to be checked before any notification is put. -/

namespace Wacs

open OrderedCursor

namespace Wacsc

/-- The first loop of `notificationPut`; its `break` is under no condition. -/
def validMacs : List (Bytes × Memory) → Bool
  | [] => true
  | (text, _) :: _ => decide ((strtomacaddress text).1 = 6)

/-- The second loop over the texts left, `cnt` notifications put so far. -/
def notificationPutFrom (value : Bytes) : Int → Store → List (Bytes × Memory) → Int × Store
  | cnt, s, [] => (cnt, s)
  | cnt, s, (text, mem) :: mac =>
      if (strtomacaddress text).1 < 6 then notificationPutFrom value cnt s mac
      else
        let r := quietly (putNotification (strtomacaddress text).2 value mem.stray) s
        if r.1 ≠ 0 then r else notificationPutFrom value (cnt + 1) r.2 mac

/-- `value` is all of the input. -/
def notificationPut (value : Bytes) (s : Store) (mac : List (Bytes × Memory)) : Int × Store :=
  if validMacs mac = false then (ERRCODE_WRONG_PARAM, s)
  else if value.length = 0 then (ERRCODE_WRONG_PARAM, s)
  else notificationPutFrom value 0 s mac

end Wacsc

def WholeMac (x : Bytes × Memory) : Prop := (strtomacaddress x.1).1 = 6

instance : DecidablePred WholeMac := fun x => inferInstanceAs (Decidable ((strtomacaddress x.1).1 = 6))

def putStep (value : Bytes) (x : Bytes × Memory) : Step := (.putNotification (strtomacaddress x.1).2 value, x.2)

/-- Nothing is put when a text is no whole address, and otherwise one notification for each. -/
structure ChecksFirst (value : Bytes) (s : Store) (mac : List (Bytes × Memory)) : Prop where
  refused : (∃ x ∈ mac, ¬WholeMac x) → Wacsc.notificationPut value s mac = (ERRCODE_WRONG_PARAM, s)
  put : (∀ x ∈ mac, WholeMac x) →
    Wacsc.notificationPut value s mac = ((mac.length : Int), run s (mac.map (putStep value)))

theorem not_lt_six_iff (x : Bytes × Memory) : ¬(strtomacaddress x.1).1 < 6 ↔ WholeMac x := by
  have hle := (strtomacaddress_range x.1).2
  exact ⟨fun h => le_antisymm hle (not_lt.mp h), fun h => not_lt.mpr (le_of_eq (Eq.symm h))⟩

theorem notificationPut_head_not_whole (value : Bytes) {x : Bytes × Memory} (hx : ¬WholeMac x) (s : Store)
    (mac : List (Bytes × Memory)) : Wacsc.notificationPut value s (x :: mac) = (ERRCODE_WRONG_PARAM, s) :=
  if_pos (decide_eq_false hx)

section Put

variable {value : Bytes} (hvalue : value.length ≠ 0)
include hvalue

/-- The second loop puts a notification for each whole address and passes over the others. -/
theorem notificationPutFrom_eq (cnt : Int) (s : Store) (mac : List (Bytes × Memory)) :
    Wacsc.notificationPutFrom value cnt s mac =
      (cnt + (mac.filter WholeMac).length, run s ((mac.filter WholeMac).map (putStep value))) := by
  induction mac generalizing cnt s with
  | nil => simp [Wacsc.notificationPutFrom, run]
  | cons x mac ih =>
      obtain ⟨text, mem⟩ := x
      rw [Wacsc.notificationPutFrom]
      by_cases hx : WholeMac (text, mem)
      · have hstatus : (quietly (putNotification (strtomacaddress text).2 value mem.stray) s).1 = 0 := by
          rw [putNotification_quiet, if_pos hvalue]
        have hstep : (quietly (putNotification (strtomacaddress text).2 value mem.stray) s).2 =
            (perform s (putStep value (text, mem))).2 := rfl
        rw [if_neg ((not_lt_six_iff (text, mem)).mpr hx)]
        simp only [hstatus, ne_eq, not_true_eq_false, if_false]
        rw [ih, hstep, List.filter_cons_of_pos (by simpa using hx), List.length_cons, List.map_cons]
        refine Prod.ext ?_ rfl
        show cnt + 1 + ((mac.filter WholeMac).length : Int) = cnt + ((mac.filter WholeMac).length + 1 : Nat)
        omega
      · have hlt : (strtomacaddress text).1 < 6 := not_not.mp (mt (not_lt_six_iff (text, mem)).mp hx)
        rw [if_pos hlt, ih, List.filter_cons_of_neg (by simpa using hx)]

theorem notificationPut_head_whole {mac : List (Bytes × Memory)} (h : ∀ x ∈ mac.head?, WholeMac x) (s : Store) :
    Wacsc.notificationPut value s mac = Wacsc.notificationPutFrom value 0 s mac := by
  have hvalid : Wacsc.validMacs mac = true := by
    cases mac with
    | nil => rfl
    | cons x mac => exact decide_eq_true (h x rfl)
  rw [Wacsc.notificationPut, if_neg (by rw [hvalid]; decide), if_neg hvalue]

theorem checksFirst_of_value (s : Store) (mac : List (Bytes × Memory)) :
    ChecksFirst value s mac ↔ ((∀ x ∈ mac.head?, WholeMac x) → ∀ x ∈ mac, WholeMac x) := by
  constructor
  · intro h hhead
    by_contra hsome
    obtain ⟨x, hx⟩ := not_forall.mp hsome
    have hresult := h.refused ⟨x, Classical.not_imp.mp hx⟩
    rw [notificationPut_head_whole hvalue hhead, notificationPutFrom_eq hvalue] at hresult
    -- a count is not the error code
    have hcount : 0 + ((mac.filter WholeMac).length : Int) = -3 := congrArg Prod.fst hresult
    omega
  · intro h
    constructor
    · rintro ⟨x, hx, hno⟩
      have hhead : ¬∀ x ∈ mac.head?, WholeMac x := fun hhead => hno (h hhead x hx)
      cases mac with
      | nil => exact absurd hx List.not_mem_nil
      | cons y mac =>
          refine notificationPut_head_not_whole value (fun hy => hhead fun z hz => ?_) s mac
          rwa [← Option.some.inj hz]
    · intro hall
      have hfilter : mac.filter WholeMac = mac := List.filter_eq_self.mpr fun x hx => by simpa using hall x hx
      rw [notificationPut_head_whole hvalue (fun x hx => hall x (List.mem_of_mem_head? hx)),
        notificationPutFrom_eq hvalue, hfilter, Int.zero_add]

end Put

/-- A notification with a text is put for all the addresses or for none exactly when the first address is no
whole one or all of them are. -/
theorem checksFirst_iff (text : Text) (s : Store) (mac : List (Bytes × Memory)) :
    ChecksFirst text.val s mac ↔ ((∀ x ∈ mac.head?, WholeMac x) → ∀ x ∈ mac, WholeMac x) :=
  checksFirst_of_value text.property s mac

/-- The second address has one byte, and the first gets its notification all the same. -/
theorem notificationPut_half_applied : ¬∀ (text : Text) (s : Store) (mac : List (Bytes × Memory)),
    ChecksFirst text.val s mac := by
  intro h
  let mac : List (Bytes × Memory) := [(mactostr sampleMac, filledMemory 0), ([48, 50], filledMemory 0)]
  have hsome : ∃ x ∈ mac, ¬WholeMac x := ⟨_, List.mem_cons_of_mem _ List.mem_cons_self, by decide⟩
  have hresult := congrArg Prod.fst ((h ⟨sampleText, by decide⟩ .empty mac).refused hsome)
  exact absurd hresult (by decide)

end Wacs
