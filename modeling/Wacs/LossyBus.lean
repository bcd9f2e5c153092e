import Mathlib.Data.List.Perm.Basic

/-! A bus from senders to a receiver: a message sent is in flight until it is delivered or lost, in whatever order.
A bus makes no message up and delivers none twice. -/

/-- The messages in flight, and what has become of the others. -/
structure LossyBus (μ : Type) where
  sent : List μ
  inFlight : List μ
  delivered : List μ
  lost : List μ

namespace LossyBus

variable {μ : Type} (b : LossyBus μ)

def idle : LossyBus μ := ⟨[], [], [], []⟩

def send (messages : List μ) : LossyBus μ :=
  { b with sent := b.sent ++ messages, inFlight := b.inFlight ++ messages }

/-- The message at a place in flight is taken out of it, to be delivered. -/
def deliver (i : Nat) : Option μ × LossyBus μ :=
  match b.inFlight[i]? with
  | none => (none, b)
  | some message =>
      (some message, { b with inFlight := b.inFlight.eraseIdx i, delivered := b.delivered ++ [message] })

/-- The message at a place in flight is lost. -/
def lose (i : Nat) : LossyBus μ :=
  match b.inFlight[i]? with
  | none => b
  | some message => { b with inFlight := b.inFlight.eraseIdx i, lost := b.lost ++ [message] }

theorem deliver_some {i : Nat} {message : μ} {b' : LossyBus μ} (h : b.deliver i = (some message, b')) :
    b'.sent = b.sent ∧ b'.delivered = b.delivered ++ [message] := by
  unfold deliver at h
  cases hi : b.inFlight[i]? with
  | none =>
      rw [hi] at h
      cases h
  | some message' =>
      rw [hi] at h
      obtain ⟨hmessage, rfl⟩ := Prod.mk.inj h
      exact ⟨rfl, by rw [Option.some.inj hmessage]⟩

theorem deliver_none {i : Nat} {b' : LossyBus μ} (h : b.deliver i = (none, b')) : b' = b := by
  unfold deliver at h
  cases hi : b.inFlight[i]? with
  | none =>
      rw [hi] at h
      exact (Prod.mk.inj h).2.symm
  | some message =>
      rw [hi] at h
      cases h

@[simp] theorem lose_sent (i : Nat) : (b.lose i).sent = b.sent := by
  unfold lose
  cases b.inFlight[i]? <;> rfl

@[simp] theorem lose_delivered (i : Nat) : (b.lose i).delivered = b.delivered := by
  unfold lose
  cases b.inFlight[i]? <;> rfl

/-- Every message sent is accounted for once. -/
def Conserves : Prop := (b.delivered ++ b.lost ++ b.inFlight).Perm b.sent

theorem conserves_idle : (idle : LossyBus μ).Conserves := List.Perm.refl _

section Steps

variable {b} (h : b.Conserves)
include h

theorem Conserves.send (messages : List μ) : (b.send messages).Conserves := by
  have happend := h.append_right messages
  rwa [List.append_assoc] at happend

theorem Conserves.deliver (i : Nat) : (b.deliver i).2.Conserves := by
  unfold LossyBus.deliver
  cases hi : b.inFlight[i]? with
  | none => exact h
  | some message =>
      obtain ⟨hlt, rfl⟩ := List.getElem?_eq_some_iff.mp hi
      refine List.Perm.trans ?_ h
      show (b.delivered ++ [b.inFlight[i]] ++ b.lost ++ b.inFlight.eraseIdx i).Perm _
      rw [List.append_assoc, List.append_assoc, List.append_assoc, List.singleton_append]
      apply List.Perm.append_left
      exact List.perm_middle.symm.trans ((List.getElem_cons_eraseIdx_perm hlt).append_left b.lost)

theorem Conserves.lose (i : Nat) : (b.lose i).Conserves := by
  unfold LossyBus.lose
  cases hi : b.inFlight[i]? with
  | none => exact h
  | some message =>
      obtain ⟨hlt, rfl⟩ := List.getElem?_eq_some_iff.mp hi
      refine List.Perm.trans ?_ h
      show (b.delivered ++ (b.lost ++ [b.inFlight[i]]) ++ b.inFlight.eraseIdx i).Perm _
      rw [List.append_assoc, List.append_assoc, List.append_assoc]
      apply List.Perm.append_left
      exact (List.getElem_cons_eraseIdx_perm hlt).append_left b.lost

theorem Conserves.mem_sent {message : μ} (hmem : message ∈ b.delivered) : message ∈ b.sent :=
  h.subset (List.mem_append_left _ (List.mem_append_left _ hmem))

end Steps

end LossyBus
