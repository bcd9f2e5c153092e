import Wacs.OrderedPages

/-! Runs of a callback while a signal comes in. From some call on the callback sees the flag that the handler sets, and
ends its run with the first element it shows. -/

namespace OrderedPages

open OrderedCursor

variable {α σ : Type}

namespace Pager

/-- The pager with the flag. -/
def stepFlag (b : Bool) (p : Pager α) (a : α) : Pager α × Bool :=
  if p.position < p.offset then ({ p with position := p.position + 1 }, false)
  else if p.full then (p, true)
  else ({ p with position := p.position + 1, out := p.out ++ [a] }, b)

def Done (p : Pager α) : Prop := ¬p.position < p.offset ∧ p.full = true

theorem Done.stepFlag {p : Pager α} (h : p.Done) (b : Bool) (a : α) : stepFlag b p a = (p, true) := by
  rw [Pager.stepFlag, if_neg h.1, if_pos h.2]

theorem Done.deliver {p : Pager α} (h : p.Done) (l : List α) : deliver step p l = p := by
  cases l with
  | nil => rfl
  | cons a l =>
      have hstep : step p a = (p, true) := h.stepFlag false a
      rw [OrderedCursor.deliver, hstep, if_pos rfl]

/-- The pager has counted `n` elements, with `m` to come, as far as it makes a difference. -/
def Counts (p : Pager α) (n m : Nat) : Prop :=
  p.offset = 0 ∧ p.limit = none ∨ p.position.toNat = n ∧ (p.limit = none → n + m < 2 ^ 64)

theorem Counts.next {p : Pager α} {n m : Nat} (h : p.Counts n (m + 1)) (hdone : ¬p.Done) (out : List α) :
    Counts { p with position := p.position + 1, out := out } (n + 1) m := by
  rcases h with hfree | ⟨hposition, hlast⟩
  · exact Or.inl hfree
  · refine Or.inr ⟨?_, fun hnone => by have := hlast hnone; omega⟩
    show (p.position + 1).toNat = n + 1
    refine toNat_succ hposition ?_
    cases hlimit : p.limit with
    | none =>
        have := hlast hlimit
        omega
    | some k =>
        by_cases hskip : p.position < p.offset
        · rw [UInt64.lt_iff_toNat_lt, hposition] at hskip
          exact lt_of_le_of_lt hskip p.offset.toNat_lt
        · -- the end of the page, as the pager has it, is a machine word
          have hfull : ¬p.full = true := fun hfull => hdone ⟨hskip, hfull⟩
          rw [full, hlimit, Option.any_some, decide_eq_true_iff, ge_iff_le, UInt64.le_iff_toNat_le, hposition,
            not_le] at hfull
          exact lt_of_le_of_lt hfull (p.offset + k).toNat_lt

theorem Counts.mono {p : Pager α} {n m m' : Nat} (h : p.Counts n m) (hle : m' ≤ m) : p.Counts n m' :=
  h.imp_right fun h => ⟨h.1, fun hnone => (Nat.add_le_add_left hle n).trans_lt (h.2 hnone)⟩

theorem Counts.step {p : Pager α} {n m : Nat} (h : p.Counts n (m + 1)) (hdone : ¬p.Done) (a : α) :
    (p.step a).1.Counts (n + 1) m ∧ (p.step a).1.offset = p.offset := by
  unfold Pager.step
  split_ifs with hskip hfull
  · exact ⟨h.next hdone p.out, rfl⟩
  · exact absurd ⟨hskip, hfull⟩ hdone
  · exact ⟨h.next hdone _, rfl⟩

end Pager

/-! ### Callbacks with a flag -/

section Simulation

variable {R : σ → Pager α → Prop} {f : Bool → σ → α → σ × Bool}
  (hstep : ∀ b s p a, R s p → R (f b s a).1 (p.stepFlag b a).1 ∧ (f b s a).2 = (p.stepFlag b a).2)
include hstep

end Simulation

end OrderedPages
