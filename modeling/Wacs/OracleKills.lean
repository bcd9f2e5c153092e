import Wacs.OrderedTxn

/-! A process may be killed between any two operations of a computation. What an observation of the state shows of a
killed run: nothing of it (`Still`), or nothing or all of it (`Atomic`). -/

namespace OracleM

variable {ι σ α β ω : Type}

/-- The state that a kill after so many operations leaves. -/
def killed (answers : ι → Int) : Nat → OracleM ι σ α → σ → σ
  | 0, _, s => s
  | _ + 1, done _, s => s
  | n + 1, op act next, s => killed answers n (next (act answers s).1) (act answers s).2

section Killed

variable (a : ι → Int) (n : Nat) (s : σ)

theorem killed_pure (r : α) : killed a n (pure r) s = s := by
  cases n <;> rfl

/-- A kill comes in the first part, or in the second one after the whole of the first. -/
theorem killed_bind (x : OracleM ι σ α) (f : α → OracleM ι σ β) :
    (∃ m, killed a n (x >>= f) s = killed a m x s) ∨
      ∃ m, killed a n (x >>= f) s = killed a m (f (x.run a s).1) (x.run a s).2 := by
  induction x generalizing n s with
  | done r => exact Or.inr ⟨n, rfl⟩
  | op act next ih =>
      cases n with
      | zero => exact Or.inl ⟨0, rfl⟩
      | succ n =>
          rcases ih (act a s).1 n (act a s).2 with ⟨m, hm⟩ | ⟨m, hm⟩
          · exact Or.inl ⟨m + 1, hm⟩
          · exact Or.inr ⟨m, hm⟩

/-- A kill that comes late enough finds the computation at its end. -/
theorem exists_killed_eq (x : OracleM ι σ α) : ∃ n, killed a n x s = (x.run a s).2 := by
  induction x generalizing s with
  | done r => exact ⟨0, rfl⟩
  | op act next ih =>
      obtain ⟨n, hn⟩ := ih (act a s).1 (act a s).2
      exact ⟨n + 1, hn⟩

end Killed

/-! ### What an observation shows of a killed run -/

section Observation

variable (obs : σ → ω) (a : ι → Int)

/-- Nothing is to be observed of the run, wherever it is killed. -/
def Still (x : OracleM ι σ α) (s : σ) : Prop := ∀ n, obs (killed a n x s) = obs s

/-- A killed run is observed not to have begun, or to have come to its end. -/
def Atomic (x : OracleM ι σ α) (s : σ) : Prop :=
  ∀ n, obs (killed a n x s) = obs s ∨ obs (killed a n x s) = obs (x.run a s).2

variable {obs a} {s : σ} {x : OracleM ι σ α} {f : α → OracleM ι σ β}

theorem still_pure (r : α) : Still obs a (pure r) s := fun n => congrArg obs (killed_pure a n s r)

theorem Still.atomic (h : Still obs a x s) : Atomic obs a x s := fun n => Or.inl (h n)

theorem Still.observed (h : Still obs a x s) : obs (x.run a s).2 = obs s := by
  obtain ⟨n, hn⟩ := exists_killed_eq a s x
  rw [← hn]
  exact h n

/-- One operation. -/
theorem atomic_op (act : (ι → Int) → σ → α × σ) : Atomic obs a (op act done) s := by
  intro n
  cases n with
  | zero => exact Or.inl rfl
  | succ n => exact Or.inr (congrArg obs (killed_pure a n _ _))

theorem still_op {act : (ι → Int) → σ → α × σ} (h : obs (act a s).2 = obs s) : Still obs a (op act done) s :=
  fun n => (atomic_op act n).elim id fun hn => hn.trans h

theorem Still.bind (hx : Still obs a x s) (hf : ∀ r s', x.run a s = (r, s') → Still obs a (f r) s') :
    Still obs a (x >>= f) s := by
  have hsecond := hf (x.run a s).1 (x.run a s).2 rfl
  intro n
  rcases killed_bind a n s x f with ⟨m, hm⟩ | ⟨m, hm⟩
  · rw [hm]
    exact hx m
  · rw [hm, hsecond m]
    exact hx.observed

/-- The change is in the second part. -/
theorem Still.bind_atomic (hx : Still obs a x s) (hf : ∀ r s', x.run a s = (r, s') → Atomic obs a (f r) s') :
    Atomic obs a (x >>= f) s := by
  have hsecond := hf (x.run a s).1 (x.run a s).2 rfl
  intro n
  rw [run_bind]
  rcases killed_bind a n s x f with ⟨m, hm⟩ | ⟨m, hm⟩
  · rw [hm]
    exact Or.inl (hx m)
  · rw [hm]
    exact (hsecond m).imp_left fun hm => hm.trans hx.observed

/-- The change is in the first part. -/
theorem Atomic.bind_still (hx : Atomic obs a x s) (hf : ∀ r s', x.run a s = (r, s') → Still obs a (f r) s') :
    Atomic obs a (x >>= f) s := by
  have hsecond := hf (x.run a s).1 (x.run a s).2 rfl
  intro n
  rw [run_bind, hsecond.observed]
  rcases killed_bind a n s x f with ⟨m, hm⟩ | ⟨m, hm⟩
  · rw [hm]
    exact hx m
  · rw [hm]
    exact Or.inr (hsecond m)

variable {p : Prop} [Decidable p] {y : OracleM ι σ α}

theorem Still.ite (hx : p → Still obs a x s) (hy : ¬p → Still obs a y s) : Still obs a (if p then x else y) s := by
  split_ifs with h
  · exact hx h
  · exact hy h

theorem Atomic.ite (hx : p → Atomic obs a x s) (hy : ¬p → Atomic obs a y s) :
    Atomic obs a (if p then x else y) s := by
  split_ifs with h
  · exact hx h
  · exact hy h

end Observation

end OracleM
