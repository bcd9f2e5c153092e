import Wacs.OrderedTxn

/-! Traces of handles: when nothing is done to a handle that has ended, and every handle begun is ended
once. Between two events the newest handle is live or spent, or the trace is broken for good. -/

def TxnEvent.handle : TxnEvent → Nat
  | begun h => h
  | used h => h
  | ended h => h

/-- Nothing is done to a handle once it has ended. -/
def NoneAfterEnd (t : List TxnEvent) : Prop :=
  t.Pairwise fun e e' => ∀ h, e = .ended h → e' ≠ .used h ∧ e' ≠ .ended h

/-- Nothing is done to a handle once it has ended, and every handle begun is ended exactly once. -/
structure Disciplined (t : List TxnEvent) : Prop where
  noneAfterEnd : NoneAfterEnd t
  endedOnce : ∀ h, .begun h ∈ t → t.count (.ended h) = 1

theorem NoneAfterEnd.of_isPrefix {t t' : List TxnEvent} (h : NoneAfterEnd t') (ht : t <+: t') : NoneAfterEnd t :=
  List.Pairwise.sublist ht.sublist h

theorem noneAfterEnd_concat (t : List TxnEvent) (e : TxnEvent) :
    NoneAfterEnd (t ++ [e]) ↔ NoneAfterEnd t ∧ ∀ h, .ended h ∈ t → e ≠ .used h ∧ e ≠ .ended h := by
  rw [NoneAfterEnd, List.pairwise_append]
  simp only [List.pairwise_singleton, true_and, List.mem_singleton, forall_eq]
  refine and_congr_right fun _ => ⟨fun h k hk => h _ hk k rfl, fun h e' he' k hk => ?_⟩
  exact h k (hk ▸ he')

theorem count_ended_concat (t : List TxnEvent) (e : TxnEvent) {h : Nat} (he : e ≠ .ended h) :
    (t ++ [e]).count (.ended h) = t.count (.ended h) := by
  rw [List.count_append, List.count_singleton, if_neg (by simpa using he), Nat.add_zero]

/-! ### The newest handle -/

/-- No handle of the trace is newer than `h`. -/
def UpTo (t : List TxnEvent) (h : Nat) : Prop := ∀ e ∈ t, e.handle ≤ h

theorem UpTo.concat {t : List TxnEvent} {h h' : Nat} (ht : UpTo t h) (hle : h ≤ h') {e : TxnEvent}
    (he : e.handle ≤ h') : UpTo (t ++ [e]) h' := by
  intro e' he'
  rw [List.mem_append, List.mem_singleton] at he'
  rcases he' with hmem | rfl
  · exact (ht e' hmem).trans hle
  · exact he

/-- No handle is live. -/
structure Settled (t : List TxnEvent) (h : Nat) : Prop where
  disciplined : Disciplined t
  upTo : UpTo t h

/-- No handle is live, and the newest has ended. -/
structure Spent (t : List TxnEvent) (h : Nat) : Prop extends Settled t h where
  ended : .ended h ∈ t

/-- The newest handle is live, and every other has ended. -/
structure Live (t : List TxnEvent) (h : Nat) : Prop where
  noneAfterEnd : NoneAfterEnd t
  others : ∀ k, .begun k ∈ t → k ≠ h → t.count (.ended k) = 1
  unended : .ended h ∉ t
  upTo : UpTo t h

section Steps

variable {t : List TxnEvent} {h : Nat}

theorem settled_nil (h : Nat) : Settled [] h :=
  ⟨⟨List.Pairwise.nil, fun _ hk => absurd hk List.not_mem_nil⟩, fun _ he => absurd he List.not_mem_nil⟩

theorem Settled.begin (ht : Settled t h) : Live (t ++ [.begun (h + 1)]) (h + 1) := by
  refine ⟨?_, fun k hk hne => ?_, fun hk => ?_, ht.upTo.concat (Nat.le_succ h) le_rfl⟩
  · rw [noneAfterEnd_concat]
    exact ⟨ht.disciplined.noneAfterEnd, fun k _ => ⟨nofun, nofun⟩⟩
  · rw [List.mem_append, List.mem_singleton] at hk
    rw [count_ended_concat t (.begun (h + 1)) nofun]
    exact ht.disciplined.endedOnce k (hk.resolve_right fun heq => hne (TxnEvent.begun.inj heq))
  · rw [List.mem_append, List.mem_singleton] at hk
    exact absurd (ht.upTo _ (hk.resolve_right nofun)) (Nat.not_succ_le_self h)

theorem Live.use (ht : Live t h) : Live (t ++ [.used h]) h := by
  refine ⟨?_, fun k hk hne => ?_, fun hk => ?_, ht.upTo.concat le_rfl le_rfl⟩
  · rw [noneAfterEnd_concat]
    exact ⟨ht.noneAfterEnd, fun k hk => ⟨fun heq => ht.unended (TxnEvent.used.inj heq ▸ hk), nofun⟩⟩
  · rw [List.mem_append, List.mem_singleton] at hk
    rw [count_ended_concat t (.used h) nofun]
    exact ht.others k (hk.resolve_right nofun) hne
  · rw [List.mem_append, List.mem_singleton] at hk
    exact ht.unended (hk.resolve_right nofun)

theorem Live.uses (ht : Live t h) (k : Nat) : Live (t ++ List.replicate k (.used h)) h := by
  induction k with
  | zero => rwa [List.replicate_zero, List.append_nil]
  | succ k ih =>
      rw [List.replicate_succ', ← List.append_assoc]
      exact ih.use

theorem Live.finish (ht : Live t h) : Spent (t ++ [.ended h]) h := by
  refine ⟨⟨⟨?_, fun k hk => ?_⟩, ht.upTo.concat le_rfl le_rfl⟩, List.mem_append_right _ List.mem_cons_self⟩
  · rw [noneAfterEnd_concat]
    exact ⟨ht.noneAfterEnd, fun k hk => ⟨nofun, fun heq => ht.unended (TxnEvent.ended.inj heq ▸ hk)⟩⟩
  · rw [List.mem_append, List.mem_singleton] at hk
    have hbegun := hk.resolve_right nofun
    by_cases heq : k = h
    · subst heq
      rw [List.count_append, List.count_singleton_self, List.count_eq_zero_of_not_mem ht.unended]
    · rw [count_ended_concat t (.ended h) fun he => heq (TxnEvent.ended.inj he).symm]
      exact ht.others k hbegun heq

theorem Spent.not_used (ht : Spent t h) : ¬NoneAfterEnd (t ++ [.used h]) := by
  rw [noneAfterEnd_concat]
  exact fun hnone => (hnone.2 h ht.ended).1 rfl

theorem Spent.not_ended (ht : Spent t h) : ¬NoneAfterEnd (t ++ [.ended h]) := by
  rw [noneAfterEnd_concat]
  exact fun hnone => (hnone.2 h ht.ended).2 rfl

end Steps

/-! ### What the operations of a store note -/

namespace TxnStore

variable {κ ν : Type} [LinearOrder κ] (s : TxnStore κ ν) (status absent : Int) (k : κ) (v : ν)

/-- The store with its history forgotten. -/
def restart : TxnStore κ ν := { s with trace := [] }

theorem begin_of_ne {status : Int} (h : status ≠ 0) : s.begin status = s := if_neg h

theorem put_noted : (s.put k v status).trace = s.trace ++ [.used s.handle] ∧
    (s.put k v status).handle = s.handle := by
  unfold put
  split_ifs <;> exact ⟨rfl, rfl⟩

theorem del_noted : (s.del absent k status).2.trace = s.trace ++ [.used s.handle] ∧
    (s.del absent k status).2.handle = s.handle := by
  unfold del
  split_ifs
  · split
    · exact ⟨rfl, rfl⟩
    · split_ifs <;> exact ⟨rfl, rfl⟩
  · exact ⟨rfl, rfl⟩

theorem begin_grows : s.trace <+: (s.begin status).trace := by
  unfold begin
  split_ifs
  · exact List.prefix_append _ _
  · exact List.prefix_rfl

end TxnStore

/-! ### Traces only grow -/

namespace OracleM

variable {κ ν ι α β : Type} [LinearOrder κ]

/-- A computation only adds to the trace. -/
def Grows (x : OracleM ι (TxnStore κ ν) α) : Prop := ∀ answers s, s.trace <+: (x.run answers s).2.trace

theorem grows_pure (a : α) : Grows (pure a : OracleM ι (TxnStore κ ν) α) := fun _ _ => List.prefix_rfl

theorem Grows.bind {x : OracleM ι (TxnStore κ ν) α} (hx : Grows x) {f : α → OracleM ι (TxnStore κ ν) β}
    (hf : ∀ a, Grows (f a)) : Grows (x >>= f) := by
  intro answers s
  rw [run_bind]
  exact (hx answers s).trans (hf _ answers _)

theorem Grows.ite {p : Prop} [Decidable p] {x y : OracleM ι (TxnStore κ ν) α} (hx : Grows x) (hy : Grows y) :
    Grows (if p then x else y) := by
  split_ifs
  · exact hx
  · exact hy

/-- What is broken stays broken. -/
theorem Grows.broken {x : OracleM ι (TxnStore κ ν) α} (hx : Grows x) (answers : ι → Int) {s : TxnStore κ ν}
    (hs : ¬NoneAfterEnd s.trace) : ¬NoneAfterEnd (x.run answers s).2.trace :=
  fun h => hs (h.of_isPrefix (hx answers s))

end OracleM
