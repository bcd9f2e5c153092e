import Wacs.OrderedMap

/-! Loops of a cursor over an ordered map: `do { body } while (next)`, where the body may leave the
loop and may edit the map behind the cursor. Such a loop is a run of the body over the records the
map held from the start position on; a loop that sorts its records into skipped, visited and final
ones is a run over the visited ones alone. -/

namespace OrderedMap

variable {κ ν : Type} [LinearOrder κ]

/-- The records at keys strictly after `k`. -/
def after (m : OrderedMap κ ν) (k : κ) : List (κ × ν) := m.entries.filter fun e => decide (k < e.1)

/-- The record at the least key strictly after `k`. -/
def next (m : OrderedMap κ ν) (k : κ) : Option (κ × ν) := (m.after k).head?

theorem after_of_after_eq_cons (m : OrderedMap κ ν) {k : κ} {e : κ × ν} {es : List (κ × ν)}
    (h : m.after k = e :: es) : m.after e.1 = es := by
  have hsorted : (m.after k).Pairwise fun a b => a.1 < b.1 := m.sorted.filter _
  have hk : k < e.1 := by
    have hmem : e ∈ m.after k := h ▸ List.mem_cons_self
    simpa using (List.mem_filter.mp hmem).2
  have htail : (m.after k).filter (fun x => decide (e.1 < x.1)) = m.after e.1 := by
    rw [after, List.filter_filter]
    refine List.filter_congr fun x _ => ?_
    by_cases hx : e.1 < x.1
    · simp [hx, hk.trans hx]
    · simp [hx]
  rw [h] at htail hsorted
  rw [← htail, List.filter_cons_of_neg (by simp), List.filter_eq_self]
  intro x hx
  simpa using (List.pairwise_cons.mp hsorted).1 x hx

theorem after_of_seek_eq_cons (m : OrderedMap κ ν) {k : κ} {e : κ × ν} {es : List (κ × ν)}
    (h : m.seek k = e :: es) : m.after e.1 = es := by
  have hsorted := m.seek_sorted k
  have hk : k ≤ e.1 := ((m.mem_seek k e).mp (h ▸ List.mem_cons_self)).2
  have htail : (m.seek k).filter (fun x => decide (e.1 < x.1)) = m.after e.1 := by
    refine m.filter_seek k _ fun x _ hx => ?_
    simpa using (hx.trans_le hk).le
  rw [h] at htail hsorted
  rw [← htail, List.filter_cons_of_neg (by simp), List.filter_eq_self]
  intro x hx
  simpa using (List.pairwise_cons.mp hsorted).1 x hx

theorem after_del (m : OrderedMap κ ν) (k : κ) : (m.del k).after k = m.after k := by
  rw [after, del, filter, List.filter_filter, after]
  refine List.filter_congr fun e _ => ?_
  by_cases h : k < e.1
  · simp [h, h.ne']
  · simp [h]

end OrderedMap

namespace OrderedCursor

variable {κ ν σ ε ι : Type} [LinearOrder κ]

/-- The loop of a cursor at record `e`: run the body, leave when it says so, else go on to the record
after `e` in the map as it then is. `fetch n` is whether the `n`-th advance succeeds. -/
def loop (fetch : Nat → Bool) (view : σ → OrderedMap κ ν) (body : σ → κ × ν → σ × Bool) :
    Nat → Nat → σ → κ × ν → σ
  | 0, _, s, _ => s
  | fuel + 1, n, s, e =>
      if (body s e).2 then (body s e).1
      else match (if fetch n then (view (body s e).1).next e.1 else none) with
        | none => (body s e).1
        | some e' => loop fetch view body fuel (n + 1) (body s e).1 e'

/-- The body over a list of records until it says stop. -/
def deliver (body : σ → ε → σ × Bool) : σ → List ε → σ
  | s, [] => s
  | s, e :: es => if (body s e).2 then (body s e).1 else deliver body (body s e).1 es

/-- What the body keeps, the loop keeps. -/
theorem deliver_invariant {body : σ → ε → σ × Bool} {P : σ → Prop} (hbody : ∀ s e, P s → P (body s e).1) {s : σ}
    (h : P s) (es : List ε) : P (deliver body s es) := by
  induction es generalizing s with
  | nil => exact h
  | cons e es ih =>
      rw [deliver]
      split_ifs
      · exact hbody s e h
      · exact ih (hbody s e h)

section Related

variable {τ : Type} {R : σ → τ → Prop} {f : σ → ε → σ × Bool} {g : τ → ε → τ × Bool}
  (hstep : ∀ s t e, R s t → R (f s e).1 (g t e).1 ∧ (f s e).2 = (g t e).2)
include hstep

/-- Bodies that go step by step do so over a list. -/
theorem deliver_related {s : σ} {t : τ} (h : R s t) (es : List ε) : R (deliver f s es) (deliver g t es) := by
  induction es generalizing s t with
  | nil => exact h
  | cons e es ih =>
      obtain ⟨hnext, hstop⟩ := hstep s t e h
      rw [deliver, deliver, hstop]
      split_ifs
      · exact hnext
      · exact ih hnext

theorem foldl_deliver_related {s : σ} {t : τ} (h : R s t) (runs : List (List ε)) :
    R (runs.foldl (deliver f) s) (runs.foldl (deliver g) t) := by
  induction runs generalizing s t with
  | nil => exact h
  | cons es runs ih => exact ih (deliver_related hstep h es)

end Related

/-- How many of the next `k` advances succeed, from the `n`-th on, before one fails. -/
def reach (fetch : Nat → Bool) : Nat → Nat → Nat
  | _, 0 => 0
  | n, k + 1 => if fetch n then reach fetch (n + 1) k + 1 else 0

theorem reach_of_always {fetch : Nat → Bool} (h : ∀ n, fetch n = true) (n k : Nat) : reach fetch n k = k := by
  induction k generalizing n with
  | zero => rfl
  | succ k ih => rw [reach, if_pos (h n), ih]

/-- A loop whose body leaves the records ahead of the cursor alone runs over them in order up to the first advance
that fails. -/
theorem loop_eq_deliver_take (fetch : Nat → Bool) (view : σ → OrderedMap κ ν) (body : σ → κ × ν → σ × Bool)
    (hahead : ∀ s e, (view (body s e).1).after e.1 = (view s).after e.1) (fuel n : Nat) (s : σ)
    (e : κ × ν) (hfuel : ((view s).after e.1).length < fuel) :
    loop fetch view body fuel n s e =
      deliver body s (e :: ((view s).after e.1).take (reach fetch n ((view s).after e.1).length)) := by
  induction fuel generalizing n s e with
  | zero => omega
  | succ fuel ih =>
      have hs := hahead s e
      rw [loop, deliver]
      by_cases hstop : (body s e).2 = true
      · rw [if_pos hstop, if_pos hstop]
      · rw [if_neg hstop, if_neg hstop, OrderedMap.next, hs]
        cases hes : (view s).after e.1 with
        | nil =>
            rw [List.take_nil, List.head?_nil, ite_self]
            rfl
        | cons e' es =>
            rw [hes] at hs hfuel
            have htail : (view (body s e).1).after e'.1 = es :=
              OrderedMap.after_of_after_eq_cons _ hs
            have hlen : ((view (body s e).1).after e'.1).length < fuel := by
              rw [htail]
              simpa using hfuel
            rw [List.length_cons, reach, List.head?_cons]
            cases hfetch : fetch n with
            | false => rfl
            | true =>
                simp only [if_true, List.take_succ_cons]
                rw [ih (n + 1) _ e' hlen, htail]

/-- A loop whose body leaves the records ahead of the cursor alone runs over them in order, whatever
it does to the records behind. -/
theorem loop_eq_deliver (view : σ → OrderedMap κ ν) (body : σ → κ × ν → σ × Bool)
    (hahead : ∀ s e, (view (body s e).1).after e.1 = (view s).after e.1) (fuel n : Nat) (s : σ)
    (e : κ × ν) (hfuel : ((view s).after e.1).length < fuel) :
    loop (fun _ => true) view body fuel n s e = deliver body s (e :: (view s).after e.1) := by
  rw [loop_eq_deliver_take _ view body hahead fuel n s e hfuel, reach_of_always fun _ => rfl, List.take_length]

/-- What the tests at the head of a loop body decide about a record. -/
inductive Verdict where
  | skip
  | stop
  | hit
  deriving DecidableEq

/-- A body that tests the record first and visits it only on a hit. -/
def guarded (test : ε → Verdict) (visit : σ → ε → σ × Bool) (s : σ) (e : ε) : σ × Bool :=
  match test e with
  | .skip => (s, false)
  | .stop => (s, true)
  | .hit => visit s e

/-- The hits before the first stop. -/
def visited (test : ε → Verdict) (es : List ε) : List ε :=
  (es.takeWhile fun e => decide (test e ≠ .stop)).filter fun e => decide (test e = .hit)

theorem visited_cons (test : ε → Verdict) (e : ε) (es : List ε) :
    visited test (e :: es) =
      match test e with
      | .skip => visited test es
      | .stop => []
      | .hit => e :: visited test es := by
  cases h : test e <;> simp [visited, h]

/-- A guarded loop is a loop over the records it visits. -/
theorem deliver_guarded (test : ε → Verdict) (visit : σ → ε → σ × Bool) (s : σ) (es : List ε) :
    deliver (guarded test visit) s es = deliver visit s (visited test es) := by
  induction es generalizing s with
  | nil => rfl
  | cons e es ih =>
      rw [deliver, guarded, visited_cons]
      cases test e with
      | skip => exact ih s
      | stop => rfl
      | hit =>
          rw [deliver]
          simp only [ih]

theorem visited_hit {test : ε → Verdict} {es : List ε} {e : ε} (h : e ∈ visited test es) :
    e ∈ es ∧ test e = .hit := by
  obtain ⟨htake, hhit⟩ := List.mem_filter.mp h
  exact ⟨(List.takeWhile_sublist _).subset htake, of_decide_eq_true hhit⟩

theorem visited_sublist (test : ε → Verdict) (es : List ε) : (visited test es).Sublist es :=
  List.filter_sublist.trans (List.takeWhile_sublist _)

/-- A part of the records from their beginning has its visited ones from the beginning of theirs. -/
theorem visited_mono (test : ε → Verdict) {es es' : List ε} (h : es <+: es') :
    visited test es <+: visited test es' := by
  obtain ⟨rest, rfl⟩ := h
  induction es with
  | nil => exact List.nil_prefix
  | cons e es ih =>
      rw [List.cons_append, visited_cons, visited_cons]
      cases test e with
      | skip => exact ih
      | stop => exact List.prefix_rfl
      | hit => exact (List.prefix_cons_inj e).mpr ih

/-- When the hits are exactly the selected records and no selected record follows a final one, the
records visited are the selected ones. -/
theorem visited_eq_filter (test : ε → Verdict) (p : ε → Bool) (es : List ε)
    (hhit : ∀ e ∈ es, test e = .hit ↔ p e = true)
    (hstop : es.Pairwise fun a b => test a = .stop → p b = false) : visited test es = es.filter p := by
  induction es with
  | nil => rfl
  | cons e es ih =>
      obtain ⟨hlater, hrest⟩ := List.pairwise_cons.mp hstop
      have ih' := ih (fun x hx => hhit x (List.mem_cons_of_mem _ hx)) hrest
      have he := hhit e List.mem_cons_self
      rw [visited_cons]
      cases htest : test e with
      | skip =>
          have hp : ¬p e = true := fun h => by simpa [htest] using he.mpr h
          rw [List.filter_cons_of_neg hp]
          exact ih'
      | stop =>
          have hp : ¬p e = true := fun h => by simpa [htest] using he.mpr h
          rw [List.filter_cons_of_neg hp, eq_comm, List.filter_eq_nil_iff]
          intro x hx
          simp [hlater x hx htest]
      | hit =>
          rw [List.filter_cons_of_pos (he.mp htest)]
          exact congrArg (e :: ·) ih'

/-- In key order, a record is visited when it is a hit and no record before it is final. -/
theorem mem_visited (test : κ × ν → Verdict) {es : List (κ × ν)}
    (hsorted : es.Pairwise fun a b => a.1 < b.1) (e : κ × ν) :
    e ∈ visited test es ↔ e ∈ es ∧ test e = .hit ∧ ∀ x ∈ es, x.1 < e.1 → test x ≠ .stop := by
  induction es with
  | nil => simp [visited]
  | cons x es ih =>
      obtain ⟨hx, htail⟩ := List.pairwise_cons.mp hsorted
      rw [visited_cons]
      cases htest : test x with
      | skip =>
          simp only [ih htail, List.mem_cons, forall_eq_or_imp, htest]
          constructor
          · rintro ⟨he, hhit, hno⟩
            exact ⟨Or.inr he, hhit, fun _ => by simp, hno⟩
          · rintro ⟨rfl | he, hhit, -, hno⟩
            · exact absurd (htest.symm.trans hhit) (by simp)
            · exact ⟨he, hhit, hno⟩
      | stop =>
          refine iff_of_false List.not_mem_nil ?_
          rintro ⟨he, hhit, hno⟩
          rcases List.mem_cons.mp he with rfl | he
          · exact absurd (htest.symm.trans hhit) (by simp)
          · exact hno x List.mem_cons_self (hx e he) htest
      | hit =>
          simp only [ih htail, List.mem_cons, forall_eq_or_imp, htest]
          constructor
          · rintro (rfl | ⟨he, hhit, hno⟩)
            · exact ⟨Or.inl rfl, htest, fun _ => by simp, fun y hy hlt => absurd (hx y hy) hlt.asymm⟩
            · exact ⟨Or.inr he, hhit, fun _ => by simp, hno⟩
          · rintro ⟨rfl | he, hhit, -, hno⟩
            · exact Or.inl rfl
            · exact Or.inr ⟨he, hhit, hno⟩

section HitsFrom

variable (m : OrderedMap κ ν) (k : κ) (test : κ × ν → Verdict)

/-- A hit at or after the key `k`, with no record from `k` on before it that is final. -/
def HitFrom (e : κ × ν) : Prop := k ≤ e.1 ∧ test e = .hit ∧ ∀ x ∈ m.entries, k ≤ x.1 → x.1 < e.1 → test x ≠ .stop

instance : DecidablePred (HitFrom m k test) := fun e =>
  inferInstanceAs (Decidable (k ≤ e.1 ∧ test e = .hit ∧ ∀ x ∈ m.entries, k ≤ x.1 → x.1 < e.1 → test x ≠ .stop))

def hitsFrom : List (κ × ν) := m.entries.filter fun e => decide (HitFrom m k test e)

theorem visited_seek : visited test (m.seek k) = hitsFrom m k test := by
  have hsorted := m.seek_sorted k
  apply OrderedMap.eq_of_mem (hsorted.sublist (visited_sublist _ _)) (m.sorted.filter _)
  intro e
  rw [mem_visited _ hsorted, List.mem_filter, decide_eq_true_iff, HitFrom]
  simp only [OrderedMap.mem_seek, and_assoc, and_imp]

end HitsFrom

/-- A caller's environment, and the items its callback has been given. -/
structure Listing (σ ι : Type) where
  env : σ
  calls : List ι

/-- Hands the item read from a record to the callback, which may ask to stop. -/
def report (callback : σ → ι → σ × Bool) (read : ε → ι) (l : Listing σ ι) (e : ε) :
    Listing σ ι × Bool :=
  let r := callback l.env (read e)
  (⟨r.1, l.calls ++ [read e]⟩, r.2)

/-- A list of items cut just after the first one at which the callback asks to stop. -/
def handed (callback : σ → ι → σ × Bool) : σ → List ι → List ι
  | _, [] => []
  | env, i :: is => i :: if (callback env i).2 then [] else handed callback (callback env i).1 is

theorem deliver_report_calls (callback : σ → ι → σ × Bool) (read : ε → ι) (l : Listing σ ι)
    (es : List ε) :
    (deliver (report callback read) l es).calls = l.calls ++ handed callback l.env (es.map read) := by
  induction es generalizing l with
  | nil => simp [deliver, handed]
  | cons e es ih =>
      rw [deliver, List.map_cons, handed]
      by_cases hstop : (callback l.env (read e)).2 = true
      · rw [if_pos (show (report callback read l e).2 = true from hstop), if_pos hstop]
        rfl
      · rw [if_neg (show ¬(report callback read l e).2 = true from hstop), if_neg hstop, ih]
        simp [report]

theorem deliver_report_env (callback : σ → ι → σ × Bool) (read : ε → ι) (l : Listing σ ι) (es : List ε) :
    (deliver (report callback read) l es).env = deliver callback l.env (es.map read) := by
  induction es generalizing l with
  | nil => rfl
  | cons e es ih =>
      rw [deliver, List.map_cons, deliver]
      by_cases hstop : (callback l.env (read e)).2 = true
      · rw [if_pos (show (report callback read l e).2 = true from hstop), if_pos hstop]
        rfl
      · rw [if_neg (show ¬(report callback read l e).2 = true from hstop), if_neg hstop, ih]
        rfl

theorem handed_of_never (callback : σ → ι → σ × Bool) (hnever : ∀ env i, (callback env i).2 = false)
    (env : σ) (is : List ι) : handed callback env is = is := by
  induction is generalizing env with
  | nil => rfl
  | cons i is ih => simp [handed, hnever, ih]

theorem handed_mono (callback : σ → ι → σ × Bool) (env : σ) {is is' : List ι} (h : is <+: is') :
    handed callback env is <+: handed callback env is' := by
  obtain ⟨rest, rfl⟩ := h
  induction is generalizing env with
  | nil => exact List.nil_prefix
  | cons i is ih =>
      rw [List.cons_append, handed, handed]
      apply (List.prefix_cons_inj i).mpr
      split_ifs
      · exact List.prefix_rfl
      · exact ih _

/-- Deletes the record under the cursor and counts it. -/
def remove (s : OrderedMap κ ν × Nat) (e : κ × ν) : (OrderedMap κ ν × Nat) × Bool :=
  ((s.1.del e.1, s.2 + 1), false)

theorem deliver_remove (m : OrderedMap κ ν) (n : Nat) (es : List (κ × ν)) :
    deliver remove (m, n) es =
      (m.filter fun e => decide (e.1 ∉ es.map Prod.fst), n + es.length) := by
  induction es generalizing m n with
  | nil =>
      have hall : m.filter (fun e => decide (e.1 ∉ ([] : List (κ × ν)).map Prod.fst)) = m :=
        OrderedMap.ext_mem fun e => by simp
      rw [hall]
      rfl
  | cons x es ih =>
      have hdel : (m.del x.1).filter (fun e => decide (e.1 ∉ es.map Prod.fst)) =
          m.filter fun e => decide (e.1 ∉ (x :: es).map Prod.fst) :=
        OrderedMap.ext_mem fun e => by
          simp only [OrderedMap.mem_filter, OrderedMap.mem_del, List.map_cons, List.mem_cons,
            decide_eq_true_eq]
          tauto
      simp only [deliver, remove, Bool.false_eq_true, if_false]
      rw [ih, hdel, List.length_cons, Nat.add_assoc, Nat.add_comm 1]

/-- Deleting what a cursor visits leaves the other records of the map. -/
theorem length_without_visited (m : OrderedMap κ ν) (test : κ × ν → Verdict) (k : κ) :
    (m.filter fun e => decide (e.1 ∉ (visited test (m.seek k)).map Prod.fst)).entries.length +
      (visited test (m.seek k)).length = m.entries.length :=
  m.length_filter_keys_not_mem ((visited_sublist test _).trans (m.seek_sublist k))

end OrderedCursor
