import Wacs.OrderedCursor

/-! Loop bodies whose accesses may fall outside the record they read. A loop over records is whole when every
body it runs is. -/

namespace OrderedCursor

variable {σ ε ι : Type}

/-- A body that may fail, over a list of records until it says stop. -/
def deliverChecked (body : σ → ε → Option (σ × Bool)) : σ → List ε → Option σ
  | s, [] => some s
  | s, e :: es => (body s e).bind fun r => if r.2 then some r.1 else deliverChecked body r.1 es

/-- The body says stop within the list. -/
def asks (body : σ → ε → σ × Bool) : σ → List ε → Bool
  | _, [] => false
  | s, e :: es => (body s e).2 || asks body (body s e).1 es

section Bodies

variable {body : σ → ε → Option (σ × Bool)} {unchecked : σ → ε → σ × Bool}

/-- Over records on which the body does not fail the loop goes as without checks, and on to what follows unless it has
been stopped. -/
theorem deliverChecked_append {es : List ε} (h : ∀ e ∈ es, ∀ s, body s e = some (unchecked s e)) (es' : List ε)
    (s : σ) :
    deliverChecked body s (es ++ es') =
      if asks unchecked s es then some (deliver unchecked s es)
      else deliverChecked body (deliver unchecked s es) es' := by
  induction es generalizing s with
  | nil => rfl
  | cons e es ih =>
      rw [List.cons_append, deliverChecked, h e List.mem_cons_self, Option.bind_some, asks, deliver]
      cases hstop : (unchecked s e).2 with
      | true => rfl
      | false =>
          rw [Bool.false_or]
          exact ih (fun x hx => h x (List.mem_cons_of_mem _ hx)) _

theorem deliverChecked_eq_of_forall {es : List ε} (h : ∀ e ∈ es, ∀ s, body s e = some (unchecked s e)) (s : σ) :
    deliverChecked body s es = some (deliver unchecked s es) := by
  have happend := deliverChecked_append h [] s
  rwa [List.append_nil, deliverChecked, ite_self] at happend

/-- A loop that is whole does what the loop without checks does. -/
theorem eq_deliver_of_deliverChecked (h : ∀ {s e r}, body s e = some r → r = unchecked s e) {es : List ε} {s t : σ}
    (ht : deliverChecked body s es = some t) : t = deliver unchecked s es := by
  induction es generalizing s with
  | nil => exact (Option.some.inj ht).symm
  | cons e es ih =>
      rw [deliverChecked] at ht
      obtain ⟨r, hr, hrest⟩ := Option.bind_eq_some_iff.mp ht
      obtain rfl := h hr
      rw [deliver]
      split_ifs at hrest ⊢
      · exact (Option.some.inj hrest).symm
      · exact ih hrest

end Bodies

theorem asks_of_mem {body : σ → ε → σ × Bool} {es : List ε} {e : ε} (he : e ∈ es) (hstop : ∀ s, (body s e).2 = true)
    (s : σ) : asks body s es = true := by
  induction es generalizing s with
  | nil => cases he
  | cons x es ih =>
      rw [asks, Bool.or_eq_true]
      rcases List.mem_cons.mp he with rfl | he
      · exact Or.inl (hstop s)
      · exact Or.inr (ih he _)

/-- When the tests stop nowhere it is up to what is done at the hits. -/
theorem asks_guarded {test : ε → Verdict} (visit : σ → ε → σ × Bool) {es : List ε} (h : ∀ e ∈ es, test e ≠ .stop)
    (s : σ) : asks (guarded test visit) s es = asks visit s (es.filter fun e => decide (test e = .hit)) := by
  induction es generalizing s with
  | nil => rfl
  | cons e es ih =>
      have ih' := fun s => ih (fun x hx => h x (List.mem_cons_of_mem _ hx)) s
      rw [asks, guarded]
      cases htest : test e with
      | skip =>
          rw [List.filter_cons_of_neg (by simp [htest])]
          exact ih' s
      | stop => exact absurd htest (h e List.mem_cons_self)
      | hit =>
          rw [List.filter_cons_of_pos (by simp [htest]), asks]
          exact congrArg _ (ih' _)

theorem asks_report (callback : σ → ι → σ × Bool) (read : ε → ι) (l : Listing σ ι) (es : List ε) :
    asks (report callback read) l es = asks callback l.env (es.map read) := by
  induction es generalizing l with
  | nil => rfl
  | cons e es ih =>
      rw [asks, ih, List.map_cons, asks]
      rfl

/-- A sorted list in two parts, the second of what a property holds of from some point on. -/
theorem filter_append_filter {p : ε → Bool} {es : List ε} (h : es.Pairwise fun a b => p a = true → p b = true) :
    es.filter (fun e => !p e) ++ es.filter p = es := by
  induction es with
  | nil => rfl
  | cons e es ih =>
      obtain ⟨hlater, hrest⟩ := List.pairwise_cons.mp h
      cases hp : p e with
      | false =>
          rw [List.filter_cons_of_pos (by simp [hp]), List.filter_cons_of_neg (by simp [hp]), List.cons_append,
            ih hrest]
      | true =>
          have hall : ∀ x ∈ es, p x = true := fun x hx => hlater x hx hp
          have hnone : es.filter (fun x => !p x) = [] := List.filter_eq_nil_iff.mpr fun x hx => by simp [hall x hx]
          rw [List.filter_cons_of_neg (by simp [hp]), List.filter_cons_of_pos hp, hnone, List.nil_append,
            List.filter_eq_self.mpr hall]

end OrderedCursor
