import Wacs.OrderedCursor

/-! Pages of a listing that comes in several runs. A pager counts the elements that pass it in a machine word,
skips those before its offset, and asks to stop once it has handed on its limit. -/

namespace OrderedPages

open OrderedCursor

variable {α : Type}

/-- The slice of a list that a page is to show. -/
def page (offset n : Nat) (l : List α) : List α := (l.drop offset).take n

/-- An element within the page is added to it. -/
theorem page_concat_mem {offset n : Nat} {l : List α} (hlo : offset ≤ l.length) (hhi : l.length < offset + n) (a : α) :
    page offset n (l ++ [a]) = page offset n l ++ [a] := by
  have hlen : (l.drop offset).length < n := by
    rw [List.length_drop]
    omega
  rw [page, page, List.drop_append_of_le_length hlo, List.take_of_length_le hlen.le, List.take_of_length_le]
  rw [List.length_append, List.length_singleton]
  exact hlen

theorem page_append_of_length_le {offset n : Nat} {l : List α} (h : offset + n ≤ l.length) (l' : List α) :
    page offset n (l ++ l') = page offset n l := by
  rw [page, page, List.drop_append_of_le_length (by omega), List.take_append_of_le_length]
  rw [List.length_drop]
  omega

theorem page_of_length_le {offset : Nat} {l : List α} (h : l.length ≤ offset) (n : Nat) : page offset n l = [] := by
  rw [page, List.drop_of_length_le h, List.take_nil]

theorem page_map {β : Type} (f : α → β) (offset n : Nat) (l : List α) :
    page offset n (l.map f) = (page offset n l).map f := by
  rw [page, page, ← List.map_drop, ← List.map_take]

theorem mem_page_iff {offset n : Nat} {l : List α} {a : α} :
    a ∈ page offset n l ↔ ∃ i, offset ≤ i ∧ i < offset + n ∧ l[i]? = some a := by
  rw [page, List.mem_iff_getElem?]
  constructor
  · rintro ⟨i, hi⟩
    rw [List.getElem?_take] at hi
    split_ifs at hi with hlt
    rw [List.getElem?_drop] at hi
    exact ⟨offset + i, Nat.le_add_right _ _, Nat.add_lt_add_left hlt _, hi⟩
  · rintro ⟨i, hlo, hhi, hi⟩
    refine ⟨i - offset, ?_⟩
    rw [List.getElem?_take_of_lt (by omega), List.getElem?_drop, Nat.add_sub_cancel' hlo]
    exact hi

/-! ### Pages of a list that grows while it is read -/

/-- In a longer list an element stands no earlier. -/
theorem exists_getElem?_of_sublist {l l' : List α} (h : l.Sublist l') {i : Nat} {a : α} (hi : l[i]? = some a) :
    ∃ i', i ≤ i' ∧ l'[i']? = some a := by
  induction h generalizing i with
  | slnil => exact absurd hi (by simp)
  | cons b _ ih =>
      obtain ⟨i', hle, hi'⟩ := ih hi
      exact ⟨i' + 1, Nat.le_succ_of_le hle, hi'⟩
  | cons_cons b _ ih =>
      cases i with
      | zero => exact ⟨0, le_rfl, hi⟩
      | succ i =>
          obtain ⟨i', hle, hi'⟩ := ih hi
          exact ⟨i' + 1, Nat.succ_le_succ hle, hi'⟩

section Growing

variable {lists : Nat → List α} {n last : Nat} (hgrows : ∀ k < last, (lists k).Sublist (lists (k + 1)))
include hgrows

/-- An element of the first list is on a page already read, or comes after all of them. -/
theorem ahead_of_growing {a : α} (ha : a ∈ lists 0) {k : Nat} (hk : k ≤ last) :
    (∃ j < k, a ∈ page (j * n) n (lists j)) ∨ ∃ i, k * n ≤ i ∧ (lists k)[i]? = some a := by
  induction k with
  | zero =>
      obtain ⟨i, hi⟩ := List.mem_iff_getElem?.mp ha
      exact Or.inr ⟨i, by omega, hi⟩
  | succ k ih =>
      rcases ih (Nat.le_of_succ_le hk) with ⟨j, hj, hmem⟩ | ⟨i, hlo, hi⟩
      · exact Or.inl ⟨j, Nat.lt_succ_of_lt hj, hmem⟩
      · by_cases hhi : i < k * n + n
        · exact Or.inl ⟨k, Nat.lt_succ_self k, mem_page_iff.mpr ⟨i, hlo, hhi, hi⟩⟩
        · obtain ⟨i', hle, hi'⟩ := exists_getElem?_of_sublist (hgrows k hk) hi
          rw [Nat.succ_mul]
          exact Or.inr ⟨i', (not_lt.mp hhi).trans hle, hi'⟩

/-- A reader who goes from page to page until one comes back short has met every element that was there at the
start. -/
theorem exists_mem_page_of_growing (hlast : (page (last * n) n (lists last)).length < n) {a : α} (ha : a ∈ lists 0) :
    ∃ k ≤ last, a ∈ page (k * n) n (lists k) := by
  rcases ahead_of_growing hgrows (n := n) ha le_rfl with ⟨j, hj, hmem⟩ | ⟨i, hlo, hi⟩
  · exact ⟨j, hj.le, hmem⟩
  · have hlen := List.getElem?_eq_some_iff.mp hi |>.1
    rw [page, List.length_take, List.length_drop] at hlast
    exact ⟨last, le_rfl, mem_page_iff.mpr ⟨i, hlo, by omega, hi⟩⟩

end Growing

/-! ### The pager -/

/-- `limit` is `none` for no limit. -/
structure Pager (α : Type) where
  position : UInt64
  offset : UInt64
  limit : Option UInt64
  out : List α

namespace Pager

def start (offset : UInt64) (limit : Option UInt64) : Pager α := ⟨0, offset, limit, []⟩

/-- The limit is reached. -/
def full (p : Pager α) : Bool := p.limit.any fun n => decide (p.position ≥ p.offset + n)

def step (p : Pager α) (a : α) : Pager α × Bool :=
  if p.position < p.offset then ({ p with position := p.position + 1 }, false)
  else if p.full then (p, true)
  else ({ p with position := p.position + 1, out := p.out ++ [a] }, false)

/-- The runs of a listing, one after the other. -/
def pass (p : Pager α) (answers : List (List α)) : Pager α := answers.foldl (deliver step) p

theorem toNat_succ {i : UInt64} {n : Nat} (hi : i.toNat = n) (hn : n + 1 < 2 ^ 64) : (i + 1).toNat = n + 1 := by
  rw [UInt64.toNat_add, hi]
  exact Nat.mod_eq_of_lt hn

section Limited

variable {offset n : UInt64} (hbound : offset.toNat + n.toNat < 2 ^ 64)
include hbound

/-- The pager after so many elements: it has counted up to the end of its page, and holds the page. -/
def Holds (offset n : UInt64) (l : List α) (p : Pager α) : Prop :=
  p.position.toNat = min l.length (offset.toNat + n.toNat) ∧ p.offset = offset ∧ p.limit = some n ∧
    p.out = page offset.toNat n.toNat l

theorem toNat_end : (offset + n).toNat = offset.toNat + n.toNat := by
  rw [UInt64.toNat_add]
  exact Nat.mod_eq_of_lt hbound

theorem Holds.skip {l : List α} {p : Pager α} (h : Holds offset n l p) (hlen : l.length < offset.toNat) (a : α) :
    Holds offset n (l ++ [a]) { p with position := p.position + 1 } := by
  obtain ⟨hposition, hoffset, hlimit, hout⟩ := h
  have hnext : (l ++ [a]).length ≤ offset.toNat := by rwa [List.length_append, List.length_singleton]
  refine ⟨?_, hoffset, hlimit, ?_⟩
  · show (p.position + 1).toNat = _
    rw [toNat_succ hposition (by omega), List.length_append, List.length_singleton]
    omega
  · rw [page_of_length_le hnext]
    exact hout.trans (page_of_length_le hlen.le _)

theorem Holds.take {l : List α} {p : Pager α} (h : Holds offset n l p) (hlo : offset.toNat ≤ l.length)
    (hhi : l.length < offset.toNat + n.toNat) (a : α) :
    Holds offset n (l ++ [a]) { p with position := p.position + 1, out := p.out ++ [a] } := by
  obtain ⟨hposition, hoffset, hlimit, hout⟩ := h
  refine ⟨?_, hoffset, hlimit, ?_⟩
  · show (p.position + 1).toNat = _
    rw [toNat_succ hposition (by omega), List.length_append, List.length_singleton]
    omega
  · show p.out ++ [a] = _
    rw [hout, page_concat_mem hlo hhi]

theorem Holds.full_iff {l : List α} {p : Pager α} (h : Holds offset n l p) :
    p.full = true ↔ offset.toNat + n.toNat ≤ l.length := by
  obtain ⟨hposition, hoffset, hlimit, -⟩ := h
  rw [full, hlimit, Option.any_some, decide_eq_true_iff, ge_iff_le, UInt64.le_iff_toNat_le, hoffset,
    toNat_end hbound, hposition]
  omega

/-- A run keeps it: what comes before the page is skipped, what is within it is added, and once the page is full
the rest of the run is left out. -/
theorem Holds.deliver {l : List α} {p : Pager α} (h : Holds offset n l p) (l' : List α) :
    Holds offset n (l ++ l') (deliver step p l') := by
  induction l' generalizing l p with
  | nil => rwa [List.append_nil]
  | cons a l' ih =>
      have hskip : p.position < p.offset ↔ l.length < offset.toNat := by
        rw [UInt64.lt_iff_toNat_lt, h.1, h.2.1]
        omega
      have hcons : l ++ a :: l' = (l ++ [a]) ++ l' := by rw [List.append_assoc, List.singleton_append]
      unfold OrderedCursor.deliver
      by_cases hbefore : l.length < offset.toNat
      · have hstep : step p a = ({ p with position := p.position + 1 }, false) := if_pos (hskip.mpr hbefore)
        rw [hstep, hcons]
        exact ih (h.skip hbound hbefore a)
      · by_cases hafter : offset.toNat + n.toNat ≤ l.length
        · have hstep : step p a = (p, true) := by
            rw [step, if_neg (mt hskip.mp hbefore), if_pos ((h.full_iff hbound).mpr hafter)]
          obtain ⟨hposition, hoffset, hlimit, hout⟩ := h
          rw [hstep]
          refine ⟨?_, hoffset, hlimit, hout.trans (page_append_of_length_le hafter _).symm⟩
          show p.position.toNat = _
          rw [hposition, List.length_append]
          omega
        · have hstep : step p a = ({ p with position := p.position + 1, out := p.out ++ [a] }, false) := by
            rw [step, if_neg (mt hskip.mp hbefore), if_neg (mt (h.full_iff hbound).mp hafter)]
          rw [hstep, hcons]
          exact ih (h.take hbound (not_lt.mp hbefore) (not_le.mp hafter) a)

/-- A limited pager shows its page of all the runs together. -/
theorem pass_limited (answers : List (List α)) :
    ((start offset (some n)).pass answers).out = page offset.toNat n.toNat answers.flatten := by
  have hrun : ∀ (l : List α) (p : Pager α), Holds offset n l p →
      Holds offset n (l ++ answers.flatten) (p.pass answers) := by
    induction answers with
    | nil =>
        intro l p h
        rwa [List.flatten_nil, List.append_nil]
    | cons a answers ih =>
        intro l p h
        rw [List.flatten_cons, ← List.append_assoc]
        exact ih _ _ (h.deliver hbound a)
  have hstart : Holds offset n ([] : List α) (start offset (some n)) :=
    ⟨(Nat.zero_min _).symm, rfl, rfl, (page_of_length_le (Nat.zero_le _) _).symm⟩
  exact (hrun [] _ hstart).2.2.2

end Limited

section Wrapped

variable {offset n : UInt64} (hwrap : 2 ^ 64 ≤ offset.toNat + n.toNat)
include hwrap

/-- A pager whose page ends before it begins has not come past its offset, and has shown nothing. -/
def HoldsNothing (offset n : UInt64) (p : Pager α) : Prop :=
  p.position ≤ offset ∧ p.offset = offset ∧ p.limit = some n ∧ p.out = []

theorem HoldsNothing.step {p : Pager α} (h : HoldsNothing offset n p) (a : α) : HoldsNothing offset n (p.step a).1 := by
  obtain ⟨hposition, hoffset, hlimit, hout⟩ := h
  rw [UInt64.le_iff_toNat_le] at hposition
  have hend : (offset + n).toNat ≤ offset.toNat := by
    rw [UInt64.toNat_add]
    have hn := n.toNat_lt
    omega
  rw [Pager.step]
  by_cases hskip : p.position < p.offset
  · have hnext : (p.position + 1).toNat = p.position.toNat + 1 := by
      rw [hoffset, UInt64.lt_iff_toNat_lt] at hskip
      have hlt := offset.toNat_lt
      exact toNat_succ rfl (by omega)
    rw [if_pos hskip]
    refine ⟨?_, hoffset, hlimit, hout⟩
    rw [hoffset, UInt64.lt_iff_toNat_lt] at hskip
    rw [UInt64.le_iff_toNat_le, hnext]
    exact hskip
  · -- at the offset the end of the page is behind
    have hfull : p.full = true := by
      rw [hoffset, UInt64.lt_iff_toNat_lt, not_lt] at hskip
      rw [full, hlimit, Option.any_some, decide_eq_true_iff, ge_iff_le, UInt64.le_iff_toNat_le, hoffset]
      exact hend.trans hskip
    rw [if_neg hskip, if_pos hfull]
    exact ⟨UInt64.le_iff_toNat_le.mpr hposition, hoffset, hlimit, hout⟩

/-- When the end of its page wraps, a pager shows nothing. -/
theorem pass_wrapped (answers : List (List α)) : ((start offset (some n)).pass answers).out = [] := by
  have hrun : ∀ p : Pager α, HoldsNothing offset n p → HoldsNothing offset n (p.pass answers) := by
    induction answers with
    | nil => exact fun _ h => h
    | cons a answers ih => exact fun p h => ih _ (deliver_invariant (fun _ _ hp => hp.step hwrap _) h a)
  have hzero : (0 : UInt64) ≤ offset := UInt64.le_iff_toNat_le.mpr (Nat.zero_le _)
  exact (hrun _ ⟨hzero, rfl, rfl, rfl⟩).2.2.2

end Wrapped

/-- How many elements a limited pager shows. -/
theorem length_pass (offset n : UInt64) (answers : List (List α)) :
    ((start offset (some n)).pass answers).out.length =
      if offset.toNat + n.toNat < 2 ^ 64 then min n.toNat (answers.flatten.length - offset.toNat) else 0 := by
  split_ifs with hbound
  · rw [pass_limited hbound, page, List.length_take, List.length_drop]
  · rw [pass_wrapped (not_lt.mp hbound), List.length_nil]

section Unlimited

variable {offset : UInt64}

/-- Without a limit the count goes on, and wraps. -/
def HoldsAll (offset : UInt64) (l : List α) (p : Pager α) : Prop :=
  p.position = UInt64.ofNat l.length ∧ p.offset = offset ∧ p.limit = none ∧ p.out = l.drop offset.toNat

theorem HoldsAll.deliver {l : List α} {p : Pager α} (h : HoldsAll offset l p) (l' : List α)
    (hlen : (l ++ l').length ≤ 2 ^ 64 ∨ offset = 0) : HoldsAll offset (l ++ l') (deliver step p l') := by
  induction l' generalizing l p with
  | nil => rwa [List.append_nil]
  | cons a l' ih =>
      obtain ⟨hposition, hoffset, hlimit, hout⟩ := h
      have hcons : l ++ a :: l' = (l ++ [a]) ++ l' := by rw [List.append_assoc, List.singleton_append]
      have hnext : p.position + 1 = UInt64.ofNat (l ++ [a]).length := by
        rw [hposition, List.length_append, List.length_singleton, UInt64.ofNat_add]
        rfl
      have hskip : p.position < p.offset ↔ l.length < offset.toNat := by
        rw [UInt64.lt_iff_toNat_lt, hposition, hoffset, UInt64.toNat_ofNat']
        rcases hlen with hlen | rfl
        · rw [List.length_append, List.length_cons] at hlen
          rw [Nat.mod_eq_of_lt (by omega)]
        · exact iff_of_false (Nat.not_lt_zero _) (Nat.not_lt_zero _)
      rw [hcons] at hlen ⊢
      unfold OrderedCursor.deliver
      by_cases hbefore : l.length < offset.toNat
      · have hstep : step p a = ({ p with position := p.position + 1 }, false) := if_pos (hskip.mpr hbefore)
        rw [hstep]
        refine ih ⟨hnext, hoffset, hlimit, ?_⟩ hlen
        rw [List.drop_of_length_le (by rw [List.length_append, List.length_singleton]; omega)]
        exact hout.trans (List.drop_of_length_le hbefore.le)
      · have hnotfull : ¬p.full = true := by
          rw [full, hlimit]
          exact Bool.false_ne_true
        have hstep : step p a = ({ p with position := p.position + 1, out := p.out ++ [a] }, false) := by
          rw [step, if_neg (mt hskip.mp hbefore), if_neg hnotfull]
        rw [hstep]
        refine ih ⟨hnext, hoffset, hlimit, ?_⟩ hlen
        show p.out ++ [a] = _
        rw [hout, List.drop_append_of_le_length (not_lt.mp hbefore)]

theorem HoldsAll.pass {answers : List (List α)} {l : List α} {p : Pager α} (h : HoldsAll offset l p)
    (hlen : (l ++ answers.flatten).length ≤ 2 ^ 64 ∨ offset = 0) :
    HoldsAll offset (l ++ answers.flatten) (p.pass answers) := by
  induction answers generalizing l p with
  | nil => rwa [List.flatten_nil, List.append_nil]
  | cons a answers ih =>
      rw [List.flatten_cons, ← List.append_assoc] at hlen ⊢
      have hshorter : (l ++ a).length ≤ (l ++ a ++ answers.flatten).length :=
        (List.sublist_append_left _ _).length_le
      exact ih (h.deliver a (hlen.imp_left fun hle => hshorter.trans hle)) hlen

theorem holdsAll_start (offset : UInt64) : HoldsAll offset ([] : List α) (start offset none) :=
  ⟨rfl, rfl, rfl, List.drop_nil.symm⟩

/-- An unlimited pager shows everything from its offset on, unless the count wraps below the offset. -/
theorem pass_unlimited (answers : List (List α)) (hlen : answers.flatten.length ≤ 2 ^ 64 ∨ offset = 0) :
    ((start offset none).pass answers).out = answers.flatten.drop offset.toNat :=
  ((holdsAll_start offset).pass hlen).2.2.2

end Unlimited

/-! ### Callbacks that page -/

/-- Runs without an element leave a callback's state alone. -/
theorem foldl_deliver_of_nil {σ : Type} (callback : σ → α → σ × Bool) {answers : List (List α)}
    (h : ∀ l ∈ answers, l = []) (s : σ) : answers.foldl (OrderedCursor.deliver callback) s = s := by
  induction answers with
  | nil => rfl
  | cons l answers ih =>
      rw [List.foldl_cons, h l List.mem_cons_self]
      exact ih fun l' hl' => h l' (List.mem_cons_of_mem _ hl')

section Simulation

variable {σ : Type} {R : σ → Pager α → Prop} {callback : σ → α → σ × Bool}
  (hstep : ∀ {s p}, R s p → ∀ a, R (callback s a).1 (p.step a).1 ∧ (callback s a).2 = (p.step a).2)
include hstep

theorem simulates_deliver {s : σ} {p : Pager α} (h : R s p) (l : List α) :
    R (OrderedCursor.deliver callback s l) (OrderedCursor.deliver step p l) :=
  deliver_related (R := R) (fun _ _ a h => hstep h a) h l

/-- A callback that goes step by step with a pager does so over all the runs of a listing. -/
theorem simulates_pass {s : σ} {p : Pager α} (h : R s p) (answers : List (List α)) :
    R (answers.foldl (OrderedCursor.deliver callback) s) (p.pass answers) :=
  foldl_deliver_related (R := R) (fun _ _ a h => hstep h a) h answers

end Simulation

end Pager

end OrderedPages
