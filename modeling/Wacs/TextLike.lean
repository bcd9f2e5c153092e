import Mathlib.Data.List.Infix

/-! The `LIKE` operator of SQL over bytes of text: `%` stands for any run of bytes, `_` for one byte, and a
backslash takes the byte after it as it is. -/

namespace TextLike

def like : List UInt8 → List UInt8 → Bool
  | [], s => s.isEmpty
  | 37 :: p, s => s.tails.any (like p)
  | 95 :: p, s => s.tail?.any (like p)
  | 92 :: c :: p, s => decide (s.head? = some c) && like p s.tail
  | c :: p, s => decide (s.head? = some c) && like p s.tail

/-- A byte that stands for itself in a pattern. -/
def IsPlain (c : UInt8) : Prop := c ≠ 37 ∧ c ≠ 95 ∧ c ≠ 92

theorem like_cons {c : UInt8} (hc : IsPlain c) (p s : List UInt8) :
    like (c :: p) s = (decide (s.head? = some c) && like p s.tail) := by
  obtain ⟨hmany, hone, hescape⟩ := hc
  rw [like]
  · exact fun h => hmany h
  · exact fun h => hone h
  · exact fun _ _ h _ => hescape h

theorem like_cons_iff {c : UInt8} (hc : IsPlain c) (p s : List UInt8) :
    like (c :: p) s = true ↔ ∃ s', s = c :: s' ∧ like p s' = true := by
  rw [like_cons hc, Bool.and_eq_true, decide_eq_true_iff]
  refine ⟨fun ⟨hhead, hrest⟩ => ⟨s.tail, ?_, hrest⟩, fun ⟨s', hs, hrest⟩ => ?_⟩
  · exact List.eq_cons_of_mem_head? hhead
  · subst hs
    exact ⟨rfl, hrest⟩

/-- A pattern without wildcards is matched by itself only. -/
theorem like_plain {p : List UInt8} (hp : ∀ c ∈ p, IsPlain c) (s : List UInt8) : like p s = true ↔ s = p := by
  induction p generalizing s with
  | nil => exact List.isEmpty_iff
  | cons c p ih =>
      rw [like_cons_iff (hp c List.mem_cons_self)]
      simp only [ih fun x hx => hp x (List.mem_cons_of_mem _ hx), exists_eq_right]

theorem like_any (s : List UInt8) : like [37] s = true := by
  rw [like, List.any_eq_true]
  exact ⟨[], (List.mem_tails _ _).mpr List.nil_suffix, rfl⟩

/-- A pattern whose only wildcard is a `%` at its end is matched by what begins with the rest. -/
theorem like_prefix {p : List UInt8} (hp : ∀ c ∈ p, IsPlain c) (s : List UInt8) :
    like (p ++ [37]) s = true ↔ p <+: s := by
  induction p generalizing s with
  | nil => exact iff_of_true (like_any s) List.nil_prefix
  | cons c p ih =>
      rw [List.cons_append, like_cons_iff (hp c List.mem_cons_self)]
      simp only [ih fun x hx => hp x (List.mem_cons_of_mem _ hx)]
      refine ⟨fun ⟨s', hs, hrest⟩ => ?_, fun h => ?_⟩
      · subst hs
        exact (List.prefix_cons_inj c).mpr hrest
      · obtain ⟨rest, rfl⟩ := h
        exact ⟨p ++ rest, rfl, List.prefix_append p rest⟩

end TextLike
