import Mathlib.Algebra.BigOperators.Group.List.Lemmas
import Wacs.OrderedMap

/-! Tallies: maps from keys to how often each was counted. -/

namespace OrderedMap

variable {κ : Type} [LinearOrder κ]

/-- One more of a key; a key that is not there counts from zero. -/
def count (m : OrderedMap κ Nat) (k : κ) : OrderedMap κ Nat := m.put k ((m.get k).getD 0 + 1)

/-- The tally of some keys. -/
def tally (ks : List κ) : OrderedMap κ Nat := ks.foldl count empty

theorem tally_concat (ks : List κ) (k : κ) : tally (ks ++ [k]) = (tally ks).count k := List.foldl_append

/-- The keys counted are there, each with its number. -/
theorem mem_tally (ks : List κ) (k : κ) (n : Nat) : (k, n) ∈ (tally ks).entries ↔ n = ks.count k ∧ k ∈ ks := by
  induction ks using List.reverseRecOn generalizing k n with
  | nil => simp [tally]
  | append_singleton ks k' ih =>
      have hget : ((tally ks).get k').getD 0 = ks.count k' := by
        by_cases hk : k' ∈ ks
        · rw [((tally ks).get_eq_some_iff k' _).mpr ((ih k' _).mpr ⟨rfl, hk⟩), Option.getD_some]
        · have hnone : (tally ks).get k' = none := by
            apply ((tally ks).get_eq_none_iff k').mpr
            rintro e he rfl
            exact hk ((ih e.1 e.2).mp he).2
          rw [hnone, Option.getD_none, List.count_eq_zero_of_not_mem hk]
      rw [tally_concat, count, mem_put, hget, List.count_append, List.count_singleton, List.mem_append,
        List.mem_singleton, ih, Prod.mk.injEq]
      by_cases hk : k = k'
      · subst hk
        simp
      · have hbeq : (k' == k) = false := beq_false_of_ne (Ne.symm hk)
        simp [hk, hbeq]

/-- The counts of a tally add up to the number of keys counted. -/
theorem sum_tally (ks : List κ) : ((tally ks).entries.map Prod.snd).sum = ks.length := by
  have hkeys : ((tally ks).entries.map Prod.fst).Perm ks.dedup := by
    apply (List.perm_ext_iff_of_nodup (tally ks).keys_nodup ks.nodup_dedup).mpr
    intro k
    rw [List.mem_dedup, List.mem_map]
    constructor
    · rintro ⟨e, he, rfl⟩
      exact ((mem_tally ks e.1 e.2).mp he).2
    · exact fun hk => ⟨(k, ks.count k), (mem_tally ks k _).mpr ⟨rfl, hk⟩, rfl⟩
  have hcounts : (tally ks).entries.map Prod.snd = ((tally ks).entries.map Prod.fst).map fun k => ks.count k := by
    rw [List.map_map]
    exact List.map_congr_left fun e he => ((mem_tally ks e.1 e.2).mp he).1
  calc ((tally ks).entries.map Prod.snd).sum
      = (((tally ks).entries.map Prod.fst).map fun k => ks.count k).sum := by rw [hcounts]
    _ = (ks.dedup.map fun k => ks.count k).sum := (hkeys.map _).sum_eq
    _ = ks.length := ks.sum_map_count_dedup_eq_length

end OrderedMap
