import Mathlib.Data.List.Lex
import Mathlib.Order.Basic
import Mathlib.Tactic

/-! Byte strings under the lexicographic order, a shorter prefix first, and numerals laid out as
bytes. Reversing the little-endian digits of two numbers turns the order of the numbers into the
order of the byte strings. -/

instance byteLinearOrder : LinearOrder UInt8 where
  le_refl := UInt8.le_refl
  le_trans _ _ _ := UInt8.le_trans
  lt_iff_le_not_ge a b := by
    simp only [UInt8.lt_iff_toNat_lt, UInt8.le_iff_toNat_le]
    omega
  le_antisymm _ _ := UInt8.le_antisymm
  le_total := UInt8.le_total
  toDecidableLE := inferInstance
  toDecidableLT := inferInstance
  toDecidableEq := inferInstance

instance wordLinearOrder : LinearOrder UInt32 where
  le_refl := UInt32.le_refl
  le_trans _ _ _ := UInt32.le_trans
  lt_iff_le_not_ge a b := by
    simp only [UInt32.lt_iff_toNat_lt, UInt32.le_iff_toNat_le]
    omega
  le_antisymm _ _ := UInt32.le_antisymm
  le_total := UInt32.le_total
  toDecidableLE := inferInstance
  toDecidableLT := inferInstance
  toDecidableEq := inferInstance

namespace OrderBytes

section Lex

variable {α : Type} [LinearOrder α]

theorem append_lt_append_iff {a a' : List α} (b b' : List α) (h : a.length = a'.length) :
    a ++ b < a' ++ b' ↔ a < a' ∨ (a = a' ∧ b < b') := by
  induction a generalizing a' with
  | nil =>
      cases a' with
      | nil => simp
      | cons x a' => simp at h
  | cons x a ih =>
      cases a' with
      | nil => simp at h
      | cons y a' =>
          have hlen : a.length = a'.length := by simpa using h
          simp only [List.cons_append, List.cons_lt_cons_iff, ih hlen, List.cons.injEq]
          tauto

theorem le_append (p s : List α) : p ≤ p ++ s := by
  induction p with
  | nil => exact not_lt.mp (List.not_lt_nil _)
  | cons x p ih => exact List.cons_le_cons x ih

/-- A byte string is at or after a prefix exactly when its own first bytes are. -/
theorem le_iff_le_take (p k : List α) : p ≤ k ↔ p ≤ k.take p.length := by
  rcases le_total p.length k.length with hlen | hlen
  · have hsplit : p ++ [] < k.take p.length ++ k.drop p.length ↔ _ :=
      append_lt_append_iff [] (k.drop p.length) (by simpa using hlen)
    rw [List.append_nil, List.take_append_drop] at hsplit
    refine ⟨fun h => ?_, fun h => ?_⟩
    · rcases h.lt_or_eq with hlt | heq
      · rcases hsplit.mp hlt with h' | h'
        · exact h'.le
        · exact h'.1.le
      · rw [← heq, List.take_length]
    · exact h.trans (by
        conv_rhs => rw [← List.take_append_drop p.length k]
        exact le_append _ _)
  · rw [List.take_of_length_le hlen]

theorem take_le_take {k k' : List α} (n : Nat) (h : k ≤ k') : k.take n ≤ k'.take n := by
  induction n generalizing k k' with
  | zero => simp
  | succ n ih =>
      cases k with
      | nil => exact not_lt.mp (List.not_lt_nil _)
      | cons x k =>
          cases k' with
          | nil => exact absurd h (not_le.mpr (List.nil_lt_cons _ _))
          | cons y k' =>
              rcases h.lt_or_eq with hlt | heq
              · rcases List.cons_lt_cons_iff.mp hlt with hxy | ⟨rfl, hkk⟩
                · exact (List.cons_lt_cons_iff.mpr (Or.inl hxy)).le
                · exact List.cons_le_cons x (ih hkk.le)
              · rw [heq]

/-- The strings that begin with a given one are contiguous. -/
theorem prefix_ordConnected (p : List α) : {k : List α | p <+: k}.OrdConnected := by
  refine ⟨fun k hk k' hk' x hx => ?_⟩
  have hlow := take_le_take p.length hx.1
  have hhigh := take_le_take p.length hx.2
  rw [← List.prefix_iff_eq_take.mp hk] at hlow
  rw [← List.prefix_iff_eq_take.mp hk'] at hhigh
  exact List.prefix_iff_eq_take.mpr (le_antisymm hlow hhigh)

theorem prefix_le {p k : List α} (h : p <+: k) : p ≤ k := by
  obtain ⟨s, rfl⟩ := h
  exact le_append p s

end Lex

/-- The `n` least significant base-256 digits, least significant first. -/
def leBytes : Nat → Nat → List UInt8
  | 0, _ => []
  | n + 1, v => UInt8.ofNat v :: leBytes n (v / 256)

/-- The number a little-endian byte string denotes. -/
def leNat : List UInt8 → Nat
  | [] => 0
  | b :: bs => b.toNat + 256 * leNat bs

@[simp] theorem leBytes_length (n v : Nat) : (leBytes n v).length = n := by
  induction n generalizing v with
  | zero => rfl
  | succ n ih => simp [leBytes, ih]

theorem leNat_leBytes (n v : Nat) : leNat (leBytes n v) = v % 256 ^ n := by
  induction n generalizing v with
  | zero => simp [leBytes, leNat, Nat.mod_one]
  | succ n ih =>
      rw [leBytes, leNat, ih, UInt8.toNat_ofNat', pow_succ' 256 n, Nat.mod_mul]

theorem leNat_lt (bs : List UInt8) : leNat bs < 256 ^ bs.length := by
  induction bs with
  | nil => simp [leNat]
  | cons b bs ih =>
      have hb : b.toNat < 256 := b.toNat_lt
      simp only [leNat, List.length_cons, pow_succ']
      omega

theorem leBytes_leNat (bs : List UInt8) : leBytes bs.length (leNat bs) = bs := by
  induction bs with
  | nil => rfl
  | cons b bs ih =>
      have hb : b.toNat < 256 := b.toNat_lt
      have hdiv : (b.toNat + 256 * leNat bs) / 256 = leNat bs := by omega
      have hmod : UInt8.ofNat (b.toNat + 256 * leNat bs) = b := by
        apply UInt8.toNat_inj.mp
        rw [UInt8.toNat_ofNat']
        omega
      simp only [List.length_cons, leNat, leBytes, hdiv, hmod, ih]

theorem leBytes_injective {n a b : Nat} (ha : a < 256 ^ n) (hb : b < 256 ^ n)
    (h : leBytes n a = leBytes n b) : a = b := by
  have hnat := congrArg leNat h
  rwa [leNat_leBytes, leNat_leBytes, Nat.mod_eq_of_lt ha, Nat.mod_eq_of_lt hb] at hnat

theorem leBytes_add (m n v : Nat) :
    leBytes (m + n) v = leBytes m v ++ leBytes n (v / 256 ^ m) := by
  induction m generalizing v with
  | zero => simp [leBytes]
  | succ m ih =>
      rw [Nat.succ_add, leBytes, leBytes, ih, List.cons_append, Nat.div_div_eq_div_mul, pow_succ']

/-- Big-endian numerals of one width sort as byte strings the way they sort as numbers. -/
theorem reverse_leBytes_lt_iff {n a b : Nat} (ha : a < 256 ^ n) (hb : b < 256 ^ n) :
    (leBytes n a).reverse < (leBytes n b).reverse ↔ a < b := by
  induction n generalizing a b with
  | zero =>
      simp only [pow_zero, Nat.lt_one_iff] at ha hb
      simp [leBytes, ha, hb]
  | succ n ih =>
      rw [pow_succ'] at ha hb
      have ha' : a / 256 < 256 ^ n := by omega
      have hb' : b / 256 < 256 ^ n := by omega
      have heq : (leBytes n (a / 256)).reverse = (leBytes n (b / 256)).reverse ↔ a / 256 = b / 256 :=
        ⟨fun h => leBytes_injective ha' hb' (List.reverse_injective h), fun h => by rw [h]⟩
      have hdigit : [UInt8.ofNat a] < [UInt8.ofNat b] ↔ a % 256 < b % 256 := by
        simp [List.cons_lt_cons_iff, UInt8.lt_iff_toNat_lt, UInt8.toNat_ofNat']
      simp only [leBytes, List.reverse_cons]
      rw [append_lt_append_iff _ _ (by simp), ih ha' hb', heq, hdigit]
      omega

end OrderBytes
