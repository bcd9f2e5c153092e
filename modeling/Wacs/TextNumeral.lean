import Mathlib.Data.Nat.Digits.Lemmas

/-! Numerals of a base up to sixteen as bytes of text: how a number is printed to a width, and the value of
the digits read back. -/

namespace TextNumeral

/-- The byte of a digit: `0` to `9`, then `a` to `f`. -/
def digitChar (d : Nat) : UInt8 := UInt8.ofNat (if d < 10 then 48 + d else 87 + d)

/-- The hexadecimal digit a byte stands for, in either case. -/
def hexDigit (c : UInt8) : Option Nat :=
  if 48 ≤ c.toNat ∧ c.toNat ≤ 57 then some (c.toNat - 48)
  else if 97 ≤ c.toNat ∧ c.toNat ≤ 102 then some (c.toNat - 87)
  else if 65 ≤ c.toNat ∧ c.toNat ≤ 70 then some (c.toNat - 55)
  else none

/-- The digit of base `b` a byte stands for. -/
def digitOf (b : Nat) (c : UInt8) : Option Nat := (hexDigit c).filter fun d => decide (d < b)

def isDigit (b : Nat) (c : UInt8) : Bool := (digitOf b c).isSome

/-- `v` with more digits after it. -/
def digitsFrom (b v : Nat) (cs : List UInt8) : Nat := cs.foldl (fun v c => b * v + (digitOf b c).getD 0) v

/-- The value of a run of digits. -/
def digitsValue (b : Nat) (cs : List UInt8) : Nat := digitsFrom b 0 cs

/-- `n` in base `b`, with zeros before it up to a width of `w`. -/
def numeral (b w n : Nat) : List UInt8 := ((Nat.digits b n).reverse.leftpad w 0).map digitChar

@[simp] theorem digitsFrom_nil (b v : Nat) : digitsFrom b v [] = v := rfl

@[simp] theorem digitsFrom_cons (b v : Nat) (c : UInt8) (cs : List UInt8) :
    digitsFrom b v (c :: cs) = digitsFrom b (b * v + (digitOf b c).getD 0) cs := rfl

/-- More digits make no smaller number. -/
theorem le_digitsFrom {b : Nat} (hb : 0 < b) (v : Nat) (cs : List UInt8) : v ≤ digitsFrom b v cs := by
  induction cs generalizing v with
  | nil => exact le_rfl
  | cons c cs ih =>
      calc v ≤ b * v := Nat.le_mul_of_pos_left v hb
        _ ≤ b * v + (digitOf b c).getD 0 := Nat.le_add_right _ _
        _ ≤ digitsFrom b v (c :: cs) := ih _

theorem hexDigit_digitChar {d : Nat} (hd : d < 16) : hexDigit (digitChar d) = some d := by
  interval_cases d <;> rfl

/-- A digit is a letter or a decimal digit. -/
theorem isDigit_range {b : Nat} {c : UInt8} (h : isDigit b c = true) : 48 ≤ c.toNat ∧ c.toNat ≤ 102 := by
  unfold isDigit digitOf hexDigit at h
  split_ifs at h with h1 h2 h3
  · omega
  · omega
  · omega
  · cases h

/-- A decimal digit. -/
theorem isDigit_decimal_range {c : UInt8} (h : isDigit 10 c = true) : 48 ≤ c.toNat ∧ c.toNat ≤ 57 := by
  unfold isDigit digitOf hexDigit at h
  split_ifs at h with h1 h2 h3
  · exact h1
  · simp only [Option.filter_some, decide_eq_true_eq] at h
    split_ifs at h with hlt
    · omega
    · cases h
  · simp only [Option.filter_some, decide_eq_true_eq] at h
    split_ifs at h with hlt
    · omega
    · cases h
  · cases h

theorem mem_leftpad_lt {b w n d : Nat} (hb : 1 < b) (h : d ∈ (Nat.digits b n).reverse.leftpad w 0) : d < b := by
  rw [List.leftpad, List.mem_append, List.mem_replicate, List.mem_reverse] at h
  rcases h with ⟨-, rfl⟩ | h
  · exact Nat.zero_lt_of_lt hb
  · exact Nat.digits_lt_base hb h

section Base

variable {b : Nat} (hb : b ≤ 16)
include hb

theorem digitOf_digitChar {d : Nat} (hd : d < b) : digitOf b (digitChar d) = some d := by
  rw [digitOf, hexDigit_digitChar (hd.trans_le hb), Option.filter_some, if_pos (by simpa using hd)]

/-- The digits of the list are read most significant first. -/
theorem digitsFrom_map (v : Nat) (ds : List Nat) (hds : ∀ d ∈ ds, d < b) :
    digitsFrom b v (ds.map digitChar) = Nat.ofDigits b ds.reverse + b ^ ds.length * v := by
  induction ds generalizing v with
  | nil => simp
  | cons d ds ih =>
      calc digitsFrom b v ((d :: ds).map digitChar)
          = digitsFrom b (b * v + d) (ds.map digitChar) := by
            rw [List.map_cons, digitsFrom_cons, digitOf_digitChar hb (hds d List.mem_cons_self), Option.getD_some]
        _ = Nat.ofDigits b ds.reverse + b ^ ds.length * (b * v + d) :=
            ih _ fun e he => hds e (List.mem_cons_of_mem _ he)
        _ = Nat.ofDigits b ds.reverse + b ^ ds.length * d + b ^ (ds.length + 1) * v := by ring
        _ = Nat.ofDigits b (d :: ds).reverse + b ^ (d :: ds).length * v := by
            rw [List.reverse_cons, Nat.ofDigits_append, Nat.ofDigits_singleton, List.length_reverse,
              List.length_cons]

variable (hb1 : 1 < b)
include hb1

theorem digitsValue_numeral (w n : Nat) : digitsValue b (numeral b w n) = n := by
  calc digitsValue b (numeral b w n)
      = Nat.ofDigits b ((Nat.digits b n).reverse.leftpad w 0).reverse := by
        rw [digitsValue, numeral, digitsFrom_map hb _ _ fun d => mem_leftpad_lt hb1, Nat.mul_zero, Nat.add_zero]
    _ = Nat.ofDigits b (Nat.digits b n) := by
        rw [List.leftpad, List.reverse_append, List.reverse_reverse, List.reverse_replicate,
          Nat.ofDigits_append_replicate_zero]
    _ = n := Nat.ofDigits_digits b n

theorem isDigit_of_mem_numeral {w n : Nat} {c : UInt8} (h : c ∈ numeral b w n) : isDigit b c = true := by
  obtain ⟨d, hd, rfl⟩ := List.mem_map.mp h
  rw [isDigit, digitOf_digitChar hb (mem_leftpad_lt hb1 hd), Option.isSome_some]

/-- The bytes of a numeral are neither blanks nor control bytes. -/
theorem numeral_range {w n : Nat} {c : UInt8} (h : c ∈ numeral b w n) : 48 ≤ c.toNat ∧ c.toNat ≤ 102 :=
  isDigit_range (isDigit_of_mem_numeral hb hb1 h)

end Base

/-! ### Decimal numerals -/

theorem digitsValue_decimal (w n : Nat) : digitsValue 10 (numeral 10 w n) = n :=
  digitsValue_numeral (by decide) (by decide) w n

theorem isDigit_of_mem_decimal {w n : Nat} {c : UInt8} (h : c ∈ numeral 10 w n) : isDigit 10 c = true :=
  isDigit_of_mem_numeral (by decide) (by decide) h

theorem decimal_range {w n : Nat} {c : UInt8} (h : c ∈ numeral 10 w n) : 48 ≤ c.toNat ∧ c.toNat ≤ 102 :=
  numeral_range (by decide) (by decide) h

/-! ### Widths -/

theorem numeral_length (b w n : Nat) : (numeral b w n).length = max w (Nat.digits b n).length := by
  rw [numeral, List.length_map, List.length_leftpad, List.length_reverse]

/-- A number that fits has the width. -/
theorem numeral_length_of_lt {b w n : Nat} (hb : 1 < b) (h : n < b ^ w) : (numeral b w n).length = w := by
  rw [numeral_length, max_eq_left ((Nat.digits_length_le_iff hb n).mpr h)]

theorem numeral_ne_nil (b n : Nat) {w : Nat} (hw : 0 < w) : numeral b w n ≠ [] := by
  intro h
  have hlen := numeral_length b w n
  rw [h, List.length_nil] at hlen
  omega

/-- A numeral of more than one digit does not begin with a zero. -/
theorem numeral_head_ne_zero {n : Nat} (h : (numeral 10 1 n).length ≠ 1) : (numeral 10 1 n).head? ≠ some 48 := by
  have hn : n ≠ 0 := by
    rintro rfl
    exact h rfl
  have hdigits : Nat.digits 10 n ≠ [] := Nat.digits_ne_nil_iff_ne_zero.mpr hn
  have hpad : (Nat.digits 10 n).reverse.leftpad 1 0 = (Nat.digits 10 n).reverse := by
    have hpos := List.length_pos_iff.mpr hdigits
    rw [List.leftpad, List.length_reverse, Nat.sub_eq_zero_of_le hpos, List.replicate_zero, List.nil_append]
  have hhead : (numeral 10 1 n).head? = some (digitChar ((Nat.digits 10 n).getLast hdigits)) := by
    rw [numeral, hpad, List.head?_map, List.head?_reverse, List.getLast?_eq_some_getLast hdigits, Option.map_some]
  intro hzero
  rw [hhead] at hzero
  have hlt : (Nat.digits 10 n).getLast hdigits < 16 :=
    (Nat.digits_lt_base (by decide) (List.getLast_mem hdigits)).trans (by decide)
  have hdigit := hexDigit_digitChar hlt
  rw [Option.some.inj hzero] at hdigit
  exact Nat.getLast_digit_ne_zero 10 hn (Option.some.inj hdigit).symm

end TextNumeral
