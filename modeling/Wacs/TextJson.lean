import Mathlib.Data.List.TakeWhile
import Wacs.TextScan

/-! JSON texts as bytes: a parser for those whose numbers are whole and whose strings have no escapes, and how a text
put together from pieces is read back. -/

namespace TextJson

open TextNumeral

inductive Json where
  | num (n : Int)
  | str (s : List UInt8)
  | arr (elements : List Json)
  | obj (members : List (List UInt8 × Json))

/-! ### The parser -/

def isBlank (c : UInt8) : Bool := c == 32 || c == 9 || c == 10 || c == 13

/-- A byte taken off after blanks, when it is the next one. -/
def punct (c : UInt8) (s : List UInt8) : Option (List UInt8) :=
  match s.dropWhile isBlank with
  | [] => none
  | c' :: s => if c' = c then some s else none

/-- A printable byte of a string that stands for itself. -/
def isPlain (c : UInt8) : Bool := decide (32 ≤ c.toNat ∧ c.toNat ≤ 126) && c != 34 && c != 92

/-- A string after its opening quote. -/
def string (s : List UInt8) : Option (List UInt8 × List UInt8) :=
  match s.dropWhile isPlain with
  | [] => none
  | c :: rest => if c = 34 then some (s.takeWhile isPlain, rest) else none

/-- A minus sign taken off; true for one. -/
def takeMinus : List UInt8 → Bool × List UInt8
  | 45 :: s => (true, s)
  | s => (false, s)

/-- A number without leading zeros, fraction and exponent. -/
def number (s : List UInt8) : Option (Int × List UInt8) :=
  let (negative, s) := takeMinus s
  let digits := s.takeWhile (isDigit 10)
  let rest := s.dropWhile (isDigit 10)
  if digits = [] ∨ (digits.length ≠ 1 ∧ digits.head? = some 48) ∨
      rest.head?.any (fun c => c == 46 || c == 69 || c == 101) then none
  else some (if negative then -(digitsValue 10 digits : Int) else digitsValue 10 digits, rest)

mutual

/-- A value and what follows it; `n` bounds the depth and the number of elements. -/
def value : Nat → List UInt8 → Option (Json × List UInt8)
  | 0, _ => none
  | n + 1, s =>
      match punct 34 s, punct 91 s, punct 123 s with
      | some s, _, _ => (string s).map fun x => (.str x.1, x.2)
      | none, some s, _ =>
          match punct 93 s with
          | some s => some (.arr [], s)
          | none => (elements n s).map fun x => (.arr x.1, x.2)
      | none, none, some s =>
          match punct 125 s with
          | some s => some (.obj [], s)
          | none => (members n s).map fun x => (.obj x.1, x.2)
      | none, none, none => (number (s.dropWhile isBlank)).map fun x => (.num x.1, x.2)

/-- The elements of an array from one of them on, up to its end. -/
def elements : Nat → List UInt8 → Option (List Json × List UInt8)
  | 0, _ => none
  | n + 1, s => do
      let x ← value n s
      match punct 44 x.2 with
      | some s => (elements n s).map fun y => (x.1 :: y.1, y.2)
      | none => (punct 93 x.2).map fun s => ([x.1], s)

/-- The members of an object from one of them on, up to its end. -/
def members : Nat → List UInt8 → Option (List (List UInt8 × Json) × List UInt8)
  | 0, _ => none
  | n + 1, s => do
      let k ← (punct 34 s).bind string
      let x ← (punct 58 k.2).bind (value n)
      match punct 44 x.2 with
      | some s => (members n s).map fun y => ((k.1, x.1) :: y.1, y.2)
      | none => (punct 125 x.2).map fun s => ([(k.1, x.1)], s)

end

/-- The value of a whole text. -/
def parse (s : List UInt8) : Option Json :=
  (value s.length s).bind fun x => if x.2.dropWhile isBlank = [] then some x.1 else none

/-! ### Pieces read back -/

theorem punct_self {c : UInt8} (h : isBlank c = false) (s : List UInt8) : punct c (c :: s) = some s := by
  rw [punct, List.dropWhile_cons_of_neg (by simp [h])]
  exact if_pos rfl

theorem punct_of_ne {c c' : UInt8} (h : isBlank c' = false) (hne : c' ≠ c) (s : List UInt8) :
    punct c (c' :: s) = none := by
  rw [punct, List.dropWhile_cons_of_neg (by simp [h])]
  exact if_neg hne

theorem punct_blank {c c' : UInt8} (h : isBlank c' = true) (s : List UInt8) : punct c (c' :: s) = punct c s := by
  rw [punct, List.dropWhile_cons_of_pos h, ← punct]

theorem dropWhile_of_punct {c : UInt8} {s rest : List UInt8} (h : punct c s = some rest) :
    s.dropWhile isBlank = c :: rest := by
  unfold punct at h
  cases hs : s.dropWhile isBlank with
  | nil =>
      rw [hs] at h
      cases h
  | cons c' s' =>
      simp only [hs] at h
      split_ifs at h with hc
      rw [hc, Option.some.inj h]

/-- Two bytes are not both the next one. -/
theorem punct_eq_none_of_ne {c c' : UInt8} (hne : c ≠ c') {s rest : List UInt8} (h : punct c s = some rest) :
    punct c' s = none := by
  rw [punct, dropWhile_of_punct h]
  exact if_neg hne

theorem string_plain {k : List UInt8} (hk : ∀ c ∈ k, isPlain c = true) (rest : List UInt8) :
    string (k ++ 34 :: rest) = some (k, rest) := by
  obtain ⟨htake, hdrop⟩ := TextScan.span_run (p := isPlain) k (34 :: rest) hk fun c hc => by
    obtain rfl := Option.some.inj hc
    rfl
  rw [string, hdrop, htake]
  exact if_pos rfl

/-- What may follow a value: a blank, a comma or a closing bracket. -/
def EndsValue (rest : List UInt8) : Prop :=
  ∀ c ∈ rest.head?, isBlank c = true ∨ c = 44 ∨ c = 93 ∨ c = 125

/-- The text reads as a value, with fuel from `c` on. -/
def Reads (c : Nat) (t : List UInt8) (v : Json) : Prop :=
  ∀ n rest, EndsValue rest → value (n + c) (t ++ rest) = some (v, rest)

/-- The text reads as the elements of an array from one on, and the array's end. -/
def ReadsElements (c : Nat) (t : List UInt8) (vs : List Json) : Prop :=
  ∀ n rest, elements (n + c) (t ++ rest) = some (vs, rest)

/-- The text reads as the members of an object from one on, and the object's end. -/
def ReadsMembers (c : Nat) (t : List UInt8) (ms : List (List UInt8 × Json)) : Prop :=
  ∀ n rest, members (n + c) (t ++ rest) = some (ms, rest)

theorem Reads.mono {c c' : Nat} {t : List UInt8} {v : Json} (h : Reads c t v) (hle : c ≤ c') : Reads c' t v := by
  intro n rest hrest
  have hn : n + c' = n + (c' - c) + c := by omega
  rw [hn]
  exact h _ rest hrest

section Numbers

variable (k : Nat) {rest : List UInt8} (hrest : EndsValue rest)
include hrest

theorem endsValue_not_digit {c : UInt8} (hc : c ∈ rest.head?) :
    isDigit 10 c = false ∧ (c == 46 || c == 69 || c == 101) = false := by
  have hcases := hrest c hc
  simp only [isBlank, Bool.or_eq_true, beq_iff_eq] at hcases
  rcases hcases with (((rfl | rfl) | rfl) | rfl) | rfl | rfl | rfl
  all_goals decide

/-- The digits of a number are taken up to what follows. -/
theorem number_digits {negative : Bool} {s : List UInt8} (hs : takeMinus s = (negative, numeral 10 1 k ++ rest)) :
    number s = some (if negative then -(k : Int) else k, rest) := by
  obtain ⟨htake, hdrop⟩ := TextScan.span_run (p := isDigit 10) (numeral 10 1 k) rest
    (fun c hc => isDigit_of_mem_decimal hc) fun c hc => (endsValue_not_digit hrest hc).1
  have hfollow : rest.head?.any (fun c => c == 46 || c == 69 || c == 101) = false := by
    cases hhead : rest.head? with
    | none => rfl
    | some c => exact (endsValue_not_digit hrest hhead).2
  have hgood : ¬(numeral 10 1 k = [] ∨ ((numeral 10 1 k).length ≠ 1 ∧ (numeral 10 1 k).head? = some 48) ∨
      rest.head?.any (fun c => c == 46 || c == 69 || c == 101) = true) := by
    rintro (hnil | ⟨hlen, hzero⟩ | hbad)
    · exact numeral_ne_nil 10 k (by decide) hnil
    · exact numeral_head_ne_zero hlen hzero
    · exact Bool.false_ne_true (hfollow.symm.trans hbad)
  rw [number, hs]
  simp only [htake, hdrop]
  rw [if_neg hgood, digitsValue_decimal]

end Numbers

/-- A text that begins with a digit or a minus sign is no other value than a number. -/
theorem value_number (n : Nat) {c : UInt8} (hc : c = 45 ∨ isDigit 10 c = true) (s : List UInt8) :
    value (n + 1) (c :: s) = (number (c :: s)).map fun x => (.num x.1, x.2) := by
  have hrange : 45 ≤ c.toNat ∧ c.toNat ≤ 57 := by
    rcases hc with rfl | hc
    · decide
    · have := isDigit_decimal_range hc
      omega
  have hne : ∀ c' : UInt8, c'.toNat < 45 ∨ 57 < c'.toNat → c ≠ c' := by
    rintro c' hc' rfl
    omega
  have hblank : isBlank c = false := by
    simp only [isBlank, Bool.or_eq_false_iff, beq_eq_false_iff_ne]
    exact ⟨⟨⟨hne 32 (by decide), hne 9 (by decide)⟩, hne 10 (by decide)⟩, hne 13 (by decide)⟩
  rw [value, punct_of_ne hblank (hne 34 (by decide)), punct_of_ne hblank (hne 91 (by decide)),
    punct_of_ne hblank (hne 123 (by decide)), List.dropWhile_cons_of_neg (by simp [hblank])]

theorem reads_numeral (k : Nat) : Reads 1 (numeral 10 1 k) (.num k) := by
  intro n rest hrest
  cases htext : numeral 10 1 k with
  | nil => exact absurd htext (numeral_ne_nil 10 k (by decide))
  | cons c ds =>
      have hc : isDigit 10 c = true := isDigit_of_mem_decimal (htext ▸ List.mem_cons_self : c ∈ numeral 10 1 k)
      have hminus : takeMinus (c :: (ds ++ rest)) = (false, numeral 10 1 k ++ rest) := by
        rw [htext]
        unfold takeMinus
        split
        · rename_i heq
          obtain ⟨rfl, -⟩ := List.cons.inj heq
          exact absurd hc (by decide)
        · rfl
      rw [List.cons_append, value_number n (Or.inr hc), number_digits k hrest hminus]
      rfl

theorem reads_neg_numeral (k : Nat) : Reads 1 (45 :: numeral 10 1 k) (.num (-k)) := by
  intro n rest hrest
  have hminus : takeMinus (45 :: (numeral 10 1 k ++ rest)) = (true, numeral 10 1 k ++ rest) := rfl
  rw [List.cons_append, value_number n (Or.inl rfl), number_digits k hrest hminus]
  rfl

theorem reads_str {k : List UInt8} (hk : ∀ c ∈ k, isPlain c = true) : Reads 1 (34 :: k ++ [34]) (.str k) := by
  intro n rest hrest
  have htext : 34 :: k ++ [34] ++ rest = 34 :: (k ++ 34 :: rest) := by simp
  rw [htext, value, punct_self rfl]
  simp only [string_plain hk, Option.map_some]

/-! ### Arrays -/

section Elements

variable {c : Nat} {t text : List UInt8} {v : Json} {vs : List Json}

/-- The last element may be followed by a blank before the bracket. -/
theorem readsElements_last (h : Reads c t v) : ReadsElements (c + 1) (t ++ [32, 93]) [v] := by
  intro n rest
  have hv := h n (32 :: 93 :: rest) (by rintro x hx; obtain rfl := Option.some.inj hx; exact Or.inl rfl)
  rw [List.append_assoc, List.cons_append, List.cons_append, List.nil_append, ← Nat.add_assoc, elements, hv]
  rfl

theorem readsElements_cons (h : Reads c t v) (htext : ReadsElements c text vs) :
    ReadsElements (c + 1) (t ++ 44 :: text) (v :: vs) := by
  intro n rest
  have hv := h n (44 :: (text ++ rest)) (by rintro x hx; obtain rfl := Option.some.inj hx; exact Or.inr (Or.inl rfl))
  rw [List.append_assoc, List.cons_append, ← Nat.add_assoc, elements, hv]
  simp only [Option.bind_eq_bind, Option.bind_some, punct_self (c := 44) rfl, htext n rest, Option.map_some]

/-- A closing bracket is no element. -/
theorem punct_of_elements {n : Nat} {s : List UInt8} {x : List Json × List UInt8} (h : elements n s = some x) :
    punct 93 s = none := by
  by_contra hsome
  obtain ⟨rest, hrest⟩ := Option.ne_none_iff_exists'.mp hsome
  have hvalue : ∀ n, value n s = none := by
    intro n
    cases n with
    | zero => rfl
    | succ n =>
        rw [value, punct_eq_none_of_ne (c := 93) (by decide) hrest, punct_eq_none_of_ne (c := 93) (by decide) hrest,
          punct_eq_none_of_ne (c := 93) (by decide) hrest, dropWhile_of_punct hrest]
        rfl
  cases n with
  | zero => cases h
  | succ n =>
      rw [elements, hvalue] at h
      cases h

theorem reads_arr (htext : ReadsElements c text vs) : Reads (c + 1) (91 :: text) (.arr vs) := by
  intro n rest _
  have helements := htext n rest
  rw [List.cons_append, ← Nat.add_assoc, value, punct_of_ne (c := 34) rfl (by decide), punct_self rfl]
  simp only [punct_of_elements helements, helements, Option.map_some]

end Elements

/-! ### Objects -/

section Members

variable {c : Nat} {k t text : List UInt8} {v : Json} {ms : List (List UInt8 × Json)}

theorem readsMembers_last (hk : ∀ c ∈ k, isPlain c = true) (h : Reads c t v) :
    ReadsMembers (c + 1) (34 :: k ++ [34, 58] ++ t ++ [125]) [(k, v)] := by
  intro n rest
  have hv := h n (125 :: rest) (by
    intro x hx
    obtain rfl := Option.some.inj hx
    exact Or.inr (Or.inr (Or.inr rfl)))
  have htext : 34 :: k ++ [34, 58] ++ t ++ [125] ++ rest = 34 :: (k ++ 34 :: 58 :: (t ++ 125 :: rest)) := by simp
  rw [htext, ← Nat.add_assoc, members, punct_self rfl]
  simp only [Option.bind_eq_bind, Option.bind_some, string_plain hk, punct_self (c := 58) rfl, hv]
  rfl

theorem readsMembers_cons (hk : ∀ c ∈ k, isPlain c = true) (h : Reads c t v) (htext : ReadsMembers c text ms) :
    ReadsMembers (c + 1) (34 :: k ++ [34, 58] ++ t ++ 44 :: text) ((k, v) :: ms) := by
  intro n rest
  have hv := h n (44 :: (text ++ rest)) (by
    intro x hx
    obtain rfl := Option.some.inj hx
    exact Or.inr (Or.inl rfl))
  have hall : 34 :: k ++ [34, 58] ++ t ++ 44 :: text ++ rest =
      34 :: (k ++ 34 :: 58 :: (t ++ 44 :: (text ++ rest))) := by simp
  rw [hall, ← Nat.add_assoc, members, punct_self rfl]
  simp only [Option.bind_eq_bind, Option.bind_some, string_plain hk, punct_self (c := 58) rfl, hv,
    punct_self (c := 44) rfl, htext n rest, Option.map_some]

/-- A blank may stand before a member. -/
theorem readsMembers_blank (h : ReadsMembers c text ms) : ReadsMembers c (32 :: text) ms := by
  intro n rest
  have hmembers := h n rest
  cases hn : n + c with
  | zero =>
      rw [hn] at hmembers
      cases hmembers
  | succ m =>
      rw [hn, members] at hmembers
      rw [members, List.cons_append, punct_blank rfl]
      exact hmembers

/-- A closing brace is no member. -/
theorem punct_of_members {n : Nat} {s : List UInt8} {x : List (List UInt8 × Json) × List UInt8}
    (h : members n s = some x) : punct 125 s = none := by
  by_contra hsome
  obtain ⟨rest, hrest⟩ := Option.ne_none_iff_exists'.mp hsome
  cases n with
  | zero => cases h
  | succ n =>
      rw [members, punct_eq_none_of_ne (c := 125) (by decide) hrest] at h
      cases h

theorem reads_obj (htext : ReadsMembers c text ms) : Reads (c + 1) (123 :: text) (.obj ms) := by
  intro n rest _
  have hmembers := htext n rest
  rw [List.cons_append, ← Nat.add_assoc, value, punct_of_ne (c := 34) rfl (by decide),
    punct_of_ne (c := 91) rfl (by decide), punct_self rfl]
  simp only [punct_of_members hmembers, hmembers, Option.map_some]

end Members

/-- A text as long as the fuel it takes is the text of its value. -/
theorem parse_of_reads {c : Nat} {t : List UInt8} {v : Json} (h : Reads c t v) (hlen : c ≤ t.length) :
    parse t = some v := by
  have hv := h (t.length - c) [] fun x hx => by cases hx
  rw [List.append_nil, Nat.sub_add_cancel hlen] at hv
  rw [parse, hv]
  rfl

/-! ### Lists of pieces -/

section Lists

variable {α : Type} (f : α → List UInt8)

/-- The pieces of a list with commas between them, a blank, and the end of the array. -/
def listText : α → List α → List UInt8
  | a, [] => f a ++ [32, 93]
  | a, b :: as => f a ++ 44 :: listText b as

/-- Pieces each with a comma after it make such a list when the last comma gives way to a blank. -/
theorem flatMap_comma (a : α) (as : List α) :
    ∃ body, (a :: as).flatMap (fun a => f a ++ [44]) = body ++ [44] ∧ body ++ [32, 93] = listText f a as := by
  induction as generalizing a with
  | nil => exact ⟨f a, by simp, rfl⟩
  | cons b as ih =>
      obtain ⟨body, htext, hlist⟩ := ih b
      refine ⟨f a ++ 44 :: body, ?_, ?_⟩
      · rw [List.flatMap_cons, htext]
        simp
      · rw [listText, ← hlist]
        simp

variable {f} {c : Nat} {g : α → Json} (h : ∀ a, Reads c (f a) (g a))

include h in
theorem readsElements_listText (a : α) (as : List α) :
    ReadsElements (c + as.length + 1) (listText f a as) ((a :: as).map g) := by
  induction as generalizing a with
  | nil => exact readsElements_last (h a)
  | cons b as ih => exact readsElements_cons ((h a).mono (by omega)) (ih b)

theorem length_listText (hlen : ∀ a, c ≤ (f a).length) (a : α) (as : List α) :
    c + as.length + 1 ≤ (listText f a as).length := by
  induction as generalizing a with
  | nil =>
      have := hlen a
      simp only [listText, List.length_append, List.length_cons, List.length_nil]
      omega
  | cons b as ih =>
      have := ih b
      simp only [listText, List.length_append, List.length_cons]
      omega

include h in
/-- A list of pieces reads as the array of their values. -/
theorem parse_listText (hlen : ∀ a, c ≤ (f a).length) (a : α) (as : List α) :
    parse (91 :: listText f a as) = some (.arr ((a :: as).map g)) := by
  apply parse_of_reads (reads_arr (readsElements_listText h a as))
  rw [List.length_cons]
  exact Nat.succ_le_succ (length_listText hlen a as)

end Lists

end TextJson
