import Mathlib.Data.List.TakeWhile
import Wacs.TextNumeral

/-! Reading text the way the C and C++ libraries do in the "C" locale: `sscanf`, `strptime` and `strtol`
numbers, the extractions of a string stream, and lines. -/

namespace TextScan

open TextNumeral

/-- `isspace`. -/
def isSpace (c : UInt8) : Bool := decide (c.toNat = 32 ∨ 9 ≤ c.toNat ∧ c.toNat ≤ 13)

def skipSpace (s : List UInt8) : List UInt8 := s.dropWhile isSpace

/-- The C string of a text, up to its first zero byte. -/
def cString (s : List UInt8) : List UInt8 := s.takeWhile (· != 0)

/-- A minus sign or a plus sign taken off; true for a minus sign. -/
def takeSign : List UInt8 → Bool × List UInt8
  | 45 :: s => (true, s)
  | 43 :: s => (false, s)
  | s => (false, s)

/-- `0x` taken off. -/
def dropHexMark : List UInt8 → List UInt8
  | 48 :: 120 :: s => s
  | 48 :: 88 :: s => s
  | s => s

/-- The conversion `%x` of `sscanf` with a width: white space, which does not count, then a sign, `0x` and
digits, as far as they fit. It fails without a digit, after `0x` too, as in the C standard; glibc reads a bare `0x`
as 0. -/
def scanHex (width : Nat) (s : List UInt8) : Option (UInt32 × List UInt8) :=
  let s := skipSpace s
  let (negative, item) := takeSign (s.take width)
  let item := dropHexMark item
  let digits := item.takeWhile (isDigit 16)
  let v := UInt32.ofNat (digitsValue 16 digits)
  if digits = [] then none
  else some (if negative then -v else v, item.dropWhile (isDigit 16) ++ s.drop width)

/-- The further digits of a `strptime` number, `n` at most and no more once ten times the number is past
its limit. -/
def moreDigits (limit : Nat) : Nat → Nat → List UInt8 → Nat × List UInt8
  | 0, v, s => (v, s)
  | _ + 1, v, [] => (v, [])
  | n + 1, v, c :: s =>
      if 10 * v ≤ limit ∧ isDigit 10 c then moreDigits limit n (digitsFrom 10 v [c]) s else (v, c :: s)

/-- A number of `strptime`: white space, then `n` digits at most, for a value between two bounds. -/
def getNumber (lo hi n : Nat) (s : List UInt8) : Option (Nat × List UInt8) :=
  match skipSpace s with
  | [] => none
  | c :: s =>
      if isDigit 10 c then
        let (v, s) := moreDigits hi (n - 1) (digitsValue 10 [c]) s
        if v < lo ∨ hi < v then none else some (v, s)
      else none

/-- A byte of a `strptime` format that stands for itself. -/
def matchChar (c : UInt8) : List UInt8 → Option (List UInt8)
  | [] => none
  | c' :: s => if c' = c then some s else none

/-- `strtol` with base 0 and a 64-bit result, which saturates. -/
def strtol (s : List UInt8) : Int :=
  let (negative, s) := takeSign (skipSpace s)
  let marked := dropHexMark s
  let (b, s) := if marked ≠ s ∧ (marked.head?.any (isDigit 16)) then (16, marked)
    else if s.head? = some 48 then (8, s) else (10, s)
  let v : Int := digitsValue b (s.takeWhile (isDigit b))
  max (-2 ^ 63) (min (if negative then -v else v) (2 ^ 63 - 1))

/-- `strtol` with base 10 and a 64-bit result, which saturates. -/
def strtol10 (s : List UInt8) : Int :=
  let (negative, s) := takeSign (skipSpace s)
  let v : Int := digitsValue 10 (s.takeWhile (isDigit 10))
  max (-2 ^ 63) (min (if negative then -v else v) (2 ^ 63 - 1))

/-- `getline`: the bytes up to a newline, which is taken off too; it fails at the end of the text. -/
def getline : List UInt8 → Option (List UInt8 × List UInt8)
  | [] => none
  | c :: s => some ((c :: s).takeWhile (· != 10), ((c :: s).dropWhile (· != 10)).tail)

/-! ### String streams -/

/-- What is left of a stream, and that no extraction has failed. -/
structure IStream where
  rest : List UInt8
  good : Bool

namespace IStream

/-- A formatted extraction into a variable that holds `old`. It skips white space; at the end of the
stream, or on a stream that has failed, it leaves the variable as it is. -/
def extract {α : Type} (scan : List UInt8 → α × Bool × List UInt8) (old : α) (s : IStream) : α × IStream :=
  if s.good then
    match skipSpace s.rest with
    | [] => (old, ⟨[], false⟩)
    | c :: rest =>
        let (x, ok, rest) := scan (c :: rest)
        (x, ⟨rest, ok⟩)
  else (old, s)

/-- Extraction of a `std::string`: the bytes up to white space. -/
def word : List UInt8 → IStream → List UInt8 × IStream :=
  extract fun s => (s.takeWhile (!isSpace ·), true, s.dropWhile (!isSpace ·))

/-- Extraction of a `uint16_t`, an unsigned decimal number: zero without a digit, the largest value when
it is too large, modulo the type after a minus sign. -/
def uint16 : UInt16 → IStream → UInt16 × IStream :=
  extract fun s =>
    let (negative, s) := takeSign s
    let digits := s.takeWhile (isDigit 10)
    let v := digitsValue 10 digits
    if digits = [] then (0, false, s)
    else if 2 ^ 16 ≤ v then (65535, false, s.dropWhile (isDigit 10))
    else (if negative then -UInt16.ofNat v else UInt16.ofNat v, true, s.dropWhile (isDigit 10))

/-- Extraction of an `int8_t`, which is a `signed char`: one byte. -/
def int8 : Int8 → IStream → Int8 × IStream :=
  extract fun s => ((s.headD 0).toInt8, true, s.tail)

end IStream

/-! ### What a field of text reads back as -/

theorem isSpace_eq_false_of_lt {c : UInt8} (h : 32 < c.toNat) : isSpace c = false := by
  rw [isSpace, decide_eq_false_iff_not]
  omega

theorem isSpace_of_isDigit {b : Nat} {c : UInt8} (h : isDigit b c = true) : isSpace c = false :=
  isSpace_eq_false_of_lt (by have := isDigit_range h; omega)

/-- A text without a zero byte is a C string as it is. -/
theorem cString_of_not_mem {s : List UInt8} (h : 0 ∉ s) : cString s = s :=
  List.takeWhile_eq_self_iff.mpr fun _ hc => bne_iff_ne.mpr fun heq => h (heq ▸ hc)

theorem cString_of_graph {s : List UInt8} (h : ∀ c ∈ s, 32 < c.toNat) : cString s = s :=
  cString_of_not_mem fun hzero => absurd (h 0 hzero) (by decide)

theorem cString_append_of_mem {p : List UInt8} (q : List UInt8) (h : 0 ∈ p) : cString (p ++ q) = cString p := by
  obtain ⟨a, b, hp, ha⟩ := List.eq_append_cons_of_mem h
  have hrun : ∀ c ∈ a, (c != 0) = true := fun c hc => bne_iff_ne.mpr fun heq => ha (heq ▸ hc)
  rw [hp, List.append_assoc, cString, cString, List.takeWhile_append_of_pos hrun, List.takeWhile_append_of_pos hrun,
    List.cons_append, List.takeWhile_cons_of_neg (by simp), List.takeWhile_cons_of_neg (by simp)]

theorem skipSpace_cons {c : UInt8} (h : isSpace c = false) (s : List UInt8) : skipSpace (c :: s) = c :: s := by
  rw [skipSpace, List.dropWhile_cons_of_neg (by simp [h])]

theorem skipSpace_cons_space {c : UInt8} (h : isSpace c = true) (s : List UInt8) :
    skipSpace (c :: s) = skipSpace s := by
  rw [skipSpace, List.dropWhile_cons_of_pos h, skipSpace]

/-- A run of bytes that satisfy a test ends where the next byte does not. -/
theorem span_run {p : UInt8 → Bool} (run rest : List UInt8) (hrun : ∀ c ∈ run, p c = true)
    (hrest : ∀ c ∈ rest.head?, p c = false) :
    (run ++ rest).takeWhile p = run ∧ (run ++ rest).dropWhile p = rest := by
  rw [List.takeWhile_append_of_pos hrun, List.dropWhile_append_of_pos hrun]
  cases rest with
  | nil => simp
  | cons c rest =>
      have hc := hrest c rfl
      rw [List.takeWhile_cons_of_neg (by simp [hc]), List.dropWhile_cons_of_neg (by simp [hc]), List.append_nil]
      exact ⟨rfl, rfl⟩

theorem takeSign_of_isDigit {b : Nat} {c : UInt8} (h : isDigit b c = true) (s : List UInt8) :
    takeSign (c :: s) = (false, c :: s) := by
  have hrange := isDigit_range h
  unfold takeSign
  split
  · rename_i heq
    obtain ⟨rfl, -⟩ := List.cons.inj heq
    exact absurd hrange.1 (by decide)
  · rename_i heq
    obtain ⟨rfl, -⟩ := List.cons.inj heq
    exact absurd hrange.1 (by decide)
  · rfl

theorem dropHexMark_of_isDigit {c c' : UInt8} (h : isDigit 16 c' = true) (s : List UInt8) :
    dropHexMark (c :: c' :: s) = c :: c' :: s := by
  have hrange := isDigit_range h
  unfold dropHexMark
  split
  · rename_i heq
    obtain ⟨-, heq⟩ := List.cons.inj heq
    obtain ⟨rfl, -⟩ := List.cons.inj heq
    exact absurd hrange.2 (by decide)
  · rename_i heq
    obtain ⟨-, heq⟩ := List.cons.inj heq
    obtain ⟨rfl, -⟩ := List.cons.inj heq
    exact absurd h (by decide)
  · rfl

theorem getline_line {line : List UInt8} (hline : ∀ c ∈ line, c ≠ 10) (rest : List UInt8) :
    getline (line ++ 10 :: rest) = some (line, rest) := by
  obtain ⟨htake, hdrop⟩ := span_run (p := (· != 10)) line (10 :: rest)
    (fun c hc => bne_iff_ne.mpr (hline c hc)) (fun c hc => by obtain rfl := Option.some.inj hc; rfl)
  cases line with
  | nil => rfl
  | cons c line =>
      rw [List.cons_append] at htake hdrop ⊢
      rw [getline, htake, hdrop]
      rfl

/-- The last line may go without its newline. -/
theorem getline_last {line : List UInt8} (hline : ∀ c ∈ line, c ≠ 10) (hne : line ≠ []) :
    getline line = some (line, []) := by
  obtain ⟨htake, hdrop⟩ := span_run (p := (· != 10)) line [] (fun c hc => bne_iff_ne.mpr (hline c hc))
    (fun c hc => by cases hc)
  rw [List.append_nil] at htake hdrop
  cases line with
  | nil => exact absurd rfl hne
  | cons c line =>
      rw [getline, htake, hdrop]
      rfl

/-- A line takes a byte off the text at least. -/
theorem getline_length {s line rest : List UInt8} (h : getline s = some (line, rest)) :
    rest.length < s.length := by
  cases s with
  | nil => cases h
  | cons c s =>
      obtain ⟨-, rfl⟩ := Prod.mk.inj (Option.some.inj h)
      have hle := (List.dropWhile_sublist (l := c :: s) (· != 10)).length_le
      rw [List.length_tail]
      simp only [List.length_cons] at hle ⊢
      omega

/-- Two hexadecimal digits are read as their value, whatever follows. -/
theorem scanHex_two {c c' : UInt8} (hc : isDigit 16 c = true) (hc' : isDigit 16 c' = true) (rest : List UInt8) :
    scanHex 2 (c :: c' :: rest) = some (UInt32.ofNat (digitsValue 16 [c, c']), rest) := by
  have hdigit : ∀ x ∈ [c, c'], isDigit 16 x = true := by
    intro x hx
    rcases List.mem_cons.mp hx with rfl | hx
    · exact hc
    · rwa [List.mem_singleton.mp hx]
  obtain ⟨htake, hdrop⟩ := span_run _ [] hdigit fun _ h => by cases h
  rw [List.append_nil] at htake hdrop
  simp only [scanHex, skipSpace_cons (isSpace_of_isDigit hc),
    List.take_succ_cons, List.take_zero, takeSign_of_isDigit hc, dropHexMark_of_isDigit hc', htake, hdrop,
    List.nil_append, reduceCtorEq, if_false, Bool.false_eq_true, List.drop_succ_cons, List.drop_zero]

theorem scanHex_numeral {n : Nat} (hn : n < 256) (rest : List UInt8) :
    scanHex 2 (numeral 16 2 n ++ rest) = some (UInt32.ofNat n, rest) := by
  have hvalue := digitsValue_numeral (b := 16) le_rfl (by decide) 2 n
  have hdigit : ∀ c ∈ numeral 16 2 n, isDigit 16 c = true := fun c => isDigit_of_mem_numeral le_rfl (by decide)
  obtain ⟨c, c', htext⟩ := List.length_eq_two.mp (numeral_length_of_lt (b := 16) (w := 2) (by decide) hn)
  rw [htext] at hvalue hdigit ⊢
  have hread := scanHex_two (hdigit c List.mem_cons_self) (hdigit c' (List.mem_cons_of_mem _ List.mem_cons_self)) rest
  rwa [hvalue] at hread

/-- Digits up to a value within the limit are all taken. -/
theorem moreDigits_run (limit v : Nat) (ds rest : List UInt8) (hds : ∀ c ∈ ds, isDigit 10 c = true)
    (hle : digitsFrom 10 v ds ≤ limit) :
    moreDigits limit ds.length v (ds ++ rest) = (digitsFrom 10 v ds, rest) := by
  induction ds generalizing v with
  | nil => rfl
  | cons c ds ih =>
      have hnext : 10 * v ≤ limit :=
        calc 10 * v ≤ digitsFrom 10 v [c] := Nat.le_add_right _ _
          _ ≤ digitsFrom 10 v (c :: ds) := le_digitsFrom (by decide) _ ds
          _ ≤ limit := hle
      rw [List.length_cons, List.cons_append, moreDigits, if_pos ⟨hnext, hds c List.mem_cons_self⟩]
      exact ih _ (fun e he => hds e (List.mem_cons_of_mem _ he)) hle

/-- A decimal numeral of the width, within the bounds, is read as its value, whatever follows. -/
theorem getNumber_numeral {lo hi w n : Nat} (hw : 0 < w) (hn : n < 10 ^ w) (hlo : lo ≤ n)
    (hhi : n ≤ hi) (rest : List UInt8) :
    getNumber lo hi w (numeral 10 w n ++ rest) = some (n, rest) := by
  have hvalue := digitsValue_decimal w n
  have hdigit : ∀ c ∈ numeral 10 w n, isDigit 10 c = true := fun c => isDigit_of_mem_decimal
  have hlen := numeral_length_of_lt (b := 10) (by decide) hn
  cases htext : numeral 10 w n with
  | nil => exact absurd htext (numeral_ne_nil 10 n hw)
  | cons c ds =>
      rw [htext] at hvalue hdigit hlen
      have hc := hdigit c List.mem_cons_self
      have hmore := moreDigits_run hi (digitsValue 10 [c]) ds rest
        (fun e he => hdigit e (List.mem_cons_of_mem _ he)) (hvalue.trans_le hhi)
      rw [show ds.length = w - 1 by rw [← hlen]; rfl] at hmore
      have hfinal : digitsFrom 10 (digitsValue 10 [c]) ds = n := hvalue
      rw [hfinal] at hmore
      rw [getNumber, List.cons_append, skipSpace_cons (isSpace_of_isDigit hc)]
      simp only [hc, if_true, hmore]
      exact if_neg (by omega)

/-! ### Fields of a stream -/

namespace IStream

theorem extract_space {α : Type} (scan : List UInt8 → α × Bool × List UInt8) (old : α) {c : UInt8}
    (h : isSpace c = true) (s : List UInt8) : extract scan old ⟨c :: s, true⟩ = extract scan old ⟨s, true⟩ := by
  simp only [extract, skipSpace_cons_space h, if_true]

theorem extract_cons {α : Type} (scan : List UInt8 → α × Bool × List UInt8) (old : α) {c : UInt8}
    (h : isSpace c = false) (s : List UInt8) :
    extract scan old ⟨c :: s, true⟩ = ((scan (c :: s)).1, ⟨(scan (c :: s)).2.2, (scan (c :: s)).2.1⟩) := by
  simp only [extract, skipSpace_cons h, if_true]

/-- An extraction that succeeds sets the variable. -/
theorem extract_of_good {α : Type} (scan : List UInt8 → α × Bool × List UInt8) (old old' : α) (s : IStream)
    (h : (extract scan old s).2.good = true) : extract scan old' s = extract scan old s := by
  unfold extract at h ⊢
  split_ifs at h ⊢ with hgood
  · revert h
    cases skipSpace s.rest with
    | nil => exact fun h => absurd h Bool.false_ne_true
    | cons c rest => exact fun _ => rfl
  · exact absurd h hgood

/-- What is left of a stream does not depend on the variable. -/
theorem extract_rest {α : Type} (scan : List UInt8 → α × Bool × List UInt8) (old old' : α) (s : IStream) :
    (extract scan old s).2 = (extract scan old' s).2 := by
  unfold extract
  split_ifs
  · cases skipSpace s.rest with
    | nil => rfl
    | cons c rest => rfl
  · rfl

/-- Nothing is extracted from a stream that has failed. -/
theorem good_of_extract_good {α : Type} {scan : List UInt8 → α × Bool × List UInt8} {old : α} {s : IStream}
    (h : (extract scan old s).2.good = true) : s.good = true := by
  by_contra hno
  rw [extract, if_neg hno] at h
  exact hno h

/-- A byte that is not read leaves the variable as it is. -/
theorem int8_of_not_good {old : Int8} {s : IStream} (h : ¬(int8 old s).2.good = true) : (int8 old s).1 = old := by
  unfold int8 extract at h ⊢
  split_ifs at h ⊢ with hgood
  · revert h
    cases skipSpace s.rest with
    | nil => exact fun _ => rfl
    | cons c rest => exact fun h => absurd rfl h
  · rfl

/-- A word is read up to the white space after it. -/
theorem word_field {w rest : List UInt8} (hw : w ≠ []) (hgraph : ∀ c ∈ w, isSpace c = false)
    (hrest : ∀ c ∈ rest.head?, isSpace c = true) (old : List UInt8) :
    word old ⟨w ++ rest, true⟩ = (w, ⟨rest, true⟩) := by
  obtain ⟨htake, hdrop⟩ := span_run (p := (!isSpace ·)) w rest (fun c hc => by simp [hgraph c hc])
    (fun c hc => by simp [hrest c hc])
  cases w with
  | nil => exact absurd rfl hw
  | cons c w =>
      rw [word, List.cons_append, extract_cons _ old (hgraph c List.mem_cons_self), ← List.cons_append, htake, hdrop]

/-- A decimal numeral is read as its value up to the byte after it. -/
theorem uint16_field (v : UInt16) {rest : List UInt8} (hrest : ∀ c ∈ rest.head?, isDigit 10 c = false)
    (old : UInt16) : uint16 old ⟨numeral 10 1 v.toNat ++ rest, true⟩ = (v, ⟨rest, true⟩) := by
  have hvalue := digitsValue_decimal 1 v.toNat
  have hdigit : ∀ c ∈ numeral 10 1 v.toNat, isDigit 10 c = true := fun c => isDigit_of_mem_decimal
  obtain ⟨htake, hdrop⟩ := span_run _ rest hdigit hrest
  cases htext : numeral 10 1 v.toNat with
  | nil => exact absurd htext (numeral_ne_nil 10 v.toNat (by decide))
  | cons c ds =>
      rw [htext] at hvalue hdigit htake hdrop
      have hc := hdigit c List.mem_cons_self
      have hlt : ¬2 ^ 16 ≤ v.toNat := not_le.mpr v.toNat_lt
      rw [uint16, List.cons_append, extract_cons _ old (isSpace_of_isDigit hc), takeSign_of_isDigit hc,
        ← List.cons_append]
      simp only [htake, hdrop, hvalue, hlt, reduceCtorEq, if_false, Bool.false_eq_true, UInt16.ofNat_toNat]

end IStream

/-! ### Bytes no number reaches past -/

/-- A byte that is no part of a number, and no white space before one. -/
structure Breaks (c : UInt8) : Prop where
  space : isSpace c = false
  digit : isDigit 16 c = false
  sign : c ≠ 45 ∧ c ≠ 43
  mark : c ≠ 120 ∧ c ≠ 88

theorem takeSign_cons (c : UInt8) (s : List UInt8) :
    takeSign (c :: s) = if c = 45 then (true, s) else if c = 43 then (false, s) else (false, c :: s) := by
  split_ifs with h h'
  · rw [h]
    rfl
  · rw [h']
    rfl
  · unfold takeSign
    split <;> simp_all

theorem dropHexMark_cons (c c' : UInt8) (s : List UInt8) :
    dropHexMark (c :: c' :: s) = if c = 48 ∧ (c' = 120 ∨ c' = 88) then s else c :: c' :: s := by
  split_ifs with h
  · obtain ⟨rfl, rfl | rfl⟩ := h
    · rfl
    · rfl
  · unfold dropHexMark
    split <;> simp_all

section Breaks

variable {t : List UInt8} (ht : ∀ c ∈ t.head?, Breaks c)
include ht

theorem takeSign_append (s : List UInt8) : takeSign (s ++ t) = ((takeSign s).1, (takeSign s).2 ++ t) := by
  cases s with
  | nil =>
      cases t with
      | nil => rfl
      | cons c t =>
          have hc := ht c rfl
          rw [List.nil_append, takeSign_cons, if_neg hc.sign.1, if_neg hc.sign.2]
          rfl
  | cons c s =>
      rw [List.cons_append, takeSign_cons, takeSign_cons]
      split_ifs <;> rfl

theorem dropHexMark_append (s : List UInt8) : dropHexMark (s ++ t) = dropHexMark s ++ t := by
  have hone : ∀ c : UInt8, dropHexMark [c] = [c] := by
    intro c
    unfold dropHexMark
    split <;> simp_all
  rcases s with _ | ⟨c, _ | ⟨c', s⟩⟩
  · rcases t with _ | ⟨c, _ | ⟨c', t⟩⟩
    · rfl
    · exact hone c
    · have hzero : c ≠ 48 := fun h => absurd (ht c rfl).digit (by rw [h]; decide)
      rw [List.nil_append, dropHexMark_cons, if_neg fun h => hzero h.1]
      rfl
  · cases t with
    | nil => rw [List.append_nil, List.append_nil]
    | cons c' t =>
        have hc := ht c' rfl
        rw [List.singleton_append, dropHexMark_cons, hone, if_neg fun h => h.2.elim hc.mark.1 hc.mark.2]
        rfl
  · rw [List.cons_append, List.cons_append, dropHexMark_cons, dropHexMark_cons]
    split_ifs <;> rfl

theorem span_append (s : List UInt8) :
    (s ++ t).takeWhile (isDigit 16) = s.takeWhile (isDigit 16) ∧
      (s ++ t).dropWhile (isDigit 16) = s.dropWhile (isDigit 16) ++ t := by
  induction s with
  | nil =>
      have h := span_run (p := isDigit 16) [] t nofun fun c hc => (ht c hc).digit
      exact ⟨h.1, h.2⟩
  | cons c s ih =>
      cases hc : isDigit 16 c with
      | true => simp [hc, ih.1, ih.2]
      | false => simp [hc]

end Breaks

/-- A conversion reads up to such a byte as it reads up to the end of the text. -/
theorem scanHex_append {c : UInt8} (hc : Breaks c) (w : Nat) (s t : List UInt8) :
    scanHex w (s ++ c :: t) = (scanHex w s).map fun x => (x.1, x.2 ++ c :: t) := by
  have hskip : skipSpace (s ++ c :: t) = skipSpace s ++ c :: t := by
    rw [skipSpace, skipSpace, List.dropWhile_append, List.dropWhile_cons_of_neg (by simp [hc.space])]
    split_ifs with h
    · rw [List.isEmpty_iff.mp h, List.nil_append]
    · rfl
  generalize hs : skipSpace s = item at hskip
  -- the width cuts the text before the byte, or behind it
  obtain ⟨cut, htake, hhead, hdrop⟩ : ∃ cut, (item ++ c :: t).take w = item.take w ++ cut ∧
      (∀ x ∈ cut.head?, Breaks x) ∧ cut ++ (item ++ c :: t).drop w = item.drop w ++ c :: t := by
    refine ⟨(c :: t).take (w - item.length), List.take_append, fun x hx => ?_, ?_⟩
    · cases hk : w - item.length with
      | zero => simp [hk] at hx
      | succ k =>
          rw [hk, List.take_succ_cons, List.head?_cons, Option.mem_some_iff] at hx
          exact hx ▸ hc
    · rw [List.drop_append]
      rcases Nat.lt_or_ge item.length w with hlt | hge
      · rw [List.drop_eq_nil_of_le hlt.le, List.nil_append, List.nil_append, List.take_append_drop]
      · rw [Nat.sub_eq_zero_of_le hge, List.take_zero, List.drop_zero, List.nil_append]
  simp only [scanHex, hskip, hs, htake, takeSign_append hhead, dropHexMark_append hhead, (span_append hhead _).1,
    (span_append hhead _).2]
  split_ifs <;> simp [hdrop, List.append_assoc]

/-- What is left is part of the text. -/
theorem scanHex_rest_subset {w : Nat} {s : List UInt8} {x : UInt32 × List UInt8} (h : scanHex w s = some x) :
    x.2 ⊆ s := by
  have hspace : skipSpace s ⊆ s := (List.dropWhile_suffix _).subset
  have hsign : ∀ r : List UInt8, (takeSign r).2 ⊆ r := by
    intro r
    unfold takeSign
    split
    all_goals intro y hy; simp_all
  have hmark : ∀ r : List UInt8, dropHexMark r ⊆ r := by
    intro r
    unfold dropHexMark
    split
    all_goals intro y hy; simp_all
  unfold scanHex at h
  dsimp only at h
  split_ifs at h with hdigits
  all_goals
    obtain rfl := Option.some.inj h
    refine List.append_subset.mpr ⟨fun y hy => hspace ?_, fun y hy => hspace (List.mem_of_mem_drop hy)⟩
    exact List.mem_of_mem_take (hsign _ (hmark _ ((List.dropWhile_suffix _).subset hy)))

end TextScan
