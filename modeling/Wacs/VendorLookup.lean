import Wacs.DumpMac
import Wacs.OrderedPrefix

/-! `vendor.php`: the registries loaded under keys of six, eight and ten digits, and the vendor of an address
looked up under its first digits. An assignment of an odd number of digits is filled on the left. -/

namespace Wacs

open TextNumeral OrderedMap

/-- The columns of a registry that are used. -/
structure RegistryRow where
  assignment : Bytes
  organization : Bytes

/-- `strtolower`. -/
def strtolower (s : Bytes) : Bytes := s.map fun c => if 65 ≤ c.toNat ∧ c.toNat ≤ 90 then c + 32 else c

/-- `trim`: blanks, tabs, line ends and zero bytes taken off both ends. -/
def trim (s : Bytes) : Bytes :=
  let strip := List.dropWhile fun c : UInt8 => decide (c = 32 ∨ 9 ≤ c.toNat ∧ c.toNat ≤ 11 ∨ c = 13 ∨ c = 0)
  (strip (strip s).reverse).reverse

/-- `substr` from a place in the text on. -/
def substr (s : Bytes) (offset length : Nat) : Bytes := (s.drop offset).take length

/-- `rows` are the lines of the file after the header. -/
def loadVendors (out : OrderedMap Bytes Bytes) (rows : List RegistryRow) (sz : Nat) : OrderedMap Bytes Bytes :=
  out.putAll (rows.map fun p => ((strtolower p.assignment).leftpad sz 48, trim p.organization))

/-- The table of the three files. -/
def vendorTable (oui mam oui36 : List RegistryRow) : OrderedMap Bytes Bytes :=
  loadVendors (loadVendors (loadVendors .empty oui 6) mam 8) oui36 10

def NONAME : Bytes := [78, 79, 78, 65, 77, 69]

def getVendorName (vendors : OrderedMap Bytes Bytes) (macLine : Bytes) : Bytes :=
  let prefix6 := substr macLine 0 2 ++ substr macLine 3 2 ++ substr macLine 6 2
  let prefix8 := prefix6 ++ substr macLine 9 2
  let prefix10 := prefix8 ++ substr macLine 12 2
  let v :=
    match vendors.get prefix6 with
    | some v => v
    | none =>
        match vendors.get prefix8 with
        | some v => v
        | none =>
            match vendors.get prefix10 with
            | some v => v
            | none => NONAME
  macLine ++ 9 :: v

/-! ### What is looked up -/

/-- The hexadecimal digits of an address. -/
def macDigits (m : Mac) : Bytes := m.val.flatMap fun p => numeral 16 2 p.toNat

/-- The assignments of a registry as they are, in lower case, with their organizations. -/
def assignments (rows : List RegistryRow) : List (Bytes × Bytes) :=
  rows.map fun p => (strtolower p.assignment, trim p.organization)

/-- Every assignment has `n` hexadecimal digits. -/
def IsRegistry (n : Nat) (rows : List RegistryRow) : Prop :=
  ∀ p ∈ rows, p.assignment.length = n ∧ ∀ c ∈ p.assignment, isDigit 16 c = true

theorem assignments_length {n : Nat} {rows : List RegistryRow} (h : IsRegistry n rows) :
    ∀ w ∈ assignments rows, w.1.length = n := by
  intro w hw
  obtain ⟨p, hp, rfl⟩ := List.mem_map.mp hw
  rw [strtolower, List.length_map]
  exact (h p hp).1

theorem hexPair (p : UInt8) : ∃ c c', numeral 16 2 p.toNat = [c, c'] :=
  List.length_eq_two.mp (numeral_length_of_lt (b := 16) (w := 2) (by decide) p.toNat_lt)

/-- The groups stand three bytes apart in the text, two in the digits. -/
theorem substr_macText (ps : Bytes) (i : Nat) :
    substr (macText ps) (3 * i) 2 = substr (ps.flatMap fun p => numeral 16 2 p.toNat) (2 * i) 2 := by
  induction i generalizing ps with
  | zero =>
      cases ps with
      | nil => rfl
      | cons p ps =>
          obtain ⟨c, c', hp⟩ := hexPair p
          cases ps with
          | nil => simp [substr, macText_singleton, hp]
          | cons q ps => simp [substr, macText_cons, hp]
  | succ i ih =>
      cases ps with
      | nil => simp [substr, macText]
      | cons p ps =>
          obtain ⟨c, c', hp⟩ := hexPair p
          cases ps with
          | nil => simp [substr, macText_singleton, hp, Nat.mul_succ]
          | cons q ps =>
              have hq := ih (q :: ps)
              rw [macText_cons, List.flatMap_cons, hp]
              exact hq

/-- The prefixes looked up are the first digits of the address. -/
theorem prefixes_mactostr (m : Mac) :
    substr (mactostr m) 0 2 ++ substr (mactostr m) 3 2 ++ substr (mactostr m) 6 2 = (macDigits m).take 6 ∧
      (macDigits m).take 6 ++ substr (mactostr m) 9 2 = (macDigits m).take 8 ∧
      (macDigits m).take 8 ++ substr (mactostr m) 12 2 = (macDigits m).take 10 := by
  have hgroup : ∀ i, substr (mactostr m) (3 * i) 2 = ((macDigits m).drop (2 * i)).take 2 := substr_macText m.val
  have hjoin : ∀ n, (macDigits m).take n ++ ((macDigits m).drop n).take 2 = (macDigits m).take (n + 2) :=
    fun n => List.take_add.symm
  refine ⟨?_, ?_, ?_⟩
  · calc substr (mactostr m) 0 2 ++ substr (mactostr m) 3 2 ++ substr (mactostr m) 6 2
        = (macDigits m).take 2 ++ ((macDigits m).drop 2).take 2 ++ ((macDigits m).drop 4).take 2 := by
          rw [hgroup 0, hgroup 1, hgroup 2]
          rfl
      _ = (macDigits m).take 6 := by rw [hjoin 2, hjoin 4]
  · rw [hgroup 3, hjoin 6]
  · rw [hgroup 4, hjoin 8]

theorem macDigits_length (m : Mac) : (macDigits m).length = 12 := by
  have hpair : ∀ p : UInt8, (numeral 16 2 p.toNat).length = 2 := fun p => by
    obtain ⟨c, c', hp⟩ := hexPair p
    rw [hp]
    rfl
  simp only [macDigits, List.length_flatMap, hpair, List.map_const', List.sum_replicate, m.property]
  rfl

/-- What a registry of `n` digits has under a key of one digit more, the first a zero. -/
def padded (rows : List RegistryRow) (n : Nat) (d : Bytes) : Option Bytes :=
  if d.head? = some 48 then lastWrite (assignments rows) ((d.drop 1).take n) else none

/-- The writes of `loadVendors`. -/
def vendorWrites (rows : List RegistryRow) (sz : Nat) : List (Bytes × Bytes) :=
  (assignments rows).map fun w => (w.1.leftpad sz 48, w.2)

theorem loadVendors_eq (out : OrderedMap Bytes Bytes) (rows : List RegistryRow) (sz : Nat) :
    loadVendors out rows sz = out.putAll (vendorWrites rows sz) := by
  rw [loadVendors, vendorWrites, assignments, List.map_map]
  rfl

section Registry

variable {n : Nat} {rows : List RegistryRow} (h : IsRegistry n rows)
include h

theorem vendorWrites_length {sz : Nat} (hsz : n ≤ sz) : ∀ w ∈ vendorWrites rows sz, w.1.length = sz := by
  intro w hw
  obtain ⟨x, hx, rfl⟩ := List.mem_map.mp hw
  rw [List.length_leftpad, assignments_length h x hx]
  exact Nat.max_eq_left hsz

/-- Under keys of their own length the assignments are as they are. -/
theorem lastWrite_vendorWrites (k : Bytes) : lastWrite (vendorWrites rows n) k = lastWrite (assignments rows) k := by
  have hsame : vendorWrites rows n = assignments rows := by
    refine (List.map_congr_left fun w hw => ?_).trans (List.map_id _)
    rw [List.leftpad, assignments_length h w hw, Nat.sub_self, List.replicate_zero, List.nil_append]
    rfl
  rw [hsame]

/-- Under keys longer by one they stand behind a zero. -/
theorem lastWrite_vendorWrites_succ {d : Bytes} (hd : d ≠ []) :
    lastWrite (vendorWrites rows (n + 1)) (d.take (n + 1)) = padded rows n d := by
  have hzero : vendorWrites rows (n + 1) = (assignments rows).map fun w => (48 :: w.1, w.2) := by
    refine List.map_congr_left fun w hw => ?_
    rw [List.leftpad, assignments_length h w hw, Nat.add_sub_cancel_left]
    rfl
  cases d with
  | nil => exact absurd rfl hd
  | cons c d =>
      rw [hzero, List.take_succ_cons, padded, List.head?_cons, List.drop_one, List.tail_cons]
      split_ifs with hc
      · rw [Option.some.inj hc]
        exact lastWrite_map (List.cons_injective) _ _
      · refine (lastWrite_eq_none_iff _ _).mpr fun w hw heq => ?_
        obtain ⟨x, -, rfl⟩ := List.mem_map.mp hw
        exact hc (congrArg some (List.cons.inj heq).1.symm)

end Registry

section Tables

variable {oui mam oui36 : List RegistryRow}

theorem get_vendorTable (k : Bytes) : (vendorTable oui mam oui36).get k =
    (lastWrite (vendorWrites oui36 10) k).or
      ((lastWrite (vendorWrites mam 8) k).or (lastWrite (vendorWrites oui 6) k)) := by
  rw [vendorTable, loadVendors_eq, loadVendors_eq, loadVendors_eq, get_putAll, get_putAll, get_putAll, get_empty,
    Option.or_none]

variable (h6 : IsRegistry 6 oui) (h7 : IsRegistry 7 mam) (h9 : IsRegistry 9 oui36)
include h6 h7 h9

/-- The vendor looked up, in terms of the registries: each has keys of its own length. -/
theorem getVendorName_mactostr (m : Mac) : getVendorName (vendorTable oui mam oui36) (mactostr m) =
    mactostr m ++ 9 :: ((lastWrite (assignments oui) ((macDigits m).take 6)).or
      ((padded mam 7 (macDigits m)).or (padded oui36 9 (macDigits m)))).getD NONAME := by
  obtain ⟨htext6, htext8, htext10⟩ := prefixes_mactostr m
  have hdigits := macDigits_length m
  generalize macDigits m = d at *
  have hd : d ≠ [] := fun h => by simp [h] at hdigits
  have hkey : ∀ n, n ≤ 12 → (d.take n).length = n := fun n hn => by
    rw [List.length_take, hdigits, Nat.min_eq_left hn]
  have hoff : ∀ {n sz : Nat} {rows : List RegistryRow}, IsRegistry n rows → n ≤ sz → ∀ k, k ≤ 12 → k ≠ sz →
      lastWrite (vendorWrites rows sz) (d.take k) = none := fun hrows hle k hk hne =>
    lastWrite_of_length_ne (vendorWrites_length hrows hle) (by rwa [hkey k hk])
  have hget6 : (vendorTable oui mam oui36).get (d.take 6) = lastWrite (assignments oui) (d.take 6) := by
    rw [get_vendorTable, hoff h9 (by decide) 6 (by decide) (by decide), hoff h7 (by decide) 6 (by decide) (by decide),
      Option.none_or, Option.none_or, lastWrite_vendorWrites h6]
  have hget8 : (vendorTable oui mam oui36).get (d.take 8) = padded mam 7 d := by
    rw [get_vendorTable, hoff h9 (by decide) 8 (by decide) (by decide), hoff h6 (by decide) 8 (by decide) (by decide),
      Option.none_or, Option.or_none, lastWrite_vendorWrites_succ h7 hd]
  have hget10 : (vendorTable oui mam oui36).get (d.take 10) = padded oui36 9 d := by
    rw [get_vendorTable, hoff h7 (by decide) 10 (by decide) (by decide), hoff h6 (by decide) 10 (by decide) (by decide),
      Option.or_none, Option.or_none, lastWrite_vendorWrites_succ h9 hd]
  rw [getVendorName]
  simp only [htext6, htext8, htext10, hget6, hget8, hget10]
  cases lastWrite (assignments oui) (d.take 6) with
  | some v => rfl
  | none =>
      cases padded mam 7 d with
      | some v => rfl
      | none => cases padded oui36 9 d <;> rfl

/-- The longest assignment that an address begins with. -/
theorem longestMatch_registries (d : Bytes) (o : Option Bytes) :
    LongestMatch (assignments oui ++ assignments mam ++ assignments oui36) d o ↔
      o = (lastWrite (assignments oui36) (d.take 9)).or
        ((lastWrite (assignments mam) (d.take 7)).or (lastWrite (assignments oui) (d.take 6))) := by
  have hlt : ∀ w ∈ assignments oui ++ assignments mam, w.1.length < 9 := by
    intro w hw
    rcases List.mem_append.mp hw with hw | hw
    · exact (assignments_length h6 w hw).trans_lt (by decide)
    · exact (assignments_length h7 w hw).trans_lt (by decide)
  have hlt' : ∀ w ∈ assignments oui, w.1.length < 7 := fun w hw => (assignments_length h6 w hw).trans_lt (by decide)
  have hfirst : ∀ o, LongestMatch (assignments oui) d o ↔ o = lastWrite (assignments oui) (d.take 6) := by
    intro o
    have h : LongestMatch ([] ++ assignments oui) d o ↔ _ :=
      longestMatch_append (assignments_length h6) (fun w hw => absurd hw List.not_mem_nil) (longestMatch_nil d) o
    rwa [List.nil_append, Option.or_none] at h
  exact longestMatch_append (assignments_length h9) hlt
    (longestMatch_append (assignments_length h7) hlt' hfirst) o

end Tables

/-- The line printed for an address names the organization of the longest assignment it begins with. -/
def NamesVendor (oui mam oui36 : List RegistryRow) (m : Mac) : Prop :=
  ∃ o, LongestMatch (assignments oui ++ assignments mam ++ assignments oui36) (macDigits m) o ∧
    getVendorName (vendorTable oui mam oui36) (mactostr m) = mactostr m ++ 9 :: o.getD NONAME

/-- If the first six digits are assigned, then the longest of the longer assignments that the digits begin with, if
any, is to the same organization. If they are not, the assignment that is found behind a zero is to the organization
of the longest that the digits begin with, or there is none of either; NONAME is none. -/
def LookupAgrees (oui mam oui36 : List RegistryRow) (d : Bytes) : Prop :=
  match lastWrite (assignments oui) (d.take 6) with
  | some v => ∀ u ∈ (lastWrite (assignments oui36) (d.take 9)).or (lastWrite (assignments mam) (d.take 7)), u = v
  | none => ((padded mam 7 d).or (padded oui36 9 d)).getD NONAME =
      ((lastWrite (assignments oui36) (d.take 9)).or (lastWrite (assignments mam) (d.take 7))).getD NONAME

/-- **The lookup is a longest-prefix match** only as far as the short assignments tried first, and the zero put
before the odd ones, make no difference. -/
theorem namesVendor_iff (oui mam oui36 : List RegistryRow) (m : Mac) (h6 : IsRegistry 6 oui) (h7 : IsRegistry 7 mam)
    (h9 : IsRegistry 9 oui36) : NamesVendor oui mam oui36 m ↔ LookupAgrees oui mam oui36 (macDigits m) := by
  have hnames : NamesVendor oui mam oui36 m ↔
      ((lastWrite (assignments oui) ((macDigits m).take 6)).or
        ((padded mam 7 (macDigits m)).or (padded oui36 9 (macDigits m)))).getD NONAME =
      (((lastWrite (assignments oui36) ((macDigits m).take 9)).or
          (lastWrite (assignments mam) ((macDigits m).take 7))).or
        (lastWrite (assignments oui) ((macDigits m).take 6))).getD NONAME := by
    rw [Option.or_assoc]
    simp only [NamesVendor, longestMatch_registries h6 h7 h9, getVendorName_mactostr h6 h7 h9, exists_eq_left,
      List.append_cancel_left_eq, List.cons.injEq, true_and]
  rw [hnames, LookupAgrees]
  cases lastWrite (assignments oui) ((macDigits m).take 6) with
  | none => rw [Option.none_or, Option.or_none]
  | some v =>
      cases (lastWrite (assignments oui36) ((macDigits m).take 9)).or
          (lastWrite (assignments mam) ((macDigits m).take 7)) with
      | none => exact iff_of_true rfl nofun
      | some u => simp [eq_comm]

/-- A block of six digits, 3CD92B. -/
def hewlettPackard : RegistryRow := ⟨[51, 67, 68, 57, 50, 66], [72, 80]⟩

/-- A block of seven digits, 1C8776D. -/
def qivivo : RegistryRow := ⟨[49, 67, 56, 55, 55, 54, 68], [81, 105, 118, 105, 118, 111]⟩

theorem isRegistry_nil (n : Nat) : IsRegistry n [] := fun _ hp => absurd hp List.not_mem_nil

theorem isRegistry_hewlettPackard : IsRegistry 6 [hewlettPackard] :=
  fun _ hp => List.mem_singleton.mp hp ▸ ⟨rfl, List.all_eq_true.mp rfl⟩

theorem isRegistry_qivivo : IsRegistry 7 [qivivo] :=
  fun _ hp => List.mem_singleton.mp hp ▸ ⟨rfl, List.all_eq_true.mp rfl⟩

def hewlettPackardMac : Mac := ⟨[0x3c, 0xd9, 0x2b, 0, 0, 1], rfl⟩

def qivivoMac : Mac := ⟨[0x1c, 0x87, 0x76, 0xd0, 0, 1], rfl⟩

theorem namesVendor_hewlettPackard : NamesVendor [hewlettPackard] [qivivo] [] hewlettPackardMac := by
  refine (namesVendor_iff [hewlettPackard] [qivivo] [] hewlettPackardMac isRegistry_hewlettPackard isRegistry_qivivo
    (isRegistry_nil 9)).mpr ?_
  have hfound : lastWrite (assignments [hewlettPackard]) ((macDigits hewlettPackardMac).take 6) = some [72, 80] := by
    decide
  rw [LookupAgrees, hfound]
  decide

/-- An address of the longer block is NONAME. -/
theorem lookup_misses_block : ¬∀ (oui mam oui36 : List RegistryRow) (m : Mac), IsRegistry 6 oui → IsRegistry 7 mam →
    IsRegistry 9 oui36 → NamesVendor oui mam oui36 m := by
  intro h
  have hnames := h [hewlettPackard] [qivivo] [] qivivoMac isRegistry_hewlettPackard isRegistry_qivivo (isRegistry_nil 9)
  rw [NamesVendor] at hnames
  obtain ⟨o, hmatch, hline⟩ := hnames
  rw [longestMatch_registries isRegistry_hewlettPackard isRegistry_qivivo (isRegistry_nil 9)] at hmatch
  rw [hmatch] at hline
  exact absurd hline (by decide)

end Wacs
