import Wacs.DumpMac
import Wacs.StoreRecords

/-! A MAC address given as text for a filter: what a well-formed one is, how it is read, and the arguments
made of it for the scans. -/

namespace Wacs

open TextNumeral TextScan

/-- One or two hexadecimal digits. -/
def IsHexByte (g : Bytes) : Prop := (g.length = 1 ∨ g.length = 2) ∧ ∀ c ∈ g, isDigit 16 c = true

/-- The text is a colon-separated list of one to six hexadecimal bytes, namely these. -/
def MacList (text bytes : Bytes) : Prop :=
  ∃ groups : List Bytes, (1 ≤ groups.length ∧ groups.length ≤ 6) ∧ (∀ g ∈ groups, IsHexByte g) ∧
    text = [58].intercalate groups ∧ bytes = groups.map fun g => UInt8.ofNat (digitsValue 16 g)

/-- A text that is neither empty nor well formed. -/
def Mistyped (text : Bytes) : Prop := text ≠ [] ∧ ¬∃ bytes, MacList text bytes

/-- The arguments `sa` and `saSize` that the callers make of a text. -/
def macFilter (text : Bytes) : Filter where
  sa := some (strtomacaddress text).2.val
  saSize := (strtomacaddress text).1
  readable := by
    rw [Option.getD_some, (strtomacaddress text).2.property]
    unfold clampSa
    split_ifs <;> omega

/-! ### Well-formed texts -/

theorem breaks_colon : Breaks 58 := ⟨by decide, by decide, by decide, by decide⟩

theorem colon_head {s : Bytes} {c : UInt8} (h : c ∈ (58 :: s).head?) : c = 58 := (Option.some.inj h).symm

/-- A conversion reads up to a colon as it reads up to the end of the text. -/
theorem scanHex_colon (w : Nat) (g : Bytes) {rest : Bytes} (hrest : ∀ c ∈ rest.head?, c = 58) :
    scanHex w (g ++ rest) = (scanHex w g).map fun x => (x.1, x.2 ++ rest) := by
  cases rest with
  | nil =>
      rw [List.append_nil]
      cases scanHex w g with
      | none => rfl
      | some x => rw [Option.map_some, List.append_nil]
  | cons c rest =>
      obtain rfl := hrest c rfl
      exact scanHex_append breaks_colon w g rest

section HexBytes

variable {g : Bytes} (hg : IsHexByte g)
include hg

theorem IsHexByte.range {c : UInt8} (h : c ∈ g) : 48 ≤ c.toNat ∧ c.toNat ≤ 102 := isDigit_range (hg.2 c h)

theorem scanHex_digits : scanHex 2 g = some (UInt32.ofNat (digitsValue 16 g), []) := by
  obtain ⟨hlen, hdigit⟩ := hg
  rcases hlen with hlen | hlen
  · obtain ⟨c, rfl⟩ := List.length_eq_one_iff.mp hlen
    have hc := hdigit c List.mem_cons_self
    have hmark : dropHexMark [c] = [c] := by
      unfold dropHexMark
      split <;> simp_all
    simp only [scanHex, skipSpace_cons (isSpace_of_isDigit hc), List.take_succ_cons, List.take_nil,
      takeSign_of_isDigit hc, hmark, List.takeWhile_cons_of_pos hc, List.takeWhile_nil,
      List.dropWhile_cons_of_pos hc, List.dropWhile_nil, List.drop_succ_cons, List.drop_nil,
      List.append_nil, reduceCtorEq, if_false, Bool.false_eq_true]
  · obtain ⟨c, c', rfl⟩ := List.length_eq_two.mp hlen
    exact scanHex_two (hdigit c List.mem_cons_self) (hdigit c' (List.mem_cons_of_mem _ List.mem_cons_self)) []

/-- A group is read whole up to the colon after it, or the end of the text. -/
theorem scanHex_group {rest : Bytes} (hrest : ∀ c ∈ rest.head?, c = 58) :
    scanHex 2 (g ++ rest) = some (UInt32.ofNat (digitsValue 16 g), rest) := by
  rw [scanHex_colon 2 g hrest, scanHex_digits hg]
  rfl

end HexBytes

theorem scanGroups_intercalate {n : Nat} (groups : List Bytes) (hn : groups.length ≤ n)
    (hgroups : ∀ g ∈ groups, IsHexByte g) :
    scanGroups n ([58].intercalate groups) = groups.map fun g => UInt32.ofNat (digitsValue 16 g) := by
  induction groups generalizing n with
  | nil =>
      cases n with
      | zero => rfl
      | succ n => rfl
  | cons g groups ih =>
      cases n with
      | zero => cases hn
      | succ n =>
          have hg := hgroups g List.mem_cons_self
          cases groups with
          | nil =>
              rw [List.intercalate_singleton, scanGroups, scanHex_digits hg]
              rfl
          | cons g' groups =>
              rw [List.intercalate_cons_cons, List.append_assoc, List.singleton_append, scanGroups,
                scanHex_group hg fun _ => colon_head]
              exact congrArg _ (ih (Nat.le_of_succ_le_succ hn) fun g hmem => hgroups g (List.mem_cons_of_mem _ hmem))

/-- A well-formed text is made of digits and colons. -/
theorem macList_range {groups : List Bytes} (hgroups : ∀ g ∈ groups, IsHexByte g) {c : UInt8}
    (h : c ∈ [58].intercalate groups) : 48 ≤ c.toNat ∧ c.toNat ≤ 102 := by
  induction groups with
  | nil => cases h
  | cons g groups ih =>
      have hg : c ∈ g → 48 ≤ c.toNat ∧ c.toNat ≤ 102 := (hgroups g List.mem_cons_self).range
      cases groups with
      | nil =>
          rw [List.intercalate_singleton] at h
          exact hg h
      | cons g' groups =>
          rw [List.intercalate_cons_cons, List.mem_append, List.mem_append, List.mem_singleton] at h
          rcases h with (h | rfl) | h
          · exact hg h
          · decide
          · exact ih (fun g hmem => hgroups g (List.mem_cons_of_mem _ hmem)) h

/-- A well-formed text is read whole. -/
theorem strtomacaddress_macList {text bytes : Bytes} (h : MacList text bytes) :
    (strtomacaddress text).1 = bytes.length ∧ bytes.length ≤ 6 ∧
      (strtomacaddress text).2.val.take bytes.length = bytes := by
  obtain ⟨groups, ⟨hlo, hhi⟩, hgroups, rfl, rfl⟩ := h
  have hgraph : ∀ c ∈ [58].intercalate groups, 32 < c.toNat := fun c hc => by
    have := macList_range hgroups hc
    omega
  have htext : cString ([58].intercalate groups) = [58].intercalate groups := cString_of_graph hgraph
  have hread := scanGroups_intercalate groups hhi hgroups
  have hspace : skipSpace ([58].intercalate groups) ≠ [] := by
    cases hcase : [58].intercalate groups with
    | nil =>
        rw [hcase] at hread
        have hlen := congrArg List.length hread
        rw [List.length_map] at hlen
        exact absurd hlen (by rw [show scanGroups 6 [] = [] from rfl, List.length_nil]; omega)
    | cons c s =>
        rw [skipSpace_cons (isSpace_eq_false_of_lt (hgraph c (hcase ▸ List.mem_cons_self)))]
        exact List.cons_ne_nil c s
  have hbytes : (groups.map fun g => UInt32.ofNat (digitsValue 16 g)).map UInt32.toUInt8 =
      groups.map fun g => UInt8.ofNat (digitsValue 16 g) := by
    rw [List.map_map]
    apply List.map_congr_left
    intro g _
    simp
  refine ⟨?_, by rwa [List.length_map], ?_⟩
  · simp only [strtomacaddress, htext, hread, hspace, if_false, List.length_map]
  · simp only [strtomacaddress, htext, hread, List.length_map, hbytes]
    rw [List.take_append_of_le_length (List.length_map _).ge, List.take_of_length_le (List.length_map _).le]

theorem clampSa_natCast {n : Nat} (h : n ≤ 6) : clampSa n = n := by
  unfold clampSa
  split_ifs <;> omega

/-- The filter of a well-formed text matches the addresses that begin with its bytes. -/
theorem macFilter_matches_iff {text bytes : Bytes} (h : MacList text bytes) (m : Mac) :
    (macFilter text).Matches m ↔ m.val.take bytes.length = bytes := by
  obtain ⟨hcount, hlen, hbytes⟩ := strtomacaddress_macList h
  have hsz : (macFilter text).sz = bytes.length :=
    (congrArg clampSa hcount).trans (clampSa_natCast hlen)
  have hfilter : (macFilter text).bytes = bytes := by
    rw [Filter.bytes, hsz]
    exact hbytes
  rw [Filter.Matches, hsz, hfilter]

/-- One to six bytes printed are a well-formed text of these. -/
theorem macList_macText {ps : Bytes} (hlen : 1 ≤ ps.length ∧ ps.length ≤ 6) : MacList (macText ps) ps := by
  have hgroups : ∀ g ∈ ps.map fun p => numeral 16 2 p.toNat, IsHexByte g := by
    intro g hg
    obtain ⟨p, -, rfl⟩ := List.mem_map.mp hg
    have hlt : p.toNat < 256 := p.toNat_lt
    exact ⟨Or.inr (numeral_length_of_lt (b := 16) (w := 2) (by decide) hlt),
      fun c => isDigit_of_mem_numeral le_rfl (by decide)⟩
  have hbytes : ps = (ps.map fun p => numeral 16 2 p.toNat).map fun g => UInt8.ofNat (digitsValue 16 g) := by
    rw [List.map_map]
    refine ((List.map_congr_left fun p _ => ?_).trans (List.map_id ps)).symm
    rw [Function.comp_apply, digitsValue_numeral le_rfl (by decide), UInt8.ofNat_toNat, id]
  have htext : macText ps = [58].intercalate (ps.map fun p => numeral 16 2 p.toNat) := by rw [macText]
  rw [← List.length_map (fun p : UInt8 => numeral 16 2 p.toNat)] at hlen
  generalize ps.map (fun p => numeral 16 2 p.toNat) = groups at hlen hgroups hbytes htext
  exact ⟨groups, hlen, hgroups, htext, hbytes⟩

/-- An address printed is a well-formed text of its bytes. -/
theorem macList_mactostr (m : Mac) : MacList (mactostr m) m.val := by
  have hlen := m.property
  rw [mactostr]
  exact macList_macText ⟨by omega, by omega⟩

end Wacs
