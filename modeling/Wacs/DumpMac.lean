import Wacs.Layout
import Wacs.TextScan

/-! `hostapd-log-entry.cpp`: MAC addresses printed, and read. -/

namespace Wacs

open TextNumeral TextScan

/-- Some bytes as groups of two hexadecimal digits with colons between them. -/
def macText (bytes : Bytes) : Bytes := [58].intercalate (bytes.map fun p => numeral 16 2 p.toNat)

def mactostr (value : Mac) : Bytes := macText value.val

/-- What `%02x:%02x:..` assigns, `n` conversions at most: each one after the first needs a colon. -/
def scanGroups : Nat → Bytes → List UInt32
  | 0, _ => []
  | n + 1, s =>
      match scanHex 2 s with
      | none => []
      | some (v, 58 :: s) => v :: scanGroups n s
      | some (v, _) => [v]

theorem scanGroups_length_le (n : Nat) (s : Bytes) : (scanGroups n s).length ≤ n := by
  induction n generalizing s with
  | zero => exact Nat.le_refl 0
  | succ n ih =>
      unfold scanGroups
      split
      · exact Nat.zero_le _
      · exact Nat.succ_le_succ (ih _)
      · exact Nat.succ_le_succ (Nat.zero_le n)

/-- The number of bytes read, `EOF` for a text without any, and the address, filled with zeroes. -/
def strtomacaddress (value : Bytes) : Int × Mac :=
  let s := cString value
  let v := scanGroups 6 s
  (if skipSpace s = [] then -1 else v.length,
    ⟨v.map UInt32.toUInt8 ++ List.replicate (6 - v.length) 0, by
      have := scanGroups_length_le 6 s
      simp only [List.length_append, List.length_map, List.length_replicate, v]
      omega⟩)

theorem strtomacaddress_range (value : Bytes) : -1 ≤ (strtomacaddress value).1 ∧ (strtomacaddress value).1 ≤ 6 := by
  have hle := scanGroups_length_le 6 (cString value)
  unfold strtomacaddress
  dsimp only
  split_ifs <;> omega

/-! ### Reading what is printed -/

theorem macText_cons (p q : UInt8) (ps : Bytes) :
    macText (p :: q :: ps) = numeral 16 2 p.toNat ++ 58 :: macText (q :: ps) := by
  rw [macText, List.map_cons, List.map_cons, List.intercalate_cons_cons, List.append_assoc]
  rfl

theorem macText_singleton (p : UInt8) : macText [p] = numeral 16 2 p.toNat := by
  simp [macText]

theorem macText_graph {ps : Bytes} {c : UInt8} (h : c ∈ macText ps) : 32 < c.toNat := by
  have hdigit : ∀ {p : UInt8}, c ∈ numeral 16 2 p.toNat → 32 < c.toNat := by
    intro p hc
    have := numeral_range (b := 16) le_rfl (by decide) hc
    omega
  induction ps with
  | nil => cases h
  | cons p ps ih =>
      cases ps with
      | nil => exact hdigit (macText_singleton p ▸ h)
      | cons q ps =>
          rw [macText_cons, List.mem_append, List.mem_cons] at h
          rcases h with h | rfl | h
          · exact hdigit h
          · decide
          · exact ih h

/-- The conversions read the bytes printed. -/
theorem scanGroups_macText {n : Nat} (ps : Bytes) (hn : ps.length ≤ n) :
    scanGroups n (macText ps) = ps.map fun p => UInt32.ofNat p.toNat := by
  induction ps generalizing n with
  | nil =>
      cases n with
      | zero => rfl
      | succ n => rfl
  | cons p ps ih =>
      cases n with
      | zero => cases hn
      | succ n =>
          cases ps with
          | nil =>
              have hread := scanHex_numeral p.toNat_lt []
              rw [List.append_nil] at hread
              rw [macText_singleton, scanGroups, hread]
              rfl
          | cons q ps =>
              rw [macText_cons, scanGroups, scanHex_numeral p.toNat_lt]
              exact congrArg _ (ih (Nat.le_of_succ_le_succ hn))

theorem mactostr_graph {m : Mac} {c : UInt8} (h : c ∈ mactostr m) : 32 < c.toNat := macText_graph h

theorem macText_ne_nil {ps : Bytes} (h : ps ≠ []) : macText ps ≠ [] := by
  have hdigits : ∀ p : UInt8, numeral 16 2 p.toNat ≠ [] := fun p => numeral_ne_nil 16 p.toNat (by decide)
  cases ps with
  | nil => exact absurd rfl h
  | cons p ps =>
      cases ps with
      | nil =>
          rw [macText_singleton]
          exact hdigits p
      | cons q ps =>
          rw [macText_cons]
          exact fun h => hdigits p (List.append_eq_nil_iff.mp h).1

theorem mac_ne_nil (m : Mac) : m.val ≠ [] := fun h => absurd (h ▸ m.property : ([] : Bytes).length = 6) (by decide)

theorem mactostr_ne_nil (m : Mac) : mactostr m ≠ [] := macText_ne_nil (mac_ne_nil m)

/-- Bytes printed are read back, and filled with zeroes. -/
theorem strtomacaddress_macText {ps : Bytes} (hlen : ps.length ≤ 6) (hne : ps ≠ []) :
    (strtomacaddress (macText ps)).1 = ps.length ∧
      (strtomacaddress (macText ps)).2.val = ps ++ List.replicate (6 - ps.length) 0 := by
  have htext : cString (macText ps) = macText ps := cString_of_graph fun c => macText_graph
  have hgroups : scanGroups 6 (macText ps) = ps.map fun p => UInt32.ofNat p.toNat := scanGroups_macText ps hlen
  have hspace : skipSpace (macText ps) ≠ [] := by
    cases hm : macText ps with
    | nil => exact absurd hm (macText_ne_nil hne)
    | cons c s =>
        have hc := macText_graph (hm ▸ List.mem_cons_self : c ∈ macText ps)
        rw [skipSpace_cons (isSpace_eq_false_of_lt hc)]
        exact List.cons_ne_nil c s
  have hbytes : (ps.map fun p => UInt32.ofNat p.toNat).map UInt32.toUInt8 = ps := by
    rw [List.map_map]
    refine (List.map_congr_left fun p _ => ?_).trans (List.map_id _)
    simp
  refine ⟨?_, ?_⟩
  · simp only [strtomacaddress, htext, hgroups, hspace, if_false, List.length_map]
  · simp only [strtomacaddress, htext, hgroups, List.length_map, hbytes]

/-- An address printed is read back whole. -/
theorem strtomacaddress_mactostr (m : Mac) : strtomacaddress (mactostr m) = (6, m) := by
  obtain ⟨hcount, hbytes⟩ := strtomacaddress_macText m.property.le (mac_ne_nil m)
  refine Prod.ext ?_ (Subtype.ext ?_)
  · exact hcount.trans (congrArg _ m.property)
  · exact hbytes.trans (by rw [m.property, Nat.sub_self, List.replicate_zero, List.append_nil])

end Wacs
