import Wacs.CopyLengths
import Wacs.PgReadLog

/-! `strtomacaddress` against the contract of its header: the number of bytes read, the bytes, and the zeroes
behind them, for any text; and what it makes of the texts of the two printers. -/

namespace Wacs

open TextNumeral TextScan

/-- The colon-separated groups of a C string. -/
def colonGroups (text : Bytes) : List Bytes := (cString text).splitOn 58

/-- The value `%02x` reads from a group, as a byte. -/
def groupValue (g : Bytes) : Option UInt8 := (scanHex 2 g).map fun x => x.1.toUInt8

/-- What is read of a text is the value of its first group, or is read behind the colon after it. -/
theorem scanGroups_cases {n i : Nat} {g rest : Bytes} {v : UInt32} (hg : 58 ∉ g) (hrest : ∀ c ∈ rest.head?, c = 58)
    (h : (scanGroups (n + 1) (g ++ rest))[i]? = some v) :
    (i = 0 ∧ ∃ tail, scanHex 2 g = some (v, tail)) ∨
      ∃ t j, rest = 58 :: t ∧ i = j + 1 ∧ (scanGroups n t)[j]? = some v := by
  rw [scanGroups, scanHex_colon 2 g hrest] at h
  cases hread : scanHex 2 g with
  | none => simp [hread] at h
  | some x =>
      obtain ⟨u, tail⟩ := x
      rw [hread, Option.map_some] at h
      cases i with
      | zero =>
          have hfirst : u = v := by
            split at h
            all_goals simp_all
          exact Or.inl ⟨rfl, tail, by rw [hfirst]⟩
      | succ i =>
          cases tail with
          | nil =>
              cases rest with
              | nil => cases h
              | cons c t =>
                  obtain rfl := hrest c rfl
                  exact Or.inr ⟨t, i, rfl, rfl, h⟩
          | cons c tail =>
              -- the conversion ends inside the group, and nothing is read behind it
              have hc : c ≠ 58 := fun hc => hg (hc ▸ scanHex_rest_subset hread List.mem_cons_self)
              simp [hc] at h

/-- Each conversion reads its own group. -/
theorem scanGroups_groups (n : Nat) (s : Bytes) {i : Nat} {v : UInt32} (h : (scanGroups n s)[i]? = some v) :
    ∃ g rest, (s.splitOn 58)[i]? = some g ∧ scanHex 2 g = some (v, rest) := by
  induction n generalizing s i with
  | zero => simp [scanGroups] at h
  | succ n ih =>
      by_cases hcolon : 58 ∈ s
      · obtain ⟨g, t, rfl, hg⟩ := List.eq_append_cons_of_mem hcolon
        rw [List.splitOn_append_cons_self_of_not_mem hg]
        rcases scanGroups_cases hg (fun _ => colon_head) h with ⟨rfl, rest, hread⟩ | ⟨t', j, ht, rfl, hj⟩
        · exact ⟨g, rest, rfl, hread⟩
        · obtain rfl := (List.cons.inj ht).2
          exact ih t hj
      · rw [List.splitOn_eq_singleton hcolon]
        rw [← List.append_nil s] at h
        have hend : ∀ c ∈ ([] : Bytes).head?, c = 58 := by simp
        rcases scanGroups_cases hcolon hend h with ⟨rfl, rest, hread⟩ | ⟨t, j, ht, -⟩
        · exact ⟨s, rest, rfl, hread⟩
        · cases ht

/-- What the header says of a text: 0 to 6 bytes read, from the first groups, and zeroes. -/
def MeetsContract (text : Bytes) : Prop :=
  ∃ c : Nat, c ≤ 6 ∧ (strtomacaddress text).1 = c ∧
    (∀ i, i < c → ∃ g, (colonGroups text)[i]? = some g ∧ groupValue g = (strtomacaddress text).2.val[i]?) ∧
    ∀ i, c ≤ i → i < 6 → (strtomacaddress text).2.val[i]? = some 0

/-- The bytes, whatever the number returned. -/
theorem strtomacaddress_bytes (text : Bytes) :
    (strtomacaddress text).2.val = (scanGroups 6 (cString text)).map UInt32.toUInt8 ++
      List.replicate (6 - (scanGroups 6 (cString text)).length) 0 := rfl

theorem strtomacaddress_count {text : Bytes} (h : ¬Blank text) :
    (strtomacaddress text).1 = (scanGroups 6 (cString text)).length := by
  have hcount := (strtomacaddress_nonneg_iff text).mpr h
  unfold strtomacaddress at hcount ⊢
  dsimp only at hcount ⊢
  split_ifs at hcount ⊢
  · exact absurd hcount (by decide)
  · rfl

theorem meetsContract_iff (text : Bytes) : MeetsContract text ↔ ¬Blank text := by
  refine ⟨?_, fun h => ?_⟩
  · rintro ⟨c, -, hc, -⟩
    exact (strtomacaddress_nonneg_iff text).mp (hc ▸ Int.natCast_nonneg c)
  · have hle := scanGroups_length_le 6 (cString text)
    refine ⟨_, hle, strtomacaddress_count h, fun i hi => ?_, fun i hi hi' => ?_⟩
    · have hsome := List.getElem?_eq_getElem hi
      obtain ⟨g, rest, hg, hread⟩ := scanGroups_groups 6 (cString text) hsome
      refine ⟨g, hg, ?_⟩
      rw [strtomacaddress_bytes, List.getElem?_append_left (by rwa [List.length_map]), List.getElem?_map, hsome,
        groupValue, hread]
      rfl
    · rw [strtomacaddress_bytes, List.getElem?_append_right (by rwa [List.length_map]), List.getElem?_replicate,
        List.length_map, if_pos (by omega)]

/-- The bytes come back with their number, and zeroes behind them. -/
def ReadsBack (printed : Bytes) (p : Bytes) : Prop :=
  (strtomacaddress printed).1 = p.length ∧
    (strtomacaddress printed).2.val = p ++ List.replicate (6 - p.length) 0

theorem readsBack_mactostr2_iff {p : Bytes} (h : p.length ≤ 6) : ReadsBack (mactostr2 p) p ↔ p ≠ [] := by
  rw [mactostr2_eq]
  refine ⟨?_, fun hne => strtomacaddress_macText h hne⟩
  rintro ⟨hcount, -⟩ rfl
  exact absurd hcount (by decide)

/-- **The parser against its contract and the printers.** The text of no bytes is blank. -/
theorem strtomacaddress_contract_iff (text p : Bytes) (m : Mac) (hp : p.length ≤ 6) :
    (MeetsContract text ↔ ¬Blank text) ∧ (ReadsBack (mactostr2 p) p ↔ p ≠ []) ∧ ReadsBack (mactostr m) m.val := by
  refine ⟨meetsContract_iff text, readsBack_mactostr2_iff hp, ?_⟩
  exact strtomacaddress_macText m.property.le (mac_ne_nil m)

theorem strtomacaddress_contract_sample : ReadsBack (mactostr2 [0xaa, 1]) [0xaa, 1] :=
  (strtomacaddress_contract_iff [] [0xaa, 1] sampleMac (by decide)).2.1.mpr (by decide)

/-- For an empty text the number is -1. -/
theorem strtomacaddress_contract_fails :
    ¬((∀ text, MeetsContract text) ∧ (∀ p : Bytes, p.length ≤ 6 → ReadsBack (mactostr2 p) p) ∧
      ∀ m : Mac, ReadsBack (mactostr m) m.val) := by
  rintro ⟨hall, -⟩
  obtain ⟨c, -, hc, -⟩ := hall []
  have hneg : (strtomacaddress []).1 = -1 := rfl
  omega

end Wacs
