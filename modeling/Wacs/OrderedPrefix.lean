import Wacs.OrderBytes
import Wacs.OrderedMap

/-! Longest-prefix match over writes to strings: the value of the longest key that a text begins with. Writes to
keys of one length more than all before are tried first. -/

namespace OrderedMap

variable {α ν : Type} [LinearOrder α]

/-- What the longest key that is a prefix of `d` holds after the writes, if there is one. -/
def LongestMatch (ws : List (List α × ν)) (d : List α) : Option ν → Prop
  | some v => ∃ k, k <+: d ∧ lastWrite ws k = some v ∧ ∀ w ∈ ws, w.1 <+: d → w.1.length ≤ k.length
  | none => ∀ w ∈ ws, ¬w.1 <+: d

theorem lastWrite_append {κ : Type} [LinearOrder κ] (ws ws' : List (κ × ν)) (k : κ) :
    lastWrite (ws ++ ws') k = (lastWrite ws' k).or (lastWrite ws k) := by
  rw [lastWrite, List.reverse_append, List.find?_append, Option.map_or]
  rfl

theorem lastWrite_eq_none_iff {κ : Type} [LinearOrder κ] (ws : List (κ × ν)) (k : κ) :
    lastWrite ws k = none ↔ ∀ w ∈ ws, w.1 ≠ k := by
  have h := (lastWrite_isSome_iff ws k).not
  rw [Bool.not_eq_true, Option.isSome_eq_false_iff, Option.isNone_iff_eq_none] at h
  rw [h]
  exact ⟨fun h w hw hk => h ⟨w, hw, hk⟩, fun h ⟨w, hw, hk⟩ => h w hw hk⟩

theorem exists_of_lastWrite {κ : Type} [LinearOrder κ] {ws : List (κ × ν)} {k : κ} {v : ν}
    (h : lastWrite ws k = some v) : ∃ w ∈ ws, w.1 = k :=
  (lastWrite_isSome_iff ws k).mp (by rw [h]; rfl)

theorem lastWrite_of_length_ne {ws : List (List α × ν)} {n : Nat} (h : ∀ w ∈ ws, w.1.length = n) {k : List α}
    (hk : k.length ≠ n) : lastWrite ws k = none :=
  (lastWrite_eq_none_iff ws k).mpr fun w hw heq => hk (heq ▸ h w hw)

/-- Keys renamed one to one. -/
theorem lastWrite_map {κ κ' : Type} [LinearOrder κ] [LinearOrder κ'] {f : κ → κ'} (hf : Function.Injective f)
    (ws : List (κ × ν)) (k : κ) : lastWrite (ws.map fun w => (f w.1, w.2)) (f k) = lastWrite ws k := by
  have hkey : (fun w : κ × ν => decide (f w.1 = f k)) = fun w => decide (w.1 = k) := by
    funext w
    simp only [hf.eq_iff]
  rw [lastWrite, ← List.map_reverse, List.find?_map, Option.map_map, lastWrite]
  exact congrArg (fun p => (ws.reverse.find? p).map Prod.snd) hkey

theorem longestMatch_nil (d : List α) (o : Option ν) : LongestMatch [] d o ↔ o = none := by
  cases o with
  | none => exact iff_of_true nofun rfl
  | some v => exact iff_of_false (fun ⟨_, _, h, _⟩ => by cases h) nofun

section Append

variable {ws ws' : List (List α × ν)} {n : Nat} (hlen : ∀ w ∈ ws', w.1.length = n)
include hlen

omit [LinearOrder α] in
theorem eq_take_of_mem {d : List α} {w : List α × ν} (hw : w ∈ ws') (h : w.1 <+: d) : w.1 = d.take n := by
  have htake := List.prefix_iff_eq_take.mp h
  rwa [hlen w hw] at htake

/-- A longer key that matches is the match. -/
theorem longestMatch_of_last (hlt : ∀ w ∈ ws, w.1.length < n) {d : List α} {v : ν}
    (h : lastWrite ws' (d.take n) = some v) (o : Option ν) : LongestMatch (ws ++ ws') d o ↔ o = some v := by
  obtain ⟨w, hw, hkey⟩ := exists_of_lastWrite h
  have hwlen : (d.take n).length = n := by rw [← hkey, hlen w hw]
  cases o with
  | none =>
      refine iff_of_false (fun hnone => ?_) nofun
      exact hnone w (List.mem_append_right _ hw) (hkey ▸ List.take_prefix n d)
  | some u =>
      rw [LongestMatch, Option.some.injEq]
      constructor
      · rintro ⟨k, hk, hlast, hmax⟩
        have hge := hmax w (List.mem_append_right _ hw) (hkey ▸ List.take_prefix n d)
        rw [hkey, hwlen] at hge
        -- no key among the shorter ones
        have hshort : lastWrite ws k = none := (lastWrite_eq_none_iff ws k).mpr fun x hx heq =>
          absurd (hlt x hx) (not_lt.mpr (heq ▸ hge))
        rw [lastWrite_append, hshort, Option.or_none] at hlast
        obtain ⟨x, hx, rfl⟩ := exists_of_lastWrite hlast
        rw [eq_take_of_mem hlen hx hk, h] at hlast
        exact (Option.some.inj hlast).symm
      · rintro rfl
        refine ⟨d.take n, List.take_prefix n d, by rw [lastWrite_append, h, Option.some_or], fun x hx _ => ?_⟩
        rw [hwlen]
        rcases List.mem_append.mp hx with hx | hx
        · exact (hlt x hx).le
        · exact (hlen x hx).le

/-- Longer keys that do not match leave the match as it is. -/
theorem longestMatch_of_none {d : List α} (h : lastWrite ws' (d.take n) = none) (o : Option ν) :
    LongestMatch (ws ++ ws') d o ↔ LongestMatch ws d o := by
  have hno : ∀ w ∈ ws', ¬w.1 <+: d := fun w hw hd =>
    (lastWrite_eq_none_iff ws' _).mp h w hw (eq_take_of_mem hlen hw hd)
  cases o with
  | none =>
      refine ⟨fun hall w hw => hall w (List.mem_append_left _ hw), fun hall w hw => ?_⟩
      exact (List.mem_append.mp hw).elim (hall w) (hno w)
  | some v =>
      have hlast : ∀ k, k <+: d → lastWrite (ws ++ ws') k = lastWrite ws k := by
        intro k hk
        have hnone : lastWrite ws' k = none := (lastWrite_eq_none_iff ws' k).mpr fun w hw heq =>
          hno w hw (heq ▸ hk)
        rw [lastWrite_append, hnone, Option.none_or]
      constructor
      · rintro ⟨k, hk, hv, hmax⟩
        exact ⟨k, hk, hlast k hk ▸ hv, fun w hw => hmax w (List.mem_append_left _ hw)⟩
      · rintro ⟨k, hk, hv, hmax⟩
        refine ⟨k, hk, (hlast k hk).trans hv, fun w hw hd => ?_⟩
        exact (List.mem_append.mp hw).elim (fun hw => hmax w hw hd) fun hw => absurd hd (hno w hw)

/-- Writes to longer keys are looked at first. -/
theorem longestMatch_append (hlt : ∀ w ∈ ws, w.1.length < n) {d : List α} {x : Option ν}
    (hx : ∀ o, LongestMatch ws d o ↔ o = x) (o : Option ν) :
    LongestMatch (ws ++ ws') d o ↔ o = (lastWrite ws' (d.take n)).or x := by
  cases h : lastWrite ws' (d.take n) with
  | none => rw [longestMatch_of_none hlen h, Option.none_or, hx]
  | some v => rw [longestMatch_of_last hlen hlt h, Option.some_or]

end Append

end OrderedMap
