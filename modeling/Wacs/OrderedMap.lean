import Mathlib.Data.List.Basic
import Mathlib.Data.List.Sort
import Mathlib.Order.Basic
import Mathlib.Tactic

/-! Finite maps kept as association lists with strictly increasing keys: the key-value view of an
ordered store. `seek` lists the records from the least key at or after a given one, in key order,
which is what a cursor positioned there visits. -/

/-- A finite map from an ordered key type. -/
structure OrderedMap (κ ν : Type) [LinearOrder κ] where
  entries : List (κ × ν)
  sorted : entries.Pairwise fun a b => a.1 < b.1

namespace OrderedMap

variable {κ ν : Type} [LinearOrder κ]

instance [DecidableEq ν] : DecidableEq (OrderedMap κ ν) := fun m m' =>
  decidable_of_iff (m.entries = m'.entries) ⟨fun h => by cases m; cases m'; cases h; rfl, fun h => h ▸ rfl⟩

theorem ext_entries {m m' : OrderedMap κ ν} (h : m.entries = m'.entries) : m = m' := by
  cases m
  cases m'
  cases h
  rfl

def empty : OrderedMap κ ν := ⟨[], List.Pairwise.nil⟩

/-- Insertion into a sorted list, replacing the value of an equal key. -/
def insertEntry (k : κ) (v : ν) : List (κ × ν) → List (κ × ν)
  | [] => [(k, v)]
  | e :: es =>
      if k < e.1 then (k, v) :: e :: es
      else if k = e.1 then (k, v) :: es
      else e :: insertEntry k v es

/-- An entry put before others with other keys. -/
theorem mem_cons_fresh {κ ν : Type} {k : κ} {es : List (κ × ν)} (hne : ∀ e ∈ es, e.1 ≠ k) (v : ν) (e : κ × ν) :
    e ∈ (k, v) :: es ↔ e = (k, v) ∨ (e ∈ es ∧ e.1 ≠ k) := by
  rw [List.mem_cons, and_iff_left_of_imp (hne e)]

theorem mem_insertEntry (k : κ) (v : ν) (es : List (κ × ν)) (hsorted : es.Pairwise fun a b => a.1 < b.1)
    (e : κ × ν) : e ∈ insertEntry k v es ↔ e = (k, v) ∨ (e ∈ es ∧ e.1 ≠ k) := by
  induction es with
  | nil => simp [insertEntry]
  | cons x es ih =>
      obtain ⟨hx, htail⟩ := List.pairwise_cons.mp hsorted
      rw [insertEntry]
      split_ifs with hlt heq
      · apply mem_cons_fresh
        intro e he
        rcases List.mem_cons.mp he with rfl | he
        · exact hlt.ne'
        · exact (hlt.trans (hx e he)).ne'
      · have hne : ∀ e ∈ es, e.1 ≠ k := fun e he => heq ▸ (hx e he).ne'
        rw [mem_cons_fresh hne]
        refine or_congr_right (and_congr_left fun hk => ?_)
        have hx : e ≠ x := fun h => hk ((congrArg Prod.fst h).trans heq.symm)
        rw [List.mem_cons, or_iff_right hx]
      · have hself : e = x ∧ e.1 ≠ k ↔ e = x :=
          and_iff_left_of_imp fun h hk => heq (hk.symm.trans (congrArg Prod.fst h))
        rw [List.mem_cons, ih htail, List.mem_cons, or_and_right, hself, or_left_comm]

theorem insertEntry_sorted (k : κ) (v : ν) (es : List (κ × ν))
    (hsorted : es.Pairwise fun a b => a.1 < b.1) :
    (insertEntry k v es).Pairwise fun a b => a.1 < b.1 := by
  induction es with
  | nil => simp [insertEntry]
  | cons x es ih =>
      obtain ⟨hx, htail⟩ := List.pairwise_cons.mp hsorted
      rw [insertEntry]
      split_ifs with hlt heq
      · refine List.pairwise_cons.mpr ⟨fun e he => ?_, hsorted⟩
        rcases List.mem_cons.mp he with rfl | he
        · exact hlt
        · exact hlt.trans (hx e he)
      · exact List.pairwise_cons.mpr ⟨fun e he => heq ▸ hx e he, htail⟩
      · refine List.pairwise_cons.mpr ⟨fun e he => ?_, ih htail⟩
        rcases (mem_insertEntry k v es htail e).mp he with rfl | ⟨he, _⟩
        · exact lt_of_le_of_ne (not_lt.mp hlt) (Ne.symm heq)
        · exact hx e he

def put (m : OrderedMap κ ν) (k : κ) (v : ν) : OrderedMap κ ν :=
  ⟨insertEntry k v m.entries, insertEntry_sorted k v m.entries m.sorted⟩

/-- The records that pass a test. -/
def filter (m : OrderedMap κ ν) (p : κ × ν → Bool) : OrderedMap κ ν :=
  ⟨m.entries.filter p, m.sorted.filter p⟩

def del (m : OrderedMap κ ν) (k : κ) : OrderedMap κ ν := m.filter fun e => decide (e.1 ≠ k)

def get (m : OrderedMap κ ν) (k : κ) : Option ν :=
  (m.entries.find? fun e => decide (e.1 = k)).map Prod.snd

/-- The records from the least key at or after `k` on. -/
def seek (m : OrderedMap κ ν) (k : κ) : List (κ × ν) :=
  m.entries.dropWhile fun e => decide (e.1 < k)

theorem keys_nodup (m : OrderedMap κ ν) : (m.entries.map Prod.fst).Nodup :=
  List.pairwise_map.mpr (m.sorted.imp fun hlt => hlt.ne)

theorem key_inj (m : OrderedMap κ ν) {k : κ} {v v' : ν} (h : (k, v) ∈ m.entries)
    (h' : (k, v') ∈ m.entries) : v = v' :=
  congrArg Prod.snd (List.inj_on_of_nodup_map m.keys_nodup h h' rfl)

theorem get_eq_some_iff (m : OrderedMap κ ν) (k : κ) (v : ν) : m.get k = some v ↔ (k, v) ∈ m.entries := by
  refine ⟨fun h => ?_, fun h => ?_⟩
  · obtain ⟨e, he, rfl⟩ := Option.map_eq_some_iff.mp h
    have hk : e.1 = k := by simpa using List.find?_some he
    rw [← hk]
    exact List.mem_of_find?_eq_some he
  · cases hfind : m.entries.find? fun e => decide (e.1 = k) with
    | none => exact absurd (List.find?_eq_none.mp hfind _ h) (by simp)
    | some e =>
        have hk : e.1 = k := by simpa using List.find?_some hfind
        have hmem : (k, e.2) ∈ m.entries := hk ▸ List.mem_of_find?_eq_some hfind
        rw [get, hfind, m.key_inj h hmem]
        rfl

theorem get_eq_none_iff (m : OrderedMap κ ν) (k : κ) : m.get k = none ↔ ∀ e ∈ m.entries, e.1 ≠ k := by
  simp [get]

@[simp] theorem mem_put (m : OrderedMap κ ν) (k : κ) (v : ν) (e : κ × ν) :
    e ∈ (m.put k v).entries ↔ e = (k, v) ∨ (e ∈ m.entries ∧ e.1 ≠ k) :=
  mem_insertEntry k v m.entries m.sorted e

@[simp] theorem mem_filter (m : OrderedMap κ ν) (p : κ × ν → Bool) (e : κ × ν) :
    e ∈ (m.filter p).entries ↔ e ∈ m.entries ∧ p e = true :=
  List.mem_filter

@[simp] theorem mem_del (m : OrderedMap κ ν) (k : κ) (e : κ × ν) :
    e ∈ (m.del k).entries ↔ e ∈ m.entries ∧ e.1 ≠ k := by
  simp [del]

@[simp] theorem mem_empty (e : κ × ν) : e ∉ (empty : OrderedMap κ ν).entries := List.not_mem_nil

@[simp] theorem get_put_self (m : OrderedMap κ ν) (k : κ) (v : ν) : (m.put k v).get k = some v := by
  simp [get_eq_some_iff]

theorem get_put_of_ne (m : OrderedMap κ ν) {k k' : κ} (v : ν) (h : k' ≠ k) :
    (m.put k v).get k' = m.get k' := by
  ext w
  simp [get_eq_some_iff, h]

theorem get_put_eq_some_iff (m : OrderedMap κ ν) (k k' : κ) (v w : ν) :
    (m.put k v).get k' = some w ↔ (k' = k ∧ w = v) ∨ k' ≠ k ∧ m.get k' = some w := by
  by_cases hk : k' = k
  · subst hk
    simp [eq_comm]
  · simp [m.get_put_of_ne v hk, hk]

@[simp] theorem get_empty (k : κ) : (empty : OrderedMap κ ν).get k = none := rfl

/-- Two maps with the same records are the same map. -/
theorem ext_mem {m m' : OrderedMap κ ν} (h : ∀ e, e ∈ m.entries ↔ e ∈ m'.entries) : m = m' := by
  have hperm : m.entries.Perm m'.entries :=
    (List.perm_ext_iff_of_nodup m.keys_nodup.of_map m'.keys_nodup.of_map).mpr h
  exact ext_entries (hperm.eq_of_pairwise (fun _ _ _ _ hab hba => absurd hab hba.asymm) m.sorted m'.sorted)

/-- Lists in key order with the same members are the same list. -/
theorem eq_of_mem {l l' : List (κ × ν)} (hl : l.Pairwise fun a b => a.1 < b.1)
    (hl' : l'.Pairwise fun a b => a.1 < b.1) (h : ∀ e, e ∈ l ↔ e ∈ l') : l = l' := by
  have heq : (⟨l, hl⟩ : OrderedMap κ ν) = ⟨l', hl'⟩ := ext_mem h
  exact congrArg entries heq

/-- Maps with the same value at each key are the same. -/
theorem ext_get {m m' : OrderedMap κ ν} (h : ∀ k, m.get k = m'.get k) : m = m' := by
  apply ext_mem
  intro e
  rw [← get_eq_some_iff m e.1 e.2, ← get_eq_some_iff m' e.1 e.2, h]

theorem isSome_get_iff (m : OrderedMap κ ν) (k : κ) : (m.get k).isSome ↔ k ∈ m.entries.map Prod.fst := by
  rw [Option.isSome_iff_exists, List.mem_map]
  constructor
  · rintro ⟨v, hv⟩
    exact ⟨(k, v), (m.get_eq_some_iff k v).mp hv, rfl⟩
  · rintro ⟨e, he, rfl⟩
    exact ⟨e.2, (m.get_eq_some_iff e.1 e.2).mpr he⟩

theorem isSome_get_put {m : OrderedMap κ ν} {k' : κ} (h : (m.get k').isSome) (k : κ) (v : ν) :
    ((m.put k v).get k').isSome := by
  by_cases hk : k' = k
  · rw [hk, get_put_self]
    rfl
  · rwa [get_put_of_ne m v hk]

/-- The keys of a map stand in the order they have in a map with more keys. -/
theorem keys_sublist {m m' : OrderedMap κ ν} (h : ∀ k, (m.get k).isSome → (m'.get k).isSome) :
    (m.entries.map Prod.fst).Sublist (m'.entries.map Prod.fst) := by
  have hsorted : ∀ m : OrderedMap κ ν, (m.entries.map Prod.fst).Pairwise (· ≤ ·) := fun m =>
    List.pairwise_map.mpr (m.sorted.imp fun hlt => hlt.le)
  refine List.sublist_of_subperm_of_pairwise ?_ (hsorted m) (hsorted m')
  exact List.subperm_of_subset m.keys_nodup fun k hk => (m'.isSome_get_iff k).mp (h k ((m.isSome_get_iff k).mpr hk))

theorem get_filter (m : OrderedMap κ ν) (p : κ × ν → Bool) (k : κ) :
    (m.filter p).get k = (m.get k).filter fun v => p (k, v) := by
  apply Option.ext
  intro v
  rw [get_eq_some_iff, mem_filter, ← get_eq_some_iff, Option.filter_eq_some_iff]

theorem seek_eq_filter (m : OrderedMap κ ν) (k : κ) :
    m.seek k = m.entries.filter fun e => decide (k ≤ e.1) := by
  have hsplit : ∀ es : List (κ × ν), es.Pairwise (fun a b => a.1 < b.1) →
      es.dropWhile (fun e => decide (e.1 < k)) = es.filter fun e => decide (k ≤ e.1) := by
    intro es hsorted
    induction es with
    | nil => rfl
    | cons x es ih =>
        obtain ⟨hx, htail⟩ := List.pairwise_cons.mp hsorted
        by_cases hlt : x.1 < k
        · rw [List.dropWhile_cons_of_pos (by simpa using hlt), ih htail,
            List.filter_cons_of_neg (by simpa using hlt)]
        · have hle : k ≤ x.1 := not_lt.mp hlt
          rw [List.dropWhile_cons_of_neg (by simpa using hle), eq_comm, List.filter_eq_self]
          intro e he
          rcases List.mem_cons.mp he with rfl | he
          · simpa using hle
          · simpa using (hle.trans (hx e he).le)
  exact hsplit m.entries m.sorted

theorem mem_seek (m : OrderedMap κ ν) (k : κ) (e : κ × ν) :
    e ∈ m.seek k ↔ e ∈ m.entries ∧ k ≤ e.1 := by
  simp [seek_eq_filter]

theorem seek_sorted (m : OrderedMap κ ν) (k : κ) : (m.seek k).Pairwise fun a b => a.1 < b.1 := by
  rw [seek_eq_filter]
  exact m.sorted.filter _

theorem seek_sublist (m : OrderedMap κ ν) (k : κ) : (m.seek k).Sublist m.entries := List.dropWhile_sublist _

/-- A selection that holds of no record before `k` is the same over the whole map and from `k`. -/
theorem filter_seek (m : OrderedMap κ ν) (k : κ) (p : κ × ν → Bool)
    (hbefore : ∀ e ∈ m.entries, e.1 < k → p e = false) : (m.seek k).filter p = m.entries.filter p := by
  rw [seek_eq_filter, List.filter_filter]
  refine List.filter_congr fun e he => ?_
  rcases lt_or_ge e.1 k with hlt | hge
  · simp [hbefore e he hlt]
  · simp [hge]

/-- To leave out the keys of the selected records is to leave out the selected records. -/
theorem filter_keys_not_mem (m : OrderedMap κ ν) (p : κ × ν → Bool) :
    (m.filter fun e => decide (e.1 ∉ (m.entries.filter p).map Prod.fst)) = m.filter fun e => !p e := by
  refine ext_mem fun e => ?_
  simp only [mem_filter, List.mem_map, List.mem_filter, decide_eq_true_eq, Bool.not_eq_true',
    and_congr_right_iff]
  intro he
  constructor
  · intro hnot
    by_contra hp
    exact hnot ⟨e, ⟨he, by simpa using hp⟩, rfl⟩
  · rintro hp ⟨e', ⟨he', hp'⟩, hkey⟩
    have hval : e'.2 = e.2 := m.key_inj (k := e.1) (by rw [← hkey]; exact he') he
    rw [Prod.ext hkey hval, hp] at hp'
    exact Bool.false_ne_true hp'

/-- A map gets smaller by as many records as are left out by their keys. -/
theorem length_filter_keys_not_mem (m : OrderedMap κ ν) {removed : List (κ × ν)} (h : removed.Sublist m.entries) :
    (m.filter fun e => decide (e.1 ∉ removed.map Prod.fst)).entries.length + removed.length = m.entries.length := by
  have hnodup : m.entries.Nodup := m.keys_nodup.of_map
  have hgone : (m.entries.filter fun e => decide (e.1 ∈ removed.map Prod.fst)).Perm removed := by
    apply (List.perm_ext_iff_of_nodup (hnodup.filter _) (h.nodup hnodup)).mpr
    intro e
    rw [List.mem_filter, decide_eq_true_eq]
    constructor
    · rintro ⟨he, hkey⟩
      obtain ⟨x, hx, hkey⟩ := List.mem_map.mp hkey
      have hval : x.2 = e.2 := m.key_inj (k := e.1) (by rw [← hkey]; exact h.subset hx) he
      rwa [← Prod.ext hkey hval]
    · exact fun he => ⟨h.subset he, List.mem_map_of_mem he⟩
  calc (m.filter fun e => decide (e.1 ∉ removed.map Prod.fst)).entries.length + removed.length
      = (m.entries.filter fun e => !decide (e.1 ∈ removed.map Prod.fst)).length +
          (m.entries.filter fun e => decide (e.1 ∈ removed.map Prod.fst)).length := by
        rw [hgone.length_eq]
        simp only [filter, decide_not]
    _ = m.entries.length := by rw [Nat.add_comm, ← List.length_eq_length_filter_add]

/-- Some records and the others are all. -/
theorem length_filter_add (m : OrderedMap κ ν) (p : κ × ν → Bool) :
    (m.entries.filter p).length + (m.filter fun e => !p e).entries.length = m.entries.length :=
  (List.length_eq_length_filter_add p).symm

/-- The map without the records at the keys of some. -/
def without (m : OrderedMap κ ν) (records : List (κ × ν)) : OrderedMap κ ν :=
  m.filter fun e => decide (e.1 ∉ records.map Prod.fst)

@[simp] theorem mem_without (m : OrderedMap κ ν) (records : List (κ × ν)) (e : κ × ν) :
    e ∈ (m.without records).entries ↔ e ∈ m.entries ∧ e.1 ∉ records.map Prod.fst := by
  rw [without, mem_filter, decide_eq_true_eq]

theorem without_nil (m : OrderedMap κ ν) : m.without [] = m := ext_mem fun e => by simp

theorem length_without (m : OrderedMap κ ν) {removed : List (κ × ν)} (h : removed.Sublist m.entries) :
    (m.without removed).entries.length + removed.length = m.entries.length :=
  m.length_filter_keys_not_mem h

/-- Writes applied in order. -/
def putAll (m : OrderedMap κ ν) (writes : List (κ × ν)) : OrderedMap κ ν :=
  writes.foldl (fun m w => m.put w.1 w.2) m

@[simp] theorem putAll_nil (m : OrderedMap κ ν) : m.putAll [] = m := rfl

@[simp] theorem putAll_cons (m : OrderedMap κ ν) (w : κ × ν) (ws : List (κ × ν)) :
    m.putAll (w :: ws) = (m.put w.1 w.2).putAll ws := rfl

theorem putAll_append (m : OrderedMap κ ν) (ws ws' : List (κ × ν)) :
    m.putAll (ws ++ ws') = (m.putAll ws).putAll ws' :=
  List.foldl_append

/-- What is there after writes was written, or was there before. -/
theorem mem_of_mem_putAll {m : OrderedMap κ ν} {ws : List (κ × ν)} {e : κ × ν} (h : e ∈ (m.putAll ws).entries) :
    e ∈ ws ∨ e ∈ m.entries := by
  induction ws generalizing m with
  | nil => exact Or.inr h
  | cons w ws ih =>
      rcases ih h with hmem | hmem
      · exact Or.inl (List.mem_cons_of_mem w hmem)
      · rcases (mem_put m w.1 w.2 e).mp hmem with rfl | ⟨hmem, -⟩
        · exact Or.inl List.mem_cons_self
        · exact Or.inr hmem

/-- A write adds one record at most of those that pass a test, and none when it does not pass itself. -/
theorem length_filter_put_le (m : OrderedMap κ ν) (k : κ) (v : ν) (p : κ × ν → Bool) :
    ((m.put k v).entries.filter p).length ≤ (m.entries.filter p).length + [(k, v)].countP p := by
  have hinsert : ∀ es : List (κ × ν),
      ((insertEntry k v es).filter p).length ≤ (es.filter p).length + [(k, v)].countP p := by
    intro es
    rw [List.countP_eq_length_filter]
    induction es with
    | nil => exact (Nat.zero_add _).ge
    | cons e es ih =>
        rw [insertEntry]
        split_ifs
        · rw [← List.singleton_append, List.filter_append, List.length_append, Nat.add_comm]
        · rw [← List.singleton_append, List.filter_append, List.length_append, Nat.add_comm]
          exact Nat.add_le_add_right ((List.sublist_cons_self e es).filter p).length_le _
        · rw [List.filter_cons, List.filter_cons]
          split_ifs
          · rw [List.length_cons, List.length_cons]
            omega
          · exact ih
  exact hinsert m.entries

theorem length_filter_putAll_le (m : OrderedMap κ ν) (ws : List (κ × ν)) (p : κ × ν → Bool) :
    ((m.putAll ws).entries.filter p).length ≤ (m.entries.filter p).length + ws.countP p := by
  induction ws generalizing m with
  | nil => exact le_rfl
  | cons w ws ih =>
      obtain ⟨k, v⟩ := w
      have hput := m.length_filter_put_le k v p
      have hrest := ih (m.put k v)
      rw [putAll_cons, ← List.singleton_append, List.countP_append]
      dsimp only
      omega

/-- The value of the last write to a key. -/
def lastWrite (ws : List (κ × ν)) (k : κ) : Option ν :=
  (ws.reverse.find? fun w => decide (w.1 = k)).map Prod.snd

theorem lastWrite_concat (ws : List (κ × ν)) (w : κ × ν) (k : κ) :
    lastWrite (ws ++ [w]) k = if w.1 = k then some w.2 else lastWrite ws k := by
  rw [lastWrite, List.reverse_concat]
  split_ifs with hk
  · rw [List.find?_cons_of_pos (by simpa using hk)]
    rfl
  · rw [List.find?_cons_of_neg (by simpa using hk), lastWrite]

theorem lastWrite_isSome_iff (ws : List (κ × ν)) (k : κ) : (lastWrite ws k).isSome ↔ ∃ w ∈ ws, w.1 = k := by
  simp [lastWrite]

/-- A suffix of the writes with a write to the key has the last one. -/
theorem lastWrite_drop (ws : List (κ × ν)) (l : Nat) (k : κ) (h : ∃ w ∈ ws.drop l, w.1 = k) :
    lastWrite (ws.drop l) k = lastWrite ws k := by
  conv_rhs => rw [← List.take_append_drop l ws, lastWrite, List.reverse_append, List.find?_append]
  have hsome := (lastWrite_isSome_iff _ k).mpr h
  unfold lastWrite at hsome ⊢
  cases hfind : (ws.drop l).reverse.find? fun w => decide (w.1 = k) with
  | none => simp [hfind] at hsome
  | some w => rfl

/-- A key holds the last write to it, or what it held before when there is none. -/
theorem get_putAll (m : OrderedMap κ ν) (ws : List (κ × ν)) (k : κ) :
    (m.putAll ws).get k = (lastWrite ws k).or (m.get k) := by
  induction ws using List.reverseRecOn with
  | nil => rfl
  | append_singleton ws w ih =>
      rw [putAll_append, putAll_cons, putAll_nil, lastWrite_concat]
      split_ifs with hk
      · simp [hk]
      · rw [get_put_of_ne _ _ (Ne.symm hk), ih]

/-- Entries with distinct keys, put one after the other in any order, are the map. -/
theorem get_putAll_empty_iff (ws : List (κ × ν)) (hnodup : (ws.map Prod.fst).Nodup) (k : κ) (v : ν) :
    ((empty : OrderedMap κ ν).putAll ws).get k = some v ↔ (k, v) ∈ ws := by
  induction ws using List.reverseRecOn with
  | nil => simp
  | append_singleton ws w ih =>
      rw [List.map_append, List.nodup_append] at hnodup
      obtain ⟨hws, -, hdisjoint⟩ := hnodup
      rw [putAll_append, putAll_cons, putAll_nil, get_put_eq_some_iff, ih hws, List.mem_append,
        List.mem_singleton, Prod.ext_iff, or_comm]
      refine or_congr_left ⟨fun h => h.2, fun h => ⟨fun heq => ?_, h⟩⟩
      exact hdisjoint k (List.mem_map_of_mem h) w.1 (by simp) heq

end OrderedMap
