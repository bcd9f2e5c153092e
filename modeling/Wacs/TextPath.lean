import Mathlib.Data.List.Infix

/-! File names as bytes: the components between slashes, and where a name leads without regard to symbolic
links. A name put behind another one by a slash, without a component of two dots, does not lead out of it. -/

namespace TextPath

def slash : UInt8 := 47

def dot : List UInt8 := [46]

def dotDot : List UInt8 := [46, 46]

/-- The pieces between slashes; an empty one for each slash at an end, or next to another. -/
def components (name : List UInt8) : List (List UInt8) := name.splitOn slash

/-- One component down the directories from the root: none for `.` or an empty one, one up for `..`. -/
def descend (place : List (List UInt8)) (c : List UInt8) : List (List UInt8) :=
  if c = [] ∨ c = dot then place else if c = dotDot then place.dropLast else place ++ [c]

/-- The place a name leads to; `cwd` is the working directory. An empty name stands for the root, as it does in
front of an absolute one. -/
def resolve (cwd : List (List UInt8)) (name : List UInt8) : List (List UInt8) :=
  (components name).foldl descend (if name.head?.all (· = slash) then [] else cwd)

/-- Absolute, without a component of two dots. -/
structure Descending (name : List UInt8) : Prop where
  absolute : name.head? = some slash
  no_dotDot : dotDot ∉ components name

theorem components_append (a b : List UInt8) : components (a ++ slash :: b) = components a ++ components b :=
  List.splitOn_append_cons_self a b

theorem components_cons (b : List UInt8) : components (slash :: b) = [] :: components b := components_append [] b

theorem components_eq_singleton {name : List UInt8} (h : slash ∉ name) : components name = [name] :=
  List.splitOn_eq_singleton h

/-- Text without a slash lengthens the last component. -/
theorem components_concat (name : List UInt8) {tail : List UInt8} (h : slash ∉ tail) : ∃ cs c,
    components name = cs ++ [c] ∧ components (name ++ tail) = cs ++ [c ++ tail] := by
  by_cases hslash : slash ∈ name
  · -- the last slash is the first one from behind
    obtain ⟨c, a, hsplit, hc⟩ := List.eq_append_cons_of_mem (List.mem_reverse.mpr hslash)
    have hname : name = a.reverse ++ slash :: c.reverse := by
      rw [← List.reverse_reverse name, hsplit, List.reverse_append, List.reverse_cons, List.append_assoc]
      rfl
    have hc' : slash ∉ c.reverse := mt List.mem_reverse.mp hc
    refine ⟨components a.reverse, c.reverse, ?_, ?_⟩
    · rw [hname, components_append, components_eq_singleton hc']
    · rw [hname, List.append_assoc, List.cons_append, components_append,
        components_eq_singleton fun hmem => (List.mem_append.mp hmem).elim hc' h]
  · refine ⟨[], name, components_eq_singleton hslash, ?_⟩
    exact components_eq_singleton fun hmem => (List.mem_append.mp hmem).elim hslash h

/-- Without a component of two dots the way leads down. -/
theorem prefix_descend (place cs : List (List UInt8)) (h : dotDot ∉ cs) : place <+: cs.foldl descend place := by
  induction cs generalizing place with
  | nil => exact List.prefix_rfl
  | cons c cs ih =>
      obtain ⟨hc, hcs⟩ := not_or.mp (mt List.mem_cons.mpr h)
      refine List.IsPrefix.trans ?_ (ih (descend place c) hcs)
      unfold descend
      split_ifs with hstay hup
      · exact List.prefix_rfl
      · exact absurd hup.symm hc
      · exact List.prefix_append place [c]

/-- Behind any name, a descending one stays below it. -/
theorem prefix_resolve (cwd : List (List UInt8)) (root : List UInt8) {name : List UInt8} (h : Descending name) :
    resolve cwd root <+: resolve cwd (root ++ name) := by
  obtain ⟨b, rfl⟩ := List.head?_eq_some_iff.mp h.absolute
  have hstart : (root ++ slash :: b).head?.all (· = slash) = root.head?.all (· = slash) := by
    cases root with
    | nil => rfl
    | cons c root => rfl
  have hb : dotDot ∉ components b := fun hmem =>
    h.no_dotDot (components_cons b ▸ List.mem_cons_of_mem _ hmem)
  rw [resolve, resolve, hstart, components_append, List.foldl_append]
  exact prefix_descend _ _ hb

end TextPath
