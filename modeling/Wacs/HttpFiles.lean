import Wacs.Layout
import Wacs.TextPath
import Wacs.TextScan

/-! `http-server.cpp`: the static files. The name of a file is the root with what `realpath` makes of the url put
behind it, so that the url is looked up in the file system of the host, not below the root. -/

namespace Wacs

open TextPath TextScan

/-- What `realpath` returns when it does not fail: an absolute name, the root or one without an empty component, a
dot or two dots. -/
structure ResolvedPath where
  text : Bytes
  absolute : text.head? = some slash
  clean : text = [slash] ∨ ∀ c ∈ components text.tail, c ≠ [] ∧ c ≠ dot ∧ c ≠ dotDot
  no_zero : 0 ∉ text

/-- `realpath`, with `none` for NULL. -/
abbrev RealPath := Bytes → Option ResolvedPath

/-- What `stat` finds under a name. -/
inductive FileKind where
  | regular
  | directory
  | other
  deriving DecidableEq

/-- The file system as `stat` and `fopen` see it. -/
structure FileSystem where
  stat : Bytes → Option FileKind
  readable : Bytes → Bool

def indexHtml : Bytes := [105, 110, 100, 101, 120, 46, 104, 116, 109, 108]

/-- A NULL pointer put into the stream writes nothing, and nothing is written after it. -/
def buildFileName (realpath : RealPath) (dirRoot : Bytes) (url : Option Bytes) : Bytes :=
  let rr := dirRoot ++
    match url with
    | none => []
    | some url =>
        let url := cString url
        match realpath url with
        | none => []
        | some resolved => resolved.text ++ if url.getLast? = some slash then indexHtml else []
  if dirRoot.isPrefixOf rr then rr else dirRoot

/-- The name of the file that is sent, or `none` for the 404 page. -/
def processFile (fs : FileSystem) (filename : Bytes) : Option Bytes :=
  let fn := cString filename
  if (fs.stat fn).isSome ∧ fs.readable fn then some fn else none

/-! ### Below the root -/

theorem slash_not_mem_indexHtml : slash ∉ indexHtml := by decide

namespace ResolvedPath

variable (p : ResolvedPath)

theorem descending : Descending p.text := by
  refine ⟨p.absolute, fun hmem => ?_⟩
  obtain ⟨b, hb⟩ := List.head?_eq_some_iff.mp p.absolute
  rcases p.clean with hroot | hclean
  · rw [hroot] at hmem
    exact absurd hmem (by decide)
  · rw [hb, List.tail_cons] at hclean
    rw [hb, components_cons] at hmem
    rcases List.mem_cons.mp hmem with h | h
    · cases h
    · exact (hclean _ h).2.2 rfl

/-- The last component with `index.html` behind it is too long for two dots. -/
theorem descending_index : Descending (p.text ++ indexHtml) := by
  obtain ⟨b, hb⟩ := List.head?_eq_some_iff.mp p.absolute
  obtain ⟨cs, c, hname, hindex⟩ := components_concat p.text slash_not_mem_indexHtml
  refine ⟨by rw [hb]; rfl, fun hmem => ?_⟩
  rw [hindex] at hmem
  rcases List.mem_append.mp hmem with h | h
  · exact p.descending.no_dotDot (hname ▸ List.mem_append_left _ h)
  · have hlen := congrArg List.length (List.mem_singleton.mp h)
    simp [dotDot, indexHtml] at hlen

end ResolvedPath

theorem root_ite (dirRoot p : Bytes) :
    (if dirRoot.isPrefixOf (dirRoot ++ p) then dirRoot ++ p else dirRoot) = dirRoot ++ p :=
  if_pos (List.isPrefixOf_iff_prefix.mpr (List.prefix_append dirRoot p))

/-- The root, or a descending name behind it. -/
theorem buildFileName_cases (realpath : RealPath) (dirRoot : Bytes) (url : Option Bytes) :
    buildFileName realpath dirRoot url = dirRoot ∨
      ∃ p, buildFileName realpath dirRoot url = dirRoot ++ p ∧ Descending p ∧ 0 ∉ p := by
  unfold buildFileName
  dsimp only
  rw [root_ite]
  cases url with
  | none => exact Or.inl (List.append_nil dirRoot)
  | some url =>
      dsimp only
      cases realpath (cString url) with
      | none => exact Or.inl (List.append_nil dirRoot)
      | some resolved =>
          refine Or.inr ⟨_, rfl, ?_⟩
          dsimp only
          split_ifs
          · refine ⟨resolved.descending_index, fun hmem => ?_⟩
            exact (List.mem_append.mp hmem).elim resolved.no_zero (by decide)
          · rw [List.append_nil]
            exact ⟨resolved.descending, resolved.no_zero⟩

/-- A file that is sent is at the root or below. -/
theorem processFile_inside (realpath : RealPath) (fs : FileSystem) (cwd : List Bytes) (dirRoot : Bytes)
    (url : Option Bytes) {name : Bytes} (h : name ∈ processFile fs (buildFileName realpath dirRoot url)) :
    resolve cwd (cString dirRoot) <+: resolve cwd name := by
  have hname : cString (buildFileName realpath dirRoot url) = name := by
    unfold processFile at h
    dsimp only at h
    split_ifs at h
    · exact Option.some.inj h
    · cases h
  rw [← hname]
  rcases buildFileName_cases realpath dirRoot url with hroot | ⟨p, hbuilt, hp, hzero⟩
  · rw [hroot]
  · rw [hbuilt]
    by_cases hmem : 0 ∈ dirRoot
    · rw [cString_append_of_mem p hmem]
    · rw [cString_of_not_mem hmem, cString_of_not_mem fun h => (List.mem_append.mp h).elim hmem hzero]
      exact prefix_resolve cwd dirRoot hp

/-- **Static files do not escape the root**, neither in name nor, symbolic links aside, in place. -/
theorem buildFileName_confined (realpath : RealPath) (fs : FileSystem) (cwd : List Bytes) (dirRoot : Bytes)
    (url : Option Bytes) :
    (buildFileName realpath dirRoot url = dirRoot ∨
      ∃ p, buildFileName realpath dirRoot url = dirRoot ++ p ∧ p.head? = some slash ∧ dotDot ∉ components p) ∧
    ∀ name ∈ processFile fs (buildFileName realpath dirRoot url),
      resolve cwd (cString dirRoot) <+: resolve cwd name := by
  refine ⟨?_, fun name => processFile_inside realpath fs cwd dirRoot url⟩
  refine (buildFileName_cases realpath dirRoot url).imp_right ?_
  rintro ⟨p, hbuilt, hp, -⟩
  exact ⟨p, hbuilt, hp.absolute, hp.no_dotDot⟩

/-! ### Existing files -/

/-- A url as a C string that starts with a slash, without an empty inner component, a dot or two dots. -/
structure CleanUrl (url : Bytes) : Prop where
  absolute : url.head? = some slash
  inner : ∀ c ∈ (components url.tail).dropLast, c ≠ []
  no_dots : ∀ c ∈ components url, c ≠ dot ∧ c ≠ dotDot
  no_zero : 0 ∉ url

/-- A regular file below the root, and the index of a directory below it, are found under their names. -/
def FilesFound (realpath : RealPath) (fs : FileSystem) (dirRoot url : Bytes) : Prop :=
  (fs.stat (dirRoot ++ url) = some .regular → buildFileName realpath dirRoot (some url) = dirRoot ++ url) ∧
  (url.getLast? = some slash → fs.stat (dirRoot ++ url ++ indexHtml) = some .regular →
    buildFileName realpath dirRoot (some url) = dirRoot ++ url ++ indexHtml)

/-- The url of a regular file has no slash at its end and is a canonical name in the file system of the host too,
and that of a directory with an index is the root. -/
def HostHas (realpath : RealPath) (fs : FileSystem) (dirRoot url : Bytes) : Prop :=
  (fs.stat (dirRoot ++ url) = some .regular →
    url.getLast? ≠ some slash ∧ (realpath url).map ResolvedPath.text = some url) ∧
  (url.getLast? = some slash → fs.stat (dirRoot ++ url ++ indexHtml) = some .regular →
    url = [slash] ∧ (realpath [slash]).map ResolvedPath.text = some [slash])

theorem buildFileName_some (realpath : RealPath) (dirRoot : Bytes) {url : Bytes} (h : 0 ∉ url) :
    buildFileName realpath dirRoot (some url) = dirRoot ++
      ((realpath url).map fun r => r.text ++ if url.getLast? = some slash then indexHtml else []).getD [] := by
  unfold buildFileName
  dsimp only
  rw [root_ite, cString_of_not_mem h]
  cases realpath url <;> rfl

theorem ResolvedPath.eq_slash (p : ResolvedPath) (h : p.text.getLast? = some slash) : p.text = [slash] := by
  refine p.clean.resolve_right fun hclean => ?_
  obtain ⟨b, hb⟩ := List.head?_eq_some_iff.mp p.absolute
  rw [hb] at h
  rw [hb, List.tail_cons] at hclean
  have hempty : [] ∈ components b := by
    rcases List.eq_nil_or_concat b with rfl | ⟨b, c, rfl⟩
    · exact List.mem_singleton_self []
    · rw [List.concat_eq_append] at h ⊢
      rw [← List.cons_append, List.getLast?_concat] at h
      rw [Option.some.inj h, components_append]
      exact List.mem_append_right _ (List.mem_singleton_self [])
  exact (hclean [] hempty).1 rfl

section CleanUrl

variable (realpath : RealPath) (dirRoot : Bytes) {url : Bytes} (hurl : CleanUrl url)
include hurl

theorem CleanUrl.ne_nil : url ≠ [] := fun h => by simpa [h] using hurl.absolute

/-- The name of a url below the root is built where the host keeps the url. -/
theorem buildFileName_eq_iff : buildFileName realpath dirRoot (some url) = dirRoot ++ url ↔
    url.getLast? ≠ some slash ∧ (realpath url).map ResolvedPath.text = some url := by
  rw [buildFileName_some realpath dirRoot hurl.no_zero, List.append_cancel_left_eq]
  by_cases hlast : url.getLast? = some slash
  · -- the name that is built ends in that of the index
    rw [if_pos hlast]
    refine iff_of_false (fun h => ?_) fun h => h.1 hlast
    cases hreal : realpath url with
    | none =>
        rw [hreal] at h
        exact hurl.ne_nil h.symm
    | some r =>
        rw [hreal, Option.map_some, Option.getD_some] at h
        rw [← h, List.getLast?_append_of_ne_nil _ (by decide)] at hlast
        exact absurd hlast (by decide)
  · rw [if_neg hlast, and_iff_right hlast]
    cases realpath url with
    | none => exact iff_of_false (fun h => hurl.ne_nil h.symm) nofun
    | some r => simp

/-- The index of a directory is looked for in the root only: any other name comes back without its last slash. -/
theorem buildFileName_index_iff (hlast : url.getLast? = some slash) :
    buildFileName realpath dirRoot (some url) = dirRoot ++ url ++ indexHtml ↔
      url = [slash] ∧ (realpath [slash]).map ResolvedPath.text = some [slash] := by
  rw [buildFileName_some realpath dirRoot hurl.no_zero, List.append_assoc, List.append_cancel_left_eq, if_pos hlast]
  constructor
  · intro h
    cases hreal : realpath url with
    | none =>
        rw [hreal] at h
        exact absurd h.symm (List.append_ne_nil_of_left_ne_nil hurl.ne_nil indexHtml)
    | some r =>
        rw [hreal] at h
        have htext : r.text = url := List.append_cancel_right h
        have hroot : url = [slash] := htext ▸ r.eq_slash (htext ▸ hlast)
        exact ⟨hroot, by rw [← hroot, hreal, Option.map_some, htext]⟩
  · rintro ⟨rfl, hreal⟩
    obtain ⟨r, hr, htext⟩ := Option.map_eq_some_iff.mp hreal
    rw [hr, Option.map_some, Option.getD_some, htext]

end CleanUrl

/-- **Existing static files are found** only where the host has the url as well. -/
theorem filesFound_iff (realpath : RealPath) (fs : FileSystem) (dirRoot url : Bytes) (hurl : CleanUrl url) :
    FilesFound realpath fs dirRoot url ↔ HostHas realpath fs dirRoot url := by
  apply and_congr
  · exact forall_congr' fun _ => buildFileName_eq_iff realpath dirRoot hurl
  · exact forall_congr' fun hlast => forall_congr' fun _ => buildFileName_index_iff realpath dirRoot hurl hlast

/-- The file `/www/a` and nothing else. -/
def oneFile (name : Bytes) : Option FileKind := if name = [47, 119, 119, 119, 47, 97] then some .regular else none

def oneFileSystem : FileSystem := ⟨oneFile, fun _ => true⟩

/-- The name `/a`. -/
def resolvedA : ResolvedPath := ⟨[47, 97], rfl, Or.inr (by decide), by decide⟩

theorem cleanUrl_resolvedA : CleanUrl resolvedA.text := ⟨rfl, by decide, by decide, by decide⟩

/-- A host with a file `/a` of its own. -/
def hostWithA : RealPath := fun url => if url = resolvedA.text then some resolvedA else none

theorem filesFound_sample : FilesFound hostWithA oneFileSystem [47, 119, 119, 119] resolvedA.text :=
  (filesFound_iff hostWithA oneFileSystem [47, 119, 119, 119] resolvedA.text cleanUrl_resolvedA).mpr
    ⟨fun _ => ⟨by decide, rfl⟩, fun h => absurd h (by decide)⟩

/-- A host without it. -/
theorem static_file_missed : ¬∀ (realpath : RealPath) (fs : FileSystem) (dirRoot url : Bytes), CleanUrl url →
    FilesFound realpath fs dirRoot url := by
  intro h
  have hfound := (h (fun _ => none) oneFileSystem [47, 119, 119, 119] resolvedA.text cleanUrl_resolvedA).1 rfl
  exact absurd hfound (by decide)

end Wacs
