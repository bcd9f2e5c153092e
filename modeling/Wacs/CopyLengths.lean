import Wacs.NoteRemoval

/-! The lengths that the four functions with an address parameter copy, compare and hand to the engine, for each
size their callers give them. -/

namespace Wacs

open OrderBytes OrderedCursor TextScan

/-! ### The functions -/

/-- The functions of `dblog.cpp` with parameters `sa` and `saSize`. -/
inductive Callee where
  | readLog
  | rmLog
  | readLastProbe
  | rmNotification

/-- A call of one of them: whether `sa` is not NULL, and `saSize`, which may be negative. -/
structure SaCall where
  callee : Callee
  given : Bool
  saSize : Int

namespace SaCall

/-- `sz`, for which `rmNotification` has an upper bound only. -/
def sz (c : SaCall) : Int :=
  match c.callee with
  | .rmNotification => if c.saSize < 6 then c.saSize else 6
  | _ => clampSa c.saSize

/-- The length of the `memmove` from `sa`. -/
def copied (c : SaCall) : Int :=
  match c.callee with
  | .readLog => if c.given ∧ c.sz ≠ 0 then c.sz else 0
  | .rmLog => if c.given then c.sz else 0
  | .readLastProbe => if c.given ∧ c.sz > 0 then c.sz else 0
  | .rmNotification => c.sz

/-- The length of the `memcmp` with `sa`. -/
def compared (c : SaCall) : Int :=
  match c.callee with
  | .readLog => if c.given ∧ c.sz ≠ 0 then c.sz else 0
  | .rmLog => if c.given then c.sz else 0
  | .readLastProbe => if c.given then c.sz else 0
  | .rmNotification => c.sz

/-- `dbkey.mv_size` as the key is sought. -/
def keyLength (c : SaCall) : Int :=
  match c.callee with
  | .readLog => if c.sz = 6 then sizeofLogKey else 1 + c.sz
  | .rmLog => sizeofLogKey
  | .readLastProbe => sizeofLastProbeKey - (6 - c.sz)
  | .rmNotification => 1 + c.sz

/-- Nothing is read or written out of bounds. -/
structure InBounds (c : SaCall) : Prop where
  copied : 0 ≤ c.copied ∧ c.copied ≤ 6
  compared : 0 ≤ c.compared ∧ c.compared ≤ 6
  keyLength : 1 ≤ c.keyLength ∧ c.keyLength ≤ 16

theorem clampSa_le (n : Int) : clampSa n ≤ 6 := by
  unfold clampSa
  split_ifs <;> omega

/-- Every length is in bounds when `sz` is. -/
theorem inBounds_of_sz {c : SaCall} (h0 : 0 ≤ c.sz) (h6 : c.sz ≤ 6) : c.InBounds where
  copied := by
    unfold copied
    split <;> omega
  compared := by
    unfold compared
    split <;> omega
  keyLength := by
    unfold keyLength sizeofLogKey sizeofLastProbeKey
    split <;> omega

/-- The functions that clamp the size on both sides are in bounds for every size. -/
theorem inBounds_of_clamped {c : SaCall} (h : c.sz = clampSa c.saSize) : c.InBounds := by
  have hle := clampSa_le c.saSize
  exact inBounds_of_sz (by omega) (by omega)

/-- `rmNotification` is in bounds for the sizes that are not negative. -/
theorem inBounds_rmNotification_iff (given : Bool) (saSize : Int) :
    InBounds ⟨.rmNotification, given, saSize⟩ ↔ 0 ≤ saSize := by
  have hsz : sz ⟨.rmNotification, given, saSize⟩ = if saSize < 6 then saSize else 6 := rfl
  constructor
  · intro h
    have hcopied : 0 ≤ sz ⟨.rmNotification, given, saSize⟩ := h.copied.1
    rw [hsz] at hcopied
    split_ifs at hcopied <;> omega
  · intro h
    apply inBounds_of_sz
    · rw [hsz]
      split_ifs <;> omega
    · rw [hsz]
      split_ifs <;> omega

end SaCall

/-! ### The scans build the keys of these lengths -/

theorem readLogSeek_length (f : Filter) (start : Int) (pad : UInt8) :
    ((readLogSeek f start pad).length : Int) = SaCall.keyLength ⟨.readLog, f.sa.isSome, f.saSize⟩ := by
  have hsz : SaCall.sz ⟨.readLog, f.sa.isSome, f.saSize⟩ = f.sz := rfl
  rw [SaCall.keyLength, hsz, readLogSeek]
  by_cases h : f.sz = 6
  · simp [h, sizeofLogKey, sizeofTimeT]
  · have h' : (f.sz : Int) ≠ 6 := by omega
    simp [h, h', Int.add_comm]

theorem rmLogSeek_length (f : Filter) (start : Int) (pad : UInt8) :
    ((rmLogSeek f start pad).length : Int) = SaCall.keyLength ⟨.rmLog, f.sa.isSome, f.saSize⟩ := by
  simp [rmLogSeek, SaCall.keyLength, sizeofLogKey, sizeofTimeT]

theorem readLastProbe_seek_length (f : Filter) :
    ((tagP :: f.bytes).length : Int) = SaCall.keyLength ⟨.readLastProbe, f.sa.isSome, f.saSize⟩ := by
  show ((tagP :: f.bytes).length : Int) = sizeofLastProbeKey - (6 - f.sz)
  rw [List.length_cons, f.bytes_length, sizeofLastProbeKey]
  omega

theorem rmNotification_seek_length (p : NotePrefix) :
    ((tagT :: p.bytes).length : Int) = SaCall.keyLength ⟨.rmNotification, true, p.saSize⟩ := by
  show ((tagT :: p.bytes).length : Int) = 1 + if (p.saSize : Int) < 6 then (p.saSize : Int) else 6
  rw [List.length_cons, p.bytes_length, NotePrefix.sz]
  split_ifs <;> omega

/-! ### The callers -/

/-- A text without anything to convert before its end as a C string. -/
def Blank (text : Bytes) : Prop := ∀ c ∈ cString text, isSpace c = true

/-- The parser returns -1 for a blank text, and a number of bytes for every other. -/
theorem strtomacaddress_nonneg_iff (text : Bytes) : 0 ≤ (strtomacaddress text).1 ↔ ¬Blank text := by
  have hblank : skipSpace (cString text) = [] ↔ Blank text := List.dropWhile_eq_nil_iff
  unfold strtomacaddress
  dsimp only
  split_ifs with h
  · exact iff_of_false (by decide) (not_not_intro (hblank.mp h))
  · exact iff_of_true (Int.natCast_nonneg _) (mt hblank.mpr h)

/-- The addresses of `parseCmd`: one empty text when none is given. -/
def WacscConfig.mac (args : List Bytes) : List Bytes := if args.length = 0 then [[]] else args

/-- The call `wacsc` makes for a text; in its loops `config->mac` is not empty. -/
def Wacsc.saCall (callee : Callee) (text : Bytes) : SaCall := ⟨callee, true, (strtomacaddress text).1⟩

/-- The call `wacs-http` makes for a text. -/
def Http.saCall (callee : Callee) (text : Bytes) : SaCall :=
  ⟨callee, ¬(strtomacaddress text).1 ≤ 0, (strtomacaddress text).1⟩

/-- The texts the loop of `notificationRm` comes to. -/
def Wacsc.notificationRmTexts : Store → List (Bytes × Memory) → List Bytes
  | _, [] => []
  | s, (text, mem) :: mac =>
      let r := quietly (rmNotification mem.slack (notePrefix text)) s
      text :: if (strtomacaddress text).1 < 0 ∨ r.1 ≠ 0 then [] else notificationRmTexts r.2 mac

/-- The functions of the two programs that loop over addresses. -/
inductive Caller where
  | wacscLsLog
  | wacscRmLog
  | wacscLsLastProbe
  | wacscMacsPerTime
  | wacscNotificationRm
  | httpLsLog
  | httpLsLastProbe
  | httpMacsPerTime

/-- The calls made over a list of texts; loops that may end early on an error are taken to come to all. -/
def Caller.calls (s : Store) (mac : List (Bytes × Memory)) : Caller → List SaCall
  | .wacscLsLog => mac.map fun x => Wacsc.saCall .readLog x.1
  | .wacscRmLog => mac.map fun x => Wacsc.saCall .rmLog x.1
  | .wacscLsLastProbe => mac.map fun x => Wacsc.saCall .readLastProbe x.1
  | .wacscMacsPerTime => mac.map fun x => Wacsc.saCall .readLog x.1
  | .wacscNotificationRm => (Wacsc.notificationRmTexts s mac).map (Wacsc.saCall .rmNotification)
  | .httpLsLog => mac.map fun x => Http.saCall .readLog x.1
  | .httpLsLastProbe => mac.map fun x => Http.saCall .readLastProbe x.1
  | .httpMacsPerTime => mac.map fun x => Http.saCall .readLog x.1

/-! ### All calls in bounds -/

/-- Every text is something to convert, up to the first that finds a notification. -/
def NoneBlank (s : Store) : List (Bytes × Memory) → Prop
  | [] => True
  | x :: mac => ¬Blank x.1 ∧ (¬NoteMatches s x.1 → NoneBlank s mac)

theorem notificationRmTexts_inBounds_iff {s : Store} (hwf : WellFormed s) (mac : List (Bytes × Memory)) :
    (∀ c ∈ (Wacsc.notificationRmTexts s mac).map (Wacsc.saCall .rmNotification), c.InBounds) ↔ NoneBlank s mac := by
  induction mac with
  | nil => exact iff_of_true (fun c hc => absurd hc List.not_mem_nil) trivial
  | cons x mac ih =>
      obtain ⟨text, mem⟩ := x
      have htext : (Wacsc.saCall .rmNotification text).InBounds ↔ ¬Blank text :=
        (SaCall.inBounds_rmNotification_iff _ _).trans (strtomacaddress_nonneg_iff text)
      rw [Wacsc.notificationRmTexts, List.map_cons, List.forall_mem_cons, htext, NoneBlank]
      refine and_congr_right fun hblank => ?_
      have hcount : ¬(strtomacaddress text).1 < 0 := not_lt.mpr ((strtomacaddress_nonneg_iff text).mpr hblank)
      by_cases hnote : NoteMatches s text
      · -- the loop ends here
        have hne := (rmNotification_ne_zero_iff hwf mem.slack text).mpr hnote
        rw [if_pos (Or.inr hne)]
        exact iff_of_true (fun c hc => absurd hc List.not_mem_nil) fun hno => absurd hnote hno
      · have hzero := mt (rmNotification_ne_zero_iff hwf mem.slack text).mp hnote
        rw [if_neg (not_or.mpr ⟨hcount, hzero⟩), (rmNotification_store_eq_iff hwf mem.slack text).mpr hnote, ih]
        exact ⟨fun h _ => h, fun h => h hnote⟩

/-- Over any reachable store, all calls made with a parsed address are in bounds exactly when
`wacsc notification-rm` comes to no blank text. -/
theorem calls_inBounds_iff (calls : List Step) (mac : List (Bytes × Memory)) :
    (∀ caller : Caller, ∀ c ∈ caller.calls (run .empty calls) mac, c.InBounds) ↔ NoneBlank (run .empty calls) mac := by
  have hmap : ∀ f : Bytes → SaCall, (∀ text, (f text).sz = clampSa (f text).saSize) →
      ∀ c ∈ mac.map (fun x => f x.1), c.InBounds := by
    intro f hf c hc
    obtain ⟨x, -, rfl⟩ := List.mem_map.mp hc
    exact SaCall.inBounds_of_clamped (hf x.1)
  rw [← notificationRmTexts_inBounds_iff (run_wellFormed calls) mac]
  constructor
  · exact fun h => h .wacscNotificationRm
  · intro h caller
    cases caller with
    | wacscLsLog => exact hmap (Wacsc.saCall .readLog) fun _ => rfl
    | wacscRmLog => exact hmap (Wacsc.saCall .rmLog) fun _ => rfl
    | wacscLsLastProbe => exact hmap (Wacsc.saCall .readLastProbe) fun _ => rfl
    | wacscMacsPerTime => exact hmap (Wacsc.saCall .readLog) fun _ => rfl
    | wacscNotificationRm => exact h
    | httpLsLog => exact hmap (Http.saCall .readLog) fun _ => rfl
    | httpLsLastProbe => exact hmap (Http.saCall .readLastProbe) fun _ => rfl
    | httpMacsPerTime => exact hmap (Http.saCall .readLog) fun _ => rfl

/-- `wacsc notification-rm` without an address hands -1 to `memmove`. -/
theorem notificationRm_default_overruns : ¬∀ (calls : List Step) (args : List Bytes) (caller : Caller),
    ∀ c ∈ caller.calls (run .empty calls) ((WacscConfig.mac args).map fun text => (text, filledMemory 0)),
      c.InBounds := by
  intro h
  have hcopied := (h [] [] .wacscNotificationRm _ List.mem_cons_self).copied.1
  exact absurd hcopied (by decide)

end Wacs
