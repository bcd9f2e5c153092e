import Wacs.CommandRemove
import Wacs.NoteTable

/-! Notifications removed: one call of `rmNotification` takes exactly those under its prefix, and the loop of
`notificationRm` over many texts ends with the first call that takes any. -/

namespace Wacs

open OrderBytes OrderedCursor

/-- A notification whose address begins with the bytes. -/
def NoteUnder (b : Bytes) (e : Bytes × Bytes) : Prop := entryTag e = tagT ∧ (entrySa e).val.take b.length = b

instance (b : Bytes) : DecidablePred (NoteUnder b) := fun e =>
  inferInstanceAs (Decidable (entryTag e = tagT ∧ (entrySa e).val.take b.length = b))

/-- A store is left without exactly the records of a kind. -/
def Removes (s : Store) (gone : Bytes × Bytes → Prop) (s' : Store) : Prop :=
  ∀ e, e ∈ s'.entries ↔ e ∈ s.entries ∧ ¬gone e

/-- What is left of a store decides what has gone. -/
theorem Removes.congr_iff {s s' : Store} {gone gone' : Bytes × Bytes → Prop} (h : Removes s gone s') :
    Removes s gone' s' ↔ ∀ e ∈ s.entries, gone e ↔ gone' e := by
  constructor
  · intro h' e he
    have hleft := (h e).symm.trans (h' e)
    simpa [he, not_iff_not] using hleft
  · exact fun hsame e => (h e).trans (and_congr_right fun he => not_congr (hsame e he))

/-- The records that go and those that are left are all. -/
theorem Removes.length {s s' : Store} {gone : Bytes × Bytes → Prop} [DecidablePred gone] (h : Removes s gone s') :
    (s.entries.filter fun e => decide (gone e)).length + s'.entries.length = s.entries.length := by
  have hleft : s' = s.filter fun e => !decide (gone e) := by
    refine OrderedMap.ext_mem fun e => ?_
    rw [h e, OrderedMap.mem_filter, Bool.not_eq_true', decide_eq_false_iff_not]
  rw [hleft, s.length_filter_add]

theorem noteUnder_bytes_iff (p : NotePrefix) (e : Bytes × Bytes) :
    NoteUnder p.bytes e ↔ onNotes (fun m => decide (p.Matches m)) e = true := by
  rw [NoteUnder, onNotes, Bool.and_eq_true, decide_eq_true_eq, decide_eq_true_eq, p.bytes_length]
  rfl

/-! ### One call -/

/-- The number of records a faultless `rmNotification` returns. -/
theorem rmNotification_count (slack : Slack) (p : NotePrefix) (s : Store) :
    (quietly (rmNotification slack p) s).1 =
      ((visited (rmNotificationTest slack p) (s.seek (tagT :: p.bytes))).length : Int) := by
  rw [rmNotification_quiet]
  by_cases hseek : s.seek (tagT :: p.bytes) = []
  · rw [if_pos hseek, hseek]
    rfl
  · rw [if_neg hseek]

theorem rmNotification_accounts (slack : Slack) (p : NotePrefix) (s : Store) :
    (quietly (rmNotification slack p) s).1 + (quietly (rmNotification slack p) s).2.entries.length =
      s.entries.length := by
  have hlen := length_without_visited s (rmNotificationTest slack p) (tagT :: p.bytes)
  rw [rmNotification_count, rmNotification_quiet, ← hlen, Nat.cast_add, add_comm]
  simp

section Call

variable {s : Store} (hwf : WellFormed s) (slack : Slack) (p : NotePrefix)
include hwf

theorem rmNotification_removes : Removes s (NoteUnder p.bytes) (quietly (rmNotification slack p) s).2 := by
  intro e
  rw [rmNotification_quiet, OrderedMap.mem_filter, decide_eq_true_eq]
  refine and_congr_right fun he => not_congr ?_
  rw [mem_visited_keys he, rmNotification_visited hwf, List.mem_filter, noteUnder_bytes_iff, and_iff_right he]

/-- What goes is counted as far as an `int` does. -/
theorem rmNotification_countsGone_iff : CountsGone s (quietly (rmNotification slack p) s) ↔
    (s.entries.filter fun e => decide (NoteUnder p.bytes e)).length < 2 ^ 31 := by
  have hvisited : visited (rmNotificationTest slack p) (s.seek (tagT :: p.bytes)) =
      s.entries.filter fun e => decide (NoteUnder p.bytes e) := by
    rw [rmNotification_visited hwf]
    exact List.filter_congr fun e _ => Bool.eq_iff_iff.mpr
      ((noteUnder_bytes_iff p e).symm.trans decide_eq_true_iff.symm)
  apply countsGone_iff _ _ (rmNotification_removes hwf slack p).length
  rw [rmNotification_count, hvisited]

end Call

/-- On any reachable store `rmNotification` removes the notifications whose address begins with the prefix,
whatever ends their keys, and nothing else; what it returns is their number exactly when an `int` counts them. -/
theorem rmNotification_removes_prefix (calls : List Step) (slack : Slack) (p : NotePrefix) :
    Removes (run .empty calls) (NoteUnder p.bytes) (quietly (rmNotification slack p) (run .empty calls)).2 ∧
      (CountsGone (run .empty calls) (quietly (rmNotification slack p) (run .empty calls)) ↔
        ((run .empty calls).entries.filter fun e => decide (NoteUnder p.bytes e)).length < 2 ^ 31) :=
  ⟨rmNotification_removes (run_wellFormed calls) slack p, rmNotification_countsGone_iff (run_wellFormed calls) slack p⟩

/-! ### More notifications than an `int` counts -/

/-- The address whose bytes are those of a number. -/
def numberedMac (i : Nat) : Mac := ⟨leBytes 6 i, leBytes_length 6 i⟩

/-- A notification for each of the first addresses. -/
def everyAddress (n : Nat) : List Step :=
  (List.range n).map fun i => (.putNotification (numberedMac i) sampleText, filledMemory 0)

theorem everyAddress_succ (n : Nat) : everyAddress (n + 1) =
    everyAddress n ++ [(.putNotification (numberedMac n) sampleText, filledMemory 0)] := by
  rw [everyAddress, List.range_succ, List.map_append]
  rfl

theorem note_everyAddress {n i : Nat} (hi : i < n) :
    (Record.note (numberedMac i) (filledMemory 0).stray ⟨sampleText, by decide⟩).entry ∈
      (run .empty (everyAddress n)).entries := by
  induction n with
  | zero => cases hi
  | succ n ih =>
      rw [everyAddress_succ, run_concat, note_mem_put _ _ _ _ _ _ _ (by decide)]
      by_cases hsame : numberedMac i = numberedMac n
      · exact Or.inl ⟨hsame, rfl, rfl⟩
      · rcases Nat.lt_succ_iff_lt_or_eq.mp hi with hlt | rfl
        · exact Or.inr ⟨ih hlt, fun h => hsame h.1⟩
        · exact absurd rfl hsame

/-- So many notifications are under the prefix of no byte. -/
theorem length_everyAddress {n : Nat} (hn : n ≤ 256 ^ 6) :
    n ≤ ((run .empty (everyAddress n)).entries.filter fun e => decide (NoteUnder [] e)).length := by
  have hnodup : ((List.range n).map fun i => (Record.note (numberedMac i) (filledMemory 0).stray
      ⟨sampleText, by decide⟩).entry).Nodup := by
    refine List.Nodup.map_on (fun i hi j hj heq => ?_) List.nodup_range
    rw [List.mem_range] at hi hj
    have hbytes : leBytes 6 i = leBytes 6 j := congrArg Subtype.val (note_entry_inj.mp heq).1
    exact leBytes_injective (by omega) (by omega) hbytes
  have hsub : ((List.range n).map fun i => (Record.note (numberedMac i) (filledMemory 0).stray
      ⟨sampleText, by decide⟩).entry) ⊆
        (run .empty (everyAddress n)).entries.filter fun e => decide (NoteUnder [] e) := by
    intro e he
    obtain ⟨i, hi, rfl⟩ := List.mem_map.mp he
    exact List.mem_filter.mpr ⟨note_everyAddress (List.mem_range.mp hi), decide_eq_true ⟨rfl, rfl⟩⟩
  have hle := (List.subperm_of_subset hnodup hsub).length_le
  rwa [List.length_map, List.length_range] at hle

/-- With a notification for each of `2 ^ 31` addresses an `int` does not count what goes. -/
theorem rmNotification_runs_over : ¬∀ (calls : List Step) (slack : Slack) (p : NotePrefix),
    CountsGone (run .empty calls) (quietly (rmNotification slack p) (run .empty calls)) := by
  intro h
  have hmany := length_everyAddress (show 2 ^ 31 ≤ 256 ^ 6 by decide)
  generalize everyAddress (2 ^ 31) = calls at hmany
  have hcounts := h calls (fun _ _ => 0) ⟨[], 0, by decide⟩
  have hlt := (rmNotification_countsGone_iff (run_wellFormed calls) (fun _ _ => 0) ⟨[], 0, by decide⟩).mp hcounts
  exact absurd hlt (not_lt.mpr hmany)

/-! ### The loop over the texts -/

/-- The records some text of a list is about: the notifications whose address begins with its bytes. -/
def UnderSome (mac : List (Bytes × Memory)) (e : Bytes × Bytes) : Prop :=
  ∃ x ∈ mac, ∃ bytes, MacList x.1 bytes ∧ NoteUnder bytes e

/-- The first text that finds a notification finds all that the texts after it would. -/
def FirstTakesAll (s : Store) : List (Bytes × Memory) → Prop
  | [] => True
  | x :: mac =>
      (NoteMatches s x.1 → ∀ e ∈ s.entries, UnderSome mac e → UnderSome [x] e) ∧
        (¬NoteMatches s x.1 → FirstTakesAll s mac)

/-- The loop of `notificationRm` over a list removes what its texts are about, and counts it. -/
def RemovesList (s : Store) (mac : List (Bytes × Memory)) : Prop :=
  Removes s (UnderSome mac) (Wacsc.notificationRm s mac).2 ∧
    ∃ cnt, (Wacsc.notificationRm s mac).1 = some cnt ∧ CountsGone s (cnt, (Wacsc.notificationRm s mac).2)

/-- A notification whose address begins with what is read of some text. -/
def ReadUnder (mac : List (Bytes × Memory)) (e : Bytes × Bytes) : Prop :=
  ∃ x ∈ mac, NoteUnder (Wacsc.notePrefix x.1).bytes e

instance (mac : List (Bytes × Memory)) : DecidablePred (ReadUnder mac) := fun e =>
  inferInstanceAs (Decidable (∃ x ∈ mac, NoteUnder (Wacsc.notePrefix x.1).bytes e))

theorem underSome_cons (x : Bytes × Memory) (mac : List (Bytes × Memory)) (e : Bytes × Bytes) :
    UnderSome (x :: mac) e ↔ UnderSome [x] e ∨ UnderSome mac e := by
  simp only [UnderSome, List.mem_cons, List.not_mem_nil, or_false, or_and_right, exists_or, exists_eq_left]

theorem not_underSome_nil (e : Bytes × Bytes) : ¬UnderSome [] e := by
  rintro ⟨x, hx, -⟩
  exact List.not_mem_nil hx

theorem firstTakesAll_singleton (s : Store) (x : Bytes × Memory) : FirstTakesAll s [x] :=
  ⟨fun _ e _ h => absurd h (not_underSome_nil e), fun _ => trivial⟩

/-- What a call is about is what its text is. -/
theorem underSome_singleton {x : Bytes × Memory} {bytes : Bytes} (h : MacList x.1 bytes) (e : Bytes × Bytes) :
    UnderSome [x] e ↔ NoteUnder (Wacsc.notePrefix x.1).bytes e := by
  have hunder : ∀ {bytes}, MacList x.1 bytes → (NoteUnder bytes e ↔ NoteUnder (Wacsc.notePrefix x.1).bytes e) := by
    intro bytes h
    rw [noteUnder_bytes_iff, onNotes, Bool.and_eq_true, decide_eq_true_eq, decide_eq_true_eq,
      notePrefix_matches_iff h, NoteUnder]
  constructor
  · rintro ⟨y, hy, bytes', h', he⟩
    obtain rfl := List.mem_singleton.mp hy
    exact (hunder h').mp he
  · exact fun he => ⟨x, List.mem_singleton_self x, bytes, h, (hunder h).mpr he⟩

theorem underSome_iff_readUnder {mac : List (Bytes × Memory)} (hmac : ∀ x ∈ mac, ∃ bytes, MacList x.1 bytes)
    (e : Bytes × Bytes) : UnderSome mac e ↔ ReadUnder mac e := by
  refine exists_congr fun x => and_congr_right fun hx => ?_
  obtain ⟨bytes, hbytes⟩ := hmac x hx
  rw [← underSome_singleton hbytes, UnderSome]
  simp only [List.mem_singleton, exists_eq_left]

theorem macList_count_nonneg {text bytes : Bytes} (h : MacList text bytes) : 0 ≤ (strtomacaddress text).1 := by
  rw [(strtomacaddress_macList h).1]
  exact Int.natCast_nonneg _

/-- When `notificationRm` comes to an end it returns the number of records that are gone. -/
theorem notificationRm_accounts {s : Store} {mac : List (Bytes × Memory)} {c : Int}
    (h : (Wacsc.notificationRm s mac).1 = some c) :
    ∃ n : Nat, c = n ∧ n + (Wacsc.notificationRm s mac).2.entries.length = s.entries.length := by
  induction mac generalizing s with
  | nil => exact ⟨0, (Option.some.inj h).symm, Nat.zero_add _⟩
  | cons x mac ih =>
      obtain ⟨text, mem⟩ := x
      have hgone := rmNotification_accounts mem.slack (Wacsc.notePrefix text) s
      have hnonneg : 0 ≤ (quietly (rmNotification mem.slack (Wacsc.notePrefix text)) s).1 := by
        rw [rmNotification_count]
        exact Int.natCast_nonneg _
      unfold Wacsc.notificationRm at h ⊢
      dsimp only at h ⊢
      by_cases hblank : (strtomacaddress text).1 < 0
      · rw [if_pos hblank] at h
        cases h
      · rw [if_neg hblank] at h ⊢
        by_cases hends : (quietly (rmNotification mem.slack (Wacsc.notePrefix text)) s).1 ≠ 0
        · rw [if_pos hends] at h ⊢
          obtain ⟨n, hn⟩ := Int.eq_ofNat_of_zero_le hnonneg
          obtain rfl := Option.some.inj h
          refine ⟨n, hn, ?_⟩
          dsimp only
          omega
        · rw [if_neg hends] at h ⊢
          obtain ⟨n, hn, hlen⟩ := ih h
          exact ⟨n, hn, by omega⟩

/-- The loop comes to an end when no text is blank. -/
theorem notificationRm_ends (s : Store) {mac : List (Bytes × Memory)} (hmac : ∀ x ∈ mac, 0 ≤ (strtomacaddress x.1).1) :
    ∃ c, (Wacsc.notificationRm s mac).1 = some c := by
  induction mac generalizing s with
  | nil => exact ⟨0, rfl⟩
  | cons x mac ih =>
      unfold Wacsc.notificationRm
      rw [if_neg (not_lt.mpr (hmac x List.mem_cons_self))]
      dsimp only
      split
      · exact ⟨_, rfl⟩
      · exact ih _ fun y hy => hmac y (List.mem_cons_of_mem _ hy)

section List

variable {s : Store} (hwf : WellFormed s)
include hwf

/-- A text that finds no notification is about nothing. -/
theorem not_underSome_of_not_matches {x : Bytes × Memory} (hx : ¬NoteMatches s x.1) {e : Bytes × Bytes}
    (he : e ∈ s.entries) : ¬UnderSome [x] e := by
  rintro ⟨y, hy, bytes, hbytes, hnote⟩
  obtain rfl := List.mem_singleton.mp hy
  have hsome : UnderSome [y] e := ⟨y, hy, bytes, hbytes, hnote⟩
  have hunder := (noteUnder_bytes_iff _ e).mp ((underSome_singleton hbytes e).mp hsome)
  obtain ⟨m, stray, note, -, hmem, hm⟩ := note_of_onNotes hwf (List.mem_filter.mpr ⟨he, hunder⟩)
  exact hx ⟨m, stray, note, hmem, of_decide_eq_true hm⟩

/-- A text that finds a notification is the last. -/
theorem notificationRm_cons_matches {x : Bytes × Memory} (hcount : 0 ≤ (strtomacaddress x.1).1)
    (hx : NoteMatches s x.1) (mac : List (Bytes × Memory)) :
    Wacsc.notificationRm s (x :: mac) =
      (some (quietly (rmNotification x.2.slack (Wacsc.notePrefix x.1)) s).1,
        (quietly (rmNotification x.2.slack (Wacsc.notePrefix x.1)) s).2) := by
  have hne := (rmNotification_ne_zero_iff hwf x.2.slack x.1).mpr hx
  rw [Wacsc.notificationRm, if_neg (not_lt.mpr hcount)]
  exact if_pos hne

/-- All that the texts are about goes when the first text that finds a notification takes it all. -/
theorem removes_list_iff {mac : List (Bytes × Memory)} (hmac : ∀ x ∈ mac, ∃ bytes, MacList x.1 bytes) :
    Removes s (UnderSome mac) (Wacsc.notificationRm s mac).2 ↔ FirstTakesAll s mac := by
  induction mac with
  | nil => exact iff_of_true (fun e => (and_iff_left (not_underSome_nil e)).symm) trivial
  | cons x mac ih =>
      obtain ⟨bytes, hbytes⟩ := hmac x List.mem_cons_self
      have hcount := macList_count_nonneg hbytes
      rw [FirstTakesAll]
      by_cases hx : NoteMatches s x.1
      · -- the call of this text is the last, and what it takes is all that goes
        have hcall := rmNotification_removes hwf x.2.slack (Wacsc.notePrefix x.1)
        simp only [notificationRm_cons_matches hwf hcount hx, hx, not_true_eq_false, false_implies, and_true,
          true_implies]
        rw [hcall.congr_iff]
        refine forall_congr' fun e => forall_congr' fun _ => ?_
        rw [← underSome_singleton hbytes, underSome_cons x mac]
        exact ⟨fun h hlater => h.mpr (Or.inr hlater), fun h => ⟨Or.inl, fun hsome => hsome.elim id h⟩⟩
      · have hsame : ∀ e ∈ s.entries, UnderSome (x :: mac) e ↔ UnderSome mac e := by
          intro e he
          rw [underSome_cons]
          exact or_iff_right (not_underSome_of_not_matches hwf hx he)
        simp only [hx, false_implies, true_and, not_false_eq_true, true_implies]
        rw [← ih fun y hy => hmac y (List.mem_cons_of_mem _ hy), notificationRm_cons_passed hwf ⟨hcount, hx⟩]
        refine forall_congr' fun e => iff_congr Iff.rfl (and_congr_right fun he => ?_)
        exact not_congr (hsame e he)

theorem removesList_iff {mac : List (Bytes × Memory)} (hmac : ∀ x ∈ mac, ∃ bytes, MacList x.1 bytes) :
    RemovesList s mac ↔
      FirstTakesAll s mac ∧ (s.entries.filter fun e => decide (ReadUnder mac e)).length < 2 ^ 31 := by
  rw [RemovesList, removes_list_iff hwf hmac]
  refine and_congr_right fun hfirst => ?_
  have hremoves := (removes_list_iff hwf hmac).mpr hfirst
  have hread : Removes s (ReadUnder mac) (Wacsc.notificationRm s mac).2 :=
    hremoves.congr_iff.mpr fun e _ => underSome_iff_readUnder hmac e
  have hends := notificationRm_ends s fun x hx => (hmac x hx).elim fun _ => macList_count_nonneg
  obtain ⟨c, hc⟩ := hends
  obtain ⟨n, rfl, hlost⟩ := notificationRm_accounts hc
  have hlen := hread.length
  have hsame : n = (s.entries.filter fun e => decide (ReadUnder mac e)).length := by omega
  simp only [hc, Option.some.injEq, exists_eq_left']
  rw [← hsame]
  exact countsGone_iff s rfl hlost

end List

/-- Over any reachable store, `wacsc notification-rm` with well-formed texts removes every notification under
some of them, and counts these, exactly when the first text that finds a notification finds all that the later
ones would, and an `int` counts them. -/
theorem notificationRm_list_iff (calls : List Step) {mac : List (Bytes × Memory)}
    (hmac : ∀ x ∈ mac, ∃ bytes, MacList x.1 bytes) : RemovesList (run .empty calls) mac ↔
      FirstTakesAll (run .empty calls) mac ∧
        ((run .empty calls).entries.filter fun e => decide (ReadUnder mac e)).length < 2 ^ 31 :=
  removesList_iff (run_wellFormed calls) hmac

/-- Notifications of two addresses. -/
def twoNotes : List Step :=
  [(.putNotification sampleMac sampleText, filledMemory 0), (.putNotification sampleMac' sampleText, filledMemory 0)]

/-- Notifications of three addresses, two of which begin alike, and an observation. -/
def threeNotes : List Step :=
  [(.putNotification sampleMac sampleText, filledMemory 0), (.putLog sampleBuffer 100, filledMemory 0),
    (.putNotification ⟨[9, 0, 0, 0, 0, 1], rfl⟩ sampleText, filledMemory 3),
    (.putNotification sampleMac' [0x5b, 0x5d], filledMemory 1)]

/-- A text that finds nothing, the beginning of two addresses, and one of these addresses. -/
def noteTexts : List (Bytes × Memory) :=
  [(mactostr ⟨[1, 2, 3, 4, 5, 6], rfl⟩, filledMemory 0), (macText [2, 0], filledMemory 2),
    (mactostr sampleMac, filledMemory 0)]

theorem noteTexts_macList : ∀ x ∈ noteTexts, ∃ bytes, MacList x.1 bytes := by
  intro x hx
  simp only [noteTexts, List.mem_cons, List.not_mem_nil, or_false] at hx
  rcases hx with rfl | rfl | rfl
  · exact ⟨_, macList_mactostr _⟩
  · exact ⟨_, macList_macText (by decide)⟩
  · exact ⟨_, macList_mactostr _⟩

theorem firstTakesAll_noteTexts : FirstTakesAll (run .empty threeNotes) noteTexts := by
  have hwf := run_wellFormed threeNotes
  have hnone : ¬NoteMatches (run .empty threeNotes) (mactostr ⟨[1, 2, 3, 4, 5, 6], rfl⟩) :=
    mt (rmNotification_ne_zero_iff hwf (fun _ _ => 0) _).mpr (by decide)
  refine ⟨fun h => absurd h hnone, fun _ => ⟨fun _ => ?_, fun _ => firstTakesAll_singleton _ _⟩⟩
  have hread : ∀ e ∈ (run .empty threeNotes).entries, ReadUnder (noteTexts.drop 2) e → ReadUnder [noteTexts[1]] e := by
    decide
  intro e he (h : UnderSome (noteTexts.drop 2) e)
  have hlater := (underSome_iff_readUnder (fun x hx => noteTexts_macList x (List.mem_of_mem_drop hx)) e).mp h
  have hfirst : ∀ x ∈ [noteTexts[1]], ∃ bytes, MacList x.1 bytes := by
    intro x hx
    rw [List.mem_singleton.mp hx]
    exact noteTexts_macList _ (List.getElem_mem _)
  exact (underSome_iff_readUnder hfirst e).mpr (hread e he hlater)

theorem notificationRm_list_sample : RemovesList (run .empty threeNotes) noteTexts :=
  (notificationRm_list_iff threeNotes noteTexts_macList).mpr ⟨firstTakesAll_noteTexts, by decide⟩

/-- The address given second keeps its notification. -/
theorem notificationRm_skips_second : ¬∀ (calls : List Step) (mac : List (Bytes × Memory)),
    (∀ x ∈ mac, ∃ bytes, MacList x.1 bytes) → RemovesList (run .empty calls) mac := by
  intro h
  let mac : List (Bytes × Memory) := [(mactostr sampleMac, filledMemory 0), (mactostr sampleMac', filledMemory 0)]
  have hmac : ∀ x ∈ mac, ∃ bytes, MacList x.1 bytes := by
    intro x hx
    rcases List.mem_cons.mp hx with rfl | hx
    · exact ⟨_, macList_mactostr sampleMac⟩
    · rw [List.mem_singleton.mp hx]
      exact ⟨_, macList_mactostr sampleMac'⟩
  obtain ⟨hleft, -⟩ := h twoNotes mac hmac
  let e := (Record.note sampleMac' (filledMemory 0).stray ⟨sampleText, by decide⟩).entry
  have hstays : e ∈ (Wacsc.notificationRm (run .empty twoNotes) mac).2.entries := by decide
  refine ((hleft e).mp hstays).2 ⟨_, List.mem_cons_of_mem _ List.mem_cons_self, _, macList_mactostr sampleMac', ?_⟩
  exact ⟨rfl, by decide⟩

end Wacs
