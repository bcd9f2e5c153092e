import Wacs.LogTables
import Wacs.MacFilter

/-! `wacsc remove` and `wacsc notification-rm`: one removal for each text given. A text that is no address is
read up to where it stops being one, and removes what that matches, down to everything. -/

namespace Wacs

open OrderBytes OrderedCursor

/-! ### The commands -/

namespace Wacsc

/-- The loop of `rmLog` of `wacsc.cpp` over the texts left, `rr` records removed so far, as many as the source's
`int` can count. Each text comes with the memory its removal meets. -/
def rmLogFrom (start finish : Int) : Int → Store → List (Bytes × Memory) → Int × Store
  | rr, s, [] => (rr, s)
  | rr, s, (text, mem) :: mac =>
      let r := quietly (Wacs.rmLog mem.slack (macFilter text) start finish mem.pad.key) s
      if r.1 < 0 then r else rmLogFrom start finish (rr + r.1) r.2 mac

def rmLog (start finish : Int) (s : Store) (mac : List (Bytes × Memory)) : Int × Store :=
  rmLogFrom start finish 0 s mac

theorem notePrefix_readable (text : Bytes) :
    (if (strtomacaddress text).1.toNat < 6 then (strtomacaddress text).1.toNat else 6) ≤
      (strtomacaddress text).2.val.length := by
  rw [(strtomacaddress text).2.property]
  split_ifs <;> omega

/-- The arguments `notificationRm` makes of a text. -/
def notePrefix (text : Bytes) : NotePrefix where
  sa := (strtomacaddress text).2.val
  saSize := (strtomacaddress text).1.toNat
  readable := notePrefix_readable text

/-- `notificationRm` ends with the first text that removes anything. A text without a conversion to try
gives a size of -1, with which `rmNotification` makes `memmove` run off its stack: there is no result then,
and the transaction is never committed. -/
def notificationRm (s : Store) : List (Bytes × Memory) → Option Int × Store
  | [] => (some 0, s)
  | (text, mem) :: mac =>
      if (strtomacaddress text).1 < 0 then (none, s)
      else
        let r := quietly (rmNotification mem.slack (notePrefix text)) s
        if r.1 ≠ 0 then (some r.1, r.2) else notificationRm r.2 mac

end Wacsc

/-- The prefix of a well-formed text matches the addresses that begin with its bytes. -/
theorem notePrefix_matches_iff {text bytes : Bytes} (h : MacList text bytes) (m : Mac) :
    (Wacsc.notePrefix text).Matches m ↔ m.val.take bytes.length = bytes := by
  obtain ⟨hcount, hlen, hbytes⟩ := strtomacaddress_macList h
  have hsize : (Wacsc.notePrefix text).saSize = bytes.length := congrArg Int.toNat hcount
  have hsz : (Wacsc.notePrefix text).sz = bytes.length := by
    rw [NotePrefix.sz, hsize]
    split_ifs <;> omega
  have hprefix : (Wacsc.notePrefix text).bytes = bytes := by
    rw [NotePrefix.bytes, hsz]
    exact hbytes
  rw [NotePrefix.Matches, hsz, hprefix]

/-! ### What the log scan of a removal visits -/

/-- The store has a log record that `rmLog` comes to and removes: of a matching address, with a time of the
range, at or after the key sought, and for a whole address with no later time before it. -/
def Removable (s : Store) (f : Filter) (start finish : Int) (pad : UInt8) : Prop :=
  ∃ m p t d e, (Record.log m p t d e).entry ∈ s.entries ∧ f.Matches m ∧ InRange (timeRange start finish) t ∧
    rmLogSeek f start pad ≤ (Record.log m p t d e).key ∧
    (f.sz = 6 → ∀ p' t' d' e', (Record.log m p' t' d' e').entry ∈ s.entries →
      rmLogSeek f start pad ≤ (Record.log m p' t' d' e').key →
      (Record.log m p' t' d' e').key < (Record.log m p t d e).key → (t'.toNat : Int) ≤ (timeRange start finish).2)

theorem rmLog_visits_iff {s : Store} (hwf : WellFormed s) (slack : Slack) (f : Filter) (start finish : Int)
    (pad : UInt8) : visited (rmLogTest slack f (timeRange start finish)) (s.seek (rmLogSeek f start pad)) ≠ [] ↔
      Removable s f start finish pad := by
  have hfrom : ∀ m p t d e, rmLogSeek f start pad ≤ (Record.log m p t d e).key → f.bytes ≤ m.val.take f.sz :=
    fun _ _ _ _ _ h => f.bytes_le_take (mac_le_of_seek h)
  have hcomes := mem_visited_log (rmLogTest_log slack f (timeRange start finish)) hfrom hwf
  constructor
  · intro h
    obtain ⟨e, he⟩ := List.exists_mem_of_ne_nil _ h
    obtain ⟨r, rfl⟩ := hwf e ((s.mem_seek _ e).mp (visited_hit he).1).1
    obtain ⟨m, p, t, d, x, rfl, -⟩ := (rmLogTest_hit slack f _ r).mp (visited_hit he).2
    exact ⟨m, p, t, d, x, (hcomes m p t d x).mp he⟩
  · rintro ⟨m, p, t, d, x, h⟩
    exact List.ne_nil_of_mem ((hcomes m p t d x).mpr h)

theorem filter_keys_eq_self_iff {s : Store} {removed : List (Bytes × Bytes)} (hsub : ∀ e ∈ removed, e ∈ s.entries) :
    (s.filter fun e => decide (e.1 ∉ removed.map Prod.fst)) = s ↔ removed = [] := by
  refine ⟨fun h => ?_, fun h => ?_⟩
  · apply List.eq_nil_iff_forall_not_mem.mpr
    intro e he
    have hmem : e ∈ (s.filter fun e => decide (e.1 ∉ removed.map Prod.fst)).entries := h.symm ▸ hsub e he
    exact of_decide_eq_true ((s.mem_filter _ e).mp hmem).2 (List.mem_map_of_mem he)
  · subst h
    exact OrderedMap.ext_mem fun e => by simp

/-! ### Removals that stay narrow -/

/-- A command over texts does not widen: a mistyped text removes nothing, and what is removed has an address
that begins with all the bytes of some well-formed text given, or some text is empty. -/
structure Narrow (command : List (Bytes × Memory) → Store) (mac : List (Bytes × Memory)) : Prop where
  mistyped : ∀ (i : Nat) (h : i < mac.length), Mistyped mac[i].1 → command (mac.take (i + 1)) = command (mac.take i)
  removed : ∀ e ∈ (command []).entries, e ∉ (command mac).entries → ∃ x ∈ mac, x.1 = [] ∨
    ∃ bytes, MacList x.1 bytes ∧ (entrySa e).val.take bytes.length = bytes

section Narrow

variable {command : List (Bytes × Memory) → Store} {mac : List (Bytes × Memory)}

/-- What is gone in the end went with some text. -/
theorem exists_removing_text {e : Bytes × Bytes} (hin : e ∈ (command []).entries) (n : Nat) (hn : n ≤ mac.length)
    (hout : e ∉ (command (mac.take n)).entries) : ∃ i, ∃ _ : i < mac.length,
      e ∈ (command (mac.take i)).entries ∧ e ∉ (command (mac.take (i + 1))).entries := by
  induction n with
  | zero => exact absurd hin hout
  | succ n ih =>
      by_cases hmid : e ∈ (command (mac.take n)).entries
      · exact ⟨n, hn, hmid, hout⟩
      · exact ih (Nat.le_of_succ_le hn) hmid

/-- When a well-formed text removes only what begins with its bytes, the rest is up to the mistyped ones. -/
theorem narrow_iff (hstep : ∀ (i : Nat) (h : i < mac.length) (e : Bytes × Bytes) (bytes : Bytes),
      MacList mac[i].1 bytes → e ∈ (command (mac.take i)).entries → e ∉ (command (mac.take (i + 1))).entries →
        (entrySa e).val.take bytes.length = bytes) :
    Narrow command mac ↔ ∀ (i : Nat) (h : i < mac.length), Mistyped mac[i].1 →
      command (mac.take (i + 1)) = command (mac.take i) := by
  refine ⟨Narrow.mistyped, fun h => ⟨h, fun e hin hout => ?_⟩⟩
  obtain ⟨i, hi, hbefore, hafter⟩ := exists_removing_text hin mac.length le_rfl (by rwa [List.take_length])
  refine ⟨mac[i], List.getElem_mem hi, ?_⟩
  by_cases hempty : mac[i].1 = []
  · exact Or.inl hempty
  · by_cases hlist : ∃ bytes, MacList mac[i].1 bytes
    · obtain ⟨bytes, hbytes⟩ := hlist
      exact Or.inr ⟨bytes, hbytes, hstep i hi e bytes hbytes hbefore hafter⟩
    · exact absurd (h i hi ⟨hempty, hlist⟩ ▸ hbefore) hafter

end Narrow

/-! ### `wacsc remove` -/

/-- The removals of a command as calls of a run. -/
def removeSteps (start finish : Int) (mac : List (Bytes × Memory)) : List Step :=
  mac.map fun x => (.rmLog (macFilter x.1) start finish, x.2)

theorem perform_rmLog_store (s : Store) (f : Filter) (start finish : Int) (mem : Memory) :
    (perform s (.rmLog f start finish, mem)).2 =
      s.filter fun e => decide (e.1 ∉ (visited (rmLogTest mem.slack f (timeRange start finish))
        (s.seek (rmLogSeek f start mem.pad.key))).map Prod.fst) :=
  congrArg Prod.snd (rmLog_quiet mem.slack f start finish mem.pad.key s)

theorem run_removeSteps_of_nil (start finish : Int) (mac : List (Bytes × Memory)) {s : Store} (hs : s.entries = []) :
    (run s (removeSteps start finish mac)).entries = [] := by
  induction mac generalizing s with
  | nil => exact hs
  | cons x mac ih =>
      refine ih (s := (perform s (.rmLog (macFilter x.1) start finish, x.2)).2) ?_
      rw [perform_rmLog_store]
      show s.entries.filter _ = []
      rw [hs, List.filter_nil]

/-- A removal fails on an empty store only. -/
theorem entries_of_rmLog_neg (calls : List Step) {slack : Slack} {f : Filter} {start finish : Int} {pad : UInt8}
    (h : (quietly (rmLog slack f start finish pad) (run .empty calls)).1 < 0) : (run .empty calls).entries = [] := by
  rw [rmLog_quiet] at h
  refine (rmLog_seek_eq_nil (run_wellFormed calls) (run_attended calls) f start pad).mp ?_
  by_contra hne
  rw [if_neg hne] at h
  exact absurd (Int.natCast_nonneg _) (not_le.mpr h)

/-- The loop removes what its removals, one after the other, do: when it ends early the store is empty. -/
theorem rmLogFrom_store (start finish : Int) (rr : Int) (calls : List Step) (mac : List (Bytes × Memory)) :
    (Wacsc.rmLogFrom start finish rr (run .empty calls) mac).2 =
      run .empty (calls ++ removeSteps start finish mac) := by
  induction mac generalizing rr calls with
  | nil => rw [removeSteps, List.map_nil, List.append_nil, Wacsc.rmLogFrom]
  | cons x mac ih =>
      obtain ⟨text, mem⟩ := x
      have hstep : run .empty (calls ++ [(.rmLog (macFilter text) start finish, mem)]) =
          (quietly (rmLog mem.slack (macFilter text) start finish mem.pad.key) (run .empty calls)).2 :=
        run_concat .empty calls _
      have hsteps : calls ++ removeSteps start finish ((text, mem) :: mac) =
          (calls ++ [(.rmLog (macFilter text) start finish, mem)]) ++ removeSteps start finish mac := by
        rw [List.append_assoc]
        rfl
      rw [Wacsc.rmLogFrom, hsteps]
      split_ifs with hneg
      · have hnil := entries_of_rmLog_neg calls hneg
        have hempty : (run .empty (calls ++ [(.rmLog (macFilter text) start finish, mem)])).entries = [] := by
          rw [run_append]
          exact run_removeSteps_of_nil start finish [(text, mem)] hnil
        rw [← hstep]
        refine OrderedMap.ext_entries (hempty.trans ?_)
        rw [run_append]
        exact (run_removeSteps_of_nil start finish mac hempty).symm
      · rw [← hstep]
        exact ih _ _

section Remove

variable (calls : List Step) (start finish : Int) (mac : List (Bytes × Memory))

/-- The store before the turn of a text. -/
def storeBefore (i : Nat) : Store := (Wacsc.rmLog start finish (run .empty calls) (mac.take i)).2

theorem storeBefore_eq (i : Nat) :
    storeBefore calls start finish mac i = run .empty (calls ++ removeSteps start finish (mac.take i)) :=
  rmLogFrom_store start finish 0 calls (mac.take i)

/-- The removal of a text. -/
theorem storeBefore_succ (i : Nat) (h : i < mac.length) : storeBefore calls start finish mac (i + 1) =
    (storeBefore calls start finish mac i).filter fun e =>
      decide (e.1 ∉ (visited (rmLogTest mac[i].2.slack (macFilter mac[i].1) (timeRange start finish))
        ((storeBefore calls start finish mac i).seek
          (rmLogSeek (macFilter mac[i].1) start mac[i].2.pad.key))).map Prod.fst) := by
  rw [← perform_rmLog_store]
  calc storeBefore calls start finish mac (i + 1)
      = run .empty (calls ++ removeSteps start finish (mac.take i) ++
          [(.rmLog (macFilter mac[i].1) start finish, mac[i].2)]) := by
        rw [storeBefore_eq, List.take_succ_eq_append_getElem h, removeSteps, List.map_append, List.append_assoc]
        rfl
    _ = (perform (storeBefore calls start finish mac i)
          (.rmLog (macFilter mac[i].1) start finish, mac[i].2)).2 := by rw [run_concat, storeBefore_eq]

/-- Only what matches a text goes on its turn. -/
theorem matches_of_removed {i : Nat} (h : i < mac.length) {e : Bytes × Bytes}
    (hbefore : e ∈ (storeBefore calls start finish mac i).entries)
    (hafter : e ∉ (storeBefore calls start finish mac (i + 1)).entries) :
    (macFilter mac[i].1).Matches (entrySa e) := by
  rw [storeBefore_succ calls start finish mac i h, OrderedMap.mem_filter, decide_eq_true_eq] at hafter
  have hgone : e.1 ∈ (visited (rmLogTest mac[i].2.slack (macFilter mac[i].1) (timeRange start finish))
      ((storeBefore calls start finish mac i).seek
        (rmLogSeek (macFilter mac[i].1) start mac[i].2.pad.key))).map Prod.fst := by
    by_contra hno
    exact hafter ⟨hbefore, hno⟩
  have hhit := (visited_hit ((mem_visited_keys hbefore).mp hgone)).2
  rw [storeBefore_eq] at hbefore
  obtain ⟨r, rfl⟩ := run_wellFormed _ e hbefore
  obtain ⟨m, p, t, d, x, rfl, hm, -⟩ := (rmLogTest_hit _ _ _ r).mp hhit
  rwa [entrySa_entry]

theorem remove_narrow : Narrow (fun mac => (Wacsc.rmLog start finish (run .empty calls) mac).2) mac ↔
    ∀ (i : Nat) (h : i < mac.length), Mistyped mac[i].1 →
      ¬Removable (storeBefore calls start finish mac i) (macFilter mac[i].1) start finish mac[i].2.pad.key := by
  rw [narrow_iff fun i h e bytes hbytes hbefore hafter =>
    (macFilter_matches_iff hbytes _).mp (matches_of_removed calls start finish mac h hbefore hafter)]
  refine forall_congr' fun i => forall_congr' fun h => forall_congr' fun _ => ?_
  have hwf : WellFormed (storeBefore calls start finish mac i) := by
    rw [storeBefore_eq]
    exact run_wellFormed _
  rw [← rmLog_visits_iff hwf mac[i].2.slack, not_not]
  refine Iff.trans ?_ (filter_keys_eq_self_iff fun e he => ((OrderedMap.mem_seek _ _ e).mp (visited_hit he).1).1)
  rw [← storeBefore_succ calls start finish mac i h]
  rfl

end Remove

/-! ### `wacsc notification-rm` -/

/-- The store has a notification of an address that begins with what is read of the text. -/
def NoteMatches (s : Store) (text : Bytes) : Prop :=
  ∃ m stray note, (Record.note m stray note).entry ∈ s.entries ∧ (Wacsc.notePrefix text).Matches m

/-- The command gets past the texts: each has something to convert, and none matches a notification. -/
def Passed (s : Store) (mac : List (Bytes × Memory)) : Prop :=
  ∀ x ∈ mac, 0 ≤ (strtomacaddress x.1).1 ∧ ¬NoteMatches s x.1

section Notes

variable {s : Store} (hwf : WellFormed s)
include hwf

theorem rmNotification_visits_iff (slack : Slack) (text : Bytes) :
    visited (rmNotificationTest slack (Wacsc.notePrefix text)) (s.seek (tagT :: (Wacsc.notePrefix text).bytes)) ≠ [] ↔
      NoteMatches s text := by
  rw [rmNotification_visited hwf]
  refine ⟨fun h => ?_, fun ⟨m, stray, note, hmem, hm⟩ => ?_⟩
  · obtain ⟨e, he⟩ := List.exists_mem_of_ne_nil _ h
    obtain ⟨m, stray, note, -, hmem, hm⟩ := note_of_onNotes hwf he
    exact ⟨m, stray, note, hmem, of_decide_eq_true hm⟩
  · refine List.ne_nil_of_mem (List.mem_filter.mpr ⟨hmem, ?_⟩)
    rw [onNotes_note, decide_eq_true_iff]
    exact hm

theorem rmNotification_ne_zero_iff (slack : Slack) (text : Bytes) :
    (quietly (rmNotification slack (Wacsc.notePrefix text)) s).1 ≠ 0 ↔ NoteMatches s text := by
  rw [← rmNotification_visits_iff hwf slack, rmNotification_quiet]
  by_cases hseek : s.seek (tagT :: (Wacsc.notePrefix text).bytes) = []
  · rw [if_pos hseek, hseek]
    exact iff_of_false (fun h => h rfl) fun h => h rfl
  · rw [if_neg hseek, ne_eq, Int.natCast_eq_zero, List.length_eq_zero_iff]

theorem rmNotification_store_eq_iff (slack : Slack) (text : Bytes) :
    (quietly (rmNotification slack (Wacsc.notePrefix text)) s).2 = s ↔ ¬NoteMatches s text := by
  rw [← rmNotification_visits_iff hwf slack, not_not, rmNotification_quiet]
  exact filter_keys_eq_self_iff fun e he => ((s.mem_seek _ e).mp (visited_hit he).1).1

/-- A text that gets past is followed by the next one. -/
theorem notificationRm_cons_passed {x : Bytes × Memory} (hx : 0 ≤ (strtomacaddress x.1).1 ∧ ¬NoteMatches s x.1)
    (rest : List (Bytes × Memory)) : Wacsc.notificationRm s (x :: rest) = Wacsc.notificationRm s rest := by
  rw [Wacsc.notificationRm, if_neg (not_lt.mpr hx.1),
    if_neg (mt (rmNotification_ne_zero_iff hwf x.2.slack x.1).mp hx.2),
    (rmNotification_store_eq_iff hwf x.2.slack x.1).mpr hx.2]

/-- A text that does not get past is the last. -/
theorem notificationRm_cons_ends {x : Bytes × Memory} (hx : ¬(0 ≤ (strtomacaddress x.1).1 ∧ ¬NoteMatches s x.1))
    (rest : List (Bytes × Memory)) : Wacsc.notificationRm s (x :: rest) = Wacsc.notificationRm s [x] := by
  by_cases hneg : (strtomacaddress x.1).1 < 0
  · rw [Wacsc.notificationRm, Wacsc.notificationRm, if_pos hneg, if_pos hneg]
  · have hmatch : NoteMatches s x.1 := not_not.mp fun hno => hx ⟨not_lt.mp hneg, hno⟩
    have hne := (rmNotification_ne_zero_iff hwf x.2.slack x.1).mpr hmatch
    simp only [Wacsc.notificationRm, if_neg hneg, if_pos hne]

theorem notificationRm_passed {mac : List (Bytes × Memory)} (h : Passed s mac) (rest : List (Bytes × Memory)) :
    Wacsc.notificationRm s (mac ++ rest) = Wacsc.notificationRm s rest := by
  induction mac with
  | nil => rfl
  | cons x mac ih =>
      rw [List.cons_append, notificationRm_cons_passed hwf (h x List.mem_cons_self)]
      exact ih fun y hy => h y (List.mem_cons_of_mem _ hy)

theorem notificationRm_not_passed {mac : List (Bytes × Memory)} (h : ¬Passed s mac) (rest : List (Bytes × Memory)) :
    Wacsc.notificationRm s (mac ++ rest) = Wacsc.notificationRm s mac := by
  induction mac with
  | nil => exact absurd (fun x hx => absurd hx List.not_mem_nil) h
  | cons x mac ih =>
      rw [List.cons_append]
      by_cases hx : 0 ≤ (strtomacaddress x.1).1 ∧ ¬NoteMatches s x.1
      · rw [notificationRm_cons_passed hwf hx, notificationRm_cons_passed hwf hx]
        refine ih fun hmac => h fun y hy => ?_
        rcases List.mem_cons.mp hy with rfl | hy
        · exact hx
        · exact hmac y hy
      · rw [notificationRm_cons_ends hwf hx (mac ++ rest), notificationRm_cons_ends hwf hx mac]

/-- What the turn of a text does to the store. -/
theorem notificationRm_succ {mac : List (Bytes × Memory)} {i : Nat} (h : i < mac.length) :
    (Passed s (mac.take i) ∧ 0 ≤ (strtomacaddress mac[i].1).1 →
      (Wacsc.notificationRm s (mac.take i)).2 = s ∧ (Wacsc.notificationRm s (mac.take (i + 1))).2 =
        (quietly (rmNotification mac[i].2.slack (Wacsc.notePrefix mac[i].1)) s).2) ∧
    (¬(Passed s (mac.take i) ∧ 0 ≤ (strtomacaddress mac[i].1).1) →
      (Wacsc.notificationRm s (mac.take (i + 1))).2 = (Wacsc.notificationRm s (mac.take i)).2) := by
  have hbefore : Passed s (mac.take i) → Wacsc.notificationRm s (mac.take i) = (some 0, s) := fun hp => by
    have hall := notificationRm_passed hwf hp []
    rwa [List.append_nil] at hall
  rw [List.take_succ_eq_append_getElem h]
  refine ⟨fun ⟨hp, hnonneg⟩ => ?_, fun hno => ?_⟩
  · rw [notificationRm_passed hwf hp, hbefore hp, Wacsc.notificationRm, if_neg (not_lt.mpr hnonneg)]
    refine ⟨rfl, ?_⟩
    simp only [Wacsc.notificationRm]
    split_ifs <;> rfl
  · by_cases hp : Passed s (mac.take i)
    · have hneg : (strtomacaddress mac[i].1).1 < 0 := not_le.mp fun hnonneg => hno ⟨hp, hnonneg⟩
      rw [notificationRm_passed hwf hp, hbefore hp, Wacsc.notificationRm, if_pos hneg]
    · rw [notificationRm_not_passed hwf hp]

/-- What a text removes has an address that begins with what is read of the text. -/
theorem notePrefix_matches_of_removed {x : Bytes × Memory} {e : Bytes × Bytes} (hin : e ∈ s.entries)
    (hout : e ∉ (quietly (rmNotification x.2.slack (Wacsc.notePrefix x.1)) s).2.entries) :
    (Wacsc.notePrefix x.1).Matches (entrySa e) := by
  rw [rmNotification_quiet, OrderedMap.mem_filter, decide_eq_true_eq] at hout
  have hgone : e.1 ∈ (visited (rmNotificationTest x.2.slack (Wacsc.notePrefix x.1))
      (s.seek (tagT :: (Wacsc.notePrefix x.1).bytes))).map Prod.fst := by
    by_contra hno
    exact hout ⟨hin, hno⟩
  have hvisited := (mem_visited_keys hin).mp hgone
  rw [rmNotification_visited hwf] at hvisited
  obtain ⟨m, stray, note, rfl, -, hm⟩ := note_of_onNotes hwf hvisited
  rw [entrySa_entry]
  exact of_decide_eq_true hm

theorem notificationRm_narrow (mac : List (Bytes × Memory)) :
    Narrow (fun mac => (Wacsc.notificationRm s mac).2) mac ↔
      ∀ (i : Nat) (h : i < mac.length), Mistyped mac[i].1 → Passed s (mac.take i) →
        0 ≤ (strtomacaddress mac[i].1).1 → ¬NoteMatches s mac[i].1 := by
  rw [narrow_iff]
  · refine forall_congr' fun i => forall_congr' fun h => forall_congr' fun _ => ?_
    obtain ⟨hturn, hnone⟩ := notificationRm_succ hwf h
    by_cases hcome : Passed s (mac.take i) ∧ 0 ≤ (strtomacaddress mac[i].1).1
    · obtain ⟨hbefore, hafter⟩ := hturn hcome
      simp only [hbefore, hafter, rmNotification_store_eq_iff hwf]
      exact ⟨fun h _ _ => h, fun h => h hcome.1 hcome.2⟩
    · exact iff_of_true (hnone hcome) fun hp hnonneg => absurd ⟨hp, hnonneg⟩ hcome
  · intro i h e bytes hbytes hbefore hafter
    have hcome : Passed s (mac.take i) ∧ 0 ≤ (strtomacaddress mac[i].1).1 := by
      by_contra hno
      exact hafter ((notificationRm_succ hwf h).2 hno ▸ hbefore)
    obtain ⟨hsame, hturn⟩ := (notificationRm_succ hwf h).1 hcome
    rw [hsame] at hbefore
    rw [hturn] at hafter
    exact (notePrefix_matches_iff hbytes _).mp (notePrefix_matches_of_removed hwf hbefore hafter)

end Notes

/-! ### Both commands -/

/-- Over any reachable store, `wacsc remove` does not widen exactly when no mistyped text finds on its turn a
log record that matches what is read of it, and `wacsc notification-rm` exactly when no mistyped text that it
comes to finds a notification so. -/
theorem removals_narrow_iff (calls : List Step) (start finish : Int) (mac : List (Bytes × Memory)) :
    (Narrow (fun mac => (Wacsc.rmLog start finish (run .empty calls) mac).2) mac ↔
      ∀ (i : Nat) (h : i < mac.length), Mistyped mac[i].1 →
        ¬Removable (storeBefore calls start finish mac i) (macFilter mac[i].1) start finish mac[i].2.pad.key) ∧
    (Narrow (fun mac => (Wacsc.notificationRm (run .empty calls) mac).2) mac ↔
      ∀ (i : Nat) (h : i < mac.length), Mistyped mac[i].1 → Passed (run .empty calls) (mac.take i) →
        0 ≤ (strtomacaddress mac[i].1).1 → ¬NoteMatches (run .empty calls) mac[i].1) :=
  ⟨remove_narrow calls start finish mac, notificationRm_narrow (run_wellFormed calls) mac⟩

/-- The letters are no hexadecimal digits, so nothing is read of the text, and nothing matches everything. -/
theorem remove_zz_widens : ¬Narrow (fun mac => (Wacsc.rmLog 0 0
    (run .empty [(.putLog sampleBuffer 100, filledMemory 0)]) mac).2) [([0x7a, 0x7a], filledMemory 0)] := by
  intro h
  have hmistyped : Mistyped [0x7a, 0x7a] := by
    refine ⟨List.cons_ne_nil _ _, ?_⟩
    rintro ⟨bytes, groups, -, hgroups, htext, -⟩
    have hz : (0x7a : UInt8) ∈ [58].intercalate groups := htext ▸ List.mem_cons_self
    exact absurd (macList_range hgroups hz).2 (by decide)
  have hsame := congrArg (fun s => s.entries.length) (h.mistyped 0 (by decide) hmistyped)
  revert hsame
  decide

end Wacs
