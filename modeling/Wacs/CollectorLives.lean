import Wacs.CollectorRuns
import Wacs.KilledCalls

/-! The collector's process from its start to its end: `run` of `lmdbwriter.cpp`, asked to stop or killed, and started
again on the database it leaves. What it has acknowledged it keeps through every kill. -/

namespace Wacs

open OracleM OrderedCursor

namespace Lmdb

/-- Where a process is killed: in `openDb`, or in a turn that comes upon `t`, after so many calls of the engine. -/
inductive Kill where
  | opening (n : Nat)
  | turn (t : Turn) (n : Nat)

/-- What a process comes upon: the answers to `nn_bind` and `nn_setsockopt`, those of the engine to `openDb`, the
turns of the loop; and then a kill, or a request to stop and the answer to `nn_shutdown`. -/
structure Life where
  bind : Int
  setsockopt : Int
  opening : Answers
  turns : List Turn
  kill : Option Kill
  shutdown : Int

/-- The engine calls of the `openDb` of `run`. -/
def openCall (c : OpenCall) : Nat × Call := (0, .openDb c)

/-- The environment before `openDb`. -/
def unopened (m : Store) : Engine := { TxnStore.idle m with opened := false }

/-- The state the loop ends in, over these turns at most. -/
def loop (snmpAgent : Bool) (w : Writer) (ts : List Turn) : Writer := (states snmpAgent w ts).getLastD w

/-- The environment after a kill in a turn; only `putLog` calls the engine. -/
def killedTurn (w : Writer) (t : Turn) (n : Nat) : Engine :=
  match t.received with
  | .message buffer now => killed t.answers n (putLog buffer now t.pad) w.env
  | .interrupted => w.env
  | .timedOut => w.env
  | .failed => w.env

/-- The end of `run`. `closeDb` always returns true, and what the source makes of its failure is overwritten. -/
def finish (l : Life) (w : Writer) : Option Int × Store :=
  (some (if l.shutdown ≠ 0 then ERRCODE_NN_SHUTDOWN else l.shutdown), (closeDb.run l.opening w.env).2.committed)

def serve (snmpAgent : Bool) (env : Engine) (l : Life) : Option Int × Store :=
  let w := loop snmpAgent (initial env) l.turns
  match l.kill with
  | some (.turn t n) => if w.stopRequest then finish l w else (none, (killedTurn w t n).committed)
  | _ => finish l w

/-- `run`: what it returns, unless the process is killed in it, and the database then. The failures of the start
return without closing the socket. -/
def run (snmpAgent : Bool) (m : Store) (l : Life) : Option Int × Store :=
  if l.bind < 0 then (some ERRCODE_NN_BIND, m)
  else if l.setsockopt < 0 then (some ERRCODE_NN_BIND, m)
  else match l.kill with
    | some (.opening n) => (none, (killed l.opening n (openDb openCall) (unopened m)).committed)
    | _ =>
        let opened := (openDb openCall).run l.opening (unopened m)
        if opened.1 = false then (some ERRCODE_LMDB_OPEN, opened.2.committed) else serve snmpAgent opened.2 l

/-- The database after one process and another. -/
def lives (snmpAgent : Bool) (m : Store) (ls : List Life) : Store := ls.foldl (fun m l => (run snmpAgent m l).2) m

/-! ### What a life leaves -/

def Turn.interrupts (t : Turn) : Bool :=
  match t.received with
  | .interrupted => true
  | .message _ _ => false
  | .timedOut => false
  | .failed => false

/-- The turns that the loop takes before one that is interrupted. -/
def uninterrupted (ts : List Turn) : List Turn := ts.takeWhile fun t => !t.interrupts

theorem turn_stopRequest (snmpAgent : Bool) (w : Writer) (t : Turn) :
    (turn snmpAgent w t).stopRequest = (w.stopRequest || t.interrupts) := by
  unfold turn Turn.interrupts
  cases t.received with
  | interrupted => exact (Bool.or_true _).symm
  | message buffer now => exact (Bool.or_false _).symm
  | timedOut => exact (Bool.or_false _).symm
  | failed => exact (Bool.or_false _).symm

theorem Turn.writes_of_interrupts {t : Turn} (h : t.interrupts = true) : t.writes = [] := by
  apply Turn.writes_of_none
  unfold Turn.interrupts at h
  unfold Turn.acknowledged
  cases hreceived : t.received with
  | interrupted => rfl
  | message buffer now => rw [hreceived] at h; cases h
  | timedOut => rfl
  | failed => rfl

theorem loop_of_stopped (snmpAgent : Bool) {w : Writer} (h : w.stopRequest = true) (ts : List Turn) :
    loop snmpAgent w ts = w := by
  cases ts with
  | nil => rfl
  | cons t ts => rw [loop, states, if_pos h]; rfl

theorem loop_cons (snmpAgent : Bool) {w : Writer} (h : w.stopRequest = false) (t : Turn) (ts : List Turn) :
    loop snmpAgent w (t :: ts) = loop snmpAgent (turn snmpAgent w t) ts := by
  obtain ⟨rest, hrest⟩ : ∃ rest, states snmpAgent (turn snmpAgent w t) ts = turn snmpAgent w t :: rest := by
    cases ts with
    | nil => exact ⟨[], rfl⟩
    | cons t' ts =>
        rw [states]
        split_ifs
        · exact ⟨[], rfl⟩
        · exact ⟨_, rfl⟩
  rw [loop, loop, states, if_neg (by rw [h]; exact Bool.false_ne_true), hrest]
  rfl

theorem loop_committed (snmpAgent : Bool) {w : Writer} (hw : w.stopRequest = false) (ts : List Turn) :
    (loop snmpAgent w ts).env.committed = w.env.committed.putAll ((uninterrupted ts).flatMap Turn.writes) := by
  induction ts generalizing w with
  | nil => rfl
  | cons t ts ih =>
      have hstop : (turn snmpAgent w t).stopRequest = t.interrupts := by rw [turn_stopRequest, hw, Bool.false_or]
      rw [loop_cons snmpAgent hw, uninterrupted, List.takeWhile_cons]
      cases hinterrupts : t.interrupts with
      | true =>
          rw [loop_of_stopped snmpAgent (hstop.trans hinterrupts), turn_committed,
            Turn.writes_of_interrupts hinterrupts]
          rfl
      | false =>
          rw [ih (hstop.trans hinterrupts), turn_committed, ← OrderedMap.putAll_append]
          rfl

/-- A turn killed in leaves what it found, or what it would have left. -/
theorem killedTurn_committed (snmpAgent : Bool) (w : Writer) (t : Turn) (n : Nat) :
    (killedTurn w t n).committed = w.env.committed ∨
      (killedTurn w t n).committed = w.env.committed.putAll t.writes := by
  have hturn := turn_committed snmpAgent w t
  unfold killedTurn
  cases hreceived : t.received with
  | message buffer now =>
      have hkilled := putLog_atomic (a := t.answers) (s := w.env) buffer now t.pad n
      rw [turn, hreceived] at hturn
      exact hkilled.imp_right fun h => h.trans hturn
  | interrupted => exact Or.inl rfl
  | timedOut => exact Or.inl rfl
  | failed => exact Or.inl rfl

def Life.serves (l : Life) : Bool :=
  decide (0 ≤ l.bind ∧ 0 ≤ l.setsockopt) && openDbOk l.opening openCall &&
    match l.kill with
    | some (.opening _) => false
    | some (.turn _ _) => true
    | none => true

def Life.reached (l : Life) : List Turn := if l.serves then uninterrupted l.turns else []

/-- What may be left of the turn in which a life is killed: nothing of it, or the whole. -/
def Life.Last (l : Life) (last : List Turn) : Prop := last = [] ∨ ∃ t n, l.kill = some (.turn t n) ∧ last = [t]

/-- The turns of one life after another, the last one of each as it is left. -/
def turnsLeft (ls : List Life) (lasts : List (List Turn)) : List Turn :=
  (List.zipWith (fun l last => l.reached ++ last) ls lasts).flatten

theorem openDb_committed (a : Answers) (m : Store) :
    (openDb openCall).run a (unopened m) = (openDbOk a openCall, ((openDb openCall).run a (unopened m)).2) ∧
      ((openDb openCall).run a (unopened m)).2.committed = m := by
  obtain ⟨s, hrun, hcommitted, -⟩ := openDb_run a openCall (unopened m) rfl
  rw [hrun]
  exact ⟨rfl, hcommitted⟩

/-- The database at the end of a life that comes to the loop. -/
theorem serve_committed (snmpAgent : Bool) (env : Engine) (l : Life) :
    ∃ last, l.Last last ∧
      (serve snmpAgent env l).2 = env.committed.putAll ((uninterrupted l.turns ++ last).flatMap Turn.writes) := by
  have hloop : (loop snmpAgent (initial env) l.turns).env.committed =
      env.committed.putAll ((uninterrupted l.turns).flatMap Turn.writes) := loop_committed snmpAgent rfl l.turns
  have hfinish : (finish l (loop snmpAgent (initial env) l.turns)).2 =
      env.committed.putAll ((uninterrupted l.turns ++ []).flatMap Turn.writes) := by
    rw [List.append_nil]
    exact hloop
  unfold serve
  cases hkill : l.kill with
  | none => exact ⟨[], Or.inl rfl, hfinish⟩
  | some k =>
      cases k with
      | opening n => exact ⟨[], Or.inl rfl, hfinish⟩
      | turn t n =>
          dsimp only
          split_ifs with hstopped
          · exact ⟨[], Or.inl rfl, hfinish⟩
          · rcases killedTurn_committed snmpAgent (loop snmpAgent (initial env) l.turns) t n with hnot | hdone
            · exact ⟨[], Or.inl rfl, (hnot.trans hloop).trans (by rw [List.append_nil])⟩
            · refine ⟨[t], Or.inr ⟨t, n, hkill, rfl⟩, ?_⟩
              rw [List.flatMap_append, OrderedMap.putAll_append, ← hloop, List.flatMap_singleton]
              exact hdone

theorem run_of_serves (snmpAgent : Bool) (m : Store) {l : Life} (h : l.serves = true) :
    run snmpAgent m l = serve snmpAgent ((openDb openCall).run l.opening (unopened m)).2 l := by
  obtain ⟨hopened, -⟩ := openDb_committed l.opening m
  unfold Life.serves at h
  rw [Bool.and_eq_true, Bool.and_eq_true, decide_eq_true_iff] at h
  obtain ⟨⟨⟨hbind, hsetsockopt⟩, hok⟩, hkill⟩ := h
  rw [run, if_neg (not_lt.mpr hbind), if_neg (not_lt.mpr hsetsockopt), hopened]
  cases hk : l.kill with
  | none => exact if_neg (by rw [hok]; exact Bool.false_ne_true.symm)
  | some k =>
      cases k with
      | opening n =>
          rw [hk] at hkill
          cases hkill
      | turn t n => exact if_neg (by rw [hok]; exact Bool.false_ne_true.symm)

/-- A life that does not come to the loop leaves the database as it is. -/
theorem run_of_not_serves (snmpAgent : Bool) (m : Store) {l : Life} (h : l.serves = false) :
    (run snmpAgent m l).2 = m := by
  obtain ⟨hopened, hcommitted⟩ := openDb_committed l.opening m
  unfold Life.serves at h
  rw [run, hopened]
  split_ifs with hbind hsetsockopt
  · rfl
  · rfl
  rw [decide_eq_true ⟨not_lt.mp hbind, not_lt.mp hsetsockopt⟩, Bool.true_and] at h
  cases hk : l.kill with
  | none =>
      rw [hk, Bool.and_true] at h
      exact (congrArg Prod.snd (if_pos h)).trans hcommitted
  | some k =>
      cases k with
      | opening n => exact openDb_still openCall n
      | turn t n =>
          rw [hk, Bool.and_true] at h
          exact (congrArg Prod.snd (if_pos h)).trans hcommitted

theorem run_committed (snmpAgent : Bool) (m : Store) (l : Life) :
    ∃ last, l.Last last ∧ (run snmpAgent m l).2 = m.putAll ((l.reached ++ last).flatMap Turn.writes) := by
  unfold Life.reached
  cases hserves : l.serves with
  | true =>
      obtain ⟨last, hlast, hstore⟩ := serve_committed snmpAgent ((openDb openCall).run l.opening (unopened m)).2 l
      rw [(openDb_committed l.opening m).2] at hstore
      rw [run_of_serves snmpAgent m hserves]
      exact ⟨last, hlast, hstore⟩
  | false => exact ⟨[], Or.inl rfl, run_of_not_serves snmpAgent m hserves⟩

/-! ### What the lives leave -/

theorem lives_putAll (snmpAgent : Bool) (m : Store) (ls : List Life) :
    ∃ lasts, List.Forall₂ Life.Last ls lasts ∧
      lives snmpAgent m ls = m.putAll ((turnsLeft ls lasts).flatMap Turn.writes) := by
  induction ls generalizing m with
  | nil => exact ⟨[], .nil, rfl⟩
  | cons l ls ih =>
      obtain ⟨last, hlast, hstore⟩ := run_committed snmpAgent m l
      obtain ⟨lasts, hlasts, hrest⟩ := ih (run snmpAgent m l).2
      refine ⟨last :: lasts, .cons hlast hlasts, ?_⟩
      rw [turnsLeft, List.zipWith_cons_cons, List.flatten_cons, List.flatMap_append, OrderedMap.putAll_append, ← hstore]
      exact hrest

/-- **The database of a collector** that is stopped or killed and started again any number of times, whatever it
receives and whatever the engine answers: each message acknowledged in any life has its two writes there, less those
lost to a full map, in the order of the messages; a message refused has left nothing; of the message a life was
killed at there is nothing, or what there would be had it been acknowledged. -/
theorem lives_hold_acknowledged (snmpAgent : Bool) (m : Store) (ls : List Life) :
    (∃ lasts, List.Forall₂ Life.Last ls lasts ∧
      lives snmpAgent m ls = m.putAll ((turnsLeft ls lasts).flatMap Turn.writes)) ∧
    (∀ t : Turn, (∀ p, ¬Full t.answers 0 p) → t.writes = t.observation) ∧
    ∀ t : Turn, (∀ p, recoverLive t.answers 0 p = true) → t.writes = t.observation.drop
      (if Full t.answers 0 .commit then 2 else if Full t.answers 0 .probe then 1 else 0) :=
  ⟨lives_putAll snmpAgent m ls, fun _ h => Turn.writes_of_room h,
    fun t h => congrArg t.observation.drop (lostWrites_eq t.answers h)⟩

/-- The turns of a life, that in which it is killed included. -/
def Life.all (l : Life) : List Turn :=
  l.turns ++ match l.kill with
    | some (.turn t _) => [t]
    | some (.opening _) => []
    | none => []

theorem mem_turnsLeft {ls : List Life} {lasts : List (List Turn)} (h : List.Forall₂ Life.Last ls lasts) {t : Turn}
    (ht : t ∈ turnsLeft ls lasts) : ∃ l ∈ ls, t ∈ l.all := by
  induction h with
  | nil => cases ht
  | @cons l last ls lasts hlast _ ih =>
      rw [turnsLeft, List.zipWith_cons_cons, List.flatten_cons, List.mem_append, List.mem_append] at ht
      rcases ht with (ht | ht) | ht
      · refine ⟨l, List.mem_cons_self, List.mem_append_left _ ?_⟩
        unfold Life.reached at ht
        split_ifs at ht
        · exact List.takeWhile_subset _ ht
        · cases ht
      · rcases hlast with rfl | ⟨t', n, hkill, rfl⟩
        · cases ht
        · refine ⟨l, List.mem_cons_self, List.mem_append_right _ ?_⟩
          rw [hkill]
          exact ht
      · obtain ⟨l', hl', ht'⟩ := ih ht
        exact ⟨l', List.mem_cons_of_mem _ hl', ht'⟩

/-- **What a listing shows after the lives of a collector** in which the map is never full: the log of what was there
before and of the messages acknowledged in them, one entry for each address and second, with the message each life
was killed at or without it. -/
theorem lives_list_acknowledged {σ : Type} (calls : List Step) (hcalls : ∀ c ∈ calls, c.2.pad.key = 0)
    (snmpAgent : Bool) (ls : List Life) (hpads : ∀ l ∈ ls, ∀ t ∈ l.all, t.pad.key = 0)
    (hfull : ∀ l ∈ ls, ∀ t ∈ l.all, ∀ p, ¬Full t.answers 0 p) (slack : Slack) (f : Filter) (start finish : Int)
    (hstart : 0 ≤ start) (hle : start ≤ rangeEnd finish) (hlt : rangeEnd finish < 2 ^ 32) (onLog : OnLog σ)
    (onLogEnv : σ) :
    ∃ lasts, List.Forall₂ Life.Last ls lasts ∧
      lives snmpAgent (Wacs.run .empty calls) ls = Wacs.run .empty (calls ++ steps (turnsLeft ls lasts)) ∧
      handedItems (quietly (readLog slack f start finish 0 (some onLog) (some onLogEnv))
          (lives snmpAgent (Wacs.run .empty calls) ls)).1 =
        handed onLog onLogEnv (((logAfter (calls ++ steps (turnsLeft ls lasts))).entries.filter
          (onKeys (logPicks f start finish))).map logItem) := by
  obtain ⟨lasts, hlasts, hputs⟩ := lives_putAll snmpAgent (Wacs.run .empty calls) ls
  have hstore : lives snmpAgent (Wacs.run .empty calls) ls = Wacs.run .empty (calls ++ steps (turnsLeft ls lasts)) := by
    rw [hputs, run_append]
    apply putAll_steps
    intro t ht
    obtain ⟨l, hl, hmem⟩ := mem_turnsLeft hlasts ht
    exact hfull l hl t hmem
  have hall : ∀ c ∈ calls ++ steps (turnsLeft ls lasts), c.2.pad.key = 0 := by
    intro c hc
    rcases List.mem_append.mp hc with hc | hc
    · exact hcalls c hc
    · refine steps_pad (fun t ht => ?_) c hc
      obtain ⟨l, hl, hmem⟩ := mem_turnsLeft hlasts ht
      exact hpads l hl t hmem
  refine ⟨lasts, hlasts, hstore, ?_⟩
  rw [hstore, readLog_items (run_refines hall) slack f start finish
    (fun _ => ((constPads_empty 0).run hall).2 f.mac) onLog onLogEnv, readLogPicks_eq f hstart hle hlt]
  rfl

/-- A life of one message that is stored, ended by a kill while it waits for the next. -/
def sampleLife : Life := ⟨1, 0, quiet, [sampleTurn], some (.turn { sampleTurn with received := .timedOut } 0), 0⟩

/-- After the kill the listing has the message. -/
theorem lives_list_acknowledged_sample :
    handedItems (quietly (readLog (fun _ _ => 0) anyMac 0 0 0 (some takeAll) (some ()))
        (lives true (Wacs.run .empty []) [sampleLife])).1 = [⟨sampleMac, 100, some ⟨1, -50⟩⟩] := by
  have hall : ∀ l ∈ [sampleLife], ∀ t ∈ l.all, t.pad.key = 0 ∧ ∀ p, ¬Full t.answers 0 p := by
    intro l hl t ht
    rw [List.mem_singleton.mp hl] at ht
    rcases List.mem_append.mp ht with ht | ht
    · rw [List.mem_singleton.mp ht]
      exact ⟨rfl, fun _ => zero_ne_mapFull⟩
    · rw [List.mem_singleton.mp ht]
      exact ⟨rfl, fun _ => zero_ne_mapFull⟩
  obtain ⟨lasts, hlasts, -, hlists⟩ := lives_list_acknowledged [] (fun _ hc => absurd hc List.not_mem_nil) true
    [sampleLife] (fun l hl t ht => (hall l hl t ht).1) (fun l hl t ht => (hall l hl t ht).2) (fun _ _ => 0) anyMac 0 0
    (by decide) (by decide) (by decide) takeAll ()
  obtain ⟨last, _, hlast, hnil, rfl⟩ := List.forall₂_cons_left_iff.mp hlasts
  rw [List.forall₂_nil_left_iff.mp hnil] at hlists
  -- the turn of the kill has no message
  rcases hlast with rfl | ⟨t, n, hkill, rfl⟩
  · exact hlists.trans (by decide)
  · cases hkill
    exact hlists.trans (by decide)

end Lmdb

end Wacs
