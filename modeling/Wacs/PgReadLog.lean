import Wacs.PgLog
import Wacs.StoreRuns

/-! What `readLog` over PostgreSQL is to answer. Its statement and its decoding loop are right for every table
and filter; the check made of the status of the query is not. -/

namespace Wacs

open OrderedCursor TextLike TextNumeral TextScan

/-- What a row of `loc` stands for. -/
@[ext]
structure LocRecord where
  sa : Mac
  dt : Int
  deviceId : Int
  ssiSignal : Int
  deriving DecidableEq

def LocRecord.row (r : LocRecord) : LocRow := ⟨mactostr r.sa, r.dt, r.deviceId, r.ssiSignal⟩

def LocItem.record (i : LocItem) : LocRecord := ⟨i.sa, i.dt, i.data.deviceId.toNat, i.data.ssiSignal.toInt⟩

/-- A server that succeeds on every statement. -/
def served (c : Nat × PgCall) : Int :=
  match c.2 with
  | .select => PGRES_TUPLES_OK
  | .start | .insert | .commit => PGRES_COMMAND_OK
  | .connect => CONNECTION_OK
  | .nnBind | .nnSetsockopt | .nnShutdown => 0

/-- The record is asked for. -/
def Asked (f : Filter) (start finish : Int) (r : LocRecord) : Prop :=
  f.Matches r.sa ∧ start ≤ r.dt ∧ r.dt ≤ rangeEnd finish

instance (f : Filter) (start finish : Int) : DecidablePred (Asked f start finish) := fun r =>
  inferInstanceAs (Decidable (f.Matches r.sa ∧ start ≤ r.dt ∧ r.dt ≤ rangeEnd finish))

/-- The listing of a table is as documented: it returns 0, has called the callback once for each record asked
for, with the values of the record, and leaves the connection open. -/
structure AnswersQuery {σ : Type} (records : List LocRecord) (f : Filter) (start finish : Int)
    (out : (Int × Option (Listing σ LocItem)) × PgConn) : Prop where
  code : out.1.1 = 0
  calls : ((handedItems out.1).map LocItem.record).Perm (records.filter (Asked f start finish))
  unfinished : .ended out.2.conn ∉ out.2.trace

/-! ### Text of addresses -/

theorem flatMap_groups (p : UInt8) (ps : Bytes) :
    (p :: ps).flatMap (fun p => numeral 16 2 p.toNat ++ [58]) = macText (p :: ps) ++ [58] := by
  induction ps generalizing p with
  | nil => rw [macText_singleton, List.flatMap_singleton]
  | cons q ps ih => rw [List.flatMap_cons, ih, macText_cons, List.append_assoc, List.append_assoc]; rfl

theorem mactostr2_eq (bytes : Bytes) : mactostr2 bytes = macText bytes := by
  cases bytes with
  | nil => rfl
  | cons p ps =>
      have hlen : 1 < (macText (p :: ps) ++ [58]).length := by
        have hne : macText (p :: ps) ≠ [] := by
          cases ps with
          | nil => exact macText_singleton p ▸ numeral_ne_nil 16 _ (by decide)
          | cons q ps =>
              rw [macText_cons]
              exact List.append_ne_nil_of_right_ne_nil _ (List.cons_ne_nil _ _)
        rw [List.length_append, List.length_singleton]
        exact Nat.succ_lt_succ (List.length_pos_iff.mpr hne)
      rw [mactostr2, flatMap_groups, if_pos hlen, List.dropLast_concat]

theorem numeral_byte_length (p : UInt8) : (numeral 16 2 p.toNat).length = 2 :=
  numeral_length_of_lt (by decide) (by have := p.toNat_lt; omega)

theorem numeral_byte_inj {p q : UInt8} (h : numeral 16 2 p.toNat = numeral 16 2 q.toNat) : p = q := by
  have hvalue := congrArg (digitsValue 16) h
  rw [digitsValue_numeral le_rfl (by decide), digitsValue_numeral le_rfl (by decide)] at hvalue
  exact UInt8.toNat_inj.mp hvalue

/-- The groups after the first one, each with its colon. -/
theorem macText_cons_eq (p : UInt8) (ps : Bytes) :
    macText (p :: ps) = numeral 16 2 p.toNat ++ if ps = [] then [] else 58 :: macText ps := by
  cases ps with
  | nil => rw [macText_singleton, if_pos rfl, List.append_nil]
  | cons q ps => rw [macText_cons, if_neg (List.cons_ne_nil q ps)]

theorem isPrefix_append_append {α : Type} {a b x y : List α} (h : a.length = b.length) :
    a ++ x <+: b ++ y ↔ a = b ∧ x <+: y := by
  refine ⟨fun ⟨rest, hrest⟩ => ?_, fun ⟨hab, hxy⟩ => ?_⟩
  · rw [List.append_assoc] at hrest
    obtain ⟨hab, hxy⟩ := List.append_inj hrest h
    exact ⟨hab, rest, hxy⟩
  · subst hab
    exact (List.prefix_append_right_inj a).mpr hxy

/-- Addresses begin alike when their texts do. -/
theorem macText_isPrefix_iff (ps qs : Bytes) : macText ps <+: macText qs ↔ ps <+: qs := by
  induction ps generalizing qs with
  | nil => exact iff_of_true List.nil_prefix List.nil_prefix
  | cons p ps ih =>
      cases qs with
      | nil =>
          refine iff_of_false (fun h => ?_) fun h => List.cons_ne_nil _ _ (List.prefix_nil.mp h)
          have hlen := h.length_le
          rw [macText_cons_eq, List.length_append, numeral_byte_length] at hlen
          exact absurd hlen (by rw [show macText [] = [] from rfl, List.length_nil]; omega)
      | cons q qs =>
          have hlen : (numeral 16 2 p.toNat).length = (numeral 16 2 q.toNat).length := by
            rw [numeral_byte_length, numeral_byte_length]
          rw [macText_cons_eq, macText_cons_eq, isPrefix_append_append hlen, List.cons_prefix_cons]
          refine and_congr ⟨numeral_byte_inj, fun h => h ▸ rfl⟩ ?_
          by_cases hps : ps = []
          · rw [if_pos hps, hps]
            exact iff_of_true List.nil_prefix List.nil_prefix
          · rw [if_neg hps]
            by_cases hqs : qs = []
            · rw [if_pos hqs, hqs]
              exact iff_of_false (mt List.prefix_nil.mp (List.cons_ne_nil _ _)) (mt List.prefix_nil.mp hps)
            · rw [if_neg hqs, List.prefix_cons_inj, ih]

theorem macText_inj {ps qs : Bytes} (hlen : ps.length = qs.length) (h : macText ps = macText qs) : ps = qs :=
  ((macText_isPrefix_iff ps qs).mp (h ▸ List.prefix_rfl)).eq_of_length hlen

theorem isPlain_of_mem_macText {ps : Bytes} {c : UInt8} (h : c ∈ macText ps) : IsPlain c := by
  have hdigit : ∀ {p : UInt8}, c ∈ numeral 16 2 p.toNat → IsPlain c := by
    intro p hc
    have hhex : isDigit 16 c = true := isDigit_of_mem_numeral le_rfl (by decide) hc
    refine ⟨?_, ?_, ?_⟩ <;>
    · intro heq
      rw [heq] at hhex
      exact absurd hhex (by decide)
  induction ps with
  | nil => cases h
  | cons p ps ih =>
      rw [macText_cons_eq, List.mem_append] at h
      rcases h with h | h
      · exact hdigit h
      · split_ifs at h
        · cases h
        · rcases List.mem_cons.mp h with rfl | h
          · exact ⟨by decide, by decide, by decide⟩
          · exact ih h

/-! ### The query -/

/-- What the pattern of a filter matches. -/
theorem like_likePattern (slack : Nat → UInt8) (f : Filter) (hsize : f.saSize ≤ 6) (m : Mac) :
    like (Pg.likePattern slack f) (mactostr m) = true ↔ f.Matches m := by
  have hsz : f.saSize.toNat = f.sz := by
    unfold Filter.sz clampSa
    split_ifs <;> omega
  have hbytes : peek slack (f.sa.getD []) 0 f.saSize.toNat = f.bytes := by
    have hpeek := peek_append slack [] f.bytes ((f.sa.getD []).drop f.sz)
    rw [List.nil_append, f.bytes_length, Filter.bytes, List.take_append_drop] at hpeek
    rw [hsz]
    exact hpeek
  have hplain : ∀ c ∈ macText f.bytes, IsPlain c := fun c => isPlain_of_mem_macText
  rw [Pg.likePattern, mactostr2_eq, hbytes]
  by_cases hpart : f.saSize < 6
  · rw [if_pos hpart, like_prefix hplain, mactostr, macText_isPrefix_iff, List.prefix_iff_eq_take, f.bytes_length]
    exact eq_comm
  · have hfull : f.sz = 6 := by omega
    rw [if_neg hpart, List.append_nil, like_plain hplain, Filter.Matches, hfull, List.take_of_length_le m.property.le]
    refine ⟨macText_inj ?_, congrArg macText⟩
    rw [m.property, f.bytes_length, hfull]

theorem strtol10_decimal {n : Int} (hlo : -2 ^ 63 ≤ n) (hhi : n < 2 ^ 63) : strtol10 (decimal n) = n := by
  have hall : ∀ c ∈ numeral 10 1 n.natAbs, isDigit 10 c = true := fun c => isDigit_of_mem_decimal
  obtain ⟨htake, -⟩ := span_run _ [] hall fun _ h => by cases h
  rw [List.append_nil] at htake
  have hvalue : digitsValue 10 (numeral 10 1 n.natAbs) = n.natAbs := digitsValue_decimal 1 n.natAbs
  unfold strtol10 decimal
  split_ifs with hneg
  · rw [skipSpace_cons (show isSpace 45 = false by decide), takeSign]
    simp only [htake, hvalue, if_true]
    omega
  · cases htext : numeral 10 1 n.natAbs with
    | nil => exact absurd htext (numeral_ne_nil 10 _ (by decide))
    | cons c s =>
        have hc := hall c (htext ▸ List.mem_cons_self)
        rw [skipSpace_cons (isSpace_of_isDigit hc), takeSign_of_isDigit hc, ← htext]
        simp only [htake, hvalue, Bool.false_eq_true, if_false]
        omega

/-- The values are among those that the callback's types carry. -/
structure LocRecord.Fits (r : LocRecord) : Prop where
  dt : -2 ^ 63 ≤ r.dt ∧ r.dt < 2 ^ 63
  deviceId : 0 ≤ r.deviceId ∧ r.deviceId < 2 ^ 16
  ssiSignal : -2 ^ 7 ≤ r.ssiSignal ∧ r.ssiSignal < 2 ^ 7

/-- A row of such values is decoded to what it stands for. -/
theorem record_locItem_row {r : LocRecord} (hr : r.Fits) : (locItem r.row).record = r := by
  obtain ⟨hdt, hdev, hssi⟩ := hr
  have hstrtol : ∀ {n : Int}, -2 ^ 63 ≤ n ∧ n < 2 ^ 63 → strtol10 (decimal n) = n := fun h => strtol10_decimal h.1 h.2
  have hdev64 := hstrtol (n := r.deviceId) (by omega)
  have hssi64 := hstrtol (n := r.ssiSignal) (by omega)
  refine LocRecord.ext ?_ (hstrtol hdt) ?_ ?_
  · show (strtomacaddress (mactostr r.sa)).2 = r.sa
    rw [strtomacaddress_mactostr]
  · show ((UInt16.ofNat (strtol10 (decimal r.deviceId) % 2 ^ 16).toNat).toNat : Int) = r.deviceId
    rw [hdev64, UInt16.toNat_ofNat']
    omega
  · show (Int8.ofInt (strtol10 (decimal r.ssiSignal))).toInt = r.ssiSignal
    rw [hssi64, Int8.toInt_ofInt_of_le hssi.1 hssi.2]

/-- The loop over the tuples of the query calls its callback as asked: what keeps `readLog` from it is the
check of the status alone. -/
theorem select_answers {σ : Type} {s : PgConn} {records : List LocRecord} (hs : s.view = records.map LocRecord.row)
    (hfits : ∀ r ∈ records, r.Fits) (slack : Nat → UInt8) (f : Filter) (hsize : f.saSize ≤ 6) {start finish : Int}
    (hle : start ≤ rangeEnd finish) (onLog : σ → LocItem → σ × Bool) (hnever : ∀ env i, (onLog env i).2 = false)
    (env : σ) : (deliver (report onLog locItem) ⟨env, []⟩ (s.execute
      (.select (Pg.likePattern slack f) (timeRange start finish).2 (timeRange start finish).1)).1).calls.map
        LocItem.record = records.filter (Asked f start finish) := by
  have htest : ∀ r : LocRecord, (like (Pg.likePattern slack f) r.row.sa && decide (r.row.dt ≤ rangeEnd finish) &&
      decide (r.row.dt ≥ start)) = decide (Asked f start finish r) := by
    intro r
    rw [Bool.eq_iff_iff, Bool.and_eq_true, Bool.and_eq_true, decide_eq_true_iff, decide_eq_true_iff,
      decide_eq_true_iff]
    show (like _ (mactostr r.sa) = true ∧ r.dt ≤ rangeEnd finish) ∧ r.dt ≥ start ↔ _
    rw [like_likePattern slack f hsize, Asked, and_assoc, and_comm (a := r.dt ≤ rangeEnd finish)]
  rw [timeRange_of_le hle, deliver_report_calls, handed_of_never onLog hnever, List.nil_append, List.map_map]
  show (s.view.filter fun row => like (Pg.likePattern slack f) row.sa &&
    decide (row.dt ≤ rangeEnd finish) && decide (row.dt ≥ start)).map _ = _
  rw [hs, List.filter_map, List.map_map]
  simp only [Function.comp_def, htest]
  refine (List.map_congr_left fun r hr => ?_).trans (List.map_id _)
  exact record_locItem_row (hfits r (List.mem_filter.mp hr).1)

/-! ### `readLog` -/

/-- On a server that succeeds on every statement the query takes the failing branch of the check. -/
theorem readLog_served {σ : Type} (rows : List LocRow) (slack : Nat → UInt8) (f : Filter) (start finish : Int)
    (onLog : σ → LocItem → σ × Bool) (env : σ) :
    (Pg.readLog slack f start finish (some onLog) (some env)).run served (.fresh rows) =
      ((ERRCODE_DATABASE_STATEMENT_FAIL, none), ⟨rows, none, 1, [.begun 1, .used 1, .used 1, .ended 1]⟩) := rfl

/-- No query is ever answered. -/
theorem readLog_never_answers {σ : Type} (records : List LocRecord) (slack : Nat → UInt8) (f : Filter)
    (start finish : Int) (onLog : σ → LocItem → σ × Bool) (env : σ) :
    ¬AnswersQuery records f start finish ((Pg.readLog slack f start finish (some onLog) (some env)).run served
      (.fresh (records.map LocRecord.row))) := by
  intro h
  have hcode := h.code
  rw [readLog_served] at hcode
  exact absurd hcode (show ERRCODE_DATABASE_STATEMENT_FAIL ≠ 0 by decide)

/-- The listing of one record, without a filter or a range. -/
theorem readLog_finishes_connection : ¬AnswersQuery [⟨sampleMac, 100, 1, -50⟩] anyMac 0 0
    ((Pg.readLog (fun _ => 0) anyMac 0 0 (some fun (_ : Unit) _ => ((), false)) (some ())).run served
      (.fresh ([⟨sampleMac, 100, 1, -50⟩].map LocRecord.row))) := by
  intro h
  exact h.unfinished (by decide)

end Wacs
