import Mathlib.Data.FinEnum
import Wacs.DblogScan
import Wacs.DumpDate
import Wacs.DumpMac

/-! `wacsc.cpp`: the log printed one line for each entry, and read back line by line. -/

namespace Wacs

open OrderedCursor TextNumeral TextScan

def decimal (n : Int) : Bytes := if n < 0 then 45 :: numeral 10 1 n.natAbs else numeral 10 1 n.natAbs

/-- The environment of the callbacks, and what they have printed. -/
structure ReqEnv where
  interruptFlag : Bool
  position : UInt64
  offset : UInt64
  count : UInt64
  out : Bytes

/-- The line of an entry; a last probe has no data. -/
def logLine (z : Zone) (item : LogItem) : Bytes :=
  mactostr item.sa ++ [9] ++ timeT2string z item.dt.toNat ++
    (match item.data with
      | some data => [9] ++ numeral 10 1 data.deviceId.toNat ++ [9] ++ decimal data.ssiSignal.toInt
      | none => []) ++ [10]

/-- The callback of `wacsc`. A count of -1 is no limit. -/
def onLog (z : Zone) : OnLog ReqEnv := fun e item =>
  -- paginate
  if e.position < e.offset then ({ e with position := e.position + 1 }, false)
  else if e.count ≠ -1 ∧ e.position ≥ e.offset + e.count then (e, true)
  else ({ e with position := e.position + 1, out := e.out ++ logLine z item }, e.interruptFlag)

/-- The fields of a line. What a field leaves unread the record keeps from before. -/
def parseLogLine (z : Zone) (retval : LogRecord) (line : Bytes) : LogRecord :=
  let (mac, ss) := IStream.word [] ⟨line, true⟩
  let (dt, ss) := IStream.word [] ss
  let (deviceId, ss) := IStream.uint16 retval.deviceId ss
  let (ssiSignal, _) := IStream.int8 retval.ssiSignal ss
  ⟨(strtomacaddress mac).2, time32 (parseDate z (cString dt)), deviceId, ssiSignal⟩

/-- The next record of a text and what is left of it, or nothing at its end. -/
def onPutLogEntry (z : Zone) (retval : LogRecord) (strm : Bytes) : Option (LogRecord × Bytes) :=
  (getline strm).map fun line => (parseLogLine z retval line.1, line.2)

/-- The records that so many calls of `onPutLogEntry` leave in the one record of the caller. -/
def suppliedBy (z : Zone) : Nat → LogRecord → Bytes → List LogRecord
  | 0, _, _ => []
  | n + 1, record, strm =>
      match onPutLogEntry z record strm with
      | none => []
      | some (record, strm) => record :: suppliedBy z n record strm

/-- The records of a text. Every line takes a byte of it at least. -/
def supplied (z : Zone) (record : LogRecord) (strm : Bytes) : List LogRecord :=
  suppliedBy z strm.length record strm

/-- Calls beyond the length of the text supply nothing more. -/
theorem suppliedBy_of_length_le (z : Zone) (n : Nat) (record : LogRecord) (strm : Bytes) (h : strm.length ≤ n) :
    suppliedBy z n record strm = supplied z record strm := by
  have hfuel : ∀ n n' record (strm : Bytes), strm.length ≤ n → strm.length ≤ n' →
      suppliedBy z n record strm = suppliedBy z n' record strm := by
    intro n
    induction n with
    | zero =>
        intro n' record strm hn _
        obtain rfl := List.length_eq_zero_iff.mp (Nat.le_zero.mp hn)
        cases n' with
        | zero => rfl
        | succ n' => rfl
    | succ n ih =>
        intro n' record strm hn hn'
        cases n' with
        | zero =>
            obtain rfl := List.length_eq_zero_iff.mp (Nat.le_zero.mp hn')
            rfl
        | succ n' =>
            rw [suppliedBy, suppliedBy, onPutLogEntry]
            cases hline : getline strm with
            | none => rfl
            | some line =>
                have hlt := getline_length hline
                exact congrArg _ (ih n' _ _ (by omega) (by omega))
  exact hfuel n strm.length record strm h le_rfl

/-- The first line supplies the first record, which the rest starts from. -/
theorem supplied_of_getline {z : Zone} {record : LogRecord} {strm line rest : Bytes}
    (h : getline strm = some (line, rest)) :
    supplied z record strm = parseLogLine z record line :: supplied z (parseLogLine z record line) rest := by
  have hnext : onPutLogEntry z record strm = some (parseLogLine z record line, rest) := by
    rw [onPutLogEntry, h, Option.map_some]
  have hlt := getline_length h
  cases strm with
  | nil => cases h
  | cons c s =>
      rw [supplied, List.length_cons, suppliedBy, hnext]
      exact congrArg _ (suppliedBy_of_length_le z _ _ _ (Nat.le_of_lt_succ hlt))

/-! ### A line read back -/

/-- The signal level of a line read back: one byte of the number. -/
def signalByte (ssi : Int8) : Int8 := ((decimal ssi.toInt).headD 0).toInt8

/-- The byte is the level itself for one level, 53, the code of the digit its numeral begins with. -/
theorem signalByte_eq_iff (ssi : Int8) : signalByte ssi = ssi ↔ ssi = 53 := by
  have hall : ∀ ssi : Int8, signalByte ssi = ssi ↔ ssi = 53 := by decide +kernel
  exact hall ssi

theorem decimal_cons (n : Int) : ∃ c s, decimal n = c :: s ∧ 32 < c.toNat ∧ ∀ c' ∈ s, c'.toNat ≠ 10 := by
  have hdigit : ∀ c ∈ numeral 10 1 n.natAbs, 48 ≤ c.toNat := fun c hc => (decimal_range hc).1
  unfold decimal
  split_ifs
  · exact ⟨45, _, rfl, by decide, fun c hc => by have := hdigit c hc; omega⟩
  · cases htext : numeral 10 1 n.natAbs with
    | nil => exact absurd htext (numeral_ne_nil 10 _ (by decide))
    | cons c s =>
        rw [htext] at hdigit
        have hc := hdigit c List.mem_cons_self
        refine ⟨c, s, rfl, by omega, fun c' hc' => ?_⟩
        have := hdigit c' (List.mem_cons_of_mem _ hc')
        omega

def rereadRecord (z : Zone) (m : Mac) (t : UInt32) (data : LogData) : LogRecord :=
  ⟨m, time32 (parseDate z (timeT2string z t.toNat)), data.deviceId, signalByte data.ssiSignal⟩

/-- A field is followed by white space. -/
theorem tab_head {s : Bytes} {c : UInt8} (h : c ∈ (9 :: s).head?) : isSpace c = true ∧ isDigit 10 c = false := by
  obtain rfl := Option.some.inj h
  decide

/-- The line of an entry without its newline, as a stream of fields. -/
def logFields (z : Zone) (m : Mac) (t : UInt32) (data : LogData) : Bytes :=
  mactostr m ++ 9 :: (timeT2string z t.toNat ++
    9 :: (numeral 10 1 data.deviceId.toNat ++ 9 :: decimal data.ssiSignal.toInt))

theorem logLine_eq (z : Zone) (m : Mac) (t : UInt32) (data : LogData) :
    logLine z ⟨m, t, some data⟩ = logFields z m t data ++ [10] := by
  simp [logLine, logFields]

theorem logFields_ne_newline (z : Zone) (m : Mac) (t : UInt32) (data : LogData) :
    ∀ c ∈ logFields z m t data, c ≠ 10 := by
  obtain ⟨c, s, hsignal, hc, hs⟩ := decimal_cons data.ssiSignal.toInt
  rintro c' hmem rfl
  simp only [logFields, hsignal, List.mem_append, List.mem_cons] at hmem
  rcases hmem with h | h | h | h | h | h | h | h
  · exact absurd (mactostr_graph h) (by decide)
  · exact absurd h (by decide)
  · exact absurd (timeT2string_graph z _ h) (by decide)
  · exact absurd h (by decide)
  · exact absurd (decimal_range h).1 (by decide)
  · exact absurd h (by decide)
  · exact absurd hc (h ▸ by decide)
  · exact hs 10 h rfl

/-- A line is read field by field, and the signal level as one byte. -/
theorem parseLogLine_logFields (z : Zone) (retval : LogRecord) (m : Mac) (t : UInt32) (data : LogData) :
    parseLogLine z retval (logFields z m t data) = rereadRecord z m t data := by
  have htab : isSpace 9 = true := by decide
  have hmac : ∀ tail, IStream.word [] ⟨mactostr m ++ 9 :: tail, true⟩ = (mactostr m, ⟨9 :: tail, true⟩) :=
    fun tail => IStream.word_field (mactostr_ne_nil m)
      (fun c hc => isSpace_eq_false_of_lt (mactostr_graph hc)) (fun c hc => (tab_head hc).1) []
  have hdate : ∀ tail, IStream.word [] ⟨9 :: (timeT2string z t.toNat ++ 9 :: tail), true⟩ =
      (timeT2string z t.toNat, ⟨9 :: tail, true⟩) := by
    intro tail
    rw [IStream.word, IStream.extract_space _ _ htab]
    exact IStream.word_field (timeT2string_ne_nil z _)
      (fun c hc => isSpace_eq_false_of_lt (timeT2string_graph z _ hc)) (fun c hc => (tab_head hc).1) []
  have hdevice : ∀ tail, IStream.uint16 retval.deviceId
      ⟨9 :: (numeral 10 1 data.deviceId.toNat ++ 9 :: tail), true⟩ = (data.deviceId, ⟨9 :: tail, true⟩) := by
    intro tail
    rw [IStream.uint16, IStream.extract_space _ _ htab]
    exact IStream.uint16_field data.deviceId (fun c hc => (tab_head hc).2) retval.deviceId
  have hlevel : (IStream.int8 retval.ssiSignal ⟨9 :: decimal data.ssiSignal.toInt, true⟩).1 =
      signalByte data.ssiSignal := by
    obtain ⟨c, s, hsignal, hc, -⟩ := decimal_cons data.ssiSignal.toInt
    rw [IStream.int8, IStream.extract_space _ _ htab, signalByte, hsignal,
      IStream.extract_cons _ _ (isSpace_eq_false_of_lt hc)]
  simp only [parseLogLine, logFields, hmac, hdate, hdevice, hlevel, strtomacaddress_mactostr,
    cString_of_graph fun c => timeT2string_graph z t.toNat]
  rfl

theorem onPutLogEntry_logLine (z : Zone) (retval : LogRecord) (m : Mac) (t : UInt32) (data : LogData)
    (rest : Bytes) : onPutLogEntry z retval (logLine z ⟨m, t, some data⟩ ++ rest) =
      some (rereadRecord z m t data, rest) := by
  rw [logLine_eq, List.append_assoc, List.singleton_append, onPutLogEntry,
    getline_line (logFields_ne_newline z m t data), Option.map_some, parseLogLine_logFields]

end Wacs
