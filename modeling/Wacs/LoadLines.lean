import Wacs.DumpLoad

/-! `wacsc log-read` line by line: what a line leaves unread the record of the line before supplies. -/

namespace Wacs

open OrderedCursor TextScan

/-- A line without its newline. -/
abbrev Line := { bytes : Bytes // ∀ c ∈ bytes, c ≠ 10 }

def textOf (lines : List Line) : Bytes := lines.flatMap fun line => line.val ++ [10]

/-- A line ends with a newline, or with the text when it is not empty. -/
def Ends (line : Line) (ending : Bytes) : Prop := ending = [10] ∨ ending = [] ∧ line.val ≠ []

/-! ### Fields -/

/-- The fields of a line as streams: after the address and the date, after the device, after the signal. -/
def afterDate (line : Bytes) : IStream := (IStream.word [] (IStream.word [] ⟨line, true⟩).2).2

def afterDevice (line : Bytes) : IStream := (IStream.uint16 0 (afterDate line)).2

def afterSignal (line : Bytes) : IStream := (IStream.int8 0 (afterDevice line)).2

def macField (line : Bytes) : Bytes := (IStream.word [] ⟨line, true⟩).1

def dateField (line : Bytes) : Bytes := (IStream.word [] (IStream.word [] ⟨line, true⟩).2).1

/-- A text that `parseDate` reads something of: a date, or a number. -/
def IsDate (v : Bytes) : Prop :=
  (strptime v).isSome = true ∨ ((takeSign (skipSpace v)).2.head?.any (TextNumeral.isDigit 10)) = true

/-- The line has an address of six bytes, a date, a device and a signal. -/
structure CarriesFields (line : Bytes) : Prop where
  mac : (strtomacaddress (macField line)).1 = 6
  date : IsDate (cString (dateField line))
  device : (afterDevice line).good = true
  signal : (afterSignal line).good = true

theorem parseLogLine_eq (z : Zone) (r : LogRecord) (line : Bytes) : parseLogLine z r line =
    ⟨(strtomacaddress (macField line)).2, time32 (parseDate z (cString (dateField line))),
      (IStream.uint16 r.deviceId (afterDate line)).1,
      (IStream.int8 r.ssiSignal (IStream.uint16 r.deviceId (afterDate line)).2).1⟩ := rfl

/-- A line gives one record, whatever the variable held, exactly when a signal is read from it. -/
theorem parseLogLine_same_iff (z : Zone) (line : Bytes) :
    (∀ r r', parseLogLine z r line = parseLogLine z r' line) ↔ (afterSignal line).good = true := by
  have hrest : ∀ d, (IStream.uint16 d (afterDate line)).2 = afterDevice line := fun d =>
    IStream.extract_rest _ d 0 (afterDate line)
  constructor
  · intro h
    by_contra hno
    have hkept : ∀ ssi, (IStream.int8 ssi (afterDevice line)).1 = ssi := by
      intro ssi
      apply IStream.int8_of_not_good
      rwa [show (IStream.int8 ssi (afterDevice line)).2 = afterSignal line from
        IStream.extract_rest _ ssi 0 (afterDevice line)]
    have hsignal := congrArg LogRecord.ssiSignal (h ⟨sampleMac, 0, 0, 0⟩ ⟨sampleMac, 0, 0, 1⟩)
    rw [parseLogLine_eq, parseLogLine_eq] at hsignal
    simp only [hrest, hkept] at hsignal
    exact absurd hsignal (by decide)
  · intro h r r'
    have hdevice : ∀ d, IStream.uint16 d (afterDate line) = IStream.uint16 0 (afterDate line) := fun d =>
      IStream.extract_of_good _ 0 d (afterDate line) (IStream.good_of_extract_good h)
    have hsignal : ∀ ssi, IStream.int8 ssi (afterDevice line) = IStream.int8 0 (afterDevice line) := fun ssi =>
      IStream.extract_of_good _ 0 ssi (afterDevice line) h
    rw [parseLogLine_eq, parseLogLine_eq, hdevice r.deviceId, hdevice r'.deviceId]
    exact congrArg (LogRecord.mk _ _ _) (congrArg Prod.fst ((hsignal r.ssiSignal).trans (hsignal r'.ssiSignal).symm))

/-! ### Lines one after the other -/

/-- The lines before leave a record, from which the rest goes on. -/
theorem supplied_textOf (z : Zone) (r : LogRecord) (before : List Line) :
    ∃ (records : List LogRecord) (r' : LogRecord),
      ∀ rest, supplied z r (textOf before ++ rest) = records ++ supplied z r' rest := by
  induction before generalizing r with
  | nil => exact ⟨[], r, fun rest => rfl⟩
  | cons line before ih =>
      obtain ⟨records, r', hrest⟩ := ih (parseLogLine z r line.val)
      refine ⟨parseLogLine z r line.val :: records, r', fun rest => ?_⟩
      have htext : textOf (line :: before) ++ rest = line.val ++ 10 :: (textOf before ++ rest) := by
        simp [textOf]
      rw [htext, supplied_of_getline (getline_line line.property _), hrest, List.cons_append]

/-- The last line supplies the last record. -/
theorem supplied_last (z : Zone) (r : LogRecord) {line : Line} {ending : Bytes} (h : Ends line ending) :
    supplied z r (line.val ++ ending) = [parseLogLine z r line.val] := by
  have hget : getline (line.val ++ ending) = some (line.val, []) := by
    rcases h with rfl | ⟨rfl, hne⟩
    · exact getline_line line.property []
    · rw [List.append_nil]
      exact getline_last line.property hne
  rw [supplied_of_getline hget]
  rfl

/-- Loading treats a line on its own: its record is a function of the line, whatever comes before and whatever the
record of `putLogEntries` holds at first, and a line without all its fields stores nothing and is not counted. -/
structure LoadedAlone (z : Zone) (line : Line) : Prop where
  own : ∀ (before before' : List Line) (r r' : LogRecord) (ending ending' : Bytes), Ends line ending →
    Ends line ending' → (supplied z r (textOf before ++ (line.val ++ ending))).getLast? =
      (supplied z r' (textOf before' ++ (line.val ++ ending'))).getLast?
  skipped : ¬CarriesFields line.val → ∀ (before : List Line) (r : LogRecord) (ending : Bytes) (pad : Padding)
    (s : Store), Ends line ending →
      quietly (putLogEntries (supplied z r (textOf before ++ (line.val ++ ending))) pad) s =
        quietly (putLogEntries (supplied z r (textOf before)) pad) s

/-- A line is loaded on its own exactly when it carries all four fields. -/
theorem loadedAlone_iff (z : Zone) (line : Line) : LoadedAlone z line ↔ CarriesFields line.val := by
  constructor
  · intro h
    by_contra hno
    -- every line is stored and counted
    have hsame := congrArg Prod.fst (h.skipped hno [] ⟨sampleMac, 0, 0, 0⟩ [10] ⟨0, 0⟩ .empty (Or.inl rfl))
    rw [putLogEntries_quiet, putLogEntries_quiet] at hsame
    have hends : Ends line [10] := Or.inl rfl
    have hone := supplied_last z ⟨sampleMac, 0, 0, 0⟩ hends
    rw [show textOf [] ++ (line.val ++ [10]) = line.val ++ [10] from rfl, hone] at hsame
    have hcount : (1 : Int) = 0 := hsame
    exact absurd hcount (by decide)
  · intro h
    refine ⟨fun before before' r r' ending ending' hends hends' => ?_, fun hno => absurd h hno⟩
    obtain ⟨records, r₁, hrest⟩ := supplied_textOf z r before
    obtain ⟨records', r₁', hrest'⟩ := supplied_textOf z r' before'
    rw [hrest, hrest', supplied_last z r₁ hends, supplied_last z r₁' hends', List.getLast?_concat,
      List.getLast?_concat, (parseLogLine_same_iff z line.val).mpr h.signal r₁ r₁']

/-- A blank line is stored as an observation with the device and the signal of the line before. -/
theorem blank_line_inherits : ¬∀ (z : Zone) (line : Line), LoadedAlone z line := by
  intro h
  have hlast := (h sampleZone ⟨[], fun c hc => absurd hc List.not_mem_nil⟩).own [] [] ⟨sampleMac, 0, 0, 0⟩
    ⟨sampleMac, 0, 1, 0⟩ [10] [10] (Or.inl rfl) (Or.inl rfl)
  have hdevice := congrArg (Option.map LogRecord.deviceId) hlast
  exact absurd hdevice (by decide)

end Wacs
