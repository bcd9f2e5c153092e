import Wacs.Histogram
import Wacs.TextJson

/-! The answers of the HTTP server as JSON: what is written piece by piece, with the last comma overwritten at the
end, reads back as the array of the pieces. -/

namespace Wacs

open OrderedCursor OrderedPages TextNumeral TextJson HistogramMacsPerTime

/-! ### Pieces -/

def nameSa : Bytes := [115, 97]

def nameDt : Bytes := [100, 116]

def nameDeviceId : Bytes := [100, 101, 118, 105, 99, 101, 95, 105, 100]

def nameSsiSignal : Bytes := [115, 115, 105, 95, 115, 105, 103, 110, 97, 108]

/-- The object of an entry. -/
def itemJson (item : LogItem) : Json :=
  .obj ([(nameSa, .str (mactostr item.sa)), (nameDt, .num item.dt.toNat)] ++
    match item.data with
    | some data => [(nameDeviceId, .num data.deviceId.toNat), (nameSsiSignal, .num data.ssiSignal.toInt)]
    | none => [])

/-- The entry an object stands for. -/
def itemOfJson : Json → Option LogItem
  | .obj [(k₁, .str sa), (k₂, .num dt)] =>
      if k₁ = nameSa ∧ k₂ = nameDt then some ⟨(strtomacaddress sa).2, UInt32.ofNat dt.toNat, none⟩ else none
  | .obj [(k₁, .str sa), (k₂, .num dt), (k₃, .num deviceId), (k₄, .num ssiSignal)] =>
      if k₁ = nameSa ∧ k₂ = nameDt ∧ k₃ = nameDeviceId ∧ k₄ = nameSsiSignal then
        some ⟨(strtomacaddress sa).2, UInt32.ofNat dt.toNat,
          some ⟨UInt16.ofNat deviceId.toNat, Int8.ofInt ssiSignal⟩⟩
      else none
  | _ => none

/-- The object of a bucket. -/
def bucketJson (b : Int × Nat) : Json := .obj [([116], .num b.1), ([99], .num b.2)]

theorem itemOfJson_itemJson (item : LogItem) : itemOfJson (itemJson item) = some item := by
  obtain ⟨sa, dt, data⟩ := item
  cases data with
  | none => simp [itemJson, itemOfJson, strtomacaddress_mactostr]
  | some data => simp [itemJson, itemOfJson, strtomacaddress_mactostr]

theorem reads_decimal (n : Int) : Reads 1 (decimal n) (.num n) := by
  unfold decimal
  split_ifs with hneg
  · have hread := reads_neg_numeral n.natAbs
    rwa [show -(n.natAbs : Int) = n by omega] at hread
  · have hread := reads_numeral n.natAbs
    rwa [show (n.natAbs : Int) = n by omega] at hread

theorem isPlain_of_isDigit {c : UInt8} (h : isDigit 16 c = true) : isPlain c = true := by
  have hall : ∀ c : UInt8, isDigit 16 c = true → isPlain c = true := by decide +kernel
  exact hall c h

theorem mactostr_plain (m : Mac) : ∀ c ∈ mactostr m, isPlain c = true := by
  have hbytes : ∀ (ps : Bytes), ∀ c ∈ macText ps, isPlain c = true := by
    intro ps
    induction ps with
    | nil => exact fun c hc => absurd hc List.not_mem_nil
    | cons p ps ih =>
        have hdigit : ∀ c ∈ numeral 16 2 p.toNat, isPlain c = true := fun c hc =>
          isPlain_of_isDigit (isDigit_of_mem_numeral le_rfl (by decide) hc)
        cases ps with
        | nil => rwa [macText_singleton]
        | cons q ps =>
            intro c hc
            rw [macText_cons, List.mem_append, List.mem_cons] at hc
            rcases hc with hc | rfl | hc
            · exact hdigit c hc
            · rfl
            · exact ih c hc
  exact hbytes m.val

/-- `reqLogText` without the comma after it. -/
def itemText (item : LogItem) : Bytes :=
  [123, 34, 115, 97, 34, 58, 34] ++ mactostr item.sa ++ [34, 44, 34, 100, 116, 34, 58] ++ numeral 10 1 item.dt.toNat ++
    (match item.data with
      | some data => [44, 34, 100, 101, 118, 105, 99, 101, 95, 105, 100, 34, 58] ++ numeral 10 1 data.deviceId.toNat ++
          [44, 34, 115, 115, 105, 95, 115, 105, 103, 110, 97, 108, 34, 58] ++ decimal data.ssiSignal.toInt
      | none => []) ++ [125]

theorem reqLogText_eq (item : LogItem) : reqLogText item = itemText item ++ [44] := by
  rw [reqLogText, itemText, List.append_assoc _ [125] [44]]
  rfl

/-- A name of the answers is printable. -/
theorem plain_of_all {k : Bytes} (h : k.all isPlain = true) : ∀ c ∈ k, isPlain c = true := List.all_eq_true.mp h

theorem reads_itemText (item : LogItem) : Reads 6 (itemText item) (itemJson item) := by
  obtain ⟨sa, dt, data⟩ := item
  have hsa := reads_str (mactostr_plain sa)
  have hdt := reads_numeral dt.toNat
  cases data with
  | none =>
      have htext : itemText ⟨sa, dt, none⟩ = 123 :: (34 :: nameSa ++ [34, 58] ++ (34 :: mactostr sa ++ [34]) ++
          44 :: (34 :: nameDt ++ [34, 58] ++ numeral 10 1 dt.toNat ++ [125])) := by
        simp [itemText, nameSa, nameDt]
      have hlast := readsMembers_last (k := nameDt) (plain_of_all rfl) hdt
      have hobj := reads_obj (readsMembers_cons (k := nameSa) (plain_of_all rfl) (hsa.mono (by decide)) hlast)
      rw [htext]
      exact hobj.mono (by decide)
  | some data =>
      have htext : itemText ⟨sa, dt, some data⟩ =
          123 :: (34 :: nameSa ++ [34, 58] ++ (34 :: mactostr sa ++ [34]) ++
            44 :: (34 :: nameDt ++ [34, 58] ++ numeral 10 1 dt.toNat ++
              44 :: (34 :: nameDeviceId ++ [34, 58] ++ numeral 10 1 data.deviceId.toNat ++
                44 :: (34 :: nameSsiSignal ++ [34, 58] ++ decimal data.ssiSignal.toInt ++ [125])))) := by
        simp [itemText, nameSa, nameDt, nameDeviceId, nameSsiSignal]
      have hlast := readsMembers_last (k := nameSsiSignal) (plain_of_all rfl) (reads_decimal data.ssiSignal.toInt)
      have hdevice := readsMembers_cons (k := nameDeviceId) (plain_of_all rfl)
        ((reads_numeral data.deviceId.toNat).mono (by decide)) hlast
      have hmembers := readsMembers_cons (k := nameDt) (plain_of_all rfl) (hdt.mono (by decide)) hdevice
      rw [htext]
      exact reads_obj (readsMembers_cons (k := nameSa) (plain_of_all rfl) (hsa.mono (by decide)) hmembers)

/-- `bucketText` without the comma after it. -/
def bucketObject (b : Int × Nat) : Bytes :=
  [123, 34, 116, 34, 58] ++ decimal b.1 ++ [44, 32, 34, 99, 34, 58] ++ decimal b.2 ++ [125]

theorem bucketText_eq (b : Int × Nat) : bucketText b = bucketObject b ++ [44] := by
  rw [bucketText, bucketObject, List.append_assoc _ [125] [44]]
  rfl

theorem reads_bucketObject (b : Int × Nat) : Reads 4 (bucketObject b) (bucketJson b) := by
  have htext : bucketObject b = 123 :: (34 :: [116] ++ [34, 58] ++ decimal b.1 ++
      44 :: 32 :: (34 :: [99] ++ [34, 58] ++ decimal b.2 ++ [125])) := by
    simp [bucketObject]
  have hlast := readsMembers_last (k := [99]) (plain_of_all rfl) (reads_decimal b.2)
  rw [htext]
  exact reads_obj (readsMembers_cons (k := [116]) (plain_of_all rfl) ((reads_decimal b.1).mono (by decide))
    (readsMembers_blank hlast))

/-! ### Whole answers -/

/-- Pieces that each have a comma after them are answered as the array of their values. -/
theorem parse_response {α : Type} {c : Nat} {f : α → Bytes} {g : α → Json} (h : ∀ a, Reads c (f a) (g a))
    (hlen : ∀ a, c ≤ (f a).length) (as : List α) :
    parse (Http.response (as.flatMap fun a => f a ++ [44])) = some (.arr (as.map g)) := by
  cases as with
  | nil => rfl
  | cons a as =>
      obtain ⟨body, htext, hlist⟩ := flatMap_comma f a as
      rw [htext, response_comma, List.append_assoc, hlist]
      exact parse_listText h hlen a as

theorem parse_items (items : List LogItem) :
    parse (Http.response (items.flatMap reqLogText)) = some (.arr (items.map itemJson)) := by
  have htext : reqLogText = fun item => itemText item ++ [44] := funext reqLogText_eq
  rw [htext]
  apply parse_response reads_itemText
  intro item
  simp only [itemText, List.length_append, List.length_cons]
  omega

theorem decimal_ne_nil (n : Int) : decimal n ≠ [] := by
  obtain ⟨c, s, htext, -⟩ := decimal_cons n
  rw [htext]
  exact List.cons_ne_nil c s

theorem parse_sums (sums : List Int) :
    parse (Http.response (sums.flatMap fun n => decimal n ++ [44])) = some (.arr (sums.map .num)) :=
  parse_response reads_decimal (fun n => List.length_pos_iff.mpr (decimal_ne_nil n)) sums

theorem parse_toJSON (h : HistogramMacsPerTime) : parse h.toJSON = some (.arr (h.buckets.map bucketJson)) := by
  have htext : bucketText = fun b => bucketObject b ++ [44] := funext bucketText_eq
  rw [toJSON, htext]
  apply parse_response reads_bucketObject
  intro b
  simp only [bucketObject, List.length_append, List.length_cons]
  omega

/-- Buckets that all begin less than `2 ^ 31` seconds after the start are answered as they are. -/
theorem parse_histogram {start finish astep : Int} {puts : List (UInt32 × Mac)} (h : finish - start < 2 ^ 31) :
    parse ((make start finish astep).putAll puts).toJSON =
      some (.arr (((make start finish astep).putAll puts).histogram.entries.map fun it =>
        bucketJson (start + it.1 * stepOf astep, it.2))) := by
  have hfits : Fits start finish astep puts := by
    intro p _ hlo hhi
    have hle := Int.ediv_mul_le ((p.1.toNat : Int) - start) (stepOf_pos astep).ne'
    omega
  rw [parse_toJSON, buckets_of_fits hfits, List.map_map]
  rfl

/-! ### What the listings answer -/

/-- What is printed of a count. -/
def sumText (n : Int) : Bytes := decimal n ++ [44]

/-- The sums after each count, but for those of zero. -/
def printedSums : Int → List Nat → List Int
  | _, [] => []
  | sum, n :: counts => (if sum + n ≠ 0 then [sum + n] else []) ++ printedSums (sum + n) counts

theorem printedSums_bounds {before sum : Int} {counts : List Nat} (h : sum ∈ printedSums before counts) :
    before ≤ sum ∧ sum ≤ before + counts.sum := by
  induction counts generalizing before with
  | nil => cases h
  | cons n counts ih =>
      rw [List.sum_cons]
      rw [printedSums, List.mem_append] at h
      rcases h with hsum | hlater
      · split_ifs at hsum
        · rw [List.mem_singleton.mp hsum]
          omega
        · cases hsum
      · have hbounds := ih hlater
        omega

section Listings

variable (scan : Listed) (start finish : Int) (s : Store)

/-- The entries of a listing that the callback writes out. -/
def emitted (env : HttpReqEnv) (sa : List (Filter × Memory)) : List LogItem :=
  ((Pager.start env.offset (some env.count)).pass (sa.map (unpaged scan start finish s))).out

/-- The number of records each filter comes to. -/
def counts (sa : List (Filter × Memory)) : List Nat := sa.map fun x => (unpaged scan start finish s x).length

theorem counts_cons (x : Filter × Memory) (sa : List (Filter × Memory)) :
    counts scan start finish s (x :: sa) =
      (unpaged scan start finish s x).length :: counts scan start finish s sa := rfl

theorem lsFrom_items (configCount offset count : Int) (sa : List (Filter × Memory)) :
    (Http.lsFrom scan start finish onReqLog s (Http.reqEnv configCount offset count) sa).retval =
      (emitted scan start finish s (Http.reqEnv configCount offset count) sa).flatMap reqLogText := by
  have hstart : HttpShows (Http.reqEnv configCount offset count)
      (Pager.start (Http.reqEnv configCount offset count).offset
        (some (Http.reqEnv configCount offset count).count)) := ⟨rfl, rfl, rfl, rfl, rfl⟩
  exact (lsFrom_shows scan start finish s hstart sa).2.2.2.2

/-- Each record adds one to the sum, and nothing else happens. -/
theorem deliver_onReqLogCount (env : HttpReqEnv) (items : List LogItem) :
    deliver onReqLogCount env items = { env with sum := env.sum + items.length } := by
  induction items generalizing env with
  | nil => simp [deliver]
  | cons item items ih =>
      show deliver onReqLogCount { env with sum := env.sum + 1 } items = _
      rw [ih, List.length_cons, Nat.cast_succ, add_assoc, add_comm 1]

/-- The sum goes on from filter to filter. -/
theorem lsFrom_sums (env : HttpReqEnv) (sa : List (Filter × Memory)) :
    (Http.lsFrom scan start finish onReqLogCount s env sa).retval =
      env.retval ++ (printedSums env.sum (counts scan start finish s sa)).flatMap sumText := by
  induction sa generalizing env with
  | nil => exact (List.append_nil _).symm
  | cons x sa ih =>
      rw [Http.lsFrom, ih, Http.lsFilter, listOnce_env, deliver_onReqLogCount, counts_cons, printedSums]
      by_cases hsum : env.sum + ((unpaged scan start finish s x).length : Int) = 0
      · rw [if_neg (not_not_intro hsum), if_neg (not_not_intro hsum), List.nil_append]
      · rw [if_pos hsum, if_pos hsum, List.singleton_append, List.flatMap_cons, ← List.append_assoc, sumText,
          ← List.append_assoc]

end Listings

/-- An answer is the array of these values. -/
def Decodes (body : Bytes) (js : List Json) : Prop := parse body = some (.arr js)

/-- The answers of a listing are written from the entries and the sums it emits, and the sums are `int`s as long as the
filters together come to so few entries. -/
structure WritesEmitted (configCount start finish offset count : Int) (s : Store) (sa : List (Filter × Memory)) :
    Prop where
  log : Http.lsLog configCount start finish offset count onReqLog s sa =
    Http.response ((emitted .log start finish s (Http.reqEnv configCount offset count) sa).flatMap reqLogText)
  lastProbe : Http.lsLastProbe configCount start finish offset count onReqLog s sa =
    Http.response ((emitted .lastProbe start finish s (Http.reqEnv configCount offset count) sa).flatMap reqLogText)
  logCount : Http.lsLog configCount start finish offset count onReqLogCount s sa =
    Http.response ((printedSums 0 (counts .log start finish s sa)).flatMap sumText)
  lastProbeCount : Http.lsLastProbe configCount start finish offset count onReqLogCount s sa =
    Http.response ((printedSums 0 (counts .lastProbe start finish s sa)).flatMap sumText)
  sums : ∀ scan, (counts scan start finish s sa).sum < 2 ^ 31 →
    ∀ sum ∈ printedSums 0 (counts scan start finish s sa), int32 sum = sum

theorem writesEmitted (configCount start finish offset count : Int) (s : Store) (sa : List (Filter × Memory)) :
    WritesEmitted configCount start finish offset count s sa where
  log := by rw [Http.lsLog, lsFrom_items]
  lastProbe := by rw [Http.lsLastProbe, lsFrom_items]
  logCount := by
    rw [Http.lsLog, lsFrom_sums]
    rfl
  lastProbeCount := by
    rw [Http.lsLastProbe, lsFrom_sums]
    rfl
  sums := by
    intro scan hlt sum hsum
    have hbounds := printedSums_bounds hsum
    rw [int32_eq_iff]
    omega

/-- The listings answer what they emit, and an answer is the array of what is written into it: an entry can be
read back from its object, a sum is its number, and a bucket has its time and its count. -/
theorem answers_decode :
    (∀ (configCount start finish offset count : Int) (s : Store) (sa : List (Filter × Memory)),
      WritesEmitted configCount start finish offset count s sa) ∧
    (∀ items : List LogItem, Decodes (Http.response (items.flatMap reqLogText)) (items.map itemJson) ∧
      ∀ item ∈ items, itemOfJson (itemJson item) = some item) ∧
    (∀ sums : List Int, Decodes (Http.response (sums.flatMap sumText)) (sums.map .num)) ∧
    ∀ (start finish astep : Int) (puts : List (UInt32 × Mac)), finish - start < 2 ^ 31 →
      Decodes ((make start finish astep).putAll puts).toJSON
        (((make start finish astep).putAll puts).histogram.entries.map fun it =>
          bucketJson (start + it.1 * stepOf astep, it.2)) := by
  refine ⟨writesEmitted, fun items => ⟨parse_items items, fun item _ => itemOfJson_itemJson item⟩, parse_sums, ?_⟩
  intro start finish astep puts h
  exact parse_histogram h

/-- A histogram of ten seconds in steps of five, with one time in its second bucket. -/
theorem answers_decode_sample : Decodes ((make 0 10 5).putAll [(7, sampleMac)]).toJSON [bucketJson (5, 1)] :=
  answers_decode.2.2.2 0 10 5 [(7, sampleMac)] (by decide)

end Wacs
