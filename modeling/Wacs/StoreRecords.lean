import Wacs.DblogScan

/-! The records the functions of `dblog.cpp` put into the store, and how their keys compare: by tag, by
MAC address, by what follows. -/

namespace Wacs

open OrderBytes

/-- A notification's text; an empty one is never stored. -/
abbrev Text := { bytes : Bytes // bytes.length ≠ 0 }

/-- A record as it is put. -/
inductive Record where
  | log (sa : Mac) (pad : UInt8) (dt : UInt32) (data : LogData) (tail : UInt8)
  | probe (sa : Mac) (dt : UInt32)
  | note (sa : Mac) (stray : Stray) (text : Text)

namespace Record

def tag : Record → UInt8
  | log .. => tagL
  | probe .. => tagP
  | note .. => tagT

def sa : Record → Mac
  | log sa .. => sa
  | probe sa _ => sa
  | note sa .. => sa

/-- The bytes of the key after the MAC address. -/
def rest : Record → Bytes
  | log _ pad dt _ _ => pad :: leBytes sizeofTimeT (htobe32 dt).toNat
  | probe .. => []
  | note _ stray _ => stray.val

def key (r : Record) : Bytes := r.tag :: (r.sa.val ++ r.rest)

def value : Record → Bytes
  | log _ _ _ data tail => data.bytes tail
  | probe _ dt => leBytes sizeofTimeT (htobe32 dt).toNat
  | note _ _ text => text.val

def entry (r : Record) : Bytes × Bytes := (r.key, r.value)

end Record

theorem logKey_bytes (sa : Mac) (pad : UInt8) (dt : UInt32) (data : LogData) (tail : UInt8) :
    (logKey sa pad dt).bytes = (Record.log sa pad dt data tail).key := by
  simp [logKey, LogKey.bytes, Record.key, Record.tag, Record.sa, Record.rest]

theorem probeKey_bytes (sa : Mac) (dt : UInt32) : (probeKey sa).bytes = (Record.probe sa dt).key := by
  simp [probeKey, LastProbeKey.bytes, Record.key, Record.tag, Record.sa, Record.rest]

theorem noteKey_eq (sa : Mac) (stray : Stray) (text : Text) :
    noteKey sa stray = (Record.note sa stray text).key := rfl

theorem probeValue_logKey (sa : Mac) (pad : UInt8) (dt : UInt32) :
    probeValue (logKey sa pad dt) = (Record.probe sa dt).value := by
  simp [probeValue, logKey, Record.value]

theorem tagL_lt_tagP : tagL < tagP := by decide

theorem tagP_lt_tagT : tagP < tagT := by decide

theorem tagP_ne_tagL : tagP ≠ tagL := tagL_lt_tagP.ne'

theorem tagT_ne_tagL : tagT ≠ tagL := (tagL_lt_tagP.trans tagP_lt_tagT).ne'

theorem tagT_ne_tagP : tagT ≠ tagP := tagP_lt_tagT.ne'

/-! ### Fields read back -/

@[simp] theorem keyTag_key (slack : Nat → UInt8) (r : Record) : keyTag slack r.key = r.tag := rfl

@[simp] theorem keySa_key (slack : Nat → UInt8) (r : Record) : keySa slack r.key = r.sa := by
  apply Subtype.ext
  have h := peek_append slack [r.tag] r.sa.val r.rest
  rwa [r.sa.property] at h

@[simp] theorem keyDt_log (slack : Nat → UInt8) (sa : Mac) (pad : UInt8) (dt : UInt32) (data : LogData)
    (tail : UInt8) : keyDt slack (Record.log sa pad dt data tail).key = dt := by
  have h := peek_append slack (tagL :: (sa.val ++ [pad])) (leBytes sizeofTimeT (htobe32 dt).toNat) []
  have hlen : (tagL :: (sa.val ++ [pad])).length = 8 := by simp [sa.property]
  rw [hlen, leBytes_length, List.append_nil] at h
  have hkey : (Record.log sa pad dt data tail).key =
      tagL :: (sa.val ++ [pad]) ++ leBytes sizeofTimeT (htobe32 dt).toNat := by
    simp [Record.key, Record.tag, Record.sa, Record.rest]
  rw [keyDt, hkey, h, ofNat_leNat_time, be32toh_htobe32]

@[simp] theorem valueTime_probe (sa : Mac) (dt : UInt32) : valueTime (Record.probe sa dt).value = dt := by
  have h := peek_append (fun _ => 0) [] (leBytes sizeofTimeT (htobe32 dt).toNat) []
  rw [List.nil_append, List.append_nil, List.length_nil, leBytes_length] at h
  rw [valueTime, Record.value, h, ofNat_leNat_time, be32toh_htobe32]

@[simp] theorem ofBytes_log (sa : Mac) (pad : UInt8) (dt : UInt32) (data : LogData) (tail : UInt8) :
    LogData.ofBytes (Record.log sa pad dt data tail).value = data :=
  LogData.ofBytes_bytes data tail

theorem log_value_length (sa : Mac) (pad : UInt8) (dt : UInt32) (data : LogData) (tail : UInt8) :
    (Record.log sa pad dt data tail).value.length = sizeofLogData := by
  simp [Record.value, LogData.bytes, sizeofLogData]

theorem log_key_length (sa : Mac) (pad : UInt8) (dt : UInt32) (data : LogData) (tail : UInt8) :
    (Record.log sa pad dt data tail).key.length = sizeofLogKey := by
  simp [Record.key, Record.sa, Record.rest, sa.property, sizeofTimeT, sizeofLogKey]

theorem key_length_ge (r : Record) : sizeofLastProbeKey ≤ r.key.length := by
  simp [Record.key, r.sa.property, sizeofLastProbeKey]

theorem probe_value_length (sa : Mac) (dt : UInt32) :
    (Record.probe sa dt).value.length = sizeofTimeT := by
  simp [Record.value]

/-! ### The order of keys -/

theorem key_lt_iff (r r' : Record) :
    r.key < r'.key ↔ r.tag < r'.tag ∨ r.tag = r'.tag ∧ (r.sa < r'.sa ∨ r.sa = r'.sa ∧ r.rest < r'.rest) := by
  have hlen : r.sa.val.length = r'.sa.val.length := r.sa.property.trans r'.sa.property.symm
  rw [Record.key, Record.key, List.cons_lt_cons_iff, append_lt_append_iff _ _ hlen, Subtype.ext_iff]
  rfl

theorem key_eq_iff (r r' : Record) :
    r.key = r'.key ↔ r.tag = r'.tag ∧ r.sa = r'.sa ∧ r.rest = r'.rest := by
  constructor
  · intro h
    obtain ⟨htag, htail⟩ := List.cons.inj h
    obtain ⟨hsa, hrest⟩ := List.append_inj htail (r.sa.property.trans r'.sa.property.symm)
    exact ⟨htag, Subtype.ext hsa, hrest⟩
  · rintro ⟨htag, hsa, hrest⟩
    rw [Record.key, Record.key, htag, hsa, hrest]

theorem tag_le_of_key_lt {r r' : Record} (h : r.key < r'.key) : r.tag ≤ r'.tag := by
  rcases (key_lt_iff r r').mp h with hlt | heq
  · exact hlt.le
  · exact heq.1.le

theorem sa_le_of_key_lt {r r' : Record} (h : r.key < r'.key) (htag : r.tag = r'.tag) : r.sa ≤ r'.sa := by
  rcases (key_lt_iff r r').mp h with hlt | ⟨-, hlt | ⟨heq, -⟩⟩
  · exact absurd htag hlt.ne
  · exact hlt.le
  · exact heq.le

/-- Times as they are stored compare as byte strings the way they compare as times. -/
theorem timeBytes_lt_iff (t t' : UInt32) :
    leBytes sizeofTimeT (htobe32 t).toNat < leBytes sizeofTimeT (htobe32 t').toNat ↔ t < t' := by
  rw [leBytes_time, leBytes_time, append_lt_append_iff _ _ (by simp),
    reverse_leBytes_lt_iff (n := 4) t.toNat_lt t'.toNat_lt, UInt32.lt_iff_toNat_lt]
  simp

theorem timeBytes_inj {t t' : UInt32}
    (h : leBytes sizeofTimeT (htobe32 t).toNat = leBytes sizeofTimeT (htobe32 t').toNat) : t = t' := by
  have h' := congrArg (fun b => be32toh (UInt32.ofNat (leNat b))) h
  simpa only [ofNat_leNat_time, be32toh_htobe32] using h'

section LogKeys

variable (m m' : Mac) (p p' : UInt8) (t t' : UInt32) (d d' : LogData) (e e' : UInt8)

/-- Log records sort by MAC address, alignment byte and time. -/
theorem log_key_lt_iff :
    (Record.log m p t d e).key < (Record.log m' p' t' d' e').key ↔
      m < m' ∨ m = m' ∧ (p < p' ∨ p = p' ∧ t < t') := by
  rw [key_lt_iff]
  simp only [Record.tag, Record.sa, Record.rest, lt_irrefl, false_or, true_and, List.cons_lt_cons_iff,
    timeBytes_lt_iff]

theorem log_key_eq_iff :
    (Record.log m p t d e).key = (Record.log m' p' t' d' e').key ↔ m = m' ∧ p = p' ∧ t = t' := by
  rw [key_eq_iff]
  simp only [Record.tag, Record.sa, Record.rest, true_and, List.cons.injEq]
  constructor
  · rintro ⟨hm, hp, ht⟩
    exact ⟨hm, hp, timeBytes_inj ht⟩
  · rintro ⟨hm, hp, ht⟩
    exact ⟨hm, hp, by rw [ht]⟩

end LogKeys

/-! ### Filters -/

theorem zeros_le (b : Bytes) : List.replicate b.length 0 ≤ b := by
  induction b with
  | nil => exact le_rfl
  | cons x b ih =>
      rcases eq_or_ne x 0 with rfl | hx
      · exact List.cons_le_cons 0 ih
      · refine (List.cons_lt_cons_iff.mpr (Or.inl ?_)).le
        exact UInt8.pos_iff_ne_zero.mpr hx

namespace Filter

variable (f : Filter)

/-- The address begins with the filter bytes. -/
def Matches (m : Mac) : Prop := m.val.take f.sz = f.bytes

instance : DecidablePred f.Matches := fun m => inferInstanceAs (Decidable (m.val.take f.sz = f.bytes))

/-- The address of a key that is sought: the filter bytes, then zeros. -/
def mac : Mac := ⟨f.padded, f.padded_length⟩

theorem sz_eq_zero (h : f.sa.isSome = false) : f.sz = 0 := by
  have hread := f.readable
  cases hsa : f.sa with
  | none =>
      rw [hsa] at hread
      exact Nat.le_zero.mp hread
  | some bytes => simp [hsa] at h

theorem bytes_eq_nil (h : f.sz = 0) : f.bytes = [] :=
  List.eq_nil_of_length_eq_zero (f.bytes_length.trans h)

theorem mac_matches : f.Matches f.mac := by
  change (f.bytes ++ _).take f.sz = f.bytes
  rw [List.take_append_of_le_length f.bytes_length.ge, List.take_of_length_le f.bytes_length.le]

theorem eq_mac_of_matches {m : Mac} (hsz : f.sz = 6) (h : f.Matches m) : m = f.mac := by
  apply Subtype.ext
  have hm : m.val = f.bytes := by
    rw [← h, List.take_of_length_le (by rw [m.property, hsz])]
  rw [hm]
  simp [mac, padded, hsz]

/-- The padded address is the least that matches. -/
theorem mac_le {m : Mac} (h : f.Matches m) : f.mac ≤ m := by
  have hlen : (m.val.drop f.sz).length = 6 - f.sz := by rw [List.length_drop, m.property]
  have hsplit : m.val = f.bytes ++ m.val.drop f.sz := by
    conv_lhs => rw [← List.take_append_drop f.sz m.val, h]
  have htail := zeros_le (m.val.drop f.sz)
  rw [hlen] at htail
  change f.bytes ++ List.replicate (6 - f.sz) 0 ≤ m.val
  rw [hsplit]
  rcases htail.lt_or_eq with hlt | heq
  · exact ((append_lt_append_iff _ _ rfl).mpr (Or.inr ⟨rfl, hlt⟩)).le
  · rw [heq]

/-- The filter bytes order an address at or after a matching one. -/
theorem bytes_le_take {m : Mac} (h : f.mac ≤ m) : f.bytes ≤ m.val.take f.sz := by
  have htake := take_le_take f.sz h
  rwa [f.mac_matches] at htake

/-- Past the matching addresses there are no more of them. -/
theorem not_matches_of_le {m m' : Mac} (hle : f.bytes ≤ m.val.take f.sz) (hm : ¬f.Matches m)
    (h : m ≤ m') : ¬f.Matches m' := by
  intro hm'
  have htake := take_le_take f.sz h
  rw [hm'] at htake
  exact hm (le_antisymm htake hle)

/-- The test of the scans on the address, whether or not it looks at the size. -/
theorem mismatch_iff (m : Mac) : f.sa.isSome ∧ m.val.take f.sz ≠ f.bytes ↔ ¬f.Matches m := by
  constructor
  · exact fun h => h.2
  · intro h
    refine ⟨?_, h⟩
    by_contra hsa
    have hsz := f.sz_eq_zero (by simpa using hsa)
    exact h (by rw [Matches, f.bytes_eq_nil hsz, hsz, List.take_zero])

theorem mismatch_iff' (m : Mac) :
    f.sa.isSome ∧ f.sz ≠ 0 ∧ m.val.take f.sz ≠ f.bytes ↔ ¬f.Matches m := by
  rw [← f.mismatch_iff m]
  constructor
  · exact fun h => ⟨h.1, h.2.2⟩
  · intro h
    refine ⟨h.1, fun hsz => h.2 ?_, h.2⟩
    rw [f.bytes_eq_nil hsz, hsz, List.take_zero]

end Filter

/-- A key is at or after a tag and filter bytes exactly when its own tag and first address bytes are. -/
theorem prefix_le_key_iff (tag : UInt8) (b : Bytes) (hb : b.length ≤ 6) (r : Record) :
    tag :: b ≤ r.key ↔ tag < r.tag ∨ tag = r.tag ∧ b ≤ r.sa.val.take b.length := by
  have htake : r.key.take (tag :: b).length = r.tag :: r.sa.val.take b.length := by
    rw [Record.key, List.length_cons, List.take_succ_cons,
      List.take_append_of_le_length (by rw [r.sa.property]; exact hb)]
  rw [le_iff_le_take, htake, ← not_lt, List.cons_lt_cons_iff]
  rcases lt_trichotomy tag r.tag with h | h | h
  · simp [h, h.not_gt, h.ne']
  · simp [h]
  · simp [h, h.not_gt, h.ne']

end Wacs
