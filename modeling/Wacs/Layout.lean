import Mathlib.Data.List.GetD
import Wacs.OrderBytes

/-! The records of the store as bytes: LP64, little-endian. A key or a value is what the engine is
handed, all `mv_size` bytes of it, so a byte of a local structure that no assignment reaches is part
of it too. -/

namespace Wacs

open OrderBytes

abbrev Bytes := List UInt8

/-- The six bytes of a MAC address, under `memcmp`. -/
abbrev Mac := { bytes : Bytes // bytes.length = 6 }

def sizeofLogKey : Nat := 16
def sizeofLogData : Nat := 4
def sizeofLastProbeKey : Nat := 7
def sizeofLogEntry : Nat := 10
def sizeofTimeT : Nat := 8

def tagL : UInt8 := 0x4c
def tagP : UInt8 := 0x50
def tagT : UInt8 := 0x54

/-- `htobe32`, and `be32toh`, on a little-endian host: the four bytes in reverse order. -/
def htobe32 (x : UInt32) : UInt32 := UInt32.ofNat (leNat (leBytes 4 x.toNat).reverse)

def be32toh (x : UInt32) : UInt32 := htobe32 x

def ntohs (x : UInt16) : UInt16 := UInt16.ofNat (leNat (leBytes 2 x.toNat).reverse)

/-- The conversion of a `time_t` argument to the `uint32_t` parameter of `htobe32`. -/
def time32 (t : Int) : UInt32 := UInt32.ofNat (t % 2 ^ 32).toNat

/-- The conversion to `int`, and the result of an `int` operation where there is one. -/
def int32 (n : Int) : Int := (n + 2 ^ 31) % 2 ^ 32 - 2 ^ 31

theorem int32_eq_iff (n : Int) : int32 n = n ↔ -2 ^ 31 ≤ n ∧ n < 2 ^ 31 := by
  unfold int32
  omega

/-- A counter that goes up to `n` from zero stays an `int` exactly when `n` is one. -/
theorem int32_natCast_iff (n : Nat) : int32 n = n ↔ n < 2 ^ 31 := by
  rw [int32_eq_iff]
  omega

/-- `len` bytes of memory from offset `off` of a byte string; past its end, whatever lies there. -/
def peek (slack : Nat → UInt8) (b : Bytes) (off len : Nat) : Bytes :=
  (List.range len).map fun i => b.getD (off + i) (slack (off + i))

@[simp] theorem peek_length (slack : Nat → UInt8) (b : Bytes) (off len : Nat) :
    (peek slack b off len).length = len := by
  simp [peek]

/-- Inside the string, what lies past its end does not matter. -/
theorem peek_append (slack : Nat → UInt8) (a b c : Bytes) :
    peek slack (a ++ b ++ c) a.length b.length = b := by
  apply List.ext_getElem
  · simp
  · intro i _ h
    have hin : a.length + i < (a ++ b ++ c).length := by
      simp only [List.length_append]
      omega
    simp only [peek, List.getElem_map, List.getElem_range]
    rw [List.getD_eq_getElem _ _ hin, List.getElem_append_left (by simpa using h),
      List.getElem_append_right (by omega)]
    simp

/-! ### Structures of the source -/

structure LogEntry where
  deviceId : UInt16
  ssiSignal : Int16
  sa : Mac

/-- The packed `LogEntry` at the start of a buffer, as the host reads it. -/
def LogEntry.ofBytes (b : Bytes) : LogEntry where
  deviceId := UInt16.ofNat (leNat (peek (fun _ => 0) b 0 2))
  ssiSignal := (UInt16.ofNat (leNat (peek (fun _ => 0) b 2 2))).toInt16
  sa := ⟨peek (fun _ => 0) b 4 6, peek_length _ _ _ _⟩

def ntohLogEntry (e : LogEntry) : LogEntry :=
  { e with deviceId := ntohs e.deviceId, ssiSignal := (ntohs e.ssiSignal.toUInt16).toInt16 }

/-- The alignment byte is `pad`; `dt` holds a `time_t`. -/
structure LogKey where
  tag : UInt8
  sa : Mac
  pad : UInt8
  dt : UInt64

def LogKey.bytes (k : LogKey) : Bytes := k.tag :: k.sa.val ++ k.pad :: leBytes sizeofTimeT k.dt.toNat

structure LogData where
  deviceId : UInt16
  ssiSignal : Int8
  deriving DecidableEq

/-- The last byte of the structure is never assigned. -/
def LogData.bytes (d : LogData) (pad : UInt8) : Bytes :=
  leBytes 2 d.deviceId.toNat ++ [d.ssiSignal.toUInt8, pad]

def LogData.ofBytes (b : Bytes) : LogData where
  deviceId := UInt16.ofNat (leNat (peek (fun _ => 0) b 0 2))
  ssiSignal := (b.getD 2 0).toInt8

structure LastProbeKey where
  tag : UInt8
  sa : Mac

def LastProbeKey.bytes (k : LastProbeKey) : Bytes := k.tag :: k.sa.val

structure LogRecord where
  sa : Mac
  dt : UInt32
  deviceId : UInt16
  ssiSignal : Int8

/-- The bytes `putLog` and `putLogEntries` leave unassigned in their local key and data. -/
structure Padding where
  key : UInt8
  data : UInt8

/-- The nine bytes of memory after a local `LastProbeKey` that a 16-byte key takes in. -/
abbrev Stray := { bytes : Bytes // bytes.length = 9 }

/-- The field `sa` of the key under the cursor. -/
def keySa (slack : Nat → UInt8) (k : Bytes) : Mac := ⟨peek slack k 1 6, peek_length _ _ _ _⟩

/-- The field `dt` of the key under the cursor, read as a `LogKey`, through `be32toh`. -/
def keyDt (slack : Nat → UInt8) (k : Bytes) : UInt32 :=
  be32toh (UInt32.ofNat (leNat (peek slack k 8 sizeofTimeT)))

def keyTag (slack : Nat → UInt8) (k : Bytes) : UInt8 := k.getD 0 (slack 0)

/-- A `time_t` value under the cursor, through `be32toh`. -/
def valueTime (v : Bytes) : UInt32 :=
  be32toh (UInt32.ofNat (leNat (peek (fun _ => 0) v 0 sizeofTimeT)))

/-- The byte count the scans take a filter size for. -/
def clampSa (saSize : Int) : Nat :=
  if saSize ≥ 6 then 6 else if saSize ≤ 0 then 0 else saSize.toNat

/-- The arguments `sa` (which may be NULL) and `saSize`; the bytes the function is to look at are
there. -/
structure Filter where
  sa : Option Bytes
  saSize : Int
  readable : clampSa saSize ≤ (sa.getD []).length

namespace Filter

def sz (f : Filter) : Nat := clampSa f.saSize

/-- The filter bytes. -/
def bytes (f : Filter) : Bytes := (f.sa.getD []).take f.sz

/-- `memset(key.sa, 0, 6)`, then the filter bytes. -/
def padded (f : Filter) : Bytes := f.bytes ++ List.replicate (6 - f.sz) 0

theorem sz_le (f : Filter) : f.sz ≤ 6 := by
  unfold sz clampSa
  split_ifs <;> omega

@[simp] theorem bytes_length (f : Filter) : f.bytes.length = f.sz := by
  rw [bytes, List.length_take]
  exact Nat.min_eq_left f.readable

@[simp] theorem padded_length (f : Filter) : f.padded.length = 6 := by
  rw [padded, List.length_append, bytes_length, List.length_replicate]
  have := f.sz_le
  omega

end Filter

/-! ### A sample -/

/-- The message received: device 1, signal -50, from one address. -/
def sampleBuffer : Bytes := [0, 1, 0xff, 0xce, 2, 0, 0, 0, 0, 1]

def sampleMac : Mac := ⟨[2, 0, 0, 0, 0, 1], rfl⟩

def sampleMac' : Mac := ⟨[2, 0, 0, 0, 0, 2], rfl⟩

/-- A JSON object of eight bytes. -/
def sampleText : Bytes := [0x7b, 0x22, 0x61, 0x22, 0x3a, 0x31, 0x32, 0x7d]

/-! ### Byte-order lemmas -/

theorem leBytes_htobe32 (x : UInt32) : leBytes 4 (htobe32 x).toNat = (leBytes 4 x.toNat).reverse := by
  have hlt := leNat_lt (leBytes 4 x.toNat).reverse
  have hlen := leBytes_leNat (leBytes 4 x.toNat).reverse
  simp only [List.length_reverse, leBytes_length] at hlt hlen
  rw [htobe32, UInt32.toNat_ofNat', Nat.mod_eq_of_lt (by simpa using hlt), hlen]

@[simp] theorem be32toh_htobe32 (x : UInt32) : be32toh (htobe32 x) = x := by
  rw [be32toh, htobe32, leBytes_htobe32, List.reverse_reverse, leNat_leBytes]
  apply UInt32.toNat_inj.mp
  rw [UInt32.toNat_ofNat']
  have := x.toNat_lt
  omega

/-- A time as it is stored: four bytes, most significant first, and four zero bytes. -/
theorem leBytes_time (x : UInt32) :
    leBytes sizeofTimeT (htobe32 x).toNat = (leBytes 4 x.toNat).reverse ++ [0, 0, 0, 0] := by
  have hzero : (htobe32 x).toNat / 256 ^ 4 = 0 := by
    have := (htobe32 x).toNat_lt
    omega
  rw [show sizeofTimeT = 4 + 4 from rfl, leBytes_add, leBytes_htobe32, hzero]
  rfl

theorem ofNat_leNat_time (x : UInt32) :
    UInt32.ofNat (leNat (leBytes sizeofTimeT (htobe32 x).toNat)) = htobe32 x := by
  rw [leNat_leBytes]
  apply UInt32.toNat_inj.mp
  rw [UInt32.toNat_ofNat', sizeofTimeT]
  have := (htobe32 x).toNat_lt
  omega

theorem LogData.ofBytes_bytes (d : LogData) (pad : UInt8) : LogData.ofBytes (d.bytes pad) = d := by
  have hdev : peek (fun _ => 0) (d.bytes pad) 0 2 = leBytes 2 d.deviceId.toNat := by
    simpa [LogData.bytes] using
      peek_append (fun _ => 0) [] (leBytes 2 d.deviceId.toNat) [d.ssiSignal.toUInt8, pad]
  have hnat : UInt16.ofNat (leNat (leBytes 2 d.deviceId.toNat)) = d.deviceId := by
    rw [leNat_leBytes]
    apply UInt16.toNat_inj.mp
    rw [UInt16.toNat_ofNat']
    have := d.deviceId.toNat_lt
    omega
  rw [LogData.ofBytes, hdev, hnat]
  rfl

end Wacs
