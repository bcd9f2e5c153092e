import Wacs.StoreRecords

/-! The key of a log record as bytes, with its tag free: a 32-bit time most significant byte first at the
start of a 64-bit little-endian field, behind the address, so that keys sort by address and time. -/

namespace Wacs

open OrderBytes

/-- The bytes of the key `putLog` and `readLog` assemble, with another tag. -/
def taggedKey (pad tag : UInt8) (m : Mac) (t : UInt32) : Bytes := { logKey m pad t with tag := tag }.bytes

theorem taggedKey_eq (pad tag : UInt8) (m : Mac) (t : UInt32) :
    taggedKey pad tag m t = tag :: (m.val ++ pad :: leBytes sizeofTimeT (htobe32 t).toNat) := by
  simp [taggedKey, logKey, LogKey.bytes]

/-- Under tag `L` it is the key of a log record. -/
theorem taggedKey_tagL (pad : UInt8) (m : Mac) (t : UInt32) (data : LogData) (tail : UInt8) :
    taggedKey pad tagL m t = (Record.log m pad t data tail).key :=
  (taggedKey_eq pad tagL m t).trans rfl

theorem taggedKey_lt_iff (pad : UInt8) (m m' : Mac) (t t' : UInt32) :
    taggedKey pad tagL m t < taggedKey pad tagL m' t' ↔ toLex (m, t) < toLex (m', t') := by
  rw [taggedKey_tagL pad m t ⟨0, 0⟩ 0, taggedKey_tagL pad m' t' ⟨0, 0⟩ 0, log_key_lt_iff, Prod.Lex.toLex_lt_toLex]
  simp only [lt_irrefl, false_or, true_and]

theorem taggedKey_injective (pad : UInt8) :
    Function.Injective fun x : UInt8 × Mac × UInt32 => taggedKey pad x.1 x.2.1 x.2.2 := by
  rintro ⟨tag, m, t⟩ ⟨tag', m', t'⟩ h
  simp only [taggedKey_eq] at h
  obtain ⟨htag, htail⟩ := List.cons.inj h
  obtain ⟨hm, hrest⟩ := List.append_inj htail (m.property.trans m'.property.symm)
  rw [htag, Subtype.ext hm, timeBytes_inj (List.cons.inj hrest).2]

/-- A read past the first byte does not depend on it. -/
theorem peek_cons (slack : Nat → UInt8) (x : UInt8) (b : Bytes) (off len : Nat) :
    peek slack (x :: b) (off + 1) len = peek (fun i => slack (i + 1)) b off len := by
  unfold peek
  congr 1
  funext i
  rw [Nat.add_right_comm, List.getD_cons_succ]

theorem keyDt_taggedKey (slack : Nat → UInt8) (pad tag : UInt8) (m : Mac) (t : UInt32) :
    keyDt slack (taggedKey pad tag m t) = t := by
  calc keyDt slack (taggedKey pad tag m t)
      = keyDt slack (taggedKey pad tagL m t) := by simp only [keyDt, taggedKey_eq, peek_cons]
    _ = t := by rw [taggedKey_tagL pad m t ⟨0, 0⟩ 0, keyDt_log]

/-- A key of the store begins with a tag and filter bytes exactly when its tag and address do. -/
theorem cons_prefix_key_iff {tag : UInt8} {b : Bytes} (hb : b.length ≤ 6) (r : Record) :
    tag :: b <+: r.key ↔ tag = r.tag ∧ b <+: r.sa.val := by
  rw [Record.key, List.cons_prefix_cons]
  refine and_congr_right fun _ => ?_
  rw [List.prefix_iff_eq_take, List.prefix_iff_eq_take,
    List.take_append_of_le_length (by rw [r.sa.property]; exact hb)]

theorem cons_prefix_taggedKey {tag : UInt8} {b : Bytes} {m : Mac} (h : b <+: m.val) (pad : UInt8) (t : UInt32) :
    tag :: b <+: taggedKey pad tag m t := by
  rw [taggedKey_eq, List.cons_prefix_cons]
  exact ⟨rfl, h.trans (List.prefix_append _ _)⟩

/-- **Log keys sort by address, then time**; the keys of the addresses that begin with `b` stand in one
piece among the records of the store, from the short key `L`, `b` on. -/
theorem taggedKey_order (pad : UInt8) :
    (∀ (m m' : Mac) (t t' : UInt32),
      taggedKey pad tagL m t < taggedKey pad tagL m' t' ↔ toLex (m, t) < toLex (m', t')) ∧
    (Function.Injective fun x : UInt8 × Mac × UInt32 => taggedKey pad x.1 x.2.1 x.2.2) ∧
    (∀ (slack : Nat → UInt8) (tag : UInt8) (m : Mac) (t : UInt32), keyDt slack (taggedKey pad tag m t) = t) ∧
    ∀ (b : Bytes) (m : Mac) (t : UInt32), b <+: m.val →
      tagL :: b ≤ taggedKey pad tagL m t ∧
      ∀ (m' : Mac) (t' : UInt32), b <+: m'.val →
        ∀ r : Record, taggedKey pad tagL m t ≤ r.key → r.key ≤ taggedKey pad tagL m' t' →
          r.tag = tagL ∧ b <+: r.sa.val := by
  refine ⟨taggedKey_lt_iff pad, taggedKey_injective pad, fun slack => keyDt_taggedKey slack pad, ?_⟩
  intro b m t hb
  refine ⟨prefix_le (cons_prefix_taggedKey hb pad t), fun m' t' hb' r hlow hhigh => ?_⟩
  have hlen : b.length ≤ 6 := hb.length_le.trans m.property.le
  have hmem : tagL :: b <+: r.key :=
    (prefix_ordConnected (tagL :: b)).out (cons_prefix_taggedKey hb pad t) (cons_prefix_taggedKey hb' pad t')
      ⟨hlow, hhigh⟩
  obtain ⟨htag, hsa⟩ := (cons_prefix_key_iff hlen r).mp hmem
  exact ⟨htag.symm, hsa⟩

/-- The keys of one vendor at two times, and a record between them. -/
theorem taggedKey_order_sample :
    taggedKey 0 tagL sampleMac 7 < taggedKey 0 tagL sampleMac' 3 ∧
      [2, 0] <+: (Record.log sampleMac 0 9 ⟨1, 2⟩ 0).sa.val :=
  ⟨((taggedKey_order 0).1 sampleMac sampleMac' 7 3).mpr (by decide),
    (((taggedKey_order 0).2.2.2 [2, 0] sampleMac 7 (by decide)).2 sampleMac' 3 (by decide)
      (Record.log sampleMac 0 9 ⟨1, 2⟩ 0) (by decide) (by decide)).2⟩

end Wacs
