import Mathlib.Data.List.Basic

/-! # Streams of literals and runs

A stream of records: a length from 1 to 127 with as many bytes behind it, or the
negative of a length from 1 to 128 with one byte that is repeated as often. A
length of zero ends the stream, and what is behind it does not count.
-/

namespace Foundation

/-- A record of a stream. -/
inductive PackedRecord where
  | literal (bytes : List UInt8)
  | run (n : Nat) (c : UInt8)

namespace PackedRecord

/-- The lengths fit in a byte with a sign. -/
def Valid : PackedRecord → Prop
  | literal bytes => 0 < bytes.length ∧ bytes.length ≤ 127
  | run n _ => 0 < n ∧ n ≤ 128

/-- What a record stands for. -/
def expand : PackedRecord → List UInt8
  | literal bytes => bytes
  | run n c => List.replicate n c

/-- A record in the stream. -/
def pack : PackedRecord → List UInt8
  | literal bytes => UInt8.ofNat bytes.length :: bytes
  | run n c => [UInt8.ofNat (256 - n), c]

end PackedRecord

/-- Where a reader of the stream is: before a length, or before the bytes of a
record. -/
inductive PackedPhase where
  | length
  | literal (left : Nat)
  | run (n : Nat)

/-- The bytes that a stream stands for, if it ends. -/
def unpackFrom : PackedPhase → List UInt8 → Option (List UInt8)
  | _, [] => none
  | .length, c :: rest =>
      if c = 0 then some []
      else if c.toNat < 128 then unpackFrom (.literal c.toNat) rest
      else unpackFrom (.run (256 - c.toNat)) rest
  | .literal left, c :: rest =>
      (unpackFrom (if left ≤ 1 then .length else .literal (left - 1)) rest).map (c :: ·)
  | .run n, c :: rest => (unpackFrom .length rest).map (List.replicate n c ++ ·)

def unpack (stream : List UInt8) : Option (List UInt8) := unpackFrom .length stream

theorem unpackFrom_literal {bytes rest : List UInt8} (h : bytes ≠ []) :
    unpackFrom (.literal bytes.length) (bytes ++ rest) = (unpack rest).map (bytes ++ ·) := by
  induction bytes with
  | nil => contradiction
  | cons c bytes ih =>
      rw [List.cons_append, unpackFrom]
      cases bytes with
      | nil => rfl
      | cons d bytes =>
          rw [if_neg (by simp)]
          have hrest := ih (by simp)
          rw [List.length_cons, Nat.add_sub_cancel, hrest, Option.map_map]
          rfl

theorem toNat_ofNat_byte {n : Nat} (h : n < 256) : (UInt8.ofNat n).toNat = n :=
  UInt8.toNat_ofNat_of_lt' h

theorem ofNat_byte_ne_zero {n : Nat} (hpos : 0 < n) (h : n < 256) : UInt8.ofNat n ≠ 0 := by
  intro heq
  have hzero := toNat_ofNat_byte h
  rw [heq, UInt8.toNat_zero] at hzero
  omega

theorem unpack_pack {record : PackedRecord} {rest : List UInt8} (h : record.Valid) :
    unpack (record.pack ++ rest) = (unpack rest).map (record.expand ++ ·) := by
  cases record with
  | literal bytes =>
      have hvalid : 0 < bytes.length ∧ bytes.length ≤ 127 := h
      have hlength := toNat_ofNat_byte (show bytes.length < 256 by omega)
      have hzero := ofNat_byte_ne_zero hvalid.1 (by omega)
      unfold unpack PackedRecord.pack
      rw [List.cons_append, unpackFrom, if_neg hzero, hlength, if_pos (by omega)]
      exact unpackFrom_literal (List.ne_nil_of_length_pos hvalid.1)
  | run n c =>
      have hvalid : 0 < n ∧ n ≤ 128 := h
      have hlength := toNat_ofNat_byte (show 256 - n < 256 by omega)
      have hzero := ofNat_byte_ne_zero (show 0 < 256 - n by omega) (by omega)
      have hback : 256 - (256 - n) = n := by omega
      unfold unpack PackedRecord.pack
      rw [List.cons_append, unpackFrom, if_neg hzero, hlength, if_neg (by omega), hback]
      rfl

/-- A stream stands for what its records stand for. -/
theorem unpack_records {records : List PackedRecord} (padding : List UInt8)
    (h : ∀ record ∈ records, record.Valid) :
    unpack (records.flatMap PackedRecord.pack ++ 0 :: padding) =
      some (records.flatMap PackedRecord.expand) := by
  induction records with
  | nil => rfl
  | cons record records ih =>
      rw [List.flatMap_cons, List.append_assoc, unpack_pack (h record List.mem_cons_self),
        ih fun r hr => h r (List.mem_cons_of_mem record hr)]
      rfl

end Foundation
