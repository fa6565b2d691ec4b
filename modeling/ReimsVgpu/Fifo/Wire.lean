import ReimsVgpu.Fifo.Thread

/-!
# A command's payload and the records in it

A field is read at its offset, and one past the payload's end reads zeros. Records are handed on as the
bytes they start in and their count, and each is read out where it stands.

## Main definitions

* `Payload`, `Payload.u8`, `Payload.u16`, `Payload.u32`, `Payload.u64`, `Payload.tail`.
* `Record`, `Records`, `Payload.records`.
* `Handed`: records that are a payload's bytes.

## Main results

* `handed_records`: what a size check covers is handed on whole.
-/

open ReimsVgpu.Memory (le32)

namespace ReimsVgpu.Fifo

/-! ### Payloads -/

/-- The little-endian double word at `pos` of a run of bytes. -/
def le64 (bytes : ℕ → UInt8) (pos : ℕ) : UInt64 :=
  (le32 bytes pos).toUInt64 ||| (le32 bytes (pos + 4)).toUInt64 <<< 32

/-- A command's payload. No slice is longer than the largest signed size. -/
structure Payload where
  bytes : List UInt8
  fits : bytes.length < 2 ^ 63

namespace Payload

/-- The payload's size. -/
def len (p : Payload) : UInt64 := .ofNat p.bytes.length

/-- The payload from an offset on. -/
def tail (p : Payload) (off : ℕ) : Payload where
  bytes := p.bytes.drop off
  fits := by
    rw [List.length_drop]
    exact (Nat.sub_le _ _).trans_lt p.fits

/-- Bytes at an offset, or zeros where they pass the end. -/
def at' (p : Payload) (off n : ℕ) : List UInt8 :=
  if off + n ≤ p.bytes.length then (p.bytes.drop off).take n else List.replicate n 0

def u8 (p : Payload) (off : ℕ) : UInt8 := p.bytes.getD off 0

def u16 (p : Payload) (off : ℕ) : UInt16 := le16 (fun i => (p.at' off 2).getD i 0) 0

def u32 (p : Payload) (off : ℕ) : UInt32 := le32 (fun i => (p.at' off 4).getD i 0) 0

def u64 (p : Payload) (off : ℕ) : UInt64 := le64 (fun i => (p.at' off 8).getD i 0) 0

@[simp]
theorem toNat_len (p : Payload) : p.len.toNat = p.bytes.length :=
  UInt64.toNat_ofNat_of_lt' (p.fits.trans (by decide))

end Payload

/-! ### Records -/

/-- A record type of the wire: its size, and the record of that many bytes. -/
class Record (T : Type) where
  size : ℕ
  size_lt : size < 2 ^ 32
  read : List UInt8 → T

/-- `count` records in the bytes of a payload. -/
structure Records (T : Type) where
  bytes : List UInt8
  count : UInt32

namespace Records

variable {T : Type} [Record T]

/-- One record's size. -/
def stride (T : Type) [Record T] : UInt64 := .ofNat (Record.size T)

/-- The records at the start of the bytes, which hold them all. -/
def new (bytes : List UInt8) (count : UInt32) : Option (Records T) :=
  if .ofNat bytes.length < count.toUInt64 * stride T then none else some ⟨bytes, count⟩

def empty : Records T := ⟨[], 0⟩

/-- The record at an index. -/
def get (r : Records T) (index : UInt32) : Option T :=
  if r.count ≤ index then none
  else
    let at' := (index.toUInt64 * stride T).toNat
    if r.bytes.length < at' then none
    else
      let rest := r.bytes.drop at'
      if rest.length < Record.size T then none else some (Record.read (rest.take (Record.size T)))

/-- Every record, in index order. -/
def toVec (r : Records T) : List T :=
  (List.range r.count.toNat).filterMap fun i => r.get (.ofNat i)

/-- The bytes that the records take. -/
def asBytes (r : Records T) : List UInt8 :=
  let n := (r.count.toUInt64 * stride T).toNat
  if n ≤ r.bytes.length then r.bytes.take n else r.bytes

end Records

/-- `count` records from an offset on. -/
def Payload.records {T : Type} [Record T] (p : Payload) (off : ℕ) (count : UInt32) : Records T :=
  (Records.new (p.tail off).bytes count).getD .empty

/-- The records are `count` of those that the payload has from the offset on, each at its own. -/
structure Handed {T : Type} [Record T] (p : Payload) (r : Records T) (off : ℕ) (count : UInt32) :
    Prop where
  count_eq : r.count = count
  inside : off + count.toNat * Record.size T ≤ p.bytes.length
  get : ∀ index : UInt32, r.get index =
    if index < count then
      some (Record.read ((p.bytes.drop (off + index.toNat * Record.size T)).take (Record.size T)))
    else none
  toVec : r.toVec = (List.range count.toNat).map fun i =>
    Record.read ((p.bytes.drop (off + i * Record.size T)).take (Record.size T))
  asBytes : r.asBytes = (p.bytes.drop off).take (count.toNat * Record.size T)

section

variable {T : Type} [Record T]

theorem toNat_mul_stride (n : UInt32) :
    (n.toUInt64 * Records.stride T).toNat = n.toNat * Record.size T := by
  have hsize := Record.size_lt (T := T)
  have hn := n.toNat_lt
  have hstride : (Records.stride T).toNat = Record.size T :=
    UInt64.toNat_ofNat_of_lt' (hsize.trans (by decide))
  rw [UInt64.toNat_mul, UInt32.toNat_toUInt64, hstride]
  exact Nat.mod_eq_of_lt ((Nat.mul_lt_mul'' hn hsize).trans_eq (by decide))

/-- Records that the payload has room for from the offset on are handed on whole. -/
theorem handed_records {p : Payload} {off : ℕ} {count : UInt32}
    (h : off + count.toNat * Record.size T ≤ p.bytes.length) :
    Handed p (p.records off count : Records T) off count := by
  have hlength : (p.bytes.drop off).length = p.bytes.length - off := List.length_drop
  have hnew : (p.records off count : Records T) = ⟨p.bytes.drop off, count⟩ := by
    have hroom : ¬ UInt64.ofNat (p.bytes.drop off).length < count.toUInt64 * Records.stride T := by
      rw [UInt64.lt_iff_toNat_lt, toNat_mul_stride, UInt64.toNat_ofNat_of_lt', hlength]
      · omega
      · exact (p.tail off).fits.trans (by decide)
    rw [Payload.records, Records.new, Payload.tail, if_neg hroom]
    rfl
  have hget (index : UInt32) : (⟨p.bytes.drop off, count⟩ : Records T).get index =
      if index < count then
        some (Record.read ((p.bytes.drop (off + index.toNat * Record.size T)).take (Record.size T)))
      else none := by
    rw [Records.get]
    by_cases hindex : index < count
    · have hlt := UInt32.lt_iff_toNat_lt.mp hindex
      have hnext : (index.toNat + 1) * Record.size T ≤ count.toNat * Record.size T :=
        Nat.mul_le_mul_right _ hlt
      rw [Nat.succ_mul] at hnext
      rw [if_neg (UInt32.not_le.mpr hindex), if_pos hindex, toNat_mul_stride]
      dsimp only
      rw [if_neg (by omega), if_neg (by rw [List.length_drop]; omega), List.drop_drop]
    · rw [if_pos (UInt32.not_lt.mp hindex), if_neg hindex]
  rw [hnew]
  refine ⟨rfl, h, hget, ?_, ?_⟩
  · rw [Records.toVec, ← List.filterMap_eq_map]
    refine List.filterMap_congr fun i hi => ?_
    have hlt : i < count.toNat := List.mem_range.mp hi
    have hof : (UInt32.ofNat i).toNat = i :=
      UInt32.toNat_ofNat_of_lt' (hlt.trans count.toNat_lt)
    rw [hget, if_pos (UInt32.lt_iff_toNat_lt.mpr (by rwa [hof])), hof]
    rfl
  · rw [Records.asBytes, toNat_mul_stride]
    dsimp only
    rw [if_pos (by omega)]

end

/-! ### The records of the commands -/

instance : Record UInt32 where
  size := 4
  size_lt := by decide
  read bytes := le32 (fun i => bytes.getD i 0) 0

/-- `APVCmdExecIndirectResource`. -/
structure CmdExecIndirectResource where
  reference : UInt32
  invalidateHost : UInt8
  invalidateGuest : UInt8
  synchronize : UInt8
  field7 : UInt8
  field8 : UInt64
  field10 : UInt64

instance : Record CmdExecIndirectResource where
  size := 24
  size_lt := by decide
  read bytes :=
    { reference := le32 (fun i => bytes.getD i 0) 0
      invalidateHost := bytes.getD 4 0
      invalidateGuest := bytes.getD 5 0
      synchronize := bytes.getD 6 0
      field7 := bytes.getD 7 0
      field8 := le64 (fun i => bytes.getD i 0) 8
      field10 := le64 (fun i => bytes.getD i 0) 16 }

/-- `APVCmdExecIndirectResource3`. -/
structure CmdExecIndirectResource3 where
  reference : UInt32
  flags : UInt32

instance : Record CmdExecIndirectResource3 where
  size := 8
  size_lt := by decide
  read bytes :=
    { reference := le32 (fun i => bytes.getD i 0) 0
      flags := le32 (fun i => bytes.getD i 0) 4 }

/-- `APVCmdExecIndirectCmdBuffer`. -/
structure CmdExecIndirectCmdBuffer where
  offset : UInt64
  length : UInt64

instance : Record CmdExecIndirectCmdBuffer where
  size := 16
  size_lt := by decide
  read bytes :=
    { offset := le64 (fun i => bytes.getD i 0) 0
      length := le64 (fun i => bytes.getD i 0) 8 }

/-- The records of an invalidation. -/
structure ResourceInvalidation where
  reference : UInt32
  clearHostValid : UInt8
  setHostValid : UInt8
  clearGuestValid : UInt8
  setGuestValid : UInt8

instance : Record ResourceInvalidation where
  size := 8
  size_lt := by decide
  read bytes :=
    { reference := le32 (fun i => bytes.getD i 0) 0
      clearHostValid := bytes.getD 4 0
      setHostValid := bytes.getD 5 0
      clearGuestValid := bytes.getD 6 0
      setGuestValid := bytes.getD 7 0 }

/-- The records of a synchronize or a discard. -/
structure ResourceReference where
  reference : UInt32

instance : Record ResourceReference where
  size := 4
  size_lt := by decide
  read bytes := { reference := le32 (fun i => bytes.getD i 0) 0 }

/-- Two records of eight bytes, off their alignment, and no third. -/
example :
    let r : Records CmdExecIndirectResource3 :=
      ⟨[7, 0, 0, 0, 5, 0, 0, 0, 9, 0, 0, 0, 2, 0, 0, 0, 0xbb], 2⟩
    (r.toVec.map fun x => (x.reference, x.flags)) = [(7, 5), (9, 2)] ∧ (r.get 2).isNone := by
  decide

end ReimsVgpu.Fifo
