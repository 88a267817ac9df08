import Mathlib.Data.BitVec
import Mathlib.Logic.Function.Basic
import Zeno.Lib.CStr

/-!
# Field identifiers and field types

A field identifier (`RID`, `rid.h`) is a 64-bit word.  In the partitioned
build its high 16 bits name the partition and its low 48 bits the slot.  The
last partition number is reserved for the process-local store, so a RID of that
partition is *local* and every other RID is *global*.  `invalidRid`, the
all-ones word, lies in the reserved partition.

A relation is mapped to a partition by the low bits of its oid
(`relation_partition_id`, `extension.cpp`).  `Partition` is the type of the
numbers that mapping can return.
-/

namespace Zeno

/-- `RID`, a field identifier. -/
abbrev RID := BitVec 64

/-- `KVMAP_PARTITION_BITS` of the default build. -/
def kvmapPartitionBits : Nat := 16

/-- `RID_PARTITION_SHIFT`. -/
def ridPartitionShift : Nat := 64 - kvmapPartitionBits

/-- `RID_MASK`. -/
def ridMask : RID := (1 <<< ridPartitionShift) - 1

/-- `RID_LOCAL_PARTITION`. -/
def ridLocalPartition : RID := (1 <<< kvmapPartitionBits) - 1

/-- `INVALID_RID`, `UINT64_MAX`. -/
def invalidRid : RID := BitVec.allOnes 64

/-- `rid_partition`. -/
def ridPartition (id : RID) : RID := id >>> ridPartitionShift

/-- `rid_index`. -/
def ridIndex (id : RID) : RID := id &&& ridMask

/-- `make_partitioned_rid`. -/
def makePartitionedRid (partition idx : RID) : RID :=
  (partition <<< ridPartitionShift) ||| (idx &&& ridMask)

/-- `islocal`. -/
def islocal (id : RID) : Bool := ridPartition id == ridLocalPartition

/-- `idx2local`, `kv.hpp`. -/
def idx2local (idx : RID) : RID := makePartitionedRid ridLocalPartition idx

/-- `local2idx`, `kv.hpp`. -/
def local2idx (id : RID) : RID := ridIndex id

/-! ## Packing and unpacking -/

theorem ridMask_toNat : ridMask.toNat = 2 ^ 48 - 1 := by decide

theorem toNat_ridPartition (id : RID) : (ridPartition id).toNat = id.toNat / 2 ^ 48 := by
  simp [ridPartition, ridPartitionShift, kvmapPartitionBits, Nat.shiftRight_eq_div_pow]

theorem toNat_ridIndex (id : RID) : (ridIndex id).toNat = id.toNat % 2 ^ 48 := by
  rw [ridIndex, BitVec.toNat_and, ridMask_toNat, Nat.and_two_pow_sub_one_eq_mod]

theorem toNat_makePartitionedRid {p idx : RID} (hp : p.toNat < 2 ^ 16) :
    (makePartitionedRid p idx).toNat = p.toNat * 2 ^ 48 + idx.toNat % 2 ^ 48 := by
  have hshift : (p <<< ridPartitionShift).toNat = p.toNat * 2 ^ 48 := by
    simp only [ridPartitionShift, kvmapPartitionBits, BitVec.toNat_shiftLeft,
      Nat.shiftLeft_eq]
    omega
  have hlow : idx.toNat % 2 ^ 48 < 2 ^ 48 := Nat.mod_lt _ (by decide)
  rw [makePartitionedRid, BitVec.toNat_or, hshift, BitVec.toNat_and, ridMask_toNat,
    Nat.and_two_pow_sub_one_eq_mod, ← Nat.shiftLeft_eq, ← Nat.shiftLeft_add_eq_or_of_lt hlow,
    Nat.shiftLeft_eq]

theorem ridPartition_makePartitionedRid {p idx : RID} (hp : p.toNat < 2 ^ 16) :
    ridPartition (makePartitionedRid p idx) = p := by
  apply BitVec.eq_of_toNat_eq
  rw [toNat_ridPartition, toNat_makePartitionedRid hp]
  have hlow : idx.toNat % 2 ^ 48 < 2 ^ 48 := Nat.mod_lt _ (by decide)
  omega

theorem toNat_ridIndex_makePartitionedRid {p : RID} {k : Nat} (hp : p.toNat < 2 ^ 16)
    (hk : k < 2 ^ 48) :
    (ridIndex (makePartitionedRid p (BitVec.ofNat 64 k))).toNat = k := by
  rw [toNat_ridIndex, toNat_makePartitionedRid hp, BitVec.toNat_ofNat]
  omega

/-- A RID is determined by its partition and its slot. -/
theorem rid_ext {a b : RID} (hp : ridPartition a = ridPartition b)
    (hi : (ridIndex a).toNat = (ridIndex b).toNat) : a = b := by
  apply BitVec.eq_of_toNat_eq
  have hp' := congrArg BitVec.toNat hp
  rw [toNat_ridPartition, toNat_ridPartition] at hp'
  rw [toNat_ridIndex, toNat_ridIndex] at hi
  omega

theorem ridPartition_lt (id : RID) : (ridPartition id).toNat < 2 ^ 16 := by
  rw [toNat_ridPartition]
  have := id.isLt
  omega

theorem ridIndex_lt (id : RID) : (ridIndex id).toNat < 2 ^ 48 := by
  rw [toNat_ridIndex]
  exact Nat.mod_lt _ (by decide)

theorem makePartitionedRid_ridPartition (id : RID) :
    makePartitionedRid (ridPartition id) (BitVec.ofNat 64 (ridIndex id).toNat) = id :=
  rid_ext (ridPartition_makePartitionedRid (ridPartition_lt id))
    (toNat_ridIndex_makePartitionedRid (ridPartition_lt id) (ridIndex_lt id))

@[simp] theorem islocal_idx2local (idx : RID) : islocal (idx2local idx) = true := by
  simp [islocal, idx2local, ridPartition_makePartitionedRid (p := ridLocalPartition) (by decide)]

theorem local2idx_idx2local {k : Nat} (hk : k < 2 ^ 48) :
    (local2idx (idx2local (BitVec.ofNat 64 k))).toNat = k :=
  toNat_ridIndex_makePartitionedRid (by decide) hk

theorem idx2local_local2idx {id : RID} (h : islocal id = true) :
    idx2local (BitVec.ofNat 64 (local2idx id).toNat) = id := by
  have hp : ridPartition id = ridLocalPartition := by simpa [islocal] using h
  rw [idx2local, ← hp]
  exact makePartitionedRid_ridPartition id

theorem islocal_invalidRid : islocal invalidRid = true := by decide

/-! ## Partitions of relations -/

/-- The partitions a relation can have: 16 bits, and not the local one. -/
structure Partition where
  /-- The partition number. -/
  val : RID
  /-- It fits the partition bits of a RID. -/
  lt : val.toNat < 2 ^ 16
  /-- It is not the partition of local RIDs. -/
  ne : val ≠ ridLocalPartition
deriving DecidableEq

namespace Partition

@[ext] theorem ext {p q : Partition} (h : p.val = q.val) : p = q := by
  cases p; cases q; cases h; rfl

/-- `RID_DEFAULT_PARTITION`, where `CMD_*_PUT` puts its field. -/
def default : Partition := ⟨0, by decide, by decide⟩

/-- The RID of a slot of a partition. -/
def rid (p : Partition) (k : Nat) : RID := makePartitionedRid p.val (BitVec.ofNat 64 k)

@[simp] theorem ridPartition_rid (p : Partition) (k : Nat) : ridPartition (p.rid k) = p.val :=
  ridPartition_makePartitionedRid p.lt

theorem ridIndex_rid (p : Partition) {k : Nat} (hk : k < 2 ^ 48) :
    (ridIndex (p.rid k)).toNat = k :=
  toNat_ridIndex_makePartitionedRid p.lt hk

@[simp] theorem islocal_rid (p : Partition) (k : Nat) : islocal (p.rid k) = false := by
  simp [islocal, p.ne]

/-- A RID that is not local is the RID of a slot of a partition. -/
theorem exists_rid {key : RID} (h : ridPartition key ≠ ridLocalPartition) :
    ∃ p : Partition, p.rid (ridIndex key).toNat = key := by
  refine ⟨⟨ridPartition key, ridPartition_lt key, h⟩, rid_ext ?_ ?_⟩
  · rw [ridPartition_rid]
  · rw [ridIndex_rid _ (ridIndex_lt key)]

theorem rid_ne_invalidRid (p : Partition) (k : Nat) : p.rid k ≠ invalidRid := by
  intro h
  have hl := p.islocal_rid k
  rw [h, islocal_invalidRid] at hl
  cases hl

end Partition

/-- `relation_partition_id`.  An oid whose low bits are those of the local
partition is refused with an error. -/
def relationPartitionId (relid : BitVec 32) : Option Partition :=
  let partition : RID := relid.setWidth 64 &&& ((1 <<< kvmapPartitionBits) - 1)
  if h : partition = ridLocalPartition then none
  else some ⟨partition, by
    have : ((1 <<< kvmapPartitionBits) - 1 : RID).toNat = 2 ^ 16 - 1 := by decide
    rw [BitVec.toNat_and, this, Nat.and_two_pow_sub_one_eq_mod]
    exact Nat.mod_lt _ (by decide), h⟩

/-- `rid_in_partition`, `extension.cpp`. -/
def ridInPartition (id : RID) (p : Partition) : Bool := !islocal id && ridPartition id == p.val

/-! ## Types of fields -/

/-- The types kept in an array of fixed-size values. -/
inductive Num where
  | int | float | timestamp
deriving DecidableEq, Repr

/-- The types of fields.  Text is kept in a byte store of its own. -/
inductive Ty where
  | num (n : Num)
  | text
deriving DecidableEq, Repr

namespace Num

/-- Bits of a value. -/
def width : Num → Nat
  | .int => 32
  | .float => 32
  | .timestamp => 64

/-- `sizeof(ValueType)`. -/
def size (n : Num) : Nat := n.width / 8

/-- Values of a fixed-size type.  A float is its bit pattern: the stores only
copy it. -/
abbrev Val (n : Num) : Type := BitVec n.width

theorem size_pos (n : Num) : 0 < n.size := by cases n <;> decide

theorem width_eq (n : Num) : n.width = 8 * n.size := by cases n <;> rfl

end Num

namespace Ty

/-- `kv_int4`. -/
abbrev int : Ty := .num .int

/-- `kv_float4`. -/
abbrev float : Ty := .num .float

/-- `kv_timestamp`. -/
abbrev timestamp : Ty := .num .timestamp

/-- Values of a type. -/
@[reducible] def Val : Ty → Type
  | .num n => n.Val
  | .text => CStr

instance : (t : Ty) → DecidableEq t.Val
  | .num n => inferInstanceAs (DecidableEq n.Val)
  | .text => inferInstanceAs (DecidableEq CStr)

/-- `ValueType()` of a number, the empty string of a text. -/
def zero : (t : Ty) → t.Val
  | .num n => (0 : n.Val)
  | .text => CStr.empty

end Ty

/-- A value with its type. -/
abbrev Value := Σ t : Ty, t.Val

end Zeno
