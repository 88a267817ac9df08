import Zeno.Kv.Rid

/-!
# The mapped stores

`FileMapKVStore` keeps the global fields of one partition and one type in a
file that every worker maps.  A numeric store is an array of values and a
counter of the slots given out.  The text store of the default build is a
byte array filled from the front, an array of offsets into it, and a counter
for each.  `put` takes a fresh slot.  `replace` rewrites a slot that is named
to it, and for a text it takes fresh bytes all the same.

`KvMap` is the content of all the files.  `KvMap.Stored` says that a RID denotes
a value and, for a text, that the bytes of the value lie below the byte counter,
so that no later allocation can reach them.  Reads agree with it (`Stored.get`),
and a write changes only the RID it is made under (`put_stored_ne`,
`replace_stored_ne`).

A failed `KVDB_CHECK` ends the worker and with it the server, so it is `none`.
The atomic counters are unbounded here: every value that passes its check is
far below `2 ^ 64`.
-/

namespace Zeno

/-- `PAGE_SIZE`. -/
def pageSize : Nat := 4096

/-- `KV_MMAP_SIZE`. -/
def kvMmapSize : Nat := 2 ^ 40

/-- `STRING_LENGTH`. -/
def stringLength : Nat := 540

/-! ## Numeric stores -/

/-- `MAX_ARRAY_ELE_NUM` of a store whose values take `size` bytes. -/
def maxArrayEleNum (size : Nat) : Nat := (kvMmapSize - pageSize) / size

/-- `FileMapKVStore<ValueType>`. -/
structure FileMapKVStore (α : Type) where
  /-- The next slot to give out. -/
  curRid : Nat
  /-- The slots. -/
  store : Nat → α

namespace FileMapKVStore

variable {α : Type}

/-- `FileMapKVStore::put`. -/
def put (size : Nat) (s : FileMapKVStore α) (value : α) : Option (Nat × FileMapKVStore α) :=
  let key := s.curRid
  if key < maxArrayEleNum size then
    some (key, { curRid := key + 1, store := Function.update s.store key value })
  else none

/-- `FileMapKVStore::get`. -/
def get (size : Nat) (s : FileMapKVStore α) (key : Nat) : Option α :=
  if key < maxArrayEleNum size then some (s.store key) else none

/-- `FileMapKVStore::replace`. -/
def replace (size : Nat) (s : FileMapKVStore α) (key : Nat) (value : α) :
    Option (FileMapKVStore α) :=
  if key < maxArrayEleNum size then some { s with store := Function.update s.store key value }
  else none

end FileMapKVStore

/-! ## The text store -/

/-- `MAX_ARRAY_ELE_NUM` of the text store. -/
def textMaxArrayEleNum : Nat := 512 * 1024 * 1024

/-- `OFFSET_ARRAY_BYTES`. -/
def offsetArrayBytes : Nat := textMaxArrayEleNum * 8

/-- `STORE_SIZE`. -/
def storeSize : Nat := (kvMmapSize - pageSize) - offsetArrayBytes

/-- `FileMapKVStore<char *>` with variable-length strings. -/
structure FileMapTextStore where
  /-- The next slot to give out. -/
  curRid : Nat
  /-- The next byte to give out. -/
  curStoreOffset : Nat
  /-- Where the text of each slot starts. -/
  offsets : Nat → Nat
  /-- The bytes. -/
  store : Mem

namespace FileMapTextStore

/-- The part of `put` and `replace` that places the bytes: take `strlen + 1` bytes
off the counter, check the room, record the offset and copy. -/
def place (s : FileMapTextStore) (key : Nat) (value : CStr) : Option FileMapTextStore :=
  let writeLen := value.length + 1
  let writePos := s.curStoreOffset
  if writePos + writeLen ≤ storeSize then
    some { s with
      curStoreOffset := writePos + writeLen
      offsets := Function.update s.offsets key writePos
      store := s.store.write writePos value.terminated }
  else none

/-- `FileMapKVStore<char *>::put`. -/
def put (s : FileMapTextStore) (value : CStr) : Option (Nat × FileMapTextStore) :=
  let key := s.curRid
  if key < textMaxArrayEleNum then
    ({ s with curRid := key + 1 }.place key value).map fun s' => (key, s')
  else none

/-- `FileMapKVStore<char *>::get`, with the scan its callers make of the pointer. -/
def get (s : FileMapTextStore) (key : Nat) : Option CStr :=
  if key < textMaxArrayEleNum then
    s.store.readCStr (storeSize - s.offsets key) (s.offsets key)
  else none

/-- `FileMapKVStore<char *>::replace`. -/
def replace (s : FileMapTextStore) (key : Nat) (value : CStr) : Option FileMapTextStore :=
  if key < textMaxArrayEleNum then s.place key value else none

/-- A slot holds a text whose bytes are allocated. -/
structure Holds (s : FileMapTextStore) (key : Nat) (value : CStr) : Prop where
  /-- The bytes and their terminator are at the slot's offset. -/
  bytes : s.store.Holds (s.offsets key) value.terminated
  /-- They lie below the byte counter. -/
  below : s.offsets key + (value.length + 1) ≤ s.curStoreOffset
  /-- They lie inside the store. -/
  inside : s.offsets key + (value.length + 1) ≤ storeSize

theorem Holds.readCStr {s : FileMapTextStore} {key : Nat} {value : CStr} (h : s.Holds key value) :
    s.store.readCStr (storeSize - s.offsets key) (s.offsets key) = some value := by
  have := h.inside
  exact Mem.readCStr_of_holds h.bytes (by omega)

theorem place_eq_some {s s' : FileMapTextStore} {key : Nat} {value : CStr} :
    s.place key value = some s' ↔
      s.curStoreOffset + (value.length + 1) ≤ storeSize ∧
        s' = { s with
          curStoreOffset := s.curStoreOffset + (value.length + 1)
          offsets := Function.update s.offsets key s.curStoreOffset
          store := s.store.write s.curStoreOffset value.terminated } := by
  simp only [place]
  split
  next room => simp [room, eq_comm]
  next full => simp [full]

theorem place_holds {s s' : FileMapTextStore} {key : Nat} {value : CStr}
    (h : s.place key value = some s') : s'.Holds key value := by
  obtain ⟨room, rfl⟩ := place_eq_some.mp h
  refine ⟨?_, ?_, ?_⟩
  · simpa using Mem.holds_write s.store s.curStoreOffset value.terminated
  · simp
  · simpa using room

end FileMapTextStore

/-! ## All the files -/

/-- The content of the mapped files, by type and partition. -/
structure KvMap where
  /-- `int_stores`, `float_stores` and `timestamp_stores`. -/
  num : (n : Num) → RID → FileMapKVStore n.Val
  /-- `text_stores`. -/
  text : RID → FileMapTextStore

namespace KvMap

/-- Files as `find_or_construct` makes them. -/
def fresh : KvMap where
  num _ _ := { curRid := 0, store := fun _ => 0 }
  text _ := { curRid := 0, curStoreOffset := 0, offsets := fun _ => 0, store := fun _ => 0 }

/-- Change one numeric file. -/
def setNum (kv : KvMap) (n : Num) (p : RID) (s : FileMapKVStore n.Val) : KvMap :=
  { kv with num := Function.update kv.num n (Function.update (kv.num n) p s) }

/-- Change one text file. -/
def setText (kv : KvMap) (p : RID) (s : FileMapTextStore) : KvMap :=
  { kv with text := Function.update kv.text p s }

@[simp] theorem setNum_num_self (kv : KvMap) (n : Num) (p : RID) (s : FileMapKVStore n.Val) :
    (kv.setNum n p s).num n p = s := by
  simp [setNum]

theorem setNum_num_of_ne {kv : KvMap} {n m : Num} {p q : RID} {s : FileMapKVStore n.Val}
    (h : (m, q) ≠ (n, p)) : (kv.setNum n p s).num m q = kv.num m q := by
  by_cases hm : m = n
  · subst hm
    have hq : q ≠ p := fun hq => h (by rw [hq])
    simp [setNum, hq]
  · simp [setNum, hm]

@[simp] theorem setNum_text (kv : KvMap) (n : Num) (p : RID) (s : FileMapKVStore n.Val) :
    (kv.setNum n p s).text = kv.text := rfl

@[simp] theorem setText_num (kv : KvMap) (p : RID) (s : FileMapTextStore) :
    (kv.setText p s).num = kv.num := rfl

@[simp] theorem setText_text_self (kv : KvMap) (p : RID) (s : FileMapTextStore) :
    (kv.setText p s).text p = s := by
  simp [setText]

theorem setText_text_of_ne {kv : KvMap} {p q : RID} {s : FileMapTextStore} (h : q ≠ p) :
    (kv.setText p s).text q = kv.text q := by
  simp [setText, h]

@[simp] theorem setNum_setNum (kv : KvMap) (n : Num) (p : RID) (s s' : FileMapKVStore n.Val) :
    (kv.setNum n p s).setNum n p s' = kv.setNum n p s' := by
  simp [setNum]

@[simp] theorem setText_setText (kv : KvMap) (p : RID) (s s' : FileMapTextStore) :
    (kv.setText p s).setText p s' = kv.setText p s' := by
  simp [setText]

/-- `cur_rid` of the file of a type and a partition. -/
def curRid (kv : KvMap) : Ty → RID → Nat
  | .num n, p => (kv.num n p).curRid
  | .text, p => (kv.text p).curRid

/-- `MAX_ARRAY_ELE_NUM` of the stores of a type. -/
def maxKey : Ty → Nat
  | .num n => maxArrayEleNum n.size
  | .text => textMaxArrayEleNum

theorem maxKey_le (t : Ty) : maxKey t < 2 ^ 48 := by
  cases t with
  | num n => cases n <;> decide
  | text => decide

/-! ## What a write can change -/

/-- A slot: the type, the partition and the index. -/
abbrev Slot := Ty × RID × Nat

/-- The slot a RID names. -/
def slotOf (t : Ty) (key : RID) : Slot := (t, ridPartition key, (ridIndex key).toNat)

theorem slotOf_inj {t t' : Ty} {key key' : RID} (h : slotOf t key = slotOf t' key') :
    (t, key) = (t', key') := by
  simp only [slotOf, Prod.mk.injEq] at h
  rw [h.1, rid_ext h.2.1 h.2.2]

theorem slotOf_rid {t : Ty} {p : Partition} {k : Nat} (hk : k < maxKey t) :
    slotOf t (p.rid k) = (t, p.val, k) := by
  have hmax := maxKey_le t
  rw [slotOf, p.ridPartition_rid, p.ridIndex_rid (by omega)]

/-- A range of bytes of the text file of a partition. -/
structure ByteRange where
  /-- The partition. -/
  part : RID
  /-- The first byte. -/
  pos : Nat
  /-- The number of bytes. -/
  len : Nat

/-- A byte of a text file is in a range. -/
def ByteRange.Has (r : ByteRange) (p : RID) (a : Nat) : Prop :=
  r.part = p ∧ r.pos ≤ a ∧ a < r.pos + r.len

/-- Two ranges share no byte. -/
def ByteRange.Disjoint (r r' : ByteRange) : Prop := ∀ p a, r.Has p a → ¬ r'.Has p a

theorem ByteRange.Disjoint.symm {r r' : ByteRange} (h : r.Disjoint r') : r'.Disjoint r :=
  fun p a ha hb => h p a hb ha

/-- The files changed only in a slot and a range, and the counters did not go down. -/
structure Frame (kv kv' : KvMap) (slot : Option Slot) (range : Option ByteRange) : Prop where
  num : ∀ n p k, slot ≠ some (.num n, p, k) → (kv'.num n p).store k = (kv.num n p).store k
  offset : ∀ p k, slot ≠ some (.text, p, k) → (kv'.text p).offsets k = (kv.text p).offsets k
  byte : ∀ p a, (∀ r, range = some r → ¬ r.Has p a) → (kv'.text p).store a = (kv.text p).store a
  curRid : ∀ t p, kv.curRid t p ≤ kv'.curRid t p
  curStoreOffset : ∀ p, (kv.text p).curStoreOffset ≤ (kv'.text p).curStoreOffset

theorem Frame.refl (kv : KvMap) (slot : Option Slot) (range : Option ByteRange) :
    Frame kv kv slot range :=
  ⟨fun _ _ _ _ => rfl, fun _ _ _ => rfl, fun _ _ _ => rfl, fun _ _ => Nat.le_refl _,
    fun _ => Nat.le_refl _⟩

theorem Frame.weaken {kv kv' : KvMap} {slot slot' : Option Slot} {range range' : Option ByteRange}
    (f : Frame kv kv' slot range) (hslot : ∀ x, slot = some x → slot' = some x)
    (hrange : ∀ r, range = some r → range' = some r) : Frame kv kv' slot' range' :=
  ⟨fun n p k h => f.num n p k fun he => h (hslot _ he),
    fun p k h => f.offset p k fun he => h (hslot _ he),
    fun p a h => f.byte p a fun r hr => h r (hrange r hr), f.curRid, f.curStoreOffset⟩

/-- A change of one numeric file. -/
theorem Frame.setNum {kv : KvMap} {n : Num} {p : RID} {s : FileMapKVStore n.Val}
    {slot : Option Slot} {range : Option ByteRange}
    (store : ∀ k, slot ≠ some (.num n, p, k) → s.store k = (kv.num n p).store k)
    (rid : (kv.num n p).curRid ≤ s.curRid) : Frame kv (kv.setNum n p s) slot range := by
  refine ⟨?_, fun _ _ _ => rfl, fun _ _ _ => rfl, ?_, fun _ => Nat.le_refl _⟩
  · intro m q k hk
    by_cases h : (m, q) = (n, p)
    · obtain ⟨rfl, rfl⟩ := Prod.mk.inj h
      rw [setNum_num_self]
      exact store k hk
    · rw [setNum_num_of_ne h]
  · intro t q
    cases t with
    | num m =>
        by_cases h : (m, q) = (n, p)
        · obtain ⟨rfl, rfl⟩ := Prod.mk.inj h
          simpa only [KvMap.curRid, setNum_num_self] using rid
        · simp only [KvMap.curRid, setNum_num_of_ne h, Nat.le_refl]
    | text => exact Nat.le_refl _

/-- A change of one text file. -/
theorem Frame.setText {kv : KvMap} {p : RID} {s : FileMapTextStore} {slot : Option Slot}
    {range : Option ByteRange}
    (offset : ∀ k, slot ≠ some (.text, p, k) → s.offsets k = (kv.text p).offsets k)
    (byte : ∀ a, (∀ r, range = some r → ¬ r.Has p a) → s.store a = (kv.text p).store a)
    (rid : (kv.text p).curRid ≤ s.curRid)
    (off : (kv.text p).curStoreOffset ≤ s.curStoreOffset) :
    Frame kv (kv.setText p s) slot range := by
  refine ⟨fun _ _ _ _ => rfl, ?_, ?_, ?_, ?_⟩
  · intro q k hk
    by_cases h : q = p
    · subst h
      rw [setText_text_self]
      exact offset k hk
    · rw [setText_text_of_ne h]
  · intro q a ha
    by_cases h : q = p
    · subst h
      rw [setText_text_self]
      exact byte a ha
    · rw [setText_text_of_ne h]
  · intro t q
    cases t with
    | num m => exact Nat.le_refl _
    | text =>
        by_cases h : q = p
        · subst h
          simpa only [KvMap.curRid, setText_text_self] using rid
        · simp only [KvMap.curRid, setText_text_of_ne h, Nat.le_refl]
  · intro q
    by_cases h : q = p
    · subst h
      rw [setText_text_self]
      exact off
    · rw [setText_text_of_ne h]

/-! ## The operator -/

/-- `FileMapKVStoreOperator::putInt(value, partition)` and its siblings.  The check
of the partition is `init_partition`'s. -/
def put (kv : KvMap) : (t : Ty) → t.Val → RID → Option (RID × KvMap)
  | .num n, value, p =>
      if p = ridLocalPartition then none
      else do
        let (key, s) ← (kv.num n p).put n.size value
        if key ≤ ridMask.toNat then
          some (makePartitionedRid p (BitVec.ofNat 64 key), kv.setNum n p s)
        else none
  | .text, value, p =>
      if p = ridLocalPartition then none
      else do
        let (key, s) ← (kv.text p).put value
        if key ≤ ridMask.toNat then
          some (makePartitionedRid p (BitVec.ofNat 64 key), kv.setText p s)
        else none

/-- `FileMapKVStoreOperator::getInt(key)` and its siblings. -/
def get (kv : KvMap) : (t : Ty) → RID → Option t.Val
  | .num n, key =>
      if ridPartition key = ridLocalPartition then none
      else (kv.num n (ridPartition key)).get n.size (ridIndex key).toNat
  | .text, key =>
      if ridPartition key = ridLocalPartition then none
      else (kv.text (ridPartition key)).get (ridIndex key).toNat

/-- `FileMapKVStoreOperator::replaceInt(key, value)` and its siblings. -/
def replace (kv : KvMap) : (t : Ty) → RID → t.Val → Option KvMap
  | .num n, key, value =>
      if ridPartition key = ridLocalPartition then none
      else
        ((kv.num n (ridPartition key)).replace n.size (ridIndex key).toNat value).map
          (kv.setNum n (ridPartition key))
  | .text, key, value =>
      if ridPartition key = ridLocalPartition then none
      else
        ((kv.text (ridPartition key)).replace (ridIndex key).toNat value).map
          (kv.setText (ridPartition key))

/-! ## What a RID denotes -/

/-- A global RID that a store can hold: not local, and its slot in range. -/
def ValidRid (t : Ty) (key : RID) : Prop :=
  ridPartition key ≠ ridLocalPartition ∧ (ridIndex key).toNat < maxKey t

instance (t : Ty) (key : RID) : Decidable (ValidRid t key) :=
  inferInstanceAs (Decidable (_ ∧ _))

/-- The slot of a RID holds a value, in allocated bytes if it is a text. -/
def Holds (kv : KvMap) : (t : Ty) → RID → t.Val → Prop
  | .num n, key, value => (kv.num n (ridPartition key)).store (ridIndex key).toNat = value
  | .text, key, value => (kv.text (ridPartition key)).Holds (ridIndex key).toNat value

/-- A valid RID whose slot holds a value. -/
structure Stored (kv : KvMap) (t : Ty) (key : RID) (value : t.Val) : Prop where
  /-- The RID is a valid global one. -/
  valid : ValidRid t key
  /-- Its slot holds the value. -/
  holds : kv.Holds t key value

/-- A stored value reads back. -/
theorem Stored.get {kv : KvMap} {t : Ty} {key : RID} {value : t.Val}
    (h : kv.Stored t key value) : kv.get t key = some value := by
  obtain ⟨⟨hp, hk⟩, hv⟩ := h
  cases t with
  | num n =>
      simp only [maxKey] at hk
      simp only [Holds] at hv
      simp [KvMap.get, FileMapKVStore.get, hp, hk, hv]
  | text =>
      simp only [maxKey] at hk
      simp only [Holds] at hv
      simp [KvMap.get, FileMapTextStore.get, hp, hk, hv.readCStr]

/-- A RID that no store can hold is not read. -/
theorem get_eq_none {kv : KvMap} {t : Ty} {key : RID} (h : ¬ ValidRid t key) :
    kv.get t key = none := by
  simp only [ValidRid, not_and_or, not_not] at h
  cases t with
  | num n =>
      rcases h with h | h
      · simp [KvMap.get, h]
      · simp only [maxKey] at h
        simp [KvMap.get, FileMapKVStore.get, h]
  | text =>
      rcases h with h | h
      · simp [KvMap.get, h]
      · simp only [maxKey] at h
        simp [KvMap.get, FileMapTextStore.get, h]

/-- The bytes of the text a RID denotes. -/
def range (kv : KvMap) : (t : Ty) → RID → t.Val → Option ByteRange
  | .num _, _, _ => none
  | .text, key, value =>
      some ⟨ridPartition key, (kv.text (ridPartition key)).offsets (ridIndex key).toNat,
        value.length + 1⟩

/-- The bytes a write of a value takes off the counter. -/
def freshRange (kv : KvMap) (p : RID) : (t : Ty) → t.Val → Option ByteRange
  | .num _, _ => none
  | .text, value => some ⟨p, (kv.text p).curStoreOffset, value.length + 1⟩

theorem Frame.range {kv kv' : KvMap} {slot : Option Slot} {bytes : Option ByteRange} {t : Ty}
    {key : RID} (f : Frame kv kv' slot bytes) (hslot : slot ≠ some (slotOf t key))
    (value : t.Val) : kv'.range t key value = kv.range t key value := by
  cases t with
  | num n => rfl
  | text => simp only [KvMap.range, f.offset _ _ hslot]

/-- A stored value survives a change that stays off its slot and off its bytes. -/
theorem Stored.frame {kv kv' : KvMap} {t : Ty} {key : RID} {value : t.Val} {slot : Option Slot}
    {bytes : Option ByteRange} (h : kv.Stored t key value) (f : Frame kv kv' slot bytes)
    (hslot : slot ≠ some (slotOf t key))
    (hbytes : ∀ r r', bytes = some r → kv.range t key value = some r' → r.Disjoint r') :
    kv'.Stored t key value := by
  refine ⟨h.valid, ?_⟩
  have hv := h.holds
  cases t with
  | num n => exact (f.num _ _ _ hslot).trans hv
  | text =>
      have hoff := f.offset _ _ hslot
      refine ⟨?_, ?_, ?_⟩
      · rw [hoff]
        refine hv.bytes.congr fun a hle hlt => f.byte _ _ fun r hr hhas => ?_
        rw [CStr.length_terminated] at hlt
        exact hbytes r _ hr rfl _ a hhas ⟨rfl, hle, hlt⟩
      · rw [hoff]
        exact hv.below.trans (f.curStoreOffset _)
      · rw [hoff]
        exact hv.inside

/-- The bytes of a stored text lie below the byte counter. -/
theorem Stored.range_below {kv : KvMap} {t : Ty} {key : RID} {value : t.Val} {r : ByteRange}
    (h : kv.Stored t key value) (hr : kv.range t key value = some r) :
    r.pos + r.len ≤ (kv.text r.part).curStoreOffset := by
  cases t with
  | num n => cases hr
  | text =>
      cases hr
      exact h.holds.below

/-- Bytes at or above the byte counter are off bytes below it. -/
theorem ByteRange.Disjoint.of_counter (kv : KvMap) {r r' : ByteRange}
    (above : (kv.text r.part).curStoreOffset ≤ r.pos)
    (below : r'.pos + r'.len ≤ (kv.text r'.part).curStoreOffset) : r.Disjoint r' := by
  rintro p a ⟨rfl, hge, -⟩ ⟨hp, -, hlt⟩
  rw [hp] at below
  omega

/-- The bytes a write takes are off those of every stored value. -/
theorem Stored.disjoint_freshRange {kv : KvMap} {t t' : Ty} {key : RID} {value : t.Val}
    (h : kv.Stored t key value) {p : RID} {value' : t'.Val} {r r' : ByteRange}
    (hr : kv.freshRange p t' value' = some r) (hr' : kv.range t key value = some r') :
    r.Disjoint r' := by
  cases t' with
  | num n => cases hr
  | text =>
      cases hr
      exact .of_counter kv (Nat.le_refl _) (h.range_below hr')

/-- Placing a text in a file that differs from the mapped one only by its slot counter. -/
theorem place_frame {kv : KvMap} {p : RID} {s s' : FileMapTextStore} {key : Nat} {value : CStr}
    (h : s.place key value = some s') (hoff : s.offsets = (kv.text p).offsets)
    (hstore : s.store = (kv.text p).store)
    (hpos : s.curStoreOffset = (kv.text p).curStoreOffset)
    (hrid : (kv.text p).curRid ≤ s.curRid) :
    Frame kv (kv.setText p s') (some (.text, p, key)) (kv.freshRange p .text value) := by
  obtain ⟨-, rfl⟩ := FileMapTextStore.place_eq_some.mp h
  refine Frame.setText (fun k hk => ?_) (fun a ha => ?_) hrid (by simp only; omega)
  · simp only [← hoff]
    exact Function.update_of_ne (fun he => hk (by rw [he])) _ _
  · simp only [← hstore]
    have hout := ha _ rfl
    simp only [ByteRange.Has, true_and, ← hpos] at hout
    simp [Mem.write, hout]

/-! ## Replacing a field -/

theorem replace_num_eq_some {kv kv' : KvMap} {n : Num} {key : RID} {value : n.Val} :
    kv.replace (.num n) key value = some kv' ↔
      ValidRid (.num n) key ∧
        kv' = kv.setNum n (ridPartition key)
          { kv.num n (ridPartition key) with
            store := Function.update (kv.num n (ridPartition key)).store
              (ridIndex key).toNat value } := by
  by_cases hp : ridPartition key = ridLocalPartition
  · simp [replace, ValidRid, hp]
  · by_cases hk : (ridIndex key).toNat < maxArrayEleNum n.size
    · simp [replace, ValidRid, FileMapKVStore.replace, maxKey, hp, hk, eq_comm]
    · simp [replace, ValidRid, FileMapKVStore.replace, maxKey, hp, hk]

theorem replace_text_eq_some {kv kv' : KvMap} {key : RID} {value : CStr} :
    kv.replace .text key value = some kv' ↔
      ValidRid .text key ∧ ∃ s,
        (kv.text (ridPartition key)).place (ridIndex key).toNat value = some s ∧
          kv' = kv.setText (ridPartition key) s := by
  by_cases hp : ridPartition key = ridLocalPartition
  · simp [replace, ValidRid, hp]
  · by_cases hk : (ridIndex key).toNat < textMaxArrayEleNum
    · simp [replace, ValidRid, FileMapTextStore.replace, maxKey, hp, hk, eq_comm]
    · simp [replace, ValidRid, FileMapTextStore.replace, maxKey, hp, hk]

theorem replace_stored {kv kv' : KvMap} {t : Ty} {key : RID} {value : t.Val}
    (h : kv.replace t key value = some kv') : kv'.Stored t key value := by
  cases t with
  | num n =>
      obtain ⟨valid, rfl⟩ := replace_num_eq_some.mp h
      exact ⟨valid, by simp [Holds]⟩
  | text =>
      obtain ⟨valid, s, hs, rfl⟩ := replace_text_eq_some.mp h
      exact ⟨valid, by simpa [Holds] using FileMapTextStore.place_holds hs⟩

theorem replace_frame {kv kv' : KvMap} {t : Ty} {key : RID} {value : t.Val}
    (h : kv.replace t key value = some kv') :
    Frame kv kv' (some (slotOf t key)) (kv.freshRange (ridPartition key) t value) := by
  cases t with
  | num n =>
      obtain ⟨-, rfl⟩ := replace_num_eq_some.mp h
      refine Frame.setNum (fun k hk => ?_) (Nat.le_refl _)
      exact Function.update_of_ne (fun he => hk (by rw [he]; rfl)) _ _
  | text =>
      obtain ⟨-, s, hs, rfl⟩ := replace_text_eq_some.mp h
      exact place_frame hs rfl rfl rfl (Nat.le_refl _)

/-- Replacing a field leaves every other field. -/
theorem replace_stored_ne {kv kv' : KvMap} {t t' : Ty} {key key' : RID} {value : t.Val}
    {value' : t'.Val} (h : kv.replace t key value = some kv') (hne : (t', key') ≠ (t, key))
    (held : kv.Stored t' key' value') : kv'.Stored t' key' value' :=
  held.frame (replace_frame h) (fun he => hne (slotOf_inj (Option.some.inj he)).symm)
    fun _ _ => held.disjoint_freshRange

/-! ## Putting a field -/

theorem put_num_eq_some {kv kv' : KvMap} {n : Num} {value : n.Val} {p : Partition} {rid : RID} :
    kv.put (.num n) value p.val = some (rid, kv') ↔
      kv.curRid (.num n) p.val < maxKey (.num n) ∧ rid = p.rid (kv.curRid (.num n) p.val) ∧
        kv' = kv.setNum n p.val
          { curRid := kv.curRid (.num n) p.val + 1
            store := Function.update (kv.num n p.val).store (kv.curRid (.num n) p.val) value } := by
  have hmax := maxKey_le (.num n)
  by_cases hk : (kv.num n p.val).curRid < maxArrayEleNum n.size
  · have hmask : (kv.num n p.val).curRid ≤ ridMask.toNat := by
      simp only [maxKey] at hmax
      rw [ridMask_toNat]
      omega
    simp [put, p.ne, FileMapKVStore.put, hk, hmask, curRid, maxKey, Partition.rid, eq_comm]
  · simp [put, p.ne, FileMapKVStore.put, hk, curRid, maxKey]

theorem put_text_eq_some {kv kv' : KvMap} {value : CStr} {p : Partition} {rid : RID} :
    kv.put .text value p.val = some (rid, kv') ↔
      kv.curRid .text p.val < maxKey .text ∧ rid = p.rid (kv.curRid .text p.val) ∧ ∃ s,
        FileMapTextStore.place { kv.text p.val with curRid := kv.curRid .text p.val + 1 }
          (kv.curRid .text p.val) value = some s ∧ kv' = kv.setText p.val s := by
  have hmax := maxKey_le .text
  by_cases hk : (kv.text p.val).curRid < textMaxArrayEleNum
  · have hmask : (kv.text p.val).curRid ≤ ridMask.toNat := by
      simp only [maxKey] at hmax
      rw [ridMask_toNat]
      omega
    cases hpl : FileMapTextStore.place
        { kv.text p.val with curRid := (kv.text p.val).curRid + 1 }
        (kv.text p.val).curRid value with
    | none => simp [put, p.ne, FileMapTextStore.put, hk, curRid, hpl]
    | some s =>
        simp [put, p.ne, FileMapTextStore.put, hk, curRid, maxKey, hpl, hmask, Partition.rid,
          eq_comm]
  · simp [put, p.ne, FileMapTextStore.put, hk, curRid, maxKey]

/-- The empty value can be put where there is a slot and, for a text, a byte left. -/
theorem put_zero {kv : KvMap} {t : Ty} {p : Partition} (slot : kv.curRid t p.val < maxKey t)
    (room : t = .text → (kv.text p.val).curStoreOffset < storeSize) :
    ∃ kv', kv.put t t.zero p.val = some (p.rid (kv.curRid t p.val), kv') := by
  cases t with
  | num n => exact ⟨_, put_num_eq_some.mpr ⟨slot, rfl, rfl⟩⟩
  | text =>
      exact ⟨_, put_text_eq_some.mpr ⟨slot, rfl, _,
        FileMapTextStore.place_eq_some.mpr ⟨room rfl, rfl⟩, rfl⟩⟩

theorem put_rid {kv kv' : KvMap} {t : Ty} {value : t.Val} {p : Partition} {rid : RID}
    (h : kv.put t value p.val = some (rid, kv')) :
    kv.curRid t p.val < maxKey t ∧ rid = p.rid (kv.curRid t p.val) := by
  cases t with
  | num n =>
      obtain ⟨hk, hrid, -⟩ := put_num_eq_some.mp h
      exact ⟨hk, hrid⟩
  | text =>
      obtain ⟨hk, hrid, -⟩ := put_text_eq_some.mp h
      exact ⟨hk, hrid⟩

theorem validRid_rid {t : Ty} {p : Partition} {k : Nat} (hk : k < maxKey t) :
    ValidRid t (p.rid k) := by
  refine ⟨?_, ?_⟩
  · rw [Partition.ridPartition_rid]
    exact p.ne
  · rw [p.ridIndex_rid (by have := maxKey_le t; omega)]
    exact hk

theorem put_stored {kv kv' : KvMap} {t : Ty} {value : t.Val} {p : Partition} {rid : RID}
    (h : kv.put t value p.val = some (rid, kv')) : kv'.Stored t rid value := by
  obtain ⟨hk, rfl⟩ := put_rid h
  have hidx := p.ridIndex_rid (k := kv.curRid t p.val) (by have := maxKey_le t; omega)
  refine ⟨validRid_rid hk, ?_⟩
  cases t with
  | num n =>
      obtain ⟨-, -, rfl⟩ := put_num_eq_some.mp h
      simp [Holds, hidx]
  | text =>
      obtain ⟨-, -, s, hs, rfl⟩ := put_text_eq_some.mp h
      simpa [Holds, hidx] using FileMapTextStore.place_holds hs

theorem put_frame {kv kv' : KvMap} {t : Ty} {value : t.Val} {p : Partition} {rid : RID}
    (h : kv.put t value p.val = some (rid, kv')) :
    Frame kv kv' (some (slotOf t rid)) (kv.freshRange p.val t value) := by
  obtain ⟨hk, rfl⟩ := put_rid h
  rw [slotOf_rid hk]
  cases t with
  | num n =>
      obtain ⟨-, -, rfl⟩ := put_num_eq_some.mp h
      refine Frame.setNum (fun k hk => ?_) (Nat.le_succ _)
      exact Function.update_of_ne (fun he => hk (by rw [he])) _ _
  | text =>
      obtain ⟨-, -, s, hs, rfl⟩ := put_text_eq_some.mp h
      exact place_frame hs rfl rfl rfl (Nat.le_succ _)

/-- Putting a field leaves every other field. -/
theorem put_stored_ne {kv kv' : KvMap} {t t' : Ty} {value : t.Val} {value' : t'.Val}
    {p : Partition} {rid key' : RID} (h : kv.put t value p.val = some (rid, kv'))
    (hne : (t', key') ≠ (t, rid)) (held : kv.Stored t' key' value') :
    kv'.Stored t' key' value' :=
  held.frame (put_frame h) (fun he => hne (slotOf_inj (Option.some.inj he)).symm)
    fun _ _ => held.disjoint_freshRange

/-! ## Fields given out -/

/-- A stored value whose slot was given out, so that no later `put` takes it. -/
structure Alive (kv : KvMap) (t : Ty) (key : RID) (value : t.Val) : Prop where
  /-- The value is stored. -/
  stored : kv.Stored t key value
  /-- The slot is below the counter. -/
  allocated : (ridIndex key).toNat < kv.curRid t (ridPartition key)

theorem put_curRid {kv kv' : KvMap} {t : Ty} {value : t.Val} {p : Partition} {rid : RID}
    (h : kv.put t value p.val = some (rid, kv')) :
    kv'.curRid t p.val = kv.curRid t p.val + 1 := by
  cases t with
  | num n =>
      obtain ⟨-, -, rfl⟩ := put_num_eq_some.mp h
      simp [curRid]
  | text =>
      obtain ⟨-, -, s, hs, rfl⟩ := put_text_eq_some.mp h
      obtain ⟨-, rfl⟩ := FileMapTextStore.place_eq_some.mp hs
      simp [curRid]

theorem put_alive {kv kv' : KvMap} {t : Ty} {value : t.Val} {p : Partition} {rid : RID}
    (h : kv.put t value p.val = some (rid, kv')) : kv'.Alive t rid value := by
  refine ⟨put_stored h, ?_⟩
  obtain ⟨hk, rfl⟩ := put_rid h
  have hmax := maxKey_le t
  rw [p.ridPartition_rid, p.ridIndex_rid (by omega), put_curRid h]
  exact Nat.lt_succ_self _

/-- A `put` leaves every field given out before it. -/
theorem Alive.put {kv kv' : KvMap} {t t' : Ty} {value : t.Val} {value' : t'.Val}
    {p : Partition} {rid key' : RID} (held : kv.Alive t' key' value')
    (h : kv.put t value p.val = some (rid, kv')) : kv'.Alive t' key' value' := by
  refine ⟨put_stored_ne h (fun he => ?_) held.stored, held.allocated.trans_le
    ((put_frame h).curRid _ _)⟩
  obtain ⟨rfl, rfl⟩ := Prod.mk.inj he
  obtain ⟨hk, rfl⟩ := put_rid h
  have hmax := maxKey_le t'
  have hlt := held.allocated
  rw [p.ridPartition_rid, p.ridIndex_rid (by omega)] at hlt
  exact Nat.lt_irrefl _ hlt

/-! ## Images mixed from several states -/

/-- Each cell of an image is that of one of some states of the files, not of the same
state for all cells. -/
structure Mixed (states : KvMap → Prop) (image : KvMap) : Prop where
  num : ∀ n p k, ∃ kv, states kv ∧ (image.num n p).store k = (kv.num n p).store k
  offset : ∀ p k, ∃ kv, states kv ∧ (image.text p).offsets k = (kv.text p).offsets k
  byte : ∀ p a, ∃ kv, states kv ∧ (image.text p).store a = (kv.text p).store a
  curRid : ∀ t p, ∃ kv, states kv ∧ image.curRid t p = kv.curRid t p
  curStoreOffset : ∀ p, ∃ kv, states kv ∧
    (image.text p).curStoreOffset = (kv.text p).curStoreOffset

theorem Mixed.of_state {states : KvMap → Prop} {kv : KvMap} (h : states kv) : Mixed states kv :=
  ⟨fun _ _ _ => ⟨kv, h, rfl⟩, fun _ _ => ⟨kv, h, rfl⟩, fun _ _ => ⟨kv, h, rfl⟩,
    fun _ _ => ⟨kv, h, rfl⟩, fun _ => ⟨kv, h, rfl⟩⟩

/-- A value that all the states store in the same cells is in the image. -/
theorem Mixed.stored {states : KvMap → Prop} {image : KvMap} {t : Ty} {key : RID} {value : t.Val}
    (bytes : Option ByteRange) (h : Mixed states image)
    (all : ∀ kv, states kv → kv.Stored t key value ∧ kv.range t key value = bytes) :
    image.Stored t key value := by
  cases t with
  | num n =>
      obtain ⟨kv, hkv, hcell⟩ := h.num n (ridPartition key) (ridIndex key).toNat
      have hstored := (all kv hkv).1
      exact ⟨hstored.valid, hcell.trans hstored.holds⟩
  | text =>
      obtain ⟨kv₀, hkv₀, hoff⟩ := h.offset (ridPartition key) (ridIndex key).toNat
      have hstored₀ := (all kv₀ hkv₀).1
      have hsame (kv : KvMap) (hkv : states kv) :
          (kv.text (ridPartition key)).offsets (ridIndex key).toNat =
            (image.text (ridPartition key)).offsets (ridIndex key).toNat := by
        have hrange := (all kv hkv).2.trans (all kv₀ hkv₀).2.symm
        simp only [KvMap.range, Option.some.injEq, ByteRange.mk.injEq] at hrange
        rw [hoff]
        exact hrange.2.1
      refine ⟨hstored₀.valid, fun i hi => ?_, ?_, ?_⟩
      · obtain ⟨kv, hkv, hcell⟩ := h.byte (ridPartition key)
          ((image.text (ridPartition key)).offsets (ridIndex key).toNat + i)
        have hbytes := (all kv hkv).1.holds.bytes i hi
        rw [hsame kv hkv] at hbytes
        exact hcell.trans hbytes
      · obtain ⟨kv, hkv, hcell⟩ := h.curStoreOffset (ridPartition key)
        have hbelow := (all kv hkv).1.holds.below
        rw [hsame kv hkv] at hbelow
        rw [hcell]
        exact hbelow
      · rw [hoff]
        exact hstored₀.holds.inside

end KvMap

end Zeno
