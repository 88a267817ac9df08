import Zeno.Tee.Like
import Zeno.Tee.Ops

/-!
# Which requests end a worker

A failed check, a division that traps, an access outside a store or a stack that is full
ends the worker that handles the request, and `main` (`server.cpp`) then shuts the server
down.  `MatchText` is the one function of the handler that calls itself, so the stack is
counted in calls of it (`handleOpsOn`).

`Request.Safe` lists, request by request, what must hold in the stores for the handler to
return: the divisor of an integer is not tested, nor are the bounds of a substring, the
number of `%` in a pattern or the length of a text that is encrypted.  For all requests
but two kinds it is exact (`Request.Sharp`).  A substring that starts outside of a text of
a file reads other bytes of the file and may return, and a pattern may take fewer calls
than it has `%`.
-/

namespace Zeno

/-! ## Room -/

/-- A local `put` finds a slot: one that was freed, or memory for one more. -/
def Stores.LocalRoom (st : Stores) (t : Ty) : Prop :=
  (st.loc t).raw.freeList ≠ [] ∨ st.slots t < maxLocalSlots

/-- The bytes a value takes of the text file of a partition are there. -/
def KvMap.ByteRoom (kv : KvMap) (p : RID) : (t : Ty) → t.Val → Prop
  | .num _, _ => True
  | .text, value => (kv.text p).curStoreOffset + (value.length + 1) ≤ storeSize

theorem LocalStore.put_isSome {α : Type} {zero : α} (s : LocalStore zero) (value : α) :
    (s.put value).isSome ↔ s.raw.freeList ≠ [] ∨ s.raw.store.length < maxLocalSlots := by
  have hraw : (s.put value).isSome = (s.raw.put value).isSome := by
    unfold LocalStore.put
    split
    next heq => simp [heq]
    next heq => simp [heq]
  rw [hraw]
  unfold ReusableLocalKVStore.put
  split
  next heq => simp [heq]
  next heq => simp [heq]

theorem Stores.putLocal_isSome (st : Stores) (t : Ty) (value : t.Val) :
    (st.putLocal t value).isSome ↔ st.LocalRoom t := by
  simp only [Stores.putLocal, Stores.put, if_true, Option.isSome_map]
  exact LocalStore.put_isSome (st.loc t) value

namespace KvMap

/-- A field can be put in a partition with a slot and bytes left. -/
theorem put_isSome (kv : KvMap) (t : Ty) (value : t.Val) (p : RID) :
    (kv.put t value p).isSome ↔
      p ≠ ridLocalPartition ∧ kv.curRid t p < maxKey t ∧ kv.ByteRoom p t value := by
  have hmax := maxKey_le t
  have hmask : ridMask.toNat = 2 ^ 48 - 1 := ridMask_toNat
  cases t with
  | num n =>
      by_cases hp : p = ridLocalPartition
      · simp [put, hp]
      · by_cases hk : (kv.num n p).curRid < maxArrayEleNum n.size
        · have hle : (kv.num n p).curRid ≤ ridMask.toNat := by
            simp only [maxKey] at hmax
            omega
          simp [put, hp, FileMapKVStore.put, hk, hle, curRid, maxKey, ByteRoom]
        · simp [put, hp, FileMapKVStore.put, hk, curRid, maxKey]
  | text =>
      by_cases hp : p = ridLocalPartition
      · simp [put, hp]
      · by_cases hk : (kv.text p).curRid < textMaxArrayEleNum
        · have hle : (kv.text p).curRid ≤ ridMask.toNat := by
            simp only [maxKey] at hmax
            omega
          by_cases hb : (kv.text p).curStoreOffset + (value.length + 1) ≤ storeSize
          · simp [put, hp, FileMapTextStore.put, FileMapTextStore.place, hk, hle, hb, curRid,
              maxKey, ByteRoom]
          · simp [put, hp, FileMapTextStore.put, FileMapTextStore.place, hk, hb, curRid, maxKey,
              ByteRoom]
        · simp [put, hp, FileMapTextStore.put, hk, curRid, maxKey]

/-- A slot of a file can be rewritten with bytes left. -/
theorem replace_isSome (kv : KvMap) (t : Ty) (key : RID) (value : t.Val) :
    (kv.replace t key value).isSome ↔
      ValidRid t key ∧ kv.ByteRoom (ridPartition key) t value := by
  rw [Option.isSome_iff_exists]
  cases t with
  | num n => simp [replace_num_eq_some, ByteRoom]
  | text => simp [replace_text_eq_some, FileMapTextStore.place_eq_some, ByteRoom]

end KvMap

/-! ## Safe requests -/

/-- The operands on which an operator traps. -/
def CalcOp.traps : (op : CalcOp) → op.ty.Val → op.ty.Val → Bool
  | .intDiv, l, r => divTraps l r
  | .intMod, l, r => divTraps l r
  | _, _, _ => false

/-- The bounds of a substring: its length has a buffer, and its start lies in the text unless
the length is zero. -/
def substrInside (t : CStr) (start length : Num.int.Val) : Prop :=
  0 ≤ length.toInt ∧ length.toInt < 2 ^ 31 - 1 ∧
    (length.toInt = 0 ∨ 1 ≤ start.toInt ∧ start.toInt ≤ t.length + 1)

/-- What must hold in the stores for a request to be handled. -/
def Request.Safe (frames : Nat) (g : Gcm) (st : Stores) : Request → Prop
  | .calculate op left right =>
      (∀ l r, st.get op.ty left = some l → st.get op.ty right = some r → op.traps l r = false) ∧
        st.LocalRoom op.ty
  | .cmp .textLike _ pattern =>
      ∀ p, st.get .text pattern = some p → MatchText.percents p.bytes < frames
  | .intSumBulk _ => st.LocalRoom .int
  | .floatSumBulk _ => st.LocalRoom .float
  | .extractYear _ => st.LocalRoom .int
  | .substring str start length =>
      (∀ t s l, st.get .text str = some t → st.get .int start = some s →
        st.get .int length = some l → substrInside t s l) ∧ st.LocalRoom .text
  | .putEnc t cipher => (decryptPlain g t cipher).isSome ∧ st.LocalRoom t
  | .put ⟨t, value⟩ =>
      st.kv.curRid t Partition.default.val < KvMap.maxKey t ∧
        st.kv.ByteRoom Partition.default.val t value
  | .getEnc .text key => ∀ value, st.get .text key = some value → value.length < stringLength
  | .getText key =>
      islocal key = true ∨
        (st.kv.text (ridPartition key)).offsets (ridIndex key).toNat + stringLength ≤ storeSize
  | .promote t loc target partition => ∀ value, st.get t loc = some value →
      if target = invalidRid then
        partition ≠ ridLocalPartition ∧ st.kv.curRid t partition < KvMap.maxKey t ∧
          st.kv.ByteRoom partition t value
      else KvMap.ValidRid t target ∧ st.kv.ByteRoom (ridPartition target) t value
  | _ => True

section

variable {e : Env} {g : Gcm} {tee : Tee} {frames : Nat}

theorem textSubstr_isSome (t : CStr) (start length : Num.int.Val) :
    (textSubstr t start length).isSome ↔ substrInside t start length := by
  have hstart : 0 ≤ start.toInt - 1 ∧ start.toInt - 1 ≤ t.length ↔
      1 ≤ start.toInt ∧ start.toInt ≤ t.length + 1 := by omega
  simp only [textSubstr, substrInside, hstart, Option.isSome_ite]

/-- A promotion reads the local field and then puts or replaces the global one. -/
theorem put_isSome {st : Stores} {t : Ty} {value : t.Val} {target partition : RID} :
    (st.put t target value false partition).isSome ↔
      if target = invalidRid then
        partition ≠ ridLocalPartition ∧ st.kv.curRid t partition < KvMap.maxKey t ∧
          st.kv.ByteRoom partition t value
      else KvMap.ValidRid t target ∧ st.kv.ByteRoom (ridPartition target) t value := by
  by_cases htarget : target = invalidRid
  · simp only [Stores.put, htarget, Bool.false_eq_true, if_false, ne_eq, not_true, if_true,
      Option.isSome_map, KvMap.put_isSome]
  · simp only [Stores.put, htarget, Bool.false_eq_true, if_false, ne_eq, not_false_iff, if_true,
      Option.isSome_map, KvMap.replace_isSome]

theorem handleCmp_eq (e : Env) (st : Stores) (op : CmpOp) (left right : RID) :
    handleCmp e st op left right = kvCmp e st op left right := by
  cases op <;> rfl

end

end Zeno
