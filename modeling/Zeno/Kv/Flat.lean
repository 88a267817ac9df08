import Zeno.Kv.Local

/-!
# The stores without partitions

Without `USE_KVMAP_PARTITION` there is one file for each type, a global RID is the
number of its slot, and the top bit of a RID says that it is local.  The files are
those of one partition of `KvMap`, whose RIDs are the same numbers.

`Stores.FlatAlive` and `Stores.FlatLive` say what a global and a local RID denote in
this build, and each call has a lemma that says what becomes of both.
-/

namespace Zeno

/-! ## RIDs -/

/-- `RID_MASK`. -/
def flatRidMask : RID := (1 <<< 63) - 1

/-- `islocal`. -/
def flatIslocal (id : RID) : Bool := (id &&& ~~~ flatRidMask) != 0

/-- `idx2local`. -/
def flatIdx2local (idx : RID) : RID := idx ||| ~~~ flatRidMask

/-- `local2idx`. -/
def flatLocal2idx (id : RID) : RID := id &&& flatRidMask

theorem flatIslocal_eq_msb (id : RID) : flatIslocal id = id.msb := by
  have hmask : ~~~ flatRidMask = BitVec.twoPow 64 63 := by decide
  rw [flatIslocal, hmask, BitVec.and_twoPow, BitVec.msb_eq_getLsbD_last]
  cases h : id.getLsbD (64 - 1) with
  | true => simp_all
  | false => simp_all

theorem flatIslocal_of_lt {id : RID} (h : id.toNat < 2 ^ 48) : flatIslocal id = false := by
  rw [flatIslocal_eq_msb, BitVec.msb_eq_false_iff_two_mul_lt]
  omega

theorem flatIslocal_idx2local (idx : RID) : flatIslocal (flatIdx2local idx) = true := by
  have hmask : ~~~ flatRidMask = BitVec.twoPow 64 63 := by decide
  rw [flatIslocal_eq_msb, flatIdx2local, BitVec.msb_or, hmask]
  simp [BitVec.msb_twoPow]

theorem toNat_flatLocal2idx (id : RID) : (flatLocal2idx id).toNat = id.toNat % 2 ^ 63 := by
  have hmask : flatRidMask.toNat = 2 ^ 63 - 1 := by decide
  rw [flatLocal2idx, BitVec.toNat_and, hmask, Nat.and_two_pow_sub_one_eq_mod]

theorem flatLocal2idx_idx2local {k : Nat} (hk : k < 2 ^ 48) :
    (flatLocal2idx (flatIdx2local (BitVec.ofNat 64 k))).toNat = k := by
  have hmask : (~~~ flatRidMask).toNat = 2 ^ 63 := by decide
  rw [toNat_flatLocal2idx, flatIdx2local, BitVec.toNat_or, hmask, BitVec.toNat_ofNat,
    Nat.mod_eq_of_lt (by omega : k < 2 ^ 64), Nat.or_comm]
  have hor : 2 ^ 63 ||| k = 2 ^ 63 + k := by
    have := Nat.two_pow_add_eq_or_of_lt (by omega : k < 2 ^ 63) 1
    simpa using this.symm
  rw [hor]
  omega

/-- A local RID is determined by its slot. -/
theorem flat_local_ext {id id' : RID} (h : flatIslocal id = true) (h' : flatIslocal id' = true)
    (hidx : (flatLocal2idx id).toNat = (flatLocal2idx id').toNat) : id = id' := by
  rw [flatIslocal_eq_msb, BitVec.msb_eq_true_iff_two_mul_ge] at h h'
  rw [toNat_flatLocal2idx, toNat_flatLocal2idx] at hidx
  apply BitVec.eq_of_toNat_eq
  have := id.isLt
  have := id'.isLt
  omega

/-- The RIDs of the partition that stands for the files are the numbers of the slots. -/
theorem default_rid_toNat {key : RID} (h : key.toNat < 2 ^ 48) :
    Partition.default.rid key.toNat = key := by
  refine rid_ext ?_ ?_
  · rw [Partition.ridPartition_rid]
    apply BitVec.eq_of_toNat_eq
    show 0 = (key >>> 48).toNat
    rw [BitVec.toNat_ushiftRight, Nat.shiftRight_eq_div_pow, Nat.div_eq_of_lt h]
  · rw [Partition.ridIndex_rid _ h, toNat_ridIndex, Nat.mod_eq_of_lt h]

theorem toNat_default_rid {k : Nat} (h : k < 2 ^ 48) : (Partition.default.rid k).toNat = k := by
  have hmod : (BitVec.ofNat 64 k).toNat = k := by
    rw [BitVec.toNat_ofNat, Nat.mod_eq_of_lt (by omega)]
  have hrid := @default_rid_toNat (BitVec.ofNat 64 k) (by rw [hmod]; exact h)
  rw [hmod] at hrid
  rw [hrid, hmod]

/-! ## The calls -/

/-- `kv_ops.getInt` and its siblings. -/
def KvMap.flatGet (kv : KvMap) (t : Ty) (key : RID) : Option t.Val :=
  if key.toNat < maxKey t then kv.get t (Partition.default.rid key.toNat) else none

/-- `kv_ops.replaceInt` and its siblings. -/
def KvMap.flatReplace (kv : KvMap) (t : Ty) (key : RID) (value : t.Val) : Option KvMap :=
  if key.toNat < maxKey t then kv.replace t (Partition.default.rid key.toNat) value else none

namespace Stores

/-- `putInt(key, value, local)` and its siblings. -/
def flatPut (st : Stores) (t : Ty) (key : RID) (value : t.Val) (isLocal : Bool) :
    Option (RID × Stores) :=
  if isLocal then
    ((st.loc t).put value).map fun (k, s) =>
      (flatIdx2local (BitVec.ofNat 64 k), { st with loc := st.loc.set t s })
  else if key ≠ invalidRid then
    (st.kv.flatReplace t key value).map fun kv => (key, { st with kv := kv })
  else
    (st.kv.put t value Partition.default.val).map fun (rid, kv) => (rid, { st with kv := kv })

/-- `getInt(key)` and its siblings. -/
def flatGet (st : Stores) (t : Ty) (key : RID) : Option t.Val :=
  if flatIslocal key then (st.loc t).get (flatLocal2idx key).toNat else st.kv.flatGet t key

/-- `freeLocalInt(key)` and its siblings. -/
def flatFreeLocal (st : Stores) (t : Ty) (key : RID) : Stores :=
  if flatIslocal key then
    { st with loc := st.loc.set t ((st.loc t).erase (flatLocal2idx key).toNat) }
  else st

/-- The handler of `CMD_PROMOTE_*`. -/
def flatPromote (st : Stores) (t : Ty) (loc target : RID) : Option (RID × Stores) := do
  let value ← st.flatGet t loc
  let (rid, st') ← st.flatPut t target value false
  some (rid, st'.flatFreeLocal t loc)

/-- A global RID denotes a value. -/
structure FlatAlive (st : Stores) (t : Ty) (key : RID) (value : t.Val) : Prop where
  /-- It is the number of a slot. -/
  slot : key.toNat < KvMap.maxKey t
  /-- The slot was given out and holds the value. -/
  alive : st.kv.Alive t key value

/-- A local RID denotes a value. -/
structure FlatLive (st : Stores) (t : Ty) (key : RID) (value : t.Val) : Prop where
  /-- It is local. -/
  isLocal : flatIslocal key = true
  /-- Its slot is in use and holds the value. -/
  live : st.loc.map t (flatLocal2idx key).toNat = some value

variable {st st' : Stores} {t t' : Ty} {key key' rid : RID}

theorem FlatAlive.small {value : t.Val} (h : st.FlatAlive t key value) : key.toNat < 2 ^ 48 :=
  h.slot.trans (KvMap.maxKey_le t)

theorem FlatAlive.global {value : t.Val} (h : st.FlatAlive t key value) :
    flatIslocal key = false :=
  flatIslocal_of_lt h.small

theorem FlatAlive.ne_invalid {value : t.Val} (h : st.FlatAlive t key value) :
    key ≠ invalidRid := by
  rintro rfl
  exact absurd h.small (by decide)

theorem FlatAlive.get {value : t.Val} (h : st.FlatAlive t key value) :
    st.flatGet t key = some value := by
  rw [flatGet, h.global, if_neg Bool.false_ne_true, KvMap.flatGet, if_pos h.slot,
    default_rid_toNat h.small]
  exact h.alive.stored.get

theorem FlatLive.get {value : t.Val} (h : st.FlatLive t key value) :
    st.flatGet t key = some value := by
  rw [flatGet, if_pos h.isLocal]
  exact LocalStore.get_of_map h.live

/-- What a global RID denotes depends on the files only. -/
theorem FlatAlive.of_kv {value : t.Val} (h : st.FlatAlive t key value) (hkv : st'.kv = st.kv) :
    st'.FlatAlive t key value :=
  ⟨h.slot, hkv ▸ h.alive⟩

/-- What a local RID denotes depends on the local store only. -/
theorem FlatLive.of_loc {value : t.Val} (h : st.FlatLive t key value) (hloc : st'.loc = st.loc) :
    st'.FlatLive t key value :=
  ⟨h.isLocal, hloc ▸ h.live⟩

/-- A fresh global `put`: its RID denoted nothing, and everything else stays. -/
theorem flatPut_fresh {value : t.Val} (h : st.flatPut t invalidRid value false = some (rid, st')) :
    st'.loc = st.loc ∧ st'.FlatAlive t rid value ∧ (∀ v, ¬ st.FlatAlive t rid v) ∧
      ∀ {t' key'} {v : t'.Val}, st.FlatAlive t' key' v → st'.FlatAlive t' key' v := by
  simp only [flatPut, Bool.false_eq_true, if_false, ne_eq, not_true_eq_false,
    Option.map_eq_some_iff] at h
  obtain ⟨⟨rid', kv⟩, hput, heq⟩ := h
  cases heq
  have halive := KvMap.put_alive hput
  obtain ⟨hk, hrid⟩ := KvMap.put_rid hput
  have hsmall := hk.trans (KvMap.maxKey_le t)
  have hslot : rid'.toNat < KvMap.maxKey t := by
    rw [hrid, toNat_default_rid hsmall]
    exact hk
  refine ⟨rfl, ⟨hslot, halive⟩, fun v hv => ?_, fun hv => ⟨hv.slot, hv.alive.put hput⟩⟩
  have hlt := hv.alive.allocated
  rw [hrid, Partition.ridPartition_rid, Partition.ridIndex_rid _ hsmall] at hlt
  exact Nat.lt_irrefl _ hlt

/-- A `put` over a RID that was given out: everything else stays. -/
theorem flatPut_target {value v₀ : t.Val} (hold : st.FlatAlive t key v₀)
    (h : st.flatPut t key value false = some (rid, st')) :
    rid = key ∧ st'.loc = st.loc ∧ st'.FlatAlive t key value ∧
      ∀ {t' key'} {v : t'.Val}, (t', key') ≠ (t, key) → st.FlatAlive t' key' v →
        st'.FlatAlive t' key' v := by
  simp only [flatPut, Bool.false_eq_true, if_false, hold.ne_invalid, ne_eq, not_false_eq_true,
    if_true, KvMap.flatReplace, hold.slot, default_rid_toNat hold.small,
    Option.map_eq_some_iff] at h
  obtain ⟨kv, hreplace, heq⟩ := h
  cases heq
  have hcur := (KvMap.replace_frame hreplace).curRid
  refine ⟨rfl, rfl, ⟨hold.slot, KvMap.replace_stored hreplace,
    hold.alive.allocated.trans_le (hcur _ _)⟩, fun hne hv => ?_⟩
  exact ⟨hv.slot, KvMap.replace_stored_ne hreplace hne hv.alive.stored,
    hv.alive.allocated.trans_le (hcur _ _)⟩

/-- A local `put`: its RID denoted nothing, and everything else stays. -/
theorem flatPut_local {value : t.Val} (h : st.flatPut t key value true = some (rid, st')) :
    st'.kv = st.kv ∧ st'.FlatLive t rid value ∧
      ∀ {t' key'} {v : t'.Val}, st.FlatLive t' key' v → st'.FlatLive t' key' v := by
  simp only [flatPut, if_true, Option.map_eq_some_iff] at h
  obtain ⟨⟨k, s⟩, hput, heq⟩ := h
  cases heq
  obtain ⟨hnone, hmap⟩ := LocalStore.put_map hput
  have hidx := flatLocal2idx_idx2local (LocalStore.put_lt hput)
  refine ⟨rfl, ⟨flatIslocal_idx2local _, ?_⟩, fun {t'} {key'} {v} hv => ⟨hv.isLocal, ?_⟩⟩
  · rw [hidx, LocalKVStoreOperator.map_set_self, hmap, Function.update_self]
  · by_cases ht : t' = t
    · subst ht
      have hne : (flatLocal2idx key').toNat ≠ k := by
        intro he
        have hlive := hv.live
        rw [LocalKVStoreOperator.map, he, hnone] at hlive
        cases hlive
      rw [LocalKVStoreOperator.map_set_self, hmap, Function.update_of_ne hne]
      exact hv.live
    · rw [LocalKVStoreOperator.map_set_of_ne _ _ ht]
      exact hv.live

theorem flatFreeLocal_kv (st : Stores) (t : Ty) (key : RID) :
    (st.flatFreeLocal t key).kv = st.kv := by
  unfold flatFreeLocal
  split <;> rfl

/-- Freeing a RID keeps what every other local RID denotes. -/
theorem FlatLive.free {value : t'.Val} (h : st.FlatLive t' key' value)
    (hne : (t', key') ≠ (t, key)) : (st.flatFreeLocal t key).FlatLive t' key' value := by
  unfold flatFreeLocal
  split
  next hl =>
    refine ⟨h.isLocal, ?_⟩
    by_cases ht : t' = t
    · subst ht
      have hidx : (flatLocal2idx key').toNat ≠ (flatLocal2idx key).toNat :=
        fun he => hne (by rw [flat_local_ext h.isLocal hl he])
      rw [LocalKVStoreOperator.map_set_self, LocalStore.erase_map, Function.update_of_ne hidx]
      exact h.live
    · rw [LocalKVStoreOperator.map_set_of_ne _ _ ht]
      exact h.live
  next => exact h

/-- A promotion puts the value read and frees the RID read. -/
theorem flatPromote_eq_some {loc target : RID} :
    st.flatPromote t loc target = some (rid, st') ↔
      ∃ value u, st.flatGet t loc = some value ∧ st.flatPut t target value false = some (rid, u) ∧
        st' = u.flatFreeLocal t loc := by
  simp only [flatPromote, Option.bind_eq_bind, Option.bind_eq_some_iff]
  constructor
  · rintro ⟨value, hget, ⟨rid', u⟩, hput, heq⟩
    cases heq
    exact ⟨value, u, hget, hput, rfl⟩
  · rintro ⟨value, u, hget, hput, rfl⟩
    exact ⟨value, hget, (rid, u), hput, rfl⟩

end Stores

end Zeno
