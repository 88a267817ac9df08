import Zeno.Kv.FileMap

/-!
# The local store of a worker

Each worker keeps the results of expressions in a process-local store
(`kv-local.hpp`): a vector of values, a vector of liveness marks and a free
list.  `put` reuses the slot freed last, and `erase` resets a live slot to the
value of an empty one.  What these vectors mean is a finite partial map from
slots to values (`LocalStore.map`).  `put` adds a key that was not in
the map, `erase` removes one, `clear` empties it.

The operator of `kv.hpp` joins the local store and the mapped files.  A RID
tells by its partition which of the two it belongs to.  `Stores.Denotes` is
what a RID means to a worker: an entry of its local map, or a field given out
by the files.  Local operations and puts keep the meaning of every other RID.
-/

namespace Zeno

/-! ## Slots that are reused -/

/-- More slots than a process can address: user space has `2 ^ 47` bytes. -/
def maxLocalSlots : Nat := 2 ^ 47

/-- `ReusableLocalKVStore<ValueType>`. -/
structure ReusableLocalKVStore (α : Type) where
  /-- The values. -/
  store : List α
  /-- Which slots are in use. -/
  live : List Bool
  /-- The slots to reuse, the last one freed first. -/
  freeList : List Nat

namespace ReusableLocalKVStore

variable {α : Type} {zero : α}

/-- The store of a new worker. -/
def empty : ReusableLocalKVStore α := ⟨[], [], []⟩

/-- `ReusableLocalKVStore::put`.  `push_back` throws when the memory is exhausted. -/
def put (s : ReusableLocalKVStore α) (value : α) : Option (Nat × ReusableLocalKVStore α) :=
  match s.freeList with
  | key :: rest =>
      some (key,
        { store := s.store.set key value, live := s.live.set key true, freeList := rest })
  | [] =>
      if s.store.length < maxLocalSlots then
        some (s.store.length, { s with store := s.store ++ [value], live := s.live ++ [true] })
      else none

/-- `ReusableLocalKVStore::get`.  Reading past the end is undefined. -/
def get (s : ReusableLocalKVStore α) (key : Nat) : Option α := s.store[key]?

/-- `ReusableLocalKVStore::erase`, where `zero` is `ValueType()`. -/
def erase (zero : α) (s : ReusableLocalKVStore α) (key : Nat) : ReusableLocalKVStore α :=
  if s.live[key]? = some true then
    { store := s.store.set key zero
      live := s.live.set key false
      freeList := key :: s.freeList }
  else s

/-- `ReusableLocalKVStore::clear`. -/
def clear (_ : ReusableLocalKVStore α) : ReusableLocalKVStore α := empty

/-- What `put`, `erase` and `clear` keep. -/
structure WellFormed (zero : α) (s : ReusableLocalKVStore α) : Prop where
  /-- The two vectors grow together. -/
  sized : s.live.length = s.store.length
  /-- They fit in memory. -/
  small : s.store.length ≤ maxLocalSlots
  /-- A slot out of use was reset. -/
  dead : ∀ k : Nat, s.live[k]? = some false → s.store[k]? = some zero
  /-- No slot is freed twice. -/
  free_nodup : s.freeList.Nodup
  /-- Only slots out of use are reused. -/
  free_dead : ∀ k ∈ s.freeList, s.live[k]? = some false

theorem wellFormed_empty : (empty : ReusableLocalKVStore α).WellFormed zero where
  sized := rfl
  small := Nat.zero_le _
  dead k h := by simp [empty] at h
  free_nodup := List.nodup_nil
  free_dead k h := by simp [empty] at h

theorem put_eq_some {s s' : ReusableLocalKVStore α} {value : α} {key : Nat}
    (h : s.put value = some (key, s')) :
    (∃ rest, s.freeList = key :: rest ∧
      s' = { store := s.store.set key value, live := s.live.set key true, freeList := rest }) ∨
    (s.freeList = [] ∧ s.store.length < maxLocalSlots ∧ key = s.store.length ∧
      s' = { s with store := s.store ++ [value], live := s.live ++ [true] }) := by
  unfold put at h
  split at h
  next key' rest hfree =>
    simp only [Option.some.injEq, Prod.mk.injEq] at h
    obtain ⟨rfl, rfl⟩ := h
    exact .inl ⟨rest, hfree, rfl⟩
  next hfree =>
    simp only [Option.ite_none_right_eq_some, Option.some.injEq, Prod.mk.injEq] at h
    obtain ⟨room, rfl, rfl⟩ := h
    exact .inr ⟨hfree, room, rfl, rfl⟩

theorem WellFormed.put {s s' : ReusableLocalKVStore α} {value : α} {key : Nat}
    (wf : s.WellFormed zero) (h : s.put value = some (key, s')) : s'.WellFormed zero := by
  obtain ⟨rest, hfree, rfl⟩ | ⟨hfree, room, rfl, rfl⟩ := put_eq_some h
  · obtain ⟨hnew, hnodup⟩ := List.nodup_cons.mp (hfree ▸ wf.free_nodup)
    refine ⟨by simpa using wf.sized, by simpa using wf.small, fun k hk => ?_, hnodup,
      fun k hk => ?_⟩
    · have hne : key ≠ k := by
        rintro rfl
        rw [List.getElem?_set_self'] at hk
        cases hl : s.live[key]? <;> simp [hl] at hk
      rw [List.getElem?_set_ne hne] at hk ⊢
      exact wf.dead k hk
    · have hne : key ≠ k := by
        rintro rfl
        exact hnew hk
      rw [List.getElem?_set_ne hne]
      exact wf.free_dead k (by rw [hfree]; exact List.mem_cons_of_mem _ hk)
  · have hsized := wf.sized
    refine ⟨by simp [hsized], by simpa using Nat.succ_le_of_lt room, fun k hk => ?_,
      wf.free_nodup, fun k hk => ?_⟩
    · rcases Nat.lt_trichotomy k s.live.length with hlt | rfl | hgt
      · rw [List.getElem?_append_left hlt] at hk
        rw [List.getElem?_append_left (by omega)]
        exact wf.dead k hk
      · simp at hk
      · rw [List.getElem?_eq_none (by simp; omega)] at hk
        cases hk
    · rw [hfree] at hk
      cases hk

theorem WellFormed.erase {s : ReusableLocalKVStore α} (wf : s.WellFormed zero) (key : Nat) :
    (s.erase zero key).WellFormed zero := by
  unfold ReusableLocalKVStore.erase
  split
  next hlive =>
    have hlt := (List.getElem?_eq_some_iff.mp hlive).1
    have hsized := wf.sized
    refine ⟨by simpa using wf.sized, by simpa using wf.small, fun k hk => ?_,
      List.nodup_cons.mpr ⟨fun hmem => ?_, wf.free_nodup⟩, fun k hk => ?_⟩
    · by_cases hne : key = k
      · subst hne
        rw [List.getElem?_set_self (by omega)]
      · rw [List.getElem?_set_ne hne] at hk ⊢
        exact wf.dead k hk
    · have hdead := wf.free_dead key hmem
      rw [hlive] at hdead
      cases hdead
    · by_cases hne : key = k
      · subst hne
        rw [List.getElem?_set_self hlt]
      · rw [List.getElem?_set_ne hne]
        exact wf.free_dead k ((List.mem_cons.mp hk).resolve_left (Ne.symm hne))
  next => exact wf

end ReusableLocalKVStore

/-- A local store as the server keeps it: no request calls anything but `put`, `get`,
`erase` and `clear`. -/
structure LocalStore {α : Type} (zero : α) where
  /-- The vectors. -/
  raw : ReusableLocalKVStore α
  /-- They are well formed. -/
  wf : raw.WellFormed zero

namespace LocalStore

variable {α : Type} {zero : α}

/-- The store of a new worker. -/
def empty : LocalStore zero := ⟨.empty, ReusableLocalKVStore.wellFormed_empty⟩

/-- `put` on a store as the server keeps it. -/
def put (s : LocalStore zero) (value : α) : Option (Nat × LocalStore zero) :=
  match h : s.raw.put value with
  | some (key, raw) => some (key, ⟨raw, s.wf.put h⟩)
  | none => none

/-- `get` on a store as the server keeps it. -/
def get (s : LocalStore zero) (key : Nat) : Option α := s.raw.get key

/-- `erase` on a store as the server keeps it. -/
def erase (s : LocalStore zero) (key : Nat) : LocalStore zero :=
  ⟨s.raw.erase zero key, s.wf.erase key⟩

/-- `clear` on a store as the server keeps it. -/
def clear (s : LocalStore zero) : LocalStore zero :=
  ⟨s.raw.clear, ReusableLocalKVStore.wellFormed_empty⟩

theorem put_raw {s s' : LocalStore zero} {value : α} {key : Nat}
    (h : s.put value = some (key, s')) : s.raw.put value = some (key, s'.raw) := by
  unfold put at h
  split at h
  next hput =>
    simp only [Option.some.injEq, Prod.mk.injEq] at h
    obtain ⟨rfl, rfl⟩ := h
    exact hput
  next => cases h

theorem put_of_raw (s : LocalStore zero) {value : α} {key : Nat} {raw : ReusableLocalKVStore α}
    (h : s.raw.put value = some (key, raw)) : s.put value = some (key, ⟨raw, s.wf.put h⟩) := by
  unfold put
  split
  next key' raw' hput =>
    cases h.symm.trans hput
    rfl
  next hnone => cases h.symm.trans hnone

/-- A value can be put where there is memory for one more slot. -/
theorem put_room (s : LocalStore zero) (value : α) (h : s.raw.store.length < maxLocalSlots) :
    ∃ key s', s.put value = some (key, s') := by
  have hraw : ∃ key raw, s.raw.put value = some (key, raw) := by
    unfold ReusableLocalKVStore.put
    split
    next => exact ⟨_, _, rfl⟩
    next => exact ⟨_, _, if_pos h⟩
  obtain ⟨key, raw, hput⟩ := hraw
  exact ⟨key, _, s.put_of_raw hput⟩

/-- `put` adds at most one slot. -/
theorem length_put_le {s s' : LocalStore zero} {value : α} {key : Nat}
    (h : s.put value = some (key, s')) :
    s.raw.store.length ≤ s'.raw.store.length ∧
      s'.raw.store.length ≤ s.raw.store.length + 1 := by
  obtain ⟨rest, -, hraw⟩ | ⟨-, -, -, hraw⟩ := ReusableLocalKVStore.put_eq_some (put_raw h)
  · simp [hraw]
  · simp [hraw]

/-- `erase` adds none. -/
theorem length_erase (s : LocalStore zero) (key : Nat) :
    (s.erase key).raw.store.length = s.raw.store.length := by
  simp only [erase, ReusableLocalKVStore.erase]
  split
  next => exact List.length_set
  next => rfl

/-! ## The partial map a store stands for -/

/-- The value of a slot in use. -/
def map (s : LocalStore zero) (key : Nat) : Option α :=
  if s.raw.live[key]? = some true then s.raw.store[key]? else none

@[simp] theorem map_empty (key : Nat) : (empty : LocalStore zero).map key = none := rfl

@[simp] theorem map_clear (s : LocalStore zero) (key : Nat) : s.clear.map key = none := rfl

/-- A slot of the map reads back. -/
theorem get_of_map {s : LocalStore zero} {key : Nat} {value : α}
    (h : s.map key = some value) : s.get key = some value := by
  simp only [map, Option.ite_none_right_eq_some] at h
  exact h.2

theorem live_of_map {s : LocalStore zero} {key : Nat} {value : α}
    (h : s.map key = some value) : s.raw.live[key]? = some true := by
  simp only [map, Option.ite_none_right_eq_some] at h
  exact h.1

theorem lt_of_map {s : LocalStore zero} {key : Nat} {value : α}
    (h : s.map key = some value) : key < s.raw.store.length := by
  rw [← s.wf.sized]
  exact (List.getElem?_eq_some_iff.mp (live_of_map h)).1

/-- `put` adds a slot that was not in use. -/
theorem put_map {s s' : LocalStore zero} {value : α} {key : Nat}
    (h : s.put value = some (key, s')) :
    s.map key = none ∧ s'.map = Function.update s.map key (some value) := by
  have hsized := s.wf.sized
  obtain ⟨rest, hfree, hraw⟩ | ⟨hfree, room, rfl, hraw⟩ :=
    ReusableLocalKVStore.put_eq_some (put_raw h)
  · have hdead := s.wf.free_dead key (by rw [hfree]; exact List.mem_cons_self)
    have hlt := (List.getElem?_eq_some_iff.mp hdead).1
    refine ⟨by simp [map, hdead], ?_⟩
    funext k
    by_cases hk : k = key
    · subst hk
      simp [map, hraw, hlt, hsized ▸ hlt]
    · simp [map, hraw, hk, List.getElem?_set_ne (Ne.symm hk)]
  · refine ⟨by simp [map, hsized], ?_⟩
    funext k
    rcases Nat.lt_trichotomy k s.raw.store.length with hlt | rfl | hgt
    · simp [map, hraw, List.getElem?_append_left, hlt, hsized, Nat.ne_of_lt hlt]
    · simp [map, hraw, ← hsized]
    · have hnone : s.raw.live[k]? = none := List.getElem?_eq_none (by omega)
      have hnone' : (s.raw.live ++ [true])[k]? = none := List.getElem?_eq_none (by simp; omega)
      simp [map, hraw, Nat.ne_of_gt hgt, hnone, hnone']

theorem put_lt {s s' : LocalStore zero} {value : α} {key : Nat}
    (h : s.put value = some (key, s')) : key < 2 ^ 48 := by
  have hmap : s'.map key = some value := by
    rw [(put_map h).2, Function.update_self]
  have := lt_of_map hmap
  have hsmall := s'.wf.small
  simp only [maxLocalSlots] at hsmall
  omega

/-- `erase` removes a slot. -/
theorem erase_map (s : LocalStore zero) (key : Nat) :
    (s.erase key).map = Function.update s.map key none := by
  funext k
  simp only [map, erase, ReusableLocalKVStore.erase]
  split
  next hlive =>
    by_cases hk : k = key
    · subst hk
      simp [(List.getElem?_eq_some_iff.mp hlive).1]
    · simp [map, hk, List.getElem?_set_ne (Ne.symm hk)]
  next hdead =>
    by_cases hk : k = key
    · subst hk
      simp [hdead]
    · simp [map, hk]

/-- A store with `n` slots, all of them in use. -/
def full (n : Nat) (h : n ≤ maxLocalSlots) (value : Nat → α) : LocalStore zero where
  raw := ⟨(List.range n).map value, List.replicate n true, []⟩
  wf :=
    { sized := by simp
      small := by simpa using h
      dead := fun k hk => by simp [List.getElem?_replicate] at hk
      free_nodup := List.nodup_nil
      free_dead := fun k hk => by simp at hk }

section Full

variable {n : Nat} {h : n ≤ maxLocalSlots} {value : Nat → α} {key : Nat}

theorem eq_of_get_full {x : α} (hx : (full n h value : LocalStore zero).get key = some x) :
    x = value key := by
  obtain ⟨i, hi, rfl⟩ := Option.map_eq_some_iff.mp ((List.getElem?_map ..).symm.trans hx)
  obtain ⟨hlt, rfl⟩ := List.getElem?_eq_some_iff.mp hi
  rw [List.getElem_range]

theorem map_full (hkey : key < n) :
    (full n h value : LocalStore zero).map key = some (value key) := by
  simp [map, full, hkey]

end Full

end LocalStore

/-! ## The operator over both stores -/

/-- `LocalKVStoreOperator`. -/
abbrev LocalKVStoreOperator := (t : Ty) → LocalStore t.zero

namespace LocalKVStoreOperator

/-- The local stores of a new worker. -/
def empty : LocalKVStoreOperator := fun _ => .empty

/-- Change the store of a type. -/
def set (loc : LocalKVStoreOperator) (t : Ty) (s : LocalStore t.zero) :
    LocalKVStoreOperator :=
  Function.update loc t s

/-- `LocalKVStoreOperator::clear`. -/
def clear (loc : LocalKVStoreOperator) : LocalKVStoreOperator := fun t => (loc t).clear

/-- The value of a slot in use, by type. -/
def map (loc : LocalKVStoreOperator) (t : Ty) (key : Nat) : Option t.Val := (loc t).map key

theorem map_set_self (loc : LocalKVStoreOperator) (t : Ty) (s : LocalStore t.zero)
    (key : Nat) : (loc.set t s).map t key = s.map key := by
  simp [map, set]

theorem map_set_of_ne (loc : LocalKVStoreOperator) {t t' : Ty} (s : LocalStore t.zero)
    (h : t' ≠ t) (key : Nat) : (loc.set t s).map t' key = loc.map t' key := by
  simp [map, set, h]

end LocalKVStoreOperator

/-- The stores as one worker sees them. -/
structure Stores where
  /-- `localkv_ops`. -/
  loc : LocalKVStoreOperator
  /-- The files behind `kv_ops`. -/
  kv : KvMap

namespace Stores

/-- `putInt(key, value, local, partition)` and its siblings, `kv.hpp`. -/
def put (st : Stores) (t : Ty) (key : RID) (value : t.Val) (isLocal : Bool) (partition : RID) :
    Option (RID × Stores) :=
  if isLocal then
    ((st.loc t).put value).map fun (k, s) =>
      (idx2local (BitVec.ofNat 64 k), { st with loc := st.loc.set t s })
  else if key ≠ invalidRid then
    (st.kv.replace t key value).map fun kv => (key, { st with kv := kv })
  else
    (st.kv.put t value partition).map fun (rid, kv) => (rid, { st with kv := kv })

/-- `getInt(key)` and its siblings, `kv.hpp`. -/
def get (st : Stores) (t : Ty) (key : RID) : Option t.Val :=
  if islocal key then (st.loc t).get (local2idx key).toNat else st.kv.get t key

/-- `freeLocalInt(key)` and its siblings, `kv.hpp`. -/
def freeLocal (st : Stores) (t : Ty) (key : RID) : Stores :=
  if islocal key then
    { st with loc := st.loc.set t ((st.loc t).erase (local2idx key).toNat) }
  else st

/-- The slots the local store of a type has, in use or not. -/
def slots (st : Stores) (t : Ty) : Nat := (st.loc t).raw.store.length

/-! ## What a RID denotes to a worker -/

/-- A RID denotes a value: it is a slot in use of the local store, or a field given
out by the files. -/
def Denotes (st : Stores) (t : Ty) (key : RID) (value : t.Val) : Prop :=
  if islocal key then st.loc.map t (local2idx key).toNat = some value
  else st.kv.Alive t key value

variable {st st' : Stores} {t t' : Ty} {key key' rid : RID}

theorem denotes_local (h : islocal key = true) {value : t.Val} :
    st.Denotes t key value ↔ st.loc.map t (local2idx key).toNat = some value := by
  simp [Denotes, h]

theorem denotes_global (h : islocal key = false) {value : t.Val} :
    st.Denotes t key value ↔ st.kv.Alive t key value := by
  simp [Denotes, h]

theorem get_global (h : islocal key = false) : st.get t key = st.kv.get t key := by
  simp [Stores.get, h]

/-- What a RID denotes is what it reads as. -/
theorem Denotes.get {value : t.Val} (h : st.Denotes t key value) : st.get t key = some value := by
  unfold Stores.get
  split
  next hl => exact LocalStore.get_of_map ((denotes_local hl).mp h)
  next hl => exact ((denotes_global (by simpa using hl)).mp h).stored.get

theorem Denotes.unique {v w : t.Val} (h : st.Denotes t key v) (h' : st.Denotes t key w) :
    v = w :=
  Option.some.inj (h.get.symm.trans h'.get)

/-- Two local RIDs of one slot are equal. -/
theorem local_ext (h : islocal key = true) (h' : islocal key' = true)
    (hidx : (local2idx key).toNat = (local2idx key').toNat) : key = key' := by
  simp only [islocal, beq_iff_eq] at h h'
  exact rid_ext (h.trans h'.symm) hidx

/-- A local `put` returns a RID that denoted nothing, and that denotes the value. -/
theorem put_local_denotes {value : t.Val} {partition : RID}
    (h : st.put t key value true partition = some (rid, st')) :
    islocal rid = true ∧ (∀ v, ¬ st.Denotes t rid v) ∧ st'.Denotes t rid value := by
  simp only [put, if_true, Option.map_eq_some_iff] at h
  obtain ⟨⟨k, s⟩, hput, heq⟩ := h
  obtain ⟨rfl, rfl⟩ := Prod.mk.inj heq
  obtain ⟨hnone, hmap⟩ := LocalStore.put_map hput
  have hidx := local2idx_idx2local (LocalStore.put_lt hput)
  have hloc := islocal_idx2local (BitVec.ofNat 64 k)
  refine ⟨hloc, fun v hv => ?_, ?_⟩
  · rw [denotes_local hloc, hidx, LocalKVStoreOperator.map, hnone] at hv
    cases hv
  · rw [denotes_local hloc, hidx, LocalKVStoreOperator.map_set_self, hmap, Function.update_self]

/-- A local `put` keeps what every RID denotes. -/
theorem Denotes.put_local {value : t.Val} {value' : t'.Val} {partition : RID}
    (held : st.Denotes t' key' value')
    (h : st.put t key value true partition = some (rid, st')) : st'.Denotes t' key' value' := by
  have hfresh := (put_local_denotes h).2.1
  have hlrid := (put_local_denotes h).1
  simp only [put, if_true, Option.map_eq_some_iff] at h
  obtain ⟨⟨k, s⟩, hput, heq⟩ := h
  obtain ⟨rfl, rfl⟩ := Prod.mk.inj heq
  by_cases hl : islocal key' = true
  · rw [denotes_local hl] at held ⊢
    by_cases ht : t' = t
    · subst ht
      have hidx := local2idx_idx2local (LocalStore.put_lt hput)
      have hne : (local2idx key').toNat ≠ k := by
        intro he
        have := local_ext hl hlrid (he.trans hidx.symm)
        subst this
        exact hfresh _ ((denotes_local hl).mpr held)
      rw [LocalKVStoreOperator.map_set_self, (LocalStore.put_map hput).2,
        Function.update_of_ne hne]
      exact held
    · rw [LocalKVStoreOperator.map_set_of_ne _ _ ht]
      exact held
  · have hg : islocal key' = false := by simpa using hl
    rw [denotes_global hg] at held ⊢
    exact held

/-- A global `put` of a fresh field. -/
theorem put_global_eq_some {value : t.Val} {partition : RID} :
    st.put t invalidRid value false partition = some (rid, st') ↔
      ∃ kv, st.kv.put t value partition = some (rid, kv) ∧ st' = { st with kv := kv } := by
  simp [put, eq_comm]

theorem put_global_denotes {value : t.Val} {p : Partition}
    (h : st.put t invalidRid value false p.val = some (rid, st')) :
    islocal rid = false ∧ ridPartition rid = p.val ∧ st'.Denotes t rid value := by
  obtain ⟨kv, hput, rfl⟩ := put_global_eq_some.mp h
  have halive := KvMap.put_alive hput
  obtain ⟨-, rfl⟩ := KvMap.put_rid hput
  exact ⟨p.islocal_rid _, p.ridPartition_rid _, (denotes_global (p.islocal_rid _)).mpr halive⟩

/-- A global `put` keeps what every RID denotes. -/
theorem Denotes.put_global {value : t.Val} {value' : t'.Val} {p : Partition}
    (held : st.Denotes t' key' value')
    (h : st.put t invalidRid value false p.val = some (rid, st')) :
    st'.Denotes t' key' value' := by
  obtain ⟨kv, hput, rfl⟩ := put_global_eq_some.mp h
  by_cases hl : islocal key' = true
  · rw [denotes_local hl] at held ⊢
    exact held
  · have hg : islocal key' = false := by simpa using hl
    rw [denotes_global hg] at held ⊢
    exact held.put hput

/-- Freeing a RID keeps what every other RID denotes. -/
theorem Denotes.freeLocal {value' : t'.Val} (held : st.Denotes t' key' value')
    (hne : (t', key') ≠ (t, key)) : (st.freeLocal t key).Denotes t' key' value' := by
  unfold Stores.freeLocal
  split
  next hl =>
    by_cases hl' : islocal key' = true
    · rw [denotes_local hl'] at held ⊢
      by_cases ht : t' = t
      · subst ht
        have hidx : (local2idx key').toNat ≠ (local2idx key).toNat :=
          fun he => hne (by rw [local_ext hl' hl he])
        rw [LocalKVStoreOperator.map_set_self, LocalStore.erase_map,
          Function.update_of_ne hidx]
        exact held
      · rw [LocalKVStoreOperator.map_set_of_ne _ _ ht]
        exact held
    · have hg : islocal key' = false := by simpa using hl'
      rw [denotes_global hg] at held ⊢
      exact held
  next => exact held

@[simp] theorem freeLocal_kv : (st.freeLocal t key).kv = st.kv := by
  unfold freeLocal
  split <;> rfl

/-- Freeing a global RID does nothing. -/
theorem freeLocal_global (h : islocal key = false) : st.freeLocal t key = st := by
  simp [freeLocal, h]

/-- Freeing a RID keeps what the files denote. -/
theorem Denotes.freeLocal_of_global {value' : t'.Val} (held : st.Denotes t' key' value')
    (hg : islocal key' = false) : (st.freeLocal t key).Denotes t' key' value' := by
  rw [denotes_global hg] at held ⊢
  rw [freeLocal_kv]
  exact held

/-! ## What a RID reads as -/

/-- A RID reads as a value, and if it is local its slot is in use.  A RID of the files need
not have been given out. -/
structure Reads (st : Stores) (t : Ty) (key : RID) (value : t.Val) : Prop where
  /-- The value is read. -/
  get : st.get t key = some value
  /-- A local RID denotes it. -/
  denotes : islocal key = true → st.Denotes t key value

theorem Denotes.reads {value : t.Val} (h : st.Denotes t key value) : st.Reads t key value :=
  ⟨h.get, fun _ => h⟩

/-- A change that keeps the files and what a local RID denotes keeps what it reads as. -/
theorem Reads.keep {value : t.Val} (h : st.Reads t key value) (hkv : st'.kv = st.kv)
    (hloc : islocal key = true → st.Denotes t key value → st'.Denotes t key value) :
    st'.Reads t key value := by
  cases hl : islocal key with
  | true => exact (hloc hl (h.denotes hl)).reads
  | false =>
      refine ⟨?_, fun htrue => ?_⟩
      · rw [get_global hl, hkv, ← get_global hl]
        exact h.get
      · rw [hl] at htrue
        cases htrue

/-! ## Freed slots -/

/-- A local RID names a slot that was in use and is not. -/
def Freed (st : Stores) (t : Ty) (key : RID) : Prop :=
  (st.loc t).raw.live[(local2idx key).toNat]? = some false

/-- A freed RID reads as an empty slot. -/
theorem Freed.get (h : st.Freed t key) (hl : islocal key = true) : st.get t key = some t.zero := by
  simp only [Stores.get, hl, if_true]
  exact (st.loc t).wf.dead _ h

theorem Freed.freeLocal (h : st.Freed t' key') : (st.freeLocal t key).Freed t' key' := by
  unfold Stores.freeLocal
  split
  next =>
    by_cases ht : t' = t
    · subst ht
      simp only [Freed, LocalKVStoreOperator.set, Function.update_self, LocalStore.erase,
        ReusableLocalKVStore.erase]
      split
      next hlive =>
        have hne : (local2idx key).toNat ≠ (local2idx key').toNat := by
          intro he
          rw [he] at hlive
          exact nomatch hlive.symm.trans h
        rw [List.getElem?_set_ne hne]
        exact h
      next => exact h
    · simpa only [Freed, LocalKVStoreOperator.set, Function.update_of_ne ht] using h
  next => exact h

/-- To free a RID that denotes a value leaves it freed. -/
theorem Denotes.freed {value : t.Val} (held : st.Denotes t key value)
    (hl : islocal key = true) : (st.freeLocal t key).Freed t key := by
  have hlive := LocalStore.live_of_map ((denotes_local hl).mp held)
  have hlt := (List.getElem?_eq_some_iff.mp hlive).1
  simp only [Stores.freeLocal, hl, if_true, Freed, LocalKVStoreOperator.set, Function.update_self,
    LocalStore.erase, ReusableLocalKVStore.erase, hlive]
  rw [List.getElem?_set_self hlt]

/-! ## Slots -/

/-- A local `put` succeeds where there is memory, and adds at most one slot. -/
theorem put_local_room (st : Stores) (t : Ty) (key : RID) (value : t.Val) (partition : RID)
    (h : st.slots t < maxLocalSlots) :
    ∃ rid st', st.put t key value true partition = some (rid, st') := by
  obtain ⟨k, s, hput⟩ := (st.loc t).put_room value h
  simp only [put, if_true, hput, Option.map_some]
  exact ⟨_, _, rfl⟩

theorem put_local_slots {value : t.Val} {partition : RID}
    (h : st.put t key value true partition = some (rid, st')) (t' : Ty) :
    st.slots t' ≤ st'.slots t' ∧ st'.slots t' ≤ st.slots t' + 1 := by
  simp only [put, if_true, Option.map_eq_some_iff] at h
  obtain ⟨⟨k, s⟩, hput, heq⟩ := h
  cases heq
  by_cases ht : t' = t
  · subst ht
    simpa [slots, LocalKVStoreOperator.set] using LocalStore.length_put_le hput
  · simp [slots, LocalKVStoreOperator.set, ht]

@[simp] theorem freeLocal_slots (st : Stores) (t t' : Ty) (key : RID) :
    (st.freeLocal t key).slots t' = st.slots t' := by
  unfold freeLocal
  split
  next =>
    by_cases ht : t' = t
    · subst ht
      simp [slots, LocalKVStoreOperator.set, LocalStore.length_erase]
    · simp [slots, LocalKVStoreOperator.set, ht]
  next => rfl

theorem put_local_kv {value : t.Val} {partition : RID}
    (h : st.put t key value true partition = some (rid, st')) : st'.kv = st.kv := by
  simp only [put, if_true, Option.map_eq_some_iff] at h
  obtain ⟨⟨k, s⟩, -, heq⟩ := h
  cases heq
  rfl

/-- A local RID reads if it names a slot. -/
theorem isSome_get_local (hl : islocal key = true) :
    (st.get t key).isSome = true ↔ (local2idx key).toNat < st.slots t := by
  simp [Stores.get, hl, LocalStore.get, ReusableLocalKVStore.get, Stores.slots]

theorem lt_slots_of_get {value : t.Val} (hl : islocal key = true)
    (h : st.get t key = some value) : (local2idx key).toNat < st.slots t :=
  (isSome_get_local hl).mp (Option.isSome_iff_exists.mpr ⟨value, h⟩)

/-- A worker can put any values in its local store, as long as there is memory for them. -/
theorem exists_puts (vals : List Value) (h : vals.length ≤ maxLocalSlots) :
    ∃ (st : Stores) (rids : List RID),
      List.Forall₂ (fun val rid => st.Denotes val.1 rid val.2) vals rids ∧
        ∀ t, st.slots t ≤ vals.length := by
  induction vals with
  | nil => exact ⟨⟨.empty, .fresh⟩, [], .nil, fun _ => Nat.le_refl 0⟩
  | cons val vals ih =>
      rw [List.length_cons] at h
      obtain ⟨st, rids, hdenotes, hslots⟩ := ih (Nat.le_of_succ_le h)
      obtain ⟨rid, st', hput⟩ := st.put_local_room val.1 invalidRid val.2 Partition.default.val
        (Nat.lt_of_le_of_lt (hslots val.1) h)
      refine ⟨st', rid :: rids, .cons (put_local_denotes hput).2.2 ?_, fun t => ?_⟩
      · exact hdenotes.imp fun _ _ held => held.put_local hput
      · exact (put_local_slots hput t).2.trans (Nat.succ_le_succ (hslots t))

end Stores

end Zeno
