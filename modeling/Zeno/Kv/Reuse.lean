import Zeno.Kv.Local
import Zeno.Lib.Machine

/-!
# Runs of one local store

The requests of a worker call `put`, `get`, `erase` and `clear` on its local
stores.  The class has a fifth operation, `replace`, which writes to a key of
the caller's choice.  It extends the vectors if the key is past their end, and it
marks the key as live without looking at the free list.

A run of the five operations carries the log of its writes (`LocalRun.writes`).
As long as no key of the free list is replaced, the vectors stay well formed
(`ReusableLocalKVStore.wellFormed_replace_iff`), so `put` returns a slot that is
out of use and a live slot reads as the last value written to it
(`live_slots_given_once`).  A freed key that is replaced is live and still in
the free list, and the next `put` gives it out again.

Without `replace` no slot is lost either: the free list is the list of all slots
out of use (`LocalStore.Tight`).
-/

namespace Zeno

namespace ReusableLocalKVStore

variable {α : Type} {zero : α}

/-- `std::vector::resize`: cut off, or filled up with `zero`. -/
def resize (zero : α) (xs : List α) (n : Nat) : List α :=
  xs.take n ++ List.replicate (n - xs.length) zero

/-- `ReusableLocalKVStore::replace`.  A vector that does not fit in memory throws.  For the
last RID `key + 1` is zero, and the write that follows is out of bounds. -/
def replace (zero : α) (s : ReusableLocalKVStore α) (key : Nat) (value : α) :
    Option (ReusableLocalKVStore α) :=
  if key < s.store.length then
    some { s with store := s.store.set key value, live := s.live.set key true }
  else if key < maxLocalSlots then
    some { s with
      store := (resize zero s.store (key + 1)).set key value
      live := (resize false s.live (key + 1)).set key true }
  else none

theorem length_resize (xs : List α) {n : Nat} (h : xs.length ≤ n) :
    (resize zero xs n).length = n := by
  simp [resize, h]

/-- What a vector held before it grew is still there, and the rest is `zero`. -/
theorem getElem?_resize (xs : List α) {n k : Nat} (h : xs.length ≤ n) :
    (resize zero xs n)[k]? =
      if k < xs.length then xs[k]? else if k < n then some zero else none := by
  rw [resize, List.take_of_length_le h]
  rcases Nat.lt_or_ge k xs.length with hlt | hge
  · rw [List.getElem?_append_left hlt, if_pos hlt]
  · rw [List.getElem?_append_right hge, if_neg (Nat.not_lt.mpr hge), List.getElem?_replicate]
    have hiff : k - xs.length < n - xs.length ↔ k < n := by omega
    simp only [hiff]

/-- What `replace` does to a store whose vectors have one length. -/
theorem replace_eq_some {s s' : ReusableLocalKVStore α} {key : Nat} {value : α}
    (sized : s.live.length = s.store.length) (h : s.replace zero key value = some s') :
    s'.freeList = s.freeList ∧ s'.live.length = s'.store.length ∧
      s'.store.length = max s.store.length (key + 1) ∧
      (s.store.length ≤ key → key < maxLocalSlots) ∧
      s'.store[key]? = some value ∧ s'.live[key]? = some true ∧
      ∀ k, k ≠ key →
        (s'.store[k]? = s.store[k]? ∧ s'.live[k]? = s.live[k]?) ∨
        (s.store.length ≤ k ∧ s'.store[k]? = some zero ∧ s'.live[k]? = some false) ∨
        (s'.store[k]? = none ∧ s'.live[k]? = none) := by
  unfold replace at h
  split at h
  next hlt =>
    cases h
    refine ⟨rfl, by simpa using sized, by simp; omega, fun hge => absurd hlt (by omega),
      by simp [hlt], by simp [sized, hlt], fun k hk => .inl ⟨?_, ?_⟩⟩
    · exact List.getElem?_set_ne (Ne.symm hk)
    · exact List.getElem?_set_ne (Ne.symm hk)
  next hge =>
    simp only [Option.ite_none_right_eq_some, Option.some.injEq] at h
    obtain ⟨hsmall, rfl⟩ := h
    have hs : s.store.length ≤ key + 1 := by omega
    have hl : s.live.length ≤ key + 1 := by omega
    refine ⟨rfl, by simp [length_resize, hs, hl], by simp [length_resize, hs],
      fun _ => hsmall, by simp [length_resize, hs], by simp [length_resize, hl], fun k hk => ?_⟩
    simp only [List.getElem?_set_ne (Ne.symm hk), getElem?_resize _ hs, getElem?_resize _ hl, sized]
    rcases Nat.lt_or_ge k s.store.length with hk' | hk'
    · simp [hk']
    · rcases Nat.lt_or_ge k (key + 1) with hk'' | hk''
      · exact .inr (.inl ⟨hk', by simp [Nat.not_lt.mpr hk', hk''],
          by simp [Nat.not_lt.mpr hk', hk'']⟩)
      · exact .inr (.inr ⟨by simp [Nat.not_lt.mpr hk', Nat.not_lt.mpr hk''],
          by simp [Nat.not_lt.mpr hk', Nat.not_lt.mpr hk'']⟩)

/-- A replaced key leaves the store well formed unless it was in the free list. -/
theorem wellFormed_replace_iff {s s' : ReusableLocalKVStore α} {key : Nat} {value : α}
    (wf : s.WellFormed zero) (h : s.replace zero key value = some s') :
    s'.WellFormed zero ↔ key ∉ s.freeList := by
  obtain ⟨hfree, hsized, hlen, hsmall, hstore, hlive, hother⟩ := replace_eq_some wf.sized h
  constructor
  · intro wf' hmem
    have hdead := wf'.free_dead key (hfree ▸ hmem)
    rw [hlive] at hdead
    cases hdead
  · intro hnew
    have hwf := wf.small
    refine ⟨hsized, by omega, fun k hk => ?_, hfree ▸ wf.free_nodup, fun k hk => ?_⟩
    · have hne : k ≠ key := by
        rintro rfl
        rw [hlive] at hk
        cases hk
      obtain ⟨hs, hl⟩ | ⟨-, hs, -⟩ | ⟨-, hl⟩ := hother k hne
      · rw [hs]
        exact wf.dead k (hl ▸ hk)
      · exact hs
      · rw [hl] at hk
        cases hk
    · rw [hfree] at hk
      have hdead := wf.free_dead k hk
      have hlt := (List.getElem?_eq_some_iff.mp hdead).1
      have hsz := wf.sized
      obtain ⟨-, hl⟩ | ⟨hge, -, -⟩ | ⟨hnone, -⟩ := hother k (ne_of_mem_of_not_mem hk hnew)
      · rw [hl]
        exact hdead
      · omega
      · have := List.getElem?_eq_none_iff.mp hnone
        omega

end ReusableLocalKVStore

/-! ## The operations of a run -/

/-- A call of one of the five operations. -/
inductive LocalOp (α : Type) where
  | put (value : α)
  | replace (key : Nat) (value : α)
  | erase (key : Nat)
  | get (key : Nat)
  | clear

/-- A local store, and what was written to which key since the store was built. -/
structure LocalRun (α : Type) where
  store : ReusableLocalKVStore α
  /-- The writes, the last one first. -/
  writes : List (Nat × α)

namespace LocalRun

variable {α : Type} {zero : α}

/-- A new store. -/
def new : LocalRun α := ⟨.empty, []⟩

/-- The next state of a run. -/
def step (zero : α) (r : LocalRun α) : LocalOp α → Option (LocalRun α)
  | .put value => (r.store.put value).map fun (key, s) => ⟨s, (key, value) :: r.writes⟩
  | .replace key value =>
      (r.store.replace zero key value).map fun s => ⟨s, (key, value) :: r.writes⟩
  | .erase key => some { r with store := r.store.erase zero key }
  | .get key => (r.store.get key).map fun _ => r
  | .clear => some { r with store := r.store.clear }

/-- No key of the free list is replaced. -/
def ReplacesNoFreed (r : LocalRun α) : LocalOp α → Prop
  | .replace key _ => key ∉ r.store.freeList
  | _ => True

instance (r : LocalRun α) (op : LocalOp α) : Decidable (ReplacesNoFreed r op) :=
  match op with
  | .replace _ _ => inferInstanceAs (Decidable (¬ _))
  | .put _ | .erase _ | .get _ | .clear => inferInstanceAs (Decidable True)

/-- What a run keeps: the vectors are well formed, and a live slot holds the last value
written to its key. -/
structure Sound (zero : α) (r : LocalRun α) : Prop where
  wf : r.store.WellFormed zero
  last : ∀ key value, (⟨r.store, wf⟩ : LocalStore zero).map key = some value →
    r.writes.lookup key = some value

variable {r r' : LocalRun α}

theorem Sound.put {value : α} {key : Nat} {s : ReusableLocalKVStore α} (h : r.Sound zero)
    (hput : r.store.put value = some (key, s)) :
    (⟨s, (key, value) :: r.writes⟩ : LocalRun α).Sound zero := by
  refine ⟨h.wf.put hput, fun k v hk => ?_⟩
  have hmap := (LocalStore.put_map (LocalStore.put_of_raw ⟨r.store, h.wf⟩ hput)).2
  rw [hmap] at hk
  by_cases hne : k = key
  · subst hne
    rw [Function.update_self] at hk
    simpa using hk
  · rw [Function.update_of_ne hne] at hk
    rw [List.lookup_cons, beq_false_of_ne hne]
    exact h.last k v hk

theorem Sound.replace {value : α} {key : Nat} {s : ReusableLocalKVStore α} (h : r.Sound zero)
    (hnew : key ∉ r.store.freeList) (hrep : r.store.replace zero key value = some s) :
    (⟨s, (key, value) :: r.writes⟩ : LocalRun α).Sound zero := by
  obtain ⟨-, -, -, -, hstore, -, hother⟩ :=
    ReusableLocalKVStore.replace_eq_some h.wf.sized hrep
  refine ⟨(ReusableLocalKVStore.wellFormed_replace_iff h.wf hrep).mpr hnew, fun k v hk => ?_⟩
  simp only [LocalStore.map, Option.ite_none_right_eq_some] at hk
  obtain ⟨hlive, hval⟩ := hk
  by_cases hne : k = key
  · subst hne
    rw [hstore] at hval
    simpa using hval
  · rw [List.lookup_cons, beq_false_of_ne hne]
    obtain ⟨hs, hl⟩ | ⟨-, -, hl⟩ | ⟨-, hl⟩ := hother k hne
    · apply h.last k v
      simp only [LocalStore.map, Option.ite_none_right_eq_some]
      exact ⟨hl ▸ hlive, hs ▸ hval⟩
    · rw [hl] at hlive
      cases hlive
    · rw [hl] at hlive
      cases hlive

theorem Sound.erase (h : r.Sound zero) (key : Nat) :
    ({ r with store := r.store.erase zero key } : LocalRun α).Sound zero := by
  refine ⟨h.wf.erase key, fun k v hk => ?_⟩
  have hmap := LocalStore.erase_map (⟨r.store, h.wf⟩ : LocalStore zero) key
  replace hk : ((⟨r.store, h.wf⟩ : LocalStore zero).erase key).map k = some v := hk
  rw [hmap] at hk
  by_cases hne : k = key
  · subst hne
    rw [Function.update_self] at hk
    cases hk
  · rw [Function.update_of_ne hne] at hk
    exact h.last k v hk

/-- A step that replaces no key of the free list keeps a run sound. -/
theorem Sound.step {op : LocalOp α} (h : r.Sound zero) (ok : ReplacesNoFreed r op)
    (hstep : r.step zero op = some r') : r'.Sound zero := by
  cases op with
  | put value =>
      simp only [LocalRun.step, Option.map_eq_some_iff] at hstep
      obtain ⟨⟨key, s⟩, hput, rfl⟩ := hstep
      exact h.put hput
  | replace key value =>
      simp only [LocalRun.step, Option.map_eq_some_iff] at hstep
      obtain ⟨s, hrep, rfl⟩ := hstep
      exact h.replace ok hrep
  | erase key =>
      cases hstep
      exact h.erase key
  | get key =>
      simp only [LocalRun.step, Option.map_eq_some_iff] at hstep
      obtain ⟨_, -, rfl⟩ := hstep
      exact h
  | clear =>
      cases hstep
      exact ⟨ReusableLocalKVStore.wellFormed_empty,
        fun key _ hkey => nomatch (LocalStore.map_empty key).symm.trans hkey⟩

end LocalRun

/-! ## No slot is lost -/

namespace LocalStore

variable {α : Type} {zero : α} {s s' : LocalStore zero}

/-- The free list is the list of the slots out of use. -/
def Tight (s : LocalStore zero) : Prop :=
  s.raw.freeList.Nodup ∧ ∀ key, key ∈ s.raw.freeList ↔ s.raw.live[key]? = some false

theorem tight_empty : (empty : LocalStore zero).Tight :=
  ⟨List.nodup_nil, fun _ => by simp [empty, ReusableLocalKVStore.empty]⟩

/-- That it lists all of them is the part that is not in every well formed store. -/
theorem tight_of_mem (h : ∀ key, s.raw.live[key]? = some false → key ∈ s.raw.freeList) : s.Tight :=
  ⟨s.wf.free_nodup, fun key => ⟨s.wf.free_dead key, h key⟩⟩

theorem Tight.put {value : α} {key : Nat} (h : s.Tight) (hput : s.put value = some (key, s')) :
    s'.Tight := by
  refine tight_of_mem fun k hk => ?_
  obtain ⟨rest, hfree, hraw⟩ | ⟨hfree, -, rfl, hraw⟩ :=
    ReusableLocalKVStore.put_eq_some (put_raw hput)
  · rw [hraw] at hk ⊢
    have hne : key ≠ k := by
      rintro rfl
      rw [List.getElem?_set_self'] at hk
      cases hl : s.raw.live[key]? <;> simp [hl] at hk
    rw [List.getElem?_set_ne hne] at hk
    have hmem := (h.2 k).mpr hk
    rw [hfree, List.mem_cons] at hmem
    exact hmem.resolve_left (Ne.symm hne)
  · rw [hraw] at hk ⊢
    apply (h.2 k).mpr
    rcases Nat.lt_trichotomy k s.raw.live.length with hlt | rfl | hgt
    · rw [List.getElem?_append_left hlt] at hk
      exact hk
    · simp at hk
    · rw [List.getElem?_eq_none (by simp; omega)] at hk
      cases hk

theorem Tight.erase (h : s.Tight) (key : Nat) : (s.erase key).Tight := by
  refine tight_of_mem fun k => ?_
  simp only [LocalStore.erase, ReusableLocalKVStore.erase]
  split
  next =>
    intro hk
    by_cases hne : key = k
    · exact hne ▸ List.mem_cons_self
    · rw [List.getElem?_set_ne hne] at hk
      exact List.mem_cons_of_mem _ ((h.2 k).mpr hk)
  next => exact (h.2 k).mpr

end LocalStore

namespace Stores

variable {st st' : Stores} {t t' : Ty} {key key' rid : RID}

/-- A freed RID denotes nothing, and every other one denotes what it did. -/
theorem denotes_freeLocal_iff {value : t'.Val} :
    (st.freeLocal t key).Denotes t' key' value ↔
      st.Denotes t' key' value ∧ (islocal key' = true → (t', key') ≠ (t, key)) := by
  cases hl' : islocal key' with
  | false =>
      simp only [denotes_global hl', freeLocal_kv]
      simp
  | true =>
      constructor
      · intro h
        have hne : (t', key') ≠ (t, key) := by
          intro heq
          cases heq
          rw [denotes_local hl'] at h
          simp [freeLocal, hl', LocalKVStoreOperator.map_set_self, LocalStore.erase_map] at h
        refine ⟨?_, fun _ => hne⟩
        by_cases hl : islocal key = true
        · simp only [freeLocal, hl, if_true, denotes_local hl'] at h ⊢
          by_cases ht : t' = t
          · subst ht
            have hidx : (local2idx key').toNat ≠ (local2idx key).toNat :=
              fun he => hne (by rw [local_ext hl' hl he])
            rw [LocalKVStoreOperator.map_set_self, LocalStore.erase_map,
              Function.update_of_ne hidx] at h
            exact h
          · rw [LocalKVStoreOperator.map_set_of_ne _ _ ht] at h
            exact h
        · rw [freeLocal_global (by simpa using hl)] at h
          exact h
      · rintro ⟨h, hne⟩
        exact h.freeLocal (hne rfl)

/-- After a local `put` the new RID denotes the value, and every other one what it did. -/
theorem denotes_put_local_iff {value : t.Val} {value' : t'.Val} {partition : RID}
    (h : st.put t key value true partition = some (rid, st')) (hne : (t', key') ≠ (t, rid)) :
    st'.Denotes t' key' value' ↔ st.Denotes t' key' value' := by
  refine ⟨fun held => ?_, fun held => held.put_local h⟩
  simp only [put, if_true, Option.map_eq_some_iff] at h
  obtain ⟨⟨k, s⟩, hput, heq⟩ := h
  obtain ⟨rfl, rfl⟩ := Prod.mk.inj heq
  by_cases hl : islocal key' = true
  · rw [denotes_local hl] at held ⊢
    by_cases ht : t' = t
    · subst ht
      have hidx := local2idx_idx2local (LocalStore.put_lt hput)
      have hk : (local2idx key').toNat ≠ k := by
        intro he
        exact hne (by rw [local_ext hl (islocal_idx2local _) (he.trans hidx.symm)])
      rw [LocalKVStoreOperator.map_set_self, (LocalStore.put_map hput).2,
        Function.update_of_ne hk] at held
      exact held
    · rw [LocalKVStoreOperator.map_set_of_ne _ _ ht] at held
      exact held
  · have hg : islocal key' = false := by simpa using hl
    rw [denotes_global hg] at held ⊢
    exact held

/-- A local `put` changes the store of its type only, and keeps it tight. -/
theorem put_local_loc {value : t.Val} {partition : RID}
    (h : st.put t key value true partition = some (rid, st')) :
    (∀ t', t' ≠ t → st'.loc t' = st.loc t') ∧ ((st.loc t).Tight → (st'.loc t).Tight) := by
  simp only [put, if_true, Option.map_eq_some_iff] at h
  obtain ⟨⟨k, s⟩, hput, heq⟩ := h
  obtain ⟨rfl, rfl⟩ := Prod.mk.inj heq
  refine ⟨fun t' ht => ?_, fun htight => ?_⟩
  · simp [LocalKVStoreOperator.set, ht]
  · simpa [LocalKVStoreOperator.set] using htight.put hput

/-- So does `freeLocal`. -/
theorem freeLocal_loc_of_ne (ht : t' ≠ t) : (st.freeLocal t key).loc t' = st.loc t' := by
  unfold freeLocal
  split
  next => simp [LocalKVStoreOperator.set, ht]
  next => rfl

theorem freeLocal_tight (h : (st.loc t).Tight) : ((st.freeLocal t key).loc t).Tight := by
  unfold freeLocal
  split
  next => simpa [LocalKVStoreOperator.set] using h.erase _
  next => exact h

end Stores

end Zeno
