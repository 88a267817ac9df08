import Zeno.Sql.Aggregates
import Zeno.Sql.SumSlots

/-!
# Aggregates evaluated more than once

The aggregates of `kv_int4` are declared `IMMUTABLE`, and `sum(x)` and `avg(x)` may
share one array of RIDs.  The maximum and the minimum only read it.  The sum frees
its local RIDs, and whatever is evaluated on the array afterwards reads slots that
are empty or were used again.

Until then it does not matter what else is in the store.  Two stores that agree on
the slots of an array (`LocalStore.Alike`) agree on them after every step of a sum,
although its partial sums may go to different slots, and the two results denote the
same value (`kvInt4SumBulk_twin`).  So does each evaluation in a run in which none
follows a sum or an average, unless all RIDs of the array are global
(`evaluations_agree_alone`).
-/

namespace Zeno

/-! ## Two stores that agree on some slots -/

namespace LocalStore

variable {α : Type} {zero : α}

/-- The key of a slot that is read, in use or not. -/
theorem get_eq_map_getD {s : LocalStore zero} {key : Nat} (h : key < s.raw.store.length) :
    s.get key = some ((s.map key).getD zero) := by
  have hlt : key < s.raw.live.length := s.wf.sized ▸ h
  have hget : s.get key = some s.raw.store[key] := List.getElem?_eq_getElem h
  cases hl : s.raw.live[key] with
  | true =>
      have hlive : s.raw.live[key]? = some true := by rw [List.getElem?_eq_getElem hlt, hl]
      rw [hget, map, if_pos hlive, List.getElem?_eq_getElem h]
      rfl
  | false =>
      have hdead : s.raw.live[key]? = some false := by rw [List.getElem?_eq_getElem hlt, hl]
      rw [map, if_neg (by rw [hdead]; decide)]
      exact s.wf.dead key hdead

theorem freeList_erase (s : LocalStore zero) (key : Nat) :
    (s.erase key).raw.freeList =
      if (s.map key).isSome then key :: s.raw.freeList else s.raw.freeList := by
  by_cases hlive : s.raw.live[key]? = some true
  · have hlt := (List.getElem?_eq_some_iff.mp hlive).1
    rw [s.wf.sized] at hlt
    simp [erase, ReusableLocalKVStore.erase, map, hlive, hlt]
  · simp [erase, ReusableLocalKVStore.erase, map, hlive]

/-- Two slots are the same slot of a set, or both outside it. -/
def SameSlot (K : Nat → Prop) (a b : Nat) : Prop := (K a ∧ a = b) ∨ (¬ K a ∧ ¬ K b)

/-- Maps that agree on the set still do with corresponding slots changed. -/
theorem SameSlot.update {K : Nat → Prop} {a b k : Nat} {m₁ m₂ : Nat → Option α} {x : Option α}
    (hab : SameSlot K a b) (hk : K k) (h : m₁ k = m₂ k) :
    Function.update m₁ a x k = Function.update m₂ b x k := by
  obtain ⟨-, rfl⟩ | ⟨ha, hb⟩ := hab
  · by_cases hka : k = a
    · rw [hka, Function.update_self, Function.update_self]
    · rw [Function.update_of_ne hka, Function.update_of_ne hka]
      exact h
  · have hka : k ≠ a := fun he => ha (he ▸ hk)
    have hkb : k ≠ b := fun he => hb (he ▸ hk)
    rw [Function.update_of_ne hka, Function.update_of_ne hkb]
    exact h

/-- Two stores agree on a set of slots: on what is in them, and on the order in which those
that are free will be reused. -/
structure Alike (K : Nat → Prop) (s₁ s₂ : LocalStore zero) : Prop where
  map : ∀ k, K k → s₁.map k = s₂.map k
  inRange : ∀ k, K k → k < s₁.raw.store.length ∧ k < s₂.raw.store.length
  /-- The slots freed last correspond, and behind them there is none of the set. -/
  free : ∃ f₁ f₂ g₁ g₂, s₁.raw.freeList = f₁ ++ g₁ ∧ s₂.raw.freeList = f₂ ++ g₂ ∧
    List.Forall₂ (SameSlot K) f₁ f₂ ∧ (∀ k ∈ g₁, ¬ K k) ∧ ∀ k ∈ g₂, ¬ K k

variable {K : Nat → Prop} {s₁ s₂ s₁' s₂' : LocalStore zero} {a b : Nat}

/-- Stores in which the slots are in use and hold the same are alike. -/
theorem alike_of_live (h : ∀ k, K k → ∃ v, s₁.map k = some v ∧ s₂.map k = some v) :
    Alike K s₁ s₂ where
  map k hk := by
    obtain ⟨v, h₁, h₂⟩ := h k hk
    rw [h₁, h₂]
  inRange k hk := by
    obtain ⟨v, h₁, h₂⟩ := h k hk
    exact ⟨lt_of_map h₁, lt_of_map h₂⟩
  free := by
    refine ⟨[], [], s₁.raw.freeList, s₂.raw.freeList, rfl, rfl, .nil, fun k hmem hk => ?_,
      fun k hmem hk => ?_⟩
    · obtain ⟨v, h₁, -⟩ := h k hk
      exact nomatch (live_of_map h₁).symm.trans (s₁.wf.free_dead k hmem)
    · obtain ⟨v, -, h₂⟩ := h k hk
      exact nomatch (live_of_map h₂).symm.trans (s₂.wf.free_dead k hmem)

/-- The slot `put` takes, and what is free then. -/
theorem put_freeList {s s' : LocalStore zero} {value : α} {key : Nat}
    (h : s.put value = some (key, s')) :
    s.raw.freeList = key :: s'.raw.freeList ∨
      (s.raw.freeList = [] ∧ s'.raw.freeList = [] ∧ key = s.raw.store.length) := by
  obtain ⟨rest, hfree, hraw⟩ | ⟨hfree, -, hkey, hraw⟩ :=
    ReusableLocalKVStore.put_eq_some (put_raw h)
  · left
    rw [hfree, hraw]
  · right
    exact ⟨hfree, by rw [hraw]; exact hfree, hkey⟩

/-- A slot taken where none of the set is free is outside it, and so is what stays free. -/
theorem put_outside {s s' : LocalStore zero} {value : α} {key : Nat}
    (h : s.put value = some (key, s')) (hfree : ∀ k ∈ s.raw.freeList, ¬ K k)
    (inRange : ∀ k, K k → k < s.raw.store.length) :
    ¬ K key ∧ ∀ k ∈ s'.raw.freeList, ¬ K k := by
  obtain hcons | ⟨hnil, hnil', rfl⟩ := put_freeList h
  · rw [hcons] at hfree
    exact ⟨hfree key List.mem_cons_self, fun k hk => hfree k (List.mem_cons_of_mem _ hk)⟩
  · refine ⟨fun hk => Nat.lt_irrefl _ (inRange _ hk), fun k hk => ?_⟩
    rw [hnil'] at hk
    cases hk

/-- A value put in alike stores goes to corresponding slots. -/
theorem Alike.put {value : α} (h : Alike K s₁ s₂) (h₁ : s₁.put value = some (a, s₁'))
    (h₂ : s₂.put value = some (b, s₂')) : SameSlot K a b ∧ Alike K s₁' s₂' := by
  obtain ⟨f₁, f₂, g₁, g₂, hf₁, hf₂, hsame, hg₁, hg₂⟩ := h.free
  have hslots : SameSlot K a b ∧ ∃ f₁ f₂ g₁ g₂, s₁'.raw.freeList = f₁ ++ g₁ ∧
      s₂'.raw.freeList = f₂ ++ g₂ ∧ List.Forall₂ (SameSlot K) f₁ f₂ ∧ (∀ k ∈ g₁, ¬ K k) ∧
      ∀ k ∈ g₂, ¬ K k := by
    cases hsame with
    | nil =>
        rw [List.nil_append] at hf₁ hf₂
        obtain ⟨ha, hg₁'⟩ := put_outside h₁ (hf₁ ▸ hg₁) fun k hk => (h.inRange k hk).1
        obtain ⟨hb, hg₂'⟩ := put_outside h₂ (hf₂ ▸ hg₂) fun k hk => (h.inRange k hk).2
        exact ⟨.inr ⟨ha, hb⟩, [], [], _, _, rfl, rfl, .nil, hg₁', hg₂'⟩
    | @cons x y f₁' f₂' hxy hrest =>
        have hfirst {s s' : LocalStore zero} {key z : Nat} {l : List Nat}
            (hput : s.put value = some (key, s')) (hfree : s.raw.freeList = z :: l) :
            key = z ∧ s'.raw.freeList = l := by
          obtain hcons | ⟨hnil, -⟩ := put_freeList hput
          · rw [hfree] at hcons
            obtain ⟨rfl, rfl⟩ := List.cons.inj hcons
            exact ⟨rfl, rfl⟩
          · rw [hfree] at hnil
            cases hnil
        obtain ⟨rfl, ht₁⟩ := hfirst h₁ hf₁
        obtain ⟨rfl, ht₂⟩ := hfirst h₂ hf₂
        exact ⟨hxy, f₁', f₂', g₁, g₂, ht₁, ht₂, hrest, hg₁, hg₂⟩
  refine ⟨hslots.1, fun k hk => ?_, fun k hk => ?_, hslots.2⟩
  · rw [(put_map h₁).2, (put_map h₂).2]
    exact hslots.1.update hk (h.map k hk)
  · have hle₁ := (length_put_le h₁).1
    have hle₂ := (length_put_le h₂).1
    have hrange := h.inRange k hk
    omega

/-- Corresponding slots freed in alike stores.  Outside the set both must be in use. -/
theorem Alike.erase (h : Alike K s₁ s₂) (hab : SameSlot K a b)
    (hout : ¬ K a → (s₁.map a).isSome ∧ (s₂.map b).isSome) :
    Alike K (s₁.erase a) (s₂.erase b) := by
  have hlive : (s₁.map a).isSome = (s₂.map b).isSome := by
    obtain ⟨ha, rfl⟩ | ⟨ha, -⟩ := hab
    · rw [h.map a ha]
    · obtain ⟨h₁, h₂⟩ := hout ha
      rw [h₁, h₂]
  obtain ⟨f₁, f₂, g₁, g₂, hf₁, hf₂, hsame, hg₁, hg₂⟩ := h.free
  refine ⟨fun k hk => ?_, fun k hk => ?_, ?_⟩
  · rw [erase_map, erase_map]
    exact hab.update hk (h.map k hk)
  · rw [length_erase, length_erase]
    exact h.inRange k hk
  · rw [freeList_erase, freeList_erase, hlive]
    cases (s₂.map b).isSome with
    | true => exact ⟨a :: f₁, b :: f₂, g₁, g₂, by simp [hf₁], by simp [hf₂],
        .cons hab hsame, hg₁, hg₂⟩
    | false => exact ⟨f₁, f₂, g₁, g₂, by simpa using hf₁, by simpa using hf₂, hsame, hg₁, hg₂⟩

end LocalStore

namespace Stores

open LocalStore (SameSlot Alike)

/-- The slots of the local RIDs of an array. -/
def ArraySlot (keys : List RID) (i : Nat) : Prop :=
  ∃ k ∈ keys, islocal k = true ∧ (local2idx k).toNat = i

/-- Two stores agree on the RIDs of an array. -/
structure Twin (keys : List RID) (st₁ st₂ : Stores) : Prop where
  alike : Alike (ArraySlot keys) (st₁.loc .int) (st₂.loc .int)
  global : ∀ k ∈ keys, islocal k = false → st₁.get .int k = st₂.get .int k

/-- Two RIDs play the same part in two stores: they are one global RID of the array, or
they name corresponding slots.  Outside the array both denote one value. -/
def Match (keys : List RID) (st₁ st₂ : Stores) (x y : RID) : Prop :=
  (x = y ∧ x ∈ keys ∧ islocal x = false) ∨
  (islocal x = true ∧ islocal y = true ∧
    SameSlot (ArraySlot keys) (local2idx x).toNat (local2idx y).toNat ∧
    (¬ ArraySlot keys (local2idx x).toNat →
      ∃ v, st₁.Denotes .int x v ∧ st₂.Denotes .int y v))

variable {keys ks : List RID} {st₁ st₂ st₁' st₂' : Stores} {x y r₁ r₂ : RID}

theorem twin_of_live {val : RID → Num.int.Val}
    (h₁ : ∀ k ∈ keys, st₁.Denotes .int k (val k)) (h₂ : ∀ k ∈ keys, st₂.Denotes .int k (val k)) :
    Twin keys st₁ st₂ where
  alike := by
    apply LocalStore.alike_of_live
    rintro i ⟨k, hk, hl, rfl⟩
    exact ⟨val k, (denotes_local hl).mp (h₁ k hk), (denotes_local hl).mp (h₂ k hk)⟩
  global k hk _ := (h₁ k hk).get.trans (h₂ k hk).get.symm

/-- An element of the array matches itself. -/
theorem match_self {k : RID} (hk : k ∈ keys) : Match keys st₁ st₂ k k := by
  cases hl : islocal k with
  | false => exact .inl ⟨rfl, hk, hl⟩
  | true =>
      have hslot : ArraySlot keys (local2idx k).toNat := ⟨k, hk, hl, rfl⟩
      exact .inr ⟨hl, hl, .inl ⟨hslot, rfl⟩, fun hnot => absurd hslot hnot⟩

/-- RIDs that match read the same. -/
theorem Match.get (m : Match keys st₁ st₂ x y) (t : Twin keys st₁ st₂) :
    st₁.get .int x = st₂.get .int y := by
  obtain ⟨rfl, hk, hl⟩ | ⟨hx, hy, ⟨hslot, hidx⟩ | ⟨hslot, -⟩, hout⟩ := m
  · exact t.global x hk hl
  · have hrange := t.alike.inRange _ hslot
    simp only [Stores.get, hx, hy, if_true, ← hidx]
    rw [LocalStore.get_eq_map_getD hrange.1, LocalStore.get_eq_map_getD hrange.2,
      t.alike.map _ hslot]
  · obtain ⟨v, h₁, h₂⟩ := hout hslot
    exact h₁.get.trans h₂.get.symm

/-- Local RIDs that match denote the same. -/
theorem Match.denotes_iff (m : Match keys st₁ st₂ x y) (t : Twin keys st₁ st₂)
    (hl : islocal x = true) (v : Num.int.Val) :
    st₁.Denotes .int x v ↔ st₂.Denotes .int y v := by
  obtain ⟨-, -, hg⟩ | ⟨hx, hy, ⟨hslot, hidx⟩ | ⟨hslot, -⟩, hout⟩ := m
  · rw [hl] at hg
    cases hg
  · rw [denotes_local hx, denotes_local hy, ← hidx]
    exact Eq.congr_left (t.alike.map _ hslot)
  · obtain ⟨w, h₁, h₂⟩ := hout hslot
    exact ⟨fun h => h.unique h₁ ▸ h₂, fun h => h.unique h₂ ▸ h₁⟩

/-- The stores still agree after matching RIDs are freed. -/
theorem Twin.freeLocal (t : Twin keys st₁ st₂) (m : Match keys st₁ st₂ x y) :
    Twin keys (st₁.freeLocal .int x) (st₂.freeLocal .int y) where
  alike := by
    obtain ⟨rfl, -, hl⟩ | ⟨hx, hy, hsame, hout⟩ := m
    · rw [freeLocal_global hl, freeLocal_global hl]
      exact t.alike
    · simp only [Stores.freeLocal, hx, hy, if_true, LocalKVStoreOperator.set,
        Function.update_self]
      refine t.alike.erase hsame fun hslot => ?_
      obtain ⟨v, h₁, h₂⟩ := hout hslot
      have hm₁ : (st₁.loc .int).map (local2idx x).toNat = some v := (denotes_local hx).mp h₁
      have hm₂ : (st₂.loc .int).map (local2idx y).toNat = some v := (denotes_local hy).mp h₂
      simp [hm₁, hm₂]
  global k hk hl := by
    rw [get_global hl, get_global hl, freeLocal_kv, freeLocal_kv, ← get_global hl, ← get_global hl]
    exact t.global k hk hl

/-- So they do after elements of the array are freed. -/
theorem Twin.freeAll (t : Twin keys st₁ st₂) (hks : ∀ k ∈ ks, k ∈ keys) :
    Twin keys (st₁.freeAll (ks.map (Ty.int, ·))) (st₂.freeAll (ks.map (Ty.int, ·))) := by
  induction ks generalizing st₁ st₂ with
  | nil => exact t
  | cons k ks ih =>
      exact ih (t.freeLocal (match_self (hks k List.mem_cons_self)))
        fun k' hk' => hks k' (List.mem_cons_of_mem _ hk')

/-- A value put in both goes to matching RIDs. -/
theorem Twin.put {value : Num.int.Val} (t : Twin keys st₁ st₂)
    (h₁ : st₁.putLocal .int value = some (r₁, st₁'))
    (h₂ : st₂.putLocal .int value = some (r₂, st₂')) :
    Twin keys st₁' st₂' ∧ Match keys st₁' st₂' r₁ r₂ := by
  obtain ⟨hl₁, -, hden₁⟩ := put_local_denotes h₁
  obtain ⟨hl₂, -, hden₂⟩ := put_local_denotes h₂
  have hkv₁ := put_local_kv h₁
  have hkv₂ := put_local_kv h₂
  simp only [putLocal, Stores.put, if_true, Option.map_eq_some_iff] at h₁ h₂
  obtain ⟨⟨a, s₁⟩, hput₁, heq₁⟩ := h₁
  obtain ⟨⟨b, s₂⟩, hput₂, heq₂⟩ := h₂
  obtain ⟨rfl, rfl⟩ := Prod.mk.inj heq₁
  obtain ⟨rfl, rfl⟩ := Prod.mk.inj heq₂
  obtain ⟨hsame, halike⟩ := t.alike.put hput₁ hput₂
  refine ⟨⟨?_, fun k hk hl => ?_⟩, .inr ⟨hl₁, hl₂, ?_, fun _ => ⟨value, hden₁, hden₂⟩⟩⟩
  · simpa [LocalKVStoreOperator.set] using halike
  · rw [get_global hl, get_global hl, hkv₁, hkv₂, ← get_global hl, ← get_global hl]
    exact t.global k hk hl
  · rw [local2idx_idx2local (LocalStore.put_lt hput₁),
      local2idx_idx2local (LocalStore.put_lt hput₂)]
    exact hsame

/-- A fresh RID matches its twin also after the operands of a chunk are freed: the first keys of
the two chunks match, and the others are elements of the array. -/
theorem Match.freeAll (m : Match keys st₁ st₂ r₁ r₂) (hl : islocal r₁ = true)
    (hx : r₁ = x → ArraySlot keys (local2idx x).toNat)
    (hy : r₂ = y → ArraySlot keys (local2idx y).toNat) (hks : ∀ k ∈ ks, k ∈ keys) :
    Match keys (st₁.freeAll ((x :: ks).map (Ty.int, ·)))
      (st₂.freeAll ((y :: ks).map (Ty.int, ·))) r₁ r₂ := by
  obtain ⟨-, -, hg⟩ | ⟨h₁, h₂, hsame, hout⟩ := m
  · rw [hl] at hg
    cases hg
  · refine .inr ⟨h₁, h₂, hsame, fun hslot => ?_⟩
    obtain ⟨v, hv₁, hv₂⟩ := hout hslot
    have hslot₂ : ¬ ArraySlot keys (local2idx r₂).toNat := by
      obtain ⟨hin, -⟩ | ⟨-, hnot⟩ := hsame
      · exact absurd hin hslot
      · exact hnot
    -- what is freed lies in the array or is the first key
    have hfresh {r z : RID} (hr : islocal r = true) (hnot : ¬ ArraySlot keys (local2idx r).toNat)
        (hz : r = z → ArraySlot keys (local2idx z).toNat) :
        (Ty.int, r) ∉ (z :: ks).map (Ty.int, ·) := by
      intro hmem
      obtain ⟨k, hk, heq⟩ := List.mem_map.mp hmem
      cases heq
      rcases List.mem_cons.mp hk with rfl | hk
      · exact hnot (hz rfl)
      · exact hnot ⟨r, hks r hk, hr, rfl⟩
    exact ⟨v, denotes_freeAll_iff.mpr ⟨hv₁, fun _ => hfresh h₁ hslot hx⟩,
      denotes_freeAll_iff.mpr ⟨hv₂, fun _ => hfresh h₂ hslot₂ hy⟩⟩

end Stores

namespace Extension

open Stores

variable {e : Env} {g : Gcm} {keys ks vs : List RID} {tee tee' tee₁ tee₂ tee₂' : Tee}
  {rid x y r₂ : RID}

/-! ## Sums and averages in two stores -/

/-- The values of chunks that match add up to the same. -/
theorem foldlM_twin (t : Twin keys tee₁.stores tee₂.stores)
    (m : Match keys tee₁.stores tee₂.stores x y) (hks : ∀ k ∈ ks, k ∈ keys) :
    (x :: ks).foldlM (fun sum key => (tee₁.stores.get .int key).map (BitVec.add sum)) 0 =
      (y :: ks).foldlM (fun sum key => (tee₂.stores.get .int key).map (BitVec.add sum)) 0 := by
  have hrest (z : Num.int.Val) :
      ks.foldlM (fun sum key => (tee₁.stores.get .int key).map (BitVec.add sum)) z =
        ks.foldlM (fun sum key => (tee₂.stores.get .int key).map (BitVec.add sum)) z := by
    induction ks generalizing z with
    | nil => rfl
    | cons k ks ih =>
        have hget := Match.get (match_self (hks k List.mem_cons_self)) t
        have htail := ih fun k' hk' => hks k' (List.mem_cons_of_mem _ hk')
        simp only [List.foldlM_cons, hget, htail]
  simp only [List.foldlM_cons, m.get t, hrest]

/-- A chunk is summed in the second store.  Then the first can do the same, with memory for
one more slot. -/
theorem kvIntSumBulk_twin (t : Twin keys tee₁.stores tee₂.stores)
    (m : Match keys tee₁.stores tee₂.stores x y) (hks : ∀ k ∈ ks, k ∈ keys)
    (room : tee₁.stores.slots .int < maxLocalSlots)
    (h₂ : kvIntSumBulk e g tee₂ (y :: ks) = some (r₂, tee₂')) :
    ∃ r₁ tee₁', kvIntSumBulk e g tee₁ (x :: ks) = some (r₁, tee₁') ∧
      Twin keys tee₁'.stores tee₂'.stores ∧ Match keys tee₁'.stores tee₂'.stores r₁ r₂ ∧
      islocal r₁ = true ∧ tee₁'.stores.slots .int ≤ tee₁.stores.slots .int + 1 := by
  obtain ⟨sum, st₂, hsum, hput₂, rfl⟩ := kvIntSumBulk_eq_some.mp h₂
  obtain ⟨r₁, st₁, hput₁⟩ := tee₁.stores.put_local_room .int invalidRid sum
    Partition.default.val room
  obtain ⟨hl₁, hfresh₁, -⟩ := put_local_denotes hput₁
  obtain ⟨-, hfresh₂, -⟩ := put_local_denotes hput₂
  obtain ⟨tput, mput⟩ := t.put hput₁ hput₂
  -- the first keys still match in the stores with the sum
  have mfirst : Match keys st₁ st₂ x y := by
    obtain hglobal | ⟨hx, hy, hsame, hout⟩ := m
    · exact .inl hglobal
    · refine .inr ⟨hx, hy, hsame, fun hslot => ?_⟩
      obtain ⟨v, hv₁, hv₂⟩ := hout hslot
      exact ⟨v, hv₁.put_local hput₁, hv₂.put_local hput₂⟩
  have htwin : Twin keys (st₁.freeAll ((x :: ks).map (Ty.int, ·)))
      (st₂.freeAll ((y :: ks).map (Ty.int, ·))) := (tput.freeLocal mfirst).freeAll hks
  refine ⟨r₁, _, kvIntSumBulk_eq_some.mpr ⟨sum, st₁, (foldlM_twin t m hks).trans hsum, hput₁, rfl⟩,
    htwin, mput.freeAll hl₁ ?_ ?_ hks, hl₁, ?_⟩
  · -- a key that was in use is not the RID of the sum
    rintro rfl
    by_contra hslot
    obtain ⟨-, -, hg⟩ | ⟨-, -, -, hout⟩ := m
    · rw [hl₁] at hg
      cases hg
    · obtain ⟨v, hv, -⟩ := hout hslot
      exact hfresh₁ v hv
  · rintro rfl
    by_contra hslot
    obtain ⟨rfl, -, hg⟩ | ⟨-, -, ⟨hin, hidx⟩ | ⟨hin, -⟩, hout⟩ := m
    · rw [(put_local_denotes hput₂).1] at hg
      cases hg
    · exact hslot (hidx ▸ hin)
    · obtain ⟨v, -, hv⟩ := hout hin
      exact hfresh₂ v hv
  · rw [freeAll_slots]
    exact (put_local_slots hput₁ .int).2

/-- So can the whole loop, from chunks that match. -/
theorem sumLoop_twin (t : Twin keys tee₁.stores tee₂.stores)
    (m : Match keys tee₁.stores tee₂.stores x y) (hks : ∀ k ∈ ks, k ∈ keys)
    (hvs : ∀ k ∈ vs, k ∈ keys)
    (room : tee₁.stores.slots .int + vs.length < maxLocalSlots)
    (h₂ : sumLoop (kvIntSumBulk e g) tee₂ (y :: ks) (vs.map some) = some (r₂, tee₂')) :
    ∃ r₁ tee₁', sumLoop (kvIntSumBulk e g) tee₁ (x :: ks) (vs.map some) = some (r₁, tee₁') ∧
      Twin keys tee₁'.stores tee₂'.stores ∧ Match keys tee₁'.stores tee₂'.stores r₁ r₂ ∧
      islocal r₁ = true := by
  induction vs generalizing tee₁ tee₂ x y ks with
  | nil =>
      obtain ⟨r₁, tee₁', hsum, htwin, hmatch, hl, -⟩ := kvIntSumBulk_twin t m hks room h₂
      exact ⟨r₁, tee₁', hsum, htwin, hmatch, hl⟩
  | cons v vs ih =>
      have hv : v ∈ keys := hvs v List.mem_cons_self
      have hvs' : ∀ k ∈ vs, k ∈ keys := fun k hk => hvs k (List.mem_cons_of_mem _ hk)
      rw [List.length_cons] at room
      simp only [List.map_cons, sumLoop, datum, Option.getD_some, List.length_cons] at h₂ ⊢
      split at h₂
      next full =>
        obtain ⟨⟨tmp₂, tee₃⟩, hsum₂, hloop₂⟩ := Option.bind_eq_some_iff.mp h₂
        obtain ⟨tmp₁, tee₄, hsum₁, htwin, hmatch, -, hslots⟩ :=
          kvIntSumBulk_twin t m hks (by omega) hsum₂
        obtain ⟨r₁, tee₁', hloop₁, hresult⟩ := ih htwin hmatch
          (fun k hk => List.mem_singleton.mp hk ▸ hv) hvs' (by omega) hloop₂
        refine ⟨r₁, tee₁', ?_, hresult⟩
        rw [if_pos full, hsum₁]
        exact hloop₁
      next notFull =>
        obtain ⟨r₁, tee₁', hloop₁, hresult⟩ := ih t m (fun k hk => by
          rcases List.mem_append.mp hk with hk | hk
          · exact hks k hk
          · exact List.mem_singleton.mp hk ▸ hv) hvs' (by omega) h₂
        refine ⟨r₁, tee₁', ?_, hresult⟩
        rw [if_neg notFull]
        exact hloop₁

/-- A sum over live RIDs denotes the same in any two stores that agree on them. -/
theorem kvInt4SumBulk_twin (t : Twin keys tee₁.stores tee₂.stores)
    (room : tee₁.stores.slots .int + keys.length ≤ maxLocalSlots)
    (h₂ : kvInt4SumBulk e g tee₂ (keys.map some) = some (r₂, tee₂')) :
    ∃ r₁ tee₁', kvInt4SumBulk e g tee₁ (keys.map some) = some (r₁, tee₁') ∧
      Twin keys tee₁'.stores tee₂'.stores ∧ Match keys tee₁'.stores tee₂'.stores r₁ r₂ ∧
      islocal r₁ = true := by
  cases keys with
  | nil => cases h₂
  | cons v vs =>
      rw [List.length_cons] at room
      exact sumLoop_twin t (match_self List.mem_cons_self) (fun k hk => absurd hk List.not_mem_nil)
        (fun k hk => List.mem_cons_of_mem _ hk) (by omega) h₂

/-- What `CMD_INT_DIV` does. -/
theorem kvIntDiv_eq_some {left right : RID} :
    kvIntDiv e g tee left right = some (rid, tee') ↔
      ∃ a b q st, tee.stores.get .int left = some a ∧ tee.stores.get .int right = some b ∧
        intDiv a b = some q ∧ tee.stores.putLocal .int q = some (rid, st) ∧
        tee' = { tee with stores := st } := by
  simp only [kvIntDiv, askRid_eq_some, handleOps, Tee.answer, handleCalc, Zeno.kvIntDiv,
    Zeno.kvCalc, Option.map_eq_some_iff, Option.bind_eq_bind, Option.bind_eq_some_iff]
  constructor
  · rintro ⟨⟨rid', st⟩, ⟨a, ha, b, hb, q, hq, hput⟩, heq⟩
    cases heq
    exact ⟨a, b, q, st, ha, hb, hq, hput, rfl⟩
  · rintro ⟨a, b, q, st, ha, hb, hq, hput, rfl⟩
    exact ⟨(rid, st), ⟨a, ha, b, hb, q, hq, hput⟩, rfl⟩

theorem kvIntPut_loc {value : Num.int.Val} (h : kvIntPut e g tee value = some (rid, tee')) :
    tee'.stores.loc = tee.stores.loc := by
  obtain ⟨⟨rid', st⟩, hput, heq⟩ := Option.map_eq_some_iff.mp (askRid_eq_some.mp h)
  cases heq
  exact put_global_loc hput

/-- A local RID reads the same in stores with the same local part. -/
theorem get_of_loc {st st' : Stores} (h : st'.loc = st.loc) (hl : islocal rid = true) :
    st'.get .int rid = st.get .int rid := by
  simp only [Stores.get, hl, if_true, h]

/-- So does an average, if there is room for the divisor in the file. -/
theorem kvInt4AvgBulk_twin (t : Twin keys tee₁.stores tee₂.stores)
    (room : tee₁.stores.slots .int + keys.length < maxLocalSlots)
    (file : tee₁.stores.kv.curRid .int Partition.default.val < KvMap.maxKey .int)
    (h₂ : kvInt4AvgBulk e g tee₂ (keys.map some) = some (r₂, tee₂')) :
    ∃ r₁ tee₁', kvInt4AvgBulk e g tee₁ (keys.map some) = some (r₁, tee₁') ∧
      ∃ q, tee₁'.stores.Denotes .int r₁ q ∧ tee₂'.stores.Denotes .int r₂ q := by
  obtain ⟨⟨⟨sum₂, div₂⟩, tee₃⟩, hops₂, hdiv₂⟩ := Option.bind_eq_some_iff.mp h₂
  obtain ⟨⟨sum₂', tee₄⟩, hsum₂, hrest₂⟩ := Option.bind_eq_some_iff.mp hops₂
  obtain ⟨⟨div₂', tee₅⟩, hput₂, heq⟩ := Option.bind_eq_some_iff.mp hrest₂
  cases heq
  -- the sums match, and both divisors denote the number of elements
  obtain ⟨sum₁, tee₆, hsum₁, htwin, hmatch, hl₁⟩ := kvInt4SumBulk_twin t room.le hsum₂
  obtain ⟨hkv, hslots⟩ := kvInt4SumBulk_frame hsum₁
  rw [List.length_map] at hslots
  obtain ⟨div₁, tee₇, hput₁⟩ : ∃ div tee,
      kvIntPut e g tee₆ (BitVec.ofNat 32 (keys.map some).length) = some (div, tee) :=
    kvIntPut_room _ (by rw [hkv]; exact file)
  have hl₂ : islocal sum₂ = true := by
    obtain ⟨-, -, hg⟩ | ⟨-, hl, -⟩ := hmatch
    · rw [hl₁] at hg
      cases hg
    · exact hl
  have hget : tee₇.stores.get .int sum₁ = tee₃.stores.get .int sum₂ := by
    rw [get_of_loc (kvIntPut_loc hput₁) hl₁, get_of_loc (kvIntPut_loc hput₂) hl₂]
    exact hmatch.get htwin
  obtain ⟨a, b, q, st₂, ha, hb, hq, hres₂, rfl⟩ := kvIntDiv_eq_some.mp hdiv₂
  obtain ⟨hdenotes₁, hslots₁, -⟩ := kvIntPut_frame hput₁
  have hb' : tee₇.stores.get .int div₁ = some b := by
    rw [hdenotes₁.get, ← (kvIntPut_frame hput₂).1.get, hb]
  obtain ⟨r₁, st₁, hres₁⟩ := tee₇.stores.put_local_room .int invalidRid q
    Partition.default.val (by omega)
  have hdiv₁ : kvIntDiv e g tee₇ sum₁ div₁ = some (r₁, { tee₇ with stores := st₁ }) :=
    kvIntDiv_eq_some.mpr ⟨a, b, q, st₁, hget.trans ha, hb', hq, hres₁, rfl⟩
  refine ⟨r₁, { tee₇ with stores := st₁ }, ?_, q, (put_local_denotes hres₁).2.2,
    (put_local_denotes hres₂).2.2⟩
  simp only [kvInt4AvgBulk, avgOperands, hsum₁, hput₁, hdiv₁, Option.bind_eq_bind,
    Option.bind_some]

/-! ## Runs -/

/-- The aggregates of `kv_int4`. -/
inductive Aggregate where
  | sum | avg | max | min
  deriving DecidableEq

/-- Evaluate an aggregate on an array. -/
def Aggregate.eval (e : Env) (g : Gcm) : Aggregate → Tee → List (Option RID) → Option (RID × Tee)
  | .sum => kvInt4SumBulk e g
  | .avg => kvInt4AvgBulk e g
  | .max => kvInt4MaxBulk e g
  | .min => kvInt4MinBulk e g

/-- The aggregates that free the local RIDs of the array. -/
def Aggregate.frees : Aggregate → Bool
  | .sum | .avg => true
  | .max | .min => false

/-- What happens in a run: an aggregate is evaluated, or something else is put. -/
inductive EvalStep where
  | evaluate (a : Aggregate)
  | put (val : Value)

/-- A worker, and what the evaluations returned, with the stores in which they did. -/
structure EvalRun where
  tee : Tee
  results : List (Aggregate × RID × Stores)

namespace EvalRun

/-- The next state of a run over an array. -/
def step (e : Env) (g : Gcm) (keys : List RID) (r : EvalRun) : EvalStep → Option EvalRun
  | .evaluate a =>
      (a.eval e g r.tee (keys.map some)).map fun (rid, tee) =>
        ⟨tee, (a, rid, tee.stores) :: r.results⟩
  | .put ⟨t, value⟩ =>
      (r.tee.stores.putLocal t value).map fun (_, st) =>
        { r with tee := { r.tee with stores := st } }

theorem step_evaluate {e : Env} {g : Gcm} {keys : List RID} {r r' : EvalRun} {a : Aggregate}
    (h : step e g keys r (.evaluate a) = some r') :
    ∃ rid tee, a.eval e g r.tee (keys.map some) = some (rid, tee) ∧
      r' = ⟨tee, (a, rid, tee.stores) :: r.results⟩ := by
  obtain ⟨⟨rid, tee⟩, heval, rfl⟩ := Option.map_eq_some_iff.mp h
  exact ⟨rid, tee, heval, rfl⟩

theorem step_put {e : Env} {g : Gcm} {keys : List RID} {r r' : EvalRun} {val : Value}
    (h : step e g keys r (.put val) = some r') :
    ∃ rid st, r.tee.stores.putLocal val.1 val.2 = some (rid, st) ∧
      r' = { r with tee := { r.tee with stores := st } } := by
  obtain ⟨⟨rid, st⟩, hput, rfl⟩ := Option.map_eq_some_iff.mp h
  exact ⟨rid, st, hput, rfl⟩

/-- Nothing is evaluated on an array with a local RID once a sum or an average was. -/
def BeforeSum (keys : List RID) (r : EvalRun) : EvalStep → Prop
  | .evaluate _ => (∀ k ∈ keys, islocal k = false) ∨ ∀ x ∈ r.results, x.1.frees = false
  | .put _ => True

/-- A result denotes what it would if nothing else had been evaluated. -/
def AsAlone (e : Env) (g : Gcm) (keys : List RID) (start : Tee) (x : Aggregate × RID × Stores) :
    Prop :=
  ∃ rid tee', x.1.eval e g start (keys.map some) = some (rid, tee') ∧
    ∀ v, x.2.2.Denotes .int x.2.1 v ↔ tee'.stores.Denotes .int rid v

variable {start : Tee} {val : RID → Num.int.Val} {a : Aggregate} {r r' : EvalRun}

/-- RIDs that denote one value denote the same. -/
theorem denotes_iff_of_value {st st' : Stores} {rid' : RID} {v w : Num.int.Val}
    (h : st.Denotes .int rid v) (h' : st'.Denotes .int rid' w) (heq : v = w) (u : Num.int.Val) :
    st.Denotes .int rid u ↔ st'.Denotes .int rid' u := by
  subst heq
  exact ⟨fun hu => hu.unique h ▸ h', fun hu => hu.unique h' ▸ h⟩

/-- An evaluation on an array that denotes what it did at the start. -/
theorem eval_asAlone (hne : keys ≠ [])
    (live : ∀ k ∈ keys, start.stores.Denotes .int k (val k))
    (room : start.stores.slots .int + keys.length < maxLocalSlots)
    (file : start.stores.kv.curRid .int Partition.default.val < KvMap.maxKey .int)
    (now : ∀ k ∈ keys, tee.stores.Denotes .int k (val k))
    (h : a.eval e g tee (keys.map some) = some (rid, tee')) :
    AsAlone e g keys start (a, rid, tee'.stores) := by
  have t := twin_of_live live now
  cases a with
  | sum =>
      obtain ⟨r₁, tee₁', hsum, htwin, hmatch, hl⟩ := kvInt4SumBulk_twin t room.le h
      exact ⟨r₁, tee₁', hsum, fun v => (hmatch.denotes_iff htwin hl v).symm⟩
  | avg =>
      obtain ⟨r₁, tee₁', havg, q, hq₁, hq₂⟩ := kvInt4AvgBulk_twin t room file h
      exact ⟨r₁, tee₁', havg, denotes_iff_of_value hq₂ hq₁ rfl⟩
  | max =>
      obtain ⟨k, hk, hmax, hgreatest⟩ := kvInt4MaxBulk_spec (e := e) (g := g) hne now
      obtain ⟨k₁, hk₁, hmax₁, hgreatest₁⟩ := kvInt4MaxBulk_spec (e := e) (g := g) hne live
      cases hmax.symm.trans h
      have hval := BitVec.eq_of_toInt_eq (Int.le_antisymm (hgreatest₁ rid hk) (hgreatest k₁ hk₁))
      exact ⟨k₁, start, hmax₁, denotes_iff_of_value (now rid hk) (live k₁ hk₁) hval⟩
  | min =>
      obtain ⟨k, hk, hmin, hleast⟩ := kvInt4MinBulk_spec (e := e) (g := g) hne now
      obtain ⟨k₁, hk₁, hmin₁, hleast₁⟩ := kvInt4MinBulk_spec (e := e) (g := g) hne live
      cases hmin.symm.trans h
      have hval := BitVec.eq_of_toInt_eq (Int.le_antisymm (hleast k₁ hk₁) (hleast₁ rid hk))
      exact ⟨k₁, start, hmin₁, denotes_iff_of_value (now rid hk) (live k₁ hk₁) hval⟩

/-- An evaluation keeps what an element of the array denotes, if it does not free it. -/
theorem eval_keeps (hne : keys ≠ []) (now : ∀ k ∈ keys, tee.stores.Denotes .int k (val k))
    (h : a.eval e g tee (keys.map some) = some (rid, tee')) {k : RID} (hk : k ∈ keys)
    (hfrees : islocal k = false ∨ a.frees = false) : tee'.stores.Denotes .int k (val k) := by
  have hsum {sum : RID} {tee₁ : Tee} (hg : islocal k = false)
      (hs : kvInt4SumBulk e g tee (keys.map some) = some (sum, tee₁)) :
      tee₁.stores.Denotes .int k (val k) := by
    have hold := now k hk
    rw [denotes_global hg] at hold ⊢
    rw [(kvInt4SumBulk_frame hs).1]
    exact hold
  cases a with
  | sum => exact hsum (hfrees.resolve_right nofun) h
  | avg =>
      obtain ⟨⟨⟨sum, div⟩, tee₁⟩, hops, hdiv⟩ := Option.bind_eq_some_iff.mp h
      obtain ⟨⟨sum', tee₂⟩, hs, hrest⟩ := Option.bind_eq_some_iff.mp hops
      obtain ⟨⟨div', tee₃⟩, hput, heq⟩ := Option.bind_eq_some_iff.mp hrest
      cases heq
      obtain ⟨_, _, q, st, -, -, -, hres, rfl⟩ := kvIntDiv_eq_some.mp hdiv
      have hkept := (kvIntPut_frame hput).2.2 _ _ (hsum (hfrees.resolve_right nofun) hs)
      exact hkept.put_local hres
  | max =>
      obtain ⟨_, -, hmax, -⟩ := kvInt4MaxBulk_spec (e := e) (g := g) hne now
      cases hmax.symm.trans h
      exact now k hk
  | min =>
      obtain ⟨_, -, hmin, -⟩ := kvInt4MinBulk_spec (e := e) (g := g) hne now
      cases hmin.symm.trans h
      exact now k hk

/-- What a run keeps: its results denote what they should, and the array what it did at the
start, unless it has a local RID and was summed. -/
structure Kept (e : Env) (g : Gcm) (keys : List RID) (start : Tee) (val : RID → Num.int.Val)
    (r : EvalRun) : Prop where
  asAlone : ∀ x ∈ r.results, AsAlone e g keys start x
  live : (∀ k ∈ keys, islocal k = false) ∨ (∀ x ∈ r.results, x.1.frees = false) →
    ∀ k ∈ keys, r.tee.stores.Denotes .int k (val k)

/-- In a run in which nothing is evaluated on an array with a local RID once a sum or an average
was, every result denotes what it would if it alone had been evaluated. -/
theorem evaluations_agree_alone (val : RID → Num.int.Val) (hne : keys ≠ [])
    (live : ∀ k ∈ keys, start.stores.Denotes .int k (val k))
    (room : start.stores.slots .int + keys.length < maxLocalSlots)
    (file : start.stores.kv.curRid .int Partition.default.val < KvMap.maxKey .int)
    (path : Machine.Path (step e g keys) (BeforeSum keys) ⟨start, []⟩ r) :
    ∀ x ∈ r.results, AsAlone e g keys start x := by
  have kept : Kept e g keys start val r := by
    refine path.invariant ⟨fun x hx => absurd hx List.not_mem_nil, fun _ => live⟩ ?_
    intro r l r' kept ok hstep
    cases l with
    | evaluate a =>
        obtain ⟨rid, tee', heval, rfl⟩ := step_evaluate hstep
        have now := kept.live ok
        refine ⟨fun x hx => ?_, fun hnext k hk => eval_keeps hne now heval hk ?_⟩
        · rcases List.mem_cons.mp hx with rfl | hx
          · exact eval_asAlone hne live room file now heval
          · exact kept.asAlone x hx
        · exact hnext.imp (fun hglobal => hglobal k hk) fun hnone => hnone _ List.mem_cons_self
    | put value =>
        obtain ⟨rid, st, hput, rfl⟩ := step_put hstep
        exact ⟨kept.asAlone, fun hnext k hk => (kept.live hnext k hk).put_local hput⟩
  exact kept.asAlone

/-- A worker that has put the integer 5. -/
def fiveTee : Option (RID × Tee) :=
  ((⟨.empty, .fresh⟩ : Stores).putLocal .int 5).map fun (rid, st) => (rid, ⟨.zero, st⟩)

theorem fiveTee_spec :
    ∃ rid start, fiveTee = some (rid, start) ∧ start.stores.Denotes .int rid 5 ∧
      start.stores.slots .int ≤ 1 ∧ start.stores.kv = .fresh := by
  obtain ⟨rid, st, hput⟩ := Stores.put_local_room ⟨.empty, .fresh⟩ .int invalidRid 5
    Partition.default.val (Nat.two_pow_pos 47)
  refine ⟨rid, ⟨.zero, st⟩, ?_, (put_local_denotes hput).2.2, (put_local_slots hput .int).2,
    put_local_kv hput⟩
  rw [fiveTee, putLocal, hput]
  rfl

/-- The maximum, a `put`, and then the sum. -/
theorem evaluations_agree_alone_five :
    ∃ rid start r, fiveTee = some (rid, start) ∧
      Machine.Path (step .trivial .plain [rid]) (BeforeSum [rid]) ⟨start, []⟩ r ∧
      r.results.map (·.1) = [.sum, .max] ∧
      ∀ x ∈ r.results, AsAlone .trivial .plain [rid] start x := by
  obtain ⟨rid, start, hfive, hdenotes, hslots, hkv⟩ := fiveTee_spec
  have hrun : (fiveTee.bind fun (rid, start) =>
      (Machine.run (step .trivial .plain [rid]) ⟨start, []⟩
        [.evaluate .max, .put ⟨.int, 9⟩, .evaluate .sum]).map fun _ => ()) = some () := by
    decide +kernel
  rw [hfive, Option.bind_some, Option.map_eq_some_iff] at hrun
  obtain ⟨r, hr, -⟩ := hrun
  simp only [Machine.run, Option.bind_eq_some_iff, Option.some.injEq] at hr
  obtain ⟨r₁, h₁, r₂, h₂, r₃, h₃, rfl⟩ := hr
  obtain ⟨rid₁, tee₁, -, hr₁⟩ := step_evaluate h₁
  obtain ⟨rid₂, st₂, -, hr₂⟩ := step_put h₂
  obtain ⟨rid₃, tee₃, -, hr₃⟩ := step_evaluate h₃
  have hresults₂ : r₂.results = [(.max, rid₁, tee₁.stores)] := by rw [hr₂, hr₁]
  have path : Machine.Path (step .trivial .plain [rid]) (BeforeSum [rid]) ⟨start, []⟩ r₃ := by
    refine .head ⟨.evaluate .max, .inr (by simp), h₁⟩ (.head ⟨.put ⟨.int, 9⟩, trivial, h₂⟩ ?_)
    exact .head ⟨.evaluate .sum, .inr (by simp [hresults₂, Aggregate.frees]), h₃⟩ .refl
  have hmax : 3 ≤ maxLocalSlots := by decide
  refine ⟨rid, start, r₃, hfive, path, by rw [hr₃]; simp [hresults₂], ?_⟩
  exact evaluations_agree_alone (fun _ => 5) (List.cons_ne_nil _ _)
    (fun k hk => List.mem_singleton.mp hk ▸ hdenotes)
    (by rw [List.length_singleton]; omega) (by rw [hkv]; decide) path

/-- The sum frees the only RID of the array, and another value goes to its slot.  The maximum
then is that value. -/
theorem maximum_after_sum_wrong :
    ∃ rid start r, fiveTee = some (rid, start) ∧ start.stores.Denotes .int rid 5 ∧
      Machine.Path (step .trivial .plain [rid]) Machine.free ⟨start, []⟩ r ∧
      ∃ x ∈ r.results, x.1 = .max ∧ x.2.2.get .int x.2.1 = some 9 ∧
        ¬ AsAlone .trivial .plain [rid] start x := by
  obtain ⟨rid, start, hfive, hdenotes, -⟩ := fiveTee_spec
  have hrun : (fiveTee.bind fun (rid, start) =>
      (Machine.run (step .trivial .plain [rid]) ⟨start, []⟩
        [.evaluate .sum, .put ⟨.int, 9⟩, .evaluate .max]).bind fun r =>
        r.results.head?.map fun x => (x.1, islocal x.2.1,
          x.2.2.loc.map .int (local2idx x.2.1).toNat)) = some (.max, true, some 9) := by
    decide +kernel
  rw [hfive, Option.bind_some, Option.bind_eq_some_iff] at hrun
  obtain ⟨r, hr, hhead⟩ := hrun
  obtain ⟨x, hx, heq⟩ := Option.map_eq_some_iff.mp hhead
  obtain ⟨hmax, hrest⟩ := Prod.mk.inj heq
  obtain ⟨hl, hmap⟩ := Prod.mk.inj hrest
  have hnine : x.2.2.Denotes .int x.2.1 9 := (denotes_local hl).mpr hmap
  refine ⟨rid, start, r, hfive, hdenotes, Machine.path_of_run (fun _ _ _ => trivial) hr, x,
    List.mem_of_head? hx, hmax, hnine.get, ?_⟩
  rintro ⟨rid', tee', heval, hiff⟩
  rw [hmax] at heval
  obtain ⟨k, hk, hspec, -⟩ := kvInt4MaxBulk_spec (e := .trivial) (g := .plain)
    (List.cons_ne_nil rid []) fun k hk => (List.mem_singleton.mp hk ▸ hdenotes :
      start.stores.Denotes .int k ((fun _ => 5) k))
  cases hspec.symm.trans heval
  rw [List.mem_singleton.mp hk] at hiff
  exact absurd (hdenotes.unique ((hiff 9).mp hnine)) (by decide)

end EvalRun

end Extension

end Zeno
