import Zeno.Kv.Reuse
import Zeno.Sql.Sum

/-!
# What a sum leaves in the local store

A request `CMD_INT_SUM_BULK` puts its result while its operands are live and then
frees the local ones.  A sum over several chunks does this once for each chunk.
`Stores.Consumes` says what either does to the stores: the listed local RIDs are
dead, the result may be live, and nothing else changed.  The relation composes,
with the partial sum among the keys of the second part (`Consumes.trans`), so
partial sums leave no trace (`sum_bulk_leaks_nothing`).
-/

namespace Zeno

namespace Stores

variable {st st₁ st' : Stores} {t t' : Ty} {key rid tmp : RID} {keys bulk : List RID}

/-- Freed RIDs denote nothing, and every other one denotes what it did. -/
theorem denotes_freeAll_iff {xs : List (Ty × RID)} {value : t.Val} :
    (st.freeAll xs).Denotes t key value ↔
      st.Denotes t key value ∧ (islocal key = true → (t, key) ∉ xs) := by
  induction xs generalizing st with
  | nil => simp [freeAll]
  | cons x xs ih =>
      have hcons : st.freeAll (x :: xs) = (st.freeLocal x.1 x.2).freeAll xs := rfl
      rw [hcons, ih, denotes_freeLocal_iff]
      simp only [List.mem_cons, not_or]
      tauto

theorem freeAll_loc_of_ne (ht : t' ≠ t) (keys : List RID) :
    (st.freeAll (keys.map (t, ·))).loc t' = st.loc t' := by
  induction keys generalizing st with
  | nil => rfl
  | cons key keys ih =>
      have hcons : st.freeAll ((key :: keys).map (t, ·)) =
        (st.freeLocal t key).freeAll (keys.map (t, ·)) := rfl
      rw [hcons, ih, freeLocal_loc_of_ne ht]

theorem freeAll_tight (keys : List RID) (h : (st.loc t).Tight) :
    ((st.freeAll (keys.map (t, ·))).loc t).Tight := by
  induction keys generalizing st with
  | nil => exact h
  | cons key keys ih => exact ih (freeLocal_tight h)

/-- The local keys of a list are dead, one RID may be live, and nothing else changed. -/
structure Consumes (st st' : Stores) (keys : List RID) (rid : RID) : Prop where
  kv : st'.kv = st.kv
  other : ∀ t, t ≠ .int → st'.loc t = st.loc t
  tight : (st.loc .int).Tight → (st'.loc .int).Tight
  isLocal : islocal rid = true
  /-- The RID was not live, unless it was in the list. -/
  fresh : ∀ v, st.Denotes .int rid v → rid ∈ keys
  rest : ∀ k v, islocal k = true → k ≠ rid →
    (st'.Denotes .int k v ↔ st.Denotes .int k v ∧ k ∉ keys)

/-- A chunk, and the remaining keys with its partial sum. -/
theorem Consumes.trans (h : Consumes st st₁ bulk tmp) (h' : Consumes st₁ st' (tmp :: keys) rid) :
    Consumes st st' (bulk ++ keys) rid where
  kv := h'.kv.trans h.kv
  other t ht := (h'.other t ht).trans (h.other t ht)
  tight htight := h'.tight (h.tight htight)
  isLocal := h'.isLocal
  fresh v hv := by
    rw [List.mem_append]
    by_cases htmp : rid = tmp
    · exact .inl (htmp ▸ h.fresh v (htmp ▸ hv))
    · by_contra hnot
      rw [not_or] at hnot
      have hlive := (h.rest rid v h'.isLocal htmp).mpr ⟨hv, hnot.1⟩
      exact hnot.2 ((List.mem_cons.mp (h'.fresh v hlive)).resolve_left htmp)
  rest k v hl hk := by
    rw [h'.rest k v hl hk, List.mem_cons, List.mem_append]
    by_cases htmp : k = tmp
    · -- the partial sum is dead, and before the chunk it was dead or listed
      subst htmp
      constructor
      · exact fun hv => absurd (.inl rfl) hv.2
      · exact fun hv => absurd (.inl (h.fresh v hv.1)) hv.2
    · rw [h.rest k v hl htmp]
      tauto

end Stores

namespace Extension

open Stores

variable {e : Env} {g : Gcm} {tee tee' : Tee} {rid : RID}

theorem kvIntSumBulk_consumes {keys : List RID}
    (h : kvIntSumBulk e g tee keys = some (rid, tee')) :
    Consumes tee.stores tee'.stores keys rid := by
  obtain ⟨sum, st, -, hput, rfl⟩ := kvIntSumBulk_eq_some.mp h
  obtain ⟨hl, hfresh, -⟩ := put_local_denotes hput
  obtain ⟨hother, htight⟩ := put_local_loc hput
  refine ⟨?_, fun t ht => ?_, fun h => freeAll_tight keys (htight h), hl,
    fun v hv => absurd hv (hfresh v), fun k v hk hne => ?_⟩
  · rw [freeAll_kv, put_local_kv hput]
  · rw [freeAll_loc_of_ne ht, hother t ht]
  · have hpair : ((Ty.int, k) : Ty × RID) ≠ (.int, rid) := fun he => hne (Prod.mk.inj he).2
    rw [denotes_freeAll_iff, denotes_put_local_iff hput hpair]
    simp [hk]

/-- The loop consumes the keys of the chunk and the elements left. -/
theorem sumLoop_consumes {bulk : List RID} {vs : List (Option RID)}
    (h : sumLoop (kvIntSumBulk e g) tee bulk vs = some (rid, tee')) :
    Consumes tee.stores tee'.stores (bulk ++ vs.map datum) rid := by
  induction vs generalizing tee bulk with
  | nil =>
      rw [List.map_nil, List.append_nil]
      exact kvIntSumBulk_consumes h
  | cons v vs ih =>
      rw [sumLoop] at h
      split at h
      next =>
        obtain ⟨⟨tmp, tee₁⟩, hsum, hloop⟩ := Option.bind_eq_some_iff.mp h
        exact (kvIntSumBulk_consumes hsum).trans (ih hloop)
      next =>
        have := ih h
        rwa [List.append_assoc, List.singleton_append] at this

theorem kvInt4SumBulk_consumes {vs : List (Option RID)}
    (h : kvInt4SumBulk e g tee vs = some (rid, tee')) :
    Consumes tee.stores tee'.stores (vs.map datum) rid := by
  cases vs with
  | nil => cases h
  | cons v vs => exact sumLoop_consumes h

/-- `kv_int4_sum_bulk` on live RIDs, the local ones each listed once.  Where the free list was
the list of the slots out of use, it is so again.  The local RIDs that are live are those that
were and are not listed, and the result.  They denote what they did, and the stores of the
other types and the files are unchanged. -/
theorem sum_bulk_leaks_nothing {keys : List RID} (val : RID → Num.int.Val) (hne : keys ≠ [])
    (live : ∀ k ∈ keys, tee.stores.Denotes .int k (val k))
    (once : keys.Pairwise fun k k' => islocal k = true → k ≠ k')
    (tight : (tee.stores.loc .int).Tight)
    (room : tee.stores.slots .int + keys.length ≤ maxLocalSlots) :
    ∃ rid tee', kvInt4SumBulk e g tee (keys.map some) = some (rid, tee') ∧
      (tee'.stores.loc .int).Tight ∧ islocal rid = true ∧
      (∀ k, islocal k = true → ((∃ v, tee'.stores.Denotes .int k v) ↔
        ((∃ v, tee.stores.Denotes .int k v) ∧ k ∉ keys) ∨ k = rid)) ∧
      (∀ v, tee.stores.Denotes .int rid v → rid ∈ keys) ∧
      (∀ k v, islocal k = true → tee.stores.Denotes .int k v → k ∉ keys →
        tee'.stores.Denotes .int k v) ∧
      (∀ t, t ≠ .int → tee'.stores.loc t = tee.stores.loc t) ∧
      tee'.stores.kv = tee.stores.kv := by
  obtain ⟨rid, tee', hsum, hdenotes⟩ := kvInt4SumBulk_spec (e := e) (g := g) hne
    (fun k hk => (live k hk).reads) room (oneChunkEach_sumChunks once)
  have hdata : (keys.map some).map datum = keys := by simp [Function.comp_def, datum]
  have c := hdata ▸ kvInt4SumBulk_consumes hsum
  have hkeep (k : RID) (v : Num.int.Val) (hl : islocal k = true)
      (hv : tee.stores.Denotes .int k v) (hk : k ∉ keys) : tee'.stores.Denotes .int k v := by
    have hrid : k ≠ rid := by
      rintro rfl
      exact hk (c.fresh v hv)
    exact (c.rest k v hl hrid).mpr ⟨hv, hk⟩
  refine ⟨rid, tee', hsum, c.tight tight, c.isLocal, fun k hl => ⟨?_, ?_⟩, c.fresh, hkeep, c.other,
    c.kv⟩
  · rintro ⟨v, hv⟩
    by_cases hrid : k = rid
    · exact .inr hrid
    · have hold := (c.rest k v hl hrid).mp hv
      exact .inl ⟨⟨v, hold.1⟩, hold.2⟩
  · rintro (⟨⟨v, hv⟩, hk⟩ | rfl)
    · exact ⟨v, hkeep k v hl hv hk⟩
    · exact ⟨_, hdenotes⟩

/-- A worker that has put some integers: as many local RIDs, no others, and no gap. -/
theorem exists_liveKeys {n : Nat} (h : n ≤ maxLocalSlots) :
    ∃ (st : Stores) (keys : List RID), keys.length = n ∧ keys.Nodup ∧
      (∀ k ∈ keys, islocal k = true ∧ st.Denotes .int k 1) ∧
      (∀ k v, islocal k = true → st.Denotes .int k v → k ∈ keys) ∧
      (st.loc .int).Tight ∧ st.slots .int ≤ n := by
  induction n with
  | zero =>
      refine ⟨⟨.empty, .fresh⟩, [], rfl, List.nodup_nil, fun k hk => absurd hk List.not_mem_nil,
        fun k v hl hv => ?_, LocalStore.tight_empty, Nat.le_refl 0⟩
      have hlt := lt_slots_of_get hl hv.get
      exact absurd hlt (Nat.not_lt_zero _)
  | succ n ih =>
      obtain ⟨st, keys, hlen, hnodup, hlive, honly, htight, hslots⟩ := ih (Nat.le_of_succ_le h)
      obtain ⟨rid, st', hput⟩ := st.put_local_room .int invalidRid 1 Partition.default.val
        (Nat.lt_of_le_of_lt hslots h)
      obtain ⟨hl, hfresh, hdenotes⟩ := put_local_denotes hput
      have hnew : rid ∉ keys := fun hmem => hfresh 1 (hlive rid hmem).2
      refine ⟨st', rid :: keys, by rw [List.length_cons, hlen], List.nodup_cons.mpr ⟨hnew, hnodup⟩,
        fun k hk => ?_, fun k v hk hv => ?_, (put_local_loc hput).2 htight,
        (put_local_slots hput .int).2.trans (Nat.succ_le_succ hslots)⟩
      · rcases List.mem_cons.mp hk with rfl | hk
        · exact ⟨hl, hdenotes⟩
        · exact ⟨(hlive k hk).1, (hlive k hk).2.put_local hput⟩
      · by_cases hrid : k = rid
        · exact hrid ▸ List.mem_cons_self
        · have hpair : ((Ty.int, k) : Ty × RID) ≠ (.int, rid) := fun he => hrid (Prod.mk.inj he).2
          exact List.mem_cons_of_mem _ (honly k v hk ((denotes_put_local_iff hput hpair).mp hv))

/-- The sum of 300 local RIDs, in two chunks.  One more local RID, which is not listed, keeps its
value, and beside it only the result is live. -/
theorem sum_bulk_leaks_nothing_chunks :
    ∃ (keys : List RID) (other rid : RID) (tee tee' : Tee), keys.length = 300 ∧ keys.Nodup ∧
      (∀ k ∈ keys, islocal k = true ∧ tee.stores.Denotes .int k 1) ∧
      other ∉ keys ∧ tee.stores.Denotes .int other 1 ∧
      kvInt4SumBulk .trivial .plain tee (keys.map some) = some (rid, tee') ∧
      (tee'.stores.loc .int).Tight ∧ tee'.stores.Denotes .int other 1 ∧
      ∀ k, islocal k = true → ((∃ v, tee'.stores.Denotes .int k v) ↔ k = other ∨ k = rid) := by
  obtain ⟨st, all, hlen, hnodup, hlive, honly, htight, hslots⟩ :=
    exists_liveKeys (n := 301) (by decide)
  obtain ⟨tee, rfl⟩ : ∃ tee : Tee, tee.stores = st := ⟨⟨.zero, st⟩, rfl⟩
  obtain ⟨other, keys, rfl⟩ := List.exists_cons_of_length_eq_add_one hlen
  obtain ⟨hnot, hkeys⟩ := List.nodup_cons.mp hnodup
  rw [List.length_cons, Nat.add_right_cancel_iff] at hlen
  have hlisted (k : RID) (hk : k ∈ keys) := hlive k (List.mem_cons_of_mem _ hk)
  have hroom : tee.stores.slots .int + keys.length ≤ maxLocalSlots := by
    have hmax : 601 ≤ maxLocalSlots := by decide
    omega
  have honce : keys.Pairwise fun k k' => islocal k = true → k ≠ k' := by
    refine List.Pairwise.imp ?_ hkeys
    exact fun hne _ => hne
  obtain ⟨rid, tee', hsum, htight', -, hlive', -, hkeep, -⟩ :=
    sum_bulk_leaks_nothing (e := .trivial) (g := .plain) (fun _ => 1)
      (List.ne_nil_of_length_pos (by omega)) (fun k hk => (hlisted k hk).2)
      honce htight hroom
  obtain ⟨hl, hother⟩ := hlive other List.mem_cons_self
  refine ⟨keys, other, rid, tee, tee', hlen, hkeys, hlisted, hnot, hother, hsum, htight',
    hkeep other 1 hl hother hnot, fun k hk => ?_⟩
  rw [hlive' k hk]
  refine or_congr ⟨?_, ?_⟩ Iff.rfl
  · rintro ⟨⟨v, hv⟩, hmem⟩
    exact (List.mem_cons.mp (honly k v hk hv)).resolve_right hmem
  · rintro rfl
    exact ⟨⟨1, hother⟩, hnot⟩

end Extension

end Zeno
