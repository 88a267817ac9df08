import Zeno.Kv.Shared

/-!
# What a run of puts leaves alone

A run of puts takes its slots and its bytes off the counters, so what it takes
lies at or above the counters of the files it began with (`AboveInv`).  A field
whose slot is below the counter is therefore never written, and neither is a
text in a file with no byte left, since no put to that file gets past its room
check.  Such a field is *spared*.  These are all: the slot of any other field is
given out by some run (`puts_reach`).
-/

namespace Zeno

open KvMap

/-- No later `put` takes the slot of the RID: it was given out already, or the text file
has no byte left. -/
def KvMap.Spared (kv : KvMap) (t : Ty) (key : RID) : Prop :=
  (ridIndex key).toNat < kv.curRid t (ridPartition key) ∨
    t = .text ∧ storeSize ≤ (kv.text (ridPartition key)).curStoreOffset

/-- A claim lies at or above the counters of some files. -/
structure Claim.Above (kv : KvMap) (c : Claim) : Prop where
  slot : ∀ t p k, c.slot = some (t, p, k) → kv.curRid t p ≤ k
  range : ∀ r, c.range = some r → (kv.text r.part).curStoreOffset ≤ r.pos

/-- The counters of some files have not gone down. -/
structure KvMap.CountersLe (kv kv' : KvMap) : Prop where
  curRid : ∀ t p, kv.curRid t p ≤ kv'.curRid t p
  curStoreOffset : ∀ p, (kv.text p).curStoreOffset ≤ (kv'.text p).curStoreOffset

theorem KvMap.CountersLe.refl (kv : KvMap) : kv.CountersLe kv :=
  ⟨fun _ _ => Nat.le_refl _, fun _ => Nat.le_refl _⟩

theorem KvMap.CountersLe.frame {kv₀ kv kv' : KvMap} {slot : Option Slot}
    {range : Option ByteRange} (h : kv₀.CountersLe kv) (f : Frame kv kv' slot range) :
    kv₀.CountersLe kv' :=
  ⟨fun t p => (h.curRid t p).trans (f.curRid t p),
    fun p => (h.curStoreOffset p).trans (f.curStoreOffset p)⟩

/-- What a put takes off the counters is above where they were before. -/
theorem Claim.Above.grows {kv₀ kv : KvMap} {c d : Claim} (h : c.Above kv₀)
    (le : kv₀.CountersLe kv) (grows : c.Grows kv d) : d.Above kv₀ := by
  refine ⟨?_, ?_⟩
  · intro t p k hk
    rcases grows.slot _ hk with hold | ⟨t', p', heq⟩
    · exact h.slot t p k hold
    · cases heq
      exact le.curRid t p
  · intro r hr
    rcases grows.range r hr with hold | hnew
    · exact h.range r hold
    · rw [hnew]
      exact le.curStoreOffset r.part

/-- A step that stores the offset of a text has room for its bytes. -/
theorem advance_offset_room {kv : KvMap} {pc : Pc} {m : Micro} {p : RID} {k : Nat}
    (h : advance kv pc = some m) (hw : pc.writes.slot = some (.text, p, k)) :
    ∃ r, pc.claim.range = some r ∧ r.part = p ∧ r.pos < storeSize := by
  cases Advances.of h with
  | @offset value target key pos room =>
      cases hw
      exact ⟨_, rfl, rfl, by simp only; omega⟩
  | take | store | alloc | copy | last => cases hw

namespace Shared

variable {ι : Type}

/-! ## The cells a run takes -/

/-- In a run of puts from some files, every cell taken lies above their counters. -/
structure AboveInv (kv₀ : KvMap) (s : Shared ι) : Prop where
  puts : s.PutInv
  counters : kv₀.CountersLe s.kv
  running : ∀ i, (s.pc i).claim.Above kv₀
  returned : ∀ r ∈ s.returned, (r.claim s.kv).Above kv₀

theorem aboveInv_quiet (kv : KvMap) : (quiet ι kv).AboveInv kv where
  puts := putInv_quiet kv
  counters := .refl kv
  running _ := ⟨fun _ _ _ h => (nomatch h), fun _ h => nomatch h⟩
  returned _ h := nomatch h

/-- The next store of a thread misses the slot of a spared field. -/
theorem AboveInv.slot_ne {kv₀ : KvMap} {s : Shared ι} {i : ι} {m : Micro} {t : Ty} {key : RID}
    (inv : s.AboveInv kv₀) (hm : Zeno.advance s.kv (s.pc i) = some m) (spared : kv₀.Spared t key) :
    (s.pc i).writes.slot ≠ some (slotOf t key) := by
  intro hw
  rcases spared with allocated | ⟨rfl, full⟩
  · have habove := (inv.running i).slot _ _ _ ((s.pc i).writes_claim.1 _ hw)
    omega
  · obtain ⟨r, hr, hpart, hroom⟩ := advance_offset_room hm hw
    have habove := (inv.running i).range r hr
    rw [hpart] at habove
    omega

/-- The next store of a thread misses the bytes that were below the counters. -/
theorem AboveInv.bytes_disjoint {kv₀ : KvMap} {s : Shared ι} {i : ι} {r r' : ByteRange}
    (inv : s.AboveInv kv₀) (hw : (s.pc i).writes.range = some r)
    (below : r'.pos + r'.len ≤ (kv₀.text r'.part).curStoreOffset) : r.Disjoint r' :=
  .of_counter kv₀ ((inv.running i).range r ((s.pc i).writes_claim.2 r hw)) below

/-- The RID of a spared field is not among those returned. -/
theorem AboveInv.rid_ne {kv₀ : KvMap} {s : Shared ι} {r : PutRecord} {t : Ty} {key : RID}
    (inv : s.AboveInv kv₀) (hr : r ∈ s.returned) (spared : kv₀.Spared t key)
    (ht : r.val.1 = t) : r.rid ≠ key := by
  rintro rfl
  have habove := inv.returned r hr
  rcases spared with allocated | ⟨htext, full⟩
  · have hslot := habove.slot _ _ _ rfl
    rw [ht] at hslot
    omega
  · -- the bytes of a completed put are inside the file
    have hkept := (inv.puts.kept r hr).stored.holds
    obtain ⟨⟨t', value⟩, p, k⟩ := r
    obtain rfl : t' = .text := ht.trans htext
    have hinside := hkept.inside
    have hpos := habove.range _ rfl
    simp only at hpos
    omega

variable [DecidableEq ι]

theorem AboveInv.step {kv₀ : KvMap} {s s' : Shared ι} {l : SharedLabel ι}
    (inv : s.AboveInv kv₀) (ok : s.putsOnly l) (h : s.step l = some s') : s'.AboveInv kv₀ := by
  obtain ⟨hputs, hsame⟩ := inv.puts.step ok h
  cases l with
  | start i op =>
      obtain ⟨hidle, rfl⟩ := step_start h
      refine ⟨hputs, inv.counters, ?_, inv.returned⟩
      refine (Function.forall_update_iff s.pc fun _ pc => pc.claim.Above kv₀).mpr
        ⟨?_, fun j _ => inv.running j⟩
      exact ⟨fun _ _ _ hk => (nomatch hk), fun _ hr => nomatch hr⟩
  | advance i =>
      obtain ⟨m, hm, rfl⟩ := step_advance h
      refine ⟨hputs, inv.counters.frame (advance_frame hm), ?_, ?_⟩
      · exact (Function.forall_update_iff s.pc fun _ pc => pc.claim.Above kv₀).mpr
          ⟨(inv.running i).grows inv.counters (advance_grows hm (inv.puts.put i)),
            fun j _ => inv.running j⟩
      · intro r hr
        rcases List.mem_append.mp hr with hold | hnew
        · show (r.claim m.kv).Above kv₀
          rw [(hsame r hold).2]
          exact inv.returned r hold
        · obtain ⟨-, -, hclaim⟩ := advance_ret hm (Option.mem_toList.mp hnew) (inv.puts.inRange i)
            (inv.puts.copied i) (inv.puts.slotBelow i) (inv.puts.rangeBelow i)
          show (r.claim m.kv).Above kv₀
          rw [hclaim]
          exact inv.running i

/-- A step leaves a spared field of the files the run began with. -/
theorem AboveInv.stored {kv₀ : KvMap} {s s' : Shared ι} {l : SharedLabel ι} {t : Ty} {key : RID}
    {value : t.Val} (inv : s.AboveInv kv₀) (h : s.step l = some s')
    (spared : kv₀.Spared t key) (stored₀ : kv₀.Stored t key value)
    (stored : s.kv.Stored t key value) (same : s.kv.range t key value = kv₀.range t key value) :
    s'.kv.Stored t key value ∧ s'.kv.range t key value = kv₀.range t key value := by
  cases l with
  | start i op =>
      obtain ⟨-, rfl⟩ := step_start h
      exact ⟨stored, same⟩
  | advance i =>
      obtain ⟨m, hm, rfl⟩ := step_advance h
      have f := advance_writes hm
      have hslot := inv.slot_ne hm spared
      refine ⟨stored.frame f hslot fun r r' hr hr' => ?_, (f.range hslot value).trans same⟩
      rw [same] at hr'
      exact inv.bytes_disjoint hr (stored₀.range_below hr')

/-- A run of puts neither writes nor returns a spared field of the files it began with. -/
theorem puts_spare {kv : KvMap} {u : Shared ι} {t : Ty} {key : RID} {value : t.Val}
    (path : Machine.Path Shared.step putsOnly (quiet ι kv) u) (spared : kv.Spared t key)
    (stored : kv.Stored t key value) :
    u.kv.Stored t key value ∧ ∀ r ∈ u.returned, r.val.1 = t → r.rid ≠ key := by
  have hinv : u.AboveInv kv ∧ u.kv.Stored t key value ∧
      u.kv.range t key value = kv.range t key value := by
    refine path.invariant (I := fun u : Shared ι => u.AboveInv kv ∧ u.kv.Stored t key value ∧
      u.kv.range t key value = kv.range t key value)
      ⟨aboveInv_quiet kv, stored, rfl⟩ fun s l s' hI hok hs => ?_
    obtain ⟨inv, hstored, hsame⟩ := hI
    exact ⟨inv.step hok hs, inv.stored hs spared stored hstored hsame⟩
  exact ⟨hinv.2.1, fun r hr ht => hinv.1.rid_ne hr spared ht⟩

/-! ## The slots a run can reach -/

/-- Any number of threads can be stopped right after their `fetch_add` on `cur_rid`. -/
theorem take_path (kv : KvMap) (t : Ty) (p : Partition) (n : Nat)
    (room : kv.curRid t p.val + n ≤ maxKey t) :
    ∃ s : Shared Nat, Machine.Path step putsOnly (quiet Nat kv) s ∧
      s.kv.curRid t p.val = kv.curRid t p.val + n ∧ (∀ i, n ≤ i → s.pc i = .idle) ∧
        ∀ q, (s.kv.text q).curStoreOffset = (kv.text q).curStoreOffset := by
  induction n with
  | zero => exact ⟨quiet Nat kv, .refl, rfl, fun _ _ => rfl, fun _ => rfl⟩
  | succ n ih =>
      obtain ⟨s, path, hcur, hidle, hoff⟩ := ih (by omega)
      let op : StoreOp := ⟨⟨t, t.zero⟩, .fresh p⟩
      let s₁ : Shared Nat := { s with pc := Function.update s.pc n (.fetch op) }
      let s₂ : Shared Nat :=
        { kv := s.kv.bump t p.val
          pc := Function.update s.pc n (.ofSlot (.fresh p) (s.kv.curRid t p.val) ⟨t, t.zero⟩)
          returned := s.returned }
      have hstart : s.step (.start n op) = some s₁ := by
        simp only [step, hidle n (Nat.le_refl n), s₁]
      have htake : s₁.step (.advance n) = some s₂ := by
        have hlt : s.kv.curRid t p.val < maxKey t := by omega
        simp only [step, s₁, s₂, op, Function.update_self, Zeno.advance, Target.take, hlt, if_true,
          Option.map_some, Option.toList_none, List.append_nil, Function.update_idem]
      have path₂ : Machine.Path step putsOnly (quiet Nat kv) s₂ :=
        (path.tail ⟨.start n op, ⟨p, rfl⟩, hstart⟩).tail ⟨.advance n, trivial, htake⟩
      refine ⟨s₂, path₂, ?_, ?_, ?_⟩
      · show (s.kv.bump t p.val).curRid t p.val = _
        rw [s.kv.curRid_bump, hcur, Nat.add_assoc]
      · intro i hi
        show Function.update s.pc n _ i = _
        rw [Function.update_of_ne (by omega)]
        exact hidle i (by omega)
      · intro q
        rw [← hoff q]
        exact s.kv.bump_offset t p.val q

/-- A slot that is in range and not spared is given out by some run of puts. -/
theorem puts_reach {kv : KvMap} {t : Ty} {key : RID} (valid : ValidRid t key)
    (h : ¬ kv.Spared t key) :
    ∃ u : Shared Nat, Machine.Path step putsOnly (quiet Nat kv) u ∧
      ∃ r ∈ u.returned, r.val.1 = t ∧ r.rid = key := by
  obtain ⟨p, hrid⟩ := Partition.exists_rid valid.1
  have hpart : ridPartition key = p.val := by rw [← hrid, p.ridPartition_rid]
  simp only [KvMap.Spared, not_or, not_and, Nat.not_lt, Nat.not_le, hpart] at h
  obtain ⟨n, hn⟩ := Nat.exists_eq_add_of_le h.1
  have hlt : (ridIndex key).toNat < maxKey t := valid.2
  -- the slots below are taken first, by threads that then stop
  obtain ⟨s, path, hcur, hidle, hoff⟩ := take_path kv t p n (by omega)
  obtain ⟨kv', hput⟩ :
      ∃ kv', s.kv.put t t.zero p.val = some (p.rid (s.kv.curRid t p.val), kv') := by
    refine put_zero (by omega) fun ht => ?_
    rw [hoff]
    exact h.2 ht
  have hput_path := put_path (hidle n (Nat.le_refl n)) hput
  refine ⟨_, path.trans (hput_path.mono ?_), _,
    List.mem_append_right _ (List.mem_singleton.mpr rfl), rfl, ?_⟩
  · intro a l hl
    cases l with
    | start i op => exact ⟨p, by rw [show op = _ from hl]⟩
    | advance i => trivial
  · show p.rid (s.kv.curRid t p.val) = key
    rw [hcur, ← hn, hrid]

end Shared

end Zeno
