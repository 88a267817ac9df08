import Mathlib.Data.List.Pairwise
import Zeno.Kv.Advance
import Zeno.Lib.Machine

/-!
# Workers sharing the mapped stores

The machine of any number of threads that put and replace fields of the same
files, one step of one thread at a time.  In a run of puts the calls claim
different cells, all taken off the counters, and the cells of a completed put
are never written again (`PutInv`).  So the RIDs returned are all different, and
each keeps its value (`puts_write_once`).
-/

namespace Zeno

open KvMap

/-! ## The machine -/

/-- The mapped stores with the threads at work on them. -/
structure Shared (ι : Type) where
  /-- The files. -/
  kv : KvMap
  /-- Where each thread stands. -/
  pc : ι → Pc
  /-- The puts completed so far, in the order they returned. -/
  returned : List PutRecord

/-- A step of the machine. -/
inductive SharedLabel (ι : Type) where
  /-- A thread begins an operation. -/
  | start (i : ι) (op : StoreOp)
  /-- A thread takes one step of its operation. -/
  | advance (i : ι)

namespace Shared

variable {ι : Type}

/-- The files with no operation running. -/
def quiet (ι : Type) (kv : KvMap) : Shared ι := { kv := kv, pc := fun _ => .idle, returned := [] }

/-- Only puts are begun. -/
def putsOnly (_ : Shared ι) : SharedLabel ι → Prop
  | .start _ op => ∃ p, op.target = .fresh p
  | .advance _ => True

/-- In a run of puts, every cell belongs to one call or to one completed put. -/
structure PutInv (s : Shared ι) : Prop where
  put : ∀ i, (s.pc i).IsPut
  inRange : ∀ i, (s.pc i).InRange
  copied : ∀ i, (s.pc i).Copied s.kv
  slotBelow : ∀ i, (s.pc i).claim.SlotBelow s.kv
  rangeBelow : ∀ i, (s.pc i).claim.RangeBelow s.kv
  apart : ∀ i j, i ≠ j → (s.pc i).claim.Apart (s.pc j).claim
  kept : ∀ r ∈ s.returned, r.Kept s.kv
  keptApart : ∀ r ∈ s.returned, ∀ i, (r.claim s.kv).Apart (s.pc i).claim
  distinct : s.returned.Pairwise fun r r' => slotOf r.val.1 r.rid ≠ slotOf r'.val.1 r'.rid

theorem putInv_quiet (kv : KvMap) : (quiet ι kv).PutInv where
  put _ _ h := nomatch h
  inRange _ _ _ _ h := nomatch h
  copied _ := trivial
  slotBelow _ _ _ _ h := nomatch h
  rangeBelow _ _ h := nomatch h
  apart _ _ _ := .of_none rfl rfl
  kept _ h := nomatch h
  keptApart _ h := nomatch h
  distinct := .nil

/-- A completed put is determined by the RID it returned and its type. -/
theorem PutInv.eq_of_slot {s : Shared ι} (inv : s.PutInv) {r r' : PutRecord}
    (hr : r ∈ s.returned) (hr' : r' ∈ s.returned)
    (h : slotOf r.val.1 r.rid = slotOf r'.val.1 r'.rid) : r = r' := by
  by_contra hne
  have hsymm : Std.Symm fun r r' : PutRecord =>
      slotOf r.val.1 r.rid ≠ slotOf r'.val.1 r'.rid := ⟨fun _ _ hab => Ne.symm hab⟩
  exact inv.distinct.forall hr hr' hne h

variable [DecidableEq ι]

/-- One step of one thread. -/
def step (s : Shared ι) : SharedLabel ι → Option (Shared ι)
  | .start i op =>
      match s.pc i with
      | .idle => some { s with pc := Function.update s.pc i (.fetch op) }
      | _ => none
  | .advance i =>
      (Zeno.advance s.kv (s.pc i)).map fun m =>
        { kv := m.kv
          pc := Function.update s.pc i m.pc
          returned := s.returned ++ m.ret.toList }

theorem step_start {s s' : Shared ι} {i : ι} {op : StoreOp} (h : s.step (.start i op) = some s') :
    s.pc i = .idle ∧ s' = { s with pc := Function.update s.pc i (.fetch op) } := by
  simp only [step] at h
  split at h
  next hidle => exact ⟨hidle, (Option.some.inj h).symm⟩
  next => cases h

theorem step_advance {s s' : Shared ι} {i : ι} (h : s.step (.advance i) = some s') :
    ∃ m, Zeno.advance s.kv (s.pc i) = some m ∧
      s' = { kv := m.kv
             pc := Function.update s.pc i m.pc
             returned := s.returned ++ m.ret.toList } := by
  simp only [step, Option.map_eq_some_iff] at h
  obtain ⟨m, hm, rfl⟩ := h
  exact ⟨m, hm, rfl⟩

/-- Beginning a put changes no cell and claims none. -/
theorem PutInv.start {s s' : Shared ι} {i : ι} {op : StoreOp} (inv : s.PutInv)
    (put : ∃ p, op.target = .fresh p) (h : s.step (.start i op) = some s') : s'.PutInv := by
  obtain ⟨hidle, rfl⟩ := step_start h
  have hclaim (j : ι) : (Function.update s.pc i (.fetch op) j).claim = (s.pc j).claim := by
    by_cases hj : j = i
    · subst hj
      rw [Function.update_self, hidle]
      rfl
    · rw [Function.update_of_ne hj]
  refine
    { put := fun j => ?_, inRange := fun j => ?_, copied := fun j => ?_,
      slotBelow := fun j => ?_, rangeBelow := fun j => ?_, apart := fun j k hjk => ?_,
      kept := inv.kept, keptApart := fun r hr j => ?_, distinct := inv.distinct }
  · revert j
    refine (Function.forall_update_iff s.pc fun _ pc => pc.IsPut).mpr ⟨?_, fun j _ => inv.put j⟩
    rintro target ⟨⟩
    exact put
  · simpa only [Pc.InRange, hclaim] using inv.inRange j
  · revert j
    exact (Function.forall_update_iff s.pc fun _ pc => pc.Copied s.kv).mpr
      ⟨trivial, fun j _ => inv.copied j⟩
  · simpa only [hclaim] using inv.slotBelow j
  · simpa only [hclaim] using inv.rangeBelow j
  · simpa only [hclaim] using inv.apart j k hjk
  · simpa only [hclaim] using inv.keptApart r hr j

/-- A step changes only the cells of its own call, and takes only cells off the counters. -/
theorem PutInv.advance {s s' : Shared ι} {i : ι} (inv : s.PutInv)
    (h : s.step (.advance i) = some s') :
    s'.PutInv ∧ ∀ r ∈ s.returned, r ∈ s'.returned ∧ r.claim s'.kv = r.claim s.kv := by
  obtain ⟨m, hm, rfl⟩ := step_advance h
  have f := advance_frame hm
  have hgrows := advance_grows hm (inv.put i)
  have hold (r : PutRecord) (hr : r ∈ s.returned) := (inv.kept r hr).frame f (inv.keptApart r hr i)
  have hnew (r : PutRecord) (hr : r ∈ m.ret.toList) :=
    advance_ret hm (Option.mem_toList.mp hr) (inv.inRange i) (inv.copied i) (inv.slotBelow i)
      (inv.rangeBelow i)
  have hmoved (j : ι) (hj : j ≠ i) : (s.pc j).claim.Apart m.pc.claim :=
    (inv.apart j i hj).grows (inv.slotBelow j) (inv.rangeBelow j) hgrows
  refine ⟨?_, fun r hr => ⟨List.mem_append_left _ hr, (hold r hr).2⟩⟩
  refine
    { put := ?_, inRange := ?_, copied := ?_, slotBelow := ?_, rangeBelow := ?_, apart := ?_,
      kept := ?_, keptApart := ?_, distinct := ?_ }
  · exact (Function.forall_update_iff s.pc fun _ pc => pc.IsPut).mpr
      ⟨advance_isPut hm (inv.put i), fun j _ => inv.put j⟩
  · exact (Function.forall_update_iff s.pc fun _ pc => pc.InRange).mpr
      ⟨advance_inRange hm (inv.inRange i), fun j _ => inv.inRange j⟩
  · exact (Function.forall_update_iff s.pc fun _ pc => pc.Copied m.kv).mpr
      ⟨advance_copied hm (inv.copied i), fun j hj => (inv.copied j).frame f (inv.apart j i hj)⟩
  · exact (Function.forall_update_iff s.pc fun _ pc => pc.claim.SlotBelow m.kv).mpr
      ⟨advance_slotBelow hm (inv.put i) (inv.slotBelow i), fun j _ => (inv.slotBelow j).mono f⟩
  · exact (Function.forall_update_iff s.pc fun _ pc => pc.claim.RangeBelow m.kv).mpr
      ⟨advance_rangeBelow hm (inv.rangeBelow i), fun j _ => (inv.rangeBelow j).mono f⟩
  · exact Machine.pairwise_update (fun _ _ (pc pc' : Pc) => pc.claim.Apart pc'.claim)
      (fun _ _ _ _ => Claim.Apart.symm) inv.apart fun k hk => (hmoved k hk.symm).symm
  · intro r hr
    rcases List.mem_append.mp hr with hr | hr
    · exact (hold r hr).1
    · exact (hnew r hr).2.1
  · intro r hr
    rcases List.mem_append.mp hr with hr | hr
    · simp only [(hold r hr).2]
      have hkept := inv.kept r hr
      exact (Function.forall_update_iff s.pc fun _ pc => (r.claim s.kv).Apart pc.claim).mpr
        ⟨(inv.keptApart r hr i).grows hkept.slotBelow hkept.rangeBelow hgrows,
          fun j _ => inv.keptApart r hr j⟩
    · -- the cells of the call become those of its record
      obtain ⟨hidle, -, hclaim⟩ := hnew r hr
      simp only [hclaim]
      refine (Function.forall_update_iff s.pc fun _ pc => (s.pc i).claim.Apart pc.claim).mpr
        ⟨?_, fun j hj => inv.apart i j (Ne.symm hj)⟩
      rw [hidle]
      exact (Claim.Apart.of_none rfl rfl).symm
  · refine List.pairwise_append.mpr ⟨inv.distinct, ?_, fun r hr r' hr' he => ?_⟩
    · cases m.ret with
      | none => exact .nil
      | some r => exact List.pairwise_singleton _ _
    · have hclaim := (hnew r' hr').2.2
      refine (inv.keptApart r hr i).slot _ rfl ?_
      rw [← hclaim]
      exact congrArg some he.symm

/-- What a step of a run of puts keeps. -/
theorem PutInv.step {s s' : Shared ι} {l : SharedLabel ι} (inv : s.PutInv) (ok : s.putsOnly l)
    (h : s.step l = some s') :
    s'.PutInv ∧ ∀ r ∈ s.returned, r ∈ s'.returned ∧ r.claim s'.kv = r.claim s.kv := by
  cases l with
  | start i op =>
      have hinv := inv.start ok h
      obtain ⟨-, rfl⟩ := step_start h
      exact ⟨hinv, fun r hr => ⟨hr, rfl⟩⟩
  | advance i => exact inv.advance h

/-- What a run of puts keeps: a completed put stays, with its cells and its value. -/
theorem PutInv.path {s u : Shared ι} (inv : s.PutInv)
    (path : Machine.Path Shared.step putsOnly s u) :
    u.PutInv ∧ ∀ r ∈ s.returned, r ∈ u.returned ∧ r.claim u.kv = r.claim s.kv := by
  refine path.invariant (I := fun u => u.PutInv ∧
    ∀ r ∈ s.returned, r ∈ u.returned ∧ r.claim u.kv = r.claim s.kv)
    ⟨inv, fun r hr => ⟨hr, rfl⟩⟩ fun a l b hI hok hs => ?_
  obtain ⟨hinv, hsame⟩ := hI
  obtain ⟨hinv', hsame'⟩ := hinv.step hok hs
  refine ⟨hinv', fun r hr => ?_⟩
  obtain ⟨hmem, hclaim⟩ := hsame r hr
  exact ⟨(hsame' r hmem).1, (hsame' r hmem).2.trans hclaim⟩

/-! ## A put on its own -/

/-- Only one operation is begun. -/
def startsOnly (op : StoreOp) (_ : Shared ι) : SharedLabel ι → Prop
  | .start _ op' => op' = op
  | .advance _ => True

/-- Copying the bytes that are left of a text. -/
theorem copy_path {i : ι} {value : CStr} {p : Partition} (op : StoreOp) (key pos : Nat)
    (store : Mem) (left : Nat) {s : Shared ι} (done : Fin (value.length + 1))
    (hleft : done.val + left = value.length)
    (hpc : s.pc i = .textCopy value (.fresh p) key pos done)
    (hstore : (s.kv.text p.val).store = store.write pos (value.terminated.take done)) :
    Machine.Path step (startsOnly op) s
      { kv := s.kv.setText p.val
          { s.kv.text p.val with store := store.write pos value.terminated }
        pc := Function.update s.pc i .idle
        returned := s.returned ++ [{ val := ⟨.text, value⟩, partition := p, key := key }] } := by
  induction left generalizing s done with
  | zero =>
      have hall : ¬ done.val < value.length := by omega
      have hbyte := Mem.update_write_take store pos
        (done.isLt.trans_eq value.length_terminated.symm)
      have hfull : value.terminated.take (done.val + 1) = value.terminated :=
        List.take_of_length_le (by rw [CStr.length_terminated]; omega)
      refine .single ⟨.advance i, trivial, ?_⟩
      simp only [step, hpc, Zeno.advance, dif_neg hall, Option.map_some, Target.partition,
        Target.record, hstore, hbyte, hfull, Option.toList_some]
  | succ left ih =>
      have hmore : done.val < value.length := by omega
      have hbyte := Mem.update_write_take store pos
        (done.isLt.trans_eq value.length_terminated.symm)
      let s₁ : Shared ι :=
        { kv := s.kv.setText p.val
            { s.kv.text p.val with
              store := store.write pos (value.terminated.take (done.val + 1)) }
          pc := Function.update s.pc i
            (.textCopy value (.fresh p) key pos ⟨done + 1, Nat.succ_lt_succ hmore⟩)
          returned := s.returned }
      have hnext : s.step (.advance i) = some s₁ := by
        simp only [step, hpc, Zeno.advance, dif_pos hmore, Option.map_some, Target.partition,
          hstore, hbyte, Option.toList_none, List.append_nil, s₁]
      have hrest := ih (s := s₁) ⟨done + 1, Nat.succ_lt_succ hmore⟩ (by simp only; omega)
        (Function.update_self ..) (by simp only [s₁, setText_text_self])
      simp only [s₁, setText_setText, setText_text_self, Function.update_idem] at hrest
      exact .head ⟨.advance i, trivial, hnext⟩ hrest

/-- A `put` that runs on its own takes the steps of the machine. -/
theorem put_path {s : Shared ι} {i : ι} {t : Ty} {value : t.Val} {p : Partition} {rid : RID}
    {kv' : KvMap} (idle : s.pc i = .idle) (h : s.kv.put t value p.val = some (rid, kv')) :
    Machine.Path step (startsOnly ⟨⟨t, value⟩, .fresh p⟩) s
      { kv := kv'
        pc := s.pc
        returned := s.returned ++
          [{ val := ⟨t, value⟩, partition := p, key := s.kv.curRid t p.val }] } := by
  have hback (pc : Pc) : Function.update (Function.update s.pc i pc) i .idle = s.pc := by
    rw [Function.update_idem, ← idle, Function.update_eq_self]
  obtain ⟨hlt, -⟩ := put_rid h
  have hstart : s.step (.start i ⟨⟨t, value⟩, .fresh p⟩) =
      some { s with pc := Function.update s.pc i (.fetch ⟨⟨t, value⟩, .fresh p⟩) } := by
    simp only [step, idle]
  refine .head ⟨.start i ⟨⟨t, value⟩, .fresh p⟩, rfl, hstart⟩ ?_
  cases t with
  | num n =>
      obtain ⟨-, -, rfl⟩ := put_num_eq_some.mp h
      let s₁ : Shared ι :=
        { kv := s.kv.bump (.num n) p.val
          pc := Function.update s.pc i (.numStore n value (.fresh p) (s.kv.curRid (.num n) p.val))
          returned := s.returned }
      refine .head (b := s₁) ⟨.advance i, trivial, ?_⟩ (.single ⟨.advance i, trivial, ?_⟩)
      · simp only [step, Function.update_self, Zeno.advance, Target.take, hlt, if_true,
          Option.map_some, Pc.ofSlot, Option.toList_none, List.append_nil, Function.update_idem, s₁]
      · simp only [step, Function.update_self, Zeno.advance, Target.partition, Option.map_some,
          Target.record, Option.toList_some, hback, s₁, bump, setNum_setNum, setNum_num_self,
          curRid]
  | text =>
      obtain ⟨-, -, s', hs', rfl⟩ := put_text_eq_some.mp h
      obtain ⟨room, rfl⟩ := FileMapTextStore.place_eq_some.mp hs'
      -- the slot, the bytes and the offset, then the copy
      let at_ (f : FileMapTextStore) (pc : Pc) : Shared ι :=
        { kv := s.kv.setText p.val f, pc := Function.update s.pc i pc, returned := s.returned }
      let f := s.kv.text p.val
      let f₁ : FileMapTextStore := { f with curRid := f.curRid + 1 }
      let f₂ : FileMapTextStore :=
        { f₁ with curStoreOffset := f.curStoreOffset + (value.length + 1) }
      let f₃ : FileMapTextStore :=
        { f₂ with offsets := Function.update f.offsets f.curRid f.curStoreOffset }
      refine .head (b := at_ f₁ (.textAlloc value (.fresh p) f.curRid))
        ⟨.advance i, trivial, ?_⟩ (.head
          (b := at_ f₂ (.textOffset value (.fresh p) f.curRid f.curStoreOffset))
          ⟨.advance i, trivial, ?_⟩ (.head
            (b := at_ f₃ (.textCopy value (.fresh p) f.curRid f.curStoreOffset 0))
            ⟨.advance i, trivial, ?_⟩ ?_))
      · simp only [step, Function.update_self, Zeno.advance, Target.take, hlt, if_true,
          Option.map_some, Pc.ofSlot, Option.toList_none, List.append_nil, Function.update_idem]
        rfl
      · simp only [step, Function.update_self, Zeno.advance, Target.partition, Option.map_some,
          Option.toList_none, List.append_nil, Function.update_idem, setText_text_self,
          setText_setText, at_, f₁, f₂, f]
      · simp only [step, Function.update_self, Zeno.advance, Target.partition, if_pos room,
          Option.map_some, Option.toList_none, List.append_nil, Function.update_idem,
          setText_text_self, setText_setText, at_, f₁, f₂, f₃, f]
      · have hcopy := copy_path (i := i) (p := p) ⟨⟨.text, value⟩, .fresh p⟩ f.curRid
          f.curStoreOffset f.store value.length
          (s := at_ f₃ (.textCopy value (.fresh p) f.curRid f.curStoreOffset 0)) 0 (by simp)
          (Function.update_self ..) (by simp [at_, f₁, f₂, f₃])
        simp only [at_, hback, setText_setText, setText_text_self] at hcopy
        exact hcopy

/-- In a run of puts by any number of threads, a put never returns a RID that an earlier
one of its type returned.  The RIDs are global ones of the partition asked for, and at
every later point any worker reads the value that was put under them. -/
theorem puts_write_once {kv : KvMap} {u : Shared ι}
    (path : Machine.Path step putsOnly (quiet ι kv) u) :
    (u.returned.Pairwise fun r r' => r.val.1 = r'.val.1 → r.rid ≠ r'.rid) ∧
      ∀ r ∈ u.returned,
        islocal r.rid = false ∧ r.rid ≠ invalidRid ∧ ridPartition r.rid = r.partition.val ∧
          ∀ w, Machine.Path step putsOnly u w → ∀ loc : LocalKVStoreOperator,
            Stores.get ⟨loc, w.kv⟩ r.val.1 r.rid = some r.val.2 := by
  obtain ⟨inv, -⟩ := (putInv_quiet kv).path path
  refine ⟨inv.distinct.imp fun hne ht hr => hne (by rw [ht, hr]), fun r hr => ?_⟩
  refine ⟨r.partition.islocal_rid r.key, r.partition.rid_ne_invalidRid r.key,
    r.partition.ridPartition_rid r.key, fun w later loc => ?_⟩
  obtain ⟨inv', hsame⟩ := inv.path later
  have hkept := inv'.kept r (hsame r hr).1
  exact Stores.Denotes.get ((Stores.denotes_global (r.partition.islocal_rid r.key)).mpr hkept)

/-- Two threads whose steps alternate: the first takes slot 0, the second slot 1, and the
second returns first. -/
def twoPuts : List (SharedLabel Bool) :=
  [.start false ⟨⟨.int, 7⟩, .fresh .default⟩, .start true ⟨⟨.int, 9⟩, .fresh .default⟩,
    .advance false, .advance true, .advance true, .advance false]

theorem puts_write_once_twoPuts :
    ∃ u, Machine.Path step putsOnly (quiet Bool .fresh) u ∧
      u.returned.map PutRecord.rid = [1, 0] ∧
        ∀ r ∈ u.returned, ∀ loc : LocalKVStoreOperator,
          Stores.get ⟨loc, u.kv⟩ r.val.1 r.rid = some r.val.2 := by
  have hrun : ((Machine.run step (quiet Bool .fresh) twoPuts).map fun u =>
      u.returned.map PutRecord.rid) = some [1, 0] := by decide +kernel
  obtain ⟨u, hu, hrids⟩ := Option.map_eq_some_iff.mp hrun
  have path : Machine.Path step putsOnly (quiet Bool .fresh) u :=
    Machine.path_of_run (by simp [twoPuts, putsOnly]) hu
  refine ⟨u, path, hrids, fun r hr => ?_⟩
  exact ((puts_write_once path).2 r hr).2.2.2 u .refl

end Shared

end Zeno
