import Zeno.Kv.Local

/-!
# The steps of a put and of a replace

Every worker maps the same files, so the steps of their `put` and `replace`
calls interleave.  The steps that touch shared memory are the `fetch_add` on
`cur_rid`, for a text also the `fetch_add` on `cur_store_offset`, the store to
the slot or to its offset, and the copy of the bytes, one byte at a time.
Each is one step here, together with the local checks that follow it, and the
last step of a call also returns.

A running call *claims* a slot and a range of bytes.  What a step can change is
said once (`advance_writes`): the counters grow, and no cell changes but those
the step writes, all of them claimed by its own call.  What a call can come to
claim is said once too (`advance_grows`): what it claimed before, or the slot or
the bytes its `fetch_add` has just taken off a counter.
-/

namespace Zeno

open KvMap

/-! ## Operations on the stores -/

/-- The slot an operation writes: a fresh one of a partition, or a named one. -/
inductive Target where
  /-- `put`. -/
  | fresh (p : Partition)
  /-- `replace`. -/
  | named (key : RID)

/-- The partition whose files an operation opens. -/
def Target.partition : Target → RID
  | .fresh p => p.val
  | .named key => ridPartition key

/-- A `put` or a `replace` of a value. -/
structure StoreOp where
  /-- The value. -/
  val : Value
  /-- Where it goes. -/
  target : Target

/-- `fetch_add` on the `cur_rid` of a file. -/
def KvMap.bump (kv : KvMap) : Ty → RID → KvMap
  | .num n, p => kv.setNum n p { kv.num n p with curRid := (kv.num n p).curRid + 1 }
  | .text, p => kv.setText p { kv.text p with curRid := (kv.text p).curRid + 1 }

/-- The start of an operation: the slot it writes.  `put` takes one off the counter,
`replace` checks the one it is given.  The operator's later check that the slot
fits `RID_MASK` always passes (`maxKey_le`). -/
def Target.take (kv : KvMap) (t : Ty) : Target → Option (Nat × KvMap)
  | .fresh p =>
      if kv.curRid t p.val < maxKey t then some (kv.curRid t p.val, kv.bump t p.val) else none
  | .named key => if ValidRid t key then some ((ridIndex key).toNat, kv) else none

/-- Where a worker stands in an operation. -/
inductive Pc where
  /-- Between requests. -/
  | idle
  /-- At the `fetch_add` on `cur_rid`, or at the range check of a `replace`. -/
  | fetch (op : StoreOp)
  /-- The slot is known, at the store to it. -/
  | numStore (n : Num) (value : n.Val) (target : Target) (key : Nat)
  /-- The slot is known, at the `fetch_add` on `cur_store_offset`. -/
  | textAlloc (value : CStr) (target : Target) (key : Nat)
  /-- The bytes are known, at the room check and the store to the offset. -/
  | textOffset (value : CStr) (target : Target) (key pos : Nat)
  /-- In the copy, with the first `done` bytes in place. -/
  | textCopy (value : CStr) (target : Target) (key pos : Nat) (done : Fin (value.length + 1))

/-- A completed `put`. -/
structure PutRecord where
  /-- The value put. -/
  val : Value
  /-- The partition asked for. -/
  partition : Partition
  /-- The slot taken. -/
  key : Nat

/-- The RID a completed `put` returned. -/
def PutRecord.rid (r : PutRecord) : RID := r.partition.rid r.key

/-- The record of a completed operation.  A `replace` returns nothing new. -/
def Target.record (val : Value) (key : Nat) : Target → Option PutRecord
  | .fresh p => some { val := val, partition := p, key := key }
  | .named _ => none

/-- The outcome of one step of an operation. -/
structure Micro where
  /-- The files. -/
  kv : KvMap
  /-- Where the worker stands. -/
  pc : Pc
  /-- The `put` the step completed, if it did. -/
  ret : Option PutRecord

/-- An operation that knows its slot. -/
def Pc.ofSlot (target : Target) (key : Nat) : Value → Pc
  | ⟨.num n, value⟩ => .numStore n value target key
  | ⟨.text, value⟩ => .textAlloc value target key

/-- One step of an operation.  It is undefined between requests and where a
`KVDB_CHECK` fails. -/
def advance (kv : KvMap) : Pc → Option Micro
  | .idle => none
  | .fetch ⟨val, target⟩ =>
      (target.take kv val.1).map fun (key, kv') => ⟨kv', .ofSlot target key val, none⟩
  | .numStore n value target key =>
      let s := kv.num n target.partition
      some ⟨kv.setNum n target.partition { s with store := Function.update s.store key value },
        .idle, target.record ⟨.num n, value⟩ key⟩
  | .textAlloc value target key =>
      let s := kv.text target.partition
      some ⟨kv.setText target.partition
          { s with curStoreOffset := s.curStoreOffset + (value.length + 1) },
        .textOffset value target key s.curStoreOffset, none⟩
  | .textOffset value target key pos =>
      let s := kv.text target.partition
      if pos + (value.length + 1) ≤ storeSize then
        some ⟨kv.setText target.partition
            { s with offsets := Function.update s.offsets key pos },
          .textCopy value target key pos 0, none⟩
      else none
  | .textCopy value target key pos done =>
      let s := kv.text target.partition
      let kv' := kv.setText target.partition
        { s with store := Function.update s.store (pos + done) (value.terminated.getD done 0) }
      -- the last byte copied is the terminator
      if h : done.val < value.length then
        some ⟨kv', .textCopy value target key pos ⟨done + 1, Nat.succ_lt_succ h⟩, none⟩
      else some ⟨kv', .idle, target.record ⟨.text, value⟩ key⟩

/-! ## Claims -/

/-- The cells an operation may write. -/
structure Claim where
  /-- A slot. -/
  slot : Option Slot
  /-- A range of bytes. -/
  range : Option ByteRange

/-- The cells a running operation has taken or was given. -/
def Pc.claim : Pc → Claim
  | .idle => ⟨none, none⟩
  | .fetch _ => ⟨none, none⟩
  | .numStore n _ target key => ⟨some (.num n, target.partition, key), none⟩
  | .textAlloc _ target key => ⟨some (.text, target.partition, key), none⟩
  | .textOffset value target key pos =>
      ⟨some (.text, target.partition, key), some ⟨target.partition, pos, value.length + 1⟩⟩
  | .textCopy value target key pos _ =>
      ⟨some (.text, target.partition, key), some ⟨target.partition, pos, value.length + 1⟩⟩

/-- The cells the next step of an operation stores to. -/
def Pc.writes : Pc → Claim
  | .numStore n _ target key => ⟨some (.num n, target.partition, key), none⟩
  | .textOffset _ target key _ => ⟨some (.text, target.partition, key), none⟩
  | .textCopy value target _ pos _ => ⟨none, some ⟨target.partition, pos, value.length + 1⟩⟩
  | _ => ⟨none, none⟩

/-- The target of a running operation. -/
def Pc.target? : Pc → Option Target
  | .idle => none
  | .fetch op => some op.target
  | .numStore _ _ target _ => some target
  | .textAlloc _ target _ => some target
  | .textOffset _ target _ _ => some target
  | .textCopy _ target _ _ _ => some target

/-- The running operation, if any, is a `put`. -/
def Pc.IsPut (pc : Pc) : Prop := ∀ target, pc.target? = some target → ∃ p, target = .fresh p

/-- A claimed slot is below its counter. -/
def Claim.SlotBelow (kv : KvMap) (c : Claim) : Prop :=
  ∀ t p k, c.slot = some (t, p, k) → k < kv.curRid t p

/-- The claimed bytes are below their counter. -/
def Claim.RangeBelow (kv : KvMap) (c : Claim) : Prop :=
  ∀ r, c.range = some r → r.pos + r.len ≤ (kv.text r.part).curStoreOffset

/-- Two claims share no cell. -/
structure Claim.Apart (c d : Claim) : Prop where
  slot : ∀ x, c.slot = some x → d.slot ≠ some x
  range : ∀ r r', c.range = some r → d.range = some r' → r.Disjoint r'

/-- A claim became another by keeping, dropping, or taking cells off the counters. -/
structure Claim.Grows (kv : KvMap) (c d : Claim) : Prop where
  slot : ∀ x, d.slot = some x → c.slot = some x ∨ ∃ t p, x = (t, p, kv.curRid t p)
  range : ∀ r, d.range = some r → c.range = some r ∨ r.pos = (kv.text r.part).curStoreOffset

namespace Claim

theorem Apart.of_none {c d : Claim} (slot : c.slot = none) (range : c.range = none) :
    c.Apart d :=
  ⟨fun x hx => (by rw [slot] at hx; cases hx), fun r r' hr => (by rw [range] at hr; cases hr)⟩

theorem Apart.symm {c d : Claim} (h : c.Apart d) : d.Apart c :=
  ⟨fun x hd hc => h.slot x hc hd, fun r r' hr hr' => (h.range r' r hr' hr).symm⟩

theorem SlotBelow.mono {kv kv' : KvMap} {c : Claim} {slot : Option Slot}
    {range : Option ByteRange} (h : c.SlotBelow kv) (f : Frame kv kv' slot range) :
    c.SlotBelow kv' :=
  fun t p k hk => (h t p k hk).trans_le (f.curRid t p)

theorem RangeBelow.mono {kv kv' : KvMap} {c : Claim} {slot : Option Slot}
    {range : Option ByteRange} (h : c.RangeBelow kv) (f : Frame kv kv' slot range) :
    c.RangeBelow kv' :=
  fun r hr => (h r hr).trans (f.curStoreOffset r.part)

/-- A claim below the counters stays apart from what another call takes off them. -/
theorem Apart.grows {kv : KvMap} {c d d' : Claim} (h : c.Apart d) (slot : c.SlotBelow kv)
    (range : c.RangeBelow kv) (grows : d.Grows kv d') : c.Apart d' := by
  refine ⟨?_, ?_⟩
  · rintro x hc hd
    rcases grows.slot x hd with hold | ⟨t, p, rfl⟩
    · exact h.slot x hc hold
    · exact Nat.lt_irrefl _ (slot t p _ hc)
  · intro r r' hr hr'
    rcases grows.range r' hr' with hold | hnew
    · exact h.range r r' hr hold
    · exact (ByteRange.Disjoint.of_counter kv hnew.ge (range r hr)).symm

end Claim

/-! ## What a step can do -/

theorem KvMap.bump_frame (kv : KvMap) (t : Ty) (p : RID) (slot : Option Slot)
    (range : Option ByteRange) : Frame kv (kv.bump t p) slot range := by
  cases t with
  | num n => exact Frame.setNum (fun _ _ => rfl) (Nat.le_succ _)
  | text => exact Frame.setText (fun _ _ => rfl) (fun _ _ => rfl) (Nat.le_succ _) (Nat.le_refl _)

theorem KvMap.curRid_bump (kv : KvMap) (t : Ty) (p : RID) :
    (kv.bump t p).curRid t p = kv.curRid t p + 1 := by
  cases t <;> simp [bump, curRid]

theorem KvMap.bump_offset (kv : KvMap) (t : Ty) (p q : RID) :
    ((kv.bump t p).text q).curStoreOffset = (kv.text q).curStoreOffset := by
  cases t with
  | num n => rfl
  | text =>
      by_cases h : q = p
      · simp [bump, h]
      · simp [bump, setText_text_of_ne h]

theorem Target.take_frame {kv kv' : KvMap} {t : Ty} {target : Target} {key : Nat}
    (h : target.take kv t = some (key, kv')) (slot : Option Slot) (range : Option ByteRange) :
    Frame kv kv' slot range := by
  cases target with
  | fresh p =>
      simp only [take, Option.ite_none_right_eq_some, Option.some.injEq, Prod.mk.injEq] at h
      obtain ⟨-, -, rfl⟩ := h
      exact kv.bump_frame ..
  | named rid =>
      simp only [take, Option.ite_none_right_eq_some, Option.some.injEq, Prod.mk.injEq] at h
      obtain ⟨-, -, rfl⟩ := h
      exact Frame.refl ..

theorem Target.take_lt {kv kv' : KvMap} {t : Ty} {target : Target} {key : Nat}
    (h : target.take kv t = some (key, kv')) : key < maxKey t := by
  cases target with
  | fresh p =>
      simp only [take, Option.ite_none_right_eq_some, Option.some.injEq, Prod.mk.injEq] at h
      obtain ⟨hlt, rfl, -⟩ := h
      exact hlt
  | named rid =>
      simp only [take, Option.ite_none_right_eq_some, Option.some.injEq, Prod.mk.injEq] at h
      obtain ⟨hvalid, rfl, -⟩ := h
      exact hvalid.2

theorem Target.take_fresh {kv kv' : KvMap} {t : Ty} {p : Partition} {key : Nat}
    (h : (Target.fresh p).take kv t = some (key, kv')) :
    key = kv.curRid t p.val ∧ kv'.curRid t p.val = key + 1 := by
  simp only [take, Option.ite_none_right_eq_some, Option.some.injEq, Prod.mk.injEq] at h
  obtain ⟨-, rfl, rfl⟩ := h
  exact ⟨rfl, kv.curRid_bump t p.val⟩

/-- Put a byte of a text at its place. -/
def KvMap.setByte (kv : KvMap) (p : RID) (a : Nat) (b : UInt8) : KvMap :=
  kv.setText p { kv.text p with store := Function.update (kv.text p).store a b }

/-- The ways a step can be taken, one for each. -/
inductive Advances (kv : KvMap) : Pc → Micro → Prop where
  | take {val : Value} {target : Target} {key : Nat} {kv' : KvMap}
      (h : target.take kv val.1 = some (key, kv')) :
      Advances kv (.fetch ⟨val, target⟩) ⟨kv', .ofSlot target key val, none⟩
  | store (n : Num) (value : n.Val) (target : Target) (key : Nat) :
      Advances kv (.numStore n value target key)
        ⟨kv.setNum n target.partition
            { kv.num n target.partition with
              store := Function.update (kv.num n target.partition).store key value },
          .idle, target.record ⟨.num n, value⟩ key⟩
  | alloc (value : CStr) (target : Target) (key : Nat) :
      Advances kv (.textAlloc value target key)
        ⟨kv.setText target.partition
            { kv.text target.partition with
              curStoreOffset := (kv.text target.partition).curStoreOffset + (value.length + 1) },
          .textOffset value target key (kv.text target.partition).curStoreOffset, none⟩
  | offset {value : CStr} (target : Target) (key : Nat) {pos : Nat}
      (room : pos + (value.length + 1) ≤ storeSize) :
      Advances kv (.textOffset value target key pos)
        ⟨kv.setText target.partition
            { kv.text target.partition with
              offsets := Function.update (kv.text target.partition).offsets key pos },
          .textCopy value target key pos 0, none⟩
  | copy {value : CStr} (target : Target) (key pos : Nat) {done : Fin (value.length + 1)}
      (more : done.val < value.length) :
      Advances kv (.textCopy value target key pos done)
        ⟨kv.setByte target.partition (pos + done) (value.terminated.getD done 0),
          .textCopy value target key pos ⟨done + 1, Nat.succ_lt_succ more⟩, none⟩
  | last {value : CStr} (target : Target) (key pos : Nat) {done : Fin (value.length + 1)}
      (all : done.val = value.length) :
      Advances kv (.textCopy value target key pos done)
        ⟨kv.setByte target.partition (pos + done) (value.terminated.getD done 0),
          .idle, target.record ⟨.text, value⟩ key⟩

theorem Advances.of {kv : KvMap} {pc : Pc} {m : Micro} (h : advance kv pc = some m) :
    Advances kv pc m := by
  cases pc with
  | idle => cases h
  | fetch op =>
      simp only [advance, Option.map_eq_some_iff] at h
      obtain ⟨⟨key, kv'⟩, htake, rfl⟩ := h
      exact .take htake
  | numStore n value target key =>
      cases h
      exact .store ..
  | textAlloc value target key =>
      cases h
      exact .alloc ..
  | textOffset value target key pos =>
      simp only [advance, Option.ite_none_right_eq_some, Option.some.injEq] at h
      obtain ⟨room, rfl⟩ := h
      exact .offset _ _ room
  | textCopy value target key pos done =>
      simp only [advance] at h
      split at h
      next more =>
        cases h
        exact .copy _ _ _ more
      next all =>
        cases h
        exact .last _ _ _ (by omega)

@[simp] theorem Pc.claim_ofSlot (target : Target) (key : Nat) (val : Value) :
    (Pc.ofSlot target key val).claim = ⟨some (val.1, target.partition, key), none⟩ := by
  obtain ⟨t, value⟩ := val
  cases t <;> rfl

@[simp] theorem Pc.target?_ofSlot (target : Target) (key : Nat) (val : Value) :
    (Pc.ofSlot target key val).target? = some target := by
  obtain ⟨t, value⟩ := val
  cases t <;> rfl

theorem KvMap.setByte_frame (kv : KvMap) {p : RID} {a : Nat} {b : UInt8} {r : ByteRange}
    (slot : Option Slot) (h : r.Has p a) : Frame kv (kv.setByte p a b) slot (some r) := by
  refine Frame.setText (fun _ _ => rfl) (fun a' ha => ?_) (Nat.le_refl _) (Nat.le_refl _)
  exact Function.update_of_ne (fun he : a' = a => ha r rfl (he ▸ h)) _ _

/-- A step writes only the cells of its next store, and takes cells off the counters. -/
theorem advance_writes {kv : KvMap} {pc : Pc} {m : Micro} (h : advance kv pc = some m) :
    Frame kv m.kv pc.writes.slot pc.writes.range := by
  have hcopy {p : RID} {pos len : Nat} (done : Fin (len + 1)) :
      (ByteRange.mk p pos (len + 1)).Has p (pos + done) :=
    ⟨rfl, Nat.le_add_right _ _, Nat.add_lt_add_left done.isLt _⟩
  cases Advances.of h with
  | take htake => exact Target.take_frame htake ..
  | store n value target key =>
      refine Frame.setNum (fun k hk => ?_) (Nat.le_refl _)
      exact Function.update_of_ne (fun he => hk (by rw [he]; rfl)) _ _
  | alloc value target key =>
      exact Frame.setText (fun _ _ => rfl) (fun _ _ => rfl) (Nat.le_refl _) (Nat.le_add_right _ _)
  | offset target key room =>
      refine Frame.setText (fun k hk => ?_) (fun _ _ => rfl) (Nat.le_refl _) (Nat.le_refl _)
      exact Function.update_of_ne (fun he => hk (by rw [he]; rfl)) _ _
  | copy target key pos more => exact kv.setByte_frame _ (hcopy _)
  | last target key pos all => exact kv.setByte_frame _ (hcopy _)

/-- What a step writes is claimed by its call. -/
theorem Pc.writes_claim (pc : Pc) :
    (∀ x, pc.writes.slot = some x → pc.claim.slot = some x) ∧
      ∀ r, pc.writes.range = some r → pc.claim.range = some r := by
  cases pc <;> simp [Pc.writes, Pc.claim]

/-- A step changes only what its call claims. -/
theorem advance_frame {kv : KvMap} {pc : Pc} {m : Micro} (h : advance kv pc = some m) :
    Frame kv m.kv pc.claim.slot pc.claim.range :=
  (advance_writes h).weaken pc.writes_claim.1 pc.writes_claim.2

theorem Target.record_eq_some {target : Target} {val : Value} {key : Nat} {r : PutRecord}
    (h : target.record val key = some r) :
    ∃ p, target = .fresh p ∧ r = { val := val, partition := p, key := key } := by
  cases target with
  | fresh p => exact ⟨p, rfl, (Option.some.inj h).symm⟩
  | named key' => cases h

/-- The target stays the same until the operation returns. -/
theorem advance_target {kv : KvMap} {pc : Pc} {m : Micro} (h : advance kv pc = some m) :
    m.pc = .idle ∨ m.pc.target? = pc.target? := by
  cases Advances.of h with
  | take => exact .inr (Pc.target?_ofSlot ..)
  | store | last => exact .inl rfl
  | alloc | offset | copy => exact .inr rfl

theorem advance_isPut {kv : KvMap} {pc : Pc} {m : Micro} (h : advance kv pc = some m)
    (put : pc.IsPut) : m.pc.IsPut := by
  intro target ht
  rcases advance_target h with hidle | hsame
  · rw [hidle] at ht
    cases ht
  · exact put target (hsame ▸ ht)

/-- The value of a running operation. -/
def Pc.val? : Pc → Option Value
  | .idle => none
  | .fetch op => some op.val
  | .numStore n value _ _ => some ⟨.num n, value⟩
  | .textAlloc value _ _ => some ⟨.text, value⟩
  | .textOffset value _ _ _ => some ⟨.text, value⟩
  | .textCopy value _ _ _ _ => some ⟨.text, value⟩

/-- The value stays the same until the operation returns it. -/
theorem advance_val {kv : KvMap} {pc : Pc} {m : Micro} (h : advance kv pc = some m) :
    (m.pc = .idle ∨ m.pc.val? = pc.val?) ∧ ∀ r, m.ret = some r → pc.val? = some r.val := by
  cases Advances.of h with
  | @take val target key kv' htake =>
      obtain ⟨t, value⟩ := val
      cases t <;> exact ⟨.inr rfl, fun r hr => nomatch hr⟩
  | store | last =>
      refine ⟨.inl rfl, fun r hr => ?_⟩
      obtain ⟨p, -, rfl⟩ := Target.record_eq_some hr
      rfl
  | alloc | offset | copy => exact ⟨.inr rfl, fun r hr => nomatch hr⟩

/-- A `put` keeps, drops, or takes cells off the counters. -/
theorem advance_grows {kv : KvMap} {pc : Pc} {m : Micro} (h : advance kv pc = some m)
    (put : pc.IsPut) : pc.claim.Grows kv m.pc.claim := by
  cases Advances.of h with
  | @take val target key kv' htake =>
      obtain ⟨p, rfl⟩ := put target rfl
      obtain ⟨rfl, -⟩ := Target.take_fresh htake
      rw [Pc.claim_ofSlot]
      exact ⟨fun x hx => .inr ⟨_, _, (Option.some.inj hx).symm⟩, fun r hr => nomatch hr⟩
  | store | last => exact ⟨fun x hx => (nomatch hx), fun r hr => nomatch hr⟩
  | alloc value target key =>
      refine ⟨fun x hx => .inl hx, fun r hr => .inr ?_⟩
      cases hr
      rfl
  | offset | copy => exact ⟨fun x hx => .inl hx, fun r hr => .inl hr⟩

/-- A `put` claims a slot below the counter. -/
theorem advance_slotBelow {kv : KvMap} {pc : Pc} {m : Micro} (h : advance kv pc = some m)
    (put : pc.IsPut) (below : pc.claim.SlotBelow kv) : m.pc.claim.SlotBelow m.kv := by
  have hmono := below.mono (advance_frame h)
  cases Advances.of h with
  | @take val target key kv' htake =>
      obtain ⟨p, rfl⟩ := put target rfl
      obtain ⟨-, hcur⟩ := Target.take_fresh htake
      intro t q k hk
      rw [Pc.claim_ofSlot] at hk
      cases hk
      simp only [Target.partition, hcur]
      exact Nat.lt_succ_self _
  | store | last => exact fun t p k hk => nomatch hk
  | alloc | offset | copy => exact hmono

/-- An operation claims bytes below the counter. -/
theorem advance_rangeBelow {kv : KvMap} {pc : Pc} {m : Micro} (h : advance kv pc = some m)
    (below : pc.claim.RangeBelow kv) : m.pc.claim.RangeBelow m.kv := by
  have hmono := below.mono (advance_frame h)
  cases Advances.of h with
  | take =>
      intro r hr
      rw [Pc.claim_ofSlot] at hr
      cases hr
  | store | last => exact fun r hr => nomatch hr
  | alloc value target key =>
      intro r hr
      cases hr
      simp
  | offset | copy => exact hmono

/-! ## The copied bytes -/

/-- A claimed slot is one of the array's. -/
def Pc.InRange (pc : Pc) : Prop := ∀ t p k, pc.claim.slot = some (t, p, k) → k < maxKey t

/-- In the copy of a text, the offset is stored, the bytes have room, and those before
`done` are in place. -/
def Pc.Copied (kv : KvMap) : Pc → Prop
  | .textCopy value target key pos done =>
      (kv.text target.partition).offsets key = pos ∧ pos + (value.length + 1) ≤ storeSize ∧
        ∀ i < done.val, (kv.text target.partition).store (pos + i) = value.terminated.getD i 0
  | _ => True

theorem advance_inRange {kv : KvMap} {pc : Pc} {m : Micro} (h : advance kv pc = some m)
    (inRange : pc.InRange) : m.pc.InRange := by
  cases Advances.of h with
  | take htake =>
      intro t q k hk
      rw [Pc.claim_ofSlot] at hk
      cases hk
      exact Target.take_lt htake
  | store | last => exact fun t p k hk => nomatch hk
  | alloc | offset | copy => exact inRange

/-- The copy of a text is not disturbed by a change apart from its claim. -/
theorem Pc.Copied.frame {kv kv' : KvMap} {pc : Pc} {c : Claim} (h : pc.Copied kv)
    (f : Frame kv kv' c.slot c.range) (apart : pc.claim.Apart c) : pc.Copied kv' := by
  cases pc with
  | textCopy value target key pos done =>
      obtain ⟨hoff, hroom, hbytes⟩ := h
      refine ⟨?_, hroom, fun i hi => ?_⟩
      · rw [f.offset _ _ (apart.slot _ rfl)]
        exact hoff
      · have hin : i < value.length + 1 := hi.trans done.isLt
        rw [f.byte _ _ fun r hr hhas => apart.range _ r rfl hr _ _
          ⟨rfl, Nat.le_add_right _ _, Nat.add_lt_add_left hin _⟩ hhas]
        exact hbytes i hi
  | _ => trivial

/-- The bytes up to and including the one a step puts in place. -/
theorem KvMap.setByte_bytes {kv : KvMap} {p : RID} {pos done : Nat} {bs : List UInt8}
    (h : ∀ i < done, (kv.text p).store (pos + i) = bs.getD i 0) :
    ∀ i < done + 1, ((kv.setByte p (pos + done) (bs.getD done 0)).text p).store (pos + i) =
      bs.getD i 0 := by
  intro i hi
  simp only [setByte, setText_text_self]
  rcases Nat.lt_succ_iff_lt_or_eq.mp hi with hlt | rfl
  · rw [Function.update_of_ne (by omega)]
    exact h i hlt
  · rw [Function.update_self]

/-- A step of the copy puts one more byte in place. -/
theorem advance_copied {kv : KvMap} {pc : Pc} {m : Micro} (h : advance kv pc = some m)
    (copied : pc.Copied kv) : m.pc.Copied m.kv := by
  cases Advances.of h with
  | @take val target key kv' htake =>
      obtain ⟨t, value⟩ := val
      cases t <;> trivial
  | store | last | alloc => trivial
  | offset target key room =>
      exact ⟨by simp, room, fun i hi => absurd hi (Nat.not_lt_zero i)⟩
  | copy target key pos more =>
      obtain ⟨hoff, hroom, hbytes⟩ := copied
      exact ⟨by simpa [setByte] using hoff, hroom, setByte_bytes hbytes⟩

/-! ## Completed puts -/

namespace PutRecord

/-- The cells of a completed `put`. -/
def claim (kv : KvMap) (r : PutRecord) : Claim :=
  ⟨some (slotOf r.val.1 r.rid), kv.range r.val.1 r.rid r.val.2⟩

/-- The RID still denotes the value that was put. -/
def Kept (kv : KvMap) (r : PutRecord) : Prop := kv.Alive r.val.1 r.rid r.val.2

variable {kv kv' : KvMap} {r : PutRecord}

theorem Kept.slotBelow (h : r.Kept kv) : (r.claim kv).SlotBelow kv := by
  intro t p k hk
  cases hk
  exact h.allocated

theorem Kept.rangeBelow (h : r.Kept kv) : (r.claim kv).RangeBelow kv := by
  intro b hb
  exact h.stored.range_below hb

/-- A completed `put` is not disturbed by a change apart from its cells. -/
theorem Kept.frame {c : Claim} (h : r.Kept kv) (f : Frame kv kv' c.slot c.range)
    (apart : (r.claim kv).Apart c) : r.Kept kv' ∧ r.claim kv' = r.claim kv := by
  have hslot : c.slot ≠ some (slotOf r.val.1 r.rid) := apart.slot _ rfl
  refine ⟨⟨h.stored.frame f hslot fun b b' hb hb' => (apart.range b' b hb' hb).symm,
    h.allocated.trans_le (f.curRid _ _)⟩, ?_⟩
  rw [claim, claim, f.range hslot]

end PutRecord

/-- The last step of a `put` leaves the value stored in the cells the call claimed. -/
theorem advance_ret {kv : KvMap} {pc : Pc} {m : Micro} {r : PutRecord}
    (h : advance kv pc = some m) (hr : m.ret = some r) (inRange : pc.InRange)
    (copied : pc.Copied kv) (slot : pc.claim.SlotBelow kv) (range : pc.claim.RangeBelow kv) :
    m.pc = .idle ∧ r.Kept m.kv ∧ r.claim m.kv = pc.claim := by
  have f := advance_frame h
  have hslot := slot.mono f
  cases Advances.of h with
  | take | alloc | offset | copy => cases hr
  | store n value target key =>
      obtain ⟨p, rfl, rfl⟩ := Target.record_eq_some hr
      have hlt := inRange _ _ _ rfl
      have hidx := p.ridIndex_rid (hlt.trans (maxKey_le _))
      refine ⟨rfl, ⟨⟨validRid_rid hlt, ?_⟩, ?_⟩, ?_⟩
      · simp [Holds, PutRecord.rid, Target.partition, hidx]
      · simp only [PutRecord.rid, p.ridPartition_rid, hidx]
        exact hslot _ _ _ rfl
      · simp [PutRecord.claim, PutRecord.rid, slotOf_rid hlt, KvMap.range, Pc.claim,
          Target.partition]
  | @last value target key pos done all =>
      obtain ⟨p, rfl, rfl⟩ := Target.record_eq_some hr
      have hlt := inRange _ _ _ rfl
      have hidx := p.ridIndex_rid (hlt.trans (maxKey_le _))
      have hbelow := range.mono f _ rfl
      obtain ⟨hoff, hroom, hbytes⟩ := copied
      simp only [Target.partition] at hoff hbytes hbelow
      have hoff' (b : UInt8) :
          ((kv.setByte p.val (pos + done) b).text p.val).offsets key = pos := by
        simpa [setByte] using hoff
      refine ⟨rfl, ⟨⟨validRid_rid hlt, ?_⟩, ?_⟩, ?_⟩
      · simp only [Holds, PutRecord.rid, Target.partition, p.ridPartition_rid, hidx]
        refine ⟨?_, ?_, ?_⟩
        · intro i hi
          rw [hoff', setByte_bytes hbytes i (by simpa [all] using hi),
            List.getD_eq_getElem?_getD, List.getElem?_eq_getElem hi, Option.getD_some]
        · rw [hoff']
          exact hbelow
        · rw [hoff']
          exact hroom
      · simp only [PutRecord.rid, p.ridPartition_rid, hidx]
        exact hslot _ _ _ rfl
      · simp [PutRecord.claim, PutRecord.rid, slotOf_rid hlt, KvMap.range, Pc.claim,
          Target.partition, hidx, hoff']

end Zeno
