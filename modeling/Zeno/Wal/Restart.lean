import Zeno.Kv.Fresh
import Zeno.Wal.Recovery

/-!
# Allocation after recovery

`replace` writes the slot it is given and never moves `cur_rid`, so after a
replay the counters are still those of the persisted image.  A replayed field
whose slot was handed out after its counter was persisted is then above the
counter, and a later `put` hands the slot out again.  What is safe, and nothing
else, is a field below the image's counter, or a text in a file that is full
after the replay (`replayed_kept_iff`).
-/

namespace Zeno

open KvMap

variable {g : Gcm}

/-- A log that is replayed to its end replaces its fields in order. -/
theorem applyFields_of_replayWal {w : List WalRecord} {kv kv' : KvMap}
    (h : replayWal g kv w = some kv') : applyFields kv (walFields g w) = some kv' := by
  induction w generalizing kv with
  | nil => exact h
  | cons record w ih =>
      simp only [replayWal, List.foldlM_cons, Option.bind_eq_bind, Option.bind_eq_some_iff] at h
      obtain ⟨kv₁, hrecord, hrest⟩ := h
      cases record with
      | message payload =>
          simp only [replayPayload_eq, Option.bind_eq_some_iff] at hrecord
          obtain ⟨fs, hopen, happly⟩ := hrecord
          simp only [walFields, hopen, Option.getD_some, applyFields_append, happly,
            Option.bind_some]
          exact ih hrest
      | commit tuples =>
          cases hrecord
          exact ih hrest

/-- All records of some fields for one field agree with it. -/
def Agree (fs : List Field) (f : Field) : Prop := ∀ f' ∈ fs, f'.item = f.item → f' = f

/-- The persisted counter is past the slot of a record, or the records fill the text file. -/
def Covered (image : KvMap) (fs : List Field) (f : Field) : Prop :=
  (ridIndex f.rid).toNat < image.curRid f.val.1 (ridPartition f.rid) ∨
    f.val.1 = .text ∧ storeSize ≤ (image.text (ridPartition f.rid)).curStoreOffset +
      (fs.map (Field.bytesIn (ridPartition f.rid))).sum

/-- The covered fields are those that the replayed files spare. -/
theorem spared_iff_covered {image kv : KvMap} {fs : List Field} {f : Field}
    (h : applyFields image fs = some kv) : kv.Spared f.val.1 f.rid ↔ Covered image fs f := by
  obtain ⟨hrid, hoff⟩ := applyFields_counters h
  rw [KvMap.Spared, Covered, hrid, hoff]

/-- For every image and every log that replays on it: no later `put` returns the RID of a
replayed record, and the record still reads back, in every run of puts by any number of
workers, if and only if every record is covered by the image. -/
theorem replayed_kept_iff {image kv : KvMap} {w : List WalRecord}
    (h : replayWal g image w = some kv) :
    (∀ u, Machine.Path Shared.step Shared.putsOnly (Shared.quiet Nat kv) u →
      ∀ f ∈ walFields g w,
        (∀ r ∈ u.returned, r.val.1 = f.val.1 → r.rid ≠ f.rid) ∧
          (Agree (walFields g w) f → ∀ loc : LocalKVStoreOperator,
            Stores.get ⟨loc, u.kv⟩ f.val.1 f.rid = some f.val.2)) ↔
      ∀ f ∈ walFields g w, Covered image (walFields g w) f := by
  have happly := applyFields_of_replayWal h
  have hstored (f : Field) (hf : f ∈ walFields g w) : ∃ v, kv.Stored f.val.1 f.rid v := by
    obtain ⟨v, -, hv⟩ := applyFields_stored_of (fun _ => True) happly (fun _ _ => trivial)
      (.inr ⟨f, hf, rfl⟩)
    exact ⟨v, hv⟩
  constructor
  · intro kept f hf
    rw [← spared_iff_covered happly]
    by_contra hspared
    obtain ⟨v, hv⟩ := hstored f hf
    obtain ⟨u, path, r, hr, ht, hrid⟩ := Shared.puts_reach hv.valid hspared
    exact (kept u path f hf).1 r hr ht hrid
  · intro covered u path f hf
    have hspared := (spared_iff_covered happly).mpr (covered f hf)
    refine ⟨?_, ?_⟩
    · obtain ⟨v, hv⟩ := hstored f hf
      exact (Shared.puts_spare path hspared hv).2
    · intro agree loc
      have hv : kv.Stored f.val.1 f.rid f.val.2 :=
        applyFields_stored happly agree (.inr ⟨f, hf, rfl⟩)
      have hkept := (Shared.puts_spare path hspared hv).1
      have hglobal : islocal f.rid = false := by
        simpa [islocal] using hv.valid.1
      rw [Stores.get_global hglobal]
      exact hkept.get

/-! ## One integer -/

/-- The integer 7 in the first slot. -/
def seven : Field := ⟨Partition.default.rid 0, ⟨.int, 7⟩⟩

/-- The payload logged for it by a worker whose counter is at zero. -/
def sevenPayload : List UInt8 :=
  (gcmEncrypt .plain .zero (encodeFields [seven])).2

theorem walFields_sevenPayload : walFields .plain [.message sevenPayload] = [seven] := by
  simp only [walFields, sevenPayload]
  rw [openPayload_seal]
  · rfl
  · exact Nat.le_of_ble_eq_true rfl

theorem replay_seven (image : KvMap) :
    ∃ kv, replayPayload .plain image sevenPayload = some kv ∧ kv.Stored .int seven.rid 7 ∧
      ∀ t p, kv.curRid t p = image.curRid t p := by
  have hvalid : ValidRid .int seven.rid := validRid_rid (p := .default) (k := 0) (by decide)
  obtain ⟨kv, hreplace⟩ : ∃ kv, image.replace .int seven.rid 7 = some kv :=
    ⟨_, replace_num_eq_some.mpr ⟨hvalid, rfl⟩⟩
  refine ⟨kv, ?_, replace_stored hreplace, (replace_counters (f := seven) hreplace).1⟩
  rw [sevenPayload, replayPayload_seal]
  · show (image.replace .int seven.rid 7).bind some = some kv
    rw [hreplace]
    rfl
  · exact Nat.le_of_ble_eq_true rfl

/-- The first `put` of an integer on files with an unused counter. -/
theorem put_first (kv : KvMap) (value : Num.int.Val)
    (h : kv.curRid .int Partition.default.val = 0) :
    ∃ kv', kv.put .int value Partition.default.val = some (seven.rid, kv') :=
  ⟨_, put_num_eq_some.mpr ⟨by rw [h]; decide, by rw [h]; rfl, rfl⟩⟩

theorem replayed_kept_iff_counted :
    ∃ image kv : KvMap, replayWal .plain image [.message sevenPayload] = some kv ∧
      ∀ u, Machine.Path Shared.step Shared.putsOnly (Shared.quiet Nat kv) u →
        Stores.get ⟨.empty, u.kv⟩ .int seven.rid = some 7 := by
  -- the image was taken after the counter had moved
  obtain ⟨image, hput⟩ := put_first .fresh 7 rfl
  obtain ⟨kv, hreplay, -⟩ := replay_seven image
  have hwal : replayWal .plain image [.message sevenPayload] = some kv := by
    show (replayPayload .plain image sevenPayload).bind some = some kv
    rw [hreplay]
    rfl
  refine ⟨image, kv, hwal, fun u path => ?_⟩
  have hkept := (replayed_kept_iff hwal).mpr
  rw [walFields_sevenPayload] at hkept
  refine (hkept (fun f hf => ?_) u path seven (List.mem_singleton.mpr rfl)).2 (fun f' hf' _ => ?_)
    .empty
  · obtain rfl := List.mem_singleton.mp hf
    exact .inl (put_alive hput).allocated
  · exact List.mem_singleton.mp hf'

/-- On the files as they were at the checkpoint, the `put` after the recovery returns the
RID of the recovered field and overwrites it. -/
theorem restart_reuses_rid :
    ∃ (iv iv' : Iv) (kv₁ kv₂ kv₃ : KvMap),
      KvMap.fresh.put .int 7 Partition.default.val = some (seven.rid, kv₁) ∧
        materializeBatch .plain iv kv₁ [⟨.int, seven.rid⟩] zenoPayloadCapacity =
            some (iv', sevenPayload) ∧
          replayPayload .plain .fresh sevenPayload = some kv₂ ∧
            kv₂.get .int seven.rid = some 7 ∧
              kv₂.put .int 9 Partition.default.val = some (seven.rid, kv₃) ∧
                kv₃.get .int seven.rid = some 9 := by
  obtain ⟨kv₁, hput⟩ := put_first .fresh 7 rfl
  obtain ⟨kv₂, hreplay, hstored, hrid⟩ := replay_seven .fresh
  obtain ⟨kv₃, hput'⟩ := put_first kv₂ 9 (hrid .int _)
  have hread : ∀ f ∈ [seven], kv₁.get f.val.1 f.rid = some f.val.2 := by
    intro f hf
    obtain rfl := List.mem_singleton.mp hf
    exact (put_stored hput).get
  have hbatch := materializeBatch_eq .plain .zero [seven]
    zenoPayloadCapacity (List.cons_ne_nil _ _) (Nat.le_of_ble_eq_true rfl) hread
  rw [sealPayload, if_pos (Nat.le_of_ble_eq_true rfl)] at hbatch
  exact ⟨_, _, kv₁, kv₂, kv₃, hput, hbatch, hreplay, hstored.get, hput', (put_stored hput').get⟩

end Zeno
