import Zeno.Rpc.KvRequest

/-!
# Batches of requests

A `KVBatchRequest` serializes its requests one behind the other, and a batch among them
is serialized the same way.  Three walks step through these bytes: the client writes
them, the worker handles them, and the client reads the results.  The first and the
last step by `getSize`, the worker by the size that was stored.

The size of a batch is the field `reqs_size` of the object, which every `serializeTo`
adds to and nothing resets.  A batch within a batch that is sent again takes more room
than before, with a gap behind its requests that grows (`sizesAfter`, `Room`).  And a
batch that occurs twice in what is sent has another size when its results are read than
when it was first written (`stamps_eq_iff`), and the check in `copyResultFrom` fails.
-/

namespace Zeno

open Slice

/-- `CMD_BATCH_PUT` or `CMD_BATCH_GET`. -/
inductive BatchType where
  | put | get

/-- The command. -/
def BatchType.command : BatchType → Command
  | .put => .batchPut
  | .get => .batchGet

/-- The requests of a batch.  A batch among them is an object, and the same object can occur
again. -/
inductive Requests where
  | nil
  | kv (r : KvRequest) (rest : Requests)
  | batch (type : BatchType) (id : Nat) (reqs rest : Requests)

namespace Requests

/-- The number of requests, which is `nreqs`. -/
def count : Requests → Nat
  | .nil => 0
  | .kv _ rest => rest.count + 1
  | .batch _ _ _ rest => rest.count + 1

/-- How deep batches are nested, with a request as one level. -/
def depth : Requests → Nat
  | .nil => 0
  | .kv _ rest => max 1 rest.depth
  | .batch _ _ reqs rest => max (reqs.depth + 1) rest.depth

/-- The batches among the requests and their requests, in the order they are finished. -/
def batches : Requests → List (Nat × Requests)
  | .nil => []
  | .kv _ rest => rest.batches
  | .batch _ id reqs rest => reqs.batches ++ (id, reqs) :: rest.batches

end Requests

/-! ## The client -/

/-- `reqs_size += req_sz` of an object.  All the objects' `reqs_size` are one function. -/
def addSize (sizes : Nat → Nat) (id n : Nat) : Nat → Nat :=
  Function.update sizes id (sizes id + n)

/-- `KVBatchRequest::getSize`, an `int`. -/
def batchSize (sizes : Nat → Nat) (id : Nat) : Int := (BitVec.ofNat 32 (32 + sizes id)).toInt

/-- The size as it is stored. -/
def sizeField (sizes : Nat → Nat) (id : Nat) : Nat := (BitVec.ofInt 64 (batchSize sizes id)).toNat

/-- `KVBatchRequest::serializeTo`, around the loop over its requests. -/
def serializeHeader (type : BatchType) (count id : Nat)
    (loop : List UInt8 → Option ((Nat → Nat) × List UInt8)) (buf : List UInt8) :
    Option ((Nat → Nat) × List UInt8) := do
  let buf ← putLe 4 4 type.command.code buf
  let buf ← putLe 4 24 count buf
  let (sizes, rest) ← loop (buf.drop 28)
  let buf ← putLe 8 16 (sizeField sizes id) (buf.take 28 ++ rest)
  some (sizes, buf)

/-- The loop of `serializeTo` over the requests of an object. -/
def serializeLoop : Requests → Nat → (Nat → Nat) → List UInt8 →
    Option ((Nat → Nat) × List UInt8)
  | .nil, _, sizes, buf => some (sizes, buf)
  | .kv r rest, parent, sizes, buf => do
      let buf ← r.serializeTo buf
      let reqSz := r.getSize
      let (sizes, tail) ← serializeLoop rest parent (addSize sizes parent reqSz) (buf.drop reqSz)
      some (sizes, buf.take reqSz ++ tail)
  | .batch type id reqs rest, parent, sizes, buf => do
      let (sizes, buf) ← serializeHeader type reqs.count id (serializeLoop reqs id sizes) buf
      let reqSz := batchSize sizes id
      if 0 < reqSz then do
        let (sizes, tail) ← serializeLoop rest parent (addSize sizes parent reqSz.toNat)
          (buf.drop reqSz.toNat)
        some (sizes, buf.take reqSz.toNat ++ tail)
      else none

/-- `KVBatchRequest::copyResultFrom`, around the loop over its requests. -/
def copyHeader (sizes : Nat → Nat) (type : BatchType) (count id : Nat)
    (loop : List UInt8 → Option (List Reply)) (buf : List UInt8) : Option (List Reply) := do
  let code ← getLe 4 4 buf
  let nreqs ← getLe 4 24 buf
  let size ← getLe 8 16 buf
  if code = type.command.code ∧ nreqs = count ∧ size = sizeField sizes id then loop (buf.drop 28)
  else none

/-- The loop of `copyResultFrom` over the requests of an object.  A size that is not positive
would lead out of the struct. -/
def copyLoop (sizes : Nat → Nat) : Requests → List UInt8 → Option (List Reply)
  | .nil, _ => some []
  | .kv r rest, buf => do
      let res ← r.copyResultFrom buf
      let others ← copyLoop sizes rest (buf.drop r.getSize)
      some (res :: others)
  | .batch type id reqs rest, buf => do
      let res ← copyHeader sizes type reqs.count id (copyLoop sizes reqs) buf
      if 0 < batchSize sizes id then do
        let others ← copyLoop sizes rest (buf.drop (batchSize sizes id).toNat)
        some (res ++ others)
      else none

/-- `KVBatchRequest`. -/
structure KvBatch where
  /-- The command. -/
  type : BatchType
  /-- The object. -/
  id : Nat
  /-- Its requests. -/
  reqs : Requests
  /-- An object has the same requests wherever it occurs. -/
  consistent : ∀ x ∈ (id, reqs) :: reqs.batches, ∀ y ∈ (id, reqs) :: reqs.batches,
    x.1 = y.1 → x.2 = y.2

/-- `sendRequest` of a batch. -/
def sendBatch (e : Env) (g : Gcm) (depth : Nat) (b : KvBatch) (sizes : Nat → Nat) (tee : Tee)
    (region : List UInt8) : Option (List Reply × Tee × (Nat → Nat) × List UInt8) := do
  let (sizes, region) ←
    serializeHeader b.type b.reqs.count b.id (serializeLoop b.reqs b.id sizes) region
  let (tee, region) ← handleRegion e g depth tee region
  let res ← copyHeader sizes b.type b.reqs.count b.id (copyLoop sizes b.reqs) region
  let resp ← getLe 4 8 region
  if resp = 0 then some (res, tee, sizes, region) else none

/-- The requests of a batch sent one by one. -/
def sendSingly (e : Env) (g : Gcm) :
    Requests → Tee → List UInt8 → Option (List Reply × Tee × List UInt8)
  | .nil, tee, region => some ([], tee, region)
  | .kv r rest, tee, region => do
      let (res, tee, region) ← sendKv e g tee region r
      let (others, tee, region) ← sendSingly e g rest tee region
      some (res :: others, tee, region)
  | .batch _ _ reqs rest, tee, region => do
      let (res, tee, region) ← sendSingly e g reqs tee region
      let (others, tee, region) ← sendSingly e g rest tee region
      some (res ++ others, tee, region)

/-! ## The layout -/

/-- The sizes after the requests of an object were serialized. -/
def sizesAfter : Requests → Nat → (Nat → Nat) → Nat → Nat
  | .nil, _, sizes => sizes
  | .kv r rest, parent, sizes => sizesAfter rest parent (addSize sizes parent r.getSize)
  | .batch _ id reqs rest, parent, sizes =>
      let inner := sizesAfter reqs id sizes
      sizesAfter rest parent (addSize inner parent (32 + inner id))

/-- The sizes after a batch among the requests of an object. -/
def sizesInner (reqs : Requests) (id parent : Nat) (sizes : Nat → Nat) : Nat → Nat :=
  addSize (sizesAfter reqs id sizes) parent (32 + sizesAfter reqs id sizes id)

/-- The bytes that the requests of an object take. -/
def extent : Requests → Nat → (Nat → Nat) → Nat
  | .nil, _, _ => 0
  | .kv r rest, parent, sizes =>
      r.getSize + extent rest parent (addSize sizes parent r.getSize)
  | .batch _ id reqs rest, parent, sizes =>
      32 + sizesAfter reqs id sizes id + extent rest parent (sizesInner reqs id parent sizes)

/-- The sizes that the batches among the requests are written with. -/
def stamps : Requests → Nat → (Nat → Nat) → List (Nat × Nat)
  | .nil, _, _ => []
  | .kv r rest, parent, sizes => stamps rest parent (addSize sizes parent r.getSize)
  | .batch _ id reqs rest, parent, sizes =>
      stamps reqs id sizes ++ (id, 32 + sizesAfter reqs id sizes id) ::
        stamps rest parent (sizesInner reqs id parent sizes)

/-- The requests have room in so many bytes, each for what is needed of it. -/
def Room (need : KvRequest → Nat) : Requests → Nat → (Nat → Nat) → Nat → Prop
  | .nil, _, _, _ => True
  | .kv r rest, parent, sizes, room =>
      need r ≤ room ∧
        Room need rest parent (addSize sizes parent r.getSize) (room - r.getSize)
  | .batch _ id reqs rest, parent, sizes, room =>
      28 ≤ room ∧ Room need reqs id sizes (room - 28) ∧
        Room need rest parent (sizesInner reqs id parent sizes)
          (room - (32 + sizesAfter reqs id sizes id))

/-- All that is written stays in the region, with the gaps that earlier sends lead to. -/
def KvBatch.Fits (b : KvBatch) (sizes : Nat → Nat) : Prop :=
  Room KvRequest.valueEnd b.reqs b.id sizes (reqRegionSize - 28)

/-- The sizes of the batches among the requests are `int`s. -/
def KvBatch.SizesFit (b : KvBatch) (sizes : Nat → Nat) : Prop :=
  ∀ s ∈ stamps b.reqs b.id sizes, s.2 < 2 ^ 31

/-- No batch with requests occurs twice. -/
def KvBatch.NoRepeat (b : KvBatch) : Prop :=
  b.reqs.batches.Pairwise fun x y => x.1 = y.1 → y.2 = .nil

section Layout

variable {r : KvRequest} {type : BatchType} {id parent x : Nat} {reqs rest : Requests}
  {sizes : Nat → Nat}

theorem addSize_eq (n : Nat) : addSize sizes id n x = sizes x + if x = id then n else 0 := by
  unfold addSize
  by_cases h : x = id
  · rw [h, Function.update_self, if_pos rfl]
  · rw [Function.update_of_ne h, if_neg h, Nat.add_zero]

theorem sizesInner_eq : sizesInner reqs id parent sizes x =
    sizesAfter reqs id sizes x + if x = parent then 32 + sizesAfter reqs id sizes id else 0 :=
  addSize_eq _

theorem sizesAfter_batch : sizesAfter (.batch type id reqs rest) parent sizes =
    sizesAfter rest parent (sizesInner reqs id parent sizes) := rfl

theorem KvRequest.getSize_pos (r : KvRequest) : 0 < r.getSize := by
  have hle := r.getSize_bounds.1
  have hpos := r.inputEnd_bounds
  omega

/-- Sizes only grow. -/
theorem le_sizesAfter (reqs : Requests) (parent : Nat) (sizes : Nat → Nat) (x : Nat) :
    sizes x ≤ sizesAfter reqs parent sizes x := by
  induction reqs generalizing parent sizes with
  | nil => exact Nat.le_refl _
  | kv r rest ih =>
      have hrest := ih parent (addSize sizes parent r.getSize)
      rw [addSize_eq] at hrest
      exact (Nat.le_add_right _ _).trans hrest
  | batch type id reqs rest ihReqs ihRest =>
      have hrest := ihRest parent (sizesInner reqs id parent sizes)
      rw [sizesInner_eq] at hrest
      exact (ihReqs id sizes).trans ((Nat.le_add_right _ _).trans hrest)

/-- The size of the object itself grows by what its requests take. -/
theorem add_extent_le (reqs : Requests) (parent : Nat) (sizes : Nat → Nat) :
    sizes parent + extent reqs parent sizes ≤ sizesAfter reqs parent sizes parent := by
  induction reqs generalizing sizes with
  | nil => exact Nat.le_refl _
  | kv r rest ih =>
      have hrest := ih (addSize sizes parent r.getSize)
      rw [addSize_eq, if_pos rfl] at hrest
      rw [extent, sizesAfter]
      omega
  | batch type id reqs rest _ ihRest =>
      have hreqs := le_sizesAfter reqs id sizes parent
      have hrest := ihRest (sizesInner reqs id parent sizes)
      rw [sizesInner_eq, if_pos rfl] at hrest
      rw [extent, sizesAfter_batch]
      omega

/-- A size stays the same if the object gets no requests. -/
theorem sizesAfter_eq_iff :
    sizesAfter reqs parent sizes x = sizes x ↔
      (∀ b ∈ reqs.batches, x = b.1 → b.2 = .nil) ∧ (x = parent → reqs = .nil) := by
  induction reqs generalizing parent sizes with
  | nil => simp [sizesAfter, Requests.batches]
  | kv r rest ih =>
      have hgrow := le_sizesAfter rest parent (addSize sizes parent r.getSize) x
      have hpos := r.getSize_pos
      rw [addSize_eq] at hgrow
      rw [sizesAfter]
      by_cases hx : x = parent
      · rw [if_pos hx] at hgrow
        refine iff_of_false (by omega) ?_
        intro h
        cases h.2 hx
      · have hsame : addSize sizes parent r.getSize x = sizes x := by
          rw [addSize_eq, if_neg hx, Nat.add_zero]
        rw [← hsame, ih]
        exact and_congr_right fun _ => iff_of_true (fun he => absurd he hx)
          (fun he => absurd he hx)
  | batch type id reqs rest ihReqs ihRest =>
      have hreqs := le_sizesAfter reqs id sizes x
      have hrest := le_sizesAfter rest parent (sizesInner reqs id parent sizes) x
      have hinner : sizesInner reqs id parent sizes x = _ := sizesInner_eq
      rw [sizesAfter_batch]
      by_cases hx : x = parent
      · rw [if_pos hx] at hinner
        refine iff_of_false (by omega) ?_
        intro h
        cases h.2 hx
      · rw [if_neg hx, Nat.add_zero] at hinner
        -- both parts leave the size alone
        have hsplit : sizesAfter rest parent (sizesInner reqs id parent sizes) x = sizes x ↔
            sizesAfter reqs id sizes x = sizes x ∧
              sizesAfter rest parent (sizesInner reqs id parent sizes) x =
                sizesInner reqs id parent sizes x := by
          omega
        rw [hsplit, ihReqs, ihRest]
        simp only [Requests.batches, List.forall_mem_append, List.forall_mem_cons, and_assoc,
          hx, false_implies, and_true]

/-- Each batch is written with a size that its object has at that time. -/
theorem stamps_le {s : Nat × Nat} (hs : s ∈ stamps reqs parent sizes) :
    s.2 ≤ 32 + sizesAfter reqs parent sizes s.1 := by
  induction reqs generalizing parent sizes with
  | nil => cases hs
  | kv r rest ih => exact ih hs
  | batch type id reqs rest ihReqs ihRest =>
      have hrest (x : Nat) := le_sizesAfter rest parent (sizesInner reqs id parent sizes) x
      have hinner (x : Nat) : sizesInner reqs id parent sizes x = _ := sizesInner_eq
      rw [sizesAfter_batch]
      simp only [stamps, List.mem_append, List.mem_cons] at hs
      rcases hs with hs | rfl | hs
      · have := ihReqs hs
        have := hrest s.1
        have := hinner s.1
        omega
      · have := hrest id
        have := hinner id
        dsimp only
        omega
      · exact ihRest hs

/-- The objects of the sizes are those of the batches. -/
theorem forall_stamps_iff (p : Nat → Prop) :
    (∀ s ∈ stamps reqs parent sizes, p s.1) ↔ ∀ b ∈ reqs.batches, p b.1 := by
  induction reqs generalizing parent sizes with
  | nil => exact iff_of_true (fun _ hs => nomatch hs) (fun _ hb => nomatch hb)
  | kv r rest ih => exact ih
  | batch type id reqs rest ihReqs ihRest =>
      simp only [stamps, Requests.batches, List.forall_mem_append, List.forall_mem_cons, ihReqs,
        ihRest]

theorem ne_nil_of_mem_batches {b : Nat × Requests} (hb : b ∈ reqs.batches) : reqs ≠ .nil := by
  rintro rfl
  cases hb

/-- What comes behind a batch leaves a size alone. -/
theorem sizesAfter_inner_eq_iff :
    sizesAfter rest parent (sizesInner reqs id parent sizes) x = sizesAfter reqs id sizes x ↔
      x ≠ parent ∧ ∀ b ∈ rest.batches, x = b.1 → b.2 = .nil := by
  have hrest := le_sizesAfter rest parent (sizesInner reqs id parent sizes) x
  have hinner : sizesInner reqs id parent sizes x = _ := sizesInner_eq
  by_cases hx : x = parent
  · rw [if_pos hx] at hinner
    exact iff_of_false (by omega) fun h => h.1 hx
  · rw [if_neg hx, Nat.add_zero] at hinner
    rw [← hinner, sizesAfter_eq_iff]
    simp only [hx, false_implies, and_true, ne_eq, not_false_eq_true, true_and]

/-- The inner batches keep their sizes to the end of their batch, and from there to the end. -/
theorem stamps_inner_eq_iff :
    (∀ s ∈ stamps reqs id sizes,
        s.2 = 32 + sizesAfter rest parent (sizesInner reqs id parent sizes) s.1) ↔
      (∀ s ∈ stamps reqs id sizes, s.2 = 32 + sizesAfter reqs id sizes s.1) ∧
        ∀ a ∈ reqs.batches, a.1 ≠ parent ∧ ∀ b ∈ rest.batches, a.1 = b.1 → b.2 = .nil := by
  have hobjects : (∀ s ∈ stamps reqs id sizes,
      sizesAfter rest parent (sizesInner reqs id parent sizes) s.1 =
        sizesAfter reqs id sizes s.1) ↔ _ :=
    (forall_stamps_iff fun x => sizesAfter rest parent (sizesInner reqs id parent sizes) x =
      sizesAfter reqs id sizes x).trans (forall₂_congr fun _ _ => sizesAfter_inner_eq_iff)
  rw [← hobjects, ← forall₂_and]
  refine forall₂_congr fun s hs => ?_
  have hle := stamps_le hs
  have hrest := le_sizesAfter rest parent (sizesInner reqs id parent sizes) s.1
  rw [sizesInner_eq] at hrest
  omega

/-- All batches keep the size they are written with if none with requests comes again. -/
theorem stamps_eq_iff :
    (∀ s ∈ stamps reqs parent sizes, s.2 = 32 + sizesAfter reqs parent sizes s.1) ↔
      (reqs.batches.Pairwise fun x y => x.1 = y.1 → y.2 = .nil) ∧
        ∀ b ∈ reqs.batches, b.1 ≠ parent := by
  induction reqs generalizing parent sizes with
  | nil => simp [stamps, Requests.batches]
  | kv r rest ih => exact ih
  | batch type id reqs rest ihReqs ihRest =>
      have hown : 32 + sizesAfter reqs id sizes id =
          32 + sizesAfter rest parent (sizesInner reqs id parent sizes) id ↔
            id ≠ parent ∧ ∀ b ∈ rest.batches, id = b.1 → b.2 = .nil := by
        rw [Nat.add_right_inj, eq_comm]
        exact sizesAfter_inner_eq_iff
      have hreqs : (∀ a ∈ reqs.batches, a.1 = id → reqs = .nil) ↔ ∀ a ∈ reqs.batches, a.1 ≠ id :=
        forall₂_congr fun a ha => by simp only [ne_nil_of_mem_batches ha, imp_false, ne_eq]
      simp only [stamps, sizesAfter_batch, Requests.batches, List.forall_mem_append,
        List.forall_mem_cons, stamps_inner_eq_iff, hown, ihReqs, ihRest, List.pairwise_append,
        List.pairwise_cons, forall₂_and, hreqs]
      constructor
      · rintro ⟨⟨⟨hA, hAid⟩, hAp, hAC⟩, ⟨hidp, hidC⟩, hC, hCp⟩
        exact ⟨⟨hA, ⟨hidC, hC⟩, hAid, hAC⟩, hAp, hidp, hCp⟩
      · rintro ⟨⟨hA, ⟨hidC, hC⟩, hAid, hAC⟩, hAp, hidp, hCp⟩
        exact ⟨⟨⟨hA, hAid⟩, hAp, hAC⟩, ⟨hidp, hidC⟩, hC, hCp⟩

/-- An object has in the end the last size it was written with. -/
theorem sizesAfter_lt {bound : Nat} (hsizes : ∀ s ∈ stamps reqs parent sizes, s.2 < bound)
    {b : Nat × Requests} (hb : b ∈ reqs.batches) (hne : b.1 ≠ parent) :
    32 + sizesAfter reqs parent sizes b.1 < bound := by
  induction reqs generalizing parent sizes b with
  | nil => cases hb
  | kv r rest ih => exact ih hsizes hb hne
  | batch type id reqs rest ihReqs ihRest =>
      simp only [stamps, List.forall_mem_append, List.forall_mem_cons] at hsizes
      obtain ⟨hreqs, hown, hrest⟩ := hsizes
      rw [sizesAfter_batch]
      by_cases hlater : ∃ c ∈ rest.batches, b.1 = c.1
      · obtain ⟨c, hc, hbc⟩ := hlater
        rw [hbc] at hne ⊢
        exact ihRest hrest hc hne
      · have hkeep : sizesAfter rest parent (sizesInner reqs id parent sizes) b.1 =
            sizesAfter reqs id sizes b.1 :=
          sizesAfter_inner_eq_iff.mpr ⟨hne, fun c hc hbc => absurd ⟨c, hc, hbc⟩ hlater⟩
        rw [hkeep]
        by_cases hid : b.1 = id
        · rwa [hid]
        · simp only [Requests.batches, List.mem_append, List.mem_cons] at hb
          rcases hb with hb | rfl | hb
          · exact ihReqs hreqs hb hid
          · exact absurd rfl hid
          · exact absurd ⟨b, hb, rfl⟩ hlater

/-! ## Room -/

theorem Room.mono {need need' : KvRequest → Nat} (hle : ∀ r, need' r ≤ need r) {room : Nat}
    (h : Room need reqs parent sizes room) : Room need' reqs parent sizes room := by
  induction reqs generalizing parent sizes room with
  | nil => exact h
  | kv r rest ih => exact ⟨(hle r).trans h.1, ih h.2⟩
  | batch type id reqs rest ihReqs ihRest => exact ⟨h.1, ihReqs h.2.1, ihRest h.2.2⟩

/-- Every request takes a byte. -/
theorem Room.count_le {need : KvRequest → Nat} (hpos : ∀ r, 0 < need r) {room : Nat}
    (h : Room need reqs parent sizes room) : reqs.count ≤ room := by
  induction reqs generalizing parent sizes room with
  | nil => exact Nat.zero_le _
  | kv r rest ih =>
      have hrest := ih h.2
      have hneed := hpos r
      have hroom := h.1
      have hsize := r.getSize_pos
      rw [Requests.count]
      omega
  | batch type id reqs rest _ ihRest =>
      have hrest := ihRest h.2.2
      have hroom := h.1
      rw [Requests.count]
      omega

end Layout

/-! ## New objects -/

/-- The bytes that requests take if no batch among them was sent before. -/
def Requests.size : Requests → Nat
  | .nil => 0
  | .kv r rest => r.getSize + rest.size
  | .batch _ _ reqs rest => 32 + reqs.size + rest.size

/-- The batches among the requests of an object. -/
def Requests.ids (reqs : Requests) : List Nat := reqs.batches.map Prod.fst

/-- The batches among the requests of an object are others than it, all different, and none
was sent before. -/
structure Requests.New (reqs : Requests) (parent : Nat) (sizes : Nat → Nat) : Prop where
  nodup : reqs.ids.Nodup
  notMem : parent ∉ reqs.ids
  unsent : ∀ x ∈ reqs.ids, sizes x = 0

namespace Requests.New

variable {r : KvRequest} {type : BatchType} {id parent x : Nat} {reqs rest : Requests}
  {sizes : Nat → Nat}

theorem kv_rest (h : (kv r rest).New parent sizes) :
    rest.New parent (addSize sizes parent r.getSize) := by
  refine ⟨h.nodup, h.notMem, ?_⟩
  intro x hx
  have hne : x ≠ parent := fun he => h.notMem (he ▸ hx)
  rw [addSize_eq, if_neg hne, Nat.add_zero]
  exact h.unsent x hx

theorem ids_batch : (batch type id reqs rest).ids = reqs.ids ++ id :: rest.ids := by
  rw [ids, batches, List.map_append, List.map_cons, ids, ids]

theorem batch_reqs (h : (batch type id reqs rest).New parent sizes) : reqs.New id sizes := by
  obtain ⟨nodup, -, unsent⟩ := h
  rw [ids_batch] at nodup unsent
  refine ⟨nodup.of_append_left, ?_, fun x hx => unsent x (List.mem_append_left _ hx)⟩
  intro hid
  exact List.disjoint_of_nodup_append nodup hid List.mem_cons_self

theorem unsent_id (h : (batch type id reqs rest).New parent sizes) : sizes id = 0 := by
  refine h.unsent id ?_
  rw [ids_batch]
  exact List.mem_append_right _ List.mem_cons_self

/-- What is behind a batch, if its size is known. -/
theorem batch_rest_of (h : (batch type id reqs rest).New parent sizes)
    (hreqs : ∀ x ∉ reqs.ids, x ≠ id → sizesAfter reqs id sizes x = sizes x) :
    rest.New parent (sizesInner reqs id parent sizes) := by
  obtain ⟨nodup, notMem, unsent⟩ := h
  rw [ids_batch] at nodup notMem unsent
  simp only [List.mem_append, List.mem_cons, not_or] at notMem
  have hrest := List.nodup_cons.mp nodup.of_append_right
  refine ⟨hrest.2, notMem.2.2, ?_⟩
  intro x hx
  have hreqsMem : x ∉ reqs.ids := fun hmem =>
    List.disjoint_of_nodup_append nodup hmem (List.mem_cons_of_mem _ hx)
  have hparent : x ≠ parent := fun he => notMem.2.2 (he ▸ hx)
  have hid : x ≠ id := fun he => hrest.1 (he ▸ hx)
  rw [sizesInner_eq, if_neg hparent, Nat.add_zero, hreqs x hreqsMem hid]
  exact unsent x (List.mem_append_right _ (List.mem_cons_of_mem _ hx))

/-- The object grows by the size of its requests, and others outside not at all. -/
theorem sizesAfter_eq (h : reqs.New parent sizes) (hx : x ∉ reqs.ids) :
    sizesAfter reqs parent sizes x = sizes x + if x = parent then reqs.size else 0 := by
  induction reqs generalizing parent sizes x with
  | nil => rw [sizesAfter, size, ite_self, Nat.add_zero]
  | kv r rest ih =>
      rw [sizesAfter, size, ih h.kv_rest hx, addSize_eq]
      split <;> omega
  | batch type id reqs rest ihReqs ihRest =>
      have hinner := h.batch_reqs
      have hrest := h.batch_rest_of fun y hy hne => by
        rw [ihReqs hinner hy, if_neg hne, Nat.add_zero]
      rw [ids_batch] at hx
      simp only [List.mem_append, List.mem_cons, not_or] at hx
      rw [sizesAfter_batch, ihRest hrest hx.2.2, sizesInner_eq, ihReqs hinner hx.1,
        ihReqs hinner hinner.notMem, if_neg hx.2.1, if_pos rfl, h.unsent_id, size]
      split <;> omega

/-- A batch has the size of its requests. -/
theorem sizesAfter_id (h : (batch type id reqs rest).New parent sizes) :
    sizesAfter reqs id sizes id = reqs.size := by
  rw [h.batch_reqs.sizesAfter_eq h.batch_reqs.notMem, h.unsent_id, if_pos rfl, Nat.zero_add]

theorem batch_rest (h : (batch type id reqs rest).New parent sizes) :
    rest.New parent (sizesInner reqs id parent sizes) :=
  h.batch_rest_of fun x hx hne => by
    rw [h.batch_reqs.sizesAfter_eq hx, if_neg hne, Nat.add_zero]

/-- New requests need no more room than they take. -/
theorem room (h : reqs.New parent sizes) {bytes : Nat} (hle : reqs.size ≤ bytes) :
    Room KvRequest.valueEnd reqs parent sizes bytes := by
  induction reqs generalizing parent sizes bytes with
  | nil => trivial
  | kv r rest ih =>
      rw [size] at hle
      have hend := r.getSize_bounds.1
      exact ⟨by omega, ih h.kv_rest (by omega)⟩
  | batch type id reqs rest ihReqs ihRest =>
      rw [size] at hle
      refine ⟨by omega, ihReqs h.batch_reqs (by omega), ihRest h.batch_rest ?_⟩
      rw [h.sizesAfter_id]
      omega

theorem stamps_le_size (h : reqs.New parent sizes) {s : Nat × Nat}
    (hs : s ∈ stamps reqs parent sizes) : s.2 ≤ reqs.size := by
  induction reqs generalizing parent sizes with
  | nil => cases hs
  | kv r rest ih => exact (ih h.kv_rest hs).trans (Nat.le_add_left _ _)
  | batch type id reqs rest ihReqs ihRest =>
      rw [stamps, h.sizesAfter_id] at hs
      simp only [List.mem_append, List.mem_cons] at hs
      rw [size]
      rcases hs with hs | rfl | hs
      · have := ihReqs h.batch_reqs hs
        omega
      · dsimp only
        omega
      · have := ihRest h.batch_rest hs
        omega

end Requests.New

/-- A batch lies less deep than what it is among. -/
theorem Requests.depth_lt {reqs : Requests} {x : Nat × Requests} (hx : x ∈ reqs.batches) :
    x.2.depth < reqs.depth := by
  induction reqs with
  | nil => cases hx
  | kv r rest ih => exact (ih hx).trans_le (Nat.le_max_right _ _)
  | batch type id reqs rest ihReqs ihRest =>
      simp only [batches, List.mem_append, List.mem_cons] at hx
      rw [depth]
      rcases hx with hx | rfl | hx
      · have := ihReqs hx
        omega
      · dsimp only
        omega
      · have := ihRest hx
        omega

/-- No object is among its own requests. -/
theorem KvBatch.id_ne (b : KvBatch) {x : Nat × Requests} (hx : x ∈ b.reqs.batches) :
    x.1 ≠ b.id := by
  intro heq
  have hsame : x.2 = b.reqs :=
    b.consistent x (List.mem_cons_of_mem _ hx) (b.id, b.reqs) List.mem_cons_self heq
  have hlt := Requests.depth_lt hx
  rw [hsame] at hlt
  exact Nat.lt_irrefl _ hlt

/-- A batch of new objects is all right if its requests have the room. -/
theorem KvBatch.of_new {b : KvBatch} {sizes : Nat → Nat} (h : b.reqs.New b.id sizes)
    (hsize : 28 + b.reqs.size ≤ reqRegionSize) :
    b.SizesFit sizes ∧ b.Fits sizes ∧ b.NoRepeat := by
  have hregion : reqRegionSize = 1048576 := rfl
  refine ⟨?_, h.room (by omega), ?_⟩
  · intro s hs
    have hle := h.stamps_le_size hs
    omega
  · have hne : b.reqs.batches.Pairwise fun x y => x.1 ≠ y.1 := List.pairwise_map.mp h.nodup
    exact hne.imp fun hxy he => absurd he hxy

end Zeno
