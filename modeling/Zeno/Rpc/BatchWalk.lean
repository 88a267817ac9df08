import Zeno.Rpc.KvBatch

/-!
# The walks over a batch

Here the client's two walks over the bytes of a batch and the worker's walk between them
are put together.  `Laid` says that the requests of a batch lie in some memory, each where
the sizes at that time put it.  The first walk lays the requests (`serializeLoop_laid`),
the worker turns the requests into their answers (`handleBatch_laid`), and the last walk
reads these if the sizes did not change meanwhile (`copyLoop_eq_some_iff`).
-/

namespace Zeno

open Slice

/-! ## Headers -/

/-- The fields of a `BatchRequestData`. -/
structure BatchHeader (type : BatchType) (count size : Nat) (b : List UInt8) : Prop where
  code : getLe 4 4 b = some type.command.code
  nreqs : getLe 4 24 b = some count
  size : getLe 8 16 b = some size

section Headers

variable {type : BatchType} {count id size : Nat} {sizes : Nat → Nat} {buf inner : List UInt8}

theorem batchSize_eq (h : 32 + sizes id < 2 ^ 31) : batchSize sizes id = (32 + sizes id : Nat) := by
  have hval : (BitVec.ofNat 32 (32 + sizes id)).toNat = 32 + sizes id := by
    rw [BitVec.toNat_ofNat]
    omega
  rw [batchSize, BitVec.toInt_eq_toNat_of_lt (by omega), hval]

theorem sizeField_eq (h : 32 + sizes id < 2 ^ 31) : sizeField sizes id = 32 + sizes id := by
  rw [sizeField, batchSize_eq h, BitVec.ofInt_natCast, BitVec.toNat_ofNat]
  omega

/-- The header is written around what the loop writes. -/
theorem serializeHeader_eq (type : BatchType) (id : Nat)
    {loop : List UInt8 → Option ((Nat → Nat) × List UInt8)} (hroom : 28 ≤ buf.length)
    (hcount : count < 256 ^ 4)
    (hloop : loop (buf.drop 28) = some (sizes, inner)) :
    ∃ head, serializeHeader type count id loop buf = some (sizes, head ++ inner) ∧
      head.length = (buf.take 28).length ∧ BatchHeader type count (sizeField sizes id) head := by
  have hlen : (buf.take 28).length = 28 := by
    rw [List.length_take]
    omega
  obtain ⟨b₁, hput₁, hlen₁, hcode, -⟩ := putLe_append (buf.drop 28)
    (show 4 + 4 ≤ (buf.take 28).length by omega) type.command.code_lt
  obtain ⟨b₂, hput₂, hlen₂, hnreqs, hother₂⟩ :=
    putLe_append (buf.drop 28) (show 24 + 4 ≤ b₁.length by omega) hcount
  have hfield : sizeField sizes id < 256 ^ 8 := (BitVec.ofInt 64 (batchSize sizes id)).isLt
  obtain ⟨b₃, hput₃, hlen₃, hsize, hother₃⟩ :=
    putLe_append inner (show 16 + 8 ≤ b₂.length by omega) hfield
  rw [List.take_append_drop] at hput₁
  refine ⟨b₃, ?_, by omega, ?_, ?_, hsize⟩
  · simp only [serializeHeader, hput₁, hput₂, drop_front (hlen₂.trans hlen₁) rfl,
      take_front (hlen₂.trans hlen₁) rfl, hloop, hput₃, Option.bind_eq_bind, Option.bind_some]
  · rw [getLe, hother₃ 4 4 (by omega), hother₂ 4 4 (by omega)]
    exact hcode
  · rw [getLe, hother₃ 24 4 (by omega)]
    exact hnreqs

/-- The header has no other room, and the loop is run behind it. -/
theorem loop_of_serializeHeader {loop : List UInt8 → Option ((Nat → Nat) × List UInt8)}
    {x : (Nat → Nat) × List UInt8} (h : serializeHeader type count id loop buf = some x) :
    28 ≤ buf.length ∧ ∃ y, loop (buf.drop 28) = some y := by
  obtain ⟨b₁, hput₁, h⟩ := Option.bind_eq_some_iff.mp h
  obtain ⟨b₂, hput₂, h⟩ := Option.bind_eq_some_iff.mp h
  obtain ⟨y, hloop, -⟩ := Option.bind_eq_some_iff.mp h
  obtain ⟨-, hchange₁⟩ := ChangedIn.of_putLe hput₁
  obtain ⟨hroom, hchange₂⟩ := ChangedIn.of_putLe hput₂
  have hsame := ((hchange₁.mono (by omega)).trans hchange₂).drop
  refine ⟨hchange₁.length ▸ hroom, y, ?_⟩
  rw [← hsame]
  exact hloop

theorem BatchHeader.le_length {b : List UInt8} (h : BatchHeader type count size b) :
    28 ≤ b.length := by
  obtain ⟨bs, hget, -⟩ := Option.map_eq_some_iff.mp h.nreqs
  exact le_of_get hget

theorem BatchHeader.append {b : List UInt8} (h : BatchHeader type count size b)
    (rest : List UInt8) : BatchHeader type count size (b ++ rest) :=
  ⟨getLe_append_of_eq_some h.code rest, getLe_append_of_eq_some h.nreqs rest,
    getLe_append_of_eq_some h.size rest⟩

variable {e : Env} {g : Gcm} {tee tee' : Tee}

/-- The worker runs the loop behind the header, and clears the response. -/
theorem handleRegion_batch (head : BatchHeader type count size (buf.take 28))
    (hcount : count < 2 ^ 31) {depth : Nat} :
    handleRegion e g (depth + 1) tee buf =
      (handleBatch (handleRegion e g depth) count tee (buf.drop 28)).bind fun (tee, inner) =>
        (putLe 4 8 0 (buf.take 28 ++ inner)).map (tee, ·) := by
  have hall := head.append (buf.drop 28)
  rw [List.take_append_drop] at hall
  have hisBatch : type.command.isBatch = true := by
    cases type <;> rfl
  have hloops : (BitVec.ofNat 32 count).toInt.toNat = count := by
    have hval : (BitVec.ofNat 32 count).toNat = count := by
      rw [BitVec.toNat_ofNat]
      omega
    rw [BitVec.toInt_eq_toNat_of_lt (by omega), hval, Int.toNat_natCast]
  simp only [handleRegion, hall.code, hall.nreqs, Command.ofCode_code, hisBatch, hloops,
    Option.bind_eq_bind, Option.bind_some, if_true, Option.map_eq_bind]
  rfl

theorem putLe_resp (head : BatchHeader type count size (buf.take 28)) (inner : List UInt8) :
    ∃ b, putLe 4 8 0 (buf.take 28 ++ inner) = some (b ++ inner) ∧
      b.length = (buf.take 28).length ∧ BatchHeader type count size b ∧ getLe 4 8 b = some 0 := by
  have hlen := head.le_length
  obtain ⟨b, hput, hlen', hresp, hother⟩ := putLe_append inner
    (show 8 + 4 ≤ (buf.take 28).length by omega) (show 0 < 256 ^ 4 by decide)
  refine ⟨b, hput, hlen', ⟨?_, ?_, ?_⟩, hresp⟩
  · rw [getLe, hother 4 4 (by omega)]
    exact head.code
  · rw [getLe, hother 24 4 (by omega)]
    exact head.nreqs
  · rw [getLe, hother 16 8 (by omega)]
    exact head.size

/-- The client checks the size only, as nobody has changed the rest. -/
theorem copyHeader_eq (head : BatchHeader type count size (buf.take 28))
    (loop : List UInt8 → Option (List Reply)) :
    copyHeader sizes type count id loop buf =
      if size = sizeField sizes id then loop (buf.drop 28) else none := by
  have hall := head.append (buf.drop 28)
  rw [List.take_append_drop] at hall
  simp only [copyHeader, hall.code, hall.nreqs, hall.size, Option.bind_eq_bind, Option.bind_some,
    true_and]

end Headers

/-! ## Requests in memory -/

/-- The requests of an object lie in some memory. -/
inductive Laid {α : Type} (Leaf : KvRequest → α → List UInt8 → Prop) :
    Requests → Nat → (Nat → Nat) → List α → List UInt8 → Prop
  | nil {parent : Nat} {sizes : Nat → Nat} {buf : List UInt8} : Laid Leaf .nil parent sizes [] buf
  | kv {r : KvRequest} {rest : Requests} {parent : Nat} {sizes : Nat → Nat} {a : α} {as : List α}
      {buf : List UInt8} (leaf : Leaf r a (buf.take r.getSize))
      (tail : Laid Leaf rest parent (addSize sizes parent r.getSize) as (buf.drop r.getSize)) :
      Laid Leaf (.kv r rest) parent sizes (a :: as) buf
  | batch {type : BatchType} {id : Nat} {reqs rest : Requests} {parent : Nat}
      {sizes : Nat → Nat} {as as' : List α} {buf : List UInt8}
      (head : BatchHeader type reqs.count (32 + sizesAfter reqs id sizes id) (buf.take 28))
      (inner : Laid Leaf reqs id sizes as (buf.drop 28))
      (tail : Laid Leaf rest parent (sizesInner reqs id parent sizes) as'
        (buf.drop (32 + sizesAfter reqs id sizes id))) :
      Laid Leaf (.batch type id reqs rest) parent sizes (as ++ as') buf

namespace Laid

variable {α : Type} {Leaf : KvRequest → α → List UInt8 → Prop} {type : BatchType}
  {reqs rest : Requests} {id parent : Nat} {sizes : Nat → Nat} {a : α} {as as' : List α}
  {buf buf' : List UInt8}

/-- They lie in the bytes they take. -/
theorem congr (h : Laid Leaf reqs parent sizes as buf)
    (hbuf : buf'.take (extent reqs parent sizes) = buf.take (extent reqs parent sizes)) :
    Laid Leaf reqs parent sizes as buf' := by
  induction h generalizing buf' with
  | nil => exact .nil
  | kv leaf tail ih =>
      refine .kv ?_ (ih (take_drop_congr hbuf (Nat.le_refl _)))
      rwa [take_congr hbuf (Nat.le_add_right _ _)]
  | @batch type id reqs rest parent sizes as as' buf head inner tail ihInner ihTail =>
      have hinner := add_extent_le reqs id sizes
      refine .batch ?_ (ihInner (take_drop_congr hbuf ?_))
        (ihTail (take_drop_congr hbuf (Nat.le_refl _)))
      · rwa [take_congr hbuf]
        rw [extent]
        omega
      · rw [extent]
        omega

/-- A batch, and then what is behind it. -/
theorem batch_append {tail : List UInt8}
    (head : BatchHeader type reqs.count (32 + sizesAfter reqs id sizes id) (buf.take 28))
    (inner : Laid Leaf reqs id sizes as (buf.drop 28))
    (hlen : tail.length = (buf.drop (32 + sizesAfter reqs id sizes id)).length)
    (htail : Laid Leaf rest parent (sizesInner reqs id parent sizes) as' tail) :
    Laid Leaf (.batch type id reqs rest) parent sizes (as ++ as')
      (buf.take (32 + sizesAfter reqs id sizes id) ++ tail) := by
  have hextent := add_extent_le reqs id sizes
  have hfront : (buf.take (32 + sizesAfter reqs id sizes id) ++ tail).take
      (32 + sizesAfter reqs id sizes id) = buf.take (32 + sizesAfter reqs id sizes id) :=
    take_front rfl hlen
  refine .batch ?_ (inner.congr (take_drop_congr hfront (by omega))) ?_
  · rwa [take_congr hfront (by omega)]
  · rwa [drop_front rfl hlen]

end Laid

/-- A request as it was serialized, with no answer. -/
def Encodes (r : KvRequest) (_ : Unit) (b : List UInt8) : Prop := r.Encoded b

section Serialize

variable {type : BatchType} {reqs : Requests} {id parent : Nat} {sizes : Nat → Nat}
  {buf : List UInt8}

/-- A batch is laid with what the loop lays behind its header. -/
theorem serializeHeader_laid (type : BatchType) (hhead : 28 ≤ buf.length)
    (hcount : reqs.count < 256 ^ 4) {inner : List UInt8} {as : List Unit}
    (hloop : serializeLoop reqs id sizes (buf.drop 28) = some (sizesAfter reqs id sizes, inner))
    (hchange : ChangedIn (extent reqs id sizes) (buf.drop 28) inner)
    (hlaid : Laid Encodes reqs id sizes as inner) :
    ∃ m, serializeHeader type reqs.count id (serializeLoop reqs id sizes) buf =
        some (sizesAfter reqs id sizes, m) ∧
      ChangedIn (28 + extent reqs id sizes) buf m ∧
      BatchHeader type reqs.count (sizeField (sizesAfter reqs id sizes) id) (m.take 28) ∧
      Laid Encodes reqs id sizes as (m.drop 28) := by
  obtain ⟨head, hserialize, hlen, hheader⟩ := serializeHeader_eq type id hhead hcount hloop
  refine ⟨head ++ inner, hserialize, .behind hlen hchange, ?_, ?_⟩
  · rwa [take_front hlen hchange.length]
  · rwa [drop_front hlen hchange.length]

/-- The walk over a request, and then over the others. -/
theorem serializeLoop_kv {r : KvRequest} (rest : Requests) (hroom : r.inputEnd ≤ buf.length) :
    ∃ b, b.length = (buf.take r.getSize).length ∧ r.Encoded b ∧
      serializeLoop (.kv r rest) parent sizes buf =
        (serializeLoop rest parent (addSize sizes parent r.getSize) (buf.drop r.getSize)).map
          fun x => (x.1, b ++ x.2) := by
  obtain ⟨b, hserialize, hb, hencoded⟩ := r.serializeTo_front hroom
  refine ⟨b, hb, hencoded, ?_⟩
  simp only [serializeLoop, hserialize, drop_front hb rfl, take_front hb rfl, Option.bind_eq_bind,
    Option.bind_some, Option.map_eq_bind]
  rfl

/-- The walk over a batch whose requests are laid, and then over the others. -/
theorem serializeLoop_batch (type : BatchType) (rest : Requests) (hhead : 28 ≤ buf.length)
    (hlen : buf.length < 2 ^ 31)
    (hreqs : Room KvRequest.inputEnd reqs id sizes (buf.drop 28).length)
    (hsize : 32 + sizesAfter reqs id sizes id < 2 ^ 31) {inner : List UInt8} {as : List Unit}
    (hloop : serializeLoop reqs id sizes (buf.drop 28) = some (sizesAfter reqs id sizes, inner))
    (hchange : ChangedIn (extent reqs id sizes) (buf.drop 28) inner)
    (hlaid : Laid Encodes reqs id sizes as inner) :
    ∃ m, ChangedIn (32 + sizesAfter reqs id sizes id) buf m ∧
      BatchHeader type reqs.count (32 + sizesAfter reqs id sizes id) (m.take 28) ∧
      Laid Encodes reqs id sizes as (m.drop 28) ∧
      serializeLoop (.batch type id reqs rest) parent sizes buf =
        (serializeLoop rest parent (sizesInner reqs id parent sizes)
          (m.drop (32 + sizesAfter reqs id sizes id))).map
            fun x => (x.1, m.take (32 + sizesAfter reqs id sizes id) ++ x.2) := by
  have hcount := hreqs.count_le KvRequest.inputEnd_pos
  rw [List.length_drop] at hcount
  have hextent := add_extent_le reqs id sizes
  obtain ⟨m, hserialize, hbatch, hheader, hinner⟩ :=
    serializeHeader_laid type hhead (by omega) hloop hchange hlaid
  rw [sizeField_eq hsize] at hheader
  refine ⟨m, hbatch.mono (by omega), hheader, hinner, ?_⟩
  have hpos : 0 < ((32 + sizesAfter reqs id sizes id : Nat) : Int) := by omega
  simp only [serializeLoop, hserialize, Option.bind_eq_bind, Option.bind_some,
    batchSize_eq hsize, if_pos hpos, Int.toNat_natCast, Option.map_eq_bind]
  rfl

/-- The first walk lays the requests. -/
theorem serializeLoop_laid (hroom : Room KvRequest.inputEnd reqs parent sizes buf.length)
    (hlen : buf.length < 2 ^ 31) (hsizes : ∀ s ∈ stamps reqs parent sizes, s.2 < 2 ^ 31) :
    ∃ buf', serializeLoop reqs parent sizes buf = some (sizesAfter reqs parent sizes, buf') ∧
      ChangedIn (extent reqs parent sizes) buf buf' ∧
      ∃ as, Laid Encodes reqs parent sizes as buf' := by
  induction reqs generalizing parent sizes buf with
  | nil => exact ⟨buf, rfl, .refl _ _, [], .nil⟩
  | kv r rest ih =>
      obtain ⟨hleaf, hrest⟩ := hroom
      obtain ⟨b, hb, hencoded, hwalk⟩ := serializeLoop_kv rest hleaf
      rw [← List.length_drop] at hrest
      obtain ⟨tail, hloop, hchange, as, hlaid⟩ := ih hrest (by rw [List.length_drop]; omega) hsizes
      refine ⟨b ++ tail, ?_, .behind hb hchange, () :: as, .kv ?_ ?_⟩
      · rw [hwalk, hloop, Option.map_some, sizesAfter]
      · rw [take_front hb hchange.length]
        exact hencoded
      · rwa [drop_front hb hchange.length]
  | batch type id reqs rest ihReqs ihRest =>
      obtain ⟨hhead, hreqs, hrest⟩ := hroom
      simp only [stamps, List.forall_mem_append, List.forall_mem_cons] at hsizes
      obtain ⟨hsizesReqs, hown, hsizesRest⟩ := hsizes
      rw [← List.length_drop] at hreqs
      obtain ⟨inner, hloop, hchange, as, hlaid⟩ :=
        ihReqs hreqs (by rw [List.length_drop]; omega) hsizesReqs
      obtain ⟨m, hbatch, hheader, hinner, hwalk⟩ :=
        serializeLoop_batch type rest hhead hlen hreqs hown hloop hchange hlaid
      rw [← hbatch.length, ← List.length_drop] at hrest
      obtain ⟨tail, hloop', hchange', as', hlaid'⟩ :=
        ihRest hrest (by rw [List.length_drop, hbatch.length]; omega) hsizesRest
      refine ⟨m.take (32 + sizesAfter reqs id sizes id) ++ tail, ?_,
        (hbatch.mono (Nat.le_add_right _ _)).trans (.behind rfl hchange'), as ++ as',
        .batch_append hheader hinner hchange'.length hlaid'⟩
      rw [hwalk, hloop', Option.map_some, sizesAfter_batch]

/-- The first walk has no other room. -/
theorem room_of_serializeLoop {x : (Nat → Nat) × List UInt8}
    (h : serializeLoop reqs parent sizes buf = some x) (hlen : buf.length < 2 ^ 31)
    (hsizes : ∀ s ∈ stamps reqs parent sizes, s.2 < 2 ^ 31) :
    Room KvRequest.inputEnd reqs parent sizes buf.length := by
  induction reqs generalizing parent sizes buf x with
  | nil => trivial
  | kv r rest ih =>
      obtain ⟨buf₁, hserialize, -⟩ := Option.bind_eq_some_iff.mp h
      have hleaf := KvRequest.inputEnd_le_of_serializeTo hserialize
      obtain ⟨b, -, -, hwalk⟩ := serializeLoop_kv rest hleaf
      obtain ⟨y, hloop, -⟩ := Option.map_eq_some_iff.mp (hwalk.symm.trans h)
      have hrest := ih hloop (by rw [List.length_drop]; omega) hsizes
      rw [List.length_drop] at hrest
      exact ⟨hleaf, hrest⟩
  | batch type id reqs rest ihReqs ihRest =>
      simp only [stamps, List.forall_mem_append, List.forall_mem_cons] at hsizes
      obtain ⟨hsizesReqs, hown, hsizesRest⟩ := hsizes
      obtain ⟨x, hserialize, -⟩ := Option.bind_eq_some_iff.mp h
      obtain ⟨hhead, y, hloop⟩ := loop_of_serializeHeader hserialize
      have hlenInner : (buf.drop 28).length < 2 ^ 31 := by
        rw [List.length_drop]
        omega
      have hreqs := ihReqs hloop hlenInner hsizesReqs
      obtain ⟨inner, hloop, hchange, as, hlaid⟩ := serializeLoop_laid hreqs hlenInner hsizesReqs
      obtain ⟨m, hbatch, -, -, hwalk⟩ :=
        serializeLoop_batch type rest hhead hlen hreqs hown hloop hchange hlaid
      obtain ⟨z, hloop', -⟩ := Option.map_eq_some_iff.mp (hwalk.symm.trans h)
      have hrest := ihRest hloop' (by rw [List.length_drop, hbatch.length]; omega) hsizesRest
      rw [List.length_drop] at hreqs
      rw [List.length_drop, hbatch.length] at hrest
      exact ⟨hhead, hreqs, hrest⟩

end Serialize

/-! ## What the requests do -/

/-- The requests of a batch, handled in order. -/
def runAll (e : Env) (g : Gcm) : Requests → Tee → Option (List Reply × Tee)
  | .nil, tee => some ([], tee)
  | .kv r rest, tee => do
      let (reply, tee) ← handleOps e g tee r.request
      let (others, tee) ← runAll e g rest tee
      some (reply :: others, tee)
  | .batch _ _ reqs rest, tee => do
      let (res, tee) ← runAll e g reqs tee
      let (others, tee) ← runAll e g rest tee
      some (res ++ others, tee)

section Handle

variable {e : Env} {g : Gcm} {tee tee' : Tee} {type : BatchType} {reqs : Requests}
  {id parent depth size : Nat} {sizes : Nat → Nat} {as : List Unit} {buf m : List UInt8}
  {replies : List Reply}

/-- One turn of the worker's loop, if the size is not lost. -/
theorem handleBatch_succ {handle : Tee → List UInt8 → Option (Tee × List UInt8)} (n : Nat)
    (hsize : getLe 8 16 buf = some size) (hpos : 0 < size)
    (hhandle : handle tee buf = some (tee', m)) (hsize' : getLe 8 16 m = some size) :
    handleBatch handle (n + 1) tee buf =
      (handleBatch handle n tee' (m.drop size)).map fun x => (x.1, m.take size ++ x.2) := by
  simp only [handleBatch, hsize, hhandle, hsize', if_neg (Nat.ne_of_gt hpos), Option.bind_eq_bind,
    Option.bind_some, Option.map_eq_bind]
  rfl

theorem handle_of_handleBatch {handle : Tee → List UInt8 → Option (Tee × List UInt8)} {n : Nat}
    {x : Tee × List UInt8} (h : handleBatch handle (n + 1) tee buf = some x) :
    ∃ y, handle tee buf = some y := by
  obtain ⟨checked, -, h⟩ := Option.bind_eq_some_iff.mp h
  rw [Option.ite_none_left_eq_some] at h
  obtain ⟨y, hhandle, -⟩ := Option.bind_eq_some_iff.mp h.2
  exact ⟨y, hhandle⟩

/-- A batch is handled with its requests. -/
theorem handleRegion_laid {inner : List UInt8}
    (head : BatchHeader type reqs.count size (buf.take 28)) (hcount : reqs.count < 2 ^ 31)
    (hloop : handleBatch (handleRegion e g depth) reqs.count tee (buf.drop 28) =
      some (tee', inner))
    (hchange : ChangedIn (extent reqs id sizes) (buf.drop 28) inner)
    (hlaid : Laid KvRequest.Answered reqs id sizes replies inner) :
    ∃ m, handleRegion e g (depth + 1) tee buf = some (tee', m) ∧
      ChangedIn (28 + extent reqs id sizes) buf m ∧ getLe 4 8 m = some 0 ∧
      BatchHeader type reqs.count size (m.take 28) ∧
      Laid KvRequest.Answered reqs id sizes replies (m.drop 28) := by
  obtain ⟨b, hput, hlen, hheader, hresp⟩ := putLe_resp head inner
  refine ⟨b ++ inner, ?_, .behind hlen hchange, getLe_append_of_eq_some hresp inner, ?_, ?_⟩
  · simp only [handleRegion_batch head hcount, hloop, Option.bind_some, hput, Option.map_some]
  · rwa [take_front hlen hchange.length]
  · rwa [drop_front hlen hchange.length]

/-- The worker's walk over a request, and then over the others. -/
theorem handleBatch_kv {r : KvRequest} {reply : Reply} (leaf : r.Encoded (buf.take r.getSize))
    (hops : handleOps e g tee r.request = some (reply, tee')) (hroom : r.valueEnd ≤ buf.length)
    (n : Nat) :
    ∃ b, b.length = (buf.take r.getSize).length ∧ r.Answered reply b ∧
      handleBatch (handleRegion e g (depth + 1)) (n + 1) tee buf =
        (handleBatch (handleRegion e g (depth + 1)) n tee' (buf.drop r.getSize)).map
          fun x => (x.1, b ++ x.2) := by
  obtain ⟨b, hhandle, hb, hanswered⟩ := leaf.handle_front hops hroom depth
  refine ⟨b, hb, hanswered, ?_⟩
  have hsize := getLe_append_of_eq_some leaf.size (buf.drop r.getSize)
  rw [List.take_append_drop] at hsize
  have hsize' := getLe_append_of_eq_some hanswered.size (buf.drop r.getSize)
  rw [handleBatch_succ _ hsize r.getSize_pos hhandle hsize', drop_front hb rfl, take_front hb rfl]

/-- The worker's walk over a batch, and then over the others. -/
theorem handleBatch_batch {inner : List UInt8}
    (head : BatchHeader type reqs.count (32 + sizesAfter reqs id sizes id) (buf.take 28))
    (hcount : reqs.count < 2 ^ 31)
    (hloop : handleBatch (handleRegion e g depth) reqs.count tee (buf.drop 28) =
      some (tee', inner))
    (hchange : ChangedIn (extent reqs id sizes) (buf.drop 28) inner)
    (hlaid : Laid KvRequest.Answered reqs id sizes replies inner) (n : Nat) :
    ∃ m, ChangedIn (32 + sizesAfter reqs id sizes id) buf m ∧
      BatchHeader type reqs.count (32 + sizesAfter reqs id sizes id) (m.take 28) ∧
      Laid KvRequest.Answered reqs id sizes replies (m.drop 28) ∧
      handleBatch (handleRegion e g (depth + 1)) (n + 1) tee buf =
        (handleBatch (handleRegion e g (depth + 1)) n tee'
          (m.drop (32 + sizesAfter reqs id sizes id))).map
            fun x => (x.1, m.take (32 + sizesAfter reqs id sizes id) ++ x.2) := by
  have hextent := add_extent_le reqs id sizes
  obtain ⟨m, hhandle, hbatch, -, hheader, hinner⟩ :=
    handleRegion_laid head hcount hloop hchange hlaid
  refine ⟨m, hbatch.mono (by omega), hheader, hinner, ?_⟩
  have hsize := (head.append (buf.drop 28)).size
  have hsize' := (hheader.append (m.drop 28)).size
  rw [List.take_append_drop] at hsize hsize'
  exact handleBatch_succ n hsize (by omega) hhandle hsize'

/-- The worker turns the requests into their answers. -/
theorem handleBatch_laid (hlaid : Laid Encodes reqs parent sizes as buf)
    (hroom : Room KvRequest.valueEnd reqs parent sizes buf.length) (hlen : buf.length < 2 ^ 31)
    (hdepth : reqs.depth ≤ depth) (hrun : runAll e g reqs tee = some (replies, tee')) :
    ∃ buf', handleBatch (handleRegion e g depth) reqs.count tee buf = some (tee', buf') ∧
      ChangedIn (extent reqs parent sizes) buf buf' ∧
      Laid KvRequest.Answered reqs parent sizes replies buf' := by
  induction reqs generalizing parent depth sizes as buf tee tee' replies with
  | nil =>
      cases hrun
      exact ⟨buf, rfl, .refl _ _, .nil⟩
  | kv r rest ih =>
      obtain ⟨⟨reply, tee₁⟩, hops, hrun⟩ := Option.bind_eq_some_iff.mp hrun
      obtain ⟨⟨others, tee₂⟩, hrun, heq⟩ := Option.bind_eq_some_iff.mp hrun
      cases heq
      obtain ⟨hleaf, hrest⟩ := hroom
      rw [← List.length_drop] at hrest
      obtain ⟨hd, hdepthRest⟩ := max_le_iff.mp hdepth
      obtain ⟨d, rfl⟩ := Nat.exists_eq_add_one.mpr hd
      cases hlaid with
      | kv leaf tail =>
          obtain ⟨b, hb, hanswered, hwalk⟩ := handleBatch_kv leaf hops hleaf rest.count
          obtain ⟨buf', hloop, hchange, hlaid'⟩ :=
            ih tail hrest (by rw [List.length_drop]; omega) hdepthRest hrun
          refine ⟨b ++ buf', ?_, .behind hb hchange, .kv ?_ ?_⟩
          · rw [Requests.count, hwalk, hloop, Option.map_some]
          · rwa [take_front hb hchange.length]
          · rwa [drop_front hb hchange.length]
  | batch type id reqs rest ihReqs ihRest =>
      obtain ⟨⟨res, tee₁⟩, hrunReqs, hrun⟩ := Option.bind_eq_some_iff.mp hrun
      obtain ⟨⟨others, tee₂⟩, hrunRest, heq⟩ := Option.bind_eq_some_iff.mp hrun
      cases heq
      obtain ⟨hhead, hreqs, hrest⟩ := hroom
      have hcount := hreqs.count_le KvRequest.valueEnd_pos
      rw [← List.length_drop] at hreqs
      obtain ⟨hd, hdepthRest⟩ := max_le_iff.mp hdepth
      obtain ⟨d, rfl⟩ := Nat.exists_eq_add_one.mpr (Nat.zero_lt_of_lt hd)
      cases hlaid with
      | batch head inner tail =>
          obtain ⟨inner', hloop, hchange, hlaid'⟩ := ihReqs inner hreqs
            (by rw [List.length_drop]; omega) (Nat.le_of_succ_le_succ hd) hrunReqs
          obtain ⟨m, hbatch, hheader, hinner, hwalk⟩ :=
            handleBatch_batch head (by omega) hloop hchange hlaid' rest.count
          rw [← hbatch.drop] at tail
          rw [← hbatch.length, ← List.length_drop] at hrest
          obtain ⟨tail', hloop', hchange', hlaid''⟩ := ihRest tail hrest
            (by rw [List.length_drop, hbatch.length]; omega) hdepthRest hrunRest
          refine ⟨m.take (32 + sizesAfter reqs id sizes id) ++ tail', ?_,
            (hbatch.mono (Nat.le_add_right _ _)).trans (.behind rfl hchange'),
            .batch_append hheader hinner hchange'.length hlaid''⟩
          rw [Requests.count, hwalk, hloop', Option.map_some]

/-- The worker has no other room. -/
theorem room_of_handleBatch {x : Tee × List UInt8}
    (h : handleBatch (handleRegion e g depth) reqs.count tee buf = some x)
    (hlaid : Laid Encodes reqs parent sizes as buf)
    (hroom : Room KvRequest.inputEnd reqs parent sizes buf.length) (hlen : buf.length < 2 ^ 31)
    (hdepth : reqs.depth ≤ depth) (hrun : runAll e g reqs tee = some (replies, tee')) :
    Room KvRequest.valueEnd reqs parent sizes buf.length := by
  induction reqs generalizing parent depth sizes as buf tee tee' replies x with
  | nil => trivial
  | kv r rest ih =>
      obtain ⟨⟨reply, tee₁⟩, hops, hrun⟩ := Option.bind_eq_some_iff.mp hrun
      obtain ⟨⟨others, tee₂⟩, hrun, -⟩ := Option.bind_eq_some_iff.mp hrun
      obtain ⟨-, hrest⟩ := hroom
      rw [← List.length_drop] at hrest
      obtain ⟨hd, hdepthRest⟩ := max_le_iff.mp hdepth
      obtain ⟨d, rfl⟩ := Nat.exists_eq_add_one.mpr hd
      cases hlaid with
      | kv leaf tail =>
          obtain ⟨y, hhandle⟩ := handle_of_handleBatch h
          have hleaf := KvRequest.Encoded.valueEnd_le leaf hops hhandle
          obtain ⟨b, -, -, hwalk⟩ := handleBatch_kv leaf hops hleaf rest.count
          obtain ⟨z, hloop, -⟩ := Option.map_eq_some_iff.mp (hwalk.symm.trans h)
          have hvalues :=
            ih hloop tail hrest (by rw [List.length_drop]; omega) hdepthRest hrun
          rw [List.length_drop] at hvalues
          exact ⟨hleaf, hvalues⟩
  | batch type id reqs rest ihReqs ihRest =>
      obtain ⟨⟨res, tee₁⟩, hrunReqs, hrun⟩ := Option.bind_eq_some_iff.mp hrun
      obtain ⟨⟨others, tee₂⟩, hrunRest, -⟩ := Option.bind_eq_some_iff.mp hrun
      obtain ⟨hhead, hreqs, hrest⟩ := hroom
      have hcount := hreqs.count_le KvRequest.inputEnd_pos
      rw [← List.length_drop] at hreqs
      have hlenInner : (buf.drop 28).length < 2 ^ 31 := by
        rw [List.length_drop]
        omega
      obtain ⟨hd, hdepthRest⟩ := max_le_iff.mp hdepth
      obtain ⟨d, rfl⟩ := Nat.exists_eq_add_one.mpr (Nat.zero_lt_of_lt hd)
      cases hlaid with
      | batch head inner tail =>
          obtain ⟨y, hhandle⟩ := handle_of_handleBatch h
          rw [handleRegion_batch head (by omega)] at hhandle
          obtain ⟨z, hloop, -⟩ := Option.bind_eq_some_iff.mp hhandle
          have hvalues :=
            ihReqs hloop inner hreqs hlenInner (Nat.le_of_succ_le_succ hd) hrunReqs
          obtain ⟨inner', hloop, hchange, hlaid'⟩ :=
            handleBatch_laid inner hvalues hlenInner (Nat.le_of_succ_le_succ hd) hrunReqs
          obtain ⟨m, hbatch, -, -, hwalk⟩ :=
            handleBatch_batch head (by omega) hloop hchange hlaid' rest.count
          obtain ⟨z, hloop', -⟩ := Option.map_eq_some_iff.mp (hwalk.symm.trans h)
          rw [← hbatch.drop] at tail
          rw [← hbatch.length, ← List.length_drop] at hrest
          have hvalues' := ihRest hloop' tail hrest
            (by rw [List.length_drop, hbatch.length]; omega) hdepthRest hrunRest
          rw [List.length_drop] at hvalues
          rw [List.length_drop, hbatch.length] at hvalues'
          exact ⟨hhead, hvalues, hvalues'⟩

end Handle

/-! ## Reading the results -/

section Copy

variable {reqs : Requests} {parent : Nat} {sizes final : Nat → Nat} {replies res : List Reply}
  {buf : List UInt8}

/-- The last walk finds the results if every batch has the size it was written with. -/
theorem copyLoop_eq_some_iff (hlaid : Laid KvRequest.Answered reqs parent sizes replies buf)
    (hfinal : ∀ b ∈ reqs.batches, 32 + final b.1 < 2 ^ 31) :
    copyLoop final reqs buf = some res ↔
      (∀ s ∈ stamps reqs parent sizes, s.2 = 32 + final s.1) ∧ res = replies := by
  induction hlaid generalizing res with
  | nil =>
      simp only [copyLoop, Option.some.injEq, stamps, List.not_mem_nil, false_implies,
        implies_true, true_and]
      exact eq_comm
  | @kv r rest parent sizes reply replies buf leaf tail ih =>
      have hresult := leaf.copyResultFrom (buf.drop r.getSize)
      rw [List.take_append_drop] at hresult
      have hloop : copyLoop final (.kv r rest) buf =
          (copyLoop final rest (buf.drop r.getSize)).map (reply :: ·) := by
        simp only [copyLoop, hresult, Option.bind_eq_bind, Option.bind_some, Option.map_eq_bind]
        rfl
      rw [hloop, Option.map_eq_some_iff]
      constructor
      · rintro ⟨others, hothers, rfl⟩
        obtain ⟨hsizes, rfl⟩ := (ih hfinal).mp hothers
        exact ⟨hsizes, rfl⟩
      · rintro ⟨hsizes, rfl⟩
        exact ⟨replies, (ih hfinal).mpr ⟨hsizes, rfl⟩, rfl⟩
  | @batch type id reqs rest parent sizes replies replies' buf head inner tail ihInner ihTail =>
      simp only [Requests.batches, List.forall_mem_append, List.forall_mem_cons] at hfinal
      obtain ⟨hreqs, hown, hrest⟩ := hfinal
      have hpos : 0 < ((32 + final id : Nat) : Int) := by omega
      -- the walk goes on where this batch ends only if the size is the same
      have hloop : copyLoop final (.batch type id reqs rest) buf = some res ↔
          32 + sizesAfter reqs id sizes id = 32 + final id ∧
            ∃ first, copyLoop final reqs (buf.drop 28) = some first ∧
              ∃ others, copyLoop final rest (buf.drop (32 + sizesAfter reqs id sizes id)) =
                some others ∧ first ++ others = res := by
        simp only [copyLoop, copyHeader_eq head, sizeField_eq hown, batchSize_eq hown, if_pos hpos,
          Int.toNat_natCast, Option.bind_eq_bind, Option.bind_eq_some_iff,
          Option.ite_none_right_eq_some, Option.some.injEq]
        constructor
        · rintro ⟨first, ⟨hsize, hfirst⟩, others, hothers, rfl⟩
          exact ⟨hsize, first, hfirst, others, hsize ▸ hothers, rfl⟩
        · rintro ⟨hsize, first, hfirst, others, hothers, rfl⟩
          exact ⟨first, ⟨hsize, hfirst⟩, others, hsize ▸ hothers, rfl⟩
      rw [hloop]
      simp only [stamps, List.forall_mem_append, List.forall_mem_cons]
      constructor
      · rintro ⟨hsize, first, hfirst, others, hothers, rfl⟩
        obtain ⟨hsizesReqs, rfl⟩ := (ihInner hreqs).mp hfirst
        obtain ⟨hsizesRest, rfl⟩ := (ihTail hrest).mp hothers
        exact ⟨⟨hsizesReqs, hsize, hsizesRest⟩, rfl⟩
      · rintro ⟨⟨hsizesReqs, hsize, hsizesRest⟩, rfl⟩
        exact ⟨hsize, replies, (ihInner hreqs).mpr ⟨hsizesReqs, rfl⟩, replies',
          (ihTail hrest).mpr ⟨hsizesRest, rfl⟩, rfl⟩

end Copy

/-! ## A batch and its requests one by one -/

section Send

variable {e : Env} {g : Gcm} {tee tee' : Tee} {region region' : List UInt8} {depth : Nat}
  {b : KvBatch} {sizes : Nat → Nat} {replies : List Reply}

/-- Sent one by one, the requests are those the worker handles. -/
theorem sendSingly_eq (reqs : Requests) (hregion : region.length = reqRegionSize) :
    ∃ region', sendSingly e g reqs tee region =
        (runAll e g reqs tee).map (fun x => (x.1, x.2, region')) ∧
      region'.length = reqRegionSize := by
  induction reqs generalizing tee region with
  | nil => exact ⟨region, rfl, hregion⟩
  | kv r rest ih =>
      obtain ⟨region₁, hsend, hregion₁⟩ : ∃ region₁, sendKv e g tee region r = _ ∧ _ :=
        sendKv_eq r hregion
      cases hops : handleOps e g tee r.request with
      | none =>
          refine ⟨region, ?_, hregion⟩
          simp only [sendSingly, runAll, hsend, hops, Option.map_none, Option.bind_eq_bind,
            Option.bind_none]
      | some x =>
          obtain ⟨region₂, hrest, hregion₂⟩ :
            ∃ region₂, sendSingly e g rest x.2 region₁ = _ ∧ _ := ih hregion₁
          refine ⟨region₂, ?_, hregion₂⟩
          cases hrun : runAll e g rest x.2 <;>
            simp [sendSingly, runAll, hsend, hops, hrest, hrun]
  | batch type id reqs rest ihReqs ihRest =>
      obtain ⟨region₁, hreqs, hregion₁⟩ :
        ∃ region₁, sendSingly e g reqs tee region = _ ∧ _ := ihReqs hregion
      cases hrunReqs : runAll e g reqs tee with
      | none =>
          refine ⟨region, ?_, hregion⟩
          simp only [sendSingly, runAll, hreqs, hrunReqs, Option.map_none, Option.bind_eq_bind,
            Option.bind_none]
      | some x =>
          obtain ⟨region₂, hrest, hregion₂⟩ :
            ∃ region₂, sendSingly e g rest x.2 region₁ = _ ∧ _ := ihRest hregion₁
          refine ⟨region₂, ?_, hregion₂⟩
          cases hrun : runAll e g rest x.2 <;>
            simp [sendSingly, runAll, hreqs, hrunReqs, hrest, hrun]

theorem sendSingly_of_runAll {reqs : Requests} (hrun : runAll e g reqs tee = some (replies, tee'))
    (hregion : region.length = reqRegionSize) :
    ∃ region', sendSingly e g reqs tee region = some (replies, tee', region') := by
  obtain ⟨region', hsend, -⟩ : ∃ region', sendSingly e g reqs tee region = _ ∧ _ :=
    sendSingly_eq reqs hregion
  exact ⟨region', by rw [hsend, hrun, Option.map_some]⟩

/-- The client lays a batch that has the room. -/
theorem serializeHeader_batch (hregion : region.length = reqRegionSize)
    (hroom : Room KvRequest.inputEnd b.reqs b.id sizes (reqRegionSize - 28))
    (hsizes : b.SizesFit sizes) :
    ∃ m as, serializeHeader b.type b.reqs.count b.id (serializeLoop b.reqs b.id sizes) region =
        some (sizesAfter b.reqs b.id sizes, m) ∧
      m.length = reqRegionSize ∧
      BatchHeader b.type b.reqs.count (sizeField (sizesAfter b.reqs b.id sizes) b.id)
        (m.take 28) ∧
      Laid Encodes b.reqs b.id sizes as (m.drop 28) := by
  have hlen : reqRegionSize = 1048576 := rfl
  have hcount := hroom.count_le KvRequest.inputEnd_pos
  rw [← hregion, ← List.length_drop] at hroom
  obtain ⟨inner, hloop, hchange, as, hlaid⟩ :=
    serializeLoop_laid hroom (by rw [List.length_drop]; omega) hsizes
  obtain ⟨m, hserialize, hbatch, hheader, hinner⟩ :=
    serializeHeader_laid b.type (by omega) (by omega) hloop hchange hlaid
  exact ⟨m, as, hserialize, hbatch.length.trans hregion, hheader, hinner⟩

/-- A batch that fits is handled, and its results are read if no batch in it comes again. -/
theorem sendBatch_of_fits (hregion : region.length = reqRegionSize) (fits : b.Fits sizes)
    (hsizes : b.SizesFit sizes) (hdepth : b.reqs.depth < depth)
    (hrun : runAll e g b.reqs tee = some (replies, tee')) :
    (b.NoRepeat → ∃ region', sendBatch e g depth b sizes tee region =
      some (replies, tee', sizesAfter b.reqs b.id sizes, region')) ∧
    (¬ b.NoRepeat → sendBatch e g depth b sizes tee region = none) := by
  have hlen : reqRegionSize = 1048576 := rfl
  have hcount := fits.count_le KvRequest.valueEnd_pos
  obtain ⟨m, as, hserialize, hm, hheader, hlaid⟩ :=
    serializeHeader_batch hregion (fits.mono fun r => r.inputEnd_bounds.2) hsizes
  have hroom : Room KvRequest.valueEnd b.reqs b.id sizes (m.drop 28).length := by
    rw [List.length_drop, hm]
    exact fits
  obtain ⟨d, rfl⟩ := Nat.exists_eq_add_one.mpr (Nat.zero_lt_of_lt hdepth)
  obtain ⟨inner, hloop, hchange, hanswered⟩ := handleBatch_laid hlaid hroom
    (by rw [List.length_drop]; omega) (Nat.le_of_lt_succ hdepth) hrun
  obtain ⟨m', hhandle, -, hresp, hheader', hanswered'⟩ :=
    handleRegion_laid hheader (by omega) hloop hchange hanswered
  -- the outermost size is compared with itself, and the others stay below an overflow
  have hfinal : ∀ x ∈ b.reqs.batches, 32 + sizesAfter b.reqs b.id sizes x.1 < 2 ^ 31 :=
    fun x hx => sizesAfter_lt hsizes hx (b.id_ne hx)
  have hsend : sendBatch e g (d + 1) b sizes tee region =
      (copyLoop (sizesAfter b.reqs b.id sizes) b.reqs (m'.drop 28)).map
        (fun res => (res, tee', sizesAfter b.reqs b.id sizes, m')) := by
    simp only [sendBatch, hserialize, hhandle, copyHeader_eq hheader', hresp, Option.bind_eq_bind,
      Option.bind_some, if_true, Option.map_eq_bind]
    rfl
  rw [hsend]
  constructor
  · intro noRepeat
    have hcopy := (copyLoop_eq_some_iff hanswered' hfinal).mpr
      ⟨stamps_eq_iff.mpr ⟨noRepeat, fun x hx => b.id_ne hx⟩, rfl⟩
    exact ⟨m', by rw [hcopy, Option.map_some]⟩
  · intro repeated
    rw [Option.map_eq_none_iff, Option.eq_none_iff_forall_ne_some]
    intro res hcopy
    exact repeated (stamps_eq_iff.mp ((copyLoop_eq_some_iff hanswered' hfinal).mp hcopy).1).1

/-- A batch that is sent fits. -/
theorem fits_of_sendBatch (hregion : region.length = reqRegionSize) (hsizes : b.SizesFit sizes)
    (hdepth : b.reqs.depth < depth) (hrun : runAll e g b.reqs tee = some (replies, tee'))
    {x : List Reply × Tee × (Nat → Nat) × List UInt8}
    (h : sendBatch e g depth b sizes tee region = some x) : b.Fits sizes := by
  have hlen : reqRegionSize = 1048576 := rfl
  obtain ⟨⟨sizes₁, region₁⟩, hserialize, h⟩ := Option.bind_eq_some_iff.mp h
  obtain ⟨y, hhandle, -⟩ := Option.bind_eq_some_iff.mp h
  obtain ⟨-, z, hloop⟩ := loop_of_serializeHeader hserialize
  have hroom := room_of_serializeLoop hloop (by rw [List.length_drop]; omega) hsizes
  rw [List.length_drop, hregion] at hroom
  have hcount := hroom.count_le KvRequest.inputEnd_pos
  obtain ⟨m, as, hserialize₁, hm, hheader, hlaid⟩ := serializeHeader_batch hregion hroom hsizes
  cases hserialize.symm.trans hserialize₁
  obtain ⟨d, rfl⟩ := Nat.exists_eq_add_one.mpr (Nat.zero_lt_of_lt hdepth)
  rw [← hm, ← List.length_drop] at hroom
  rw [handleRegion_batch hheader (by omega)] at hhandle
  obtain ⟨w, hloop', -⟩ := Option.bind_eq_some_iff.mp hhandle
  have hvalues := room_of_handleBatch hloop' hlaid hroom (by rw [List.length_drop]; omega)
    (Nat.le_of_lt_succ hdepth) hrun
  rwa [List.length_drop, hm] at hvalues

/-- A batch is as good as its requests one by one if all of it stays in the region and no batch
with requests occurs twice in it. -/
theorem batch_as_singles_iff (hregion : region.length = reqRegionSize) (hsizes : b.SizesFit sizes)
    (hdepth : b.reqs.depth < depth)
    (singly : sendSingly e g b.reqs tee region = some (replies, tee', region')) :
    (∃ sizes' region'', sendBatch e g depth b sizes tee region =
      some (replies, tee', sizes', region'')) ↔ b.Fits sizes ∧ b.NoRepeat := by
  have hrun : runAll e g b.reqs tee = some (replies, tee') := by
    obtain ⟨region₁, hsend, -⟩ : ∃ region₁, sendSingly e g b.reqs tee region = _ ∧ _ :=
      sendSingly_eq b.reqs hregion
    obtain ⟨x, hrun, heq⟩ := Option.map_eq_some_iff.mp (hsend.symm.trans singly)
    cases heq
    exact hrun
  constructor
  · rintro ⟨sizes', region'', hsend⟩
    have fits := fits_of_sendBatch hregion hsizes hdepth hrun hsend
    refine ⟨fits, ?_⟩
    by_contra repeated
    cases hsend.symm.trans ((sendBatch_of_fits hregion fits hsizes hdepth hrun).2 repeated)
  · rintro ⟨fits, noRepeat⟩
    obtain ⟨region'', hsend⟩ :=
      (sendBatch_of_fits hregion fits hsizes hdepth hrun).1 noRepeat
    exact ⟨_, region'', hsend⟩

/-- A put and, in a batch of its own, a get of what was put. -/
def putThenGet : KvBatch where
  type := .put
  id := 0
  reqs := .kv (.put (.num .int 5)) (.batch .get 1 (.kv (.get .int 0) .nil) .nil)
  consistent := by simp [Requests.batches]

/-- Sent for the first time, a batch with a batch in it has the replies of its requests. -/
theorem batch_as_singles_nested :
    ∃ replies tee' region', sendSingly .trivial .plain putThenGet.reqs ⟨.zero, ⟨.empty, .fresh⟩⟩
        (List.replicate reqRegionSize 255) = some (replies, tee', region') ∧
      ∃ sizes' region'', sendBatch .trivial .plain 3 putThenGet (fun _ => 0)
        ⟨.zero, ⟨.empty, .fresh⟩⟩ (List.replicate reqRegionSize 255) =
        some (replies, tee', sizes', region'') := by
  have new : putThenGet.reqs.New putThenGet.id (fun _ => 0) :=
    ⟨by decide, by decide, fun _ _ => rfl⟩
  obtain ⟨hsizes, fits, noRepeat⟩ := KvBatch.of_new new (by decide)
  obtain ⟨⟨replies, tee'⟩, hrun⟩ := Option.isSome_iff_exists.mp
    (show (runAll .trivial .plain putThenGet.reqs ⟨.zero, ⟨.empty, .fresh⟩⟩).isSome by
      decide +kernel)
  have hregion : (List.replicate reqRegionSize (255 : UInt8)).length = reqRegionSize :=
    List.length_replicate
  obtain ⟨region', singly⟩ := sendSingly_of_runAll hrun hregion
  exact ⟨replies, tee', region', singly,
    (batch_as_singles_iff hregion hsizes (by decide) singly).mpr ⟨fits, noRepeat⟩⟩

/-- A batch with one put. -/
def onePut : Requests := .kv (.put (.num .int 5)) .nil

/-- One batch object, twice. -/
def putTwice : KvBatch where
  type := .put
  id := 0
  reqs := .batch .put 1 onePut (.batch .put 1 onePut .nil)
  consistent := by simp [Requests.batches, onePut]

/-- The second time the batch is serialized its size grows, and the results of the first are not
read. -/
theorem batch_twice_lost :
    (∃ replies tee' region', sendSingly .trivial .plain putTwice.reqs ⟨.zero, ⟨.empty, .fresh⟩⟩
        (List.replicate reqRegionSize 0) = some (replies, tee', region')) ∧
      sendBatch .trivial .plain 3 putTwice (fun _ => 0) ⟨.zero, ⟨.empty, .fresh⟩⟩
        (List.replicate reqRegionSize 0) = none := by
  obtain ⟨⟨replies, tee'⟩, hrun⟩ := Option.isSome_iff_exists.mp
    (show (runAll .trivial .plain putTwice.reqs ⟨.zero, ⟨.empty, .fresh⟩⟩).isSome by
      decide +kernel)
  have hregion : (List.replicate reqRegionSize (0 : UInt8)).length = reqRegionSize :=
    List.length_replicate
  have fits : putTwice.Fits (fun _ => 0) :=
    ⟨by decide, ⟨by decide, trivial⟩, by decide, ⟨by decide, trivial⟩, trivial⟩
  have hsizes : putTwice.SizesFit (fun _ => 0) := by
    unfold KvBatch.SizesFit
    decide
  have repeated : ¬ putTwice.NoRepeat := by
    intro h
    cases (List.pairwise_cons.mp h).1 (1, onePut) List.mem_cons_self rfl
  obtain ⟨region', singly⟩ := sendSingly_of_runAll hrun hregion
  exact ⟨⟨replies, tee', region', singly⟩,
    (sendBatch_of_fits hregion fits hsizes (by decide) hrun).2 repeated⟩

end Send

end Zeno
