import Mathlib.Algebra.BigOperators.Group.List.Basic
import Mathlib.Data.BitVec
import Zeno.Lib.Refine
import Zeno.Tee.Ops

/-!
# Summing an array of integers

`sum(kv_int4)` collects the RIDs of its inputs in an array, and its final
function `kv_int4_sum_bulk` (`int.cpp`) sends them to the TEE in chunks of
`BULK_SIZE`.  The RID of a partial sum is the first key of the next chunk.

Each request frees the local RIDs it was sent.  So a local RID that occurs in
two chunks is dead when the second is summed: its slot then reads as an empty
one, or as a partial sum that was put there since.  If no local RID occurs in two
chunks, the result denotes the sum of the values (`sum_bulk_denotes_sum`).
-/

namespace Zeno

/-- `BULK_SIZE`. -/
def bulkSize : Nat := 256

/-- Send a request and take the RID from its reply. -/
def askRid (e : Env) (g : Gcm) (tee : Tee) (req : Request) : Option (RID × Tee) :=
  match handleOps e g tee req with
  | some (.rid rid, tee) => some (rid, tee)
  | _ => none

theorem askRid_eq_some {e : Env} {g : Gcm} {tee tee' : Tee} {req : Request} {rid : RID} :
    askRid e g tee req = some (rid, tee') ↔ handleOps e g tee req = some (.rid rid, tee') := by
  unfold askRid
  split
  next heq => simp [heq]
  next hne => exact ⟨nofun, fun h => absurd h (hne _ _)⟩

namespace Extension

section Definitions

variable (e : Env) (g : Gcm)

/-- `kv_int_sum_bulk` of the extension. -/
def kvIntSumBulk (tee : Tee) (keys : List RID) : Option (RID × Tee) :=
  askRid e g tee (.intSumBulk keys)

/-- The datum `array_iterate` gives for an element: zero for a NULL. -/
def datum (elem : Option RID) : RID := elem.getD 0

/-- The loop of `kv_int4_sum_bulk` and `kv_float4_sum_bulk`, with the function that sends a
chunk, `bulk_array` filled so far and the elements left. -/
def sumLoop (send : Tee → List RID → Option (RID × Tee)) :
    Tee → List RID → List (Option RID) → Option (RID × Tee)
  | tee, bulk, [] => send tee bulk
  | tee, bulk, v :: vs =>
      if bulk.length = bulkSize then do
        let (tmp, tee) ← send tee bulk
        sumLoop send tee [tmp, datum v] vs
      else sumLoop send tee (bulk ++ [datum v]) vs

/-- The first element is read without a test, so that an empty array is undefined. -/
def sumBulk (send : Tee → List RID → Option (RID × Tee)) (tee : Tee) :
    List (Option RID) → Option (RID × Tee)
  | [] => none
  | v :: vs => sumLoop send tee [datum v] vs

/-- `kv_int4_sum_bulk`. -/
def kvInt4SumBulk := sumBulk (kvIntSumBulk e g)

end Definitions

/-- The chunks that are sent, without the partial sums: `n` keys are in the current one,
among them the elements `b`. -/
def sumChunksFrom : Nat → List RID → List RID → List (List RID)
  | _, b, [] => [b]
  | n, b, v :: vs =>
      if n = bulkSize then b :: sumChunksFrom 2 [v] vs else sumChunksFrom (n + 1) (b ++ [v]) vs

/-- The elements of an array, chunk by chunk. -/
def sumChunks : List RID → List (List RID)
  | [] => []
  | v :: vs => sumChunksFrom 1 [v] vs

/-- No local RID occurs in two chunks. -/
def OneChunkEach (chunks : List (List RID)) : Prop :=
  chunks.Pairwise fun c d => ∀ k ∈ c, islocal k = true → k ∉ d

theorem flatten_sumChunksFrom (n : Nat) (b vs : List RID) :
    (sumChunksFrom n b vs).flatten = b ++ vs := by
  induction vs generalizing n b with
  | nil => simp [sumChunksFrom]
  | cons v vs ih =>
      unfold sumChunksFrom
      split
      next => rw [List.flatten_cons, ih, List.singleton_append]
      next => rw [ih, List.append_assoc, List.singleton_append]

/-- RIDs among which each local one occurs once make such chunks. -/
theorem oneChunkEach_sumChunks {keys : List RID}
    (h : keys.Pairwise fun k k' => islocal k = true → k ≠ k') : OneChunkEach (sumChunks keys) := by
  have hflat : (sumChunks keys).flatten = keys := by
    cases keys with
    | nil => rfl
    | cons v vs => exact flatten_sumChunksFrom 1 [v] vs
  rw [← hflat] at h
  refine (List.pairwise_flatten.mp h).2.imp fun hcd k hk hl hkd => ?_
  exact hcd k hk k hkd hl rfl

variable {e : Env} {g : Gcm} {tee tee' : Tee}

theorem foldlM_get {st : Stores} {keys : List RID} {xs : List Num.int.Val} (z : Num.int.Val)
    (h : List.Forall₂ (st.Reads .int) keys xs) :
    keys.foldlM (fun sum key => (st.get .int key).map (BitVec.add sum)) z = some (z + xs.sum) := by
  induction h generalizing z with
  | nil => simp
  | @cons key x keys xs hkey _ ih =>
      simp only [List.foldlM_cons, hkey.get, Option.map_some, Option.bind_eq_bind,
        Option.bind_some, ih, List.sum_cons]
      exact congrArg some (add_assoc z x xs.sum)

/-- What a request `CMD_INT_SUM_BULK` does: a new RID denotes the sum, the local keys are
dead, and nothing else changed. -/
theorem kvIntSumBulk_spec {keys : List RID} {xs : List Num.int.Val}
    (h : List.Forall₂ (tee.stores.Reads .int) keys xs)
    (room : tee.stores.slots .int < maxLocalSlots) :
    ∃ rid tee', kvIntSumBulk e g tee keys = some (rid, tee') ∧
      (∀ v, ¬ tee.stores.Reads .int rid v) ∧ tee'.stores.Denotes .int rid xs.sum ∧
        (∀ k v, tee.stores.Reads .int k v → (islocal k = true → k ∉ keys) →
          tee'.stores.Reads .int k v) ∧
          tee'.stores.slots .int ≤ tee.stores.slots .int + 1 := by
  have hval : (Request.intSumBulk keys).eval e g tee.stores = some ⟨.int, xs.sum⟩ := by
    simp only [Request.eval, foldlM_get 0 h, Option.map_some, zero_add]
  obtain ⟨rid, st, hput⟩ := tee.stores.put_local_room .int invalidRid xs.sum
    Partition.default.val room
  have hops : handleOps e g tee (.intSumBulk keys) =
      some (.rid rid, { tee with stores := st.freeAll (keys.map (Ty.int, ·)) }) := by
    rw [handleOps_result e g tee rfl, hval, Option.bind_some, Stores.putLocal, hput,
      Option.map_some]
    rfl
  obtain ⟨rid', heq, hl, hfresh, hdenotes⟩ := handleOps_returns hops hval fun x hx hl => by
    obtain ⟨k, hk, rfl⟩ := List.mem_map.mp hx
    obtain ⟨v, -, hv⟩ := Refine.exists_of_forall₂ h hk
    exact ⟨v, hv.denotes hl⟩
  cases heq
  refine ⟨rid, _, askRid_eq_some.mpr hops, fun v hv => hfresh v (hv.denotes hl), hdenotes, ?_, ?_⟩
  · intro k v hk hnot
    refine hk.keep ?_ fun hl held => ?_
    · rw [Stores.freeAll_kv, Stores.put_local_kv hput]
    · refine (held.put_local hput).freeAll fun x hx _ heq => ?_
      obtain ⟨k', hk', rfl⟩ := List.mem_map.mp hx
      cases heq
      exact hnot hl hk'
  · rw [Stores.freeAll_slots]
    exact (Stores.put_local_slots hput .int).2

/-- What `CMD_INT_SUM_BULK` does. -/
theorem kvIntSumBulk_eq_some {keys : List RID} {rid : RID} :
    kvIntSumBulk e g tee keys = some (rid, tee') ↔
      ∃ sum st, keys.foldlM (fun sum key => (tee.stores.get .int key).map (BitVec.add sum)) 0 =
          some sum ∧
        tee.stores.putLocal .int sum = some (rid, st) ∧
        tee' = { tee with stores := st.freeAll (keys.map (Ty.int, ·)) } := by
  have hres : (Request.intSumBulk keys).result? = some .int := rfl
  simp only [kvIntSumBulk, askRid_eq_some, handleOps_result e g tee hres, Request.eval,
    Request.frees, Option.bind_eq_some_iff, Option.map_eq_some_iff]
  constructor
  · rintro ⟨val, ⟨sum, hsum, rfl⟩, ⟨rid', st⟩, hput, heq⟩
    cases heq
    exact ⟨sum, st, hsum, hput, rfl⟩
  · rintro ⟨sum, st, hsum, hput, rfl⟩
    exact ⟨⟨.int, sum⟩, ⟨sum, hsum, rfl⟩, (rid, st), hput, rfl⟩

/-- When a chunk is full, none of its local keys is among the elements left. -/
theorem OneChunkEach.full {bulk b vs : List RID} {v : RID}
    (once : OneChunkEach (sumChunksFrom bulk.length b (v :: vs))) (full : bulk.length = bulkSize)
    (partialSum : ∀ k ∈ bulk, k ∉ b → k ∉ v :: vs) :
    (∀ k ∈ v :: vs, islocal k = true → k ∉ bulk) ∧ OneChunkEach (sumChunksFrom 2 [v] vs) := by
  rw [sumChunksFrom, if_pos full] at once
  obtain ⟨hfirst, hrest⟩ := List.pairwise_cons.mp once
  refine ⟨fun k hk hl hkb => ?_, hrest⟩
  by_cases hkb' : k ∈ b
  · have hmem : k ∈ (sumChunksFrom 2 [v] vs).flatten := by
      rw [flatten_sumChunksFrom]
      exact hk
    obtain ⟨d, hd, hkd⟩ := List.mem_flatten.mp hmem
    exact hfirst d hd k hkb' hl hkd
  · exact partialSum k hkb hkb' hk

/-- The loop, from a chunk whose keys denote `xs`.  The keys of the chunk that are not
elements of the array, that is the partial sum, do not occur among the elements left. -/
theorem sumLoop_denotes {bulk b vs : List RID} {xs : List Num.int.Val}
    {val : RID → Num.int.Val} (hbulk : List.Forall₂ (tee.stores.Reads .int) bulk xs)
    (hvs : ∀ k ∈ vs, tee.stores.Reads .int k (val k))
    (once : OneChunkEach (sumChunksFrom bulk.length b vs))
    (partialSum : ∀ k ∈ bulk, k ∉ b → k ∉ vs)
    (room : tee.stores.slots .int + vs.length < maxLocalSlots) :
    ∃ rid tee', sumLoop (kvIntSumBulk e g) tee bulk (vs.map some) = some (rid, tee') ∧
      tee'.stores.Denotes .int rid (xs.sum + (vs.map val).sum) := by
  induction vs generalizing tee bulk b xs with
  | nil =>
      obtain ⟨rid, tee', hsum, -, hdenotes, -⟩ := kvIntSumBulk_spec hbulk room
      refine ⟨rid, tee', hsum, ?_⟩
      rw [List.map_nil, List.sum_nil, add_zero]
      exact hdenotes
  | cons v vs ih =>
      have hv := hvs v List.mem_cons_self
      have hlen : (v :: vs).length = vs.length + 1 := List.length_cons
      simp only [List.map_cons, sumLoop, datum, Option.getD_some]
      split
      next full =>
        -- the chunk is sent, and its local keys die
        obtain ⟨hdead, hrest⟩ := OneChunkEach.full once full partialSum
        obtain ⟨tmp, tee₁, hsum, hfresh, hdenotes, hkeep, hslots⟩ :=
          kvIntSumBulk_spec (e := e) (g := g) hbulk (by omega)
        have hvs₁ (k : RID) (hk : k ∈ v :: vs) : tee₁.stores.Reads .int k (val k) :=
          hkeep k (val k) (hvs k hk) (hdead k hk)
        have htmp : tmp ∉ vs := fun hmem => hfresh _ (hvs tmp (List.mem_cons_of_mem _ hmem))
        obtain ⟨rid, tee', hloop, hresult⟩ := ih (b := [v])
          (.cons hdenotes.reads (.cons (hvs₁ v List.mem_cons_self) .nil))
          (fun k hk => hvs₁ k (List.mem_cons_of_mem _ hk)) hrest
          (fun k hk hkv hkvs => by
            rcases List.mem_cons.mp hk with rfl | hk
            · exact htmp hkvs
            · exact hkv hk)
          (by omega)
        refine ⟨rid, tee', by rw [hsum]; exact hloop, ?_⟩
        rw [List.sum_cons, List.sum_singleton] at hresult
        rw [List.sum_cons, ← add_assoc]
        exact hresult
      next notFull =>
        rw [sumChunksFrom, if_neg notFull] at once
        have happend : List.Forall₂ (tee.stores.Reads .int) (bulk ++ [v]) (xs ++ [val v]) :=
          List.rel_append hbulk (.cons hv .nil)
        obtain ⟨rid, tee', hloop, hresult⟩ := ih (b := b ++ [v]) happend
          (fun k hk => hvs k (List.mem_cons_of_mem _ hk))
          (by rw [List.length_append, List.length_singleton]; exact once)
          (fun k hk hkb hkvs => by
            rw [List.mem_append, not_or] at hkb
            rcases List.mem_append.mp hk with hk | hk
            · exact partialSum k hk hkb.1 (List.mem_cons_of_mem _ hkvs)
            · exact hkb.2 hk)
          (by omega)
        refine ⟨rid, tee', hloop, ?_⟩
        rw [List.sum_append, List.sum_singleton] at hresult
        rw [List.sum_cons, ← add_assoc]
        exact hresult

/-- `kv_int4_sum_bulk` on an array in which no local RID occurs in two chunks. -/
theorem kvInt4SumBulk_spec {keys : List RID} {val : RID → Num.int.Val} (hne : keys ≠ [])
    (live : ∀ k ∈ keys, tee.stores.Reads .int k (val k))
    (room : tee.stores.slots .int + keys.length ≤ maxLocalSlots)
    (once : OneChunkEach (sumChunks keys)) :
    ∃ rid tee', kvInt4SumBulk e g tee (keys.map some) = some (rid, tee') ∧
      tee'.stores.Denotes .int rid (keys.map val).sum := by
  cases keys with
  | nil => exact absurd rfl hne
  | cons v vs =>
      rw [List.length_cons] at room
      obtain ⟨rid, tee', hloop, hresult⟩ := sumLoop_denotes (e := e) (g := g)
        (.cons (live v List.mem_cons_self) .nil) (fun k hk => live k (List.mem_cons_of_mem _ hk))
        (b := [v]) once (fun k hk hkb => absurd hk hkb) (by omega)
      refine ⟨rid, tee', hloop, ?_⟩
      rw [List.sum_singleton] at hresult
      exact hresult

/-- The RID `kv_int4_sum_bulk` returns denotes the sum modulo `2 ^ 32` of the values of its
elements, if no local RID occurs in two chunks and the worker has memory for the partial
sums. -/
theorem sum_bulk_denotes_sum {s : Server} {w : Nat} {keys : List RID}
    (val : RID → Num.int.Val) (hne : keys ≠ [])
    (live : ∀ k ∈ keys, (s.tee w).stores.Denotes .int k (val k))
    (room : (s.tee w).stores.slots .int + keys.length ≤ maxLocalSlots)
    (once : OneChunkEach (sumChunks keys)) :
    ∃ rid s', s.on w (kvInt4SumBulk e g · (keys.map some)) = some (rid, s') ∧
      (s'.tee w).stores.Denotes .int rid (keys.map val).sum := by
  obtain ⟨rid, tee', hsum, hdenotes⟩ := kvInt4SumBulk_spec (e := e) (g := g) hne
    (fun k hk => (live k hk).reads) room once
  refine ⟨rid, s.setTee w tee', ?_, ?_⟩
  · simp only [Server.on, hsum, Option.map_some]
  · rw [Server.setTee_tee_self]
    exact hdenotes

/-- A server on which one client has put the integer 1. -/
def oneServer : Option (RID × Server) :=
  Server.new.on 0 fun tee =>
    (tee.stores.putLocal .int 1).map fun (rid, st) => (rid, { tee with stores := st })

theorem sum_bulk_denotes_sum_twice :
    ∃ rid s rid' s', oneServer = some (rid, s) ∧
      s.on 0 (kvInt4SumBulk .trivial .plain · [some rid, some rid]) = some (rid', s') ∧
        (s'.tee 0).stores.Denotes .int rid' 2 := by
  obtain ⟨rid, st, hput⟩ := Stores.put_local_room ⟨.empty, .fresh⟩ .int invalidRid 1
    Partition.default.val (Nat.two_pow_pos 47)
  let s := Server.new.setTee 0 ⟨.zero, st⟩
  have htee : s.tee 0 = ⟨.zero, st⟩ := Server.setTee_tee_self ..
  have hone : oneServer = some (rid, s) := by
    have hput' : (Server.new.tee 0).stores.putLocal .int 1 = some (rid, st) := hput
    simp only [oneServer, Server.on, hput', Option.map_some]
    rfl
  have hslots : st.slots .int ≤ 0 + 1 := (Stores.put_local_slots hput .int).2
  obtain ⟨rid', s', hsum, hdenotes⟩ := sum_bulk_denotes_sum (e := .trivial) (g := .plain)
    (s := s) (w := 0) (fun _ => 1) (List.cons_ne_nil rid [rid])
    (fun k hk => by
      obtain rfl : k = rid := by simpa using hk
      rw [htee]
      exact (Stores.put_local_denotes hput).2.2)
    (by
      have hmax : 3 ≤ maxLocalSlots := by decide
      rw [htee, List.length_cons, List.length_singleton]
      show st.slots .int + 2 ≤ _
      omega)
    (List.pairwise_singleton _ _)
  exact ⟨rid, s, rid', s', hone, hsum, hdenotes⟩

/-- One local RID 257 times, as for a literal of a query over 257 rows.  The first chunk frees
it, the second reads it as zero and puts its own result in the freed slot, and then frees
that too. -/
theorem sum_bulk_repeated_literal :
    ∃ rid s rid' s', oneServer = some (rid, s) ∧
      s.on 0 (kvInt4SumBulk .trivial .plain · (List.replicate 257 (some rid))) =
          some (rid', s') ∧
        (s.tee 0).stores.get .int rid = some 1 ∧ (s'.tee 0).stores.get .int rid' = some 0 := by
  have hrun : (oneServer.bind fun (rid, s) =>
      (s.on 0 (kvInt4SumBulk .trivial .plain · (List.replicate 257 (some rid)))).map
        fun (rid', s') => ((s.tee 0).stores.get .int rid, (s'.tee 0).stores.get .int rid')) =
      some (some 1, some 0) := by
    decide +kernel
  obtain ⟨⟨rid, s⟩, hone, hrest⟩ := Option.bind_eq_some_iff.mp hrun
  obtain ⟨⟨rid', s'⟩, hsum, heq⟩ := Option.map_eq_some_iff.mp hrest
  obtain ⟨hget, hget'⟩ := Prod.mk.inj heq
  exact ⟨rid, s, rid', s', hone, hsum, hget, hget'⟩

end Extension

end Zeno
