import Mathlib.Algebra.Order.BigOperators.Group.List
import Mathlib.Data.List.ReduceOption
import Zeno.Sql.Sum

/-!
# The other aggregates of integers

`avg`, `max` and `min` of `kv_int4` (`int.cpp`).  Like the sum they read the array
of the inputs with `array_iterate` and look at the datum only, not at the flag
that marks a NULL.  A NULL is datum zero, and zero is the RID of the first field of
the default partition.  So a NULL enters the sum, the maximum and the minimum as
that field, and the divisor of the average counts it (`aggregates_right_iff`).

The average divides a sum kept in 32 bits.  It is the exact one if and only if the
sum of the values is an `int` (`avg_exact_iff`).
-/

namespace Zeno

/-- Send a comparison and take its outcome from the reply. -/
def askCmp (e : Env) (g : Gcm) (tee : Tee) (req : Request) : Option (Int × Tee) :=
  match handleOps e g tee req with
  | some (.cmp c, tee) => some (c, tee)
  | _ => none

theorem askCmp_eq_some {e : Env} {g : Gcm} {tee tee' : Tee} {req : Request} {c : Int} :
    askCmp e g tee req = some (c, tee') ↔ handleOps e g tee req = some (.cmp c, tee') := by
  unfold askCmp
  split
  next heq => simp [heq]
  next hne => exact ⟨nofun, fun h => absurd h (hne _ _)⟩

namespace Extension

section Definitions

variable (e : Env) (g : Gcm)

/-- `kv_int_put`. -/
def kvIntPut (tee : Tee) (value : Num.int.Val) : Option (RID × Tee) :=
  askRid e g tee (.put ⟨.int, value⟩)

/-- `kv_int_div` of the extension. -/
def kvIntDiv (tee : Tee) (left right : RID) : Option (RID × Tee) :=
  askRid e g tee (.calculate .intDiv left right)

/-- `kv_int4_avg_bulk` up to its last request: the sum, and the divisor.  `ArrayGetNItems`
counts the elements, NULLs among them. -/
def avgOperands (tee : Tee) (vs : List (Option RID)) : Option ((RID × RID) × Tee) := do
  let (sum, tee) ← kvInt4SumBulk e g tee vs
  let (div, tee) ← kvIntPut e g tee (BitVec.ofNat 32 vs.length)
  some ((sum, div), tee)

/-- `kv_int4_avg_bulk`. -/
def kvInt4AvgBulk (tee : Tee) (vs : List (Option RID)) : Option (RID × Tee) := do
  let ((sum, div), tee) ← avgOperands e g tee vs
  kvIntDiv e g tee sum div

/-- The loop of the maximum and the minimum: the best element so far gives way to one that
compares as `better`. -/
def extremumLoop (op : CmpOp) (better : Int) : Tee → RID → List (Option RID) → Option (RID × Tee)
  | tee, best, [] => some (best, tee)
  | tee, best, v :: vs => do
      let (cmp, tee) ← askCmp e g tee (.cmp op best (datum v))
      extremumLoop op better tee (if better = cmp then datum v else best) vs

/-- The maximum and the minimum start with the first element. -/
def extremumBulk (op : CmpOp) (better : Int) (tee : Tee) : List (Option RID) → Option (RID × Tee)
  | [] => none
  | v :: vs => extremumLoop e g op better tee (datum v) vs

/-- `kv_int4_max_bulk`. -/
def kvInt4MaxBulk := extremumBulk e g .intCmp (-1)

/-- `kv_int4_min_bulk`. -/
def kvInt4MinBulk := extremumBulk e g .intCmp 1

end Definitions

variable {e : Env} {g : Gcm} {tee tee' : Tee}

/-! ## What the requests of an average do -/

theorem sumLoop_frame {bulk : List RID} {vs : List (Option RID)} {rid : RID}
    (h : sumLoop (kvIntSumBulk e g) tee bulk vs = some (rid, tee')) :
    tee'.stores.kv = tee.stores.kv ∧
      tee'.stores.slots .int ≤ tee.stores.slots .int + (vs.length + 1) := by
  induction vs generalizing tee bulk with
  | nil =>
      have hops := askRid_eq_some.mp h
      exact ⟨handleOps_kv hops rfl, handleOps_slots hops .int⟩
  | cons v vs ih =>
      rw [List.length_cons]
      unfold sumLoop at h
      split at h
      next =>
        obtain ⟨⟨tmp, tee₁⟩, hsum, hrest⟩ := Option.bind_eq_some_iff.mp h
        have hops := askRid_eq_some.mp hsum
        have hkv := handleOps_kv hops rfl
        have hslots := handleOps_slots hops .int
        obtain ⟨hkv', hslots'⟩ := ih hrest
        exact ⟨hkv'.trans hkv, by omega⟩
      next =>
        obtain ⟨hkv, hslots⟩ := ih h
        exact ⟨hkv, by omega⟩

theorem kvInt4SumBulk_frame {vs : List (Option RID)} {rid : RID}
    (h : kvInt4SumBulk e g tee vs = some (rid, tee')) :
    tee'.stores.kv = tee.stores.kv ∧
      tee'.stores.slots .int ≤ tee.stores.slots .int + vs.length := by
  cases vs with
  | nil => cases h
  | cons v vs => exact sumLoop_frame h

/-- A new field of the default partition denotes the value, and everything else is as it
was. -/
theorem kvIntPut_frame {value : Num.int.Val} {rid : RID}
    (h : kvIntPut e g tee value = some (rid, tee')) :
    tee'.stores.Denotes .int rid value ∧ tee'.stores.slots .int = tee.stores.slots .int ∧
      ∀ k v, tee.stores.Denotes .int k v → tee'.stores.Denotes .int k v := by
  have hops := askRid_eq_some.mp h
  obtain ⟨⟨rid', st⟩, hput, heq⟩ := Option.map_eq_some_iff.mp hops
  cases heq
  obtain ⟨-, -, hdenotes⟩ := Stores.put_global_denotes hput
  have hslots : st.slots .int = tee.stores.slots .int := by
    unfold Stores.slots
    rw [Stores.put_global_loc hput]
  exact ⟨hdenotes, hslots, fun k v hk => hk.put_global hput⟩

theorem kvIntPut_room (value : Num.int.Val)
    (room : tee.stores.kv.curRid .int Partition.default.val < KvMap.maxKey .int) :
    ∃ rid tee', kvIntPut e g tee value = some (rid, tee') := by
  have hput : ∃ kv, tee.stores.kv.put .int value Partition.default.val =
      some (Partition.default.rid (tee.stores.kv.curRid .int Partition.default.val), kv) :=
    ⟨_, KvMap.put_num_eq_some.mpr ⟨room, rfl, rfl⟩⟩
  obtain ⟨kv, hkv⟩ := hput
  have hstores : tee.stores.put .int invalidRid value false Partition.default.val = some _ :=
    Stores.put_global_eq_some.mpr ⟨kv, hkv, rfl⟩
  have hops : handleOps e g tee (.put ⟨.int, value⟩) = some (.rid _, { tee with stores := _ }) :=
    congrArg tee.answer hstores
  exact ⟨_, _, askRid_eq_some.mpr hops⟩

/-- The division of two integers on which it does not trap. -/
theorem kvIntDiv_spec {left right : RID} {l r : Num.int.Val}
    (hl : tee.stores.Denotes .int left l) (hr : tee.stores.Denotes .int right r)
    (htrap : divTraps l r = false) (room : tee.stores.slots .int < maxLocalSlots) :
    ∃ rid tee', kvIntDiv e g tee left right = some (rid, tee') ∧
      tee'.stores.Denotes .int rid (l.sdiv r) := by
  obtain ⟨rid, st, hput⟩ := tee.stores.put_local_room .int invalidRid (l.sdiv r)
    Partition.default.val room
  have hval : (Request.calculate .intDiv left right).eval e g tee.stores =
      some ⟨.int, l.sdiv r⟩ := by
    have hl' : tee.stores.get (CalcOp.intDiv).ty left = some l := hl.get
    have hr' : tee.stores.get (CalcOp.intDiv).ty right = some r := hr.get
    have hfn : CalcOp.fn e .intDiv l r = some (l.sdiv r) := if_neg (by rw [htrap]; decide)
    have hbind : ((CalcOp.fn e .intDiv l r).bind fun value => some (⟨.int, value⟩ : Value)) =
        some ⟨.int, l.sdiv r⟩ := by
      rw [hfn]
      rfl
    simp only [Request.eval, hl', hr', Option.bind_eq_bind]
    exact hbind
  have hops : handleOps e g tee (.calculate .intDiv left right) =
      some (.rid rid, { tee with stores := st }) := by
    rw [handleOps_result e g tee rfl, hval, Option.bind_some, Stores.putLocal, hput]
    rfl
  exact ⟨rid, _, askRid_eq_some.mpr hops, (Stores.put_local_denotes hput).2.2⟩

/-- The divisor is the number of all elements. -/
theorem avgOperands_divisor {vs : List (Option RID)} {sum div : RID}
    (h : avgOperands e g tee vs = some ((sum, div), tee')) :
    tee'.stores.Denotes .int div (BitVec.ofNat 32 vs.length) := by
  obtain ⟨⟨sum', tee₁⟩, -, h⟩ := Option.bind_eq_some_iff.mp h
  obtain ⟨⟨div', tee₂⟩, hput, heq⟩ := Option.bind_eq_some_iff.mp h
  cases heq
  exact (kvIntPut_frame hput).1

theorem avgOperands_spec {keys : List RID} {val : RID → Num.int.Val} (hne : keys ≠ [])
    (live : ∀ k ∈ keys, tee.stores.Denotes .int k (val k))
    (room : tee.stores.slots .int + keys.length ≤ maxLocalSlots)
    (file : tee.stores.kv.curRid .int Partition.default.val < KvMap.maxKey .int)
    (once : OneChunkEach (sumChunks keys)) :
    ∃ sum div tee', avgOperands e g tee (keys.map some) = some ((sum, div), tee') ∧
      tee'.stores.Denotes .int sum (keys.map val).sum ∧
      tee'.stores.Denotes .int div (BitVec.ofNat 32 keys.length) ∧
      tee'.stores.slots .int ≤ tee.stores.slots .int + keys.length := by
  obtain ⟨sum, tee₁, hsum, hdenotes⟩ :=
    kvInt4SumBulk_spec (e := e) (g := g) hne (fun k hk => (live k hk).reads) room once
  obtain ⟨hkv, hslots⟩ := kvInt4SumBulk_frame hsum
  rw [List.length_map] at hslots
  obtain ⟨div, tee₂, hput⟩ : ∃ div tee₂,
      kvIntPut e g tee₁ (BitVec.ofNat 32 (keys.map some).length) = some (div, tee₂) :=
    kvIntPut_room _ (by rw [hkv]; exact file)
  obtain ⟨hdiv, hslots₂, hkeep⟩ := kvIntPut_frame hput
  rw [List.length_map] at hdiv
  refine ⟨sum, div, tee₂, ?_, hkeep _ _ hdenotes, hdiv, ?_⟩
  · simp only [avgOperands, hsum, Option.bind_eq_bind, Option.bind_some, hput]
  · rw [hslots₂]
    exact hslots

/-! ## The maximum and the minimum -/

/-- A comparison of two integers, which changes nothing. -/
theorem askCmp_int {left right : RID} {l r : Num.int.Val}
    (hl : tee.stores.Denotes .int left l) (hr : tee.stores.Denotes .int right r) :
    askCmp e g tee (.cmp .intCmp left right) =
      some (threeWay (BitVec.slt r l) (BitVec.slt l r), tee) := by
  have hl' : tee.stores.get (CmpOp.intCmp).ty left = some l := hl.get
  have hr' : tee.stores.get (CmpOp.intCmp).ty right = some r := hr.get
  simp only [askCmp, handleOps, handleCmp, kvIntCmp, kvCmp, hl', hr', Option.bind_eq_bind,
    CmpOp.fn]
  rfl

/-- The loop ends with an element of the highest rank. -/
theorem extremumLoop_spec (rank : Num.int.Val → Int) {better : Int}
    (hbetter : ∀ l r, better = threeWay (BitVec.slt r l) (BitVec.slt l r) ↔ rank l < rank r)
    {keys : List RID} {val : RID → Num.int.Val} {best : RID}
    (live : ∀ k ∈ best :: keys, tee.stores.Denotes .int k (val k)) :
    ∃ rid ∈ best :: keys, extremumLoop e g .intCmp better tee best (keys.map some) =
      some (rid, tee) ∧ ∀ k ∈ best :: keys, rank (val k) ≤ rank (val rid) := by
  induction keys generalizing best with
  | nil =>
      refine ⟨best, List.mem_cons_self, rfl, ?_⟩
      intro k hk
      rw [List.mem_singleton.mp hk]
  | cons v keys ih =>
      have hbest := live best List.mem_cons_self
      have hv := live v (List.mem_cons_of_mem _ List.mem_cons_self)
      have hcmp := askCmp_int (e := e) (g := g) hbest hv
      -- the element kept, and what it stands above
      obtain ⟨next, hnext, hmem, hle, hle'⟩ : ∃ next,
          (if better = threeWay (BitVec.slt (val v) (val best)) (BitVec.slt (val best) (val v))
            then v else best) = next ∧ next ∈ [best, v] ∧
          rank (val best) ≤ rank (val next) ∧ rank (val v) ≤ rank (val next) := by
        split
        next heq => exact ⟨v, rfl, by simp, Int.le_of_lt ((hbetter _ _).mp heq), Int.le_refl _⟩
        next hne =>
          exact ⟨best, rfl, by simp, Int.le_refl _,
            Int.not_lt.mp fun h => hne ((hbetter _ _).mpr h)⟩
      have hsub : ∀ k ∈ next :: keys, k ∈ best :: v :: keys := by
        intro k hk
        rcases List.mem_cons.mp hk with rfl | hk
        · exact List.mem_append_left keys hmem
        · exact List.mem_cons_of_mem _ (List.mem_cons_of_mem _ hk)
      obtain ⟨rid, hrid, hloop, hhighest⟩ := ih fun k hk => live k (hsub k hk)
      have hnextLe := hhighest next List.mem_cons_self
      refine ⟨rid, hsub rid hrid, ?_, ?_⟩
      · simp only [List.map_cons, extremumLoop, datum, Option.getD_some, hcmp,
          Option.bind_eq_bind, Option.bind_some, hnext]
        exact hloop
      · intro k hk
        rcases List.mem_cons.mp hk with rfl | hk
        · exact Int.le_trans hle hnextLe
        · rcases List.mem_cons.mp hk with rfl | hk
          · exact Int.le_trans hle' hnextLe
          · exact hhighest k (List.mem_cons_of_mem _ hk)

theorem threeWay_slt (l r : Num.int.Val) :
    threeWay (BitVec.slt r l) (BitVec.slt l r) =
      if r.toInt < l.toInt then 1 else if l.toInt < r.toInt then -1 else 0 := by
  simp [threeWay, BitVec.slt]

theorem kvInt4MaxBulk_spec {keys : List RID} {val : RID → Num.int.Val} (hne : keys ≠ [])
    (live : ∀ k ∈ keys, tee.stores.Denotes .int k (val k)) :
    ∃ rid ∈ keys, kvInt4MaxBulk e g tee (keys.map some) = some (rid, tee) ∧
      ∀ k ∈ keys, (val k).toInt ≤ (val rid).toInt := by
  cases keys with
  | nil => exact absurd rfl hne
  | cons v keys =>
      apply extremumLoop_spec BitVec.toInt _ live
      intro l r
      rw [threeWay_slt]
      grind

theorem kvInt4MinBulk_spec {keys : List RID} {val : RID → Num.int.Val} (hne : keys ≠ [])
    (live : ∀ k ∈ keys, tee.stores.Denotes .int k (val k)) :
    ∃ rid ∈ keys, kvInt4MinBulk e g tee (keys.map some) = some (rid, tee) ∧
      ∀ k ∈ keys, (val rid).toInt ≤ (val k).toInt := by
  cases keys with
  | nil => exact absurd rfl hne
  | cons v keys =>
      have hbetter (l r : Num.int.Val) :
          1 = threeWay (BitVec.slt r l) (BitVec.slt l r) ↔ - l.toInt < - r.toInt := by
        rw [threeWay_slt]
        grind
      obtain ⟨rid, hrid, hloop, hleast⟩ :=
        extremumLoop_spec (fun value => - value.toInt) hbetter live
      exact ⟨rid, hrid, hloop, fun k hk => Int.neg_le_neg_iff.mp (hleast k hk)⟩

/-! ## NULLs -/

/-- What the four aggregates should return on an array: NULLs do not count. -/
structure AggregatesRight (e : Env) (g : Gcm) (tee : Tee) (vs : List (Option RID))
    (val : RID → Num.int.Val) : Prop where
  /-- The sum denotes the sum of the values. -/
  sum : ∃ rid tee', kvInt4SumBulk e g tee vs = some (rid, tee') ∧
    tee'.stores.Denotes .int rid (vs.reduceOption.map val).sum
  /-- The maximum denotes the greatest value. -/
  max : ∃ rid tee', kvInt4MaxBulk e g tee vs = some (rid, tee') ∧
    ∃ k ∈ vs.reduceOption, tee'.stores.Denotes .int rid (val k) ∧
      ∀ k' ∈ vs.reduceOption, (val k').toInt ≤ (val k).toInt
  /-- The minimum denotes the least value. -/
  min : ∃ rid tee', kvInt4MinBulk e g tee vs = some (rid, tee') ∧
    ∃ k ∈ vs.reduceOption, tee'.stores.Denotes .int rid (val k) ∧
      ∀ k' ∈ vs.reduceOption, (val k).toInt ≤ (val k').toInt
  /-- The average divides by the number of the values. -/
  divisor : ∃ sum div tee', avgOperands e g tee vs = some ((sum, div), tee') ∧
    tee'.stores.Denotes .int div (BitVec.ofNat 32 vs.reduceOption.length)

/-- The number of elements is an `int`, so the divisor tells the two counts apart. -/
theorem AggregatesRight.no_null {vs : List (Option RID)} {val : RID → Num.int.Val}
    (items : vs.length < 2 ^ 31) (h : AggregatesRight e g tee vs val) : none ∉ vs := by
  obtain ⟨sum, div, tee', hops, hdenotes⟩ := h.divisor
  have heq := congrArg BitVec.toNat (hdenotes.unique (avgOperands_divisor hops))
  rw [BitVec.toNat_ofNat, BitVec.toNat_ofNat] at heq
  intro hnull
  have hlt := List.reduceOption_length_lt_iff.mpr hnull
  omega

theorem map_some_reduceOption {α : Type} {vs : List (Option α)} (h : none ∉ vs) :
    vs.reduceOption.map some = vs := by
  induction vs with
  | nil => rfl
  | cons v vs ih =>
      cases v with
      | none => exact absurd List.mem_cons_self h
      | some a =>
          have hrest : none ∉ vs := fun hmem => h (List.mem_cons_of_mem _ hmem)
          rw [List.reduceOption_cons_of_some, List.map_cons, ih hrest]

/-- On an array with at least one value, in which every RID denotes an integer, the four
aggregates are right only if no element is NULL.  If none is, they are right as long as no
local RID occurs in two chunks of the sum. -/
theorem aggregates_right_iff {vs : List (Option RID)} (val : RID → Num.int.Val)
    (hne : vs.reduceOption ≠ []) (items : vs.length < 2 ^ 31)
    (live : ∀ k ∈ vs.reduceOption, tee.stores.Denotes .int k (val k))
    (room : tee.stores.slots .int + vs.length ≤ maxLocalSlots)
    (file : tee.stores.kv.curRid .int Partition.default.val < KvMap.maxKey .int) :
    (AggregatesRight e g tee vs val → none ∉ vs) ∧
      (none ∉ vs → OneChunkEach (sumChunks vs.reduceOption) → AggregatesRight e g tee vs val) := by
  constructor
  · intro h
    exact h.no_null items
  · intro hnull once
    obtain ⟨keys, hkeys⟩ : ∃ keys, vs.reduceOption = keys := ⟨_, rfl⟩
    have hvs : vs = keys.map some := by
      rw [← hkeys, map_some_reduceOption hnull]
    rw [hkeys] at hne live once
    have hroom : tee.stores.slots .int + keys.length ≤ maxLocalSlots := by
      rw [hvs, List.length_map] at room
      exact room
    obtain ⟨sum, tee₁, hsum, hsumDenotes⟩ :=
      kvInt4SumBulk_spec (e := e) (g := g) hne (fun k hk => (live k hk).reads) hroom once
    obtain ⟨max, hmaxMem, hmax, hmaxLe⟩ := kvInt4MaxBulk_spec (e := e) (g := g) hne live
    obtain ⟨min, hminMem, hmin, hminLe⟩ := kvInt4MinBulk_spec (e := e) (g := g) hne live
    obtain ⟨sum', div, tee₂, hops, -, hdiv, -⟩ :=
      avgOperands_spec (e := e) (g := g) hne live hroom file once
    rw [← hvs] at hsum hmax hmin hops
    constructor
    · rw [hkeys]
      exact ⟨sum, tee₁, hsum, hsumDenotes⟩
    · rw [hkeys]
      exact ⟨max, tee, hmax, max, hmaxMem, live max hmaxMem, hmaxLe⟩
    · rw [hkeys]
      exact ⟨min, tee, hmin, min, hminMem, live min hminMem, hminLe⟩
    · rw [hkeys]
      exact ⟨sum', div, tee₂, hops, hdiv⟩

/-- A new worker after `CMD_INT_PUT` of some integers. -/
def putFields (values : List Num.int.Val) : Option Tee :=
  values.foldlM (fun tee value => (kvIntPut .trivial .plain tee value).map Prod.snd)
    ⟨.zero, ⟨.empty, .fresh⟩⟩

/-- The fields 7, 5 and 9 of the default partition. -/
def threeFields : Tee := (putFields [7, 5, 9]).get (by decide +kernel)

theorem threeFields_denotes {k : RID} (hk : k ∈ ([1, 2] : List RID)) :
    threeFields.stores.Denotes .int k (if k = 1 then 5 else 9) := by
  simp only [List.mem_cons, List.not_mem_nil, or_false] at hk
  rcases hk with rfl | rfl
  · exact (Stores.denotes_global (by decide)).mpr
      ⟨⟨by decide, by show _ = _; decide +kernel⟩, by decide +kernel⟩
  · exact (Stores.denotes_global (by decide)).mpr
      ⟨⟨by decide, by show _ = _; decide +kernel⟩, by decide +kernel⟩

theorem aggregates_right_iff_twoFields :
    AggregatesRight .trivial .plain threeFields [some 1, some 2] fun k => if k = 1 then 5 else 9 :=
  (@aggregates_right_iff .trivial .plain threeFields [some 1, some 2] _ (by decide) (by decide)
    (fun _ hk => threeFields_denotes hk) (by decide) (by decide +kernel)).2 (by decide)
    (List.pairwise_singleton _ _)

/-- A NULL beside the field 5 or 9 stands for the field 7: the sum of 5 and NULL reads 12,
their maximum 7, the minimum of 9 and NULL reads 7, and the average of 5 and NULL is taken
of two. -/
theorem null_reads_first_field :
    ((kvInt4SumBulk .trivial .plain threeFields [some 1, none]).bind fun (rid, tee) =>
        tee.stores.get .int rid) = some 12 ∧
    ((kvInt4MaxBulk .trivial .plain threeFields [some 1, none]).bind fun (rid, tee) =>
        tee.stores.get .int rid) = some 7 ∧
    ((kvInt4MinBulk .trivial .plain threeFields [some 2, none]).bind fun (rid, tee) =>
        tee.stores.get .int rid) = some 7 ∧
    ((avgOperands .trivial .plain threeFields [some 1, none]).bind fun ((_, div), tee) =>
        tee.stores.get .int div) = some 2 := by
  decide +kernel

/-! ## The average -/

theorem toInt_sum (xs : List Num.int.Val) :
    BitVec.toInt xs.sum = (xs.map BitVec.toInt).sum.bmod (2 ^ 32) := by
  induction xs with
  | nil => rfl
  | cons x xs ih =>
      have hadd : BitVec.toInt (x + xs.sum) = (x.toInt + BitVec.toInt xs.sum).bmod (2 ^ 32) :=
        BitVec.toInt_add x xs.sum
      rw [List.sum_cons, List.map_cons, List.sum_cons, hadd, ih, Int.add_bmod_bmod]

theorem tmod_bounds (s : Int) {n : Int} (hn : 0 < n) : -n < s.tmod n ∧ s.tmod n < n := by
  have habs := Int.natAbs_tmod s n
  have hlt := Nat.mod_lt s.natAbs (Int.natAbs_pos.mpr (Int.ne_of_gt hn))
  omega

/-- Numbers that differ by a multiple of `2 ^ 32` have the same quotient by a positive `int`
only if they are equal. -/
theorem tdiv_bmod_eq_iff {s n : Int} (hn : 0 < n) (hn' : n < 2 ^ 31) :
    (s.bmod (2 ^ 32)).tdiv n = s.tdiv n ↔ -2 ^ 31 ≤ s ∧ s < 2 ^ 31 := by
  constructor
  · intro heq
    have hs := Int.tmod_add_tdiv_mul s n
    have hb := Int.tmod_add_tdiv_mul (s.bmod (2 ^ 32)) n
    rw [heq] at hb
    have hmod := tmod_bounds s hn
    have hmod' := tmod_bounds (s.bmod (2 ^ 32)) hn
    have hlo : -2 ^ 31 ≤ s.bmod (2 ^ 32) := Int.le_bmod (by decide)
    have hhi : s.bmod (2 ^ 32) < 2 ^ 31 := Int.bmod_lt (by decide)
    have hdvd := Int.bmod_add_bdiv s (2 ^ 32)
    omega
  · rintro ⟨hlo, hhi⟩
    rw [Int.bmod_eq_of_le (by omega) (by omega)]

theorem le_tdiv_of_mul_le {s n lo : Int} (hn : 0 < n) (h : lo * n ≤ s) : lo ≤ s.tdiv n := by
  have hs := Int.tmod_add_tdiv_mul s n
  have hmod := tmod_bounds s hn
  by_contra hlt
  have hle : (s.tdiv n + 1) * n ≤ lo * n :=
    Int.mul_le_mul_of_nonneg_right (by omega) (Int.le_of_lt hn)
  rw [Int.add_mul] at hle
  omega

theorem tdiv_le_of_le_mul {s n hi : Int} (hn : 0 < n) (h : s ≤ hi * n) : s.tdiv n ≤ hi := by
  have hneg : -hi ≤ (-s).tdiv n := le_tdiv_of_mul_le hn (by rw [Int.neg_mul]; omega)
  rw [Int.neg_tdiv] at hneg
  omega

/-- A lower bound of some numbers is one of their average. -/
theorem le_average {xs : List Int} (hne : xs ≠ []) {lo : Int} (h : ∀ x ∈ xs, lo ≤ x) :
    lo ≤ xs.sum.tdiv xs.length := by
  have hsum := List.card_nsmul_le_sum xs lo h
  rw [nsmul_eq_mul, mul_comm] at hsum
  exact le_tdiv_of_mul_le (Int.natCast_pos.mpr (List.length_pos_iff.mpr hne)) hsum

/-- An upper bound of some numbers is one of their average. -/
theorem average_le {xs : List Int} (hne : xs ≠ []) {hi : Int} (h : ∀ x ∈ xs, x ≤ hi) :
    xs.sum.tdiv xs.length ≤ hi := by
  have hsum := List.sum_le_card_nsmul xs hi h
  rw [nsmul_eq_mul, mul_comm] at hsum
  exact tdiv_le_of_le_mul (Int.natCast_pos.mpr (List.length_pos_iff.mpr hne)) hsum

/-- What the average should be: the exact sum divided by the number of the values, with
truncation, and so between the bounds of the values. -/
def AverageExact (e : Env) (g : Gcm) (tee : Tee) (keys : List RID) (val : RID → Num.int.Val) :
    Prop :=
  ∃ rid tee' avg, kvInt4AvgBulk e g tee (keys.map some) = some (rid, tee') ∧
    tee'.stores.Denotes .int rid avg ∧
    avg.toInt = (keys.map fun k => (val k).toInt).sum.tdiv keys.length ∧
    (∀ lo, (∀ k ∈ keys, lo ≤ (val k).toInt) → lo ≤ avg.toInt) ∧
    (∀ hi, (∀ k ∈ keys, (val k).toInt ≤ hi) → avg.toInt ≤ hi)

/-- The average the code computes: the wrapped sum divided by the number of the values. -/
theorem kvInt4AvgBulk_spec {keys : List RID} {val : RID → Num.int.Val} (hne : keys ≠ [])
    (items : keys.length < 2 ^ 31) (live : ∀ k ∈ keys, tee.stores.Denotes .int k (val k))
    (room : tee.stores.slots .int + keys.length < maxLocalSlots)
    (file : tee.stores.kv.curRid .int Partition.default.val < KvMap.maxKey .int)
    (once : OneChunkEach (sumChunks keys)) :
    ∃ rid tee' avg, kvInt4AvgBulk e g tee (keys.map some) = some (rid, tee') ∧
      tee'.stores.Denotes .int rid avg ∧
      avg.toInt = ((keys.map fun k => (val k).toInt).sum.bmod (2 ^ 32)).tdiv keys.length := by
  obtain ⟨sum, div, tee₁, hops, hsum, hdiv, hslots⟩ :=
    avgOperands_spec (e := e) (g := g) hne live (Nat.le_of_lt room) file once
  have hpos := List.length_pos_iff.mpr hne
  obtain ⟨n, hn⟩ : ∃ n : Num.int.Val, BitVec.ofNat 32 keys.length = n := ⟨_, rfl⟩
  have hnint : n.toInt = keys.length := by
    rw [← hn]
    have hmod : (BitVec.ofNat 32 keys.length).toInt = (keys.length : Int).bmod (2 ^ 32) :=
      BitVec.toInt_ofNat ..
    exact hmod.trans (Int.bmod_eq_of_le (by omega) (by omega))
  rw [hn] at hdiv
  have hne' : ∀ m : Num.int.Val, m.toInt ≤ 0 → n ≠ m := by
    rintro m hm rfl
    omega
  have htrap : divTraps (keys.map val).sum n = false := by
    have h0 : (n == 0) = false := beq_eq_false_iff_ne.mpr (hne' 0 (by decide))
    have h1 : (n == -1) = false := beq_eq_false_iff_ne.mpr (hne' (-1) (by decide))
    simp only [divTraps, h0, h1, Bool.and_false, Bool.or_false]
  obtain ⟨rid, tee₂, havg, hdenotes⟩ :=
    kvIntDiv_spec (e := e) (g := g) hsum hdiv htrap (by omega)
  refine ⟨rid, tee₂, _, ?_, hdenotes, ?_⟩
  · simp only [kvInt4AvgBulk, hops, Option.bind_eq_bind, Option.bind_some, havg]
  · have hsdiv : (BitVec.sdiv (keys.map val).sum n).toInt
        = (BitVec.toInt (keys.map val).sum).tdiv n.toInt :=
      BitVec.toInt_sdiv_of_ne_or_ne _ _ (.inr (hne' (-1) (by decide)))
    rw [hsdiv, toInt_sum, List.map_map, hnint]
    rfl

/-- For distinct RIDs that denote integers the average is exact if and only if the sum of
the integers is an `int`. -/
theorem avg_exact_iff {keys : List RID} (val : RID → Num.int.Val) (hne : keys ≠ [])
    (distinct : keys.Nodup) (items : keys.length < 2 ^ 31)
    (live : ∀ k ∈ keys, tee.stores.Denotes .int k (val k))
    (room : tee.stores.slots .int + keys.length < maxLocalSlots)
    (file : tee.stores.kv.curRid .int Partition.default.val < KvMap.maxKey .int) :
    AverageExact e g tee keys val ↔
      -2 ^ 31 ≤ (keys.map fun k => (val k).toInt).sum ∧
        (keys.map fun k => (val k).toInt).sum < 2 ^ 31 := by
  have once : OneChunkEach (sumChunks keys) :=
    oneChunkEach_sumChunks
      (List.Pairwise.imp (S := fun k k' => islocal k = true → k ≠ k') (fun hkk _ => hkk) distinct)
  obtain ⟨rid, tee', avg, havg, hdenotes, hint⟩ :=
    kvInt4AvgBulk_spec (e := e) (g := g) hne items live room file once
  have hpos : (0 : Int) < keys.length := Int.natCast_pos.mpr (List.length_pos_iff.mpr hne)
  rw [← tdiv_bmod_eq_iff hpos (by omega), ← hint]
  constructor
  · rintro ⟨rid', tee'', avg', havg', hdenotes', hexact, -⟩
    rw [havg] at havg'
    cases havg'
    rw [hdenotes.unique hdenotes']
    exact hexact
  · intro hexact
    have hmap : keys.map (fun k => (val k).toInt) ≠ [] := List.map_eq_nil_iff.not.mpr hne
    refine ⟨rid, tee', avg, havg, hdenotes, hexact, ?_, ?_⟩
    · intro lo hlo
      have hle := le_average hmap (List.forall_mem_map.mpr hlo)
      rw [List.length_map] at hle
      rw [hexact]
      exact hle
    · intro hi hhi
      have hle := average_le hmap (List.forall_mem_map.mpr hhi)
      rw [List.length_map] at hle
      rw [hexact]
      exact hle

theorem avg_exact_iff_twoFields :
    AverageExact .trivial .plain threeFields [1, 2] fun k => if k = 1 then 5 else 9 :=
  (avg_exact_iff _ (by decide) (by decide) (by decide) (fun _ hk => threeFields_denotes hk)
    (by decide) (by decide +kernel)).mpr (by decide)

/-- The average of `INT_MAX` and 1: the sum wraps, and the result reads `-2 ^ 30`, below
both. -/
theorem avg_of_large_fields :
    ((putFields [2 ^ 31 - 1, 1]).bind fun tee =>
      (kvInt4AvgBulk .trivial .plain tee [some 0, some 1]).bind fun (rid, tee) =>
        (tee.stores.get .int rid).map BitVec.toInt) = some (-2 ^ 30) := by
  decide +kernel

end Extension

end Zeno
