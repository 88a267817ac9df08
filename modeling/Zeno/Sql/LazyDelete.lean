import Zeno.Kv.Flat
import Zeno.Lib.Machine
import Zeno.Sql.DeleteQueue
import Zeno.Wal.Payload

/-!
# Lazy delete

With `USE_LAZY_DELETE`, and without partitions, the trigger queues the RIDs that a
row gives up, and a promotion overwrites a queued RID, once the transaction that
queued it has committed, instead of taking a new slot.

The trigger passes global RIDs through as they are.  In this build a literal has a
global RID too.  So two fields hold one RID when a column is copied or a literal is
used twice, and when one of them gives the RID up, a later promotion changes the
other.  Every field keeps its value in all runs in which a RID is queued only when
nothing else holds it, and a computed value is promoted only once
(`fields_keep_values`).

The proof keeps two sets of fields apart.  Those an abort could bring back must not
be *ready* for reuse, and those visible now must not even be *pending* (`Guarded`).
-/

namespace Zeno

/-! ## The requests -/

/-- What the trigger works on: the worker's stores and the backend's queues. -/
structure LazyStore where
  /-- The stores. -/
  stores : Stores
  /-- `delete_set_int4` and its siblings. -/
  queues : Ty → DeleteQueue

namespace LazyStore

/-- `send_delete_req`. -/
def sendDeleteReq (w : LazyStore) (t : Ty) (old : RID) : LazyStore :=
  if flatIslocal old then w
  else { w with queues := Function.update w.queues t ((w.queues t).enqueue old) }

/-- `send_promote_req`. -/
def sendPromoteReq (w : LazyStore) (t : Ty) (loc : RID) : Option (RID × LazyStore) :=
  let (target, q) := (w.queues t).dequeue
  (w.stores.flatPromote t loc target).map fun (rid, st) =>
    (rid, ⟨st, Function.update w.queues t q⟩)

end LazyStore

/-! ## The trigger -/

/-- The encrypted columns of a row: NULL, or a RID with the value last assigned. -/
abbrev LazyRow := List (Option Field)

/-- The fields of a row. -/
def rowFields (row : LazyRow) : List Field := row.filterMap id

/-- The fields of some rows. -/
def tableFields (rows : List LazyRow) : List Field := rows.flatMap rowFields

/-- The body of the loop for INSERT. -/
def insertColumn (w : LazyStore) : Option Field → Option (Option Field × LazyStore)
  | none => some (none, w)
  | some f =>
      if flatIslocal f.rid then
        (w.sendPromoteReq f.val.1 f.rid).map fun (global, w) => (some ⟨global, f.val⟩, w)
      else some (some f, w)

/-- The loop for INSERT. -/
def fireInsert (w : LazyStore) : LazyRow → Option (LazyRow × LazyStore)
  | [] => some ([], w)
  | c :: cs => do
      let (c', w) ← insertColumn w c
      let (cs', w) ← fireInsert w cs
      some (c' :: cs', w)

/-- The body of the loop for UPDATE, on a column's old and new value. -/
def updateColumn (w : LazyStore) (old : Option Field) :
    Option Field → Option (Option Field × LazyStore)
  | none => some (none, w)
  | some f =>
      if flatIslocal f.rid then
        (w.sendPromoteReq f.val.1 f.rid).map fun (global, w) =>
          (some ⟨global, f.val⟩,
            match old with
            | none => w
            | some o => if o.rid ≠ global then w.sendDeleteReq f.val.1 o.rid else w)
      else some (some f, w)

/-- The loop for UPDATE. -/
def fireUpdate (w : LazyStore) :
    List (Option Field × Option Field) → Option (LazyRow × LazyStore)
  | [] => some ([], w)
  | (old, new) :: cs => do
      let (c', w) ← updateColumn w old new
      let (cs', w) ← fireUpdate w cs
      some (c' :: cs', w)

/-- The loop for DELETE. -/
def fireDelete (w : LazyStore) (fields : List Field) : LazyStore :=
  fields.foldl (fun w o => w.sendDeleteReq o.val.1 o.rid) w

theorem fireInsert_eq (w : LazyStore) (cs : LazyRow) :
    fireInsert w cs = fireUpdate w (cs.map fun c => (none, c)) := by
  induction cs generalizing w with
  | nil => rfl
  | cons c cs ih =>
      have hcolumn : insertColumn w c = updateColumn w none c := by
        cases c <;> rfl
      simp only [fireInsert, List.map_cons, fireUpdate, hcolumn, ih]

/-- The fields an UPDATE queues: the old ones of the columns that get a local RID. -/
def queuedBy (cs : List (Option Field × Option Field)) : List Field :=
  cs.filterMap fun
    | (some o, some f) => if flatIslocal f.rid then some o else none
    | _ => none

/-- The fields of a row with local RIDs. -/
def localsOf (row : LazyRow) : List Field := (rowFields row).filter fun f => flatIslocal f.rid

/-! ## What reuse must not touch -/

/-- The queues stand for some RIDs.  Fields of the first set denote their values and are
not ready for reuse, and those of the second set are not pending either. -/
structure Guarded (w : LazyStore) (S V : Field → Prop) (ready pending : Ty → List RID) :
    Prop where
  holds : ∀ t, (w.queues t).Holds (ready t) (pending t)
  alive : ∀ f, S f → w.stores.FlatAlive f.val.1 f.rid f.val.2
  queued : ∀ t, ∀ r ∈ ready t ++ pending t, ∃ v, w.stores.FlatAlive t r v
  nodup : ∀ t, (ready t ++ pending t).Nodup
  ready_apart : ∀ f, S f → f.rid ∉ ready f.val.1
  pending_apart : ∀ f, V f → f.rid ∉ pending f.val.1

variable {w w' : LazyStore} {S V : Field → Prop} {ready pending : Ty → List RID}

theorem Guarded.mono {S' V' : Field → Prop} (g : Guarded w S V ready pending)
    (hS : ∀ f, S' f → S f) (hV : ∀ f, V' f → V f) : Guarded w S' V' ready pending :=
  ⟨g.holds, fun f hf => g.alive f (hS f hf), g.queued, g.nodup,
    fun f hf => g.ready_apart f (hS f hf), fun f hf => g.pending_apart f (hV f hf)⟩

/-- The files decide. -/
theorem Guarded.of_kv {st : Stores} (g : Guarded w S V ready pending) (h : st.kv = w.stores.kv) :
    Guarded ⟨st, w.queues⟩ S V ready pending :=
  ⟨g.holds, fun f hf => (g.alive f hf).of_kv h,
    fun t r hr => (g.queued t r hr).imp fun _ hv => hv.of_kv h, g.nodup, g.ready_apart,
    g.pending_apart⟩

theorem Field.eq_item {f f' : Field} (ht : f.val.1 = f'.val.1) (hr : f.rid = f'.rid) :
    f.item = f'.item := by
  rw [Field.item, Field.item, ht, hr]

/-- A fresh field is guarded with the others. -/
theorem Guarded.fresh {st : Stores} {t : Ty} {value : t.Val} {rid : RID}
    (g : Guarded w S V ready pending)
    (h : w.stores.flatPut t invalidRid value false = some (rid, st)) :
    Guarded ⟨st, w.queues⟩ (fun x => S x ∨ x = ⟨rid, ⟨t, value⟩⟩)
      (fun x => V x ∨ x = ⟨rid, ⟨t, value⟩⟩) ready pending ∧
      ∀ x, S x → x.item ≠ (Field.mk rid ⟨t, value⟩).item := by
  obtain ⟨-, hnew, hfresh, hkeep⟩ := Stores.flatPut_fresh h
  have hout (l : List RID) (hl : ∀ r ∈ l, ∃ v, w.stores.FlatAlive t r v) : rid ∉ l := by
    intro hmem
    obtain ⟨v, hv⟩ := hl rid hmem
    exact hfresh v hv
  refine ⟨⟨g.holds, ?_, fun t r hr => (g.queued t r hr).imp fun _ hv => hkeep hv, g.nodup, ?_, ?_⟩,
    fun x hx he => ?_⟩
  · rintro f (hf | rfl)
    · exact hkeep (g.alive f hf)
    · exact hnew
  · rintro f (hf | rfl)
    · exact g.ready_apart f hf
    · exact hout _ fun r hr => g.queued t r (List.mem_append_left _ hr)
  · rintro f (hf | rfl)
    · exact g.pending_apart f hf
    · exact hout _ fun r hr => g.queued t r (List.mem_append_right _ hr)
  · obtain ⟨rid', t', v'⟩ := x
    cases he
    exact hfresh _ (g.alive _ hx)

/-- The field that overwrites a ready RID is guarded with the others. -/
theorem Guarded.reuse {st : Stores} {t : Ty} {value : t.Val} {x rid : RID} {rest : List RID}
    {q : DeleteQueue} (g : Guarded w S V ready pending) (hready : ready t = x :: rest)
    (hq : q.Holds rest (pending t)) (h : w.stores.flatPut t x value false = some (rid, st)) :
    Guarded ⟨st, Function.update w.queues t q⟩ (fun f => S f ∨ f = ⟨rid, ⟨t, value⟩⟩)
      (fun f => V f ∨ f = ⟨rid, ⟨t, value⟩⟩) (Function.update ready t rest) pending ∧
      ∀ f, S f → f.item ≠ (Field.mk rid ⟨t, value⟩).item := by
  have hnodup := g.nodup t
  rw [hready, List.cons_append, List.nodup_cons] at hnodup
  obtain ⟨v₀, hx⟩ := g.queued t x (by rw [hready]; exact List.mem_cons_self)
  obtain ⟨rfl, -, hnew, hkeep⟩ := Stores.flatPut_target hx h
  have hapart (f : Field) (hf : S f) : f.item ≠ (Field.mk rid ⟨t, value⟩).item := by
    obtain ⟨rid', t', v'⟩ := f
    intro he
    cases he
    exact g.ready_apart _ hf (by rw [hready]; exact List.mem_cons_self)
  have hsub (t' : Ty) : Function.update ready t rest t' ++ pending t' ⊆ ready t' ++ pending t' := by
    by_cases ht : t' = t
    · subst ht
      rw [Function.update_self, hready]
      exact List.subset_cons_self _ _
    · rw [Function.update_of_ne ht]
      exact List.Subset.refl _
  have hleft (r : RID) (hr : r ∈ Function.update ready t rest t ++ pending t) : r ≠ rid := by
    rw [Function.update_self] at hr
    rintro rfl
    exact hnodup.1 hr
  refine ⟨⟨fun t' => ?_, ?_, fun t' r hr => ?_, fun t' => ?_, ?_, ?_⟩, hapart⟩
  · by_cases ht : t' = t
    · subst ht
      simp only [Function.update_self]
      exact hq
    · simp only [Function.update_of_ne ht]
      exact g.holds t'
  · rintro f (hf | rfl)
    · refine hkeep (fun he => hapart f hf ?_) (g.alive f hf)
      exact Field.eq_item (Prod.mk.inj he).1 (Prod.mk.inj he).2
    · exact hnew
  · obtain ⟨v, hv⟩ := g.queued t' r (hsub t' hr)
    refine ⟨v, hkeep (fun he => ?_) hv⟩
    obtain ⟨rfl, rfl⟩ := Prod.mk.inj he
    exact hleft _ hr rfl
  · by_cases ht : t' = t
    · subst ht
      rw [Function.update_self]
      exact hnodup.2
    · rw [Function.update_of_ne ht]
      exact g.nodup t'
  · rintro f (hf | rfl)
    · intro hmem
      by_cases ht : f.val.1 = t
      · rw [ht, Function.update_self] at hmem
        exact g.ready_apart f hf (by rw [ht, hready]; exact List.mem_cons_of_mem _ hmem)
      · rw [Function.update_of_ne ht] at hmem
        exact g.ready_apart f hf hmem
    · exact fun hmem => hleft _ (List.mem_append_left _ hmem) rfl
  · rintro f (hf | rfl)
    · exact g.pending_apart f hf
    · exact fun hmem => hleft _ (List.mem_append_right _ hmem) rfl

/-- A promotion of a value in use: the new field is guarded, and it is none of the old ones. -/
theorem Guarded.promote {f : Field} {rid : RID} (g : Guarded w S V ready pending)
    (live : w.stores.FlatLive f.val.1 f.rid f.val.2)
    (h : w.sendPromoteReq f.val.1 f.rid = some (rid, w')) :
    (∃ ready', Guarded w' (fun x => S x ∨ x = ⟨rid, f.val⟩) (fun x => V x ∨ x = ⟨rid, f.val⟩)
      ready' pending) ∧ (∀ x, S x → x.item ≠ (Field.mk rid f.val).item) ∧
      ∀ {t key} {v : t.Val}, (t, key) ≠ (f.val.1, f.rid) → w.stores.FlatLive t key v →
        w'.stores.FlatLive t key v := by
  obtain ⟨loc, t, value⟩ := f
  cases hr : ready t with
  | nil =>
      have hholds := g.holds t
      rw [hr] at hholds
      simp only [LazyStore.sendPromoteReq, hholds.dequeue_nil, Function.update_eq_self] at h
      obtain ⟨⟨rid', st⟩, hpromote, heq⟩ := Option.map_eq_some_iff.mp h
      cases heq
      obtain ⟨v, u, hget, hput, rfl⟩ := Stores.flatPromote_eq_some.mp hpromote
      obtain rfl : value = v := Option.some.inj (live.get.symm.trans hget)
      obtain ⟨hg, hapart⟩ := g.fresh hput
      refine ⟨⟨ready, hg.of_kv (Stores.flatFreeLocal_kv _ _ _)⟩, hapart, fun hne hl => ?_⟩
      exact (hl.of_loc (Stores.flatPut_fresh hput).1).free hne
  | cons x rest =>
      have hholds := g.holds t
      rw [hr] at hholds
      obtain ⟨q, hdequeue, hq⟩ := hholds.dequeue_cons
      simp only [LazyStore.sendPromoteReq, hdequeue] at h
      obtain ⟨⟨rid', st⟩, hpromote, heq⟩ := Option.map_eq_some_iff.mp h
      cases heq
      obtain ⟨v, u, hget, hput, rfl⟩ := Stores.flatPromote_eq_some.mp hpromote
      obtain rfl : value = v := Option.some.inj (live.get.symm.trans hget)
      obtain ⟨v₀, hx⟩ := g.queued t x (by rw [hr]; exact List.mem_cons_self)
      obtain ⟨hg, hapart⟩ := g.reuse hr hq hput
      refine ⟨⟨_, hg.of_kv (Stores.flatFreeLocal_kv _ _ _)⟩, hapart, fun hne hl => ?_⟩
      exact (hl.of_loc (Stores.flatPut_target hx hput).2.1).free hne

/-- A field that is guarded, and that no visible field shares its RID with, can be queued. -/
theorem Guarded.delete (g : Guarded w S V ready pending) (V' : Field → Prop) (o : Field)
    (hS : S o) (hV : V o) (hsub : ∀ f, V' f → V f) (hleft : ∀ f, V' f → f.item ≠ o.item) :
    ∃ pending', Guarded (w.sendDeleteReq o.val.1 o.rid) S V' ready pending' := by
  have halive := g.alive o hS
  rw [LazyStore.sendDeleteReq, halive.global, if_neg Bool.false_ne_true]
  rcases (g.holds o.val.1).enqueue o.rid with hadd | hfull
  · refine ⟨Function.update pending o.val.1 (pending o.val.1 ++ [o.rid]), ?_⟩
    refine ⟨fun t => ?_, g.alive, fun t r hr => ?_, fun t => ?_, g.ready_apart, fun f hf hmem => ?_⟩
    · by_cases ht : t = o.val.1
      · subst ht
        simp only [Function.update_self]
        exact hadd
      · simp only [Function.update_of_ne ht]
        exact g.holds t
    · by_cases ht : t = o.val.1
      · subst ht
        rw [Function.update_self, ← List.append_assoc] at hr
        rcases List.mem_append.mp hr with hold | hnew
        · exact g.queued _ r hold
        · rw [List.mem_singleton.mp hnew]
          exact ⟨_, halive⟩
      · rw [Function.update_of_ne ht] at hr
        exact g.queued t r hr
    · by_cases ht : t = o.val.1
      · subst ht
        rw [Function.update_self, ← List.append_assoc]
        refine List.Nodup.append (g.nodup _) (List.nodup_singleton _) ?_
        rw [List.disjoint_singleton]
        intro hmem
        rcases List.mem_append.mp hmem with hr | hp
        · exact g.ready_apart o hS hr
        · exact g.pending_apart o hV hp
      · rw [Function.update_of_ne ht]
        exact g.nodup t
    · by_cases ht : f.val.1 = o.val.1
      · rw [ht, Function.update_self] at hmem
        rcases List.mem_append.mp hmem with hold | hnew
        · exact g.pending_apart f (hsub f hf) (by rw [ht]; exact hold)
        · exact hleft f hf (Field.eq_item ht (List.mem_singleton.mp hnew))
      · rw [Function.update_of_ne ht] at hmem
        exact g.pending_apart f (hsub f hf) hmem
  · rw [hfull, Function.update_eq_self]
    exact ⟨pending, g.mono (fun _ hf => hf) hsub⟩

/-! ## The loops -/

/-- A column was returned with the value of the new one. -/
def SameValue : Option Field → Option Field → Prop
  | none, c' => c' = none
  | some f, c' => ∃ rid, c' = some ⟨rid, f.val⟩

theorem rowFields_cons (c : Option Field) (cs : LazyRow) :
    rowFields (c :: cs) = c.toList ++ rowFields cs := by
  cases c <;> rfl

theorem queuedBy_cons (old new : Option Field) (cs : List (Option Field × Option Field)) :
    queuedBy ((old, new) :: cs) = queuedBy [(old, new)] ++ queuedBy cs := by
  simp only [queuedBy, List.filterMap_cons, List.filterMap_nil]
  split <;> rfl

theorem sendDeleteReq_stores (w : LazyStore) (t : Ty) (old : RID) :
    (w.sendDeleteReq t old).stores = w.stores := by
  unfold LazyStore.sendDeleteReq
  split <;> rfl

/-- What a column does to the guarded fields.  `K` stay visible, and `Q` are queued later. -/
structure ColumnDone (w w' : LazyStore) (S K Q : Field → Prop) (new c' : Option Field) : Prop where
  guarded : ∃ ready pending, Guarded w' (fun f => S f ∨ c' = some f)
    (fun f => (K f ∨ c' = some f) ∨ Q f) ready pending
  value : SameValue new c'
  apart : ∀ f, c' = some f → K f ∨ ∀ x, S x → x.item ≠ f.item
  live : ∀ t key v, (∀ f, new = some f → flatIslocal f.rid = true → f.item ≠ ⟨t, key⟩) →
    w.stores.FlatLive t key v → w'.stores.FlatLive t key v

/-- A column that is left as it is. -/
theorem ColumnDone.skip {K Q : Field → Prop} {c : Option Field}
    (g : Guarded w S (fun f => K f ∨ Q f) ready pending) (hK : ∀ f, K f → S f)
    (hkept : ∀ f, c = some f → K f) : ColumnDone w w S K Q c c := by
  refine ⟨⟨ready, pending, g.mono ?_ ?_⟩, ?_, fun f hf => .inl (hkept f hf), fun _ _ _ _ hl => hl⟩
  · rintro f (hf | hf)
    · exact hf
    · exact hK f (hkept f hf)
  · rintro f ((hf | hf) | hf)
    · exact .inl hf
    · exact .inl (hkept f hf)
    · exact .inr hf
  · cases c with
    | none => rfl
    | some f => exact ⟨f.rid, rfl⟩

/-- A column that is promoted, with no old field to queue. -/
theorem ColumnDone.promote {u : LazyStore} {K Q : Field → Prop} {f : Field} {rid : RID}
    (g : Guarded w S (fun x => K x ∨ Q x) ready pending)
    (hlive : w.stores.FlatLive f.val.1 f.rid f.val.2) (hlocal : flatIslocal f.rid = true)
    (h : w.sendPromoteReq f.val.1 f.rid = some (rid, u)) :
    ColumnDone w u S K Q (some f) (some ⟨rid, f.val⟩) := by
  obtain ⟨⟨ready', g'⟩, hapart, hkeep⟩ := g.promote hlive h
  refine ⟨⟨ready', pending, g'.mono ?_ ?_⟩, ⟨rid, rfl⟩, ?_, fun t key v hne hl => hkeep ?_ hl⟩
  · rintro x (hx | hx)
    · exact .inl hx
    · exact .inr (Option.some.inj hx).symm
  · rintro x ((hx | hx) | hx)
    · exact .inl (.inl hx)
    · exact .inr (Option.some.inj hx).symm
    · exact .inl (.inr hx)
  · rintro x hx
    cases hx
    exact .inr hapart
  · intro he
    refine hne f rfl hlocal ?_
    rw [Field.item, ← (Prod.mk.inj he).1, ← (Prod.mk.inj he).2]

/-- The old field of a promoted column is queued. -/
theorem ColumnDone.delete {u : LazyStore} {K Q : Field → Prop} {new c' : Option Field} {o : Field}
    (h : ColumnDone w u S K (fun x => x = o ∨ Q x) new c') (hS : S o)
    (hleft : ∀ f, K f ∨ Q f → f.item ≠ o.item) :
    ColumnDone w (u.sendDeleteReq o.val.1 o.rid) S K Q new c' := by
  obtain ⟨ready', pending', g⟩ := h.guarded
  refine ⟨?_, h.value, h.apart, fun t key v hne hl => ?_⟩
  · have hother : ∀ f, (K f ∨ c' = some f) ∨ Q f → f.item ≠ o.item := by
      rintro f ((hf | hf) | hf)
      · exact hleft f (.inl hf)
      · rcases h.apart f hf with hK | hfresh
        · exact hleft f (.inl hK)
        · exact (hfresh o hS).symm
      · exact hleft f (.inr hf)
    obtain ⟨pending₁, g₁⟩ := g.delete (fun f => (K f ∨ c' = some f) ∨ Q f) o (.inl hS)
      (.inr (.inl rfl)) (fun f hf => hf.imp_right .inr) hother
    exact ⟨ready', pending₁, g₁⟩
  · rw [sendDeleteReq_stores]
    exact h.live t key v hne hl

/-- One column of an UPDATE. -/
theorem updateColumn_spec {K Q : Field → Prop} {old new c' : Option Field}
    (g : Guarded w S (fun f => K f ∨ (f ∈ queuedBy [(old, new)] ∨ Q f)) ready pending)
    (hK : ∀ f, K f → S f) (hS : ∀ o ∈ queuedBy [(old, new)], S o)
    (hleft : ∀ o ∈ queuedBy [(old, new)], ∀ f, K f ∨ Q f → f.item ≠ o.item)
    (htyped : ∀ o f, old = some o → new = some f → o.val.1 = f.val.1)
    (hpass : ∀ f, new = some f → flatIslocal f.rid = false → K f)
    (hlive : ∀ f, new = some f → flatIslocal f.rid = true →
      w.stores.FlatLive f.val.1 f.rid f.val.2)
    (h : updateColumn w old new = some (c', w')) : ColumnDone w w' S K Q new c' := by
  have hplain := g.mono (fun _ hf => hf) fun f (hf : K f ∨ Q f) => hf.imp_right .inr
  cases new with
  | none =>
      cases h
      exact .skip hplain hK fun f hf => nomatch hf
  | some f =>
      cases hl : flatIslocal f.rid with
      | false =>
          simp only [updateColumn, hl, Bool.false_eq_true, if_false] at h
          cases h
          refine .skip hplain hK fun x hx => ?_
          cases hx
          exact hpass f rfl hl
      | true =>
          simp only [updateColumn, hl, if_true] at h
          obtain ⟨⟨global, u⟩, hpromote, heq⟩ := Option.map_eq_some_iff.mp h
          cases old with
          | none =>
              cases heq
              exact .promote hplain (hlive f rfl hl) hl hpromote
          | some o =>
              have hq : queuedBy [(some o, some f)] = [o] := by simp [queuedBy, hl]
              rw [hq] at g hS hleft
              have hSo := hS o List.mem_cons_self
              have hdone : ColumnDone w u S K (fun x => x = o ∨ Q x) (some f)
                  (some ⟨global, f.val⟩) := by
                refine .promote (g.mono (fun _ hx => hx) fun x hx => ?_) (hlive f rfl hl) hl
                  hpromote
                rcases hx with hx | rfl | hx
                · exact .inl hx
                · exact .inr (.inl List.mem_cons_self)
                · exact .inr (.inr hx)
              have hty := htyped o f rfl rfl
              have hsame (he : o.rid = global) : o.item = (Field.mk global f.val).item :=
                Field.eq_item hty he
              -- the promoted field took no RID that a guarded field holds
              have hne : o.rid ≠ global := by
                intro he
                rcases hdone.apart _ rfl with hk | hfresh
                · exact hleft o List.mem_cons_self _ (.inl hk) (hsame he).symm
                · exact hfresh o hSo (hsame he)
              simp only [if_pos hne, ← hty] at heq
              cases heq
              exact hdone.delete hSo (hleft o List.mem_cons_self)

theorem localsOf_cons (c : Option Field) (cs : LazyRow) :
    localsOf (c :: cs) = (c.toList.filter fun f => flatIslocal f.rid) ++ localsOf cs := by
  rw [localsOf, rowFields_cons, List.filter_append]
  rfl

theorem mem_localsOf_head {c : Option Field} {f : Field} (hc : c = some f)
    (hl : flatIslocal f.rid = true) : f ∈ c.toList.filter fun f => flatIslocal f.rid := by
  subst hc
  simp [hl]

/-- The loop for UPDATE.  `K` are the fields that stay visible: none of them shares its RID
with a field that is queued. -/
theorem fireUpdate_spec {cs : List (Option Field × Option Field)} {out : LazyRow}
    {K : Field → Prop}
    (g : Guarded w S (fun f => K f ∨ f ∈ queuedBy cs) ready pending) (hK : ∀ f, K f → S f)
    (hqueued : ∀ o ∈ queuedBy cs, S o) (hleft : ∀ o ∈ queuedBy cs, ∀ f, K f → f.item ≠ o.item)
    (honce : ((queuedBy cs).map Field.item).Nodup)
    (htyped : ∀ o f, (some o, some f) ∈ cs → o.val.1 = f.val.1)
    (hpass : ∀ f ∈ rowFields (cs.map Prod.snd), flatIslocal f.rid = false → K f)
    (hlive : ∀ f ∈ localsOf (cs.map Prod.snd), w.stores.FlatLive f.val.1 f.rid f.val.2)
    (hlocals : ((localsOf (cs.map Prod.snd)).map Field.item).Nodup)
    (h : fireUpdate w cs = some (out, w')) :
    (∃ ready' pending', Guarded w' (fun f => S f ∨ f ∈ rowFields out)
      (fun f => K f ∨ f ∈ rowFields out) ready' pending') ∧
      List.Forall₂ SameValue (cs.map Prod.snd) out ∧
      ∀ t key v, (∀ f ∈ localsOf (cs.map Prod.snd), f.item ≠ ⟨t, key⟩) →
        w.stores.FlatLive t key v → w'.stores.FlatLive t key v := by
  induction cs generalizing w S K ready pending out with
  | nil =>
      cases h
      refine ⟨⟨ready, pending, g.mono (fun f hf => ?_) fun f hf => ?_⟩, .nil, fun _ _ _ _ hl => hl⟩
      · exact hf.resolve_right fun hmem => nomatch hmem
      · exact .inl (hf.resolve_right fun hmem => nomatch hmem)
  | cons c cs ih =>
      obtain ⟨old, new⟩ := c
      obtain ⟨⟨c', w₁⟩, hfirst, h⟩ := Option.bind_eq_some_iff.mp h
      obtain ⟨⟨cs', w₂⟩, hrest, h⟩ := Option.bind_eq_some_iff.mp h
      cases h
      rw [queuedBy_cons] at g hqueued hleft honce
      rw [List.map_append, List.nodup_append] at honce
      rw [List.map_cons, rowFields_cons] at hpass
      rw [List.map_cons, localsOf_cons] at hlive hlocals ⊢
      rw [List.map_append, List.nodup_append] at hlocals
      have hdone : ColumnDone w w₁ S K (· ∈ queuedBy cs) new c' := by
        refine updateColumn_spec (g.mono (fun _ hf => hf) fun f hf => ?_) hK
          (fun o ho => hqueued o (List.mem_append_left _ ho)) (fun o ho f hf => ?_)
          (fun o f ho hf => htyped o f (by rw [ho, hf]; exact List.mem_cons_self))
          (fun f hf => hpass f (List.mem_append_left _ (Option.mem_toList.mpr hf)))
          (fun f hf hl => hlive f (List.mem_append_left _ (mem_localsOf_head hf hl)))
          hfirst
        · exact hf.imp_right fun hf => List.mem_append.mpr hf
        · rcases hf with hf | hf
          · exact hleft o (List.mem_append_left _ ho) f hf
          · exact fun he => honce.2.2 _ (List.mem_map_of_mem ho) _ (List.mem_map_of_mem hf) he.symm
      obtain ⟨ready₁, pending₁, g₁⟩ := hdone.guarded
      have hleft' : ∀ o ∈ queuedBy cs, ∀ f, K f ∨ c' = some f → f.item ≠ o.item := by
        rintro o ho f (hf | hf)
        · exact hleft o (List.mem_append_right _ ho) f hf
        · rcases hdone.apart f hf with hk | hfresh
          · exact hleft o (List.mem_append_right _ ho) f hk
          · exact (hfresh o (hqueued o (List.mem_append_right _ ho))).symm
      have hlive' : ∀ f ∈ localsOf (cs.map Prod.snd),
          w₁.stores.FlatLive f.val.1 f.rid f.val.2 := by
        intro f hf
        refine hdone.live _ _ _ (fun x hx hl he => ?_) (hlive f (List.mem_append_right _ hf))
        exact hlocals.2.2 _ (List.mem_map_of_mem (mem_localsOf_head hx hl)) _
          (List.mem_map_of_mem hf) he
      obtain ⟨⟨ready', pending', g'⟩, hsame, hkeep⟩ := ih g₁
        (fun f hf => hf.imp_left (hK f))
        (fun o ho => .inl (hqueued o (List.mem_append_right _ ho))) hleft' honce.2.1
        (fun o f hmem => htyped o f (List.mem_cons_of_mem _ hmem))
        (fun f hf hg => .inl (hpass f (List.mem_append_right _ hf) hg)) hlive' hlocals.2.1 hrest
      refine ⟨⟨ready', pending', g'.mono ?_ ?_⟩, .cons hdone.value hsame, fun t key v hne hl => ?_⟩
      · intro f hf
        rw [rowFields_cons, List.mem_append, Option.mem_toList] at hf
        exact or_assoc.mpr hf
      · intro f hf
        rw [rowFields_cons, List.mem_append, Option.mem_toList] at hf
        exact or_assoc.mpr hf
      · refine hkeep t key v (fun f hf => hne f (List.mem_append_right _ hf))
          (hdone.live t key v (fun f hf hlocal => ?_) hl)
        exact hne f (List.mem_append_left _ (mem_localsOf_head hf hlocal))

/-- The loop for DELETE. -/
theorem fireDelete_spec {fields : List Field} {K : Field → Prop}
    (g : Guarded w S (fun f => K f ∨ f ∈ fields) ready pending) (hS : ∀ o ∈ fields, S o)
    (hleft : ∀ o ∈ fields, ∀ f, K f → f.item ≠ o.item) (honce : (fields.map Field.item).Nodup) :
    (∃ pending', Guarded (fireDelete w fields) S K ready pending') ∧
      (fireDelete w fields).stores = w.stores := by
  induction fields generalizing w pending with
  | nil => exact ⟨⟨pending, g.mono (fun _ hf => hf) fun _ hf => .inl hf⟩, rfl⟩
  | cons o os ih =>
      rw [List.map_cons, List.nodup_cons] at honce
      obtain ⟨pending₁, g₁⟩ := g.delete (fun f => K f ∨ f ∈ os) o
        (hS o List.mem_cons_self) (.inr List.mem_cons_self)
        (fun f hf => hf.imp_right (List.mem_cons_of_mem _))
        (by
          rintro f (hf | hf)
          · exact hleft o List.mem_cons_self f hf
          · exact fun he => honce.1 (List.mem_map.mpr ⟨f, hf, he⟩))
      obtain ⟨hrest, hstores⟩ := ih g₁ (fun x hx => hS x (List.mem_cons_of_mem _ hx))
        (fun x hx => hleft x (List.mem_cons_of_mem _ hx)) honce.2
      exact ⟨hrest, hstores.trans (sendDeleteReq_stores w o.val.1 o.rid)⟩

end Zeno
