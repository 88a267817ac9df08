import Zeno.Tee.Clients
import Zeno.Wal.Backend

/-!
# The insert and update trigger

`generic_delete_trigger` fires before each row of an INSERT or an UPDATE.  It
sends `CMD_PROMOTE_*` for every encrypted column that is not NULL and whose RID is
not one of the relation's partition yet, and puts the RID that comes back in the
place of the old one.

A promotion also frees the local RID that it read.  So a local RID that a second
column or a later row holds too reads as the default of its type from then on.
`trigger_keeps_iff` says that this is all that can go wrong: the values are kept
exactly if no local RID is held twice, unless it denotes the default.
-/

namespace Zeno

/-! ## Promotion -/

/-- The handler of `CMD_PROMOTE_*`. -/
def Stores.promote (st : Stores) (t : Ty) (loc target partition : RID) : Option (RID × Stores) := do
  let value ← st.get t loc
  let (rid, st') ← st.put t target value false partition
  some (rid, st'.freeLocal t loc)

theorem handleOps_promote (e : Env) (g : Gcm) (tee : Tee) (t : Ty) (loc target partition : RID) :
    handleOps e g tee (.promote t loc target partition) =
      (tee.stores.promote t loc target partition).map fun (rid, st) =>
        (.rid rid, { tee with stores := st }) := by
  simp only [handleOps, Stores.promote]
  cases tee.stores.get t loc with
  | none => rfl
  | some value =>
      cases hput : tee.stores.put t target value false partition with
      | none => simp [hput]
      | some r => simp [hput]

theorem Stores.promote_eq_some {st st' : Stores} {t : Ty} {loc target partition rid : RID} :
    st.promote t loc target partition = some (rid, st') ↔
      ∃ value u, st.get t loc = some value ∧
        st.put t target value false partition = some (rid, u) ∧ st' = u.freeLocal t loc := by
  simp only [promote, Option.bind_eq_bind, Option.bind_eq_some_iff]
  constructor
  · rintro ⟨value, hget, ⟨rid', u⟩, hput, heq⟩
    cases heq
    exact ⟨value, u, hget, hput, rfl⟩
  · rintro ⟨value, u, hget, hput, rfl⟩
    exact ⟨value, hget, (rid, u), hput, rfl⟩

/-! ## The trigger -/

/-- The events the trigger changes tuples for. -/
inductive TriggerEvent where
  | insert | update
deriving DecidableEq

/-- One call of the trigger. -/
structure Firing where
  /-- The event. -/
  event : TriggerEvent
  /-- The oid of the relation. -/
  relid : BitVec 32
  /-- The partition of the relation. -/
  partition : Partition
  /-- The trigger has computed it.  Where `relation_partition_id` refuses the oid, the trigger
  ends in an error before it reads the tuple. -/
  ofRelation : relationPartitionId relid = some partition
  /-- The columns of the new tuple. -/
  columns : List Column
  /-- PostgreSQL takes the type away from a column that it drops. -/
  typed : ∀ c ∈ columns, c.dropped = true → c.kvType = none

/-- The body of the loops over the columns.  Only the one for UPDATE asks for
`attisdropped`. -/
def fireColumn (event : TriggerEvent) (p : Partition) (st : Stores) (c : Column) :
    Option (Column × Stores) :=
  if event = .update ∧ c.dropped = true then some (c, st)
  else
    match c.kvType, c.datum with
    | some t, some rid =>
        if ridInPartition rid p then some (c, st)
        else
          (st.promote t rid invalidRid p.val).map fun (global, st') =>
            ({ c with datum := some global }, st')
    | _, _ => some (c, st)

/-- The loop over the columns. -/
def fireColumns (event : TriggerEvent) (p : Partition) (st : Stores) :
    List Column → Option (List Column × Stores)
  | [] => some ([], st)
  | c :: cs => do
      let (c', st) ← fireColumn event p st c
      let (cs', st) ← fireColumns event p st cs
      some (c' :: cs', st)

/-- The calls of a statement.  The result is the tuples returned. -/
def fireAll (st : Stores) : List Firing → Option (List (List Column) × Stores)
  | [] => some ([], st)
  | f :: fs => do
      let (out, st) ← fireColumns f.event f.partition st f.columns
      let (outs, st) ← fireAll st fs
      some (out :: outs, st)

/-- The fields of some columns: type and RID, where the column is not NULL. -/
def fieldsOf (cs : List Column) : List WalRidItem := cs.filterMap Column.item?

/-- The fields of all the tuples of a statement. -/
def statementFields (fs : List Firing) : List WalRidItem := fs.flatMap fun f => fieldsOf f.columns

/-- A column was returned as it should: its field has moved to the partition and denotes
what it denoted, and anything else is as it was. -/
def Kept (st st' : Stores) (p : Partition) (c c' : Column) : Prop :=
  match c.item? with
  | none => c' = c
  | some field =>
      ∃ rid, c' = { c with datum := some rid } ∧ islocal rid = false ∧ ridPartition rid = p.val ∧
        ∀ v, st.Denotes field.ty field.rid v → st'.Denotes field.ty rid v

/-- Two columns may hold these two fields: they differ, or are of the files, or denote
the default. -/
def Shareable (st : Stores) (f g : WalRidItem) : Prop :=
  f = g → islocal g.rid = true → st.Denotes g.ty g.rid g.ty.zero

/-! ## Fields seen before -/

section Apart

variable {α : Type} {R : α → α → Prop}

/-- A list whose members are related to those seen before and to each other. -/
def Apart (R : α → α → Prop) (seen l : List α) : Prop :=
  (∀ a ∈ seen, ∀ b ∈ l, R a b) ∧ l.Pairwise R

theorem apart_nil_right (seen : List α) : Apart R seen [] :=
  ⟨fun _ _ _ h => (nomatch h), .nil⟩

theorem apart_singleton {seen : List α} {b : α} :
    Apart R seen [b] ↔ ∀ a ∈ seen, R a b := by
  simp [Apart]

theorem apart_append {seen l l' : List α} :
    Apart R seen (l ++ l') ↔ Apart R seen l ∧ Apart R (seen ++ l) l' := by
  simp only [Apart, List.pairwise_append, List.mem_append]
  constructor
  · rintro ⟨hseen, hl, hl', hacross⟩
    refine ⟨⟨fun a ha b hb => hseen a ha b (.inl hb), hl⟩, fun a ha b hb => ?_, hl'⟩
    rcases ha with ha | ha
    · exact hseen a ha b (.inr hb)
    · exact hacross a ha b hb
  · rintro ⟨⟨hseen, hl⟩, hafter, hl'⟩
    refine ⟨fun a ha b hb => ?_, hl, hl', fun a ha b hb => hafter a (.inr ha) b hb⟩
    rcases hb with hb | hb
    · exact hseen a ha b hb
    · exact hafter a (.inl ha) b hb

end Apart

/-- The stores in the middle of a statement: the local fields seen were freed, and every
other field denotes what it did. -/
structure Midway (st₀ st : Stores) (seen : List WalRidItem) : Prop where
  freed : ∀ g ∈ seen, islocal g.rid = true → st.Freed g.ty g.rid
  held : ∀ g : WalRidItem, (islocal g.rid = true → g ∉ seen) →
    ∀ v, st₀.Denotes g.ty g.rid v → st.Denotes g.ty g.rid v

/-- What the files denote is kept. -/
def FilesKept (st st' : Stores) : Prop :=
  ∀ t key v, islocal key = false → st.Denotes t key v → st'.Denotes t key v

theorem FilesKept.trans {st st' st'' : Stores} (h : FilesKept st st') (h' : FilesKept st' st'') :
    FilesKept st st'' :=
  fun t key v hg hd => h' t key v hg (h t key v hg hd)

theorem midway_start (st : Stores) : Midway st st [] :=
  ⟨fun _ h => (nomatch h), fun _ _ _ hd => hd⟩

/-- A promotion in the middle of a statement. -/
theorem Midway.promote {st₀ st st' : Stores} {seen : List WalRidItem} {g : WalRidItem}
    {p : Partition} {rid : RID} (mid : Midway st₀ st seen)
    (hdenotes : ∃ v, st₀.Denotes g.ty g.rid v)
    (h : st.promote g.ty g.rid invalidRid p.val = some (rid, st')) :
    Midway st₀ st' (seen ++ [g]) ∧ FilesKept st st' := by
  obtain ⟨value, u, -, hput, rfl⟩ := Stores.promote_eq_some.mp h
  obtain ⟨kv, -, hu⟩ := Stores.put_global_eq_some.mp hput
  have hfiles : FilesKept st (u.freeLocal g.ty g.rid) := by
    intro t key v hg hd
    exact (hd.put_global hput).freeLocal_of_global hg
  have hstays {f : WalRidItem} (hf : st.Freed f.ty f.rid) :
      (u.freeLocal g.ty g.rid).Freed f.ty f.rid := by
    refine Stores.Freed.freeLocal ?_
    subst hu
    exact hf
  refine ⟨⟨fun f hf hl => ?_, fun f hf v hd => ?_⟩, hfiles⟩
  · rcases List.mem_append.mp hf with hold | hnew
    · exact hstays (mid.freed f hold hl)
    · obtain rfl := List.mem_singleton.mp hnew
      by_cases hseen : f ∈ seen
      · exact hstays (mid.freed f hseen hl)
      · obtain ⟨v, hv⟩ := hdenotes
        exact ((mid.held f (fun _ => hseen) v hv).put_global hput).freed hl
  · have hd' := mid.held f (fun hl hmem => hf hl (List.mem_append_left _ hmem)) v hd
    cases hl : islocal f.rid with
    | false => exact hfiles f.ty f.rid v hl hd'
    | true =>
        refine (hd'.put_global hput).freeLocal fun he => ?_
        have hsame : f = g := by
          cases f
          cases g
          cases he
          rfl
        subst hsame
        exact hf hl (List.mem_append_right _ (List.mem_singleton_self f))

/-- What is promoted in the middle of a statement. -/
theorem Midway.promoted {st₀ st st' : Stores} {seen : List WalRidItem} {g : WalRidItem}
    {p : Partition} {rid : RID} (mid : Midway st₀ st seen) {v : g.ty.Val}
    (hv : st₀.Denotes g.ty g.rid v)
    (h : st.promote g.ty g.rid invalidRid p.val = some (rid, st')) :
    islocal rid = false ∧ ridPartition rid = p.val ∧
      ((islocal g.rid = true ∧ g ∈ seen) ∧ st'.Denotes g.ty rid g.ty.zero ∨
        ¬ (islocal g.rid = true ∧ g ∈ seen) ∧ st'.Denotes g.ty rid v) := by
  obtain ⟨value, u, hget, hput, rfl⟩ := Stores.promote_eq_some.mp h
  obtain ⟨hg, hp, hd⟩ := Stores.put_global_denotes hput
  have hafter : (u.freeLocal g.ty g.rid).Denotes g.ty rid value := hd.freeLocal_of_global hg
  refine ⟨hg, hp, ?_⟩
  by_cases hseen : islocal g.rid = true ∧ g ∈ seen
  · have hzero := (mid.freed g hseen.2 hseen.1).get hseen.1
    rw [hget, Option.some.injEq] at hzero
    exact .inl ⟨hseen, hzero ▸ hafter⟩
  · have hheld := (mid.held g (fun hl hmem => hseen ⟨hl, hmem⟩) v hv).get
    rw [hget, Option.some.injEq] at hheld
    exact .inr ⟨hseen, hheld ▸ hafter⟩

theorem Midway.of_global {st₀ st : Stores} {seen : List WalRidItem} {g : WalRidItem}
    (mid : Midway st₀ st seen) (hg : islocal g.rid = false) : Midway st₀ st (seen ++ [g]) := by
  refine ⟨fun f hf hl => ?_, fun f hf v hd => ?_⟩
  · rcases List.mem_append.mp hf with hold | hnew
    · exact mid.freed f hold hl
    · rw [List.mem_singleton.mp hnew, hg] at hl
      cases hl
  · exact mid.held f (fun hl hmem => hf hl (List.mem_append_left _ hmem)) v hd

/-! ## The loops -/

/-- What the trigger does with a column that holds a field. -/
theorem fireColumn_field {event : TriggerEvent} {p : Partition} {st st' : Stores}
    {c c' : Column} {g : WalRidItem} (hitem : c.item? = some g)
    (h : fireColumn event p st c = some (c', st')) :
    ridInPartition g.rid p = true ∧ c' = c ∧ st' = st ∨
      ∃ rid, st.promote g.ty g.rid invalidRid p.val = some (rid, st') ∧
        c' = { c with datum := some rid } := by
  obtain ⟨dropped, kvType, datum⟩ := c
  cases dropped with
  | true => cases hitem
  | false =>
      cases kvType with
      | none => cases hitem
      | some t =>
          cases datum with
          | none => cases hitem
          | some rid =>
              cases hitem
              simp only [fireColumn, Bool.false_eq_true, and_false, if_false] at h
              split at h
              next hin =>
                cases h
                exact .inl ⟨hin, rfl, rfl⟩
              next =>
                obtain ⟨⟨rid', u⟩, hpromote, heq⟩ := Option.map_eq_some_iff.mp h
                cases heq
                exact .inr ⟨rid', hpromote, rfl⟩

/-- A column without a field is left as it is. -/
theorem fireColumn_none {event : TriggerEvent} {p : Partition} {st : Stores} {c : Column}
    (typed : c.dropped = true → c.kvType = none) (hitem : c.item? = none) :
    fireColumn event p st c = some (c, st) := by
  obtain ⟨dropped, kvType, datum⟩ := c
  cases dropped with
  | true =>
      obtain rfl : kvType = none := typed rfl
      simp [fireColumn]
  | false =>
      cases kvType with
      | none => simp [fireColumn]
      | some t =>
          cases datum with
          | none => simp [fireColumn]
          | some rid => cases hitem

/-- A promoted column is as it should be if its field was not seen, or denotes the default. -/
theorem kept_promoted_iff {st₀ st st' last : Stores} {seen : List WalRidItem} {g : WalRidItem}
    {p : Partition} {c : Column} {rid : RID} (mid : Midway st₀ st seen)
    (hdenotes : ∃ v, st₀.Denotes g.ty g.rid v) (hitem : c.item? = some g)
    (h : st.promote g.ty g.rid invalidRid p.val = some (rid, st')) (hlast : FilesKept st' last) :
    Kept st₀ last p c { c with datum := some rid } ↔ ∀ a ∈ seen, Shareable st₀ a g := by
  obtain ⟨v, hv⟩ := hdenotes
  obtain ⟨hg, hp, hvalue⟩ := mid.promoted hv h
  simp only [Kept, hitem]
  rcases hvalue with ⟨⟨hl, hseen⟩, hzero⟩ | ⟨hnot, hsame⟩
  · -- the field was freed before, so the default was promoted
    have hzero' := hlast g.ty rid _ hg hzero
    constructor
    · rintro ⟨rid', hc, -, -, hkeeps⟩ a ha rfl -
      obtain rfl : rid = rid' := by simpa using congrArg Column.datum hc
      rw [← (hkeeps v hv).unique hzero']
      exact hv
    · intro hshare
      refine ⟨rid, rfl, hg, hp, fun w hw => ?_⟩
      rw [hw.unique (hshare g hseen rfl hl)]
      exact hzero'
  · constructor
    · rintro - a ha rfl hl
      exact absurd ⟨hl, ha⟩ hnot
    · intro _
      refine ⟨rid, rfl, hg, hp, fun w hw => ?_⟩
      rw [hw.unique hv]
      exact hlast g.ty rid v hg hsame

/-- One column. -/
theorem fireColumn_spec {st₀ st st' : Stores} {seen : List WalRidItem} {event : TriggerEvent}
    {p : Partition} {c c' : Column} (mid : Midway st₀ st seen)
    (typed : c.dropped = true → c.kvType = none)
    (hdenotes : ∀ g ∈ c.item?, ∃ v, st₀.Denotes g.ty g.rid v)
    (h : fireColumn event p st c = some (c', st')) :
    Midway st₀ st' (seen ++ c.item?.toList) ∧ FilesKept st st' ∧
      ∀ last, FilesKept st' last →
        (Kept st₀ last p c c' ↔ Apart (Shareable st₀) seen c.item?.toList) := by
  cases hitem : c.item? with
  | none =>
      rw [fireColumn_none typed hitem] at h
      cases h
      rw [Option.toList_none, List.append_nil]
      refine ⟨mid, fun _ _ _ _ hd => hd, fun last _ => ?_⟩
      simp only [Kept, hitem, true_iff]
      exact apart_nil_right seen
  | some g =>
      have hg := hdenotes g hitem
      rw [Option.toList_some, apart_singleton]
      rcases fireColumn_field hitem h with ⟨hin, rfl, rfl⟩ | ⟨rid, hpromote, rfl⟩
      · simp only [ridInPartition, Bool.and_eq_true, Bool.not_eq_true', beq_iff_eq] at hin
        obtain ⟨hglobal, hpart⟩ := hin
        refine ⟨mid.of_global hglobal, fun _ _ _ _ hd => hd, fun last hlast => ?_⟩
        have hdatum : c'.datum = some g.rid := by
          obtain ⟨dropped, kvType, datum⟩ := c'
          cases dropped <;> cases kvType <;> cases datum <;> cases hitem
          rfl
        refine iff_of_true ?_ fun a _ _ hl => ?_
        · simp only [Kept, hitem]
          refine ⟨g.rid, by rw [← hdatum], hglobal, hpart, fun v hv => ?_⟩
          refine hlast g.ty g.rid v hglobal (mid.held g (fun hl => ?_) v hv)
          rw [hglobal] at hl
          cases hl
        · rw [hglobal] at hl
          cases hl
      · obtain ⟨hmid, hfiles⟩ := mid.promote hg hpromote
        exact ⟨hmid, hfiles, fun last hlast => kept_promoted_iff mid hg hitem hpromote hlast⟩

/-- The columns of a tuple. -/
theorem fireColumns_spec {st₀ st st' : Stores} {seen : List WalRidItem} {event : TriggerEvent}
    {p : Partition} {cs cs' : List Column} (mid : Midway st₀ st seen)
    (typed : ∀ c ∈ cs, c.dropped = true → c.kvType = none)
    (hdenotes : ∀ g ∈ fieldsOf cs, ∃ v, st₀.Denotes g.ty g.rid v)
    (h : fireColumns event p st cs = some (cs', st')) :
    Midway st₀ st' (seen ++ fieldsOf cs) ∧ FilesKept st st' ∧
      ∀ last, FilesKept st' last →
        (List.Forall₂ (Kept st₀ last p) cs cs' ↔ Apart (Shareable st₀) seen (fieldsOf cs)) := by
  induction cs generalizing st seen cs' with
  | nil =>
      cases h
      refine ⟨by simpa [fieldsOf] using mid, fun _ _ _ _ hd => hd, fun last _ => ?_⟩
      exact iff_of_true .nil (apart_nil_right seen)
  | cons c cs ih =>
      obtain ⟨⟨c₁, st₁⟩, hfirst, h⟩ := Option.bind_eq_some_iff.mp h
      obtain ⟨⟨cs₁, st₂⟩, hrest, h⟩ := Option.bind_eq_some_iff.mp h
      cases h
      have hfields : fieldsOf (c :: cs) = c.item?.toList ++ fieldsOf cs := by
        simp only [fieldsOf, List.filterMap_cons]
        cases c.item? <;> rfl
      rw [hfields] at hdenotes ⊢
      obtain ⟨hmid, hfiles, hkept⟩ := fireColumn_spec mid (typed c List.mem_cons_self)
        (fun g hg => hdenotes g (List.mem_append_left _ (Option.mem_toList.mpr hg))) hfirst
      obtain ⟨hmid', hfiles', hkept'⟩ := ih hmid (fun c hc => typed c (List.mem_cons_of_mem _ hc))
        (fun g hg => hdenotes g (List.mem_append_right _ hg)) hrest
      refine ⟨by rw [← List.append_assoc]; exact hmid', hfiles.trans hfiles', fun last hlast => ?_⟩
      rw [List.forall₂_cons, apart_append]
      exact and_congr (hkept last (hfiles'.trans hlast)) (hkept' last hlast)

/-- The tuples of a statement. -/
theorem fireAll_spec {st₀ st st' : Stores} {seen : List WalRidItem} {fs : List Firing}
    {outs : List (List Column)} (mid : Midway st₀ st seen)
    (hdenotes : ∀ g ∈ statementFields fs, ∃ v, st₀.Denotes g.ty g.rid v)
    (h : fireAll st fs = some (outs, st')) :
    FilesKept st st' ∧ ∀ last, FilesKept st' last →
      (List.Forall₂ (fun f out => List.Forall₂ (Kept st₀ last f.partition) f.columns out) fs outs ↔
        Apart (Shareable st₀) seen (statementFields fs)) := by
  induction fs generalizing st seen outs with
  | nil =>
      cases h
      exact ⟨fun _ _ _ _ hd => hd, fun last _ => iff_of_true .nil (apart_nil_right seen)⟩
  | cons f fs ih =>
      obtain ⟨⟨out, st₁⟩, hfirst, h⟩ := Option.bind_eq_some_iff.mp h
      obtain ⟨⟨outs₁, st₂⟩, hrest, h⟩ := Option.bind_eq_some_iff.mp h
      cases h
      have hfields : statementFields (f :: fs) = fieldsOf f.columns ++ statementFields fs := rfl
      rw [hfields] at hdenotes ⊢
      obtain ⟨hmid, hfiles, hkept⟩ := fireColumns_spec mid f.typed
        (fun g hg => hdenotes g (List.mem_append_left _ hg)) hfirst
      obtain ⟨hfiles', hkept'⟩ := ih hmid
        (fun g hg => hdenotes g (List.mem_append_right _ hg)) hrest
      refine ⟨hfiles.trans hfiles', fun last hlast => ?_⟩
      rw [List.forall₂_cons, apart_append]
      exact and_congr (hkept last (hfiles'.trans hlast)) (hkept' last hlast)

/-- **The trigger.**  The tuples that the calls of a statement return hold fields of the
relation's partition with the values the fields had when the statement began, exactly if
no two columns hold one local RID, unless that denotes the default of its type. -/
theorem trigger_keeps_iff {st st' : Stores} {fs : List Firing} {outs : List (List Column)}
    (hdenotes : ∀ g ∈ statementFields fs, ∃ v, st.Denotes g.ty g.rid v)
    (h : fireAll st fs = some (outs, st')) :
    List.Forall₂ (fun f out => List.Forall₂ (Kept st st' f.partition) f.columns out) fs outs ↔
      (statementFields fs).Pairwise (Shareable st) := by
  have hspec := (fireAll_spec (midway_start st) hdenotes h).2 st' fun _ _ _ _ hd => hd
  rw [hspec, Apart]
  simp

open Sessions (firstLocal)

/-- A new worker. -/
def newStores : Stores := ⟨.empty, .fresh⟩

/-- A worker that has put the literal 7. -/
def sevenStores : Stores :=
  ((newStores.put .int invalidRid 7 true Partition.default.val).map Prod.snd).getD newStores

theorem put_sevenStores :
    newStores.put .int invalidRid 7 true Partition.default.val = some (firstLocal, sevenStores) :=
  rfl

/-- The INSERT of a row of some int columns that hold the literal. -/
def insertLiteral (n : Nat) : Firing where
  event := .insert
  relid := 0x10000
  partition := .default
  ofRelation := rfl
  columns := List.replicate n ⟨false, some .int, some firstLocal⟩
  typed c hc hdropped := by
    rw [List.eq_of_mem_replicate hc] at hdropped
    cases hdropped

theorem denotes_insertLiteral (n : Nat) :
    ∀ g ∈ statementFields [insertLiteral n], ∃ v, sevenStores.Denotes g.ty g.rid v := by
  intro g hg
  have hfields : statementFields [insertLiteral n] = List.replicate n ⟨.int, firstLocal⟩ := by
    simp [statementFields, fieldsOf, insertLiteral, Column.item?]
  rw [hfields] at hg
  rw [List.eq_of_mem_replicate hg]
  exact ⟨7, (Stores.put_local_denotes put_sevenStores).2.2⟩

/-- The partition of the relation with oid 16384. -/
def orders : Partition := ⟨16384, by decide, by decide⟩

/-- A worker that has put a second int, a float, and an int of the relation. -/
def rowStores : Stores :=
  ((do
    let (_, st) ← sevenStores.put .int invalidRid 9 true Partition.default.val
    let (_, st) ← st.put .float invalidRid 0x3f800000 true Partition.default.val
    let (_, st) ← st.put .int invalidRid 5 false orders.val
    some st : Option Stores)).getD newStores

theorem denotes_rowStores :
    rowStores.Denotes .int (idx2local 0) 7 ∧ rowStores.Denotes .int (idx2local 1) 9 ∧
      rowStores.Denotes .float (idx2local 0) 0x3f800000 ∧
      rowStores.Denotes .int (orders.rid 0) 5 := by
  have hputs : ∃ st₁ st₂,
      sevenStores.put .int invalidRid 9 true Partition.default.val = some (idx2local 1, st₁) ∧
      st₁.put .float invalidRid 0x3f800000 true Partition.default.val = some (idx2local 0, st₂) ∧
      st₂.put .int invalidRid 5 false orders.val = some (orders.rid 0, rowStores) :=
    ⟨_, _, rfl, rfl, rfl⟩
  obtain ⟨st₁, st₂, hnine, hone, hfive⟩ := hputs
  have hseven := (Stores.put_local_denotes put_sevenStores).2.2
  refine ⟨?_, ?_, ?_, (Stores.put_global_denotes hfive).2.2⟩
  · exact ((hseven.put_local hnine).put_local hone).put_global hfive
  · exact ((Stores.put_local_denotes hnine).2.2.put_local hone).put_global hfive
  · exact (Stores.put_local_denotes hone).2.2.put_global hfive

/-- The INSERT of a row into a relation with three encrypted columns, one that is not
encrypted and one that was dropped. -/
def insertRow (a b c : Option RID) : Firing where
  event := .insert
  relid := 16384
  partition := orders
  ofRelation := rfl
  columns := [⟨false, some .int, a⟩, ⟨false, none, some 3⟩, ⟨true, none, none⟩,
    ⟨false, some .int, b⟩, ⟨false, some .float, c⟩]
  typed := by simp

/-- Two rows: one of new values, and one of a value of the relation with a NULL. -/
def twoInserts : List Firing :=
  [insertRow (some (idx2local 0)) (some (idx2local 1)) (some (idx2local 0)),
    insertRow (some (orders.rid 0)) (some (orders.rid 0)) none]

theorem statementFields_twoInserts : statementFields twoInserts =
    [⟨.int, idx2local 0⟩, ⟨.int, idx2local 1⟩, ⟨.float, idx2local 0⟩, ⟨.int, orders.rid 0⟩,
      ⟨.int, orders.rid 0⟩] := rfl

theorem trigger_keeps_iff_twoRows :
    ∃ outs st', fireAll rowStores twoInserts = some (outs, st') ∧
      List.Forall₂ (fun f out => List.Forall₂ (Kept rowStores st' f.partition) f.columns out)
        twoInserts outs := by
  have hrun : (fireAll rowStores twoInserts).isSome = true := by decide +kernel
  obtain ⟨⟨outs, st'⟩, h⟩ := Option.isSome_iff_exists.mp hrun
  have hdenotes : ∀ g ∈ statementFields twoInserts, ∃ v, rowStores.Denotes g.ty g.rid v := by
    obtain ⟨hseven, hnine, hone, hfive⟩ := denotes_rowStores
    rw [statementFields_twoInserts]
    simp only [List.forall_mem_cons]
    exact ⟨⟨_, hseven⟩, ⟨_, hnine⟩, ⟨_, hone⟩, ⟨_, hfive⟩, ⟨_, hfive⟩, fun _ h => (nomatch h)⟩
  refine ⟨outs, st', h, (trigger_keeps_iff hdenotes h).mpr ?_⟩
  -- the RID that two columns hold is one of the files
  have hapart : (statementFields twoInserts).Pairwise fun f g => f = g → islocal g.rid = false := by
    rw [statementFields_twoInserts]
    decide
  refine hapart.imp fun himp heq hlocal => ?_
  cases (himp heq).symm.trans hlocal

/-- A literal in two columns of one row: the second is stored as 0. -/
theorem shared_literal_lost :
    (∀ g ∈ statementFields [insertLiteral 2], ∃ v, sevenStores.Denotes g.ty g.rid v) ∧
    ∃ outs st', fireAll sevenStores [insertLiteral 2] = some (outs, st') ∧
      outs.map (·.map fun c => c.datum.bind (st'.get .int)) = [[some 7, some 0]] ∧
      ¬ List.Forall₂
        (fun f out => List.Forall₂ (Kept sevenStores st' f.partition) f.columns out)
        [insertLiteral 2] outs := by
  have hrun : (fireAll sevenStores [insertLiteral 2]).map (fun (outs, st') =>
      outs.map (·.map fun c => c.datum.bind (st'.get .int))) = some [[some 7, some 0]] := by
    decide +kernel
  obtain ⟨⟨outs, st'⟩, h, hread⟩ := Option.map_eq_some_iff.mp hrun
  refine ⟨denotes_insertLiteral 2, outs, st', h, hread, fun hkept => ?_⟩
  have hspec := (fireAll_spec (midway_start sevenStores) (denotes_insertLiteral 2) h).2 st'
    fun _ _ _ _ hd => hd
  have hpair : [WalRidItem.mk .int firstLocal, ⟨.int, firstLocal⟩].Pairwise
      (Shareable sevenStores) := (hspec.mp hkept).2
  have hzero := (List.pairwise_cons.mp hpair).1 _ (List.mem_singleton_self _) rfl rfl
  have hseven := (Stores.put_local_denotes put_sevenStores).2.2
  exact absurd (hseven.unique hzero) (by decide)

end Zeno
