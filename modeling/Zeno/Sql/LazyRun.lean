import Zeno.Sql.LazyDelete

/-!
# A backend with lazy delete

The machine of one backend that inserts, updates and deletes rows, commits and
aborts.  A value for a column comes from what the backend has at hand, which is a
literal with a global RID or a computed value with a local one, or from a column of
a visible row.  The rows carry the value last assigned to each field.

Every field of a visible row denotes that value, in every run in which each RID is
given up by its only holder and each computed value goes to one column
(`fields_keep_values`).
-/

namespace Zeno

/-! ## The machine -/

/-- A RID that the backend has at hand. -/
structure Temp where
  /-- The RID with its value. -/
  field : Field
  /-- It was promoted, so its slot was freed. -/
  freed : Bool

/-- Note which local RIDs a row has used up. -/
def Temp.free (row : LazyRow) (x : Temp) : Temp :=
  if x.field.item ∈ (localsOf row).map Field.item then { x with freed := true } else x

/-- Where the value of a column comes from. -/
inductive Source where
  /-- A literal or a computed value, by its number. -/
  | temp (k : Nat)
  /-- A column of a visible row. -/
  | copy (i j : Nat)

/-- A backend. -/
structure LazyBackend where
  /-- The stores and the queues. -/
  store : LazyStore
  /-- The visible rows. -/
  rows : List LazyRow
  /-- The rows an abort brings back. -/
  saved : List LazyRow
  /-- What is at hand. -/
  temps : List Temp

/-- An event of a backend. -/
inductive LazyEvent where
  /-- A literal, which `CMD_*_PUT_ENC` stores in the files. -/
  | literal (val : Value)
  /-- A computed value, in the local store. -/
  | compute (val : Value)
  /-- The INSERT of a row, NULL where there is no source. -/
  | insert (sources : List (Option Source))
  /-- The UPDATE of a row.  A column without an assignment keeps its value. -/
  | update (i : Nat) (assigned : List (Option (Option Source)))
  /-- The DELETE of a row. -/
  | delete (i : Nat)
  /-- The end of a statement: what was at hand is given up, and a SELECT clears the local
  store. -/
  | endStatement (clear : Bool)
  | commit
  | abort

namespace LazyBackend

/-- A backend that begins, with the rows there are. -/
def start (stores : Stores) (rows : List LazyRow) : LazyBackend :=
  ⟨⟨stores, fun _ => .new⟩, rows, rows, []⟩

/-- The value a source stands for. -/
def resolve (s : LazyBackend) : Source → Option (Option Field)
  | .temp k => s.temps[k]?.map fun x => some x.field
  | .copy i j => s.rows[i]?.bind fun row => row[j]?

/-- The new value of a column of an INSERT. -/
def newColumn (s : LazyBackend) : Option Source → Option (Option Field)
  | none => some none
  | some source => s.resolve source

/-- The columns of an INSERT. -/
def newColumns (s : LazyBackend) : List (Option Source) → Option LazyRow
  | [] => some []
  | source :: sources => do
      let c ← s.newColumn source
      let cs ← s.newColumns sources
      some (c :: cs)

/-- The old and the new value of a column of an UPDATE.  The types of the two agree. -/
def updatedColumn (s : LazyBackend) (old : Option Field) (assigned : Option (Option Source)) :
    Option (Option Field × Option Field) :=
  match assigned with
  | none => some (old, old)
  | some source =>
      (s.newColumn source).bind fun new =>
        match old, new with
        | some o, some f => if o.val.1 = f.val.1 then some (old, new) else none
        | _, _ => some (old, new)

/-- The columns of an UPDATE. -/
def updatedColumns (s : LazyBackend) :
    LazyRow → List (Option (Option Source)) → Option (List (Option Field × Option Field))
  | [], [] => some []
  | old :: olds, a :: as => do
      let c ← s.updatedColumn old a
      let cs ← s.updatedColumns olds as
      some (c :: cs)
  | _, _ => none

/-- Change the queues. -/
def onQueues (s : LazyBackend) (change : DeleteQueue → DeleteQueue) : LazyBackend :=
  { s with store := { s.store with queues := fun t => change (s.store.queues t) } }

/-- `CMD_LOCAL_CLEAR`. -/
def clearLocal (s : LazyBackend) : LazyBackend :=
  { s with store :=
    { s.store with stores := { s.store.stores with loc := s.store.stores.loc.clear } } }

/-- One event. -/
def step (s : LazyBackend) : LazyEvent → Option LazyBackend
  | .literal val =>
      (s.store.stores.flatPut val.1 invalidRid val.2 false).map fun (rid, st) =>
        { s with
          store := { s.store with stores := st }
          temps := s.temps ++ [⟨⟨rid, val⟩, false⟩] }
  | .compute val =>
      (s.store.stores.flatPut val.1 invalidRid val.2 true).map fun (rid, st) =>
        { s with
          store := { s.store with stores := st }
          temps := s.temps ++ [⟨⟨rid, val⟩, false⟩] }
  | .insert sources => do
      let new ← s.newColumns sources
      let (row, store) ← fireInsert s.store new
      some { s with
        store := store
        rows := s.rows ++ [row]
        temps := s.temps.map (Temp.free new) }
  | .update i assigned => do
      let old ← s.rows[i]?
      let cs ← s.updatedColumns old assigned
      let (row, store) ← fireUpdate s.store cs
      some { s with
        store := store
        rows := s.rows.set i row
        temps := s.temps.map (Temp.free (cs.map Prod.snd)) }
  | .delete i => do
      let old ← s.rows[i]?
      some { s with store := fireDelete s.store (rowFields old), rows := s.rows.eraseIdx i }
  | .endStatement clear =>
      let s' := { s with temps := [] }
      some (if clear then s'.clearLocal else s')
  | .commit => some (onQueues { s with saved := s.rows } DeleteQueue.setReuse)
  | .abort =>
      some (clearLocal (onQueues { s with rows := s.saved, temps := [] }
        DeleteQueue.discardPending))

/-! ## The condition -/

/-- What a source names was not used up before. -/
def Unused (s : LazyBackend) : Option Source → Prop
  | some (.temp k) => ∀ x ∈ s.temps[k]?, x.freed = false
  | _ => True

/-- A computed value goes to one column, and was not used up before. -/
def LocalsOnce (s : LazyBackend) (sources : List (Option Source)) (new : LazyRow) : Prop :=
  ((localsOf new).map Field.item).Nodup ∧ ∀ source ∈ sources, s.Unused source

/-- Fields that are queued hold RIDs of their own. -/
def SoleHolders (queued others : List Field) : Prop :=
  (queued.map Field.item).Nodup ∧ ∀ o ∈ queued, ∀ f ∈ others, f.item ≠ o.item

/-- The fields at hand. -/
def tempFields (s : LazyBackend) : List Field := s.temps.map Temp.field

/-- A RID is queued only by its only holder, and a computed value is used once. -/
def Careful (s : LazyBackend) : LazyEvent → Prop
  | .insert sources => ∀ new ∈ s.newColumns sources, s.LocalsOnce sources new
  | .update i assigned => ∀ old ∈ s.rows[i]?, ∀ cs ∈ s.updatedColumns old assigned,
      s.LocalsOnce (assigned.map fun a => a.getD none) (cs.map Prod.snd) ∧
        SoleHolders (queuedBy cs)
          (tableFields (s.rows.eraseIdx i) ++ rowFields (cs.map Prod.snd) ++ s.tempFields)
  | .delete i => ∀ old ∈ s.rows[i]?,
      SoleHolders (rowFields old) (tableFields (s.rows.eraseIdx i) ++ s.tempFields)
  | _ => True

/-! ## The invariant -/

/-- A field that is visible or at hand, with a global RID. -/
def Visible (s : LazyBackend) (f : Field) : Prop :=
  f ∈ tableFields s.rows ∨ f ∈ s.tempFields ∧ flatIslocal f.rid = false

/-- A field that is visible, at hand, or brought back by an abort. -/
def Reachable (s : LazyBackend) (f : Field) : Prop := s.Visible f ∨ f ∈ tableFields s.saved

/-- What every run keeps. -/
structure Inv (s : LazyBackend) : Prop where
  guarded : ∃ ready pending, Guarded s.store s.Reachable s.Visible ready pending
  live : ∀ x ∈ s.temps, flatIslocal x.field.rid = true → x.freed = false →
    s.store.stores.FlatLive x.field.val.1 x.field.rid x.field.val.2

theorem inv_start {stores : Stores} {rows : List LazyRow}
    (h : ∀ f ∈ tableFields rows, stores.FlatAlive f.val.1 f.rid f.val.2) :
    (start stores rows).Inv := by
  refine ⟨⟨fun _ => [], fun _ => [], fun _ => DeleteQueue.holds_new, ?_, ?_, ?_, ?_, ?_⟩, ?_⟩
  · rintro f ((hf | ⟨hf, -⟩) | hf)
    · exact h f hf
    · cases hf
    · exact h f hf
  · exact fun _ _ hr => nomatch hr
  · exact fun _ => List.nodup_nil
  · exact fun _ _ hr => nomatch hr
  · exact fun _ _ hr => nomatch hr
  · exact fun _ hx => nomatch hx

/-! ## Where the fields of a row come from -/

/-- A field is one of a visible row, or one at hand that is named as a source. -/
def Origin (s : LazyBackend) (sources : List (Option Source)) (f : Field) : Prop :=
  f ∈ tableFields s.rows ∨
    ∃ k x, some (.temp k) ∈ sources ∧ s.temps[k]? = some x ∧ x.field = f

theorem Origin.mono {s : LazyBackend} {sources sources' : List (Option Source)} {f : Field}
    (h : s.Origin sources f) (hsub : ∀ x ∈ sources, x ∈ sources') : s.Origin sources' f := by
  rcases h with h | ⟨k, x, hk, hx⟩
  · exact .inl h
  · exact .inr ⟨k, x, hsub _ hk, hx⟩

theorem mem_tableFields {rows : List LazyRow} {i : Nat} {row : LazyRow} {f : Field}
    (hi : rows[i]? = some row) (hf : f ∈ rowFields row) : f ∈ tableFields rows :=
  List.mem_flatMap.mpr ⟨row, List.mem_of_getElem? hi, hf⟩

theorem mem_rowFields {row : LazyRow} {f : Field} : f ∈ rowFields row ↔ some f ∈ row := by
  simp [rowFields]

theorem newColumn_origin {s : LazyBackend} {source : Option Source} {f : Field}
    (h : s.newColumn source = some (some f)) : s.Origin [source] f := by
  cases source with
  | none => cases h
  | some source =>
      cases source with
      | temp k =>
          obtain ⟨x, hx, heq⟩ := Option.map_eq_some_iff.mp h
          cases heq
          exact .inr ⟨k, x, List.mem_singleton_self _, hx, rfl⟩
      | copy i j =>
          obtain ⟨row, hrow, hj⟩ := Option.bind_eq_some_iff.mp h
          exact .inl (mem_tableFields hrow (mem_rowFields.mpr (List.mem_of_getElem? hj)))

theorem newColumns_origin {s : LazyBackend} {sources : List (Option Source)} {new : LazyRow}
    (h : s.newColumns sources = some new) : ∀ f ∈ rowFields new, s.Origin sources f := by
  induction sources generalizing new with
  | nil =>
      cases h
      exact fun _ hf => nomatch hf
  | cons source sources ih =>
      obtain ⟨c, hc, h⟩ := Option.bind_eq_some_iff.mp h
      obtain ⟨cs, hcs, h⟩ := Option.bind_eq_some_iff.mp h
      cases h
      intro f hf
      rw [rowFields_cons, List.mem_append, Option.mem_toList] at hf
      rcases hf with hf | hf
      · rw [hf] at hc
        refine (newColumn_origin hc).mono fun x hx => ?_
        rw [List.mem_singleton.mp hx]
        exact List.mem_cons_self
      · exact (ih hcs f hf).mono fun x hx => List.mem_cons_of_mem _ hx

/-- The columns of an UPDATE: the old row, and new fields of the same types. -/
structure Updated (s : LazyBackend) (old : LazyRow) (sources : List (Option Source))
    (cs : List (Option Field × Option Field)) : Prop where
  olds : cs.map Prod.fst = old
  typed : ∀ o f, (some o, some f) ∈ cs → o.val.1 = f.val.1
  origin : ∀ f ∈ rowFields (cs.map Prod.snd), f ∈ rowFields old ∨ s.Origin sources f

theorem updatedColumn_spec {s : LazyBackend} {old : Option Field}
    {assigned : Option (Option Source)} {c : Option Field × Option Field}
    (h : s.updatedColumn old assigned = some c) :
    c.1 = old ∧ (∀ o f, c = (some o, some f) → o.val.1 = f.val.1) ∧
      ∀ f, c.2 = some f → old = some f ∨ s.Origin [assigned.getD none] f := by
  cases assigned with
  | none =>
      cases h
      refine ⟨rfl, fun o f he => ?_, fun f hf => .inl hf⟩
      obtain ⟨ho, hf⟩ := Prod.mk.inj he
      rw [ho] at hf
      cases hf
      rfl
  | some source =>
      obtain ⟨new, hnew, h⟩ := Option.bind_eq_some_iff.mp h
      have horigin : ∀ f, new = some f → s.Origin [source] f := by
        rintro f rfl
        exact newColumn_origin hnew
      cases old with
      | none =>
          cases h
          exact ⟨rfl, fun o f he => (nomatch (Prod.mk.inj he).1), fun f hf => .inr (horigin f hf)⟩
      | some o =>
          cases new with
          | none =>
              cases h
              exact ⟨rfl, fun o f he => (nomatch (Prod.mk.inj he).2), fun f hf => nomatch hf⟩
          | some f =>
              simp only [Option.ite_none_right_eq_some, Option.some.injEq] at h
              obtain ⟨hty, rfl⟩ := h
              refine ⟨rfl, fun o' f' he => ?_, fun f' hf' => .inr (horigin f' hf')⟩
              cases he
              exact hty

theorem updatedColumns_spec {s : LazyBackend} {old : LazyRow}
    {assigned : List (Option (Option Source))} {cs : List (Option Field × Option Field)}
    (h : s.updatedColumns old assigned = some cs) :
    s.Updated old (assigned.map fun a => a.getD none) cs := by
  induction old generalizing assigned cs with
  | nil =>
      cases assigned with
      | nil =>
          cases h
          exact ⟨rfl, fun _ _ hmem => (nomatch hmem), fun _ hf => nomatch hf⟩
      | cons a as => cases h
  | cons o os ih =>
      cases assigned with
      | nil => cases h
      | cons a as =>
          obtain ⟨c, hc, h⟩ := Option.bind_eq_some_iff.mp h
          obtain ⟨cs', hcs, h⟩ := Option.bind_eq_some_iff.mp h
          cases h
          obtain ⟨hold, htyped, horigin⟩ := updatedColumn_spec hc
          have hrest := ih hcs
          refine ⟨by rw [List.map_cons, hold, hrest.olds], fun o' f hmem => ?_, fun f hf => ?_⟩
          · rcases List.mem_cons.mp hmem with he | hmem
            · exact htyped o' f he.symm
            · exact hrest.typed o' f hmem
          · rw [List.map_cons, rowFields_cons, List.mem_append, Option.mem_toList] at hf
            rw [rowFields_cons, List.mem_append, Option.mem_toList]
            rcases hf with hf | hf
            · refine (horigin f hf).imp .inl fun ho => ho.mono fun x hx => ?_
              rw [List.mem_singleton.mp hx]
              exact List.mem_cons_self
            · exact (hrest.origin f hf).imp .inr fun ho =>
                ho.mono fun x hx => List.mem_cons_of_mem _ hx

theorem mem_queuedBy {cs : List (Option Field × Option Field)} {o : Field}
    (h : o ∈ queuedBy cs) : o ∈ rowFields (cs.map Prod.fst) := by
  obtain ⟨⟨old, new⟩, hmem, hc⟩ := List.mem_filterMap.mp h
  refine mem_rowFields.mpr (List.mem_map.mpr ⟨(old, new), hmem, ?_⟩)
  cases old with
  | none => cases hc
  | some o' =>
      cases new with
      | none => cases hc
      | some f =>
          simp only [Option.ite_none_right_eq_some, Option.some.injEq] at hc
          rw [hc.2]

/-! ## The events -/

theorem Inv.alive {s : LazyBackend} (inv : s.Inv) {f : Field} (hf : s.Reachable f) :
    s.store.stores.FlatAlive f.val.1 f.rid f.val.2 := by
  obtain ⟨ready, pending, g⟩ := inv.guarded
  exact g.alive f hf

/-- A global field of a new row is visible. -/
theorem Origin.visible {s : LazyBackend} {sources : List (Option Source)} {f : Field}
    (h : s.Origin sources f) (hg : flatIslocal f.rid = false) : s.Visible f := by
  rcases h with h | ⟨k, x, -, hx, rfl⟩
  · exact .inl h
  · exact .inr ⟨List.mem_map_of_mem (List.mem_of_getElem? hx), hg⟩

/-- A local field of a new row is in use. -/
theorem Inv.origin_live {s : LazyBackend} (inv : s.Inv) {sources : List (Option Source)}
    {new : LazyRow} {f : Field} (honce : s.LocalsOnce sources new) (h : s.Origin sources f)
    (hl : flatIslocal f.rid = true) : s.store.stores.FlatLive f.val.1 f.rid f.val.2 := by
  rcases h with h | ⟨k, x, hk, hx, rfl⟩
  · have hg := (inv.alive (.inl (.inl h))).global
    exact nomatch hl.symm.trans hg
  · exact inv.live x (List.mem_of_getElem? hx) hl (honce.2 _ hk x hx)

theorem mem_localsOf {row : LazyRow} {f : Field} :
    f ∈ localsOf row ↔ f ∈ rowFields row ∧ flatIslocal f.rid = true := by
  simp [localsOf]

/-- The backend after the trigger has returned a row.  `K` are the fields that stay visible
beside it. -/
theorem Inv.fire {s t : LazyBackend} (inv : s.Inv) (sources : List (Option Source))
    {cs : List (Option Field × Option Field)} {row : LazyRow} {store : LazyStore}
    {K : Field → Prop} (hfire : fireUpdate s.store cs = some (row, store))
    (hK : ∀ f, K f → s.Visible f)
    (hqueued : ∀ o ∈ queuedBy cs, s.Visible o)
    (hleft : ∀ o ∈ queuedBy cs, ∀ f, K f → f.item ≠ o.item)
    (honce : ((queuedBy cs).map Field.item).Nodup)
    (htyped : ∀ o f, (some o, some f) ∈ cs → o.val.1 = f.val.1)
    (hpass : ∀ f ∈ rowFields (cs.map Prod.snd), flatIslocal f.rid = false → K f)
    (horigin : ∀ f ∈ localsOf (cs.map Prod.snd), s.Origin sources f)
    (hlocals : s.LocalsOnce sources (cs.map Prod.snd))
    (hstore : t.store = store) (hsaved : t.saved = s.saved)
    (hrows : ∀ f ∈ tableFields t.rows, K f ∨ f ∈ rowFields row)
    (htemps : t.temps = s.temps.map (Temp.free (cs.map Prod.snd)))
    (hkept : ∀ f ∈ s.tempFields, flatIslocal f.rid = false → K f) : t.Inv := by
  obtain ⟨ready, pending, g⟩ := inv.guarded
  have hfree (x : Temp) : (Temp.free (cs.map Prod.snd) x).field = x.field := by
    unfold Temp.free
    split <;> rfl
  obtain ⟨⟨ready', pending', g'⟩, -, hlive⟩ := fireUpdate_spec
    (g.mono (fun _ hf => hf) fun f hf => hf.elim (hK f) (hqueued f))
    (fun f hf => .inl (hK f hf)) (fun o ho => .inl (hqueued o ho)) hleft honce htyped hpass
    (fun f hf => inv.origin_live hlocals (horigin f hf) (mem_localsOf.mp hf).2) hlocals.1 hfire
  have hvisible (f : Field) (hf : t.Visible f) : K f ∨ f ∈ rowFields row := by
    rcases hf with hf | ⟨hf, hg⟩
    · exact hrows f hf
    · rw [tempFields, htemps, List.map_map] at hf
      obtain ⟨x, hx, rfl⟩ := List.mem_map.mp hf
      rw [Function.comp_apply, hfree] at hg ⊢
      exact .inl (hkept _ (List.mem_map_of_mem hx) hg)
  refine ⟨⟨ready', pending', hstore ▸ g'.mono (fun f hf => ?_) hvisible⟩, fun x hx hl hfreed => ?_⟩
  · rcases hf with hf | hf
    · exact (hvisible f hf).imp_left fun hk => .inl (hK f hk)
    · rw [hsaved] at hf
      exact .inl (.inr hf)
  · rw [htemps] at hx
    obtain ⟨y, hy, rfl⟩ := List.mem_map.mp hx
    by_cases hused : y.field.item ∈ (localsOf (cs.map Prod.snd)).map Field.item
    · rw [Temp.free, if_pos hused] at hfreed
      cases hfreed
    · have hsame : Temp.free (cs.map Prod.snd) y = y := if_neg hused
      rw [hsame] at hl hfreed ⊢
      rw [hstore]
      refine hlive _ _ _ (fun f hf he => hused ?_) (inv.live y hy hl hfreed)
      exact List.mem_map.mpr ⟨f, hf, he⟩

theorem Inv.insert {s t : LazyBackend} (inv : s.Inv) {sources : List (Option Source)}
    (hok : s.Careful (.insert sources)) (h : s.step (.insert sources) = some t) : t.Inv := by
  obtain ⟨new, hnew, h⟩ := Option.bind_eq_some_iff.mp h
  obtain ⟨⟨row, store⟩, hfire, h⟩ := Option.bind_eq_some_iff.mp h
  cases h
  rw [fireInsert_eq] at hfire
  have hsnd : (new.map fun c => ((none : Option Field), c)).map Prod.snd = new := by
    simp [Function.comp_def]
  have hnone : queuedBy (new.map fun c => (none, c)) = [] := by
    simp [queuedBy, List.filterMap_map]
  have horigin := newColumns_origin hnew
  refine inv.fire sources (K := s.Visible) hfire (fun _ hf => hf) ?_ ?_ ?_ ?_ ?_ ?_ ?_
    rfl rfl ?_ (by rw [hsnd]) fun f hf hg => .inr ⟨hf, hg⟩
  · rw [hnone]
    exact List.forall_mem_nil _
  · rw [hnone]
    exact List.forall_mem_nil _
  · rw [hnone]
    exact List.nodup_nil
  · intro o f hmem
    obtain ⟨c, -, he⟩ := List.mem_map.mp hmem
    cases he
  · rw [hsnd]
    exact fun f hf hg => (horigin f hf).visible hg
  · rw [hsnd]
    exact fun f hf => horigin f (mem_localsOf.mp hf).1
  · rw [hsnd]
    exact hok new hnew
  · intro f hf
    rw [tableFields, List.flatMap_append, List.mem_append] at hf
    refine hf.imp .inl fun hf => ?_
    simpa using hf

theorem mem_tableFields_set {rows : List LazyRow} {i : Nat} {row : LazyRow} {f : Field}
    (h : f ∈ tableFields (rows.set i row)) :
    f ∈ tableFields (rows.eraseIdx i) ∨ f ∈ rowFields row := by
  obtain ⟨r, hr, hf⟩ := List.mem_flatMap.mp h
  obtain ⟨j, hj⟩ := List.mem_iff_getElem?.mp hr
  by_cases hij : i = j
  · subst hij
    rw [List.getElem?_set_self'] at hj
    obtain ⟨_, _, hrow⟩ := Option.map_eq_some_iff.mp hj
    have hsame : row = r := hrow
    exact .inr (hsame ▸ hf)
  · rw [List.getElem?_set_ne hij] at hj
    exact .inl (List.mem_flatMap.mpr
      ⟨r, List.mem_eraseIdx_iff_getElem?.mpr ⟨j, Ne.symm hij, hj⟩, hf⟩)

theorem mem_tableFields_of_eraseIdx {rows : List LazyRow} {i : Nat} {f : Field}
    (h : f ∈ tableFields (rows.eraseIdx i)) : f ∈ tableFields rows := by
  obtain ⟨r, hr, hf⟩ := List.mem_flatMap.mp h
  exact List.mem_flatMap.mpr ⟨r, List.mem_of_mem_eraseIdx hr, hf⟩

theorem Inv.update {s t : LazyBackend} (inv : s.Inv) {i : Nat}
    {assigned : List (Option (Option Source))} (hok : s.Careful (.update i assigned))
    (h : s.step (.update i assigned) = some t) : t.Inv := by
  obtain ⟨old, hold, h⟩ := Option.bind_eq_some_iff.mp h
  obtain ⟨cs, hcs, h⟩ := Option.bind_eq_some_iff.mp h
  obtain ⟨⟨row, store⟩, hfire, h⟩ := Option.bind_eq_some_iff.mp h
  cases h
  obtain ⟨hlocals, honce, hleft⟩ := hok old hold cs hcs
  have hcols := updatedColumns_spec hcs
  have holdVisible (f : Field) (hf : f ∈ rowFields old) : s.Visible f :=
    .inl (mem_tableFields hold hf)
  have hnew (f : Field) (hf : f ∈ rowFields (cs.map Prod.snd))
      (hg : flatIslocal f.rid = false) : s.Visible f :=
    (hcols.origin f hf).elim (holdVisible f) fun ho => ho.visible hg
  refine inv.fire (assigned.map fun a => a.getD none)
    (K := fun f => f ∈ tableFields (s.rows.eraseIdx i) ∨
      (f ∈ rowFields (cs.map Prod.snd) ∨ f ∈ s.tempFields) ∧ flatIslocal f.rid = false)
    hfire ?_ ?_ ?_ honce hcols.typed (fun f hf hg => .inr ⟨.inl hf, hg⟩) ?_ hlocals rfl rfl ?_ rfl
    fun f hf hg => .inr ⟨.inr hf, hg⟩
  · rintro f (hf | ⟨hf | hf, hg⟩)
    · exact .inl (mem_tableFields_of_eraseIdx hf)
    · exact hnew f hf hg
    · exact .inr ⟨hf, hg⟩
  · exact fun o ho => holdVisible o (hcols.olds ▸ mem_queuedBy ho)
  · rintro o ho f (hf | ⟨hf | hf, -⟩)
    · exact hleft o ho f (List.mem_append_left _ (List.mem_append_left _ hf))
    · exact hleft o ho f (List.mem_append_left _ (List.mem_append_right _ hf))
    · exact hleft o ho f (List.mem_append_right _ hf)
  · intro f hf
    obtain ⟨hmem, hl⟩ := mem_localsOf.mp hf
    refine (hcols.origin f hmem).resolve_left fun hin => ?_
    exact nomatch hl.symm.trans (inv.alive (.inl (holdVisible f hin))).global
  · exact fun f hf => (mem_tableFields_set hf).imp_left .inl

theorem Inv.delete {s t : LazyBackend} (inv : s.Inv) {i : Nat} (hok : s.Careful (.delete i))
    (h : s.step (.delete i) = some t) : t.Inv := by
  obtain ⟨old, hold, h⟩ := Option.bind_eq_some_iff.mp h
  cases h
  obtain ⟨honce, hleft⟩ := hok old hold
  obtain ⟨ready, pending, g⟩ := inv.guarded
  have holdVisible (f : Field) (hf : f ∈ rowFields old) : s.Visible f :=
    .inl (mem_tableFields hold hf)
  have hsub (f : Field) (hf : f ∈ tableFields (s.rows.eraseIdx i) ∨
      f ∈ s.tempFields ∧ flatIslocal f.rid = false) : s.Visible f :=
    hf.imp_left mem_tableFields_of_eraseIdx
  obtain ⟨⟨pending', g'⟩, hstores⟩ := fireDelete_spec
    (g.mono (fun _ hf => hf) fun f hf => hf.elim (hsub f) (holdVisible f))
    (fun o ho => .inl (holdVisible o ho))
    (by
      rintro o ho f (hf | ⟨hf, -⟩)
      · exact hleft o ho f (List.mem_append_left _ hf)
      · exact hleft o ho f (List.mem_append_right _ hf)) honce
  refine ⟨⟨ready, pending', g'.mono (fun f hf => hf.imp_left (hsub f)) fun _ hf => hf⟩, ?_⟩
  intro x hx hl hfreed
  exact (inv.live x hx hl hfreed).of_loc (by rw [hstores])

theorem Inv.literal {s t : LazyBackend} (inv : s.Inv) {val : Value}
    (h : s.step (.literal val) = some t) : t.Inv := by
  obtain ⟨⟨rid, st⟩, hput, heq⟩ := Option.map_eq_some_iff.mp h
  cases heq
  obtain ⟨ready, pending, g⟩ := inv.guarded
  obtain ⟨g', -⟩ := g.fresh hput
  have hnew := (g'.alive ⟨rid, val⟩ (.inr rfl)).global
  have hvisible (f : Field) (hf : f ∈ tableFields s.rows ∨
      f ∈ (s.temps ++ [Temp.mk ⟨rid, val⟩ false]).map Temp.field ∧ flatIslocal f.rid = false) :
      s.Visible f ∨ f = ⟨rid, val⟩ := by
    rcases hf with hf | ⟨hf, hg⟩
    · exact .inl (.inl hf)
    · rw [List.map_append, List.mem_append] at hf
      exact hf.imp (fun hf => .inr ⟨hf, hg⟩) List.mem_singleton.mp
  refine ⟨⟨ready, pending, g'.mono (fun f hf => ?_) hvisible⟩, fun x hx hl hfreed => ?_⟩
  · rcases hf with hf | hf
    · exact (hvisible f hf).imp_left .inl
    · exact .inl (.inr hf)
  · rcases List.mem_append.mp hx with hx | hx
    · exact (inv.live x hx hl hfreed).of_loc (Stores.flatPut_fresh hput).1
    · rw [List.mem_singleton.mp hx] at hl
      exact nomatch hl.symm.trans hnew

theorem Inv.compute {s t : LazyBackend} (inv : s.Inv) {val : Value}
    (h : s.step (.compute val) = some t) : t.Inv := by
  obtain ⟨⟨rid, st⟩, hput, heq⟩ := Option.map_eq_some_iff.mp h
  cases heq
  obtain ⟨ready, pending, g⟩ := inv.guarded
  obtain ⟨hkv, hnew, hkeep⟩ := Stores.flatPut_local hput
  have hvisible (f : Field) (hf : f ∈ tableFields s.rows ∨
      f ∈ (s.temps ++ [Temp.mk ⟨rid, val⟩ false]).map Temp.field ∧ flatIslocal f.rid = false) :
      s.Visible f := by
    rcases hf with hf | ⟨hf, hg⟩
    · exact .inl hf
    · rw [List.map_append, List.mem_append] at hf
      rcases hf with hf | hf
      · exact .inr ⟨hf, hg⟩
      · rw [List.mem_singleton.mp hf] at hg
        exact nomatch hg.symm.trans hnew.isLocal
  refine ⟨⟨ready, pending, (g.of_kv hkv).mono (fun f hf => hf.imp_left (hvisible f)) hvisible⟩,
    fun x hx hl hfreed => ?_⟩
  rcases List.mem_append.mp hx with hx | hx
  · exact hkeep (inv.live x hx hl hfreed)
  · rw [List.mem_singleton.mp hx]
    exact hnew

theorem Inv.endStatement {s t : LazyBackend} (inv : s.Inv) {clear : Bool}
    (h : s.step (.endStatement clear) = some t) : t.Inv := by
  obtain ⟨ready, pending, g⟩ := inv.guarded
  have hvisible (f : Field) (hf : f ∈ tableFields s.rows ∨
      f ∈ ([] : List Field) ∧ flatIslocal f.rid = false) : s.Visible f :=
    .inl (hf.resolve_right fun hf => nomatch hf.1)
  have g' := g.mono (fun f (hf : (f ∈ tableFields s.rows ∨ f ∈ ([] : List Field) ∧
    flatIslocal f.rid = false) ∨ f ∈ tableFields s.saved) => hf.imp_left (hvisible f)) hvisible
  cases clear with
  | false =>
      cases h
      exact ⟨⟨ready, pending, g'⟩, fun _ hx => nomatch hx⟩
  | true =>
      cases h
      exact ⟨⟨ready, pending, g'.of_kv rfl⟩, fun _ hx => nomatch hx⟩

/-- At a commit what was pending may be reused, and nothing else comes back. -/
theorem Inv.commit {s t : LazyBackend} (inv : s.Inv) (h : s.step .commit = some t) : t.Inv := by
  cases h
  obtain ⟨ready, pending, g⟩ := inv.guarded
  have hnext (t : Ty) : ∃ ready', (s.store.queues t).setReuse.Holds ready' [] ∧
      ready'.Nodup ∧ ∀ r ∈ ready', r ∈ ready t ++ pending t := by
    rcases (g.holds t).setReuse with hall | hnone
    · exact ⟨_, hall, g.nodup t, fun _ hr => hr⟩
    · exact ⟨[], hnone, List.nodup_nil, fun _ hr => nomatch hr⟩
  choose ready' hholds hnodup hsub using hnext
  have hreach (f : Field) (hf : s.Visible f ∨ f ∈ tableFields s.rows) : s.Visible f :=
    hf.elim id .inl
  refine ⟨⟨ready', fun _ => [], hholds, fun f hf => g.alive f (.inl (hreach f hf)),
    fun t r hr => ?_, fun t => ?_, fun f hf hr => ?_, fun _ _ hr => nomatch hr⟩, inv.live⟩
  · rw [List.append_nil] at hr
    exact g.queued t r (hsub t r hr)
  · rw [List.append_nil]
    exact hnodup t
  · rcases List.mem_append.mp (hsub _ _ hr) with hr | hp
    · exact g.ready_apart f (.inl (hreach f hf)) hr
    · exact g.pending_apart f (hreach f hf) hp

/-- At an abort the rows come back that nothing could have overwritten. -/
theorem Inv.abort {s t : LazyBackend} (inv : s.Inv) (h : s.step .abort = some t) : t.Inv := by
  cases h
  obtain ⟨ready, pending, g⟩ := inv.guarded
  have hback (f : Field) (hf : (f ∈ tableFields s.saved ∨
      f ∈ ([] : List Field) ∧ flatIslocal f.rid = false) ∨ f ∈ tableFields s.saved) :
      s.Reachable f :=
    .inr (hf.elim (fun hf => hf.resolve_right fun hf => nomatch hf.1) id)
  refine ⟨⟨ready, fun _ => [], fun t => (g.holds t).discardPending, fun f hf => ?_,
    fun t r hr => ?_, fun t => ?_, fun f hf => g.ready_apart f (hback f hf),
    fun _ _ hr => nomatch hr⟩, fun _ hx => nomatch hx⟩
  · exact (g.alive f (hback f hf)).of_kv rfl
  · rw [List.append_nil] at hr
    obtain ⟨v, hv⟩ := g.queued t r (List.mem_append_left _ hr)
    exact ⟨v, hv.of_kv rfl⟩
  · rw [List.append_nil]
    exact (List.nodup_append.mp (g.nodup t)).1

theorem Inv.step {s t : LazyBackend} (inv : s.Inv) {event : LazyEvent} (hok : s.Careful event)
    (h : s.step event = some t) : t.Inv := by
  cases event with
  | literal val => exact inv.literal h
  | compute val => exact inv.compute h
  | insert sources => exact inv.insert hok h
  | update i assigned => exact inv.update hok h
  | delete i => exact inv.delete hok h
  | endStatement clear => exact inv.endStatement h
  | commit => exact inv.commit h
  | abort => exact inv.abort h

/-- **Lazy delete.**  In every run in which a RID is queued only by its only holder and a
computed value is used once, each field of a visible row denotes the value last assigned
to it. -/
theorem fields_keep_values {stores : Stores} {rows : List LazyRow} {s : LazyBackend}
    (hrows : ∀ f ∈ tableFields rows, stores.FlatAlive f.val.1 f.rid f.val.2)
    (path : Machine.Path step Careful (start stores rows) s) :
    ∀ f ∈ tableFields s.rows, s.store.stores.flatGet f.val.1 f.rid = some f.val.2 := by
  have inv : s.Inv :=
    path.invariant (inv_start hrows) fun _ _ _ inv hok hstep => inv.step hok hstep
  exact fun f hf => (inv.alive (.inl (.inl hf))).get

instance (s : LazyBackend) : DecidablePred s.Unused
  | some (.temp _) => inferInstanceAs (Decidable (∀ x ∈ _, _))
  | some (.copy _ _) => inferInstanceAs (Decidable True)
  | none => inferInstanceAs (Decidable True)

instance (s : LazyBackend) (sources : List (Option Source)) (new : LazyRow) :
    Decidable (s.LocalsOnce sources new) :=
  inferInstanceAs (Decidable (_ ∧ _))

instance (queued others : List Field) : Decidable (SoleHolders queued others) :=
  inferInstanceAs (Decidable (_ ∧ _))

instance (s : LazyBackend) (event : LazyEvent) : Decidable (s.Careful event) := by
  cases event <;> unfold Careful <;> infer_instance

/-- What the fields of the visible rows read as, beside the values assigned. -/
def readings (s : LazyBackend) : List (Value × Option Value) :=
  (tableFields s.rows).map fun f =>
    (f.val, (s.store.stores.flatGet f.val.1 f.rid).map (Sigma.mk f.val.1))

/-- A backend on an empty table. -/
def emptyTable : LazyBackend := start ⟨.empty, .fresh⟩ []

/-- A row is updated, and the next row reuses the RID that it gave up. -/
def updateThenInsert : List LazyEvent :=
  [.compute ⟨.int, 7⟩, .insert [some (.temp 0)], .endStatement false, .commit,
    .compute ⟨.int, 8⟩, .update 0 [some (some (.temp 0))], .endStatement false, .commit,
    .compute ⟨.int, 9⟩, .insert [some (.temp 0)], .endStatement false, .commit]

/-- A row is copied and deleted, and the next row reuses the RID that the copy holds. -/
def copyThenDelete : List LazyEvent :=
  [.compute ⟨.int, 7⟩, .insert [some (.temp 0)], .endStatement false,
    .insert [some (.copy 0 0)], .delete 0, .commit,
    .compute ⟨.int, 9⟩, .insert [some (.temp 0)]]

theorem fields_keep_values_updateThenInsert :
    ∃ s, Machine.Path step Careful emptyTable s ∧
      (tableFields s.rows).map (fun f => (f.rid, f.val)) = [(1, ⟨.int, 8⟩), (0, ⟨.int, 9⟩)] ∧
      ∀ f ∈ tableFields s.rows, s.store.stores.flatGet f.val.1 f.rid = some f.val.2 := by
  have hrun : (Machine.runOk step Careful emptyTable updateThenInsert).map
      (fun s => (tableFields s.rows).map fun f => (f.rid, f.val)) =
        some [(1, ⟨.int, 8⟩), (0, ⟨.int, 9⟩)] := by decide +kernel
  obtain ⟨s, hs, hfields⟩ := Option.map_eq_some_iff.mp hrun
  have path : Machine.Path step Careful (start ⟨.empty, .fresh⟩ []) s := Machine.path_of_runOk hs
  exact ⟨s, path, hfields, fields_keep_values (by simp [tableFields]) path⟩

/-- The row that was copied was assigned 7 and reads as 9. -/
theorem copied_field_overwritten :
    ∃ s, Machine.Path step Machine.free emptyTable s ∧
      s.readings = [(⟨.int, 7⟩, some ⟨.int, 9⟩), (⟨.int, 9⟩, some ⟨.int, 9⟩)] ∧
      ∃ f ∈ tableFields s.rows, s.store.stores.flatGet f.val.1 f.rid ≠ some f.val.2 := by
  have hrun : (Machine.run step emptyTable copyThenDelete).map readings =
      some [(⟨.int, 7⟩, some ⟨.int, 9⟩), (⟨.int, 9⟩, some ⟨.int, 9⟩)] := by decide +kernel
  obtain ⟨s, hs, hread⟩ := Option.map_eq_some_iff.mp hrun
  refine ⟨s, Machine.path_of_run (fun _ _ _ => trivial) hs, hread, ?_⟩
  have hfirst : ((⟨.int, 7⟩, some ⟨.int, 9⟩) : Value × Option Value) ∈ s.readings := by
    rw [hread]
    exact List.mem_cons_self
  obtain ⟨f, hf, heq⟩ := List.mem_map.mp hfirst
  obtain ⟨hval, hgot⟩ := Prod.mk.inj heq
  refine ⟨f, hf, fun hsame => ?_⟩
  rw [hsame] at hgot
  have hval' : some f.val = some ⟨.int, 9⟩ := hgot
  rw [hval] at hval'
  exact absurd hval' (by decide)

end LazyBackend

end Zeno
