import Zeno.Wal.Backend

/-!
# Recovery after a crash

A checkpoint fixes a redo point.  When the system crashes, each cell of the
files holds what it held at the redo point or at some later moment, and
recovery replays the payloads logged from the redo point on.

A field of a committed tuple is carried by a payload before its commit record.
Either that payload is replayed, or it was logged before the redo point.  In the
second case the field was promoted before the redo point, and its cells never
changed since.  Replaying cuts texts of `STRING_LENGTH` bytes or more, so both
cases give the promoted value exactly if texts are shorter.
-/

namespace Zeno

open KvMap

/-! ## Replaying a log -/

/-- `logicalmsg_redo` over a stretch of the log. -/
def replayWal (g : Gcm) (kv : KvMap) (w : List WalRecord) : Option KvMap :=
  w.foldlM (fun kv record =>
    match record with
    | .message payload => replayPayload g kv payload
    | .commit _ => some kv) kv

/-- The fields of the payloads of a stretch of the log. -/
def walFields (g : Gcm) : List WalRecord → List Field
  | [] => []
  | .message payload :: w => (openPayload g payload).getD [] ++ walFields g w
  | .commit _ :: w => walFields g w

/-- A log whose payloads open is replayed field by field. -/
theorem replayWal_eq {g : Gcm} {w : List WalRecord} {returned : List PutRecord} (kv : KvMap)
    (sound : ∀ p, .message p ∈ w → Sound g returned p) :
    replayWal g kv w = applyFields kv (walFields g w) := by
  induction w generalizing kv with
  | nil => rfl
  | cons record w ih =>
      have hrest := fun kv => ih kv fun p hp => sound p (List.mem_cons_of_mem _ hp)
      cases record with
      | message payload =>
          obtain ⟨fs, hopen, -⟩ := sound payload List.mem_cons_self
          have hreplay : replayPayload g kv payload = applyFields kv fs := by
            rw [replayPayload_eq, hopen, Option.bind_some]
          simp only [replayWal, List.foldlM_cons, hreplay, walFields, hopen, Option.getD_some,
            applyFields_append, Option.bind_eq_bind]
          exact Option.bind_congr fun kv' _ => hrest kv'
      | commit tuples => exact hrest kv

theorem mem_walFields {g : Gcm} {w : List WalRecord} {f : Field} (h : f ∈ walFields g w) :
    ∃ p, .message p ∈ w ∧ ∃ fs, openPayload g p = some fs ∧ f ∈ fs := by
  induction w with
  | nil => cases h
  | cons record w ih =>
      cases record with
      | message payload =>
          rcases List.mem_append.mp h with h | h
          · cases hopen : openPayload g payload with
            | none => simp [hopen] at h
            | some fs =>
                simp only [hopen, Option.getD_some] at h
                exact ⟨payload, List.mem_cons_self, fs, hopen, h⟩
          · obtain ⟨p, hp, hfs⟩ := ih h
            exact ⟨p, List.mem_cons_of_mem _ hp, hfs⟩
      | commit tuples =>
          obtain ⟨p, hp, hfs⟩ := ih h
          exact ⟨p, List.mem_cons_of_mem _ hp, hfs⟩

theorem mem_walFields_of_carries {g : Gcm} {w : List WalRecord} {p : List UInt8}
    {item : WalRidItem} (hp : .message p ∈ w) (h : Carries g p item) :
    ∃ f ∈ walFields g w, f.item = item := by
  obtain ⟨fs, hopen, f, hf, hitem⟩ := h
  refine ⟨f, ?_, hitem⟩
  induction w with
  | nil => cases hp
  | cons record w ih =>
      rcases List.mem_cons.mp hp with rfl | hrest
      · simp only [walFields, hopen, Option.getD_some]
        exact List.mem_append_left _ hf
      · cases record with
        | message payload => exact List.mem_append_right _ (ih hrest)
        | commit tuples => exact ih hrest

/-! ## What a crash leaves of the files -/

variable {ι : Type} [DecidableEq ι] {g : Gcm}

/-- The files in a state that a run from the redo point to the crash can pass through. -/
def Between (g : Gcm) (redo crash : Cluster ι) (kv : KvMap) : Prop :=
  ∃ s : Cluster ι, Machine.Path (Cluster.step g) Machine.free redo s ∧
    Machine.Path (Cluster.step g) Machine.free s crash ∧ kv = s.shared.kv

/-- Each cell of the files holds what it held at the redo point or later. -/
def Persisted (g : Gcm) (redo crash : Cluster ι) (image : KvMap) : Prop :=
  Mixed (Between g redo crash) image

/-- A put completed before the redo point is in the image. -/
theorem Persisted.stored {redo crash : Cluster ι} {image : KvMap} {r : PutRecord}
    (h : Persisted g redo crash image) (inv : redo.Inv g) (hr : r ∈ redo.shared.returned) :
    image.Stored r.val.1 r.rid r.val.2 := by
  refine Mixed.stored (r.claim redo.shared.kv).range h ?_
  rintro kv ⟨s, path, -, rfl⟩
  obtain ⟨hinv, hkeep⟩ := inv.puts.path (Cluster.path_shared path)
  exact ⟨(hinv.kept r (hkeep r hr).1).stored, congrArg Claim.range (hkeep r hr).2⟩

/-! ## Texts that survive the log -/

/-- Only short texts are promoted. -/
def shortTexts (_ : Cluster ι) : ClusterLabel ι → Prop
  | .promote _ val _ => Short val
  | _ => True

/-- The values at work and those promoted are short. -/
structure ShortInv (s : Shared ι) : Prop where
  running : ∀ i v, (s.pc i).val? = some v → Short v
  returned : ∀ r ∈ s.returned, Short r.val

theorem ShortInv.start {s s' : Shared ι} {i : ι} {val : Value} {target : Target}
    (inv : ShortInv s) (short : Short val) (h : s.step (.start i ⟨val, target⟩) = some s') :
    ShortInv s' := by
  obtain ⟨-, rfl⟩ := Shared.step_start h
  refine ⟨(Function.forall_update_iff s.pc fun _ pc => ∀ v, pc.val? = some v → Short v).mpr
    ⟨?_, fun j _ => inv.running j⟩, inv.returned⟩
  rintro v ⟨⟩
  exact short

theorem ShortInv.advance {s s' : Shared ι} {i : ι} (inv : ShortInv s)
    (h : s.step (.advance i) = some s') : ShortInv s' := by
  obtain ⟨m, hm, rfl⟩ := Shared.step_advance h
  obtain ⟨hval, hret⟩ := advance_val hm
  refine ⟨(Function.forall_update_iff s.pc fun _ pc => ∀ v, pc.val? = some v → Short v).mpr
    ⟨?_, fun j _ => inv.running j⟩, fun r hr => ?_⟩
  · rcases hval with hidle | hsame
    · rw [hidle]
      intro v hv
      cases hv
    · rw [hsame]
      exact inv.running i
  · rcases List.mem_append.mp hr with hr | hr
    · exact inv.returned r hr
    · exact inv.running i _ (hret r (Option.mem_toList.mp hr))

theorem ShortInv.path {kv : KvMap} {s : Cluster ι}
    (path : Machine.Path (Cluster.step g) shortTexts (Cluster.init ι kv) s) :
    ShortInv s.shared := by
  refine path.invariant (I := fun s => ShortInv s.shared)
    ⟨fun _ _ h => (nomatch h), fun _ h => nomatch h⟩ fun a l b inv ok h => ?_
  rcases Cluster.step_shared h with hsame | ⟨i, val, p, rfl, hsh⟩ | ⟨i, rfl, hsh⟩
  · exact hsame ▸ inv
  · exact inv.start ok hsh
  · exact inv.advance hsh

/-! ## Recovery -/

/-- In every run in which only short texts are promoted, recovery restores the fields of
every committed tuple.  The replay comes to an end if the texts to replay have room. -/
theorem recovery_restores_committed {kv image : KvMap} {redo crash : Cluster ι}
    {w : List WalRecord}
    (before : Machine.Path (Cluster.step g) shortTexts (Cluster.init ι kv) redo)
    (after : Machine.Path (Cluster.step g) shortTexts redo crash)
    (persisted : Persisted g redo crash image) (logged : redo.wal <+: w)
    (flushed : w <+: crash.wal) :
    ((∀ p, (image.text p).curStoreOffset +
        ((walFields g (w.drop redo.wal.length)).map (Field.bytesIn p)).sum ≤ storeSize) →
      ∃ kv', replayWal g image (w.drop redo.wal.length) = some kv') ∧
    ∀ kv', replayWal g image (w.drop redo.wal.length) = some kv' →
      ∀ tuples, .commit tuples ∈ w → ∀ tuple ∈ tuples, ∀ item ∈ tuple.fields,
        (∃ r ∈ crash.shared.returned, r.field.item = item) ∧
          ∀ r ∈ crash.shared.returned, r.field.item = item →
            ∀ loc : LocalKVStoreOperator, Stores.get ⟨loc, kv'⟩ r.val.1 r.rid = some r.val.2 := by
  have invRedo := (Cluster.inv_init kv).path before
  have inv := invRedo.path after
  have hshort := ShortInv.path (before.trans after)
  have hkeep := (invRedo.puts.path (Cluster.path_shared after)).2
  obtain ⟨tail, rfl⟩ := logged
  rw [List.drop_left]
  have hsound (p : List UInt8) (hp : .message p ∈ redo.wal ++ tail) :
      Sound g crash.shared.returned p := inv.messages p (flushed.subset hp)
  have hreplay := replayWal_eq image fun p hp => hsound p (List.mem_append_right _ hp)
  -- what is replayed was promoted, and it is not cut
  have hfield (f : Field) (hf : f ∈ walFields g tail) :
      ∃ r ∈ crash.shared.returned, r.field = f := by
    obtain ⟨p, hp, fs, hopen, hmem⟩ := mem_walFields hf
    obtain ⟨r, hr, rfl⟩ := (hsound p (List.mem_append_right _ hp)).promoted hopen hmem
    exact ⟨r, hr, (cut_of_shortValue (hshort.returned r hr)).symm⟩
  have hunique {r r' : PutRecord} (hr : r ∈ crash.shared.returned)
      (hr' : r' ∈ crash.shared.returned) (h : r.field.item = r'.field.item) : r = r' :=
    inv.puts.eq_of_slot hr hr' (congrArg (fun x : WalRidItem => slotOf x.ty x.rid) h)
  rw [hreplay]
  refine ⟨fun room => applyFields_room (fun f hf => ?_) room, ?_⟩
  · obtain ⟨r, hr, rfl⟩ := hfield f hf
    exact (inv.puts.kept r hr).stored.valid
  · intro kv' happly tuples hc tuple ht item hitem
    obtain ⟨p, hp, hcarries⟩ := inv.commits _ flushed tuples hc tuple ht item hitem
    refine ⟨(hsound p hp).carried hcarries, fun r hr hritem loc => ?_⟩
    have hstored : kv'.Stored r.val.1 r.rid r.val.2 := by
      refine applyFields_stored happly (fun f hf hfitem => ?_) ?_
      · obtain ⟨r', hr', rfl⟩ := hfield f hf
        rw [hunique hr' hr hfitem]
        rfl
      · rcases List.mem_append.mp hp with hp | hp
        · -- logged before the redo point, so promoted before it
          left
          obtain ⟨r', hr', hitem'⟩ := (invRedo.messages p hp).carried hcarries
          rw [hunique hr (hkeep r' hr').1 (hritem.trans hitem'.symm)]
          exact persisted.stored invRedo hr'
        · right
          rw [← hritem] at hcarries
          exact mem_walFields_of_carries hp hcarries
    have hglobal : islocal r.rid = false := r.partition.islocal_rid r.key
    rw [Stores.get_global hglobal]
    exact hstored.get

/-! ## One transaction -/

/-- The put of the first text. -/
def firstText (value : CStr) : PutRecord := ⟨⟨.text, value⟩, .default, 0⟩

/-- A run in which one backend promotes a text and commits a tuple of it. -/
theorem firstText_path (ok : Cluster Unit → ClusterLabel Unit → Prop) (value : CStr)
    (room : value.length + 1 ≤ storeSize)
    (promote : ∀ s i, ok s (.promote i ⟨.text, value⟩ .default))
    (other : ∀ s l, (∀ i val p, l ≠ .promote i val p) → ok s l) (iv : Iv) :
    ∃ crash, Machine.Path (Cluster.step g) ok (Cluster.init Unit .fresh) crash ∧
      crash.shared.returned = [firstText value] ∧
        crash.wal = [.message (gcmEncrypt g iv (encodeFields [(firstText value).field])).2,
          .commit [Cluster.oneField (firstText value).field.item]] := by
  obtain ⟨kv, hput⟩ : ∃ kv, KvMap.fresh.put .text value Partition.default.val =
      some (Partition.default.rid 0, kv) :=
    ⟨_, put_text_eq_some.mpr ⟨by decide, rfl, _, FileMapTextStore.place_eq_some.mpr
      ⟨by simpa [KvMap.fresh] using room, rfl⟩, rfl⟩⟩
  let s : Cluster Unit :=
    { Cluster.init Unit .fresh with shared := ⟨kv, fun _ => .idle, [firstText value]⟩ }
  have hpath : Machine.Path (Cluster.step g) ok (Cluster.init Unit .fresh) s :=
    Cluster.promote_path (fun _ => rfl) promote (fun s i => other s _ (by simp))
      (Shared.put_path (i := ()) rfl hput)
  have hkept : (firstText value).Kept s.shared.kv := KvMap.put_alive hput
  obtain ⟨crash, hcommit, hshared, hwal⟩ :=
    Cluster.commit_path (i := ()) iv other rfl rfl (List.mem_singleton.mpr rfl) hkept
  exact ⟨crash, hpath.trans hcommit, by rw [hshared], hwal⟩

/-- Replaying that transaction on empty files gives the text back, cut. -/
theorem replay_firstText (value : CStr) (iv : Iv) :
    ∃ kv, replayWal g .fresh [.message (gcmEncrypt g iv (encodeFields [(firstText value).field])).2,
        .commit [Cluster.oneField (firstText value).field.item]] = some kv ∧
      kv.get .text (firstText value).rid = some (cut .text value) := by
  have hcut : (cut .text value).length + 1 ≤ storeSize := by
    have : stringLength ≤ storeSize := by decide
    have hlen := length_cut value
    simp only [stringLength] at this hlen
    omega
  have hvalid : ValidRid .text (firstText value).rid :=
    validRid_rid (p := .default) (k := 0) (by decide)
  have hroom (p : RID) : (KvMap.fresh.text p).curStoreOffset +
      (firstText value).field.cut.bytesIn p ≤ storeSize := by
    have hle : (firstText value).field.cut.bytesIn p ≤ (cut .text value).length + 1 := by
      by_cases hp : ridPartition (firstText value).rid = p
      · exact (if_pos hp).le
      · exact (if_neg hp).le.trans (Nat.zero_le _)
    simp only [KvMap.fresh]
    omega
  obtain ⟨kv, hreplace⟩ := replace_room (f := (firstText value).field.cut) hvalid hroom
  refine ⟨kv, ?_, (KvMap.replace_stored hreplace).get⟩
  have hpayload : replayPayload g .fresh
      (gcmEncrypt g iv (encodeFields [(firstText value).field])).2 = some kv := by
    rw [replayPayload_seal]
    · simp only [List.map_cons, List.map_nil, applyFields, List.foldlM_cons, List.foldlM_nil,
        hreplace, Option.bind_eq_bind, Option.bind_some]
      rfl
    · exact Nat.le_of_ble_eq_true rfl
  simp only [replayWal, List.foldlM_cons, List.foldlM_nil, hpayload, Option.bind_eq_bind,
    Option.bind_some]
  rfl

theorem recovery_restores_committed_firstText :
    ∃ (crash : Cluster Unit) (kv : KvMap) (r : PutRecord),
      Machine.Path (Cluster.step .plain) shortTexts (Cluster.init Unit .fresh) crash ∧
        crash.shared.returned = [r] ∧ replayWal .plain .fresh crash.wal = some kv ∧
          Stores.get ⟨.empty, kv⟩ r.val.1 r.rid = some r.val.2 := by
  obtain ⟨crash, path, hreturned, hwal⟩ := firstText_path (g := .plain) shortTexts
    ⟨[97], by decide⟩ (by decide) (fun _ _ => (by decide : 1 < stringLength))
    (fun _ l hl => by cases l <;> first | trivial | exact absurd rfl (hl _ _ _)) .zero
  obtain ⟨kv, hreplay, -⟩ := replay_firstText (g := .plain) ⟨[97], by decide⟩ .zero
  rw [← hwal] at hreplay
  have hfree : Machine.Path (Cluster.step .plain) Machine.free (Cluster.init Unit .fresh) crash :=
    path.mono fun _ _ _ => trivial
  refine ⟨crash, kv, _, path, hreturned, hreplay, ?_⟩
  have hrecovery := (recovery_restores_committed .refl path (Mixed.of_state ⟨_, .refl, hfree, rfl⟩)
    List.nil_prefix List.prefix_rfl).2 kv hreplay _
    (by rw [hwal]; exact List.mem_cons_of_mem _ (List.mem_singleton.mpr rfl)) _
    (List.mem_singleton.mpr rfl) _ (List.mem_singleton.mpr rfl)
  exact hrecovery.2 _ (by rw [hreturned]; exact List.mem_singleton.mpr rfl) rfl .empty

/-- The text of `STRING_LENGTH` bytes. -/
def longText : CStr :=
  ⟨List.replicate stringLength 97, fun h => absurd (List.eq_of_mem_replicate h) (by decide)⟩

/-- A committed text of `STRING_LENGTH` bytes, promoted after the redo point, comes back
without its last byte. -/
theorem recovery_cuts_longText :
    ∃ (crash : Cluster Unit) (kv : KvMap) (tuple : HeapTuple) (r : PutRecord),
      Machine.Path (Cluster.step .plain) Machine.free (Cluster.init Unit .fresh) crash ∧
        Persisted .plain (Cluster.init Unit .fresh) crash .fresh ∧
          .commit [tuple] ∈ crash.wal ∧ r.field.item ∈ tuple.fields ∧
            r ∈ crash.shared.returned ∧ replayWal .plain .fresh crash.wal = some kv ∧
              Stores.get ⟨.empty, kv⟩ r.val.1 r.rid ≠ some r.val.2 := by
  have hlong : longText.length = stringLength := List.length_replicate
  obtain ⟨crash, path, hreturned, hwal⟩ := firstText_path (g := .plain) Machine.free longText
    (by rw [hlong]; decide) (fun _ _ => trivial) (fun _ _ _ => trivial) .zero
  obtain ⟨kv, hreplay, hget⟩ := replay_firstText (g := .plain) longText .zero
  refine ⟨crash, kv, _, firstText longText, path, Mixed.of_state ⟨_, .refl, path, rfl⟩,
    by rw [hwal]; exact List.mem_cons_of_mem _ (List.mem_singleton.mpr rfl),
    List.mem_singleton.mpr rfl, by rw [hreturned]; exact List.mem_singleton.mpr rfl,
    by rw [hwal]; exact hreplay, fun h => ?_⟩
  have hglobal : islocal (firstText longText).rid = false := Partition.islocal_rid _ _
  rw [Stores.get_global hglobal] at h
  exact cut_ne_of_long hlong.ge (Option.some.inj (hget.symm.trans h))

end Zeno
