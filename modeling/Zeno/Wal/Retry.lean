import Mathlib.Data.List.GetD
import Zeno.Wal.Format

/-!
# Recovery that is interrupted

The startup process may die while it replays the log, and recovery then starts
again from the redo point on the files as the dead attempt left them.  An
attempt is a number of payloads replayed in full and some records of the next
one.  In terms of the fields of the whole log it has replaced a prefix of them.

Replay takes fresh bytes for every text, so the files differ between one replay
and several.  What is read does not (`replay_after_attempts`): the last record
of a RID decides what it reads, a RID without a record keeps its slot, and the
bytes that a slot could run into at the old byte counter start with the same
text in either case.  A slot whose offset is beyond the byte counter, which
only an inconsistent image has, is left out.
-/

namespace Zeno

/-! ## What replacing fields writes -/

/-- The text a field places in the file of a partition. -/
def Field.textIn (p : RID) (f : Field) : Option CStr :=
  match f.val with
  | ⟨.num _, _⟩ => none
  | ⟨.text, value⟩ => if ridPartition f.rid = p then some value else none

/-- The bytes that fields place in the text file of a partition, in order. -/
def textBytes (p : RID) (fs : List Field) : List UInt8 :=
  fs.flatMap fun f => (f.textIn p).elim [] CStr.terminated

theorem textBytes_append (p : RID) (fs fs' : List Field) :
    textBytes p (fs ++ fs') = textBytes p fs ++ textBytes p fs' := by
  simp [textBytes]

/-- Replacing a field writes its text at the byte counter. -/
theorem replace_store {kv kv' : KvMap} {f : Field}
    (h : kv.replace f.val.1 f.rid f.val.2 = some kv') (p : RID) :
    (kv'.text p).store =
      (kv.text p).store.write (kv.text p).curStoreOffset (textBytes p [f]) ∧
    (kv'.text p).curStoreOffset = (kv.text p).curStoreOffset + (textBytes p [f]).length := by
  obtain ⟨rid, t, value⟩ := f
  cases t with
  | num n =>
      obtain ⟨-, rfl⟩ := KvMap.replace_num_eq_some.mp h
      simp [textBytes, Field.textIn]
  | text =>
      obtain ⟨-, s, hs, rfl⟩ := KvMap.replace_text_eq_some.mp h
      obtain ⟨-, rfl⟩ := FileMapTextStore.place_eq_some.mp hs
      by_cases hp : ridPartition rid = p
      · subst hp
        simp [textBytes, Field.textIn]
      · simp [textBytes, Field.textIn, hp, KvMap.setText_text_of_ne (Ne.symm hp)]

/-- Replacing fields writes their texts one after the other, from the byte counter on. -/
theorem applyFields_store {kv kv' : KvMap} {fs : List Field} (h : applyFields kv fs = some kv')
    (p : RID) :
    (kv'.text p).store = (kv.text p).store.write (kv.text p).curStoreOffset (textBytes p fs) := by
  induction fs generalizing kv with
  | nil =>
      cases h
      simp [textBytes]
  | cons f fs ih =>
      obtain ⟨kv₁, hreplace, hrest⟩ := applyFields_cons_eq_some.mp h
      obtain ⟨hstore, hoffset⟩ := replace_store hreplace p
      rw [ih hrest, hstore, hoffset, Mem.write_append, ← textBytes_append]
      rfl

/-- The offset of a RID that is not replaced stays. -/
theorem applyFields_offset {kv kv' : KvMap} {fs : List Field} {key : RID}
    (h : applyFields kv fs = some kv') (other : ⟨.text, key⟩ ∉ fs.map Field.item) :
    (kv'.text (ridPartition key)).offsets (ridIndex key).toNat =
      (kv.text (ridPartition key)).offsets (ridIndex key).toNat := by
  induction fs generalizing kv with
  | nil =>
      cases h
      rfl
  | cons f fs ih =>
      obtain ⟨kv₁, hreplace, hrest⟩ := applyFields_cons_eq_some.mp h
      rw [List.map_cons, List.mem_cons, not_or] at other
      rw [ih hrest other.2]
      refine (KvMap.replace_frame hreplace).offset _ _ fun heq => other.1 ?_
      obtain ⟨hty, hrid⟩ := Prod.mk.inj
        (@KvMap.slotOf_inj f.val.1 .text f.rid key (Option.some.inj heq))
      rw [Field.item, hty, hrid]

/-- After a replay, a replaced RID holds the value of its last record, whatever the files
were before. -/
theorem applyFields_listed {kv kv' kv₀ kv₀' : KvMap} {fs : List Field} {t : Ty} {key : RID}
    (h : applyFields kv fs = some kv') (h₀ : applyFields kv₀ fs = some kv₀')
    (listed : ⟨t, key⟩ ∈ fs.map Field.item) :
    ∃ value, kv'.Stored t key value ∧ kv₀'.Stored t key value := by
  induction fs generalizing kv kv₀ with
  | nil => cases listed
  | cons f fs ih =>
      obtain ⟨kv₁, hreplace, hrest⟩ := applyFields_cons_eq_some.mp h
      obtain ⟨kv₂, hreplace₀, hrest₀⟩ := applyFields_cons_eq_some.mp h₀
      by_cases hlater : ⟨t, key⟩ ∈ fs.map Field.item
      · exact ih hrest hrest₀ hlater
      · -- this is the last record of the RID
        have hitem : f.item = ⟨t, key⟩ :=
          ((List.mem_cons.mp listed).resolve_right hlater).symm
        obtain ⟨rid, t', value⟩ := f
        cases hitem
        have hagree : ∀ f' ∈ fs, f'.item = ⟨t', rid⟩ → f' = ⟨rid, ⟨t', value⟩⟩ := by
          intro f' hf' hitem'
          exact absurd (hitem' ▸ List.mem_map_of_mem hf') hlater
        exact ⟨value, applyFields_stored hrest hagree (.inl (KvMap.replace_stored hreplace)),
          applyFields_stored hrest₀ hagree (.inl (KvMap.replace_stored hreplace₀))⟩

/-! ## The first text -/

/-- The first text that fields place in the file of a partition. -/
def headText (p : RID) (fs : List Field) : Option CStr := fs.findSome? (Field.textIn p)

/-- The bytes placed start with the first text. -/
theorem textBytes_eq (p : RID) (fs : List Field) :
    (headText p fs = none ∧ textBytes p fs = []) ∨
      ∃ value rest, headText p fs = some value ∧ textBytes p fs = value.terminated ++ rest := by
  induction fs with
  | nil => exact .inl ⟨rfl, rfl⟩
  | cons f fs ih =>
      cases hf : f.textIn p with
      | none =>
          have hfirst : headText p (f :: fs) = headText p fs := by simp [headText, hf]
          have hbytes : textBytes p (f :: fs) = textBytes p fs := by simp [textBytes, hf]
          rw [hfirst, hbytes]
          exact ih
      | some value =>
          refine .inr ⟨value, textBytes p fs, ?_, ?_⟩
          · simp [headText, hf]
          · simp [textBytes, hf]

/-- Prefixes of some fields, one after the other, followed by all of them, have the same
first text. -/
theorem headText_prefixes (p : RID) (fs : List Field) (ns : List Nat) :
    headText p (ns.flatMap (fs.take ·) ++ fs) = headText p fs := by
  have htake (n : Nat) : headText p (fs.take n) = none ∨
      headText p (fs.take n) = headText p fs := by
    have hsplit : headText p fs = (headText p (fs.take n)).or (headText p (fs.drop n)) := by
      simp only [headText]
      rw [← List.findSome?_append, List.take_append_drop]
    cases hn : headText p (fs.take n) with
    | none => exact .inl rfl
    | some value =>
        rw [hn] at hsplit
        exact .inr hsplit.symm
  induction ns with
  | nil => rfl
  | cons n ns ih =>
      rw [headText, List.flatMap_cons, List.append_assoc, List.findSome?_append]
      rcases htake n with hn | hn
      · rw [headText] at hn
        rw [hn]
        exact ih
      · rw [headText] at hn ih
        rw [hn, ih]
        exact Option.or_self

/-- A scan that starts at or below an address reads the same whatever lies after a text
written at that address. -/
theorem readCStr_write {mem : Mem} {p a : Nat} (fuel : Nat) (value : CStr)
    (rest rest' : List UInt8) (h : a ≤ p) :
    (mem.write p (value.terminated ++ rest)).readCStr fuel a =
      (mem.write p (value.terminated ++ rest')).readCStr fuel a := by
  have hlen := value.length_terminated
  have hwrite (r : List UInt8) {b : Nat} (hb : b ≤ p + value.length) :
      mem.write p (value.terminated ++ r) b = mem.write p value.terminated b := by
    rw [← Mem.write_append, Mem.write_of_lt (show b < p + value.terminated.length by omega)]
  have hstop : mem.write p (value.terminated ++ rest') (p + value.length) = 0 := by
    rw [hwrite rest' (Nat.le_refl _),
      Mem.holds_write mem p value.terminated value.length (by omega)]
    simp [CStr.terminated, CStr.length]
  refine Mem.readCStr_congr hstop fuel (by omega) fun b _ hle => ?_
  rw [hwrite rest hle, hwrite rest' hle]

/-! ## Replaying again -/

/-- The offset of a text RID is not beyond the byte counter of its file. -/
def KvMap.OffsetCounted (kv : KvMap) : Ty → RID → Prop
  | .num _, _ => True
  | .text, key =>
      (kv.text (ridPartition key)).offsets (ridIndex key).toNat ≤
        (kv.text (ridPartition key)).curStoreOffset

/-- Replacing prefixes of some fields before all of them changes no reading. -/
theorem applyFields_prefixes {kv kv₁ kv₂ : KvMap} {fs : List Field} {ns : List Nat} {t : Ty}
    {key : RID} (h₁ : applyFields kv (ns.flatMap (fs.take ·) ++ fs) = some kv₁)
    (h₂ : applyFields kv fs = some kv₂)
    (hkey : ⟨t, key⟩ ∈ fs.map Field.item ∨ kv.OffsetCounted t key) :
    kv₁.get t key = kv₂.get t key := by
  by_cases listed : ⟨t, key⟩ ∈ fs.map Field.item
  · rw [applyFields_append, Option.bind_eq_some_iff] at h₁
    obtain ⟨kv₀, -, hlast⟩ := h₁
    obtain ⟨value, hstored₁, hstored₂⟩ := applyFields_listed hlast h₂ listed
    rw [hstored₁.get, hstored₂.get]
  · have hother : ⟨t, key⟩ ∉ (ns.flatMap (fs.take ·) ++ fs).map Field.item := by
      intro hmem
      obtain ⟨f, hf, hitem⟩ := List.mem_map.mp hmem
      refine listed (List.mem_map.mpr ⟨f, ?_, hitem⟩)
      rcases List.mem_append.mp hf with hf | hf
      · obtain ⟨n, -, hf⟩ := List.mem_flatMap.mp hf
        exact List.mem_of_mem_take hf
      · exact hf
    cases t with
    | num n =>
        rw [applyFields_get_other h₁ hother (kv.settled_num n key),
          applyFields_get_other h₂ listed (kv.settled_num n key)]
    | text =>
        have hcounted := hkey.resolve_left listed
        by_cases valid : KvMap.ValidRid .text key
        · obtain ⟨hp, hk⟩ := valid
          simp only [KvMap.maxKey] at hk
          simp only [KvMap.get, hp, if_false, FileMapTextStore.get, hk, if_true,
            applyFields_offset h₁ hother, applyFields_offset h₂ listed, applyFields_store h₁,
            applyFields_store h₂]
          have hhead := headText_prefixes (ridPartition key) fs ns
          rcases textBytes_eq (ridPartition key) fs with
            ⟨hnone, hbytes⟩ | ⟨value, rest, hsome, hbytes⟩
          · -- no text is placed in this file
            rcases textBytes_eq (ridPartition key) (ns.flatMap (fs.take ·) ++ fs) with
              ⟨-, hbytes'⟩ | ⟨value', _, hsome', -⟩
            · rw [hbytes, hbytes']
            · rw [hhead, hnone] at hsome'
              cases hsome'
          · rcases textBytes_eq (ridPartition key) (ns.flatMap (fs.take ·) ++ fs) with
              ⟨hnone', -⟩ | ⟨value', rest', hsome', hbytes'⟩
            · rw [hhead, hsome] at hnone'
              cases hnone'
            · rw [hhead, hsome] at hsome'
              obtain rfl := Option.some.inj hsome'
              rw [hbytes, hbytes']
              exact readCStr_write _ value _ _ hcounted
        · rw [KvMap.get_eq_none valid, KvMap.get_eq_none valid]

/-! ## Attempts -/

/-- `replay_payload`, ended after at most `n` records. -/
def replayPlaintextUpTo (n : Nat) (kv : KvMap) (data : List UInt8) : Option KvMap := do
  let (magic, data) ← Bytes.take? 4 data
  let (version, data) ← Bytes.take? 2 data
  let (nitems, data) ← Bytes.take? 2 data
  if Bytes.ofLe magic = walPayloadMagic ∧ Bytes.ofLe version = walPayloadVersion then
    let (kv, _) ← replayRecords (min n (Bytes.ofLe nitems)) kv data
    some kv
  else none

/-- `replayPayload`, ended after at most `n` records. -/
def replayPayloadUpTo (g : Gcm) (n : Nat) (kv : KvMap) (payload : List UInt8) : Option KvMap :=
  if payload.length = 0 then some kv
  else if ivSize + tagSize ≤ payload.length then do
    let plaintextLen := payload.length - ivSize - tagSize
    let (plaintext, decryptLen) ← gcmDecrypt g payload
    if decryptLen = plaintextLen then replayPlaintextUpTo n kv plaintext else none
  else none

/-- `logicalmsg_redo` for each payload of a log. -/
def replayPayloads (g : Gcm) (kv : KvMap) (ps : List (List UInt8)) : Option KvMap :=
  ps.foldlM (replayPayload g) kv

/-- An attempt that ended early. -/
structure Attempt where
  /-- The payloads replayed in full. -/
  full : Nat
  /-- The records of the next one. -/
  records : Nat

/-- What an attempt does to the files. -/
def Attempt.run (g : Gcm) (ps : List (List UInt8)) (kv : KvMap) (a : Attempt) : Option KvMap := do
  let kv ← replayPayloads g kv (ps.take a.full)
  replayPayloadUpTo g a.records kv (ps.getD a.full [])

/-- The fields of a payload that opens. -/
def payloadFields (g : Gcm) (payload : List UInt8) : List Field := (openPayload g payload).getD []

/-- A payload that `replayPayload` accepts where there is room. -/
def ValidPayload (g : Gcm) (payload : List UInt8) : Prop :=
  ∃ fs, openPayload g payload = some fs ∧ ∀ f ∈ fs, KvMap.ValidRid f.val.1 f.rid

/-- The fields an attempt replaces. -/
def Attempt.fields (g : Gcm) (ps : List (List UInt8)) (a : Attempt) : List Field :=
  (ps.take a.full).flatMap (payloadFields g) ++ (payloadFields g (ps.getD a.full [])).take a.records

theorem readRecords_take {n m : Nat} {data rest : List UInt8} {fs : List Field}
    (h : readRecords n data = some (fs, rest)) (hle : m ≤ n) :
    ∃ rest', readRecords m data = some (fs.take m, rest') := by
  obtain ⟨rs, rfl, hrs, rfl, rfl⟩ := readRecords_eq_some.mp h
  refine ⟨((rs.drop m).map Record.encode).flatten ++ rest, readRecords_eq_some.mpr
    ⟨rs.take m, List.length_take_of_le hle, fun r hr => hrs r (List.mem_of_mem_take hr), ?_,
      List.map_take.symm⟩⟩
  rw [← List.append_assoc, ← List.flatten_append, ← List.map_append, List.take_append_drop]

theorem replayPlaintextUpTo_eq {data : List UInt8} {fs : List Field} (n : Nat) (kv : KvMap)
    (h : readPlaintext data = some fs) :
    replayPlaintextUpTo n kv data = applyFields kv (fs.take n) := by
  simp only [readPlaintext, Option.bind_eq_bind, Option.bind_eq_some_iff, Prod.exists] at h
  obtain ⟨magic, data₁, hmagic, version, data₂, hversion, nitems, data₃, hnitems, h⟩ := h
  split at h
  next hok =>
    simp only [Option.bind_eq_some_iff, Prod.exists, Option.ite_none_right_eq_some] at h
    obtain ⟨fs', rest, hrecords, -, heq⟩ := h
    cases heq
    have hlen : fs.length = Bytes.ofLe nitems := by
      obtain ⟨rs, hrs, -, -, rfl⟩ := readRecords_eq_some.mp hrecords
      rw [List.length_map, hrs]
    obtain ⟨rest', htake⟩ := readRecords_take hrecords (Nat.min_le_right n _)
    have hfields : fs.take (min n (Bytes.ofLe nitems)) = fs.take n := by
      rw [← hlen]
      exact List.take_eq_take_min.symm
    simp only [replayPlaintextUpTo, hmagic, hversion, hnitems, Option.bind_eq_bind,
      Option.bind_some, hok, and_self, if_true, replayRecords_eq, htake, hfields]
    cases applyFields kv (fs.take n) with
    | none => rfl
    | some kv' => rfl
  next => cases h

theorem replayPayloadUpTo_eq {g : Gcm} {payload : List UInt8} {fs : List Field} (n : Nat)
    (kv : KvMap) (h : openPayload g payload = some fs) :
    replayPayloadUpTo g n kv payload = applyFields kv (fs.take n) := by
  unfold openPayload at h
  unfold replayPayloadUpTo
  split at h
  next hzero =>
    cases h
    simp [hzero, applyFields]
  next hzero =>
    split at h
    next hmin =>
      simp only [Option.bind_eq_bind, Option.bind_eq_some_iff, Prod.exists] at h
      obtain ⟨plaintext, decryptLen, hdecrypt, h⟩ := h
      split at h
      next hlen =>
        simp only [hzero, if_false, hmin, if_true, hdecrypt, Option.bind_eq_bind,
          Option.bind_some, hlen]
        exact replayPlaintextUpTo_eq n kv h
      next => cases h
    next => cases h

theorem ValidPayload.open_eq {g : Gcm} {payload : List UInt8} (h : ValidPayload g payload) :
    openPayload g payload = some (payloadFields g payload) := by
  obtain ⟨fs, hopen, -⟩ := h
  rw [payloadFields, hopen, Option.getD_some]

/-- Valid payloads are replayed field by field. -/
theorem replayPayloads_eq {g : Gcm} {ps : List (List UInt8)} (kv : KvMap)
    (valid : ∀ p ∈ ps, ValidPayload g p) :
    replayPayloads g kv ps = applyFields kv (ps.flatMap (payloadFields g)) := by
  induction ps generalizing kv with
  | nil => rfl
  | cons p ps ih =>
      have hp : replayPayload g kv p = applyFields kv (payloadFields g p) := by
        rw [replayPayload_eq, (valid p List.mem_cons_self).open_eq, Option.bind_some]
      rw [replayPayloads, List.foldlM_cons, hp, List.flatMap_cons, applyFields_append]
      exact Option.bind_congr fun kv' _ =>
        ih kv' fun p' hp' => valid p' (List.mem_cons_of_mem _ hp')

/-- An attempt replaces its fields. -/
theorem Attempt.run_eq {g : Gcm} {ps : List (List UInt8)} {a : Attempt} (kv : KvMap)
    (valid : ∀ p ∈ ps, ValidPayload g p) (hfull : a.full < ps.length) :
    a.run g ps kv = applyFields kv (a.fields g ps) := by
  have hnext : ps.getD a.full [] ∈ ps := by
    rw [List.getD_eq_getElem _ _ hfull]
    exact List.getElem_mem hfull
  rw [Attempt.run, Attempt.fields, applyFields_append,
    replayPayloads_eq kv fun p hp => valid p (List.mem_of_mem_take hp)]
  exact Option.bind_congr fun kv' _ =>
    replayPayloadUpTo_eq a.records kv' (valid _ hnext).open_eq

/-- The fields of an attempt are a prefix of those of the log. -/
theorem Attempt.fields_eq_take {g : Gcm} {ps : List (List UInt8)} {a : Attempt}
    (hfull : a.full < ps.length) :
    ∃ n, a.fields g ps = (ps.flatMap (payloadFields g)).take n := by
  have hsplit : ps.flatMap (payloadFields g) =
      (ps.take a.full).flatMap (payloadFields g) ++
        (payloadFields g (ps.getD a.full []) ++
          (ps.drop (a.full + 1)).flatMap (payloadFields g)) := by
    rw [← List.flatMap_cons, List.getD_eq_getElem _ _ hfull, List.getElem_cons_drop,
      ← List.flatMap_append, List.take_append_drop]
  refine ⟨((ps.take a.full).flatMap (payloadFields g)).length +
    min a.records (payloadFields g (ps.getD a.full [])).length, ?_⟩
  rw [hsplit, List.take_length_add_append, List.take_append_of_le_length (Nat.min_le_right _ _),
    Attempt.fields, ← List.take_eq_take_min]

theorem attempts_eq {g : Gcm} {ps : List (List UInt8)} {attempts : List Attempt} (kv : KvMap)
    (valid : ∀ p ∈ ps, ValidPayload g p) (hfull : ∀ a ∈ attempts, a.full < ps.length) :
    attempts.foldlM (Attempt.run g ps) kv =
      applyFields kv (attempts.flatMap (Attempt.fields g ps)) := by
  induction attempts generalizing kv with
  | nil => rfl
  | cons a attempts ih =>
      rw [List.foldlM_cons, List.flatMap_cons, applyFields_append,
        Attempt.run_eq kv valid (hfull a List.mem_cons_self)]
      exact Option.bind_congr fun kv' _ =>
        ih kv' fun a' ha' => hfull a' (List.mem_cons_of_mem _ ha')

theorem attempts_fields_eq {g : Gcm} {ps : List (List UInt8)} {attempts : List Attempt}
    (hfull : ∀ a ∈ attempts, a.full < ps.length) :
    ∃ ns : List Nat, attempts.flatMap (Attempt.fields g ps) =
      ns.flatMap ((ps.flatMap (payloadFields g)).take ·) := by
  induction attempts with
  | nil => exact ⟨[], rfl⟩
  | cons a attempts ih =>
      obtain ⟨n, hn⟩ := Attempt.fields_eq_take (g := g) (hfull a List.mem_cons_self)
      obtain ⟨ns, hns⟩ := ih fun a' ha' => hfull a' (List.mem_cons_of_mem _ ha')
      exact ⟨n :: ns, by rw [List.flatMap_cons, List.flatMap_cons, hn, hns]⟩

/-- Where there is room for all the copies, every attempt and every replay ends. -/
theorem exists_replays {g : Gcm} {kv : KvMap} {ps : List (List UInt8)} {attempts : List Attempt}
    (valid : ∀ p ∈ ps, ValidPayload g p) (hfull : ∀ a ∈ attempts, a.full < ps.length)
    (room : kv.Room
      (attempts.flatMap (Attempt.fields g ps) ++ ps.flatMap (payloadFields g))) :
    ∃ kv₀ kv₁ kv₂, attempts.foldlM (Attempt.run g ps) kv = some kv₀ ∧
      replayPayloads g kv₀ ps = some kv₁ ∧ replayPayloads g kv ps = some kv₂ ∧
      applyFields kv (attempts.flatMap (Attempt.fields g ps) ++ ps.flatMap (payloadFields g)) =
        some kv₁ ∧
      applyFields kv (ps.flatMap (payloadFields g)) = some kv₂ := by
  have hvalid : ∀ f ∈ ps.flatMap (payloadFields g), KvMap.ValidRid f.val.1 f.rid := by
    intro f hf
    obtain ⟨p, hp, hf⟩ := List.mem_flatMap.mp hf
    obtain ⟨fs, hopen, hfs⟩ := valid p hp
    rw [payloadFields, hopen, Option.getD_some] at hf
    exact hfs f hf
  have hvalid' : ∀ f ∈ attempts.flatMap (Attempt.fields g ps) ++ ps.flatMap (payloadFields g),
      KvMap.ValidRid f.val.1 f.rid := by
    intro f hf
    rcases List.mem_append.mp hf with hf | hf
    · obtain ⟨a, ha, hf⟩ := List.mem_flatMap.mp hf
      obtain ⟨n, hn⟩ := Attempt.fields_eq_take (g := g) (hfull a ha)
      rw [hn] at hf
      exact hvalid f (List.mem_of_mem_take hf)
    · exact hvalid f hf
  have room' : kv.Room (ps.flatMap (payloadFields g)) := by
    intro p
    have := room p
    rw [List.map_append, List.sum_append] at this
    omega
  obtain ⟨kv₁, hall⟩ := applyFields_room hvalid' room
  obtain ⟨kv₂, honce⟩ := applyFields_room hvalid room'
  have hsplit := hall
  rw [applyFields_append, Option.bind_eq_some_iff] at hsplit
  obtain ⟨kv₀, hattempts, hlast⟩ := hsplit
  refine ⟨kv₀, kv₁, kv₂, ?_, ?_, ?_, hall, honce⟩
  · rw [attempts_eq kv valid hfull]
    exact hattempts
  · rw [replayPayloads_eq kv₀ valid]
    exact hlast
  · rw [replayPayloads_eq kv valid]
    exact honce

/-- After any number of attempts that ended early, a complete replay reads like a single
complete replay of the original files, on every RID that has a record or whose offset is not
beyond the byte counter of its file. -/
theorem replay_after_attempts {g : Gcm} {kv : KvMap} {ps : List (List UInt8)}
    {attempts : List Attempt} (valid : ∀ p ∈ ps, ValidPayload g p)
    (hfull : ∀ a ∈ attempts, a.full < ps.length)
    (room : kv.Room
      (attempts.flatMap (Attempt.fields g ps) ++ ps.flatMap (payloadFields g))) :
    ∃ kv₀ kv₁ kv₂, attempts.foldlM (Attempt.run g ps) kv = some kv₀ ∧
      replayPayloads g kv₀ ps = some kv₁ ∧ replayPayloads g kv ps = some kv₂ ∧
      ∀ t key, ⟨t, key⟩ ∈ (ps.flatMap (payloadFields g)).map Field.item ∨
        kv.OffsetCounted t key → kv₁.get t key = kv₂.get t key := by
  obtain ⟨kv₀, kv₁, kv₂, h₀, h₁, h₂, hall, honce⟩ := exists_replays valid hfull room
  obtain ⟨ns, hns⟩ := attempts_fields_eq (g := g) hfull
  rw [hns] at hall
  exact ⟨kv₀, kv₁, kv₂, h₀, h₁, h₂, fun t key hkey => applyFields_prefixes hall honce hkey⟩

/-- Two records of texts, for the first two RIDs of the default partition. -/
def twoTexts : List Field := [⟨0, ⟨.text, letterA⟩⟩, ⟨1, ⟨.text, lettersBC⟩⟩]

/-- The payload of the two texts. -/
def twoTextsPayload : List UInt8 := (gcmEncrypt .plain .zero (encodeFields twoTexts)).2

theorem open_twoTexts : openPayload .plain twoTextsPayload = some twoTexts := by
  have hcut : twoTexts.map Field.cut = twoTexts := by
    have hA : letterA.length < stringLength := by decide
    have hBC : lettersBC.length < stringLength := by decide
    simp only [twoTexts, List.map_cons, List.map_nil, Field.cut, cut_of_short hA, cut_of_short hBC]
  rw [twoTextsPayload, openPayload_seal .plain .zero (by decide), hcut]

theorem valid_twoTexts : ∀ p ∈ [twoTextsPayload], ValidPayload .plain p := by
  intro p hp
  rw [List.mem_singleton.mp hp]
  refine ⟨twoTexts, open_twoTexts, fun f hf => ?_⟩
  simp only [twoTexts, List.mem_cons, List.not_mem_nil, or_false] at hf
  rcases hf with rfl | rfl
  · exact (by decide : KvMap.ValidRid .text 0)
  · exact (by decide : KvMap.ValidRid .text 1)

theorem fields_twoTexts : [twoTextsPayload].flatMap (payloadFields .plain) = twoTexts := by
  simp [payloadFields, open_twoTexts]

/-- The fields of an attempt that ended after one record. -/
theorem fields_oneRecord :
    [Attempt.mk 0 1].flatMap (Attempt.fields .plain [twoTextsPayload]) =
      [⟨0, ⟨.text, letterA⟩⟩] := by
  simp [Attempt.fields, payloadFields, open_twoTexts, twoTexts]

/-- Empty text files have room for all the copies. -/
theorem room_twoTexts {kv : KvMap} (h : ∀ p, (kv.text p).curStoreOffset = 0) :
    kv.Room ([Attempt.mk 0 1].flatMap (Attempt.fields .plain [twoTextsPayload]) ++
      [twoTextsPayload].flatMap (payloadFields .plain)) := by
  rw [fields_oneRecord, fields_twoTexts]
  exact KvMap.room_of_empty h (by decide)

theorem full_oneRecord : ∀ a ∈ [Attempt.mk 0 1], a.full < [twoTextsPayload].length := by
  intro a ha
  rw [List.mem_singleton.mp ha]
  decide

theorem replay_after_attempts_twoTexts :
    ∃ kv₀ kv₁ kv₂,
      [Attempt.mk 0 1].foldlM (Attempt.run .plain [twoTextsPayload]) KvMap.fresh = some kv₀ ∧
      replayPayloads .plain kv₀ [twoTextsPayload] = some kv₁ ∧
      replayPayloads .plain .fresh [twoTextsPayload] = some kv₂ ∧
      kv₁.get .text 1 = kv₂.get .text 1 := by
  obtain ⟨kv₀, kv₁, kv₂, h₀, h₁, h₂, hget⟩ := @replay_after_attempts .plain .fresh _ _
    valid_twoTexts full_oneRecord (room_twoTexts fun _ => rfl)
  rw [fields_twoTexts] at hget
  exact ⟨kv₀, kv₁, kv₂, h₀, h₁, h₂, hget .text 1 (.inl (by decide))⟩

/-- Files in which the offset of RID 5 is beyond the byte counter. -/
def staleOffset : KvMap :=
  { KvMap.fresh with
    text := fun p => { KvMap.fresh.text p with offsets := Function.update (fun _ => 0) 5 2 } }

/-- What is read for a RID without a record, from the bytes that were placed. -/
theorem get_of_bytes {kv kv' : KvMap} {fs : List Field} {key : RID} {value : CStr}
    (h : applyFields kv fs = some kv') (other : ⟨.text, key⟩ ∉ fs.map Field.item)
    (valid : KvMap.ValidRid .text key)
    (bytes : ((kv.text (ridPartition key)).store.write
        (kv.text (ridPartition key)).curStoreOffset (textBytes (ridPartition key) fs)).Holds
      ((kv.text (ridPartition key)).offsets (ridIndex key).toNat) value.terminated)
    (inside : value.length <
      storeSize - (kv.text (ridPartition key)).offsets (ridIndex key).toNat) :
    kv'.get .text key = some value := by
  obtain ⟨hp, hk⟩ := valid
  simp only [KvMap.maxKey] at hk
  simp only [KvMap.get, hp, if_false, FileMapTextStore.get, hk, if_true,
    applyFields_offset h other, applyFields_store h]
  exact Mem.readCStr_of_holds bytes inside

/-- An attempt that ended after one of two records changes what the replay leaves under a RID
without a record, whose offset is beyond the byte counter. -/
theorem attempt_changes_stale :
    (∀ p ∈ [twoTextsPayload], ValidPayload .plain p) ∧
      ∃ kv₀ kv₁ kv₂,
        [Attempt.mk 0 1].foldlM (Attempt.run .plain [twoTextsPayload]) staleOffset = some kv₀ ∧
        replayPayloads .plain kv₀ [twoTextsPayload] = some kv₁ ∧
        replayPayloads .plain staleOffset [twoTextsPayload] = some kv₂ ∧
        kv₁.get .text 5 ≠ kv₂.get .text 5 := by
  obtain ⟨kv₀, kv₁, kv₂, h₀, h₁, h₂, hall, honce⟩ := @exists_replays .plain staleOffset _ _
    valid_twoTexts full_oneRecord (room_twoTexts fun _ => rfl)
  refine ⟨valid_twoTexts, kv₀, kv₁, kv₂, h₀, h₁, h₂, ?_⟩
  rw [fields_oneRecord, fields_twoTexts] at hall
  rw [fields_twoTexts] at honce
  -- in the one case byte 2 starts the copy of the first text, in the other the second text
  have hget₁ : kv₁.get .text 5 = some letterA :=
    get_of_bytes hall (by decide) (by decide) (by unfold Mem.Holds; decide) (by decide)
  have hget₂ : kv₂.get .text 5 = some lettersBC :=
    get_of_bytes honce (by decide) (by decide) (by unfold Mem.Holds; decide) (by decide)
  rw [hget₁, hget₂]
  decide

end Zeno
