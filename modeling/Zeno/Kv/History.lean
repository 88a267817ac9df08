import Mathlib.Data.Finset.Card
import Zeno.Kv.Texts
import Zeno.Lib.Machine

/-!
# Files and what was written to them

`History` is a state of the files together with the last value that was written under
each RID, whether by a `put` or by a `replace`.  A RID that was written denotes that
value, a numeric slot that was never written is zero, and a text slot that was never
written has offset zero and reads the first text of its file (`Inv`).

Two texts can be written under any two RIDs, and they leave files that are known to the
byte (`exists_twoTexts`).
-/

namespace Zeno

open Machine KvMap

/-- A write to the files. -/
inductive FileOp where
  /-- A new field in a partition. -/
  | put (val : Value) (p : Partition)
  /-- A field under a RID that is named. -/
  | replace (key : RID) (val : Value)

/-- The files, and the last value written under each RID. -/
structure History where
  /-- The files. -/
  kv : KvMap
  /-- The last value written. -/
  last : (x : Ty × RID) → Option x.1.Val

namespace History

/-- Before any write. -/
def fresh : History := ⟨.fresh, fun _ => none⟩

/-- One write. -/
def step (f : History) : FileOp → Option History
  | .put ⟨t, value⟩ p =>
      (f.kv.put t value p.val).map fun (rid, kv) =>
        ⟨kv, Function.update f.last (t, rid) (some value)⟩
  | .replace key ⟨t, value⟩ =>
      (f.kv.replace t key value).map fun kv =>
        ⟨kv, Function.update f.last (t, key) (some value)⟩

/-- The files are reached by puts and replaces. -/
def Reachable (f : History) : Prop := Path step free fresh f

/-! ## What a write does -/

/-- A write stores a value under a RID, leaves the values of the others and the slots of the
others, and keeps what all texts have in common. -/
theorem step_written {f f' : History} {op : FileOp} (h : f.step op = some f') :
    ∃ (t : Ty) (key : RID) (value : t.Val) (bytes : Option ByteRange),
      f'.last = Function.update f.last (t, key) (some value) ∧
        f'.kv.Stored t key value ∧
        (∀ (t' : Ty) (key' : RID) (value' : t'.Val), (t', key') ≠ (t, key) →
          f.kv.Stored t' key' value' → f'.kv.Stored t' key' value') ∧
        Frame f.kv f'.kv (some (slotOf t key)) bytes ∧
        ∀ P, TextIs P ⟨t, value⟩ → f.kv.AllTexts P → f'.kv.AllTexts P := by
  cases op with
  | put val p =>
      obtain ⟨t, value⟩ := val
      obtain ⟨⟨rid, kv⟩, hput, rfl⟩ := Option.map_eq_some_iff.mp h
      exact ⟨t, rid, value, _, rfl, put_stored hput, fun _ _ _ => put_stored_ne hput,
        put_frame hput, fun _ hvalue all => all.put hput hvalue⟩
  | replace key val =>
      obtain ⟨t, value⟩ := val
      obtain ⟨kv, hreplace, rfl⟩ := Option.map_eq_some_iff.mp h
      exact ⟨t, key, value, _, rfl, replace_stored hreplace,
        fun _ _ _ => replace_stored_ne hreplace, replace_frame hreplace,
        fun _ hvalue all => all.replace hreplace hvalue⟩

/-- What the slots hold, by what was written. -/
structure Inv (f : History) : Prop where
  /-- A RID that was written denotes the last value. -/
  stored : ∀ (t : Ty) (key : RID) (value : t.Val), f.last (t, key) = some value →
    f.kv.Stored t key value
  /-- A numeric slot that was never written is zero. -/
  zero : ∀ (n : Num) (key : RID), f.last (.num n, key) = none →
    (f.kv.num n (ridPartition key)).store (ridIndex key).toNat = 0
  /-- A text slot that was never written has offset zero. -/
  offset : ∀ key, f.last (.text, key) = none →
    (f.kv.text (ridPartition key)).offsets (ridIndex key).toNat = 0
  /-- Every text slot can be read. -/
  texts : f.kv.AllTexts fun _ => True

theorem inv_fresh : fresh.Inv where
  stored _ _ _ h := nomatch h
  zero _ _ _ := rfl
  offset _ _ := rfl
  texts := allTexts_fresh trivial

theorem Inv.step {f f' : History} {op : FileOp} (inv : f.Inv) (h : f.step op = some f') :
    f'.Inv := by
  obtain ⟨t, key, value, bytes, hlast, hstored, hother, hframe, htexts⟩ := step_written h
  -- a RID never written by now is not the one written, and was never written before
  have hnone {t' : Ty} {key' : RID} (hn : f'.last (t', key') = none) :
      (t', key') ≠ (t, key) ∧ f.last (t', key') = none := by
    rw [hlast] at hn
    have hne : (t', key') ≠ (t, key) := by
      intro he
      rw [he, Function.update_self] at hn
      cases hn
    exact ⟨hne, by rwa [Function.update_of_ne hne] at hn⟩
  have hslot {t' : Ty} {key' : RID} (hne : (t', key') ≠ (t, key)) :
      some (slotOf t key) ≠ some (slotOf t' key') :=
    fun he => hne (slotOf_inj (Option.some.inj he)).symm
  constructor
  · intro t' key' value' hv
    by_cases he : (t', key') = (t, key)
    · cases he
      rw [hlast, Function.update_self] at hv
      cases hv
      exact hstored
    · rw [hlast, Function.update_of_ne he] at hv
      exact hother t' key' value' he (inv.stored t' key' value' hv)
  · intro n key' hn
    obtain ⟨hne, hn'⟩ := hnone hn
    rw [hframe.num _ _ _ (hslot hne)]
    exact inv.zero n key' hn'
  · intro key' hn
    obtain ⟨hne, hn'⟩ := hnone hn
    rw [hframe.offset _ _ (hslot hne)]
    exact inv.offset key' hn'
  · apply htexts _ _ inv.texts
    cases t with
    | num n => trivial
    | text => trivial

theorem Reachable.inv {f : History} (reach : f.Reachable) : f.Inv := by
  apply Path.invariant reach inv_fresh
  intro f op f' inv _ hstep
  exact inv.step hstep

/-! ## What a RID reads -/

/-- A number that was never written is zero. -/
theorem Inv.get_num {f : History} (inv : f.Inv) {n : Num} {key : RID}
    (valid : ValidRid (.num n) key) :
    f.kv.get (.num n) key = some ((f.last (.num n, key)).getD 0) := by
  cases hlast : f.last (.num n, key) with
  | some value => exact (inv.stored _ key value hlast).get
  | none =>
      have hzero : f.kv.Stored (.num n) key 0 := ⟨valid, inv.zero n key hlast⟩
      exact hzero.get

/-- Every text in range can be read. -/
theorem Inv.get_text {f : History} (inv : f.Inv) {key : RID} (valid : ValidRid .text key) :
    ∃ value, f.kv.get .text key = some value := by
  obtain ⟨value, -, hvalue⟩ := (inv.texts (ridPartition key)).get valid.2
  refine ⟨value, ?_⟩
  simpa only [KvMap.get, valid.1, if_false] using hvalue

/-- A text that was never written reads the start of its file. -/
theorem Inv.get_start {f : History} (inv : f.Inv) {key : RID} (valid : ValidRid .text key)
    (hlast : f.last (.text, key) = none) :
    f.kv.get .text key = (f.kv.text (ridPartition key)).store.readCStr storeSize 0 := by
  have hlt : (ridIndex key).toNat < textMaxArrayEleNum := valid.2
  simp only [KvMap.get, valid.1, if_false, FileMapTextStore.get, hlt, if_true,
    inv.offset key hlast, Nat.sub_zero]

/-- Two texts of one partition that were never written read the same. -/
theorem Inv.get_unwritten {f : History} (inv : f.Inv) {left right : RID}
    (validLeft : ValidRid .text left) (validRight : ValidRid .text right)
    (hleft : f.last (.text, left) = none) (hright : f.last (.text, right) = none)
    (part : ridPartition left = ridPartition right) :
    ∃ value, f.kv.get .text left = some value ∧ f.kv.get .text right = some value := by
  obtain ⟨value, hread⟩ := inv.get_text validLeft
  refine ⟨value, hread, ?_⟩
  rw [inv.get_start validRight hright, ← part, ← inv.get_start validLeft hleft]
  exact hread

/-! ## Files with two texts -/

/-- In the partition of a text there is another slot, whichever RIDs are taken. -/
theorem exists_spare {key : RID} (valid : ValidRid .text key) (taken : List RID)
    (few : taken.length < 8) :
    ∃ spare, ValidRid .text spare ∧ ridPartition spare = ridPartition key ∧ spare ∉ taken := by
  obtain ⟨p, hp⟩ := Partition.exists_rid valid.1
  have hpart : p.val = ridPartition key := by rw [← hp, p.ridPartition_rid]
  have hcard : (taken.map fun x => (ridIndex x).toNat).toFinset.card < (Finset.range 8).card := by
    refine (List.toFinset_card_le _).trans_lt ?_
    rwa [List.length_map, Finset.card_range]
  obtain ⟨k, hk, hnot⟩ := Finset.exists_mem_notMem_of_card_lt_card hcard
  have hlt : k < 8 := Finset.mem_range.mp hk
  refine ⟨p.rid k, validRid_rid (hlt.trans (by decide)), p.ridPartition_rid k |>.trans hpart, ?_⟩
  intro hmem
  apply hnot
  rw [List.mem_toFinset, List.mem_map]
  exact ⟨p.rid k, hmem, p.ridIndex_rid (hlt.trans (by decide))⟩

/-- A text can be written under a valid RID while there are bytes left. -/
theorem Reachable.replace {f : History} (reach : f.Reachable) {key : RID} {value : CStr}
    (valid : ValidRid .text key)
    (room : (f.kv.text (ridPartition key)).curStoreOffset + (value.length + 1) ≤ storeSize) :
    ∃ s kv', (f.kv.text (ridPartition key)).place (ridIndex key).toNat value = some s ∧
      kv' = f.kv.setText (ridPartition key) s ∧ f.kv.replace .text key value = some kv' ∧
      Reachable ⟨kv', Function.update f.last (.text, key) (some value)⟩ := by
  obtain ⟨s, hs⟩ : ∃ s, (f.kv.text (ridPartition key)).place (ridIndex key).toNat value = some s :=
    ⟨_, FileMapTextStore.place_eq_some.mpr ⟨room, rfl⟩⟩
  have hreplace := replace_text_eq_some.mpr ⟨valid, s, hs, rfl⟩
  refine ⟨s, _, hs, rfl, hreplace, ?_⟩
  refine Relation.ReflTransGen.tail reach ⟨.replace key ⟨.text, value⟩, trivial, ?_⟩
  exact Option.map_eq_some_iff.mpr ⟨_, hreplace, rfl⟩

/-- The first text of a file is what every slot of it reads that has offset zero. -/
theorem replace_first {kv kv' : KvMap} {key key' : RID} {value : CStr}
    (h : kv.replace .text key value = some kv') (valid : ValidRid .text key')
    (part : ridPartition key' = ridPartition key)
    (start : (kv.text (ridPartition key)).curStoreOffset = 0)
    (offset : (kv.text (ridPartition key)).offsets (ridIndex key').toNat = 0) :
    kv'.Stored .text key' value := by
  obtain ⟨-, s, hs, rfl⟩ := replace_text_eq_some.mp h
  refine ⟨valid, ?_⟩
  simp only [KvMap.Holds, part, setText_text_self]
  exact FileMapTextStore.place_first hs start offset

/-- The files after two texts were written under two RIDs. -/
structure TwoTexts (f : History) (key₁ key₂ : RID) (text₁ text₂ : CStr) : Prop where
  reach : f.Reachable
  /-- Nothing else was written. -/
  last : f.last = Function.update (Function.update fresh.last (Ty.text, key₁) (some text₁))
    (Ty.text, key₂) (some text₂)
  /-- The first text is what its partition reads. -/
  first : ∀ key, ValidRid .text key → ridPartition key = ridPartition key₁ → key ≠ key₂ →
    f.kv.Stored .text key text₁
  /-- The second text is what another partition reads. -/
  other : ridPartition key₂ ≠ ridPartition key₁ → ∀ key, ValidRid .text key →
    ridPartition key = ridPartition key₂ → f.kv.Stored .text key text₂
  second : f.kv.Stored .text key₂ text₂
  /-- The first text is at the start of its file. -/
  start : (f.kv.text (ridPartition key₁)).offsets (ridIndex key₁).toNat = 0
  /-- In one partition the second text lies behind the first. -/
  behind : ridPartition key₂ = ridPartition key₁ →
    (f.kv.text (ridPartition key₂)).offsets (ridIndex key₂).toNat = text₁.length + 1

theorem exists_twoTexts {key₁ key₂ : RID} (text₁ text₂ : CStr) (valid₁ : ValidRid .text key₁)
    (valid₂ : ValidRid .text key₂) (hne : key₁ ≠ key₂)
    (room : text₁.length + text₂.length + 2 ≤ storeSize) :
    ∃ f, TwoTexts f key₁ key₂ text₁ text₂ := by
  have hfresh : fresh.Reachable := .refl
  obtain ⟨s₁, kv₁, hs₁, hkv₁, hreplace₁, hreach₁⟩ := hfresh.replace valid₁
    (show 0 + (text₁.length + 1) ≤ storeSize by omega)
  obtain ⟨hcounter₁, hoffsets₁, -⟩ := FileMapTextStore.place_fields hs₁
  have hsame (hpart : ridPartition key₂ = ridPartition key₁) :
      (kv₁.text (ridPartition key₂)).curStoreOffset = text₁.length + 1 := by
    rw [hkv₁, hpart, setText_text_self, hcounter₁]
    exact Nat.zero_add _
  have hother (hpart : ridPartition key₂ ≠ ridPartition key₁) :
      kv₁.text (ridPartition key₂) = KvMap.fresh.text (ridPartition key₂) := by
    rw [hkv₁, setText_text_of_ne hpart]
    rfl
  have hroom : (kv₁.text (ridPartition key₂)).curStoreOffset + (text₂.length + 1) ≤ storeSize := by
    by_cases hpart : ridPartition key₂ = ridPartition key₁
    · rw [hsame hpart]
      omega
    · rw [hother hpart]
      show 0 + (text₂.length + 1) ≤ storeSize
      omega
  obtain ⟨s₂, kv₂, hs₂, hkv₂, hreplace₂, hreach₂⟩ := hreach₁.replace valid₂ hroom
  obtain ⟨-, hoffsets₂, -⟩ := FileMapTextStore.place_fields hs₂
  refine ⟨⟨kv₂, _⟩, hreach₂, rfl, ?_, ?_, replace_stored hreplace₂, ?_, ?_⟩
  · intro key valid hpart hkey
    have hheld := replace_first hreplace₁ valid hpart rfl rfl
    exact replace_stored_ne hreplace₂ (fun he => hkey (Prod.mk.inj he).2) hheld
  · intro hpart key valid hkey
    apply replace_first hreplace₂ valid hkey
    · show (kv₁.text (ridPartition key₂)).curStoreOffset = 0
      rw [hother hpart]
      rfl
    · show (kv₁.text (ridPartition key₂)).offsets _ = 0
      rw [hother hpart]
      rfl
  · have hslot : some (slotOf .text key₂) ≠ some (slotOf .text key₁) := by
      intro he
      exact hne (Prod.mk.inj (slotOf_inj (Option.some.inj he))).2.symm
    rw [(replace_frame hreplace₂).offset _ _ hslot, hkv₁, setText_text_self, hoffsets₁,
      Function.update_self]
    rfl
  · intro hpart
    show (kv₂.text _).offsets _ = _
    rw [hkv₂, setText_text_self, hoffsets₂, Function.update_self]
    exact hsame hpart

/-- Any text can be what an unwritten RID reads, beside a written one. -/
theorem exists_unwritten {key written : RID} (text value : CStr) (valid : ValidRid .text key)
    (validWritten : ValidRid .text written) (hne : key ≠ written)
    (room : text.length + value.length + 2 ≤ storeSize) :
    ∃ f : History, f.Reachable ∧ f.last (.text, key) = none ∧
      f.last (.text, written) = some value ∧ f.kv.get .text key = some text ∧
      f.kv.get .text written = some value := by
  obtain ⟨spare, hspare, hpart, hnot⟩ := exists_spare valid [key, written] (by simp)
  simp only [List.mem_cons, List.not_mem_nil, or_false, not_or] at hnot
  obtain ⟨f, two⟩ := exists_twoTexts text value hspare validWritten hnot.2 room
  refine ⟨f, two.reach, ?_, ?_, (two.first key valid hpart.symm hne).get, two.second.get⟩
  · rw [two.last, Function.update_of_ne (by simpa using hne),
      Function.update_of_ne (by simpa using Ne.symm hnot.1)]
    rfl
  · rw [two.last, Function.update_self]

/-- Any two texts can be what two unwritten RIDs read, if they are the same or the
partitions differ. -/
theorem exists_bothUnwritten {left right : RID} (textLeft textRight : CStr)
    (validLeft : ValidRid .text left) (validRight : ValidRid .text right)
    (apart : ridPartition right = ridPartition left → textLeft = textRight)
    (room : textLeft.length + textRight.length + 2 ≤ storeSize) :
    ∃ f : History, f.Reachable ∧ f.last (.text, left) = none ∧ f.last (.text, right) = none ∧
      f.kv.get .text left = some textLeft ∧ f.kv.get .text right = some textRight := by
  obtain ⟨spare₁, hspare₁, hpart₁, hnot₁⟩ := exists_spare validLeft [left, right] (by simp)
  obtain ⟨spare₂, hspare₂, hpart₂, hnot₂⟩ :=
    exists_spare validRight [left, right, spare₁] (by simp)
  simp only [List.mem_cons, List.not_mem_nil, or_false, not_or] at hnot₁ hnot₂
  obtain ⟨f, two⟩ := exists_twoTexts textLeft textRight hspare₁ hspare₂ (Ne.symm hnot₂.2.2) room
  have hnone {key : RID} (h₁ : spare₁ ≠ key) (h₂ : spare₂ ≠ key) : f.last (.text, key) = none := by
    rw [two.last, Function.update_of_ne (by simpa using Ne.symm h₂),
      Function.update_of_ne (by simpa using Ne.symm h₁)]
    rfl
  refine ⟨f, two.reach, hnone hnot₁.1 hnot₂.1, hnone hnot₁.2 hnot₂.2.1,
    (two.first left validLeft hpart₁.symm (Ne.symm hnot₂.1)).get, ?_⟩
  by_cases hpart : ridPartition right = ridPartition left
  · rw [← apart hpart]
    exact (two.first right validRight (hpart.trans hpart₁.symm) (Ne.symm hnot₂.2.1)).get
  · have hne : ridPartition spare₂ ≠ ridPartition spare₁ := by
      rw [hpart₁, hpart₂]
      exact hpart
    exact (two.other hne right validRight hpart₂.symm).get

end History

end Zeno
