import Zeno.Kv.Local

/-!
# All texts of a store

A slot of a text file that was never written has offset zero.  So it reads the text
placed first, or the empty one if there is none.  Every slot of a file that
was filled from the front therefore reads some text that was placed there:
`AllTexts P` says that all of them satisfy `P`, and that each lies below the byte counter.
It is kept by every `put` and `replace` of a text that satisfies `P`.

`Stores.AllTexts` adds the slots of the local store, freed ones included.
-/

namespace Zeno

variable {P : CStr → Prop}

/-- A value is a number, or a text with the property. -/
def TextIs (P : CStr → Prop) : Value → Prop
  | ⟨.num _, _⟩ => True
  | ⟨.text, value⟩ => P value

/-! ## One file -/

namespace FileMapTextStore

/-- Every slot of the file reads a text with the property.  Before the first text is placed
all slots read the empty text at offset zero. -/
inductive AllTexts (P : CStr → Prop) (s : FileMapTextStore) : Prop where
  | empty (start : s.curStoreOffset = 0) (offsets : ∀ k, s.offsets k = 0) (zero : s.store 0 = 0)
      (holds : P .empty)
  | filled (texts : ∀ k, ∃ value, P value ∧ s.Holds k value)

/-- The fields of a file in which a text was placed. -/
theorem place_fields {s s' : FileMapTextStore} {key : Nat} {value : CStr}
    (h : s.place key value = some s') :
    s'.curStoreOffset = s.curStoreOffset + (value.length + 1) ∧
      s'.offsets = Function.update s.offsets key s.curStoreOffset ∧
      s'.store = s.store.write s.curStoreOffset value.terminated := by
  obtain ⟨-, rfl⟩ := place_eq_some.mp h
  exact ⟨rfl, rfl, rfl⟩

/-- A text below the counter stays when another is placed. -/
theorem Holds.place {s s' : FileMapTextStore} {key key' : Nat} {value value' : CStr}
    (held : s.Holds key' value') (h : s.place key value = some s') (hne : key' ≠ key) :
    s'.Holds key' value' := by
  obtain ⟨hcounter, hoffsets, hstore⟩ := place_fields h
  have hoff : s'.offsets key' = s.offsets key' := by
    rw [hoffsets, Function.update_of_ne hne]
  have hbelow := held.below
  constructor
  · rw [hoff, hstore]
    apply held.bytes.congr
    intro a _ hlt
    rw [CStr.length_terminated] at hlt
    exact Mem.write_of_lt (by omega)
  · omega
  · rw [hoff]
    exact held.inside

/-- The first text placed is what every other slot reads. -/
theorem place_first {s s' : FileMapTextStore} {key key' : Nat} {value : CStr}
    (h : s.place key value = some s') (start : s.curStoreOffset = 0)
    (offset : s.offsets key' = 0) : s'.Holds key' value := by
  have hplaced := place_holds h
  obtain ⟨-, hoffsets, -⟩ := place_fields h
  have hsame : s'.offsets key' = s'.offsets key := by
    rw [hoffsets, Function.update_self, start]
    by_cases hk : key' = key
    · rw [hk, Function.update_self]
    · rw [Function.update_of_ne hk, offset]
  constructor
  · rw [hsame]
    exact hplaced.bytes
  · rw [hsame]
    exact hplaced.below
  · rw [hsame]
    exact hplaced.inside

theorem AllTexts.place {s s' : FileMapTextStore} {key : Nat} {value : CStr} (all : s.AllTexts P)
    (h : s.place key value = some s') (hvalue : P value) : s'.AllTexts P := by
  apply AllTexts.filled
  intro k
  cases all with
  | empty start offsets zero holds => exact ⟨value, hvalue, place_first h start (offsets k)⟩
  | filled texts =>
      by_cases hk : k = key
      · subst hk
        exact ⟨value, hvalue, place_holds h⟩
      · obtain ⟨value', hvalue', held⟩ := texts k
        exact ⟨value', hvalue', held.place h hk⟩

/-- Every slot can be read. -/
theorem AllTexts.get {s : FileMapTextStore} (all : s.AllTexts P) {key : Nat}
    (hkey : key < textMaxArrayEleNum) : ∃ value, P value ∧ s.get key = some value := by
  simp only [FileMapTextStore.get, hkey, if_true]
  cases all with
  | empty start offsets zero holds =>
      refine ⟨.empty, holds, ?_⟩
      rw [offsets key]
      apply Mem.readCStr_of_holds
      · intro i hi
        obtain rfl : i = 0 := by simpa [CStr.terminated, CStr.empty] using hi
        exact zero
      · show 0 < storeSize - 0
        decide
  | filled texts =>
      obtain ⟨value, hvalue, held⟩ := texts key
      exact ⟨value, hvalue, held.readCStr⟩

theorem AllTexts.of_get {s : FileMapTextStore} (all : s.AllTexts P) {key : Nat} {value : CStr}
    (h : s.get key = some value) : P value := by
  have hkey : key < textMaxArrayEleNum := by
    simp only [FileMapTextStore.get, Option.ite_none_right_eq_some] at h
    exact h.1
  obtain ⟨value', hvalue', h'⟩ := all.get hkey
  cases h.symm.trans h'
  exact hvalue'

end FileMapTextStore

/-! ## All files -/

namespace KvMap

/-- Every slot of every text file reads a text with the property. -/
def AllTexts (P : CStr → Prop) (kv : KvMap) : Prop := ∀ p, (kv.text p).AllTexts P

theorem allTexts_fresh (h : P .empty) : fresh.AllTexts P :=
  fun _ => .empty rfl (fun _ => rfl) rfl h

theorem AllTexts.setText {kv : KvMap} (all : kv.AllTexts P) {p : RID} {s : FileMapTextStore}
    (hs : s.AllTexts P) : (kv.setText p s).AllTexts P := by
  intro q
  by_cases hq : q = p
  · subst hq
    rw [setText_text_self]
    exact hs
  · rw [setText_text_of_ne hq]
    exact all q

/-- A text with the property, or a number, can be put. -/
theorem AllTexts.put {kv kv' : KvMap} (all : kv.AllTexts P) {t : Ty} {value : t.Val} {p rid : RID}
    (h : kv.put t value p = some (rid, kv')) (hvalue : TextIs P ⟨t, value⟩) : kv'.AllTexts P := by
  cases t with
  | num n =>
      simp only [KvMap.put, Option.ite_none_left_eq_some, Option.bind_eq_bind,
        Option.bind_eq_some_iff, Option.ite_none_right_eq_some] at h
      obtain ⟨-, ⟨key, s⟩, -, -, heq⟩ := h
      cases heq
      exact all
  | text =>
      simp only [KvMap.put, Option.ite_none_left_eq_some, Option.bind_eq_bind,
        Option.bind_eq_some_iff, Option.ite_none_right_eq_some, FileMapTextStore.put,
        Option.map_eq_some_iff] at h
      obtain ⟨-, ⟨key, s⟩, ⟨-, s', hplace, heq⟩, -, heq'⟩ := h
      cases heq
      cases heq'
      have hfile : ({ kv.text p with curRid := (kv.text p).curRid + 1 } : FileMapTextStore).AllTexts
          P := by
        cases all p with
        | empty start offsets zero holds => exact .empty start offsets zero holds
        | filled texts =>
            refine .filled fun k => ?_
            obtain ⟨v, hv, held⟩ := texts k
            exact ⟨v, hv, held.bytes, held.below, held.inside⟩
      exact all.setText (hfile.place hplace hvalue)

/-- A text with the property, or a number, can replace a field. -/
theorem AllTexts.replace {kv kv' : KvMap} (all : kv.AllTexts P) {t : Ty} {key : RID}
    {value : t.Val} (h : kv.replace t key value = some kv')
    (hvalue : TextIs P ⟨t, value⟩) : kv'.AllTexts P := by
  cases t with
  | num n =>
      obtain ⟨-, rfl⟩ := replace_num_eq_some.mp h
      exact all
  | text =>
      obtain ⟨-, s, hs, rfl⟩ := replace_text_eq_some.mp h
      exact all.setText ((all _).place hs hvalue)

theorem AllTexts.of_get {kv : KvMap} (all : kv.AllTexts P) {key : RID} {value : CStr}
    (h : kv.get .text key = some value) : P value := by
  simp only [KvMap.get, Option.ite_none_left_eq_some] at h
  exact (all _).of_get h.2

end KvMap

/-! ## The stores of a worker -/

namespace Stores

/-- Every text a RID of any kind reads has the property. -/
structure AllTexts (P : CStr → Prop) (st : Stores) : Prop where
  /-- The slots of the local store, in use or not. -/
  loc : ∀ v ∈ (st.loc .text).raw.store, P v
  /-- The slots of the files. -/
  kv : st.kv.AllTexts P

theorem AllTexts.of_get {st : Stores} (all : st.AllTexts P) {key : RID} {value : CStr}
    (h : st.get .text key = some value) : P value := by
  unfold Stores.get at h
  split at h
  · exact all.loc value (List.mem_of_getElem? h)
  · exact all.kv.of_get h

theorem AllTexts.put {st st' : Stores} (all : st.AllTexts P) {t : Ty} {key rid partition : RID}
    {value : t.Val} {isLocal : Bool} (h : st.put t key value isLocal partition = some (rid, st'))
    (hvalue : TextIs P ⟨t, value⟩) : st'.AllTexts P := by
  unfold Stores.put at h
  split at h
  · obtain ⟨⟨k, s⟩, hput, heq⟩ := Option.map_eq_some_iff.mp h
    cases heq
    refine ⟨?_, all.kv⟩
    cases t with
    | num n => exact all.loc
    | text =>
        have hv : P value := hvalue
        simp only [LocalKVStoreOperator.set, Function.update_self]
        obtain ⟨rest, -, hraw⟩ | ⟨-, -, -, hraw⟩ :=
          ReusableLocalKVStore.put_eq_some (LocalStore.put_raw hput)
        · rw [hraw]
          intro v hmem
          rcases List.mem_or_eq_of_mem_set hmem with hold | rfl
          · exact all.loc v hold
          · exact hv
        · rw [hraw]
          intro v hmem
          rcases List.mem_append.mp hmem with hold | hnew
          · exact all.loc v hold
          · rw [List.mem_singleton.mp hnew]
            exact hv
  · split at h
    · obtain ⟨kv, hreplace, heq⟩ := Option.map_eq_some_iff.mp h
      cases heq
      exact ⟨all.loc, all.kv.replace hreplace hvalue⟩
    · obtain ⟨⟨rid', kv⟩, hput, heq⟩ := Option.map_eq_some_iff.mp h
      cases heq
      exact ⟨all.loc, all.kv.put hput hvalue⟩

/-- A freed slot is reset to the empty text. -/
theorem AllTexts.freeLocal {st : Stores} (all : st.AllTexts P) (hempty : P .empty) (t : Ty)
    (key : RID) : (st.freeLocal t key).AllTexts P := by
  unfold Stores.freeLocal
  split
  · refine ⟨?_, all.kv⟩
    cases t with
    | num n => exact all.loc
    | text =>
        simp only [LocalKVStoreOperator.set, Function.update_self, LocalStore.erase,
          ReusableLocalKVStore.erase]
        split
        · intro v hmem
          rcases List.mem_or_eq_of_mem_set hmem with hold | rfl
          · exact all.loc v hold
          · exact hempty
        · exact all.loc
  · exact all

end Stores

end Zeno
