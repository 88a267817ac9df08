import Zeno.Lib.CStr

/-!
# Parts of strings

`List.atPositions` is the specification of a part of a list: the elements at the
positions, counted from 1, that have a property.  For an interval of positions it
drops a front and takes what follows (`atPositions_between`).

`CStr.strncpy` copies bytes of a string from an offset on.  It works on the memory
around the string (`CStr.Around`) and returns the offsets it reads beside the bytes
it copies, so that one can say whether it stays in the string.  From an offset in
the string it does, and it copies a part of it (`strncpy_inside`).  From any other
offset the first read is outside (`mem_strncpy`).
-/

namespace List

variable {α : Type*}

/-- The elements at the positions with a property. -/
def atPositions (l : List α) (p : Int → Bool) : List α :=
  (l.zipIdx.filter fun x => p (x.2 + 1)).map Prod.fst

@[simp] theorem atPositions_nil (p : Int → Bool) : ([] : List α).atPositions p = [] := rfl

theorem atPositions_cons (a : α) (l : List α) (p : Int → Bool) :
    (a :: l).atPositions p =
      (if p 1 then [a] else []) ++ l.atPositions fun i => p (i + 1) := by
  have hrest : ((l.zipIdx 1).filter fun x => p (x.2 + 1)).map Prod.fst =
      l.atPositions fun i => p (i + 1) := by
    rw [zipIdx_succ, filter_map, map_map]
    rfl
  rw [atPositions, zipIdx_cons, filter_cons, ← hrest]
  split
  next h => rw [if_pos (by simpa using h)]; rfl
  next h => rw [if_neg (by simpa using h)]; rfl

theorem mem_of_mem_atPositions {l : List α} {p : Int → Bool} {a : α} (h : a ∈ l.atPositions p) :
    a ∈ l := by
  obtain ⟨x, hx, rfl⟩ := mem_map.mp h
  exact fst_mem_of_mem_zipIdx (mem_filter.mp hx).1

/-- The positions before a bound. -/
theorem atPositions_of_le_one {lo hi : Int} (h : lo ≤ 1) (l : List α) :
    l.atPositions (fun i => lo ≤ i ∧ i < hi) = l.take (hi - 1).toNat := by
  induction l generalizing lo hi with
  | nil => simp
  | cons a l ih =>
      have hshift : (fun i : Int => decide (lo ≤ i + 1 ∧ i + 1 < hi)) =
          fun i => decide (lo - 1 ≤ i ∧ i < hi - 1) := by
        funext i
        exact decide_eq_decide.mpr (by omega)
      rw [atPositions_cons, hshift, ih (by omega)]
      by_cases hhi : 1 < hi
      · have hpos : (hi - 1).toNat = (hi - 1 - 1).toNat + 1 := by omega
        rw [if_pos (by simp [h, hhi]), hpos, take_succ_cons]
        rfl
      · have hzero : (hi - 1).toNat = 0 := by omega
        have hzero' : (hi - 1 - 1).toNat = 0 := by omega
        rw [if_neg (by simp [hhi]), hzero, hzero', take_zero, take_zero]
        rfl

/-- The positions of an interval. -/
theorem atPositions_between {lo hi : Int} (h : 1 ≤ lo) (l : List α) :
    l.atPositions (fun i => lo ≤ i ∧ i < hi) = (l.drop (lo - 1).toNat).take (hi - lo).toNat := by
  induction l generalizing lo hi with
  | nil => simp
  | cons a l ih =>
      by_cases hlo : lo = 1
      · rw [atPositions_of_le_one (by omega), hlo]
        rfl
      · have hshift : (fun i : Int => decide (lo ≤ i + 1 ∧ i + 1 < hi)) =
            fun i => decide (lo - 1 ≤ i ∧ i < hi - 1) := by
          funext i
          exact decide_eq_decide.mpr (by omega)
        have hdrop : (lo - 1).toNat = (lo - 1 - 1).toNat + 1 := by omega
        have hlen : hi - 1 - (lo - 1) = hi - lo := by omega
        rw [atPositions_cons, hshift, ih (by omega), if_neg (by simp; omega), hdrop, hlen,
          drop_succ_cons]
        rfl

end List

namespace CStr

/-- The memory around a string, by the offset from its first byte. -/
structure Around (t : CStr) where
  /-- The byte at an offset. -/
  byte : Int → UInt8
  /-- The bytes of the string. -/
  holds : ∀ i (h : i < t.bytes.length), byte i = t.bytes[i]
  /-- Its terminator. -/
  terminator : byte t.length = 0

/-- Memory with nothing but the string. -/
def alone (t : CStr) : t.Around where
  byte i := if 0 ≤ i then t.bytes.getD i.toNat 0 else 0
  holds i h := by simp [h]
  terminator := by simp [length]

/-- `strncpy`: the offsets it reads, and the bytes it copies before the first NUL.  It fills the
rest of its buffer with zeros. -/
def strncpy (byte : Int → UInt8) (src : Int) : Nat → List Int × List UInt8
  | 0 => ([], [])
  | n + 1 =>
      if byte src = 0 then ([src], [])
      else
        let (reads, copy) := strncpy byte (src + 1) n
        (src :: reads, byte src :: copy)

/-- It reads the byte it starts from. -/
theorem mem_strncpy (byte : Int → UInt8) (src : Int) {n : Nat} (h : 0 < n) :
    src ∈ (strncpy byte src n).1 := by
  cases n with
  | zero => cases h
  | succ n =>
      rw [strncpy]
      split
      · exact List.mem_singleton_self src
      · exact List.mem_cons_self

/-- From an offset in a string it copies a part of it. -/
theorem strncpy_inside {t : CStr} (mem : t.Around) {k : Nat} (h : k ≤ t.length) (n : Nat) :
    (strncpy mem.byte k n).2 = (t.bytes.drop k).take n ∧
      ∀ i ∈ (strncpy mem.byte k n).1, 0 ≤ i ∧ i ≤ t.length := by
  induction n generalizing k with
  | zero => simp [strncpy]
  | succ n ih =>
      rcases Nat.lt_or_eq_of_le h with hlt | rfl
      · -- A byte of the string is not the terminator.
        have hbyte : mem.byte k = t.bytes[k] := mem.holds k hlt
        have hne : t.bytes[k] ≠ 0 := fun hz => t.nulFree (hz ▸ List.getElem_mem hlt)
        obtain ⟨hcopy, hreads⟩ := ih (k := k + 1) hlt
        rw [Int.natCast_add_one] at hcopy hreads
        rw [strncpy, hbyte, if_neg hne, List.drop_eq_getElem_cons hlt, List.take_succ_cons, ← hcopy]
        refine ⟨rfl, fun i hi => ?_⟩
        rcases List.mem_cons.mp hi with rfl | hmem
        · omega
        · exact hreads i hmem
      · have hdrop : t.bytes.drop t.length = [] := List.drop_length
        rw [strncpy, mem.terminator, if_pos rfl, hdrop, List.take_nil]
        refine ⟨rfl, fun i hi => ?_⟩
        rw [List.mem_singleton.mp hi]
        omega

end CStr
