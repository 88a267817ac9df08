import Zeno.Lib.Bytes

/-!
# Memory behind a pointer

The bytes from a pointer to the end of the memory it points into.  A read or a copy at
an offset fails where it would leave that memory.  What is read after a copy is what
was copied, or what was there before if the copy was elsewhere, and copies into the
front leave the rest.
-/

namespace Slice

/-- The `n` bytes at an offset. -/
def get (pos n : Nat) (m : List UInt8) : Option (List UInt8) :=
  if pos + n ≤ m.length then some ((m.drop pos).take n) else none

/-- The memory after bytes were copied to an offset. -/
def overwrite (pos : Nat) (bs m : List UInt8) : List UInt8 :=
  m.take pos ++ (bs ++ m.drop (pos + bs.length))

/-- Copy bytes to an offset. -/
def put (pos : Nat) (bs m : List UInt8) : Option (List UInt8) :=
  if pos + bs.length ≤ m.length then some (overwrite pos bs m) else none

/-- Copy bytes to an offset, into a field of some capacity. -/
def putIn (cap pos : Nat) (bs m : List UInt8) : Option (List UInt8) :=
  if bs.length ≤ cap then put pos bs m else none

/-- The number of `w` bytes at an offset. -/
def getLe (w pos : Nat) (m : List UInt8) : Option Nat := (get pos w m).map Bytes.ofLe

/-- Store a number of `w` bytes at an offset. -/
def putLe (w pos n : Nat) (m : List UInt8) : Option (List UInt8) := put pos (Bytes.le w n) m

variable {pos n : Nat} {bs m : List UInt8}

theorem put_of_le (h : pos + bs.length ≤ m.length) : put pos bs m = some (overwrite pos bs m) :=
  if_pos h

theorem putIn_of_le {cap : Nat} (h : bs.length ≤ cap) : putIn cap pos bs m = put pos bs m :=
  if_pos h

theorem putLe_of_le {w : Nat} (h : pos + w ≤ m.length) (n : Nat) :
    putLe w pos n m = some (overwrite pos (Bytes.le w n) m) :=
  put_of_le (by rwa [Bytes.length_le])

theorem length_overwrite (h : pos + bs.length ≤ m.length) :
    (overwrite pos bs m).length = m.length := by
  simp only [overwrite, List.length_append, List.length_take, List.length_drop]
  omega

theorem le_of_get (h : get pos n m = some bs) : pos + n ≤ m.length := by
  simp only [get, Option.ite_none_right_eq_some] at h
  exact h.1

theorem getElem?_overwrite (h : pos + bs.length ≤ m.length) (i : Nat) :
    (overwrite pos bs m)[i]? =
      if pos ≤ i ∧ i < pos + bs.length then bs[i - pos]? else m[i]? := by
  have hpos : (m.take pos).length = pos := by
    rw [List.length_take]
    omega
  by_cases h₁ : i < pos
  · rw [if_neg (by omega), overwrite, List.getElem?_append_left (by omega),
      List.getElem?_take_of_lt h₁]
  · rw [overwrite, List.getElem?_append_right (by omega), hpos]
    by_cases h₂ : i < pos + bs.length
    · rw [if_pos (by omega), List.getElem?_append_left (by omega)]
    · rw [if_neg (by omega), List.getElem?_append_right (by omega), List.getElem?_drop]
      congr 1
      omega

/-- What was copied is read. -/
theorem get_overwrite_self (h : pos + bs.length ≤ m.length) :
    get pos bs.length (overwrite pos bs m) = some bs := by
  have hlen := length_overwrite h
  rw [get, if_pos (by omega)]
  have htake : (m.take pos).length = pos := by
    rw [List.length_take]
    omega
  rw [overwrite, List.drop_append_of_le_length (by omega), List.drop_of_length_le (by omega),
    List.nil_append, List.take_left]

/-- A copy elsewhere is not seen. -/
theorem get_overwrite_of_disjoint {pos' : Nat} (h : pos + bs.length ≤ m.length)
    (apart : pos' + n ≤ pos ∨ pos + bs.length ≤ pos') :
    get pos' n (overwrite pos bs m) = get pos' n m := by
  simp only [get, length_overwrite h]
  split
  next hle =>
    congr 1
    apply List.ext_getElem?
    intro i
    by_cases hi : i < n
    · rw [List.getElem?_take_of_lt hi, List.getElem?_take_of_lt hi, List.getElem?_drop,
        List.getElem?_drop, getElem?_overwrite h, if_neg (by omega)]
    · rw [List.getElem?_take, List.getElem?_take, if_neg hi, if_neg hi]
  next => rfl

theorem getLe_overwrite_self {w : Nat} (h : pos + w ≤ m.length) {k : Nat} (hk : k < 256 ^ w) :
    getLe w pos (overwrite pos (Bytes.le w k) m) = some k := by
  have hself : get pos (Bytes.le w k).length (overwrite pos (Bytes.le w k) m) =
      some (Bytes.le w k) := get_overwrite_self (by rwa [Bytes.length_le])
  rw [Bytes.length_le] at hself
  rw [getLe, hself, Option.map_some, Bytes.ofLe_le_of_lt hk]

theorem getLe_overwrite_of_disjoint {w pos' : Nat} (h : pos + bs.length ≤ m.length)
    (apart : pos' + w ≤ pos ∨ pos + bs.length ≤ pos') :
    getLe w pos' (overwrite pos bs m) = getLe w pos' m := by
  rw [getLe, get_overwrite_of_disjoint h apart, getLe]

/-! ## The front of a slice -/

theorem get_append {rest : List UInt8} (h : pos + n ≤ m.length) :
    get pos n (m ++ rest) = get pos n m := by
  have hle : pos + n ≤ (m ++ rest).length := by
    rw [List.length_append]
    omega
  rw [get, get, if_pos h, if_pos hle, List.drop_append_of_le_length (by omega),
    List.take_append_of_le_length (by rw [List.length_drop]; omega)]

/-- What is read in the front is there with any memory behind it. -/
theorem get_append_of_eq_some (h : get pos n m = some bs) (rest : List UInt8) :
    get pos n (m ++ rest) = some bs := by
  rw [get_append (le_of_get h), h]

theorem getLe_append_of_eq_some {w k : Nat} (h : getLe w pos m = some k) (rest : List UInt8) :
    getLe w pos (m ++ rest) = some k := by
  obtain ⟨bs, hget, rfl⟩ := Option.map_eq_some_iff.mp h
  rw [getLe, get_append_of_eq_some hget, Option.map_some]

/-- A copy into the front. -/
theorem put_append (bs rest : List UInt8) (h : pos + bs.length ≤ m.length) :
    ∃ m', put pos bs (m ++ rest) = some (m' ++ rest) ∧ m'.length = m.length ∧
      get pos bs.length m' = some bs ∧
      ∀ pos' n, pos' + n ≤ pos ∨ pos + bs.length ≤ pos' → get pos' n m' = get pos' n m := by
  have hle : pos + bs.length ≤ (m ++ rest).length := by
    rw [List.length_append]
    omega
  refine ⟨overwrite pos bs m, ?_, length_overwrite h, get_overwrite_self h, ?_⟩
  · rw [put_of_le hle, overwrite, overwrite, List.take_append_of_le_length (by omega),
      List.drop_append_of_le_length h, List.append_assoc, List.append_assoc]
  · intro pos' n apart
    exact get_overwrite_of_disjoint h apart

/-- A number stored in the front. -/
theorem putLe_append {w k : Nat} (rest : List UInt8) (h : pos + w ≤ m.length)
    (hk : k < 256 ^ w) :
    ∃ m', putLe w pos k (m ++ rest) = some (m' ++ rest) ∧ m'.length = m.length ∧
      getLe w pos m' = some k ∧
      ∀ pos' n, pos' + n ≤ pos ∨ pos + w ≤ pos' → get pos' n m' = get pos' n m := by
  have hroom : pos + (Bytes.le w k).length ≤ m.length := by rwa [Bytes.length_le]
  obtain ⟨m', hput, hlen, hself, hother⟩ := put_append (Bytes.le w k) rest hroom
  rw [Bytes.length_le] at hself hother
  refine ⟨m', hput, hlen, ?_, hother⟩
  rw [getLe, hself, Option.map_some, Bytes.ofLe_le_of_lt hk]

/-- What is read at an offset stands behind it. -/
theorem drop_of_get (h : get pos n m = some bs) : m.drop pos = bs ++ m.drop (pos + n) := by
  simp only [get, Option.ite_none_right_eq_some, Option.some.injEq] at h
  obtain ⟨-, rfl⟩ := h
  rw [← List.drop_drop, List.take_append_drop]

section Front

variable {k : Nat} {b rest : List UInt8}

/-- The front of a memory that was changed in two parts. -/
theorem take_front (h : b.length = (m.take k).length) (hrest : rest.length = (m.drop k).length) :
    (b ++ rest).take k = b := by
  rw [List.length_take] at h
  rw [List.length_drop] at hrest
  rcases Nat.le_total k m.length with hle | hle
  · rw [List.take_append_of_le_length (by omega), List.take_of_length_le (by omega)]
  · have hnil : rest = [] := List.eq_nil_of_length_eq_zero (by omega)
    rw [hnil, List.append_nil, List.take_of_length_le (by omega)]

/-- What is behind the front. -/
theorem drop_front (h : b.length = (m.take k).length) (hrest : rest.length = (m.drop k).length) :
    (b ++ rest).drop k = rest := by
  rw [List.length_take] at h
  rw [List.length_drop] at hrest
  rcases Nat.le_total k m.length with hle | hle
  · rw [List.drop_append_of_le_length (by omega), List.drop_of_length_le (by omega),
      List.nil_append]
  · have hnil : rest = [] := List.eq_nil_of_length_eq_zero (by omega)
    rw [hnil, List.append_nil, List.drop_of_length_le (by omega)]

/-- Equal fronts have equal parts. -/
theorem take_drop_congr {m' : List UInt8} {l : Nat} (h : m'.take l = m.take l) (hle : k + n ≤ l) :
    (m'.drop k).take n = (m.drop k).take n := by
  have hpart (m : List UInt8) : (m.drop k).take n = ((m.take l).drop k).take n := by
    rw [List.drop_take, List.take_take, Nat.min_eq_left (by omega)]
  rw [hpart m', h, ← hpart m]

theorem take_congr {m' : List UInt8} {l : Nat} (h : m'.take l = m.take l) (hle : n ≤ l) :
    m'.take n = m.take n :=
  take_drop_congr (k := 0) h (by omega)

end Front

/-! ## Changes in the front -/

/-- A memory has changed at most in its first bytes. -/
structure ChangedIn (n : Nat) (m m' : List UInt8) : Prop where
  length : m'.length = m.length
  drop : m'.drop n = m.drop n

namespace ChangedIn

variable {k : Nat} {b m' m'' rest : List UInt8}

theorem refl (n : Nat) (m : List UInt8) : ChangedIn n m m := ⟨rfl, rfl⟩

theorem mono (h : ChangedIn n m m') (hle : n ≤ k) : ChangedIn k m m' := by
  refine ⟨h.length, ?_⟩
  rw [← Nat.add_sub_cancel' hle, ← List.drop_drop, h.drop, List.drop_drop]

theorem trans (h : ChangedIn n m m') (h' : ChangedIn n m' m'') : ChangedIn n m m'' :=
  ⟨h'.length.trans h.length, h'.drop.trans h.drop⟩

/-- A change behind a front that has changed. -/
theorem behind (hb : b.length = (m.take k).length) (h : ChangedIn n (m.drop k) rest) :
    ChangedIn (k + n) m (b ++ rest) := by
  constructor
  · rw [List.length_append, hb, h.length, ← List.length_append, List.take_append_drop]
  · rw [← List.drop_drop, drop_front hb h.length, h.drop, List.drop_drop]

/-- A copy that succeeds has the room, and changes nothing behind it. -/
theorem of_put (h : put pos bs m = some m') :
    pos + bs.length ≤ m.length ∧ ChangedIn (pos + bs.length) m m' := by
  simp only [put, Option.ite_none_right_eq_some, Option.some.injEq] at h
  obtain ⟨hle, rfl⟩ := h
  refine ⟨hle, length_overwrite hle, ?_⟩
  rw [overwrite, ← List.append_assoc, List.drop_left']
  rw [List.length_append, List.length_take]
  omega

theorem of_putLe {w v : Nat} (h : putLe w pos v m = some m') :
    pos + w ≤ m.length ∧ ChangedIn (pos + w) m m' := by
  have hput := of_put h
  rwa [Bytes.length_le] at hput

end ChangedIn

end Slice
