import Mathlib.Data.List.TakeWhile

/-!
# C strings in byte memory

A C string is a byte string without a NUL.  In memory it occupies one byte
more than its length, the last one NUL.  `Holds mem p bs` says that the bytes
`bs` lie at address `p`, and `readCStr` scans from an address up to the first
NUL, within a bound.  A scan that meets the bound first reads outside the
memory, and is undefined.
-/

/-- A byte string without a NUL byte. -/
structure CStr where
  /-- The bytes, without the terminator. -/
  bytes : List UInt8
  /-- No byte of a C string is NUL. -/
  nulFree : (0 : UInt8) ∉ bytes
deriving DecidableEq

namespace CStr

@[ext] theorem ext {s t : CStr} (h : s.bytes = t.bytes) : s = t := by
  cases s; cases t; cases h; rfl

/-- The empty string. -/
def empty : CStr := ⟨[], by simp⟩

instance : Inhabited CStr := ⟨empty⟩

/-- A non-NUL byte in front of a string. -/
def cons (b : UInt8) (h : b ≠ 0) (s : CStr) : CStr :=
  ⟨b :: s.bytes, by simpa [h.symm] using s.nulFree⟩

/-- `strlen`. -/
def length (s : CStr) : Nat := s.bytes.length

/-- The bytes of a string with their terminator. -/
def terminated (s : CStr) : List UInt8 := s.bytes ++ [0]

@[simp] theorem length_terminated (s : CStr) : s.terminated.length = s.length + 1 := by
  simp [terminated, length]

/-- The C string that starts a byte string: everything up to the first NUL. -/
def ofBytes (bs : List UInt8) : CStr :=
  ⟨bs.takeWhile (· ≠ 0), fun h => by simpa using List.mem_takeWhile_imp h⟩

theorem takeWhile_append_of_nulFree {bs : List UInt8} (h : (0 : UInt8) ∉ bs) (rest : List UInt8) :
    (bs ++ rest).takeWhile (· ≠ 0) = bs ++ rest.takeWhile (· ≠ 0) := by
  induction bs with
  | nil => rfl
  | cons b bs ih =>
      simp only [List.mem_cons, not_or] at h
      simp only [List.cons_append]
      rw [List.takeWhile_cons_of_pos (by simpa using Ne.symm h.1), ih h.2]

theorem ofBytes_of_nulFree {bs : List UInt8} (h : (0 : UInt8) ∉ bs) : (ofBytes bs).bytes = bs := by
  have := takeWhile_append_of_nulFree h []
  simpa [ofBytes] using this

/-- The same byte any number of times. -/
def replicate (n : Nat) (b : UInt8) : CStr := ofBytes (List.replicate n b)

theorem length_replicate {b : UInt8} (h : b ≠ 0) (n : Nat) : (replicate n b).length = n := by
  have hbytes : (replicate n b).bytes = List.replicate n b :=
    ofBytes_of_nulFree fun hmem => h (List.eq_of_mem_replicate hmem).symm
  rw [length, hbytes, List.length_replicate]

/-- Zeros after a byte string do not change the C string that starts it. -/
theorem ofBytes_append_zeros {bs zs : List UInt8} (h : ∀ b ∈ zs, b = 0) :
    ofBytes (bs ++ zs) = ofBytes bs := by
  apply CStr.ext
  simp only [ofBytes]
  induction bs with
  | nil =>
      cases zs with
      | nil => rfl
      | cons z zs => simp [h z List.mem_cons_self]
  | cons b bs ih =>
      by_cases hb : b = 0
      · simp [hb]
      · simpa [hb] using ih

/-- Nothing behind a terminator changes the C string. -/
theorem ofBytes_append_of_mem {bs : List UInt8} (h : 0 ∈ bs) (rest : List UInt8) :
    ofBytes (bs ++ rest) = ofBytes bs := by
  apply CStr.ext
  simp only [ofBytes]
  induction bs with
  | nil => exact absurd h List.not_mem_nil
  | cons b bs ih =>
      by_cases hb : b = 0
      · simp [hb]
      · have hmem : 0 ∈ bs := by simpa [Ne.symm hb] using h
        simpa [hb] using ih hmem

end CStr

/-! ## Memory -/

/-- Byte memory. -/
abbrev Mem := Nat → UInt8

namespace Mem

/-- The bytes `bs` lie at address `p`. -/
def Holds (mem : Mem) (p : Nat) (bs : List UInt8) : Prop :=
  ∀ i (h : i < bs.length), mem (p + i) = bs[i]

/-- Write a byte string at an address. -/
def write (mem : Mem) (p : Nat) (bs : List UInt8) : Mem := fun a =>
  if h : p ≤ a ∧ a < p + bs.length then bs[a - p] else mem a

theorem write_of_lt {mem : Mem} {p a : Nat} {bs : List UInt8} (h : a < p) :
    mem.write p bs a = mem a := by
  have : ¬ (p ≤ a ∧ a < p + bs.length) := by omega
  simp [write, this]

theorem holds_write (mem : Mem) (p : Nat) (bs : List UInt8) : (mem.write p bs).Holds p bs := by
  intro i h
  have hin : p ≤ p + i ∧ p + i < p + bs.length := by omega
  simp [write, hin]

@[simp] theorem write_nil (mem : Mem) (p : Nat) : mem.write p [] = mem := by
  funext a
  have : ¬ (p ≤ a ∧ a < p) := by omega
  simp [write, this]

/-- Writing two byte strings one after the other. -/
theorem write_append (mem : Mem) (p : Nat) (bs bs' : List UInt8) :
    (mem.write p bs).write (p + bs.length) bs' = mem.write p (bs ++ bs') := by
  funext a
  by_cases hbefore : a < p
  · simp [write, show ¬ p ≤ a by omega, show ¬ p + bs.length ≤ a by omega]
  · by_cases hfirst : a < p + bs.length
    · have hin : a < p + (bs.length + bs'.length) := by omega
      simp [write, hfirst, show p ≤ a by omega, show ¬ p + bs.length ≤ a by omega, hin,
        List.getElem_append_left (show a - p < bs.length by omega)]
    · by_cases hsecond : a < p + (bs.length + bs'.length)
      · have hidx : a - (p + bs.length) = a - p - bs.length := by omega
        simp [write, hsecond, show p ≤ a by omega, show p + bs.length ≤ a by omega,
          show a < p + bs.length + bs'.length by omega, hidx,
          List.getElem_append_right (show bs.length ≤ a - p by omega)]
      · simp [write, hfirst, hsecond, show ¬ a < p + bs.length + bs'.length by omega]

/-- Writing a byte string one byte at a time. -/
theorem update_write_take (mem : Mem) (p : Nat) {bs : List UInt8} {d : Nat} (h : d < bs.length) :
    Function.update (mem.write p (bs.take d)) (p + d) (bs.getD d 0) =
      mem.write p (bs.take (d + 1)) := by
  have hlen : (bs.take d).length = d := by rw [List.length_take]; omega
  have hlen' : (bs.take (d + 1)).length = d + 1 := by rw [List.length_take]; omega
  funext a
  by_cases ha : a = p + d
  · subst ha
    simp [write, hlen', h]
  · rw [Function.update_of_ne ha]
    simp only [write, hlen, hlen']
    by_cases hin : p ≤ a ∧ a < p + d
    · have hin' : p ≤ a ∧ a < p + (d + 1) := by omega
      simp [hin, hin']
    · have hin' : ¬ (p ≤ a ∧ a < p + (d + 1)) := by omega
      simp [hin, hin']

/-- The `n` bytes at an address. -/
def read (mem : Mem) (p n : Nat) : List UInt8 := (List.range n).map fun i => mem (p + i)

@[simp] theorem length_read (mem : Mem) (p n : Nat) : (mem.read p n).length = n := by
  simp [read]

theorem read_add (mem : Mem) (p m n : Nat) :
    mem.read p (m + n) = mem.read p m ++ mem.read (p + m) n := by
  simp [read, List.range_add, Nat.add_assoc]

theorem read_of_holds {mem : Mem} {p : Nat} {bs : List UInt8} (h : mem.Holds p bs) :
    mem.read p bs.length = bs := by
  apply List.ext_getElem
  · simp
  · intro i h₁ h₂
    simp [read, h i h₂]

/-- A read of more than what is held. -/
theorem read_of_holds_le {mem : Mem} {p n : Nat} {bs : List UInt8} (h : mem.Holds p bs)
    (hle : bs.length ≤ n) :
    mem.read p n = bs ++ mem.read (p + bs.length) (n - bs.length) := by
  obtain ⟨k, rfl⟩ := Nat.exists_eq_add_of_le hle
  rw [read_add, read_of_holds h, Nat.add_sub_cancel_left]

theorem holds_append {mem : Mem} {p : Nat} {bs bs' : List UInt8} :
    mem.Holds p (bs ++ bs') ↔ mem.Holds p bs ∧ mem.Holds (p + bs.length) bs' := by
  constructor
  · intro h
    refine ⟨fun i hi => ?_, fun i hi => ?_⟩
    · rw [h i (by rw [List.length_append]; omega), List.getElem_append_left hi]
    · have hlen : bs.length + i < (bs ++ bs').length := by rw [List.length_append]; omega
      rw [Nat.add_assoc, h _ hlen]
      simp
  · rintro ⟨h, h'⟩ i hi
    rw [List.length_append] at hi
    by_cases hin : i < bs.length
    · rw [h i hin, List.getElem_append_left hin]
    · have hrest := h' (i - bs.length) (by omega)
      rw [show p + bs.length + (i - bs.length) = p + i by omega] at hrest
      rw [hrest, List.getElem_append_right (by omega)]

/-- Memory that agrees on a range holds the same bytes there. -/
theorem Holds.congr {mem mem' : Mem} {p : Nat} {bs : List UInt8} (h : mem.Holds p bs)
    (same : ∀ a, p ≤ a → a < p + bs.length → mem' a = mem a) : mem'.Holds p bs := by
  intro i hi
  rw [same (p + i) (by omega) (by omega)]
  exact h i hi

/-- Scan from an address to the first NUL, over at most `fuel` bytes. -/
def readCStr (mem : Mem) : Nat → Nat → Option CStr
  | 0, _ => none
  | fuel + 1, p =>
      if h : mem p = 0 then some .empty
      else (readCStr mem fuel (p + 1)).map (CStr.cons (mem p) h)

/-- A scan depends on the bytes up to the first NUL only. -/
theorem readCStr_congr {mem mem' : Mem} {stop : Nat} (h0 : mem stop = 0) (fuel : Nat) {p : Nat}
    (hp : p ≤ stop) (same : ∀ a, p ≤ a → a ≤ stop → mem' a = mem a) :
    mem'.readCStr fuel p = mem.readCStr fuel p := by
  induction fuel generalizing p with
  | zero => rfl
  | succ fuel ih =>
      have hsame := same p (Nat.le_refl p) hp
      by_cases hz : mem p = 0
      · simp [readCStr, hsame, hz]
      · have hne : p ≠ stop := by
          rintro rfl
          exact hz h0
        have hrest := ih (show p + 1 ≤ stop by omega) fun a hle hlt => same a (by omega) hlt
        have hz' : ¬ mem' p = 0 := by rwa [hsame]
        simp only [readCStr, hz, hz', dite_false, hrest]
        congr 1
        funext s
        exact CStr.ext (by simp [CStr.cons, hsame])

/-- What a scan has read is there, with its NUL. -/
theorem holds_of_readCStr {mem : Mem} {s : CStr} {fuel p : Nat}
    (h : mem.readCStr fuel p = some s) : mem.Holds p s.terminated := by
  induction fuel generalizing p s with
  | zero => cases h
  | succ fuel ih =>
      simp only [readCStr] at h
      split at h
      next hzero =>
        cases h
        intro i hi
        obtain rfl : i = 0 := Nat.lt_one_iff.mp hi
        exact hzero
      next hne =>
        obtain ⟨rest, hrest, rfl⟩ := Option.map_eq_some_iff.mp h
        have hcons : (CStr.cons (mem p) hne rest).terminated = [mem p] ++ rest.terminated := rfl
        rw [hcons]
        refine holds_append.mpr ⟨fun i hi => ?_, ih hrest⟩
        obtain rfl : i = 0 := Nat.lt_one_iff.mp hi
        rfl

theorem readCStr_of_holds {mem : Mem} {s : CStr} {fuel p : Nat} (h : mem.Holds p s.terminated)
    (room : s.length < fuel) : mem.readCStr fuel p = some s := by
  obtain ⟨bs, hnul⟩ := s
  induction bs generalizing fuel p with
  | nil =>
      obtain ⟨fuel, rfl⟩ := Nat.exists_eq_succ_of_ne_zero (by omega : fuel ≠ 0)
      have h0 : mem p = 0 := h 0 (by simp [CStr.terminated])
      simp [readCStr, h0, CStr.empty]
  | cons b bs ih =>
      obtain ⟨fuel, rfl⟩ := Nat.exists_eq_succ_of_ne_zero (by omega : fuel ≠ 0)
      simp only [List.mem_cons, not_or] at hnul
      have h0 : mem p = b := h 0 (by simp [CStr.terminated])
      have hb : ¬ mem p = 0 := by rw [h0]; exact Ne.symm hnul.1
      have htail : mem.Holds (p + 1) (CStr.terminated ⟨bs, hnul.2⟩) := by
        intro i hi
        have := h (i + 1) (by simpa [CStr.terminated] using hi)
        rw [show p + 1 + i = p + (i + 1) by omega, this]
        simp [CStr.terminated]
      have hroom : CStr.length ⟨bs, hnul.2⟩ < fuel := by
        simp only [CStr.length, List.length_cons] at room ⊢
        omega
      have hrest := ih hnul.2 htail hroom
      simp only [readCStr, hb, dite_false, hrest, Option.map_some, Option.some.injEq]
      apply CStr.ext
      simp [CStr.cons, h0]

end Mem
