import Zeno.Lib.Slice

/-!
# Fields at places

A record in memory is a list of fields, each with its place and its bytes.  Assigned one
after the other they can all be read back if no two of them overlap, whatever the memory
held before (`assign_holds`).  What lies outside of them stays (`AssignedTo.outside`).
-/

namespace Slice

/-- A field: its place, and its bytes. -/
abbrev Placed := Nat × List UInt8

/-- Where a field ends. -/
def Placed.stop (f : Placed) : Nat := f.1 + f.2.length

/-- Two fields do not overlap. -/
def Placed.Apart (f f' : Placed) : Prop := f.stop ≤ f'.1 ∨ f'.stop ≤ f.1

instance (f f' : Placed) : Decidable (f.Apart f') := inferInstanceAs (Decidable (_ ∨ _))

/-- Assign fields one after the other. -/
def assign : List Placed → List UInt8 → Option (List UInt8)
  | [], m => some m
  | f :: fs, m => (put f.1 f.2 m).bind (assign fs)

/-- A memory has fields at their places. -/
def Holds (fs : List Placed) (m : List UInt8) : Prop :=
  ∀ f ∈ fs, get f.1 f.2.length m = some f.2

/-- A memory that differs from another at most in some fields. -/
structure AssignedTo (fs : List Placed) (m m' : List UInt8) : Prop where
  /-- It is as long. -/
  length : m'.length = m.length
  /-- What is read outside of the fields is what was there. -/
  outside : ∀ pos n, (∀ f ∈ fs, pos + n ≤ f.1 ∨ f.stop ≤ pos) → get pos n m' = get pos n m

variable {fs : List Placed} {m m' : List UInt8}

/-- Fields that have the room are assigned, and read back if none overlaps another. -/
theorem assign_holds (room : ∀ f ∈ fs, f.stop ≤ m.length) (apart : fs.Pairwise Placed.Apart) :
    ∃ m', assign fs m = some m' ∧ AssignedTo fs m m' ∧ Holds fs m' := by
  induction fs generalizing m with
  | nil => exact ⟨m, rfl, ⟨rfl, fun _ _ _ => rfl⟩, fun f hf => absurd hf List.not_mem_nil⟩
  | cons f fs ih =>
      obtain ⟨hfirst, hrest⟩ := List.pairwise_cons.mp apart
      have hf : f.1 + f.2.length ≤ m.length := room f List.mem_cons_self
      have hlen : (overwrite f.1 f.2 m).length = m.length := length_overwrite hf
      obtain ⟨m', hassign, hm', hholds⟩ := ih (m := overwrite f.1 f.2 m)
        (fun x hx => hlen ▸ room x (List.mem_cons_of_mem _ hx)) hrest
      refine ⟨m', ?_, ⟨hm'.length.trans hlen, ?_⟩, ?_⟩
      · rw [assign, put_of_le hf, Option.bind_some, hassign]
      · intro pos n houtside
        rw [hm'.outside pos n fun x hx => houtside x (List.mem_cons_of_mem _ hx)]
        exact get_overwrite_of_disjoint hf (houtside f List.mem_cons_self)
      · intro x hx
        rcases List.mem_cons.mp hx with rfl | hx
        · rw [hm'.outside x.1 x.2.length hfirst]
          exact get_overwrite_self hf
        · exact hholds x hx

theorem Holds.of_cons (h : Holds (f :: fs) m) : Holds fs m :=
  fun x hx => h x (List.mem_cons_of_mem _ hx)

theorem Holds.head (h : Holds (f :: fs) m) : get f.1 f.2.length m = some f.2 :=
  h f List.mem_cons_self

/-- A number is read from its field. -/
theorem Holds.getLe {w pos n : Nat} (h : Holds fs m) (hmem : (pos, Bytes.le w n) ∈ fs)
    (hn : n < 256 ^ w) : Slice.getLe w pos m = some n := by
  have hget : get pos (Bytes.le w n).length m = some (Bytes.le w n) := h _ hmem
  rw [Bytes.length_le] at hget
  rw [Slice.getLe, hget, Option.map_some, Bytes.ofLe_le_of_lt hn]

/-! ## Fields in order -/

/-- Fields one behind the other, between two places. -/
def Ascending : Nat → List Placed → Nat → Prop
  | lo, [], hi => lo ≤ hi
  | lo, f :: fs, hi => lo ≤ f.1 ∧ Ascending f.stop fs hi

variable {lo lo' hi hi' : Nat}

theorem Ascending.mono (h : Ascending lo fs hi) (hlo : lo' ≤ lo) (hhi : hi ≤ hi') :
    Ascending lo' fs hi' := by
  induction fs generalizing lo lo' with
  | nil => exact (hlo.trans h).trans hhi
  | cons f fs ih => exact ⟨hlo.trans h.1, ih h.2 (Nat.le_refl _)⟩

theorem Ascending.le (h : Ascending lo fs hi) : lo ≤ hi := by
  induction fs generalizing lo with
  | nil => exact h
  | cons f fs ih => exact (h.1.trans (Nat.le_add_right _ _)).trans (ih h.2)

theorem Ascending.bounds (h : Ascending lo fs hi) (hf : f ∈ fs) : lo ≤ f.1 ∧ f.stop ≤ hi := by
  induction fs generalizing lo with
  | nil => exact absurd hf List.not_mem_nil
  | cons first fs ih =>
      rcases List.mem_cons.mp hf with rfl | hf
      · exact ⟨h.1, h.2.le⟩
      · have hlater := ih h.2 hf
        exact ⟨(h.1.trans (Nat.le_add_right _ _)).trans hlater.1, hlater.2⟩

theorem Ascending.apart (h : Ascending lo fs hi) : fs.Pairwise Placed.Apart := by
  induction fs generalizing lo with
  | nil => exact .nil
  | cons f fs ih =>
      refine List.pairwise_cons.mpr ⟨fun x hx => ?_, ih h.2⟩
      exact .inl (h.2.bounds hx).1

end Slice
