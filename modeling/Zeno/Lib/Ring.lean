import Mathlib.Data.List.Nodup
import Mathlib.Data.Nat.ModEq

/-!
# Rings

An array of `cap` cells used as a ring.  The `n` cells from a position on, going
round at the end, are read as a list: writing the cell behind them appends, and
going on from the next cell drops the first.
-/

namespace Ring

variable {α : Type}

/-- The `n` cells from a position on. -/
def segment (b : Nat → α) (cap start n : Nat) : List α :=
  (List.range n).map fun i => b ((start + i) % cap)

@[simp] theorem length_segment (b : Nat → α) (cap start n : Nat) :
    (segment b cap start n).length = n := by
  simp [segment]

theorem segment_succ (b : Nat → α) (cap start n : Nat) :
    segment b cap start (n + 1) = segment b cap start n ++ [b ((start + n) % cap)] := by
  simp [segment, List.range_succ]

theorem segment_cons (b : Nat → α) (cap start n : Nat) :
    segment b cap start (n + 1) = b (start % cap) :: segment b cap ((start + 1) % cap) n := by
  simp only [segment, List.range_succ_eq_map, List.map_cons, List.map_map, Nat.add_zero]
  congr 1
  apply List.map_congr_left
  intro i _
  simp only [Function.comp_apply, Nat.mod_add_mod]
  rw [show start + Nat.succ i = start + 1 + i by omega]

/-- Positions less than a round apart are different cells. -/
theorem offset_inj {cap start i j : Nat} (hi : i < cap) (hj : j < cap)
    (h : (start + i) % cap = (start + j) % cap) : i = j := by
  have hmod : i ≡ j [MOD cap] := Nat.ModEq.add_left_cancel' start h
  exact Nat.ModEq.eq_of_lt_of_lt hmod hi hj

/-- No cell comes twice in a segment that does not go round. -/
theorem nodup_segment {b : Nat → α} (inj : Function.Injective b) {cap n : Nat} (start : Nat)
    (h : n ≤ cap) : (segment b cap start n).Nodup := by
  refine List.Nodup.map_on ?_ List.nodup_range
  intro i hi j hj hij
  have hi' : i < cap := (List.mem_range.mp hi).trans_le h
  have hj' : j < cap := (List.mem_range.mp hj).trans_le h
  exact offset_inj hi' hj' (inj hij)

/-- Writing the cell behind a segment appends to it. -/
theorem segment_update (b : Nat → α) {cap start n : Nat} (hn : n < cap) (x : α) :
    segment (Function.update b ((start + n) % cap) x) cap start (n + 1) =
      segment b cap start n ++ [x] := by
  rw [segment_succ, Function.update_self]
  congr 1
  apply List.map_congr_left
  intro i hi
  have hlt := List.mem_range.mp hi
  refine Function.update_of_ne (fun he => ?_) _ _
  have := offset_inj (Nat.lt_trans hlt hn) hn he
  omega

/-- The first cells of a segment. -/
theorem segment_take (b : Nat → α) (cap start : Nat) {m n : Nat} (h : m ≤ n) :
    (segment b cap start n).take m = segment b cap start m := by
  simp [segment, ← List.map_take, List.take_range, Nat.min_eq_left h]

end Ring
