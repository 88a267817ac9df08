import Mathlib.Data.List.Infix

/-!
# Wildcard patterns

A pattern is a list of tokens: a letter, a letter of any kind, or a word of any
length.  `Matches` says which words a pattern matches, and leaves open how a
long wildcard is matched.  A matcher goes from left to right instead, so the
lemmas here say what each token leaves to be matched, and how the wildcards
that stand next to each other are put in order.
-/

namespace Wildcard

variable {α : Type*}

/-- A token of a pattern. -/
inductive Token (α : Type*) where
  /-- The letter itself. -/
  | lit (a : α)
  /-- Any letter. -/
  | one
  /-- Any word, also the empty one. -/
  | many
deriving DecidableEq

/-- A pattern matches a word, all of it. -/
inductive Matches : List (Token α) → List α → Prop where
  | nil : Matches [] []
  | lit {a : α} {ts : List (Token α)} {w : List α} : Matches ts w → Matches (.lit a :: ts) (a :: w)
  | one {a : α} {ts : List (Token α)} {w : List α} : Matches ts w → Matches (.one :: ts) (a :: w)
  | many {v w : List α} {ts : List (Token α)} : Matches ts w → Matches (.many :: ts) (v ++ w)

variable {a b : α} {ts : List (Token α)} {w : List α}

theorem matches_nil_iff : Matches [] w ↔ w = [] := by
  constructor
  · rintro ⟨⟩
    rfl
  · rintro rfl
    exact .nil

theorem matches_lit_cons_iff : Matches (.lit a :: ts) (b :: w) ↔ a = b ∧ Matches ts w := by
  constructor
  · rintro ⟨⟩
    exact ⟨rfl, ‹_›⟩
  · rintro ⟨rfl, h⟩
    exact .lit h

theorem not_matches_lit_nil : ¬ Matches (.lit a :: ts) [] := nofun

theorem matches_one_cons_iff : Matches (.one :: ts) (b :: w) ↔ Matches ts w := by
  constructor
  · rintro ⟨⟩
    assumption
  · exact .one

theorem not_matches_one_nil : ¬ Matches (.one (α := α) :: ts) [] := nofun

/-- A long wildcard leaves a suffix to the rest of the pattern. -/
theorem matches_many_iff : Matches (.many :: ts) w ↔ ∃ u, u <:+ w ∧ Matches ts u := by
  constructor
  · intro h
    cases h with
    | @many v u _ h => exact ⟨u, ⟨v, rfl⟩, h⟩
  · rintro ⟨u, ⟨v, rfl⟩, h⟩
    exact .many h

/-- Two long wildcards are one. -/
theorem matches_many_many_iff : Matches (.many :: .many :: ts) w ↔ Matches (.many :: ts) w := by
  simp only [matches_many_iff]
  constructor
  · rintro ⟨u, hu, v, hv, h⟩
    exact ⟨v, hv.trans hu, h⟩
  · rintro ⟨u, hu, h⟩
    exact ⟨w, List.suffix_rfl, u, hu, h⟩

/-- A single wildcard after a long one may be matched first. -/
theorem matches_many_one_iff :
    Matches (.many :: .one :: ts) w ↔ Matches (.one :: .many :: ts) w := by
  cases w with
  | nil =>
      refine ⟨fun h => ?_, fun h => absurd h not_matches_one_nil⟩
      obtain ⟨u, hu, h⟩ := matches_many_iff.mp h
      rw [List.suffix_nil.mp hu] at h
      exact absurd h not_matches_one_nil
  | cons b w =>
      rw [matches_one_cons_iff, matches_many_iff, matches_many_iff]
      constructor
      · rintro ⟨u, hu, h⟩
        cases h with
        | @one c _ u h =>
            -- the suffix begins at the letter that is matched, so its tail is one of the tail
            rcases List.suffix_cons_iff.mp hu with heq | hu
            · cases heq
              exact ⟨_, List.suffix_rfl, h⟩
            · exact ⟨u, (List.suffix_cons c u).trans hu, h⟩
      · rintro ⟨u, ⟨v, rfl⟩, h⟩
        obtain ⟨v', c, hvc⟩ : ∃ v' c, b :: v = v' ++ [c] :=
          ⟨(b :: v).dropLast, (b :: v).getLast (List.cons_ne_nil b v),
            (List.dropLast_append_getLast (List.cons_ne_nil b v)).symm⟩
        refine ⟨c :: u, ⟨v', ?_⟩, .one h⟩
        rw [← List.cons_append, hvc, List.append_assoc, List.singleton_append]

end Wildcard
