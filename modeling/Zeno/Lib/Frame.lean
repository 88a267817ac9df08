import Mathlib.Control.Monad.Basic

/-!
# Programs that leave a part of the state alone

A program over a state that may fail is a `StateT σ Option`.  `Keeps view p` says
that `p`, when it returns, has not changed what `view` sees of the state.  The
rules follow the ways to build a program.
-/

namespace Frame

variable {σ γ α β : Type}

/-- The program leaves what `view` sees as it was, if it returns. -/
def Keeps (view : σ → γ) (p : StateT σ Option α) : Prop :=
  ∀ s a s', p s = some (a, s') → view s' = view s

variable {view : σ → γ}

theorem Keeps.pure (a : α) : Keeps view (pure a : StateT σ Option α) := by
  intro s a' s' h
  cases h
  rfl

theorem Keeps.failure : Keeps view (failure : StateT σ Option α) := by
  intro s a s' h
  cases h

theorem Keeps.bind {p : StateT σ Option α} {q : α → StateT σ Option β} (hp : Keeps view p)
    (hq : ∀ a, Keeps view (q a)) : Keeps view (p >>= q) := by
  intro s b s' h
  obtain ⟨⟨a, s₁⟩, hfirst, hrest⟩ := Option.bind_eq_some_iff.mp h
  rw [hq a s₁ b s' hrest, hp s a s₁ hfirst]

theorem bind_eq_some {p : StateT σ Option α} {q : α → StateT σ Option β} {s s' : σ} {b : β} :
    (p >>= q) s = some (b, s') ↔ ∃ a s₁, p s = some (a, s₁) ∧ q a s₁ = some (b, s') := by
  constructor
  · intro h
    obtain ⟨⟨a, s₁⟩, hfirst, hrest⟩ := Option.bind_eq_some_iff.mp h
    exact ⟨a, s₁, hfirst, hrest⟩
  · rintro ⟨a, s₁, hfirst, hrest⟩
    exact Option.bind_eq_some_iff.mpr ⟨(a, s₁), hfirst, hrest⟩

theorem map_eq_some {p : StateT σ Option α} {f : α → β} {s s' : σ} {b : β} :
    (f <$> p) s = some (b, s') ↔ ∃ a, p s = some (a, s') ∧ f a = b := by
  constructor
  · intro h
    obtain ⟨⟨a, s₁⟩, hp, heq⟩ := Option.bind_eq_some_iff.mp h
    cases heq
    exact ⟨a, hp, rfl⟩
  · rintro ⟨a, hp, rfl⟩
    exact Option.bind_eq_some_iff.mpr ⟨(a, s'), hp, rfl⟩

/-- What a program returns can be changed. -/
theorem Keeps.map {p : StateT σ Option α} (f : α → β) (hp : Keeps view p) :
    Keeps view (f <$> p) := by
  intro s b s' h
  obtain ⟨a, hrun, -⟩ := map_eq_some.mp h
  exact hp s a s' hrun

theorem Keeps.ite {c : Prop} [Decidable c] {p q : StateT σ Option α} (hp : Keeps view p)
    (hq : Keeps view q) : Keeps view (if c then p else q) := by
  split
  · exact hp
  · exact hq

end Frame
