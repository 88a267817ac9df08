import Mathlib.Data.List.Forall2
import Zeno.Lib.Frame

/-!
# Programs that compute a function

A program over a state that may fail, a `StateT σ Option`, is compared with a value that may
be undefined, an `Option`.  `Computes` says that they agree both ways.  Where the program
returns, the value is defined, and what the program left is related to it.  Where the value
is defined and the state has room for what the program allocates, the program returns.

What the state may become, and how much room it has, is a parameter (`Memory`).  The rules
follow the ways to build a program, and add up what is allocated.
-/

namespace Refine

variable {σ α β γ δ : Type}

/-- How a state may change, and when it has room for a number of allocations. -/
structure Memory (σ : Type) where
  later : σ → σ → Prop
  refl : ∀ s, later s s
  trans : ∀ {s s' s''}, later s s' → later s' s'' → later s s''
  fits : σ → Nat → Prop
  mono : ∀ {s m n}, m ≤ n → fits s n → fits s m

variable {M : Memory σ}

/-- A program that computes a value, with at most so many allocations. -/
structure Computes (M : Memory σ) (s : σ) (p : StateT σ Option α) (v : Option β) (cost : Nat)
    (post : α → β → σ → Prop) : Prop where
  /-- Where the program returns, the value is defined. -/
  sound : ∀ {a s'}, p s = some (a, s') → ∃ b, v = some b ∧ M.later s s' ∧ post a b s'
  /-- Where the value is defined and there is room, the program returns, and has used no more
  than its share. -/
  complete : ∀ {b n}, v = some b → M.fits s (cost + n) →
    ∃ a s', p s = some (a, s') ∧ M.fits s' n

namespace Computes

variable {s : σ} {p : StateT σ Option α} {v : Option β} {cost cost' : Nat}
  {post : α → β → σ → Prop}

theorem pure {a : α} {b : β} (h : post a b s) :
    Computes M s (pure a) (some b) 0 post where
  sound heq := by
    cases heq
    exact ⟨b, rfl, M.refl s, h⟩
  complete _ hfits := ⟨a, s, rfl, M.mono (Nat.le_add_left _ _) hfits⟩

theorem failure : Computes M s (failure : StateT σ Option α) (none : Option β) 0 post where
  sound h := nomatch h
  complete h := nomatch h

/-- One program after the other. -/
theorem bind {q : α → StateT σ Option γ} {w : β → Option δ} {post' : γ → δ → σ → Prop}
    (hp : Computes M s p v cost post)
    (hq : ∀ a b s', M.later s s' → post a b s' → Computes M s' (q a) (w b) cost' post') :
    Computes M s (p >>= q) (v >>= w) (cost + cost') post' where
  sound h := by
    obtain ⟨a, s₁, hfirst, hrest⟩ := Frame.bind_eq_some.mp h
    obtain ⟨b, rfl, hlater, hpost⟩ := hp.sound hfirst
    obtain ⟨c, hc, hlater', hpost'⟩ := (hq a b s₁ hlater hpost).sound hrest
    exact ⟨c, hc, M.trans hlater hlater', hpost'⟩
  complete h hfits := by
    obtain ⟨b, rfl, hc⟩ := Option.bind_eq_some_iff.mp h
    rw [Nat.add_assoc] at hfits
    obtain ⟨a, s₁, hfirst, hfits₁⟩ := hp.complete rfl hfits
    obtain ⟨b', hb', hlater, hpost⟩ := hp.sound hfirst
    cases hb'
    obtain ⟨c, s₂, hrest, hfits₂⟩ := (hq a b s₁ hlater hpost).complete hc hfits₁
    exact ⟨c, s₂, Frame.bind_eq_some.mpr ⟨a, s₁, hfirst, hrest⟩, hfits₂⟩

/-- What the program returns can be changed, along with the value. -/
theorem map {f : α → γ} {k : β → δ} {post' : γ → δ → σ → Prop}
    (hp : Computes M s p v cost post)
    (hpost : ∀ a b s', M.later s s' → post a b s' → post' (f a) (k b) s') :
    Computes M s (f <$> p) (v.map k) cost post' where
  sound h := by
    obtain ⟨a, hrun, rfl⟩ := Frame.map_eq_some.mp h
    obtain ⟨b, rfl, hlater, hab⟩ := hp.sound hrun
    exact ⟨k b, rfl, hlater, hpost a b _ hlater hab⟩
  complete h hfits := by
    obtain ⟨b, rfl, -⟩ := Option.map_eq_some_iff.mp h
    obtain ⟨a, s', hrun, hfits'⟩ := hp.complete rfl hfits
    exact ⟨f a, s', Frame.map_eq_some.mpr ⟨a, hrun, rfl⟩, hfits'⟩

/-- The same with a larger bound and a weaker relation. -/
theorem weaken {post' : α → β → σ → Prop} (hp : Computes M s p v cost post) (hle : cost ≤ cost')
    (hpost : ∀ a b s', M.later s s' → post a b s' → post' a b s') :
    Computes M s p v cost' post' where
  sound h := by
    obtain ⟨b, hb, hlater, hab⟩ := hp.sound h
    exact ⟨b, hb, hlater, hpost _ b _ hlater hab⟩
  complete h hfits := hp.complete h (M.mono (Nat.add_le_add_right hle _) hfits)

/-- The same with a larger bound. -/
theorem more (hp : Computes M s p v cost post) (hle : cost ≤ cost') :
    Computes M s p v cost' post :=
  hp.weaken hle fun _ _ _ _ h => h

end Computes

/-! ## Related lists -/

/-- Each member of a list is related to a member of the other. -/
theorem exists_of_forall₂ {R : α → β → Prop} {l : List α} {l' : List β} {a : α}
    (h : List.Forall₂ R l l') (ha : a ∈ l) : ∃ b ∈ l', R a b := by
  induction h with
  | nil => cases ha
  | cons hab _ ih =>
      rcases List.mem_cons.mp ha with rfl | ha
      · exact ⟨_, List.mem_cons_self, hab⟩
      · obtain ⟨b, hb, hrel⟩ := ih ha
        exact ⟨b, List.mem_cons_of_mem _ hb, hrel⟩

end Refine
