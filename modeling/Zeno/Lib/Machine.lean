import Mathlib.Logic.Function.Basic
import Mathlib.Logic.Relation

/-!
# Runs of an executable machine

A machine is a function from a state and a label to the next state, undefined
where the label is not enabled.  A *path* is a finite run all of whose labels
satisfy a guard in the state they are taken in.  The guard is how a condition
on the steps of a run is stated, and `free` is the guard of an unrestricted
run.  `run` and `runOk` execute a list of labels, so that a concrete trace is
checked by evaluation and then read as a path.
-/

namespace Machine

variable {σ α : Type*} {step : σ → α → Option σ} {ok : σ → α → Prop}

/-- One step under a guard. -/
def Next (step : σ → α → Option σ) (ok : σ → α → Prop) (s t : σ) : Prop :=
  ∃ a, ok s a ∧ step s a = some t

/-- A finite run whose every step satisfies the guard. -/
abbrev Path (step : σ → α → Option σ) (ok : σ → α → Prop) : σ → σ → Prop :=
  Relation.ReflTransGen (Next step ok)

/-- The guard that admits every step. -/
def free : σ → α → Prop := fun _ _ => True

/-- A property that holds at the start and that each guarded step keeps holds at
the end of every path. -/
theorem Path.invariant {I : σ → Prop} {s t : σ} (path : Path step ok s t) (start : I s)
    (keep : ∀ a l b, I a → ok a l → step a l = some b → I b) : I t := by
  induction path with
  | refl => exact start
  | tail _ hstep ih =>
      obtain ⟨l, hok, hs⟩ := hstep
      exact keep _ l _ ih hok hs

/-- A relation that is reflexive, transitive and contains each guarded step
relates the two ends of every path. -/
theorem Path.related {R : σ → σ → Prop} {s t : σ} (path : Path step ok s t)
    (refl : ∀ a, R a a) (trans : ∀ a b c, R a b → R b c → R a c)
    (one : ∀ a l b, step a l = some b → R a b) : R s t := by
  induction path with
  | refl => exact refl s
  | tail _ hstep ih =>
      obtain ⟨l, _, hs⟩ := hstep
      exact trans _ _ _ ih (one _ l _ hs)

/-- A stronger guard admits fewer runs. -/
theorem Path.mono {ok' : σ → α → Prop} {s t : σ} (weaker : ∀ a l, ok a l → ok' a l)
    (path : Path step ok s t) : Path step ok' s t :=
  Relation.ReflTransGen.mono (fun _ _ ⟨l, hok, hs⟩ => ⟨l, weaker _ l hok, hs⟩) _ _ path

/-- A map that takes each step of one machine to a step of another, or to no step at all,
takes paths to paths. -/
theorem Path.simulates {τ β : Type*} {step' : τ → β → Option τ} {ok' : τ → β → Prop} {s t : σ}
    (f : σ → τ) (path : Path step ok s t)
    (one : ∀ a l b, ok a l → step a l = some b → f b = f a ∨ Next step' ok' (f a) (f b)) :
    Path step' ok' (f s) (f t) := by
  induction path with
  | refl => exact .refl
  | tail _ hstep ih =>
      obtain ⟨l, hok, hs⟩ := hstep
      rcases one _ l _ hok hs with hstay | hnext
      · rw [hstay]
        exact ih
      · exact ih.tail hnext

/-- Where each step of one machine is matched by steps of another, so is each path. -/
theorem Path.matched {τ β : Type*} {step' : τ → β → Option τ} {ok' : τ → β → Prop}
    {R : σ → τ → Prop} {s t : σ} {u : τ} (path : Path step ok s t) (start : R s u)
    (one : ∀ a l b u, R a u → ok a l → step a l = some b → ∃ v, Path step' ok' u v ∧ R b v) :
    ∃ v, Path step' ok' u v ∧ R t v := by
  induction path with
  | refl => exact ⟨u, .refl, start⟩
  | tail _ hstep ih =>
      obtain ⟨l, hok, hs⟩ := hstep
      obtain ⟨v, hpath, hv⟩ := ih
      obtain ⟨w, hnext, hw⟩ := one _ l _ v hv hok hs
      exact ⟨w, hpath.trans hnext, hw⟩

/-- Execute a list of labels in order. -/
def run (step : σ → α → Option σ) : σ → List α → Option σ
  | s, [] => some s
  | s, a :: as => (step s a).bind (run step · as)

/-- An executed trace whose labels the guard always admits is a path. -/
theorem path_of_run : ∀ {s t : σ} {as : List α}, (∀ a ∈ as, ∀ s, ok s a) →
    run step s as = some t → Path step ok s t
  | s, t, [], _, h => by
      simp only [run, Option.some.injEq] at h
      subst h
      exact .refl
  | s, t, a :: as, hok, h => by
      simp only [run, Option.bind_eq_some_iff] at h
      obtain ⟨u, hu, ht⟩ := h
      exact .head ⟨a, hok a List.mem_cons_self s, hu⟩
        (path_of_run (fun b hb => hok b (List.mem_cons_of_mem _ hb)) ht)

/-- An executed trace is a path if an invariant admits its labels. -/
theorem path_of_run_invariant {I : σ → Prop} {s t : σ} {as : List α} (start : I s)
    (keep : ∀ a l b, I a → l ∈ as → step a l = some b → I b)
    (admits : ∀ a l, I a → l ∈ as → ok a l) (h : run step s as = some t) : Path step ok s t := by
  induction as generalizing s with
  | nil =>
      cases h
      exact .refl
  | cons l as ih =>
      obtain ⟨u, hu, ht⟩ := Option.bind_eq_some_iff.mp h
      refine .head ⟨l, admits s l start List.mem_cons_self, hu⟩ (ih ?_ ?_ ?_ ht)
      · exact keep s l u start List.mem_cons_self hu
      · exact fun a l' b ha hl' => keep a l' b ha (List.mem_cons_of_mem _ hl')
      · exact fun a l' ha hl' => admits a l' ha (List.mem_cons_of_mem _ hl')

/-- Execute a list of labels in order, as far as the guard admits them. -/
def runOk (step : σ → α → Option σ) (ok : σ → α → Prop) [∀ s a, Decidable (ok s a)] :
    σ → List α → Option σ
  | s, [] => some s
  | s, a :: as => if ok s a then (step s a).bind (runOk step ok · as) else none

/-- A trace executed under a guard is a path. -/
theorem path_of_runOk [∀ s a, Decidable (ok s a)] :
    ∀ {s t : σ} {as : List α}, runOk step ok s as = some t → Path step ok s t
  | s, t, [], h => by
      simp only [runOk, Option.some.injEq] at h
      subst h
      exact .refl
  | s, t, a :: as, h => by
      simp only [runOk, Option.ite_none_right_eq_some, Option.bind_eq_some_iff] at h
      obtain ⟨hok, u, hu, ht⟩ := h
      exact .head ⟨a, hok, hu⟩ (path_of_runOk ht)

/-- A run with the labels it takes. -/
inductive Trace (step : σ → α → Option σ) (ok : σ → α → Prop) : σ → List α → σ → Prop
  | nil {s : σ} : Trace step ok s [] s
  | cons {s t u : σ} {a : α} {as : List α} (admitted : ok s a) (taken : step s a = some t)
      (rest : Trace step ok t as u) : Trace step ok s (a :: as) u

theorem trace_of_runOk [∀ s a, Decidable (ok s a)] {s t : σ} {as : List α}
    (h : runOk step ok s as = some t) : Trace step ok s as t := by
  induction as generalizing s with
  | nil =>
      cases h
      exact .nil
  | cons a as ih =>
      simp only [runOk, Option.ite_none_right_eq_some, Option.bind_eq_some_iff] at h
      obtain ⟨hok, u, hu, ht⟩ := h
      exact .cons hok hu (ih ht)

/-- Two machines with the same labels: if each guarded step of the first is matched by the
second, so that they stay related, then so is each run. -/
theorem Trace.simulates {τ : Type*} {step' : τ → α → Option τ} {R : σ → τ → Prop} {s s' : σ}
    {t : τ} {as : List α} (trace : Trace step ok s as s') (start : R s t)
    (one : ∀ a b l a', R a b → ok a l → step a l = some a' → ∃ b', step' b l = some b' ∧ R a' b') :
    ∃ t', run step' t as = some t' ∧ R s' t' := by
  induction trace generalizing t with
  | nil => exact ⟨t, rfl, start⟩
  | cons admitted taken _ ih =>
      obtain ⟨t₁, hstep, hrel⟩ := one _ _ _ _ start admitted taken
      obtain ⟨t', hrun, hrel'⟩ := ih hrel
      exact ⟨t', Option.bind_eq_some_iff.mpr ⟨t₁, hstep, hrun⟩, hrel'⟩

/-! ## States with one component for each thread -/

/-- A symmetric relation between the components of any two threads holds after the
component of one thread has changed, if it holds between the new component and those of
all other threads. -/
theorem pairwise_update {ι β : Type*} [DecidableEq ι] {f : ι → β} {i : ι} {b : β}
    (R : ι → ι → β → β → Prop) (symm : ∀ j k x y, R j k x y → R k j y x)
    (old : ∀ j k, j ≠ k → R j k (f j) (f k)) (new : ∀ k, i ≠ k → R i k b (f k)) :
    ∀ j k, j ≠ k → R j k (Function.update f i b j) (Function.update f i b k) := by
  intro j k hjk
  rcases eq_or_ne j i with rfl | hj
  · rw [Function.update_self, Function.update_of_ne hjk.symm]
    exact new k hjk
  · rw [Function.update_of_ne hj]
    rcases eq_or_ne k i with rfl | hk
    · rw [Function.update_self]
      exact symm _ _ _ _ (new j hj.symm)
    · rw [Function.update_of_ne hk]
      exact old j k hjk

end Machine
