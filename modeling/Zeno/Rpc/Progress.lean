import Mathlib.Data.Finset.Card
import Mathlib.Order.Interval.Finset.Nat
import Zeno.Rpc.Invariant

/-!
# A request comes to be handled

A worker that has served a region starts again from its first one.  So it may
pass the same region many times before it comes to another.  Left to itself it
comes to each of its requests all the same: each round either meets no request
before the region in question, or serves one, of which there are finitely many
(`exists_handled`).
-/

namespace Zeno

namespace Rpc

variable {ι Body σ : Type} {ops : Ops Body σ} {kind : ι → Kind} {n : Nat}
  {s s' : State ι Body σ} {i : ι} {r r' w : Nat}

/-- No check ends a worker in `handle_ops`. -/
def Ops.Total (ops : Ops Body σ) : Prop := ∀ w t b, ∃ out, ops.handleOps w t b = some out

theorem workerStep_client (h : s.workerStep ops n w = some s') : s'.client = s.client := by
  unfold State.workerStep at h
  split at h
  next =>
    split at h
    next => split at h <;> cases h <;> rfl
    next =>
      cases h
      rfl
  next => split at h <;> cases h <;> rfl
  next =>
    split at h
    next =>
      obtain ⟨out, -, rfl⟩ := Option.map_eq_some_iff.mp h
      rfl
    next =>
      cases h
      rfl
  next =>
    cases h
    rfl

/-- The requests there are. -/
def pending (s : State ι Body σ) : Nat :=
  ((Finset.range maxRegionNum).filter (s.status · = .sent)).card

theorem pending_lt (hmax : r < maxRegionNum) (hsent : s.status r = .sent)
    (hstatus : s'.status = Function.update s.status r .done) : pending s' < pending s := by
  refine Finset.card_lt_card (Finset.ssubset_iff_subset_ne.mpr ⟨fun x hx => ?_, fun heq => ?_⟩)
  · rw [Finset.mem_filter, hstatus] at hx
    refine Finset.mem_filter.mpr ⟨hx.1, ?_⟩
    by_cases hxr : x = r
    · rw [hxr]
      exact hsent
    · rw [Function.update_of_ne hxr] at hx
      exact hx.2
  · have hmem : r ∈ (Finset.range maxRegionNum).filter (s.status · = .sent) :=
      Finset.mem_filter.mpr ⟨Finset.mem_range.mpr hmax, hsent⟩
    rw [← heq, Finset.mem_filter, hstatus, Function.update_self] at hmem
    cases hmem.2

variable [DecidableEq ι]

/-- Steps of one worker only. -/
def only (w : Nat) (_ : State ι Body σ) (l : Label ι Body) : Prop := l = .worker w

/-- A run of one worker. -/
abbrev Works (ops : Ops Body σ) (kind : ι → Kind) (n w : Nat) :
    State ι Body σ → State ι Body σ → Prop :=
  Machine.Path (State.step ops kind n) (only w)

theorem works_step (kind : ι → Kind) (hlt : w < n) (h : s.workerStep ops n w = some s') :
    Works ops kind n w s s' :=
  .single ⟨.worker w, rfl, (if_pos hlt).trans h⟩

theorem Inv.works (inv : Inv ops kind n s) (h : Works ops kind n w s s') : Inv ops kind n s' := by
  refine h.invariant (I := Inv ops kind n) inv fun a l b inv hl hstep => ?_
  subst hl
  exact inv.step (l := .worker w) trivial hstep

theorem works_client (h : Works ops kind n w s s') : s'.client = s.client := by
  refine h.invariant (I := fun t => t.client = s.client) rfl fun a l b ha hl hstep => ?_
  subst hl
  simp only [State.step, Option.ite_none_right_eq_some] at hstep
  exact (workerStep_client hstep.2).trans ha

/-! ## Serving one request -/

/-- A worker serves the request that it has found. -/
theorem exists_served (inv : Inv ops kind n s) (total : ops.Total) (hlt : w < n)
    (hpc : s.worker w = .handle r) :
    ∃ s', Works ops kind n w s s' ∧ s'.worker w = .scan w ∧
      s'.status = Function.update s.status r .done ∧
        ∃ x, x.call = s.tag r ∧ s'.handled = x :: s.handled := by
  obtain ⟨i, call, sent, hwaits, held⟩ := inv.request (.inl hpc)
  have hwritten := (inv.written hpc hwaits held).2
  have hcommand : 0 < ops.reqType (s.body r) := by
    rw [show s.body r = sent from hwritten.body]
    exact hwritten.command
  obtain ⟨⟨b, tee⟩, hrun⟩ := total w s.tee (s.body r)
  let s₁ : State ι Body σ := { s.workerGoto w (.reply r) with
    body := Function.update s.body r b
    tee := tee
    handled := ⟨w, r, s.tag r, s.body r, b⟩ :: s.handled }
  have hhandle : s.workerStep ops n w = some s₁ := by
    simp only [State.workerStep, hpc, if_pos hcommand, hrun, Option.map_some]
    rfl
  have hreply : s₁.workerStep ops n w =
      some ((s₁.setStatus r .done).workerGoto w (.scan w)) := by
    have hpc₁ : s₁.worker w = .reply r := Function.update_self ..
    simp only [State.workerStep, hpc₁]
  exact ⟨_, (works_step kind hlt hhandle).trans (works_step kind hlt hreply),
    Function.update_self .., rfl,
    _, rfl, rfl⟩

/-- From wherever it stands, a worker comes back to its loop. -/
theorem exists_scan (inv : Inv ops kind n s) (total : ops.Total) (hlt : w < n) :
    ∃ s' r', Works ops kind n w s s' ∧ s'.worker w = .scan r' := by
  cases hpc : s.worker w with
  | scan r => exact ⟨s, r, .refl, hpc⟩
  | test r =>
      by_cases hsent : s.status r = .sent
      · have hstep : s.workerStep ops n w = some (s.workerGoto w (.handle r)) := by
          simp only [State.workerStep, hpc, hsent, if_true]
        have hworks := works_step kind hlt hstep
        obtain ⟨s', hserved, hscan, -⟩ :=
          exists_served (inv.works hworks) total hlt (Function.update_self ..)
        exact ⟨s', w, hworks.trans hserved, hscan⟩
      · have hstep : s.workerStep ops n w = some (s.workerGoto w (.scan (r + n))) := by
          simp only [State.workerStep, hpc, if_neg hsent]
        exact ⟨_, r + n, works_step kind hlt hstep, Function.update_self ..⟩
  | handle r =>
      obtain ⟨s', hserved, hscan, -⟩ := exists_served inv total hlt hpc
      exact ⟨s', w, hserved, hscan⟩
  | reply r =>
      have hstep : s.workerStep ops n w = some ((s.setStatus r .done).workerGoto w (.scan w)) := by
        simp only [State.workerStep, hpc]
      exact ⟨_, w, works_step kind hlt hstep, Function.update_self ..⟩

/-! ## One region of a round -/

/-- A worker in its loop passes a region, or serves the request it finds there. -/
theorem exists_passed (inv : Inv ops kind n s) (total : ops.Total) (hlt : w < n)
    (hpc : s.worker w = .scan r') :
    (∃ s', Works ops kind n w s s' ∧ s'.status = s.status ∧ s'.handled = s.handled ∧
      s'.worker w = .scan (if r' < maxRegionNum then r' + n else w) ∧
        (s.status r' = .sent → r' < maxRegionNum → Bitmap.test s.bitmap r' = false)) ∨
    (∃ s', Works ops kind n w s s' ∧ r' < maxRegionNum ∧ s.status r' = .sent ∧
      s'.worker w = .scan w ∧ s'.status = Function.update s.status r' .done ∧
        ∃ x, x.call = s.tag r' ∧ s'.handled = x :: s.handled) := by
  by_cases hmax : r' < maxRegionNum
  · cases hbit : Bitmap.test s.bitmap r' with
    | false =>
        have hstep : s.workerStep ops n w = some (s.workerGoto w (.scan (r' + n))) := by
          simp only [State.workerStep, hpc, if_pos hmax, hbit, Bool.false_eq_true, if_false]
        refine .inl ⟨_, works_step kind hlt hstep, rfl, rfl, ?_, fun _ _ => rfl⟩
        rw [if_pos hmax]
        exact Function.update_self ..
    | true =>
        have htest : s.workerStep ops n w = some (s.workerGoto w (.test r')) := by
          simp only [State.workerStep, hpc, if_pos hmax, hbit, if_true]
        have hworks := works_step kind hlt htest
        let s₁ := s.workerGoto w (.test r')
        have hpc₁ : s₁.worker w = .test r' := Function.update_self ..
        by_cases hsent : s.status r' = .sent
        · have hstep : s₁.workerStep ops n w = some (s₁.workerGoto w (.handle r')) := by
            simp only [State.workerStep, hpc₁]
            exact if_pos hsent
          have hworks₂ := hworks.trans (works_step kind hlt hstep)
          obtain ⟨s', hserved, hscan, hstatus, hlog⟩ :=
            exists_served (inv.works hworks₂) total hlt (Function.update_self ..)
          exact .inr ⟨s', hworks₂.trans hserved, hmax, hsent, hscan, hstatus, hlog⟩
        · have hstep : s₁.workerStep ops n w = some (s₁.workerGoto w (.scan (r' + n))) := by
            simp only [State.workerStep, hpc₁]
            exact if_neg hsent
          refine .inl ⟨_, hworks.trans (works_step kind hlt hstep), rfl, rfl, ?_,
            fun h => absurd h hsent⟩
          rw [if_pos hmax]
          exact Function.update_self ..
  · have hstep : s.workerStep ops n w = some (s.workerGoto w (.scan w)) := by
      simp only [State.workerStep, hpc, if_neg hmax]
    refine .inl ⟨_, works_step kind hlt hstep, rfl, rfl, ?_, fun _ h => absurd h hmax⟩
    rw [if_neg hmax]
    exact Function.update_self ..

/-! ## All rounds -/

/-- How far a worker in its loop is from a region. -/
def ahead (n r r' : Nat) : Nat := if r' ≤ r then r - r' else maxRegionNum + n - r' + r + 1

theorem ahead_lt (hn : 0 < n) (hr : r < maxRegionNum) (hmod : r' % n = r % n) (hne : r' ≠ r) :
    ahead n r (if r' < maxRegionNum then r' + n else r % n) < ahead n r r' := by
  have hw : r % n ≤ r := Nat.mod_le r n
  unfold ahead
  by_cases hlt : r' < r
  · have hle : r' + n ≤ r := by
      by_contra hgt
      have hzero := Nat.sub_mod_eq_zero_of_mod_eq hmod.symm
      rw [Nat.mod_eq_of_lt (by omega)] at hzero
      omega
    rw [if_pos (show r' < maxRegionNum by omega), if_pos hle, if_pos (by omega)]
    omega
  · rw [if_neg (show ¬ r' ≤ r by omega)]
    by_cases hmax : r' < maxRegionNum
    · rw [if_pos hmax, if_neg (by omega)]
      omega
    · rw [if_neg hmax, if_pos hw]
      omega

/-- From its loop the worker of a region comes to the call that waits there. -/
theorem exists_handled_of_scan {s : State ι Body σ} {r' call : Nat} {sent : Body}
    (inv : Inv ops kind n s) (total : ops.Total) (hn : 0 < n)
    (hwaits : (s.client i).Waits r call sent)
    (held : (s.client i).region? = some r) (hpc : s.worker (r % n) = .scan r') :
    ∃ s', Works ops kind n (r % n) s s' ∧ ¬ Unhandled s'.handled call := by
  have hlt := Nat.mod_lt r hn
  by_cases hunhandled : Unhandled s.handled call
  · obtain ⟨hr, hbit⟩ := inv.bit i r held
    obtain ⟨htag, hfits⟩ := (Fits.of_waits hwaits).mp (inv.fits i r held)
    have hsent : s.status r = .sent := by
      rcases hfits with ⟨hsent, -⟩ | ⟨-, h, hh, hcall, -⟩
      · exact hsent
      · exact absurd hcall (hunhandled h hh)
    have hmod : r' % n = r % n := by
      have hserves := inv.serves _ hlt
      rw [hpc] at hserves
      exact hserves
    rcases exists_passed inv total hlt hpc with
      ⟨s₁, hworks, hstatus, hlog, hscan, hclear⟩ |
      ⟨s₁, hworks, hmax, hsent', hscan, hstatus, x, hx, hlog⟩
    · -- the worker has passed a region, which is not this one
      have hne : r' ≠ r := by
        rintro rfl
        exact absurd (hbit.symm.trans (hclear hsent hr)) (by decide)
      have hcloser := ahead_lt hn hr hmod hne
      have hpending : pending s₁ = pending s := by rw [pending, hstatus, pending]
      have hclient := works_client hworks
      obtain ⟨s', hworks', hhandled⟩ := exists_handled_of_scan (inv.works hworks) total hn
        (hclient ▸ hwaits) (hclient ▸ held) hscan
      exact ⟨s', hworks.trans hworks', hhandled⟩
    · by_cases heq : r' = r
      · subst heq
        refine ⟨s₁, hworks, fun hnot => hnot x ?_ (hx.trans htag)⟩
        rw [hlog]
        exact List.mem_cons_self
      · -- it has served another request, and starts again
        have hfewer := pending_lt hmax hsent' hstatus
        have hclient := works_client hworks
        obtain ⟨s', hworks', hhandled⟩ := exists_handled_of_scan (inv.works hworks) total hn
          (hclient ▸ hwaits) (hclient ▸ held) hscan
        exact ⟨s', hworks.trans hworks', hhandled⟩
  · exact ⟨s, .refl, hunhandled⟩
termination_by (pending s, ahead n r r')
decreasing_by
  · rw [hpending]
    exact Prod.Lex.right _ hcloser
  · exact Prod.Lex.left _ _ hfewer

/-- The worker of a region, left to itself, handles the call that waits there. -/
theorem exists_handled {call : Nat} {sent : Body} (inv : Inv ops kind n s) (total : ops.Total)
    (hn : 0 < n) (hwaits : (s.client i).Waits r call sent)
    (held : (s.client i).region? = some r) :
    ∃ s', Works ops kind n (r % n) s s' ∧ ¬ Unhandled s'.handled call := by
  obtain ⟨s₁, r', hworks, hscan⟩ := exists_scan inv total (Nat.mod_lt r hn)
  have hclient := works_client hworks
  obtain ⟨s', hworks', hhandled⟩ := exists_handled_of_scan (inv.works hworks) total hn
    (hclient ▸ hwaits) (hclient ▸ held) hscan
  exact ⟨s', hworks.trans hworks', hhandled⟩

end Rpc

end Zeno
