import Zeno.Sql.ParallelPlan

/-!
# Parallel sums

A column holds a RID of the files, which every worker of the server reads alike.  A
constant and the result of an operator are slots of the worker that made them.  So a
parallel sum over a bare column agrees with the serial one.  Any other sum does if no
parallel worker is served by the leader's worker, whose slots it would clear, and if all
rows are evaluated by the leader, unless the term is a bare constant.  Without NULLs it
does only then.

A row is one step here.  Where the sums agree that is no loss: besides the leader's requests
only `CMD_LOCAL_CLEAR` is sent, and to other workers.
-/

namespace Zeno

open Refine (Computes)

namespace Extension

/-! ## The final function -/

section Sums

variable {e : Env} {g : Gcm} {tee : Tee}

variable {n leader : Nat} {s : Server}

end Sums

/-! ## Sums that agree -/

section Agree

variable {e : Env} {g : Gcm} {pg : PgEnv} {n : Nat} {kv : KvMap} {q : Summand pg} {s : Server}
  {consts : List Cell} {tee₀ : Tee} {order : List Nat} {events : List Event}

variable {split : Split kv}

section Sums

variable (schedule : split.Schedule events) (horder : order.Perm (split.leader :: split.helpers))
  (hplan : evalConsts e g pg [] q.consts (s.tee (workerOf n split.leader)) = some (consts, tee₀))

include schedule horder hplan

end Sums

section SameSums

variable (schedule : split.Schedule events) (horder : order.Perm (split.leader :: split.helpers))
  (hplan : evalConsts e g pg [] q.consts (s.tee (workerOf n split.leader)) = some (consts, tee₀))

include schedule horder hplan

end SameSums

end Agree

/-! ## Sums that do not agree -/

section Disagree

variable {e : Env} {g : Gcm} {pg : PgEnv} {n : Nat} {kv : KvMap} {q : Summand pg}
  {split : Split kv}

end Disagree

/-! ## When the two sums agree -/

/-- Two fields of the files. -/
structure TwoFields (kv : KvMap) where
  first : RID
  second : RID
  stored : ∀ id ∈ [first, second], islocal id = false ∧ ∃ v, kv.Alive .int id v

/-- Two rows of one column each.  The leader has region 0 and there is one parallel worker, who
may evaluate the second row. -/
def TwoFields.split {kv : KvMap} (f : TwoFields kv) (helper : Nat) (shared : Bool) : Split kv where
  leader := 0
  helpers := [helper + 1]
  work := [(0, [(.int, some f.first)]),
    (if shared then helper + 1 else 0, [(.int, some f.second)])]
  nodup := by simp
  cover a ha := by
    rcases List.mem_cons.mp ha with rfl | ha
    · exact List.mem_cons_self
    · rw [List.mem_singleton.mp ha]
      cases shared <;> simp
  stored a ha c hc id hid := by
    rcases List.mem_cons.mp ha with rfl | ha
    · rw [List.mem_singleton.mp hc] at hid ⊢
      cases hid
      exact f.stored _ List.mem_cons_self
    · rw [List.mem_singleton.mp ha] at hc
      rw [List.mem_singleton.mp hc] at hid ⊢
      cases hid
      exact f.stored _ (List.mem_cons_of_mem _ List.mem_cons_self)

/-- A literal. -/
def literal : Summand .trivial := ⟨[.input (.int4In ⟨[49], by decide⟩)], constant⟩

end Extension

end Zeno
