import Mathlib.Data.Sum.Basic
import Mathlib.Tactic

/-!
# Deterministic step machines

A loop with `goto`s is a function from a state to either the next state or a
returned value.  `run` takes a bounded number of such steps, and `Returns`
says that some number of steps ends with the given value.  The rules below are
the ones the development uses: determinism, an invariant rule, a measure rule
for termination, a machine run inside another, lockstep comparison of two
machines, and loops over a list.
-/

namespace StepMachine

variable {σ τ ρ κ ε : Type*}

def run (step : σ → σ ⊕ ρ) : ℕ → σ → σ ⊕ ρ
  | 0, s => .inl s
  | n + 1, s =>
      match step s with
      | .inl next => run step n next
      | .inr r => .inr r

def Returns (step : σ → σ ⊕ ρ) (s : σ) (r : ρ) : Prop :=
  ∃ n, run step n s = .inr r

variable {step : σ → σ ⊕ ρ} {s s' : σ} {r r' : ρ} {n m : ℕ}

@[simp] theorem run_zero : run step 0 s = .inl s := rfl

theorem run_succ_of_inl (h : step s = .inl s') :
    run step (n + 1) s = run step n s' := by
  simp [run, h]

theorem run_succ_of_inr (h : step s = .inr r) :
    run step (n + 1) s = .inr r := by
  simp [run, h]

theorem run_add_of_inl (h : run step n s = .inl s') :
    run step (n + m) s = run step m s' := by
  induction n generalizing s with
  | zero =>
      simp only [run_zero, Sum.inl.injEq] at h
      subst s'
      simp
  | succ n ih =>
      rw [show n + 1 + m = (n + m) + 1 by omega]
      cases hstep : step s with
      | inl next =>
          rw [run_succ_of_inl hstep] at h ⊢
          exact ih h
      | inr r =>
          rw [run_succ_of_inr hstep] at h
          contradiction

theorem run_succ_of_last {next : σ} (h : run step n s = .inl s') (hlast : step s' = .inl next) :
    run step (n + 1) s = .inl next := by
  rw [run_add_of_inl h, run_succ_of_inl hlast]
  rfl

theorem run_add_of_inr (h : run step n s = .inr r) :
    run step (n + m) s = .inr r := by
  induction n generalizing s with
  | zero => simp at h
  | succ n ih =>
      rw [show n + 1 + m = (n + m) + 1 by omega]
      cases hstep : step s with
      | inl next =>
          rw [run_succ_of_inl hstep] at h ⊢
          exact ih h
      | inr r' =>
          rw [run_succ_of_inr hstep] at h ⊢
          exact h

theorem run_of_le (h : run step n s = .inr r) (hle : n ≤ m) :
    run step m s = .inr r := by
  obtain ⟨k, rfl⟩ := Nat.exists_eq_add_of_le hle
  exact run_add_of_inr h

theorem Returns.unique (h : Returns step s r) (h' : Returns step s r') :
    r = r' := by
  obtain ⟨n, hn⟩ := h
  obtain ⟨m, hm⟩ := h'
  have hleft := run_of_le hn (Nat.le_max_left n m)
  have hright := run_of_le hm (Nat.le_max_right n m)
  rw [hleft] at hright
  simpa using hright

theorem Returns.of_run (h : run step n s = .inl s')
    (hreturns : Returns step s' r) : Returns step s r := by
  obtain ⟨m, hm⟩ := hreturns
  exact ⟨n + m, by rw [run_add_of_inl h, hm]⟩

theorem Returns.of_last_step (h : run step n s = .inl s') (hlast : step s' = .inr r) :
    Returns step s r :=
  .of_run h ⟨1, run_succ_of_inr hlast⟩

theorem exists_last_step (h : run step n s = .inr r) :
    ∃ k s', run step k s = .inl s' ∧ step s' = .inr r := by
  induction n generalizing s with
  | zero => simp at h
  | succ n ih =>
      cases hstep : step s with
      | inl next =>
          rw [run_succ_of_inl hstep] at h
          obtain ⟨k, s', hrun, hlast⟩ := ih h
          exact ⟨k + 1, s', by rw [run_succ_of_inl hstep, hrun], hlast⟩
      | inr r' =>
          rw [run_succ_of_inr hstep] at h
          exact ⟨0, s, rfl, by rw [hstep, h]⟩

theorem run_embed {outer : τ → τ ⊕ κ} (embed : σ → τ)
    (hembed : ∀ s s', step s = .inl s' → outer (embed s) = .inl (embed s'))
    (hrun : run step n s = .inl s') :
    run outer n (embed s) = .inl (embed s') := by
  induction n generalizing s with
  | zero =>
      simp only [run_zero, Sum.inl.injEq] at hrun
      subst s'
      rfl
  | succ n ih =>
      cases hstep : step s with
      | inl next =>
          rw [run_succ_of_inl hstep] at hrun
          rw [run_succ_of_inl (hembed s next hstep)]
          exact ih hrun
      | inr r =>
          rw [run_succ_of_inr hstep] at hrun
          contradiction

/-- A machine that runs another one inside its states follows it to its end;
`resolve` is what it makes of the value returned there. -/
theorem exists_run_resolved {outer : τ → τ ⊕ κ} (embed : σ → τ) (resolve : ρ → τ ⊕ κ)
    (hembed : ∀ s s', step s = .inl s' → outer (embed s) = .inl (embed s'))
    (hresolve : ∀ s r, step s = .inr r → outer (embed s) = resolve r)
    (hrun : run step n s = .inr r) :
    ∃ k t, run outer k (embed s) = .inl t ∧ outer t = resolve r := by
  obtain ⟨k, last, hreach, hlast⟩ := exists_last_step hrun
  exact ⟨k, embed last, run_embed embed hembed hreach, hresolve last r hlast⟩

/-- Where the inner machine never returns, the outer one does not either. -/
theorem not_returns_of_embed {outer : τ → τ ⊕ κ} (embed : σ → τ)
    (hembed : ∀ s s', step s = .inl s' → outer (embed s) = .inl (embed s'))
    (hnever : ∀ r, ¬ Returns step s r) (out : κ) : ¬ Returns outer (embed s) out := by
  rintro ⟨n, hrun⟩
  cases hstep : run step n s with
  | inl s' =>
      rw [run_embed embed hembed hstep] at hrun
      cases hrun
  | inr r => exact hnever r ⟨n, hstep⟩

theorem run_invariant {P : σ → Prop}
    (hstep : ∀ s s', P s → step s = .inl s' → P s')
    (hs : P s) (hrun : run step n s = .inl s') : P s' := by
  induction n generalizing s with
  | zero =>
      simp only [run_zero, Sum.inl.injEq] at hrun
      subst s'
      exact hs
  | succ n ih =>
      cases hnext : step s with
      | inl next =>
          rw [run_succ_of_inl hnext] at hrun
          exact ih (hstep s next hs hnext) hrun
      | inr r =>
          rw [run_succ_of_inr hnext] at hrun
          contradiction

/-- A machine whose steps keep an invariant and lower a measure returns, and
the value it returns satisfies what the returning step guarantees. -/
theorem exists_returns_of_measure (P : σ → Prop) (Q : ρ → Prop)
    (measure : σ → ℕ)
    (hinl : ∀ s s', P s → step s = .inl s' → P s' ∧ measure s' < measure s)
    (hinr : ∀ s r, P s → step s = .inr r → Q r)
    (hs : P s) : ∃ r, run step (measure s + 1) s = .inr r ∧ Q r := by
  induction hmeasure : measure s using Nat.strong_induction_on
    generalizing s with
  | _ k ih =>
      cases hnext : step s with
      | inl next =>
          obtain ⟨hP, hlt⟩ := hinl s next hs hnext
          obtain ⟨r, hrun, hQ⟩ := ih (measure next) (by omega) hP rfl
          refine ⟨r, ?_, hQ⟩
          rw [run_succ_of_inl hnext]
          exact run_of_le hrun (by omega)
      | inr r =>
          exact ⟨r, run_succ_of_inr hnext, hinr s r hs hnext⟩

theorem run_sub_of_inl (h : run step n s = .inl s') (hreturns : run step m s = .inr r) :
    n ≤ m ∧ run step (m - n) s' = .inr r := by
  have hle : n ≤ m := by
    by_contra hlt
    rw [run_of_le hreturns (by omega)] at h
    cases h
  obtain ⟨k, rfl⟩ := Nat.exists_eq_add_of_le hle
  rw [run_add_of_inl h] at hreturns
  rw [Nat.add_sub_cancel_left]
  exact ⟨hle, hreturns⟩

theorem exists_run_inl_of_le (h : run step n s = .inl s') (hle : m ≤ n) :
    ∃ t, run step m s = .inl t := by
  cases hrun : run step m s with
  | inl t => exact ⟨t, rfl⟩
  | inr r =>
      rw [run_of_le hrun hle] at h
      cases h

/-! ## Lockstep comparison -/

/-- The states a run passes through in its first `n` steps, as seen through
`observe`. -/
def trace (step : σ → σ ⊕ ρ) (observe : σ → ε) : ℕ → σ → List ε
  | 0, _ => []
  | n + 1, s =>
      observe s ::
        match step s with
        | .inl next => trace step observe n next
        | .inr _ => []

/-- Two machines whose steps match on the states they actually reach stay in
step for ever: after `n` steps both still run, in related states, or both
have returned, with related values. -/
theorem run_lockstep {step₁ : σ → σ ⊕ ρ} {step₂ : τ → τ ⊕ κ}
    {R : σ → τ → Prop} {Q : ρ → κ → Prop} {Good : σ → Prop} {s : σ} {t : τ}
    (hstep : ∀ s t, Good s → R s t → Sum.LiftRel R Q (step₁ s) (step₂ t))
    (hgood : ∀ n s', run step₁ n s = .inl s' → Good s')
    (hstart : R s t) (n : ℕ) :
    Sum.LiftRel R Q (run step₁ n s) (run step₂ n t) := by
  induction n generalizing s t with
  | zero => exact .inl hstart
  | succ n ih =>
      have hnow := hstep s t (hgood 0 s rfl) hstart
      cases hs : step₁ s with
      | inl s' =>
          cases ht : step₂ t with
          | inl t' =>
              rw [hs, ht, Sum.liftRel_inl_inl] at hnow
              rw [run_succ_of_inl hs, run_succ_of_inl ht]
              apply ih _ hnow
              intro k s'' hrun
              exact hgood (k + 1) s'' (by rw [run_succ_of_inl hs, hrun])
          | inr k =>
              rw [hs, ht] at hnow
              cases hnow
      | inr r =>
          cases ht : step₂ t with
          | inl t' =>
              rw [hs, ht] at hnow
              cases hnow
          | inr k =>
              rw [hs, ht] at hnow
              rw [run_succ_of_inr hs, run_succ_of_inr ht]
              exact hnow

theorem trace_lockstep {step₁ : σ → σ ⊕ ρ} {step₂ : τ → τ ⊕ κ}
    {R : σ → τ → Prop} {Q : ρ → κ → Prop} {Good : σ → Prop} {s : σ} {t : τ}
    {observe₁ : σ → ε} {observe₂ : τ → ε}
    (hstep : ∀ s t, Good s → R s t → Sum.LiftRel R Q (step₁ s) (step₂ t))
    (hobserve : ∀ s t, Good s → R s t → observe₁ s = observe₂ t)
    (hgood : ∀ n s', run step₁ n s = .inl s' → Good s')
    (hstart : R s t) (n : ℕ) :
    trace step₁ observe₁ n s = trace step₂ observe₂ n t := by
  induction n generalizing s t with
  | zero => rfl
  | succ n ih =>
      have hnow := hstep s t (hgood 0 s rfl) hstart
      have hsame := hobserve s t (hgood 0 s rfl) hstart
      cases hs : step₁ s with
      | inl s' =>
          cases ht : step₂ t with
          | inl t' =>
              rw [hs, ht, Sum.liftRel_inl_inl] at hnow
              simp only [trace, hs, ht, hsame]
              rw [ih _ hnow]
              intro k s'' hrun
              exact hgood (k + 1) s'' (by rw [run_succ_of_inl hs, hrun])
          | inr k =>
              rw [hs, ht] at hnow
              cases hnow
      | inr r =>
          cases ht : step₂ t with
          | inl t' =>
              rw [hs, ht] at hnow
              cases hnow
          | inr k => simp [trace, hs, ht, hsame]

/-! ## Loops over a list

A loop whose body may return early, and may itself be cut off. -/

section Scan

variable {α β : Type*}

def scan (visit : α → σ → Option (σ ⊕ ρ)) : List α → σ → Option (σ ⊕ ρ)
  | [], s => some (.inl s)
  | a :: as, s =>
      match visit a s with
      | none => none
      | some (.inl next) => scan visit as next
      | some (.inr r) => some (.inr r)

variable {visit : α → σ → Option (σ ⊕ ρ)}

theorem scan_append (as bs : List α) (s : σ) :
    scan visit (as ++ bs) s =
      match scan visit as s with
      | none => none
      | some (.inl next) => scan visit bs next
      | some (.inr r) => some (.inr r) := by
  induction as generalizing s with
  | nil => rfl
  | cons a as ih =>
      rw [List.cons_append, scan, scan]
      cases visit a s with
      | none => rfl
      | some u =>
          cases u with
          | inl next => exact ih next
          | inr r => rfl

theorem scan_map (f : β → α) (bs : List β) (s : σ) :
    scan visit (bs.map f) s = scan (fun b => visit (f b)) bs s := by
  induction bs generalizing s with
  | nil => rfl
  | cons b bs ih =>
      rw [List.map_cons, scan, scan]
      cases visit (f b) s with
      | none => rfl
      | some out =>
          cases out with
          | inl next => exact ih next
          | inr r => rfl

theorem scan_mono {visit' : α → σ → Option (σ ⊕ ρ)}
    (hvisit : ∀ a s r, visit a s = some r → visit' a s = some r) {as : List α} {s : σ}
    {r : σ ⊕ ρ} (hscan : scan visit as s = some r) : scan visit' as s = some r := by
  induction as generalizing s with
  | nil => exact hscan
  | cons a as ih =>
      rw [scan] at hscan ⊢
      cases hfirst : visit a s with
      | none =>
          rw [hfirst] at hscan
          cases hscan
      | some out =>
          rw [hfirst] at hscan
          rw [hvisit a s out hfirst]
          cases out with
          | inl next => exact ih hscan
          | inr result => exact hscan

theorem scan_forall₂ {visit' : β → σ → Option (σ ⊕ ρ)} {R : α → β → Prop}
    (hvisit : ∀ a b s, R a b → visit a s = visit' b s) {as : List α} {bs : List β}
    (h : List.Forall₂ R as bs) (s : σ) : scan visit as s = scan visit' bs s := by
  induction h generalizing s with
  | nil => rfl
  | @cons a b as bs hab _ ih =>
      rw [scan, scan, hvisit a b s hab]
      cases visit' b s with
      | none => rfl
      | some u =>
          cases u with
          | inl next => exact ih next
          | inr r => rfl

/-- The body of a loop that counts its rounds and acts in the round `pos`. -/
def countTo (pos : ℤ) (act : α → Option ρ) (a : α) (count : ℤ) : Option (ℤ ⊕ ρ) :=
  if count = pos then (act a).map .inr else some (.inl (count + 1))

variable {pos count : ℤ} {act : α → Option ρ} {as : List α}

theorem scan_countTo_of_lt {k : ℕ} {a : α} (hpos : pos = count + k) (ha : as[k]? = some a) :
    scan (countTo pos act) as count = (act a).map .inr := by
  induction as generalizing k count with
  | nil => simp at ha
  | cons b as ih =>
      rw [scan]
      cases k with
      | zero =>
          obtain rfl : b = a := by simpa using ha
          have hhere : count = pos := by omega
          simp only [countTo, hhere, if_true]
          cases act b <;> rfl
      | succ k =>
          have hlater : count ≠ pos := by omega
          simp only [countTo, hlater, if_false]
          exact ih (k := k) (by omega) (by simpa using ha)

theorem scan_countTo_of_not_mem (hpos : pos < count ∨ count + as.length ≤ pos) :
    scan (countTo pos act) as count = some (.inl (count + as.length)) := by
  induction as generalizing count with
  | nil => simp [scan]
  | cons b as ih =>
      rw [List.length_cons] at hpos ⊢
      have hne : count ≠ pos := by omega
      rw [scan]
      simp only [countTo, hne, if_false]
      rw [show scan (countTo pos act) as (count + 1) = _ from ih (by omega)]
      simp only [Option.some.injEq, Sum.inl.injEq]
      omega

end Scan

end StepMachine
