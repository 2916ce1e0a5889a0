import JfsReader.StepMachine

/-!
# Binary search by halving a remaining count

The search keeps a left end `base` and a count `lim` of unexamined positions.
Each round probes `base + lim / 2`; going right moves `base` past the probe
and lowers `lim` by one before it is halved, going left only halves it.  With
these two updates `[base, base + lim)` is exactly the unexamined interval.

`compare i` is positive when the key lies to the right of position `i`,
negative when it lies to the left, and zero on a hit.
-/

namespace HalvingSearch

open StepMachine

structure State where
  base : ℤ
  lim : ℤ
  cmp : ℤ

inductive Outcome
  | hit (index : ℤ)
  | miss (base cmp : ℤ)

/-- The last comparison. -/
def Outcome.cmp : Outcome → ℤ
  | .hit _ => 0
  | .miss _ cmp => cmp

def State.probe (s : State) : ℤ :=
  s.base + s.lim / 2

def step (compare : ℤ → ℤ) (s : State) : State ⊕ Outcome :=
  if s.lim = 0 then .inr (.miss s.base s.cmp)
  else if compare s.probe = 0 then .inr (.hit s.probe)
  else if 0 < compare s.probe then
    .inl ⟨s.probe + 1, (s.lim - 1) / 2, compare s.probe⟩
  else .inl ⟨s.base, s.lim / 2, compare s.probe⟩

structure State.Within (lo hi : ℤ) (s : State) : Prop where
  lim_nonneg : 0 ≤ s.lim
  base_ge : lo ≤ s.base
  end_le : s.base + s.lim ≤ hi

theorem State.Within.start {lo hi : ℤ} (hle : lo ≤ hi) (cmp : ℤ) :
    State.Within lo hi ⟨lo, hi - lo, cmp⟩ := by
  constructor
  · dsimp only
    omega
  · exact le_rfl
  · dsimp only
    omega

theorem State.Within.probe_mem {lo hi : ℤ} {s : State}
    (hwithin : s.Within lo hi) (hlim : s.lim ≠ 0) :
    lo ≤ s.probe ∧ s.probe < hi := by
  obtain ⟨hnonneg, hbase, hend⟩ := hwithin
  unfold State.probe
  omega

theorem State.Within.right {lo hi : ℤ} {s : State}
    (hwithin : s.Within lo hi) (hlim : s.lim ≠ 0) (c : ℤ) :
    State.Within lo hi ⟨s.probe + 1, (s.lim - 1) / 2, c⟩ := by
  obtain ⟨hnonneg, hbase, hend⟩ := hwithin
  unfold State.probe
  constructor
  · dsimp only
    omega
  · dsimp only
    omega
  · dsimp only
    omega

theorem State.Within.left {lo hi : ℤ} {s : State}
    (hwithin : s.Within lo hi) (c : ℤ) :
    State.Within lo hi ⟨s.base, s.lim / 2, c⟩ := by
  obtain ⟨hnonneg, hbase, hend⟩ := hwithin
  constructor
  · dsimp only
    omega
  · exact hbase
  · dsimp only
    omega

theorem step_inl {compare : ℤ → ℤ} {s next : State} (hstep : step compare s = .inl next) :
    s.lim ≠ 0 ∧
      ((0 < compare s.probe ∧ next = ⟨s.probe + 1, (s.lim - 1) / 2, compare s.probe⟩) ∨
        (compare s.probe < 0 ∧ next = ⟨s.base, s.lim / 2, compare s.probe⟩)) := by
  unfold step at hstep
  split at hstep
  · contradiction
  · rename_i hlim
    refine ⟨hlim, ?_⟩
    split at hstep
    · contradiction
    · rename_i hne
      split at hstep
      · rename_i hpos
        exact .inl ⟨hpos, (Sum.inl.inj hstep).symm⟩
      · rename_i hpos
        exact .inr ⟨by omega, (Sum.inl.inj hstep).symm⟩

theorem step_inr {compare : ℤ → ℤ} {s : State} {out : Outcome}
    (hstep : step compare s = .inr out) :
    (s.lim = 0 ∧ out = .miss s.base s.cmp) ∨
      (s.lim ≠ 0 ∧ compare s.probe = 0 ∧ out = .hit s.probe) := by
  unfold step at hstep
  split at hstep
  · rename_i hlim
    exact .inl ⟨hlim, (Sum.inr.inj hstep).symm⟩
  · rename_i hlim
    split at hstep
    · rename_i hzero
      exact .inr ⟨hlim, hzero, (Sum.inr.inj hstep).symm⟩
    · split at hstep <;> contradiction

theorem step_within {compare : ℤ → ℤ} {lo hi : ℤ} {s next : State}
    (hwithin : s.Within lo hi) (hstep : step compare s = .inl next) :
    next.Within lo hi ∧ next.lim.toNat < s.lim.toNat := by
  have hnonneg := hwithin.lim_nonneg
  obtain ⟨hlim, ⟨-, rfl⟩ | ⟨-, rfl⟩⟩ := step_inl hstep
  · refine ⟨hwithin.right hlim _, ?_⟩
    dsimp only
    omega
  · refine ⟨hwithin.left _, ?_⟩
    dsimp only
    omega

/-- A key that is not to the right of a position is to the left of every later
one. -/
def Ordered (compare : ℤ → ℤ) (lo hi : ℤ) : Prop :=
  ∀ i j, lo ≤ i → i < j → j < hi → compare i ≤ 0 → compare j < 0

structure State.Invariant (compare : ℤ → ℤ) (lo hi : ℤ) (s : State) : Prop
    extends s.Within lo hi where
  left_of_base : ∀ i, lo ≤ i → i < s.base → 0 < compare i
  right_of_end : ∀ i, s.base + s.lim ≤ i → i < hi → compare i < 0
  cmp_ne : s.cmp ≠ 0 ∨ s.lim ≠ 0

theorem State.Invariant.start {compare : ℤ → ℤ} {lo hi cmp : ℤ} (hle : lo ≤ hi)
    (hcmp : cmp ≠ 0 ∨ lo < hi) : State.Invariant compare lo hi ⟨lo, hi - lo, cmp⟩ := by
  constructor
  · exact .start hle cmp
  · intro i hlo hi'
    dsimp only at hi'
    omega
  · intro i hlo hi'
    dsimp only at hlo
    omega
  · dsimp only
    omega

def Outcome.Correct (compare : ℤ → ℤ) (lo hi : ℤ) : Outcome → Prop
  | .hit index => lo ≤ index ∧ index < hi ∧ compare index = 0
  | .miss base cmp =>
      lo ≤ base ∧ base ≤ hi ∧
        (∀ i, lo ≤ i → i < base → 0 < compare i) ∧
        (∀ i, base ≤ i → i < hi → compare i < 0) ∧ cmp ≠ 0

theorem Outcome.Correct.congr {f g : ℤ → ℤ} {lo hi : ℤ} {out : Outcome}
    (hout : out.Correct f lo hi) (hfg : ∀ i, lo ≤ i → i < hi → f i = g i) :
    out.Correct g lo hi := by
  cases out with
  | hit index =>
      obtain ⟨hlo, hhi, hzero⟩ := hout
      exact ⟨hlo, hhi, by rw [← hfg index hlo hhi]; exact hzero⟩
  | miss base cmp =>
      obtain ⟨hlo, hhi, hbelow, habove, hcmp⟩ := hout
      refine ⟨hlo, hhi, ?_, ?_, hcmp⟩
      · intro i hi hib
        rw [← hfg i hi (by omega)]
        exact hbelow i hi hib
      · intro i hbi hi
        rw [← hfg i (by omega) hi]
        exact habove i hbi hi

theorem step_invariant {compare : ℤ → ℤ} {lo hi : ℤ} {s next : State}
    (hordered : Ordered compare lo hi) (hinv : s.Invariant compare lo hi)
    (hstep : step compare s = .inl next) :
    next.Invariant compare lo hi := by
  have hwithin := (step_within hinv.toWithin hstep).1
  have hleft := hinv.left_of_base
  have hright := hinv.right_of_end
  obtain ⟨hlim, ⟨hpos, rfl⟩ | ⟨hneg, rfl⟩⟩ := step_inl hstep
  · have hprobe := hinv.toWithin.probe_mem hlim
    refine ⟨hwithin, ?_, ?_, .inl (by dsimp only; omega)⟩
    · intro i hlo hi'
      dsimp only at hi'
      by_contra hnot
      rcases Int.lt_or_eq_of_le (Int.lt_add_one_iff.mp hi') with hlt | heq
      · have := hordered i s.probe hlo hlt hprobe.2 (by omega)
        omega
      · subst heq
        exact hnot hpos
    · intro i hi' hhi
      refine hright i ?_ hhi
      have := hinv.lim_nonneg
      unfold State.probe at hi'
      dsimp only at hi'
      omega
  · have hprobe := hinv.toWithin.probe_mem hlim
    refine ⟨hwithin, hleft, ?_, .inl (by dsimp only; omega)⟩
    intro i hi' hhi
    rcases Int.lt_or_eq_of_le (show s.probe ≤ i from hi') with hlt | heq
    · exact hordered s.probe i hprobe.1 hlt hhi (by omega)
    · subst heq
      exact hneg

theorem step_outcome {compare : ℤ → ℤ} {lo hi : ℤ} {s : State} {out : Outcome}
    (hinv : s.Invariant compare lo hi) (hstep : step compare s = .inr out) :
    out.Correct compare lo hi := by
  rcases step_inr hstep with ⟨hlim, rfl⟩ | ⟨hlim, hzero, rfl⟩
  · refine ⟨hinv.base_ge, ?_, hinv.left_of_base, ?_, ?_⟩
    · have := hinv.end_le
      omega
    · intro i hbase hhi
      exact hinv.right_of_end i (by omega) hhi
    · exact hinv.cmp_ne.resolve_right (fun h => h hlim)
  · have hprobe := hinv.toWithin.probe_mem hlim
    exact ⟨hprobe.1, hprobe.2, hzero⟩

/-- The search ends, and correctly, on every interval whose positions are in
order.  The last comparison is nonzero on a miss unless the interval is empty
and the caller handed in a zero. -/
theorem search_correct {compare : ℤ → ℤ} {lo hi : ℤ}
    (hordered : Ordered compare lo hi) (hle : lo ≤ hi) (cmp : ℤ)
    (hcmp : cmp ≠ 0 ∨ lo < hi) :
    ∃ n out, run (step compare) n ⟨lo, hi - lo, cmp⟩ = .inr out ∧
      out.Correct compare lo hi := by
  refine ⟨_, exists_returns_of_measure (State.Invariant compare lo hi)
    (Outcome.Correct compare lo hi) (fun s => s.lim.toNat) ?_ ?_ ?_⟩
  · intro s next hinv hstep
    exact ⟨step_invariant hordered hinv hstep,
      (step_within hinv.toWithin hstep).2⟩
  · intro s out hinv hstep
    exact step_outcome hinv hstep
  · exact .start hle hcmp

/-! ## Searches of any positions

The rounds come to an end whatever the comparisons say, as long as the count
is not negative to begin with. -/

/-- What the search from `s` ends with; `lim` rounds and one more are enough. -/
def outcome (compare : ℤ → ℤ) (s : State) : Outcome :=
  match run (step compare) (s.lim.toNat + 1) s with
  | .inl s => .miss s.base s.cmp
  | .inr out => out

theorem returns_outcome (compare : ℤ → ℤ) {s : State} (hlim : 0 ≤ s.lim) :
    Returns (step compare) s (outcome compare s) := by
  obtain ⟨out, hrun, -⟩ := @exists_returns_of_measure _ _ (step compare) s
    (State.Within s.base (s.base + s.lim)) (fun _ => True) (fun s => s.lim.toNat)
    (fun _ _ hwithin hstep => step_within hwithin hstep) (fun _ _ _ _ => trivial)
    ⟨hlim, le_rfl, le_rfl⟩
  refine ⟨_, hrun.trans ?_⟩
  rw [outcome, hrun]

def Outcome.Within (lo hi : ℤ) : Outcome → Prop
  | .hit index => lo ≤ index ∧ index < hi
  | .miss base _ => lo ≤ base ∧ base ≤ hi

theorem returns_within {compare : ℤ → ℤ} {lo hi : ℤ} {s : State} {out : Outcome}
    (hwithin : s.Within lo hi) (h : Returns (step compare) s out) : out.Within lo hi := by
  obtain ⟨n, hrun⟩ := h
  obtain ⟨k, last, hreach, hlast⟩ := exists_last_step hrun
  have hinside := run_invariant (fun _ _ hs hstep => (step_within hs hstep).1) hwithin hreach
  rcases step_inr hlast with ⟨hlim, rfl⟩ | ⟨hlim, -, rfl⟩
  · have hend := hinside.end_le
    exact ⟨hinside.base_ge, by omega⟩
  · exact hinside.probe_mem hlim

theorem compare_eq_zero_of_hit {compare : ℤ → ℤ} {s : State} {index : ℤ}
    (h : Returns (step compare) s (.hit index)) : compare index = 0 := by
  obtain ⟨n, hrun⟩ := h
  obtain ⟨k, last, -, hlast⟩ := exists_last_step hrun
  rcases step_inr hlast with ⟨-, heq⟩ | ⟨-, hzero, heq⟩
  · cases heq
  · cases heq
    exact hzero

/-- A miss carries the comparison that was handed in only where there was
nothing to compare. -/
theorem cmp_of_miss {compare : ℤ → ℤ} {s : State} {base cmp : ℤ}
    (h : Returns (step compare) s (.miss base cmp)) :
    cmp = 0 ↔ s.lim = 0 ∧ s.cmp = 0 := by
  by_cases hlim : s.lim = 0
  · have hstep : step compare s = .inr (.miss s.base s.cmp) := by
      unfold step
      rw [if_pos hlim]
    cases h.unique ⟨1, run_succ_of_inr hstep⟩
    exact (and_iff_right hlim).symm
  · obtain ⟨n, hrun⟩ := h
    obtain ⟨k, last, hreach, hlast⟩ := exists_last_step hrun
    have hkept : last.cmp ≠ 0 ∨ last.lim ≠ 0 := by
      apply run_invariant (P := fun t => t.cmp ≠ 0 ∨ t.lim ≠ 0) _ (.inr hlim) hreach
      intro t t' _ hstep
      obtain ⟨-, ⟨hpos, rfl⟩ | ⟨hneg, rfl⟩⟩ := step_inl hstep
      · exact .inl hpos.ne'
      · exact .inl hneg.ne
    rcases step_inr hlast with ⟨hend, heq⟩ | ⟨-, -, heq⟩
    · cases heq
      exact iff_of_false (hkept.resolve_right fun hne => hne hend) fun hboth => hlim hboth.1
    · cases heq

/-- The positions that the rounds from `s` compare. -/
inductive Probes (compare : ℤ → ℤ) : State → ℤ → Prop
  | here {s : State} : s.lim ≠ 0 → Probes compare s s.probe
  | later {s next : State} {i : ℤ} : step compare s = .inl next → Probes compare next i →
      Probes compare s i

theorem Probes.mem {compare : ℤ → ℤ} {lo hi i : ℤ} {s : State} (h : Probes compare s i)
    (hwithin : s.Within lo hi) : lo ≤ i ∧ i < hi := by
  induction h with
  | here hlim => exact hwithin.probe_mem hlim
  | later hstep _ ih => exact ih (step_within hwithin hstep).1

theorem step_congr {f g : ℤ → ℤ} {s : State} (hfg : s.lim ≠ 0 → f s.probe = g s.probe) :
    step f s = step g s := by
  unfold step
  by_cases hlim : s.lim = 0
  · simp only [hlim, if_true]
  · simp only [hfg hlim]

/-- Only what the rounds compare counts. -/
theorem run_congr_of_probes {f g : ℤ → ℤ} {s : State} (hfg : ∀ i, Probes f s i → f i = g i)
    (n : ℕ) : run (step f) n s = run (step g) n s := by
  induction n generalizing s with
  | zero => rfl
  | succ n ih =>
      have hsame : step f s = step g s := step_congr fun hlim => hfg _ (.here hlim)
      cases hstep : step f s with
      | inl next =>
          rw [run_succ_of_inl hstep, run_succ_of_inl (hsame.symm.trans hstep)]
          exact ih fun i hprobes => hfg i (.later hstep hprobes)
      | inr out => rw [run_succ_of_inr hstep, run_succ_of_inr (hsame.symm.trans hstep)]

theorem run_congr {f g : ℤ → ℤ} {lo hi : ℤ} {s : State} (hwithin : s.Within lo hi)
    (hfg : ∀ i, lo ≤ i → i < hi → f i = g i) (n : ℕ) : run (step f) n s = run (step g) n s :=
  run_congr_of_probes (fun i hprobes => hfg i (hprobes.mem hwithin).1 (hprobes.mem hwithin).2) n

/-- Outcomes that differ at most in the comparison a miss carries. -/
def SameEntry : Outcome → Outcome → Prop
  | .hit i, .hit j => i = j
  | .miss base _, .miss base' _ => base = base'
  | _, _ => False

theorem SameEntry.refl (out : Outcome) : SameEntry out out := by
  cases out <;> rfl

theorem SameEntry.symm {out out' : Outcome} (h : SameEntry out out') : SameEntry out' out := by
  cases out <;> cases out' <;> first | exact Eq.symm h | exact h

/-- The comparison a search starts with shows in its outcome only where there
is nothing to compare. -/
theorem returns_of_cmp {compare : ℤ → ℤ} {base lim cmp : ℤ} {out : Outcome}
    (h : Returns (step compare) ⟨base, lim, cmp⟩ out) (cmp' : ℤ) :
    ∃ out', Returns (step compare) ⟨base, lim, cmp'⟩ out' ∧ SameEntry out out' := by
  by_cases hlim : lim = 0
  · have hstep : ∀ cmp, step compare ⟨base, lim, cmp⟩ = .inr (.miss base cmp) := by
      intro cmp
      simp [step, hlim]
    have hout := h.unique ⟨1, run_succ_of_inr (hstep cmp)⟩
    subst hout
    exact ⟨_, ⟨1, run_succ_of_inr (hstep cmp')⟩, rfl⟩
  · have hstep : step compare ⟨base, lim, cmp⟩ = step compare ⟨base, lim, cmp'⟩ := by
      rw [step, step, if_neg hlim, if_neg hlim]
      rfl
    obtain ⟨n, hrun⟩ := h
    refine ⟨out, ?_, .refl out⟩
    cases n with
    | zero => simp at hrun
    | succ n =>
        refine ⟨n + 1, ?_⟩
        simpa only [run, hstep] using hrun

/-! ## Counts below zero

Halving brings a negative count to -1 or -2 and no further, so that only a hit
can end the search. -/

theorem Probes.returns {compare : ℤ → ℤ} {s : State} {i : ℤ} (h : Probes compare s i)
    (hzero : compare i = 0) : ∃ out, Returns (step compare) s out := by
  induction h with
  | @here s hlim =>
      refine ⟨.hit s.probe, 1, run_succ_of_inr ?_⟩
      unfold step
      rw [if_neg hlim, if_pos hzero]
  | later hstep _ ih =>
      obtain ⟨out, n, hrun⟩ := ih hzero
      exact ⟨out, n + 1, by rw [run_succ_of_inl hstep, hrun]⟩

theorem probes_of_returns {compare : ℤ → ℤ} {s : State} (hneg : s.lim < 0) {out : Outcome}
    (h : Returns (step compare) s out) :
    ∃ i, out = .hit i ∧ Probes compare s i ∧ compare i = 0 := by
  obtain ⟨n, hrun⟩ := h
  induction n generalizing s with
  | zero => simp at hrun
  | succ n ih =>
      cases hstep : step compare s with
      | inl next =>
          rw [run_succ_of_inl hstep] at hrun
          have hnext : next.lim < 0 := by
            obtain ⟨-, ⟨-, rfl⟩ | ⟨-, rfl⟩⟩ := step_inl hstep
            · dsimp only
              omega
            · dsimp only
              omega
          obtain ⟨i, hout, hprobes, hzero⟩ := ih hnext hrun
          exact ⟨i, hout, .later hstep hprobes, hzero⟩
      | inr r =>
          rw [run_succ_of_inr hstep] at hrun
          cases hrun
          rcases step_inr hstep with ⟨hlim, -⟩ | ⟨hlim, hzero, hout⟩
          · omega
          · exact ⟨_, hout, .here hlim, hzero⟩

theorem exists_returns_iff {compare : ℤ → ℤ} {s : State} :
    (∃ out, Returns (step compare) s out) ↔
      0 ≤ s.lim ∨ ∃ i, Probes compare s i ∧ compare i = 0 := by
  constructor
  · rintro ⟨out, h⟩
    by_cases hlim : 0 ≤ s.lim
    · exact .inl hlim
    · obtain ⟨i, -, hprobes, hzero⟩ := probes_of_returns (by omega) h
      exact .inr ⟨i, hprobes, hzero⟩
  · rintro (hlim | ⟨i, hprobes, hzero⟩)
    · exact ⟨_, returns_outcome compare hlim⟩
    · exact hprobes.returns hzero

/-- From -1 or -2 on the same position is compared for ever. -/
theorem probes_iff {compare : ℤ → ℤ} {s : State} (hlim : s.lim = -1 ∨ s.lim = -2) {i : ℤ} :
    Probes compare s i ↔ i = s.base - 1 := by
  constructor
  · intro h
    induction h with
    | here _ =>
        unfold State.probe
        omega
    | @later s next i hstep _ ih =>
        have hnext : (next.lim = -1 ∨ next.lim = -2) ∧ next.base = s.base := by
          obtain ⟨-, ⟨-, rfl⟩ | ⟨-, rfl⟩⟩ := step_inl hstep
          · unfold State.probe
            dsimp only
            omega
          · dsimp only
            omega
        rw [ih hnext.1, hnext.2]
  · rintro rfl
    have hprobe : s.base - 1 = s.probe := by
      unfold State.probe
      omega
    rw [hprobe]
    exact .here (by omega)

end HalvingSearch
