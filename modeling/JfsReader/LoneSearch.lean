import JfsReader.SharedBuffers
import Mathlib.Logic.Relation

/-!
# A call that runs alone

The steps of one call, taken without any other one in between, are those of
`xt_Lookup` as a whole: both come to the same values and leave the same page
buffers.
-/

namespace JfsReader

open StepMachine

/-- The rest of `bRead` once the buffer has been taken off the list. -/
def fillBuffer (m : Mount) (call : XtCall) (bp t64 : ℕ) (cmp : ℤ) (pool : BufPool) :
    XtState ⊕ XtEnd :=
  match m.ujfsReadDiskblocks (t64 <<< m.l2bsize) ((pageSize >>> m.l2bsize) <<< m.l2bsize)
      (pool.heap.shift (pool.bData bp)) with
  | some data =>
      .inl (xtSearchPage call (.data (pool.bData bp)) (some bp) cmp (pool.write bp data))
  | none => .inr .faulted

/-- What `xt_Lookup` goes on with, the parent page given back. -/
def XtNext.resume (m : Mount) (call : XtCall) (pool : BufPool) : XtNext → XtState ⊕ XtEnd
  | descend t64 cmp =>
      match BufPool.bRead m m.ujfsReadDiskblocks t64 (pageSize >>> m.l2bsize) pool with
      | .exited => .inr .exited
      | .done bp pool => .inl (xtSearchPage call (.data (pool.bData bp)) (some bp) cmp pool)
      | .faulted | .failed _ => .inr .faulted
  | out rc xaddr xlen => .inr (.returned rc xaddr xlen pool)

/-- Where `xt_Lookup` stands when the call is in this phase. -/
def ReaderPhase.stands (m : Mount) (call : XtCall) (pool : BufPool) :
    ReaderPhase → XtState ⊕ XtEnd
  | start => .inl (xtStart call pool)
  | searching f => .inl (f.on pool)
  | releasing bp next => next.resume m call (pool.bRelease bp)
  | linked bp next => next.resume m call (pool.setHead (some bp))
  | reading t64 cmp => (XtNext.descend t64 cmp).resume m call pool
  | taking t64 cmp =>
      match pool.bCachelist with
      | some bp => fillBuffer m call bp t64 cmp (pool.setHead (pool.bNext bp))
      | none => .inr .faulted
  | unlinking bp t64 cmp => fillBuffer m call bp t64 cmp (pool.setHead (pool.bNext bp))
  | copying bp t64 cmp => fillBuffer m call bp t64 cmp pool
  | returned rc xaddr xlen => .inr (.returned rc xaddr xlen pool)
  | faulted => .inr .faulted

/-- How the rest of `xt_Lookup` ends. -/
def EndsIn (m : Mount) (call : XtCall) (out : XtEnd) : XtState ⊕ XtEnd → Prop
  | .inl t => Returns (xtStep m m.ujfsReadDiskblocks call) t out
  | .inr r => r = out

variable {m : Mount} {calls : ℕ → XtCall} {call : XtCall} {s s' : ReaderSystem} {t : XtState}
  {pool pool' : BufPool} {next : XtNext} {o : Option ℕ} {i j t64 : ℕ} {cmp rc xaddr xlen : ℤ}
  {out : XtEnd}

theorem xtDescend_resume (index cmp : ℤ) :
    xtDescend m m.ujfsReadDiskblocks call t index cmp =
      (XtNext.descend (addressXAD ((t.page call).xad index)) cmp).resume m call
        (releasePage t.bp t.pool) := by
  unfold xtDescend XtNext.resume
  dsimp only
  cases hread : BufPool.bRead m m.ujfsReadDiskblocks (addressXAD ((t.page call).xad index))
      (pageSize >>> m.l2bsize) (releasePage t.bp t.pool) with
  | failed pool => exact absurd hread bRead_ne_failed
  | _ => rfl

/-- One round of `xt_Lookup` is one round of the call, or what follows its page. -/
theorem xtStep_eq (m : Mount) (call : XtCall) (t : XtState) :
    xtStep m m.ujfsReadDiskblocks call t =
      match xtRound call t with
      | .inl f => .inl (f.on t.pool)
      | .inr next => next.resume m call (releasePage t.bp t.pool) := by
  unfold xtStep xtRound
  simp only [xtDescend_resume]
  split_ifs <;> rfl

theorem endsIn_step (t : XtState) :
    EndsIn m call out (.inl t) ↔ EndsIn m call out (xtStep m m.ujfsReadDiskblocks call t) := by
  cases hstep : xtStep m m.ujfsReadDiskblocks call t with
  | inl t' =>
      constructor
      · rintro ⟨n, hrun⟩
        exact ⟨_, (run_sub_of_inl (n := 1) (run_succ_of_inl hstep) hrun).2⟩
      · rintro ⟨n, hrun⟩
        exact ⟨n + 1, (run_succ_of_inl hstep).trans hrun⟩
  | inr r =>
      constructor
      · rintro ⟨n, hrun⟩
        exact Returns.unique ⟨1, run_succ_of_inr hstep⟩ ⟨n, hrun⟩
      · rintro rfl
        exact ⟨1, run_succ_of_inr hstep⟩

theorem XtNext.phase_stands : next.phase.stands m call pool = next.resume m call pool := by
  cases next <;> rfl

theorem XtNext.leave_stands :
    (next.leave o).stands m call pool = next.resume m call (releasePage o pool) := by
  cases o with
  | none => exact phase_stands
  | some bp => rfl

theorem resume_of_ready {cmp : ℤ}
    (hready : (if pool.bCachelist.isNone then pool.bAllocate m else some pool) = some pool') :
    (XtNext.descend t64 cmp).resume m call pool =
      (ReaderPhase.taking t64 cmp).stands m call pool' := by
  unfold XtNext.resume BufPool.bRead ReaderPhase.stands
  rw [hready]
  cases hhead : pool'.bCachelist with
  | none => simp only [hhead]
  | some bp =>
      simp only [hhead]
      rfl

/-! ## What the steps of a call come to -/

/-- A step leaves open what the call comes to. -/
theorem ReaderStep.endsIn (h : ReaderStep m calls i s s') :
    EndsIn m (calls i) out ((s.phase i).stands m (calls i) s.pool) ↔
      EndsIn m (calls i) out ((s'.phase i).stands m (calls i) s'.pool) := by
  cases h with
  | start hphase =>
      rw [hphase, ReaderSystem.setPhase_self]
      rfl
  | @round f f' hphase hround =>
      rw [hphase, ReaderSystem.setPhase_self]
      refine (endsIn_step _).trans ?_
      rw [xtStep_eq, hround]
      rfl
  | @leave f next hphase hround =>
      rw [hphase, ReaderSystem.setPhase_self, XtNext.leave_stands]
      refine (endsIn_step _).trans ?_
      rw [xtStep_eq, hround]
      rfl
  | link hphase =>
      rw [hphase, ReaderSystem.setPhase_self]
      rfl
  | push hphase =>
      rw [hphase, ReaderSystem.setPhase_self, XtNext.phase_stands]
      rfl
  | test hphase hready =>
      rw [hphase, ReaderSystem.setPhase_self]
      exact iff_of_eq (congrArg _ (resume_of_ready hready))
  | take hphase hhead =>
      rw [hphase, ReaderSystem.setPhase_self]
      unfold ReaderPhase.stands
      rw [hhead]
      rfl
  | fault hphase hhead =>
      rw [hphase, ReaderSystem.setPhase_self]
      unfold ReaderPhase.stands
      rw [hhead]
  | unlink hphase =>
      rw [hphase, ReaderSystem.setPhase_self]
      rfl
  | copy hphase hread =>
      rw [hphase, ReaderSystem.setPhase_self]
      unfold ReaderPhase.stands fillBuffer
      simp only [hread]
      rfl

theorem endsIn_of_steps (out : XtEnd) (h : Relation.ReflTransGen (ReaderStep m calls i) s s') :
    EndsIn m (calls i) out ((s.phase i).stands m (calls i) s.pool) ↔
      EndsIn m (calls i) out ((s'.phase i).stands m (calls i) s'.pool) := by
  induction h with
  | refl => rfl
  | tail _ hstep ih => exact ih.trans hstep.endsIn

/-! ## The steps of a call are taken -/

theorem exists_steps {α : Type*} {r : α → α → Prop} {a b : α} {P : α → Prop} (h : r a b)
    (hrest : ∃ c, Relation.ReflTransGen r b c ∧ P c) : ∃ c, Relation.ReflTransGen r a c ∧ P c := by
  obtain ⟨c, hsteps, hP⟩ := hrest
  exact ⟨c, .head h hsteps, hP⟩

/-- The steps of a call are no steps of another one. -/
theorem phase_of_steps (h : Relation.ReflTransGen (ReaderStep m calls i) s s') (hne : j ≠ i) :
    s'.phase j = s.phase j := by
  induction h with
  | refl => rfl
  | tail _ hstep ih => exact (hstep.phase_of_ne hne).trans ih

/-- The parent page is given back in no step or in two. -/
theorem exists_released (m : Mount) (calls : ℕ → XtCall) (hphase : s.phase i = next.leave o) :
    ∃ s', Relation.ReflTransGen (ReaderStep m calls i) s s' ∧ s'.phase i = next.phase ∧
      s'.pool = releasePage o s.pool := by
  cases o with
  | none => exact ⟨s, .refl, hphase, rfl⟩
  | some bp =>
      refine exists_steps (ReaderStep.link hphase) ?_
      refine exists_steps (ReaderStep.push ReaderSystem.setPhase_self) ?_
      exact ⟨_, .refl, ReaderSystem.setPhase_self, rfl⟩

/-- A buffer is taken off the list in three steps. -/
theorem exists_taken (calls : ℕ → XtCall) {bp : ℕ} (hphase : s.phase i = .reading t64 cmp)
    (hready : (if s.pool.bCachelist.isNone then s.pool.bAllocate m else some s.pool) = some pool)
    (hhead : pool.bCachelist = some bp) :
    ∃ s', Relation.ReflTransGen (ReaderStep m calls i) s s' ∧
      s'.phase i = .copying bp t64 cmp ∧ s'.pool = pool.setHead (pool.bNext bp) := by
  refine exists_steps (ReaderStep.test hphase hready) ?_
  refine exists_steps (ReaderStep.take ReaderSystem.setPhase_self hhead) ?_
  refine exists_steps (ReaderStep.unlink ReaderSystem.setPhase_self) ?_
  exact ⟨_, .refl, ReaderSystem.setPhase_self, rfl⟩

theorem exists_read (calls : ℕ → XtCall) {bp : ℕ} (hphase : s.phase i = .reading t64 cmp)
    (hread : BufPool.bRead m m.ujfsReadDiskblocks t64 (pageSize >>> m.l2bsize) s.pool =
      .done bp pool) :
    ∃ s', Relation.ReflTransGen (ReaderStep m calls i) s s' ∧ s'.pool = pool ∧
      s'.phase i =
        .searching (xtSearchPage (calls i) (.data (pool.bData bp)) (some bp) cmp pool).frame := by
  unfold BufPool.bRead at hread
  split at hread
  next => cases hread
  next ready hready =>
    split at hread
    next => cases hread
    next hhead =>
      dsimp only at hread
      split at hread
      next data hdata =>
        cases hread
        obtain ⟨s₁, hsteps, hcopying, hpool⟩ := exists_taken calls hphase hready hhead
        refine ⟨_, hsteps.tail (ReaderStep.copy hcopying (by rw [hpool]; exact hdata)), ?_, ?_⟩
        · exact congrArg (BufPool.write · bp data) hpool
        · rw [ReaderSystem.setPhase_self, hpool]
          rfl
      next => cases hread

/-- From the search of a page on the call returns what `xt_Lookup` does. -/
theorem exists_returned (hphase : s.phase i = .searching t.frame) (hpool : s.pool = t.pool)
    (hreturns : Returns (xtStep m m.ujfsReadDiskblocks (calls i)) t
      (.returned rc xaddr xlen pool)) :
    ∃ s', Relation.ReflTransGen (ReaderStep m calls i) s s' ∧
      s'.phase i = .returned rc xaddr xlen ∧ s'.pool = pool := by
  obtain ⟨n, hrun⟩ := hreturns
  induction n generalizing s t with
  | zero => simp at hrun
  | succ n ih =>
      have hstep := xtStep_eq m (calls i) t
      have hon : t.frame.on s.pool = t := by rw [hpool]; rfl
      cases hround : xtRound (calls i) t with
      | inl f =>
          rw [hround] at hstep
          rw [run_succ_of_inl hstep] at hrun
          refine exists_steps (ReaderStep.round hphase (hon.symm ▸ hround)) ?_
          exact ih (t := f.on t.pool) ReaderSystem.setPhase_self hpool hrun
      | inr next =>
          rw [hround] at hstep
          refine exists_steps (ReaderStep.leave hphase (hon.symm ▸ hround)) ?_
          obtain ⟨s₁, hleft, hphase₁, hpool₁⟩ :=
            exists_released m calls (s := s.setPhase i (next.leave t.bp))
              ReaderSystem.setPhase_self
          have hreleased : s₁.pool = releasePage t.bp t.pool := by rw [← hpool]; exact hpool₁
          cases next with
          | out rc' xaddr' xlen' =>
              rw [run_succ_of_inr hstep] at hrun
              cases hrun
              exact ⟨s₁, hleft, hphase₁, hreleased⟩
          | descend t64 cmp =>
              unfold XtNext.resume at hstep
              cases hread : BufPool.bRead m m.ujfsReadDiskblocks t64 (pageSize >>> m.l2bsize)
                  (releasePage t.bp t.pool) with
              | done bp filled =>
                  simp only [hread] at hstep
                  rw [run_succ_of_inl hstep] at hrun
                  obtain ⟨s₂, hfilled, hpool₂, hphase₂⟩ :=
                    exists_read calls hphase₁ (hreleased ▸ hread)
                  obtain ⟨s₃, hlast, hdone⟩ := ih hphase₂ hpool₂ hrun
                  exact ⟨s₃, (hleft.trans hfilled).trans hlast, hdone⟩
              | _ =>
                  simp only [hread] at hstep
                  rw [run_succ_of_inr hstep] at hrun
                  cases hrun

/-- A call that runs alone is a run of `xt_Lookup`. -/
theorem lone_search_iff (hstart : s.phase i = .start) :
    (∃ s', Relation.ReflTransGen (ReaderStep m calls i) s s' ∧
      s'.phase i = .returned rc xaddr xlen ∧ s'.pool = pool) ↔
        XtLookupEnds m (calls i) s.pool (.returned rc xaddr xlen pool) := by
  constructor
  · rintro ⟨s', hsteps, hphase, rfl⟩
    have hends := (endsIn_of_steps (.returned rc xaddr xlen s'.pool) hsteps).mpr
    rw [hstart, hphase] at hends
    exact hends rfl
  · intro hends
    refine exists_steps (ReaderStep.start hstart) ?_
    exact exists_returned (t := xtStart (calls i) s.pool) ReaderSystem.setPhase_self rfl hends

end JfsReader
