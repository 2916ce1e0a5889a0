import JfsReader.LoneSearch

/-!
# The sections of the calls

While no two calls are in a section at once, no page buffer is lost.  Whatever
call enters one while another call is still inside, the two can go on so that a
buffer is on the list of free ones and with a call, is with two calls, or is
nowhere any more.
-/

namespace JfsReader

open StepMachine FreeList

/-- Each buffer is on the free list or with one call. -/
def BuffersConserved (s : ReaderSystem) : Prop :=
  ∃ free, PoolConserved s.pool free fun i => (s.phase i).owned

/-- The steps of two calls. -/
def BothStep (m : Mount) (calls : ℕ → XtCall) (i j : ℕ) (s s' : ReaderSystem) : Prop :=
  ReaderStep m calls i s s' ∨ ReaderStep m calls j s s'

/-- The two calls can go on and lose a buffer. -/
def CanLose (m : Mount) (calls : ℕ → XtCall) (i j : ℕ) (s : ReaderSystem) : Prop :=
  ∃ s', Relation.ReflTransGen (BothStep m calls i j) s s' ∧ ¬ BuffersConserved s'

variable {m : Mount} {calls : ℕ → XtCall} {s s' : ReaderSystem} {pool pool' : BufPool}
  {free : List ℕ} {next next' : XtNext} {i j bp own t64 u64 : ℕ} {cmp cmp' : ℤ}

theorem exists_ready (hmem : m.HasMemory) (pool : BufPool) :
    ∃ pool', (if pool.bCachelist.isNone then pool.bAllocate m else some pool) = some pool' := by
  split
  next => exact BufPool.exists_bAllocate hmem pool
  next => exact ⟨pool, rfl⟩

/-! ## Sections apart -/

/-- While no two calls are in their sections at once, each buffer has its own page
and is on the free list or with one call, no call dereferences a null list, and
each searches the root or the page in its own buffer. -/
theorem shared_buffers_conserved (h : ReaderRun m calls SectionsApart s) :
    (∃ free, PoolShared s.pool free fun i => (s.phase i).owned) ∧
      (∀ i, s.phase i ≠ .faulted) ∧
      ∀ i f, s.phase i = .searching f → f.PointsOwn := by
  have hok := h.buffersOk
  refine ⟨hok.pool, fun i hfaulted => ?_, fun i f => hok.points⟩
  have hrelies := hok.relies i
  rw [hfaulted] at hrelies
  exact hrelies

/-- A call runs while no other one is in a section. -/
theorem ReaderRun.alone (h : ReaderRun m calls SectionsApart s)
    (halone : ∀ j, j ≠ i → ¬ (s.phase j).Inside)
    (hsteps : Relation.ReflTransGen (ReaderStep m calls i) s s') :
    ReaderRun m calls SectionsApart s' := by
  induction hsteps with
  | refl => exact h
  | tail hsteps hstep ih =>
      refine ih.step (fun henters j hj => ?_) hstep
      by_cases heq : j = i
      · rw [heq] at hj
        exact hj.not_enters henters
      · rw [phase_of_steps hsteps heq] at hj
        exact halone j heq hj

/-! Two searches of one tree, for the keys 6 and 1. -/

def twoCalls (i : ℕ) : XtCall := if i = 1 then ⟨twoLevelRoot, 1, 0, 100⟩ else twoLevelCall

theorem twoCalls_reading (hi : i = 0 ∨ i = 1) (hphase : s.phase i = .start) :
    ∃ s', Relation.ReflTransGen (ReaderStep twoLevelMount twoCalls i) s s' ∧
      s'.phase i = .reading 1 1 := by
  have hroot : (twoCalls i).root = twoLevelRoot := by rcases hi with rfl | rfl <;> rfl
  have hstart : ∀ pool, (xtStart (twoCalls i) pool).frame = ⟨.root, none, 2, 1, 1⟩ := by
    rcases hi with rfl | rfl <;> exact fun _ => rfl
  have hcmp : xtCmp (twoCalls i).xoff (twoLevelRoot.xad 2) = 1 := by
    rcases hi with rfl | rfl <;> decide
  have hround : ∀ pool, xtRound (twoCalls i) ((xtStart (twoCalls i) pool).frame.on pool) =
      .inl ⟨.root, none, 3, 0, 1⟩ := by
    intro pool
    rw [hstart]
    simp [xtRound, XtFrame.on, XtState.page, hroot, hcmp]
  have hleaf : twoLevelRoot.isLeaf = false := by decide
  have haddress : addressXAD (twoLevelRoot.xad 2) = 1 := by decide
  have hleave : ∀ pool, xtRound (twoCalls i) (XtFrame.on ⟨.root, none, 3, 0, 1⟩ pool) =
      .inr (.descend 1 1) := by
    intro pool
    simp [xtRound, XtFrame.on, XtState.page, hroot, hleaf, haddress]
  refine exists_steps (ReaderStep.start hphase) ?_
  refine exists_steps (ReaderStep.round ReaderSystem.setPhase_self (hround _)) ?_
  refine exists_steps (ReaderStep.leave ReaderSystem.setPhase_self (hleave _)) ?_
  exact ⟨_, .refl, ReaderSystem.setPhase_self⟩

/-- Both calls have come to the page below the root. -/
theorem twoCalls_run : ∃ s, ReaderRun twoLevelMount twoCalls SectionsApart s ∧
    s.phase 0 = .reading 1 1 ∧ s.phase 1 = .reading 1 1 ∧
    ∀ i, i ≠ 0 → i ≠ 1 → s.phase i = .start := by
  have hinit : ReaderRun twoLevelMount twoCalls SectionsApart ⟨emptyPool, fun _ => .start⟩ :=
    .init rfl rfl
  obtain ⟨s₁, hsteps₁, hphase₁⟩ := twoCalls_reading (s := ⟨emptyPool, fun _ => .start⟩) (.inl rfl)
    rfl
  have hrun₁ := hinit.alone (fun _ _ => by simp [ReaderPhase.Inside]) hsteps₁
  have hothers₁ : ∀ j, j ≠ 0 → s₁.phase j = .start := fun j => phase_of_steps hsteps₁
  have houtside : ∀ j, j ≠ 1 → ¬ (s₁.phase j).Inside := by
    intro j _
    by_cases heq : j = 0
    · rw [heq, hphase₁]
      simp [ReaderPhase.Inside]
    · rw [hothers₁ j heq]
      simp [ReaderPhase.Inside]
  obtain ⟨s₂, hsteps₂, hphase₂⟩ := twoCalls_reading (.inr rfl) (hothers₁ 1 one_ne_zero)
  refine ⟨s₂, hrun₁.alone houtside hsteps₂, (phase_of_steps hsteps₂ zero_ne_one).trans hphase₁,
    hphase₂, fun j hzero hone => ?_⟩
  exact (phase_of_steps hsteps₂ hone).trans (hothers₁ j hzero)

theorem twoCalls_outside (hzero : ¬ (s.phase 0).Inside) (hone : ¬ (s.phase 1).Inside)
    (hothers : ∀ i, i ≠ 0 → i ≠ 1 → s.phase i = .start) (j : ℕ) : ¬ (s.phase j).Inside := by
  by_cases h0 : j = 0
  · rwa [h0]
  · by_cases h1 : j = 1
    · rwa [h1]
    · rw [hothers j h0 h1]
      simp [ReaderPhase.Inside]

theorem ReaderRun.exists_taking (h : ReaderRun m calls SectionsApart s) (hmem : m.HasMemory)
    (hnone : ∀ j, ¬ (s.phase j).Inside) (hi : s.phase i = .reading t64 cmp) :
    ∃ s', ReaderRun m calls SectionsApart s' ∧ s'.phase i = .taking t64 cmp ∧
      ∀ j, j ≠ i → s'.phase j = s.phase j := by
  obtain ⟨pool, hready⟩ := exists_ready hmem s.pool
  have hstep : ReaderStep m calls i s _ := .test hi hready
  exact ⟨_, h.step (fun _ => hnone) hstep, ReaderSystem.setPhase_self,
    fun j hne => hstep.phase_of_ne hne⟩

/-- One call is searching the page in its buffer, the other one is about to take
one. -/
theorem twoCalls_searching : ∃ s f, ReaderRun twoLevelMount twoCalls SectionsApart s ∧
    s.phase 0 = .searching f ∧ f.bp ≠ none ∧ s.phase 1 = .taking 1 1 ∧
    ∀ i, i ≠ 0 → i ≠ 1 → s.phase i = .start := by
  obtain ⟨s, hrun, hzero, hone, hothers⟩ := twoCalls_run
  have hreading : ¬ (ReaderPhase.reading 1 1).Inside := by simp [ReaderPhase.Inside]
  have houtside := twoCalls_outside (hzero ▸ hreading) (hone ▸ hreading) hothers
  obtain ⟨bp, pool, hread, -⟩ := BufPool.bRead_eq (m := twoLevelMount) (fun _ => rfl) 1 s.pool
  obtain ⟨s₁, hsteps, -, hphase⟩ := exists_read twoCalls hzero hread
  have hrun₁ := hrun.alone (fun j _ => houtside j) hsteps
  have hothers₁ : ∀ j, j ≠ 0 → s₁.phase j = s.phase j := fun j => phase_of_steps hsteps
  have hone₁ := (hothers₁ 1 one_ne_zero).trans hone
  have houtside₁ := twoCalls_outside (s := s₁) (by rw [hphase]; simp [ReaderPhase.Inside])
    (hone₁ ▸ hreading) fun j h0 h1 => (hothers₁ j h0).trans (hothers j h0 h1)
  obtain ⟨s₂, hrun₂, htaking, hothers₂⟩ := hrun₁.exists_taking (fun _ => rfl) houtside₁ hone₁
  exact ⟨s₂, _, hrun₂, (hothers₂ 0 zero_ne_one).trans hphase, Option.some_ne_none bp, htaking,
    fun j h0 h1 => (hothers₂ j h1).trans ((hothers₁ j h0).trans (hothers j h0 h1))⟩

theorem shared_buffers_conserved_twoCalls :
    ∃ s bp free, ReaderRun twoLevelMount twoCalls SectionsApart s ∧
      (s.phase 0).owned = some bp ∧ (s.phase 1).Inside ∧
      PoolShared s.pool free (fun i => (s.phase i).owned) ∧ bp ∉ free := by
  obtain ⟨s, f, hrun, hphase, hbp, hinside, -⟩ := twoCalls_searching
  obtain ⟨bp, hbp⟩ := Option.ne_none_iff_exists'.1 hbp
  obtain ⟨⟨free, hpool⟩, -⟩ := shared_buffers_conserved hrun
  have howner : (s.phase 0).owned = some bp := by
    rw [hphase]
    exact hbp
  exact ⟨s, bp, free, hrun, howner, .inr (.inl ⟨1, 1, hinside⟩), hpool, hpool.disjoint howner⟩

/-! ## Sections that overlap -/

theorem CanLose.step (h : BothStep m calls i j s s') (hlose : CanLose m calls i j s') :
    CanLose m calls i j s :=
  exists_steps h hlose

/-- First the one, then a step of the other. -/
theorem CanLose.of_steps {t : ReaderSystem}
    (hsteps : Relation.ReflTransGen (ReaderStep m calls i) s s')
    (hstep : ReaderStep m calls j s' t) (hnot : ¬ BuffersConserved t) : CanLose m calls i j s :=
  ⟨t, (Relation.ReflTransGen.mono (fun _ _ h => Or.inl h) s s' hsteps).tail (.inr hstep), hnot⟩

theorem ready_of_head (m : Mount) (hhead : pool.bCachelist = some bp) :
    (if pool.bCachelist.isNone then pool.bAllocate m else some pool) = some pool := by
  rw [hhead]
  rfl

theorem not_conserved_of_two (hne : i ≠ j) (hi : (s.phase i).owned = some bp)
    (hj : (s.phase j).owned = some bp) : ¬ BuffersConserved s := by
  rintro ⟨free, hpool⟩
  exact hne (hpool.unique hi hj)

/-- A buffer that no call holds is on the list. -/
theorem BuffersConserved.mem (h : BuffersConserved s)
    (hchain : Spells s.pool.bNext s.pool.bCachelist free) (hbp : bp < s.pool.nBuffer)
    (hnone : ∀ k, (s.phase k).owned ≠ some bp) : bp ∈ free := by
  obtain ⟨free', hpool⟩ := h
  obtain rfl := hchain.unique hpool.chain
  exact ((hpool.allocated bp).1 hbp).resolve_right fun ⟨k, hk⟩ => hnone k hk

/-- Both have read the head of the list. -/
theorem canLose_reading_unlinking (hne : i ≠ j) (hi : s.phase i = .reading t64 cmp)
    (hj : s.phase j = .unlinking bp u64 cmp') (hhead : s.pool.bCachelist = some bp) :
    CanLose m calls i j s := by
  obtain ⟨t, hsteps, hcopying, -⟩ := exists_taken calls hi (ready_of_head m hhead) hhead
  refine .of_steps hsteps (.unlink ((phase_of_steps hsteps hne.symm).trans hj)) ?_
  refine not_conserved_of_two hne ?_ (congrArg _ ReaderSystem.setPhase_self)
  rw [ReaderSystem.setPhase_of_ne hne]
  exact congrArg _ hcopying

section Release

variable (hpool : PoolConserved s.pool free fun k => (s.phase k).owned)
  (hi : s.phase i = .releasing own next)
include hpool hi

/-- The links of the list when the buffer points to its head. -/
theorem linked_chain : Spells (Function.update s.pool.bNext own s.pool.bCachelist)
    s.pool.bCachelist free := by
  have howner : (s.phase i).owned = some own := by rw [hi]; rfl
  refine hpool.chain.frame fun b hb => Function.update_of_ne ?_ ..
  rintro rfl
  exact hpool.disjoint howner hb

/-- Nobody has the buffer that has been given back. -/
theorem not_owned_released {t : ReaderSystem} {p : ReaderPhase} (hphase : t.phase i = next.phase)
    (hothers : ∀ k, k ≠ i → t.phase k = s.phase k) (hp : p.owned ≠ some own) (k : ℕ) :
    ((t.setPhase j p).phase k).owned ≠ some own := by
  have howner : (s.phase i).owned = some own := by rw [hi]; rfl
  intro hk
  by_cases hkj : k = j
  · rw [hkj, ReaderSystem.setPhase_self] at hk
    exact hp hk
  · rw [ReaderSystem.setPhase_of_ne hkj] at hk
    by_cases hki : k = i
    · rw [hki, hphase, XtNext.phase_owned] at hk
      cases hk
    · rw [hothers k hki] at hk
      exact hki (hpool.unique hk howner)

/-- The list is cut off behind the buffer that has been given back. -/
theorem canLose_releasing_unlinking (hne : i ≠ j) (hj : s.phase j = .unlinking bp u64 cmp')
    (hhead : s.pool.bCachelist = some bp) : CanLose m calls i j s := by
  have howner : (s.phase i).owned = some own := by rw [hi]; rfl
  obtain ⟨rest, rfl, hrest⟩ := (linked_chain hpool hi).pop_of_head hhead
  obtain ⟨t, hsteps, hphase, hreleased⟩ := exists_released (o := some own) m calls hi
  have hothers : ∀ k, k ≠ i → t.phase k = s.phase k := fun k => phase_of_steps hsteps
  refine .of_steps hsteps (.unlink ((hothers j hne.symm).trans hj)) fun hconserved => ?_
  rw [hreleased] at hconserved
  have hmem := hconserved.mem hrest ((hpool.allocated own).2 (.inr ⟨i, howner⟩))
    (not_owned_released hpool hi hphase hothers ?_)
  · exact hpool.disjoint howner (List.mem_cons_of_mem bp hmem)
  · rintro ⟨⟩
    exact hpool.disjoint howner List.mem_cons_self

/-- The second push covers up the first one. -/
theorem canLose_releasing_linked (hne : i ≠ j) (hj : s.phase j = .linked bp next')
    (hlinked : s.pool.bNext bp = s.pool.bCachelist) : CanLose m calls i j s := by
  have howner : (s.phase i).owned = some own := by rw [hi]; rfl
  have hbp : bp ≠ own := by
    rintro rfl
    exact hne (hpool.unique howner (by rw [hj]; rfl))
  obtain ⟨t, hsteps, hphase, hreleased⟩ := exists_released (o := some own) m calls hi
  have hothers : ∀ k, k ≠ i → t.phase k = s.phase k := fun k => phase_of_steps hsteps
  refine .of_steps hsteps (.push ((hothers j hne.symm).trans hj)) fun hconserved => ?_
  rw [hreleased] at hconserved
  have hchain : Spells (Function.update s.pool.bNext own s.pool.bCachelist) (some bp)
      (bp :: free) := by
    refine ⟨rfl, ?_⟩
    rw [Function.update_of_ne hbp, hlinked]
    exact linked_chain hpool hi
  have hmem := hconserved.mem hchain ((hpool.allocated own).2 (.inr ⟨i, howner⟩))
    (not_owned_released hpool hi hphase hothers ?_)
  · rcases List.mem_cons.1 hmem with heq | hfree
    · exact hbp heq.symm
    · exact hpool.disjoint howner hfree
  · rw [XtNext.phase_owned]
    exact nofun

end Release

theorem bAllocateLoop_bNext_below {n buffer b : ℕ} (hlt : b < bp) :
    (BufPool.bAllocateLoop n bp buffer pool).bNext b = pool.bNext b := by
  induction n generalizing bp buffer pool with
  | zero => rfl
  | succ n ih =>
      rw [BufPool.bAllocateLoop, ih (Nat.lt_succ_of_lt hlt)]
      exact Function.update_of_ne (by omega) _ _

/-- The buffers below are linked as before, and more have been made. -/
theorem bAllocate_below (halloc : pool.bAllocate m = some pool') :
    pool.nBuffer < pool'.nBuffer ∧ ∀ b < pool.nBuffer, pool'.bNext b = pool.bNext b := by
  unfold BufPool.bAllocate at halloc
  split at halloc
  next =>
    obtain rfl := Option.some.inj halloc
    exact ⟨Nat.lt_add_of_pos_right (by decide), fun b hb =>
      @bAllocateLoop_bNext_below pool pool.nBuffer nbuffer (pool.nBuffer * pageSize) b hb⟩
  next => contradiction

section Read

variable (hi : s.phase i = .reading t64 cmp) (hne : i ≠ j) (hj : s.phase j = .linked bp next)
  (hlinked : s.pool.bNext bp = s.pool.bCachelist)
include hi hne hj hlinked

/-- The push puts the buffer that has been taken back on the list. -/
theorem canLose_reading_linked_some {b : ℕ} (hhead : s.pool.bCachelist = some b) :
    CanLose m calls i j s := by
  obtain ⟨t, hsteps, hcopying, htaken⟩ := exists_taken calls hi (ready_of_head m hhead) hhead
  refine .of_steps hsteps (.push ((phase_of_steps hsteps hne.symm).trans hj)) ?_
  rw [htaken]
  rintro ⟨free', hpool'⟩
  obtain ⟨rest, rfl, hrest⟩ := hpool'.chain.pop_of_head rfl
  obtain ⟨rest', rfl, -⟩ := hrest.pop_of_head (hlinked.trans hhead)
  refine hpool'.disjoint (i := i) ?_ (List.mem_cons_of_mem bp List.mem_cons_self)
  rw [ReaderSystem.setPhase_of_ne hne]
  exact congrArg _ hcopying

/-- The push cuts off the buffers that have been allocated. -/
theorem canLose_reading_linked_none (hpool : PoolConserved s.pool free fun k => (s.phase k).owned)
    (hmem : m.HasMemory) (hhead : s.pool.bCachelist = none) : CanLose m calls i j s := by
  obtain ⟨pool, halloc⟩ := BufPool.exists_bAllocate hmem s.pool
  obtain ⟨hcount, hlinks⟩ := bAllocate_below halloc
  have hready : (if s.pool.bCachelist.isNone then s.pool.bAllocate m else some s.pool) =
      some pool := by rw [hhead]; exact halloc
  have hbp : bp < s.pool.nBuffer := (hpool.allocated bp).2 (.inr ⟨j, by rw [hj]; rfl⟩)
  have hallocates : ReaderStep m calls i s _ := .test hi hready
  refine .of_steps (.single hallocates) (.push ((hallocates.phase_of_ne hne.symm).trans hj))
    fun hconserved => ?_
  have hchain : Spells pool.bNext (some bp) [bp] :=
    ⟨rfl, (hlinks bp hbp).trans (hlinked.trans hhead)⟩
  have hnone : ∀ k, (s.phase k).owned ≠ some s.pool.nBuffer := fun k hk =>
    lt_irrefl _ ((hpool.allocated _).2 (.inr ⟨k, hk⟩))
  have hfresh := hconserved.mem hchain hcount ?_
  · obtain rfl := List.mem_singleton.1 hfresh
    exact lt_irrefl _ hbp
  · intro k hk
    by_cases hkj : k = j
    · rw [hkj, ReaderSystem.setPhase_self, XtNext.phase_owned] at hk
      cases hk
    · rw [ReaderSystem.setPhase_of_ne hkj] at hk
      by_cases hki : k = i
      · rw [hki] at hk
        cases (congrArg ReaderPhase.owned ReaderSystem.setPhase_self).symm.trans hk
      · exact hnone k ((congrArg ReaderPhase.owned (ReaderSystem.setPhase_of_ne hki)).symm.trans hk)

end Read

theorem canLose_unlinking (hpool : PoolConserved s.pool free fun k => (s.phase k).owned)
    (henters : (s.phase i).Enters) (hne : i ≠ j) (hj : s.phase j = .unlinking bp u64 cmp')
    (hhead : s.pool.bCachelist = some bp) : CanLose m calls i j s := by
  rcases henters with ⟨own, next, hi⟩ | ⟨t64, cmp, hi⟩
  · exact canLose_releasing_unlinking hpool hi hne hj hhead
  · exact canLose_reading_unlinking hne hi hj hhead

/-- The other one goes on to the point where it has read the head. -/
theorem canLose_taking (hpool : PoolConserved s.pool free fun k => (s.phase k).owned)
    (henters : (s.phase i).Enters) (hne : i ≠ j) (hj : s.phase j = .taking u64 cmp')
    (hhead : s.pool.bCachelist = some bp) : CanLose m calls i j s := by
  have hnone : ReaderPhase.owned (.unlinking bp u64 cmp') = (s.phase j).owned := by
    rw [hj]
    rfl
  have hpool' : PoolConserved s.pool free
      fun k => ((s.setPhase j (.unlinking bp u64 cmp')).phase k).owned := by
    rwa [ReaderSystem.owned_setPhase, hnone, Function.update_eq_self]
  have henters' : ((s.setPhase j (.unlinking bp u64 cmp')).phase i).Enters := by
    rwa [ReaderSystem.setPhase_of_ne hne]
  exact .step (.inr (.take hj hhead))
    (canLose_unlinking hpool' henters' hne ReaderSystem.setPhase_self hhead)

theorem canLose_linked (hpool : PoolConserved s.pool free fun k => (s.phase k).owned)
    (hmem : m.HasMemory) (henters : (s.phase i).Enters) (hne : i ≠ j)
    (hj : s.phase j = .linked bp next) (hlinked : s.pool.bNext bp = s.pool.bCachelist) :
    CanLose m calls i j s := by
  rcases henters with ⟨own, next', hi⟩ | ⟨t64, cmp, hi⟩
  · exact canLose_releasing_linked hpool hi hne hj hlinked
  · cases hhead : s.pool.bCachelist with
    | none => exact canLose_reading_linked_none hi hne hj hlinked hpool hmem hhead
    | some b => exact canLose_reading_linked_some hi hne hj hlinked hhead

/-- The sections have to stay apart: whenever a call enters one while another
call is in one, the two can go on and lose a buffer. -/
theorem overlapping_sections_lose (hmem : m.HasMemory) (h : ReaderRun m calls SectionsApart s)
    (henters : (s.phase i).Enters) (hinside : (s.phase j).Inside) : CanLose m calls i j s := by
  have hok := h.buffersOk
  obtain ⟨free, hpool⟩ := hok.pool
  have hrelies := hok.relies j
  have hne : i ≠ j := by
    rintro rfl
    exact hinside.not_enters henters
  rcases hinside with ⟨bp, next, hj⟩ | ⟨t64, cmp, hj⟩ | ⟨bp, t64, cmp, hj⟩
  · rw [hj] at hrelies
    exact canLose_linked hpool.toPoolConserved hmem henters hne hj hrelies
  · rw [hj] at hrelies
    obtain ⟨bp, hhead⟩ := Option.ne_none_iff_exists'.1 hrelies
    exact canLose_taking hpool.toPoolConserved henters hne hj hhead
  · rw [hj] at hrelies
    exact canLose_unlinking hpool.toPoolConserved henters hne hj hrelies

theorem overlapping_sections_lose_twoCalls :
    ∃ s, ReaderRun twoLevelMount twoCalls SectionsApart s ∧ s.phase 0 = .reading 1 1 ∧
      s.phase 1 = .taking 1 1 ∧ CanLose twoLevelMount twoCalls 0 1 s := by
  obtain ⟨s, hrun, hzero, hone, hothers⟩ := twoCalls_run
  have hreading : ¬ (ReaderPhase.reading 1 1).Inside := by simp [ReaderPhase.Inside]
  obtain ⟨s', hrun', htaking, hkept⟩ := hrun.exists_taking (fun _ => rfl)
    (twoCalls_outside (hzero ▸ hreading) (hone ▸ hreading) hothers) hone
  have hzero' := (hkept 0 zero_ne_one).trans hzero
  exact ⟨s', hrun', hzero', htaking, overlapping_sections_lose (fun _ => rfl) hrun'
    (.inr ⟨1, 1, hzero'⟩) (.inr (.inl ⟨1, 1, htaking⟩))⟩

end JfsReader
