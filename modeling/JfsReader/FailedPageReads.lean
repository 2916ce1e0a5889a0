import JfsReader.BufferConservation

/-!
# Page reads that fail

`bRead` reports a failed read and puts its buffer back, and `xt_Lookup` does not
look at the report.  Below the root its `bp` is still null then; further down it
still names the buffer of the parent page, which `bRead` took from the list and
put back, so that the buffer is held and free at once.  The next release links
it to itself.
-/

namespace JfsReader

open StepMachine FreeList

/-- The entry that the next round descends by, and the comparison it carries
down; `none` when the round reads no page. -/
def xtDescends (call : XtCall) (s : XtState) : Option (ℤ × ℤ) :=
  let p := s.page call
  if s.lim ≠ 0 then
    let index := s.base + s.lim / 2
    let cmp := xtCmp call.xoff (p.xad index)
    if cmp = 0 ∧ p.isLeaf = false then some (index, cmp) else none
  else if p.isLeaf = false then
    some (if s.base ≠ 0 then s.base - 1 else s.base, s.cmp)
  else none

def failedRead : ℕ → ℕ → Bytes → Option Bytes := fun _ _ _ => none

/-- One round of `xt_Lookup`, numbered; the page read of the round `n`, if it
makes one, fails when `fails n`. -/
def xtFailingStep (m : Mount) (fails : ℕ → Bool) (call : XtCall) (s : XtState × ℕ) :
    (XtState × ℕ) ⊕ XtEnd :=
  match xtStep m (if fails s.2 then failedRead else m.ujfsReadDiskblocks) call s.1 with
  | .inl next => .inl (next, s.2 + 1)
  | .inr out => .inr out

def XtFailingEnds (m : Mount) (fails : ℕ → Bool) (call : XtCall) (pool : BufPool)
    (out : XtEnd) : Prop :=
  Returns (xtFailingStep m fails call) (xtStart call pool, 0) out

/-- One of the page reads that the search makes fails. -/
def PageReadFails (m : Mount) (fails : ℕ → Bool) (call : XtCall) (pool : BufPool) : Prop :=
  ∃ rounds s n index cmp pool',
    run (xtFailingStep m fails call) rounds (xtStart call pool, 0) = .inl (s, n) ∧
    fails n = true ∧ xtDescends call s = some (index, cmp) ∧
    BufPool.bRead m failedRead (addressXAD ((s.page call).xad index)) (pageSize >>> m.l2bsize)
      (releasePage s.bp s.pool) = .failed pool'

/-- Every buffer is on the list, and once. -/
def ListIntact (pool : BufPool) : Prop :=
  ∃ free, Spells pool.bNext pool.bCachelist free ∧ free.Nodup ∧ ∀ bp, bp ∈ free ↔ bp < pool.nBuffer

/-- The call ends with an error and the list is intact. -/
def ReadFailureReported (m : Mount) (fails : ℕ → Bool) (call : XtCall) (pool : BufPool) : Prop :=
  ∃ rc xaddr xlen pool', XtFailingEnds m fails call pool (.returned rc xaddr xlen pool') ∧
    rc ≠ 0 ∧ ListIntact pool'

variable {m : Mount} {fails : ℕ → Bool} {call : XtCall} {pool : BufPool} {s s' : XtState}
  {bp : ℕ} {read : ℕ → ℕ → Bytes → Option Bytes}

theorem xtStep_of_descends {index cmp : ℤ} (h : xtDescends call s = some (index, cmp)) :
    xtStep m read call s = xtDescend m read call s index cmp := by
  unfold xtDescends at h
  unfold xtStep
  dsimp only at h ⊢
  by_cases hlim : s.lim ≠ 0
  · rw [if_pos hlim] at h ⊢
    by_cases hhit : xtCmp call.xoff ((s.page call).xad (s.base + s.lim / 2)) = 0 ∧
        (s.page call).isLeaf = false
    · rw [if_pos hhit] at h
      obtain ⟨rfl, rfl⟩ := Prod.mk.inj (Option.some.inj h)
      rw [if_pos hhit.1, if_neg (by simp [hhit.2])]
    · rw [if_neg hhit] at h
      cases h
  · rw [if_neg hlim] at h ⊢
    by_cases hleaf : (s.page call).isLeaf = false
    · rw [if_pos hleaf] at h
      obtain ⟨rfl, rfl⟩ := Prod.mk.inj (Option.some.inj h)
      rw [if_neg (by simp [hleaf])]
    · rw [if_neg hleaf] at h
      cases h

theorem ListIntact.next_ne_self (h : ListIntact pool) (hhead : pool.bCachelist = some bp) :
    pool.bNext bp ≠ some bp := by
  obtain ⟨free, hchain, -, -⟩ := h
  rw [hhead] at hchain
  exact hchain.next_ne_self

theorem bRelease_bNext (pool : BufPool) (bp : ℕ) :
    (pool.bRelease bp).bNext bp = pool.bCachelist := by
  simp [BufPool.bRelease]

/-! ## A buffer that is held and free at once -/

structure HeldAndFree (s : XtState) (bp : ℕ) : Prop where
  held : s.bp = some bp
  free : s.pool.bCachelist = some bp

/-- A buffer that heads the list is the one that is taken, whatever comes of the
read. -/
theorem bRead_of_head {xaddr xlen : ℕ} (hhead : pool.bCachelist = some bp) :
    (∃ heap, BufPool.bRead m read xaddr xlen pool =
        .done bp { pool with bCachelist := pool.bNext bp, heap := heap }) ∨
      BufPool.bRead m read xaddr xlen pool =
        .failed (BufPool.bRelease { pool with bCachelist := pool.bNext bp } bp) := by
  unfold BufPool.bRead
  simp only [hhead, Option.isNone_some, Bool.false_eq_true, if_false]
  split
  · exact .inl ⟨_, rfl⟩
  · exact .inr rfl

theorem HeldAndFree.descend (h : HeldAndFree s bp) (index cmp : ℤ) :
    ∃ s', xtDescend m read call s index cmp = .inl s' ∧ HeldAndFree s' bp := by
  have hhead : (releasePage s.bp s.pool).bCachelist = some bp := by
    rw [h.held]
    rfl
  have hself : (releasePage s.bp s.pool).bNext bp = some bp := by
    rw [h.held]
    exact (bRelease_bNext s.pool bp).trans h.free
  unfold xtDescend
  dsimp only
  rcases @bRead_of_head m _ bp read (addressXAD ((s.page call).xad index))
    (pageSize >>> m.l2bsize) hhead with ⟨heap, hread⟩ | hread
  · rw [hread]
    exact ⟨_, rfl, rfl, hself⟩
  · rw [hread, h.held]
    exact ⟨_, rfl, rfl, rfl⟩

theorem HeldAndFree.step (h : HeldAndFree s bp) (hstep : xtStep m read call s = .inl s') :
    HeldAndFree s' bp := by
  rcases xtStep_inl hstep with ⟨-, hbp, hpool⟩ | ⟨index, cmp, hdescend⟩
  · exact ⟨hbp.trans h.held, by rw [hpool]; exact h.free⟩
  · obtain ⟨next, hnext, hboth⟩ := @HeldAndFree.descend m call s bp read h index cmp
    obtain rfl := Sum.inl.inj (hdescend.symm.trans hnext)
    exact hboth

/-- The list that the last release leaves is a loop of one buffer. -/
theorem HeldAndFree.ends (h : HeldAndFree s bp) {out : XtEnd}
    (hstep : xtStep m read call s = .inr out) :
    ∃ rc xaddr xlen pool', out = .returned rc xaddr xlen pool' ∧
      pool'.bCachelist = some bp ∧ pool'.bNext bp = some bp := by
  rcases xtStep_inr hstep with ⟨rc, xaddr, xlen, rfl⟩ | ⟨index, cmp, hdescend⟩
  · refine ⟨rc, xaddr, xlen, _, rfl, ?_, ?_⟩
    · rw [h.held]
      rfl
    · rw [h.held]
      exact (bRelease_bNext s.pool bp).trans h.free
  · obtain ⟨next, hnext, -⟩ := @HeldAndFree.descend m call s bp read h index cmp
    rw [hnext] at hdescend
    cases hdescend

theorem xtDescend_failed {index cmp : ℤ} {pool' : BufPool}
    (hread : BufPool.bRead m failedRead (addressXAD ((s.page call).xad index))
      (pageSize >>> m.l2bsize) (releasePage s.bp s.pool) = .failed pool') :
    xtDescend m failedRead call s index cmp = .inr .faulted ∨
      ∃ s' bp, xtDescend m failedRead call s index cmp = .inl s' ∧ HeldAndFree s' bp := by
  cases hbp : s.bp with
  | none =>
      left
      unfold xtDescend
      dsimp only
      rw [hread, hbp]
  | some bp =>
      right
      have hhead : (releasePage s.bp s.pool).bCachelist = some bp := by
        rw [hbp]
        rfl
      rcases @bRead_of_head m _ bp failedRead (addressXAD ((s.page call).xad index))
        (pageSize >>> m.l2bsize) hhead with ⟨heap, hdone⟩ | hfailed
      · rw [hdone] at hread
        cases hread
      · unfold xtDescend
        dsimp only
        rw [hfailed, hbp]
        exact ⟨_, bp, rfl, rfl, rfl⟩

theorem heldAndFree_of_run {rounds : ℕ} {a b : XtState × ℕ} (h : HeldAndFree a.1 bp)
    (hrun : run (xtFailingStep m fails call) rounds a = .inl b) : HeldAndFree b.1 bp := by
  apply run_invariant (P := fun c => HeldAndFree c.1 bp) _ h hrun
  intro c c' hc hstep
  unfold xtFailingStep at hstep
  split at hstep
  next next hnext =>
    obtain rfl := Sum.inl.inj hstep
    exact hc.step hnext
  next => cases hstep

theorem xtFailingStep_inr {a : XtState × ℕ} {out : XtEnd}
    (hstep : xtFailingStep m fails call a = .inr out) :
    ∃ read, xtStep m read call a.1 = .inr out := by
  unfold xtFailingStep at hstep
  split at hstep
  next => cases hstep
  next hlast =>
    obtain rfl := Sum.inr.inj hstep
    exact ⟨_, hlast⟩

/-! ## The ends of such a call -/

/-- A process that faulted, or a list that is a loop of one buffer. -/
def LoopOrFault (out : XtEnd) : Prop :=
  out = .faulted ∨ ∃ rc xaddr xlen pool bp, out = .returned rc xaddr xlen pool ∧
    pool.bCachelist = some bp ∧ pool.bNext bp = some bp

theorem HeldAndFree.loopOrFault {a : XtState × ℕ} {out : XtEnd} (h : HeldAndFree a.1 bp)
    (hreturns : Returns (xtFailingStep m fails call) a out) : LoopOrFault out := by
  obtain ⟨n, hrun⟩ := hreturns
  obtain ⟨k, last, hreach, hlast⟩ := exists_last_step hrun
  obtain ⟨read, hstep⟩ := xtFailingStep_inr hlast
  obtain ⟨rc, xaddr, xlen, pool, rfl, hhead, hself⟩ := (heldAndFree_of_run h hreach).ends hstep
  exact .inr ⟨rc, xaddr, xlen, pool, bp, rfl, hhead, hself⟩

theorem PageReadFails.loopOrFault (h : PageReadFails m fails call pool) {out : XtEnd}
    (hends : XtFailingEnds m fails call pool out) : LoopOrFault out := by
  obtain ⟨rounds, s, n, index, cmp, pool', hreach, hfail, hdescends, hread⟩ := h
  obtain ⟨total, hrun⟩ := hends
  obtain ⟨-, hrest⟩ := run_sub_of_inl hreach hrun
  have hstep : xtStep m (if fails n then failedRead else m.ujfsReadDiskblocks) call s =
      xtDescend m failedRead call s index cmp := by
    rw [if_pos hfail]
    exact xtStep_of_descends hdescends
  have hafter : Returns (xtFailingStep m fails call) (s, n) out := ⟨_, hrest⟩
  rcases @xtDescend_failed m call s index cmp pool' hread with hfault | ⟨s', bp, hnext, hboth⟩
  · have hlast : xtFailingStep m fails call (s, n) = .inr .faulted := by
      unfold xtFailingStep
      rw [hstep, hfault]
    exact .inl (hafter.unique ⟨1, run_succ_of_inr hlast⟩)
  · have hlater : xtFailingStep m fails call (s, n) = .inl (s', n + 1) := by
      unfold xtFailingStep
      rw [hstep, hnext]
    obtain ⟨k, hk⟩ := hafter
    have hpos : k ≠ 0 := by
      rintro rfl
      cases hk
    obtain ⟨k, rfl⟩ := Nat.exists_eq_succ_of_ne_zero hpos
    rw [run_succ_of_inl hlater] at hk
    exact HeldAndFree.loopOrFault (a := (s', n + 1)) hboth ⟨k, hk⟩

/-- No failed page read is reported with the list intact: the call runs into a
null pointer or leaves a list that never ends. -/
theorem failed_page_read_not_reported (h : PageReadFails m fails call pool) :
    ¬ ReadFailureReported m fails call pool ∧
      ∀ out, XtFailingEnds m fails call pool out → LoopOrFault out := by
  refine ⟨?_, fun out hends => h.loopOrFault hends⟩
  rintro ⟨rc, xaddr, xlen, pool', hends, -, hintact⟩
  rcases h.loopOrFault hends with hfault | ⟨_, _, _, _, bp, heq, hhead, hself⟩
  · cases hfault
  · cases heq
    exact hintact.next_ne_self hhead hself

theorem twoLevel_first_read_fails :
    PageReadFails twoLevelMount (fun _ => true) twoLevelCall emptyPool :=
  ⟨1, _, 1, 2, 1, _, rfl, rfl, rfl, rfl⟩

theorem failed_page_read_twoLevel :
    PageReadFails twoLevelMount (fun _ => true) twoLevelCall emptyPool ∧
      ¬ ReadFailureReported twoLevelMount (fun _ => true) twoLevelCall emptyPool :=
  ⟨twoLevel_first_read_fails, (failed_page_read_not_reported twoLevel_first_read_fails).1⟩

/-- The first page read fails, and the null `bp` is followed. -/
theorem failed_first_read_faults :
    XtTree twoLevelMount twoLevelCall.root ∧
      PageReadFails twoLevelMount (fun _ => true) twoLevelCall emptyPool ∧
      XtFailingEnds twoLevelMount (fun _ => true) twoLevelCall emptyPool .faulted ∧
      ¬ ReadFailureReported twoLevelMount (fun _ => true) twoLevelCall emptyPool := by
  have hends : XtFailingEnds twoLevelMount (fun _ => true) twoLevelCall emptyPool .faulted :=
    ⟨2, rfl⟩
  refine ⟨twoLevelMount_tree, twoLevel_first_read_fails, hends, ?_⟩
  rintro ⟨rc, xaddr, xlen, pool', hreturned, -⟩
  cases hends.unique hreturned

end JfsReader
