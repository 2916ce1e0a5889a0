import JfsReader.ExtentLookupCorrect
import JfsReader.FreeList

/-!
# The page buffers are conserved

Every `xt_Lookup` gives back what it takes: the parent page is released before
its child is read, and the last page before the return.  The free list together
with the one buffer in use is therefore the whole pool at every moment, and it
runs empty only before the first allocation.
-/

namespace JfsReader

open StepMachine FreeList

/-- `free` is what `bCachelist` spells, and `off` the buffer that is off the
list, if there is one. -/
structure PoolOk (pool : BufPool) (free : List ℕ) (off : Option ℕ) : Prop where
  chain : Spells pool.bNext pool.bCachelist free
  nodup : (off.toList ++ free).Nodup
  mem_iff : ∀ bp, bp ∈ off.toList ++ free ↔ bp < pool.nBuffer
  count : pool.nBuffer = 0 ∨ pool.nBuffer = nbuffer
  apart : ∀ i j, i < pool.nBuffer → j < pool.nBuffer → i ≠ j →
    pool.bData i + pageSize ≤ pool.bData j ∨ pool.bData j + pageSize ≤ pool.bData i

/-- The head of the list, taken off it; the first part of `bRead`. -/
def BufPool.bTake (m : Mount) (pool : BufPool) : Option (ℕ × BufPool) :=
  match (if pool.bCachelist.isNone then pool.bAllocate m else some pool) with
  | none => none
  | some pool => pool.bCachelist.map fun bp => (bp, { pool with bCachelist := pool.bNext bp })

/-- The pools that calls of `xt_Lookup` leave behind, one call after the other,
on whatever inodes and disks. -/
inductive PoolRun : BufPool → Prop
  | empty {pool : BufPool} : pool.bCachelist = none → pool.nBuffer = 0 → PoolRun pool
  | call {m : Mount} {call : XtCall} {pool pool' : BufPool} {rc xaddr xlen : ℤ} :
      PoolRun pool → XtLookupEnds m call pool (.returned rc xaddr xlen pool') → PoolRun pool'

variable {m : Mount} {call : XtCall} {pool : BufPool} {free : List ℕ} {off : Option ℕ}
  {s s' : XtState} {bp : ℕ}

/-! ## The operations of the pool -/

theorem PoolOk.empty (hlist : pool.bCachelist = none) (hcount : pool.nBuffer = 0) :
    PoolOk pool [] none := by
  refine ⟨hlist, by simp, ?_, .inl hcount, ?_⟩
  · intro bp
    simp [hcount]
  · intro i j hi
    omega

theorem PoolOk.bRelease (h : PoolOk pool free (some bp)) :
    PoolOk (pool.bRelease bp) (bp :: free) none :=
  ⟨h.chain.push (List.nodup_cons.mp h.nodup).1, h.nodup, h.mem_iff, h.count, h.apart⟩

theorem PoolOk.releasePage (h : PoolOk pool free off) :
    ∃ free', PoolOk (releasePage off pool) free' none := by
  cases off with
  | none => exact ⟨free, h⟩
  | some bp => exact ⟨bp :: free, h.bRelease⟩

theorem PoolOk.pop (h : PoolOk pool free none) (hhead : pool.bCachelist = some bp) :
    ∃ free', PoolOk { pool with bCachelist := pool.bNext bp } free' (some bp) := by
  obtain ⟨rest, rfl, hrest⟩ := h.chain.pop_of_head hhead
  exact ⟨rest, hrest, h.nodup, h.mem_iff, h.count, h.apart⟩

theorem PoolOk.nBuffer_of_empty (h : PoolOk pool free none) (hlist : pool.bCachelist = none) :
    pool.nBuffer = 0 := by
  have hfree : free = [] := h.chain.eq_nil_iff.mp hlist
  subst hfree
  by_contra hne
  have hmem := (h.mem_iff 0).mpr (Nat.pos_of_ne_zero hne)
  simp at hmem

theorem bAllocateLoop_spells {n buffer : ℕ} (h : Spells pool.bNext pool.bCachelist free)
    (hbelow : ∀ b ∈ free, b < bp) :
    Spells (BufPool.bAllocateLoop n bp buffer pool).bNext
      (BufPool.bAllocateLoop n bp buffer pool).bCachelist
      ((List.range' bp n).reverse ++ free) := by
  induction n generalizing bp buffer pool free with
  | zero => exact h
  | succ n ih =>
      have hnew : bp ∉ free := fun hmem => lt_irrefl bp (hbelow bp hmem)
      rw [List.range'_succ, List.reverse_cons, List.append_assoc]
      apply ih (h.push hnew)
      intro b hb
      rcases List.mem_cons.mp hb with rfl | hb
      · omega
      · exact Nat.lt_succ_of_lt (hbelow b hb)

theorem bAllocateLoop_bData_below {n buffer i : ℕ} (hi : i < bp) :
    (BufPool.bAllocateLoop n bp buffer pool).bData i = pool.bData i := by
  induction n generalizing bp buffer pool with
  | zero => rfl
  | succ n ih =>
      rw [BufPool.bAllocateLoop, ih (Nat.lt_succ_of_lt hi)]
      exact Function.update_of_ne (by omega) _ _

theorem bAllocateLoop_bData {n buffer i : ℕ} (hi : i < n) :
    (BufPool.bAllocateLoop n bp buffer pool).bData (bp + i) = buffer + i * pageSize := by
  induction n generalizing bp buffer pool i with
  | zero => omega
  | succ n ih =>
      rw [BufPool.bAllocateLoop]
      cases i with
      | zero =>
          rw [Nat.add_zero, bAllocateLoop_bData_below (by omega)]
          simp
      | succ i =>
          rw [show bp + (i + 1) = bp + 1 + i by omega, ih (by omega)]
          ring

/-- The pages of different buffers do not overlap. -/
theorem pages_apart {i j : ℕ} (hne : i ≠ j) :
    i * pageSize + pageSize ≤ j * pageSize ∨ j * pageSize + pageSize ≤ i * pageSize := by
  rcases Nat.lt_or_gt_of_ne hne with hlt | hlt
  · left
    rw [← Nat.succ_mul]
    exact Nat.mul_le_mul_right pageSize hlt
  · right
    rw [← Nat.succ_mul]
    exact Nat.mul_le_mul_right pageSize hlt

theorem PoolOk.bAllocate {pool' : BufPool} (h : PoolOk pool free none)
    (hlist : pool.bCachelist = none) (halloc : pool.bAllocate m = some pool') :
    ∃ free', PoolOk pool' free' none := by
  have hzero := h.nBuffer_of_empty hlist
  have hfree : free = [] := h.chain.eq_nil_iff.mp hlist
  subst hfree
  have hpages : ∀ i, i < nbuffer →
      (BufPool.bAllocateLoop nbuffer pool.nBuffer (pool.nBuffer * pageSize) pool).bData i =
        i * pageSize := by
    intro i hi
    have hdata := @bAllocateLoop_bData pool pool.nBuffer nbuffer (pool.nBuffer * pageSize) i hi
    rw [hzero, Nat.zero_mul] at hdata ⊢
    rwa [Nat.zero_add, Nat.zero_add] at hdata
  unfold BufPool.bAllocate at halloc
  split at halloc
  next =>
    simp only [Option.some.injEq] at halloc
    subst pool'
    refine ⟨_, bAllocateLoop_spells h.chain (by simp), ?_, ?_, .inr ?_, ?_⟩
    · simpa using List.nodup_range'
    · intro bp
      simp [hzero]
    · simp [hzero]
    · intro i j hi hj hne
      rw [hzero, Nat.zero_add] at hi hj
      dsimp only
      rw [hpages i hi, hpages j hj]
      exact pages_apart hne
  next => contradiction

theorem PoolOk.bTake {pool' : BufPool} (h : PoolOk pool free none)
    (htake : pool.bTake m = some (bp, pool')) : ∃ free', PoolOk pool' free' (some bp) := by
  have hready : ∀ ready, (if pool.bCachelist.isNone then pool.bAllocate m else some pool) =
      some ready → ∃ free', PoolOk ready free' none := by
    intro ready hready
    split at hready
    next hnone => exact h.bAllocate (Option.isNone_iff_eq_none.mp hnone) hready
    next =>
      obtain rfl := Option.some.inj hready
      exact ⟨free, h⟩
  unfold BufPool.bTake at htake
  split at htake
  next => contradiction
  next ready heq =>
    obtain ⟨free', hok⟩ := hready ready heq
    obtain ⟨bp', hhead, hpair⟩ := Option.map_eq_some_iff.mp htake
    obtain ⟨rfl, rfl⟩ := Prod.mk.inj hpair
    exact hok.pop hhead

theorem bTake_nBuffer {pool' : BufPool} (htake : pool.bTake m = some (bp, pool')) :
    pool.nBuffer ≤ pool'.nBuffer := by
  unfold BufPool.bTake at htake
  split at htake
  next => contradiction
  next ready hready =>
    obtain ⟨bp', -, hpair⟩ := Option.map_eq_some_iff.mp htake
    obtain ⟨-, rfl⟩ := Prod.mk.inj hpair
    split at hready
    next =>
      unfold BufPool.bAllocate at hready
      split at hready
      next =>
        obtain rfl := Option.some.inj hready
        exact Nat.le_add_right _ _
      next => contradiction
    next =>
      obtain rfl := Option.some.inj hready
      exact le_rfl

theorem bRead_done {xaddr xlen : ℕ} {pool' : BufPool}
    (hread : BufPool.bRead m m.ujfsReadDiskblocks xaddr xlen pool = .done bp pool') :
    ∃ taken heap, pool.bTake m = some (bp, taken) ∧ pool' = { taken with heap := heap } := by
  unfold BufPool.bRead at hread
  unfold BufPool.bTake
  cases hready : (if pool.bCachelist.isNone then pool.bAllocate m else some pool) with
  | none =>
      simp only [hready] at hread
      cases hread
  | some ready =>
      simp only [hready] at hread ⊢
      cases hhead : ready.bCachelist with
      | none => simp [hhead] at hread
      | some bp' =>
          simp only [hhead, Mount.ujfsReadDiskblocks, BReadResult.done.injEq] at hread
          obtain ⟨rfl, rfl⟩ := hread
          exact ⟨_, _, rfl, rfl⟩

theorem bRead_ne_failed {xaddr xlen : ℕ} {pool' : BufPool} :
    BufPool.bRead m m.ujfsReadDiskblocks xaddr xlen pool ≠ .failed pool' := by
  unfold BufPool.bRead
  split
  · simp
  · split
    · simp
    · simp [Mount.ujfsReadDiskblocks]

/-! ## Inside a call -/

/-- Nothing but the page being searched is off the list. -/
structure XtState.Holds (s : XtState) : Prop where
  pool : ∃ free, PoolOk s.pool free s.bp
  page : (s.p = .root ∧ s.bp = none) ∨ ∃ bp, s.bp = some bp ∧ s.p = .data (s.pool.bData bp)

theorem xtStep_inl {read : ℕ → ℕ → Bytes → Option Bytes} (hstep : xtStep m read call s = .inl s') :
    (s'.p = s.p ∧ s'.bp = s.bp ∧ s'.pool = s.pool) ∨
      ∃ index cmp, xtDescend m read call s index cmp = .inl s' := by
  unfold xtStep at hstep
  dsimp only at hstep
  split_ifs at hstep
  · cases hstep
  · exact .inr ⟨_, _, hstep⟩
  · left
    obtain rfl := Sum.inl.inj hstep
    exact ⟨rfl, rfl, rfl⟩
  · left
    obtain rfl := Sum.inl.inj hstep
    exact ⟨rfl, rfl, rfl⟩
  · cases hstep
  · exact .inr ⟨_, _, hstep⟩
  · exact .inr ⟨_, _, hstep⟩

theorem xtStep_inr {read : ℕ → ℕ → Bytes → Option Bytes} {out : XtEnd}
    (hstep : xtStep m read call s = .inr out) :
    (∃ rc xaddr xlen, out = .returned rc xaddr xlen (releasePage s.bp s.pool)) ∨
      ∃ index cmp, xtDescend m read call s index cmp = .inr out := by
  unfold xtStep at hstep
  dsimp only at hstep
  split_ifs at hstep
  · exact .inl ⟨_, _, _, (Sum.inr.inj hstep).symm⟩
  · exact .inr ⟨_, _, hstep⟩
  · exact .inl ⟨_, _, _, (Sum.inr.inj hstep).symm⟩
  · exact .inr ⟨_, _, hstep⟩
  · exact .inr ⟨_, _, hstep⟩

theorem xtDescend_inl {index cmp : ℤ}
    (hdescend : xtDescend m m.ujfsReadDiskblocks call s index cmp = .inl s') :
    ∃ bp taken heap, (releasePage s.bp s.pool).bTake m = some (bp, taken) ∧
      s'.bp = some bp ∧ s'.pool = { taken with heap := heap } ∧
      s'.p = .data (taken.bData bp) := by
  unfold xtDescend at hdescend
  dsimp only at hdescend
  split at hdescend
  next => cases hdescend
  next => cases hdescend
  next bp pool hread =>
    obtain ⟨taken, heap, htake, rfl⟩ := bRead_done hread
    obtain rfl := Sum.inl.inj hdescend
    exact ⟨bp, taken, heap, htake, rfl, rfl, rfl⟩
  next hread => exact absurd hread bRead_ne_failed

theorem xtDescend_inr {index cmp rc xaddr xlen : ℤ} :
    xtDescend m m.ujfsReadDiskblocks call s index cmp ≠ .inr (.returned rc xaddr xlen pool) := by
  unfold xtDescend
  dsimp only
  split
  next => simp
  next => simp
  next => simp
  next => split <;> simp

theorem XtState.Holds.start (h : PoolOk pool free none) : (xtStart call pool).Holds :=
  ⟨⟨free, h⟩, .inl ⟨rfl, rfl⟩⟩

theorem XtState.Holds.step (h : s.Holds)
    (hstep : xtStep m m.ujfsReadDiskblocks call s = .inl s') : s'.Holds := by
  obtain ⟨free, hpool⟩ := h.pool
  rcases xtStep_inl hstep with ⟨hp, hbp, hsame⟩ | ⟨index, cmp, hdescend⟩
  · refine ⟨⟨free, ?_⟩, ?_⟩
    · rw [hsame, hbp]
      exact hpool
    · rw [hp, hbp, hsame]
      exact h.page
  · obtain ⟨bp, taken, heap, htake, hbp, hsame, hp⟩ := xtDescend_inl hdescend
    obtain ⟨released, hreleased⟩ := hpool.releasePage
    obtain ⟨free', hok⟩ := hreleased.bTake htake
    refine ⟨⟨free', ?_⟩, .inr ⟨bp, hbp, ?_⟩⟩
    · rw [hsame, hbp]
      exact ⟨hok.chain, hok.nodup, hok.mem_iff, hok.count, hok.apart⟩
    · rw [hsame, hp]

theorem XtState.Holds.run {n : ℕ} (h : s.Holds)
    (hrun : run (xtStep m m.ujfsReadDiskblocks call) n s = .inl s') : s'.Holds :=
  run_invariant (fun _ _ hs hstep => hs.step hstep) h hrun

theorem PoolOk.returned {pool' : BufPool} {rc xaddr xlen : ℤ} (h : PoolOk pool free none)
    (hends : XtLookupEnds m call pool (.returned rc xaddr xlen pool')) :
    ∃ free', PoolOk pool' free' none := by
  obtain ⟨n, hrun⟩ := hends
  obtain ⟨k, last, hreach, hlast⟩ := exists_last_step hrun
  obtain ⟨free', hok⟩ := ((XtState.Holds.start h).run hreach).pool
  rcases xtStep_inr hlast with ⟨rc', xaddr', xlen', heq⟩ | ⟨index, cmp, hdescend⟩
  · obtain ⟨-, -, -, rfl⟩ := XtEnd.returned.inj heq
    exact hok.releasePage
  · exact absurd hdescend xtDescend_inr

theorem PoolRun.poolOk (h : PoolRun pool) : ∃ free, PoolOk pool free none := by
  induction h with
  | empty hlist hcount => exact ⟨[], .empty hlist hcount⟩
  | call _ hends ih =>
      obtain ⟨free, hok⟩ := ih
      exact hok.returned hends

theorem releasePage_nBuffer (off : Option ℕ) (pool : BufPool) :
    (releasePage off pool).nBuffer = pool.nBuffer := by
  cases off <;> rfl

theorem run_nBuffer {n : ℕ} (hrun : run (xtStep m m.ujfsReadDiskblocks call) n s = .inl s') :
    s.pool.nBuffer ≤ s'.pool.nBuffer := by
  apply run_invariant (P := fun t => s.pool.nBuffer ≤ t.pool.nBuffer) _ le_rfl hrun
  intro t t' hle hstep
  rcases xtStep_inl hstep with ⟨-, -, hsame⟩ | ⟨index, cmp, hdescend⟩
  · rw [hsame]
    exact hle
  · obtain ⟨bp, taken, heap, htake, -, hsame, -⟩ := xtDescend_inl hdescend
    have hmono := bTake_nBuffer htake
    rw [releasePage_nBuffer] at hmono
    rw [hsame]
    exact hle.trans hmono

/-- The pool between calls and at every moment inside one.  A null list, which
is what makes `bRead` allocate, is met with `nBuffer = 0` only, and `nBuffer`
never falls. -/
theorem bufferPool_conserved (h : PoolRun pool) :
    (∃ free, PoolOk pool free none) ∧
      ∀ (m : Mount) (call : XtCall) (n : ℕ) (s : XtState),
        run (xtStep m m.ujfsReadDiskblocks call) n (xtStart call pool) = .inl s →
        (∃ free, PoolOk s.pool free s.bp) ∧
        ((s.p = .root ∧ s.bp = none) ∨
          ∃ bp, s.bp = some bp ∧ s.p = .data (s.pool.bData bp)) ∧
        pool.nBuffer ≤ s.pool.nBuffer ∧
        (∃ free, PoolOk (releasePage s.bp s.pool) free none) ∧
        ((releasePage s.bp s.pool).bCachelist = none →
          (releasePage s.bp s.pool).nBuffer = 0) ∧
        ∀ bp taken, (releasePage s.bp s.pool).bTake m = some (bp, taken) →
          ∃ free, PoolOk taken free (some bp) := by
  obtain ⟨free, hok⟩ := h.poolOk
  refine ⟨⟨free, hok⟩, ?_⟩
  intro m call n s hrun
  have hholds := (XtState.Holds.start hok).run hrun
  obtain ⟨free', hpool⟩ := hholds.pool
  obtain ⟨released, hreleased⟩ := hpool.releasePage
  exact ⟨hholds.pool, hholds.page, run_nBuffer hrun, ⟨released, hreleased⟩,
    hreleased.nBuffer_of_empty, fun bp taken htake => hreleased.bTake htake⟩

theorem bufferPool_conserved_oneCall :
    ∃ pool, PoolRun pool ∧ pool.nBuffer = 8 ∧ ∃ free, PoolOk pool free none := by
  have hends : XtLookupEnds twoLevelMount twoLevelCall emptyPool (.returned 0 21 2 _) := ⟨6, rfl⟩
  have hrun := PoolRun.call (.empty rfl rfl) hends
  exact ⟨_, hrun, rfl, (bufferPool_conserved hrun).1⟩

end JfsReader
