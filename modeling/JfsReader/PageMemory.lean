import JfsReader.PageRead
import JfsReader.SearchTermination

/-!
# What the page buffers held before

A page search whose count fits the page compares entries of this page only, so
that no answer depends on what the buffers held before or on which of them are
free.  The root is not in a buffer, and its count may be any.
-/

namespace JfsReader

open StepMachine HalvingSearch

def XtPage.CountFits (p : XtPage) : Prop :=
  0 ≤ p.nextindex ∧ p.nextindex ≤ xtPageMaxSlot

/-- The counts fit on all pages that `xt_Lookup` is led to below `p`. -/
def CountsFit (m : Mount) (k : ℤ) (p : XtPage) : Prop :=
  ∀ q, Relation.TransGen (LedTo m (Bytes.sparse []) xtRules k) p q → q.CountFits

/-- One page, or two buffers that hold the same page. -/
def XtPage.Alike (p q : XtPage) : Prop :=
  p = q ∨ (p.Same xtPageMaxSlot q ∧ q.CountFits)

/-- About to search a page that is alike `p`. -/
structure XtOnPage (call : XtCall) (p : XtPage) (cmp : ℤ) (s : XtState) : Prop where
  page : (s.page call).Alike p
  search : s.search = ⟨xtEntryStart, p.nextindex - xtEntryStart, cmp⟩

/-- The call returns these values, or the process exits for want of memory. -/
def XtEnd.Gives (rc xaddr xlen : ℤ) (out : XtEnd) : Prop :=
  out = .exited ∨ ∃ pool, out = .returned rc xaddr xlen pool

def PageReadEnd.Gives (err : ErrorT) (buf : Option Bytes) (out : PageReadEnd) : Prop :=
  out = .exited ∨ ∃ pool, out = .returned err buf pool

variable {m : Mount} {call : XtCall} {s t : XtState} {p q : XtPage} {pool pool' : BufPool}
  {out : Outcome} {k rc xaddr xlen cmp : ℤ}

/-! ## One page -/

namespace XtPage

/-- The entry that a page search comes to is one of the page. -/
theorem CountFits.routeIndex_mem {compare : ℤ → ℤ} (h : p.CountFits)
    (hreturns : Returns (step compare) ⟨xtEntryStart, p.nextindex - xtEntryStart, cmp⟩ out) :
    0 ≤ routeIndex out ∧ routeIndex out < xtPageMaxSlot := by
  have hstart : xtEntryStart = 2 := rfl
  obtain ⟨hlo, hhi⟩ := h
  rcases le_or_gt xtEntryStart p.nextindex with hge | hlt
  · have hout := returns_within (.start hge cmp) hreturns
    cases out with
    | hit index =>
        obtain ⟨hindex, hindex'⟩ := hout
        unfold routeIndex
        dsimp only
        omega
    | miss base cmp =>
        obtain ⟨hbase, hbase'⟩ := hout
        unfold routeIndex
        dsimp only
        split <;> omega
  · obtain ⟨index, rfl, hprobes, -⟩ := probes_of_returns (by dsimp only; omega) hreturns
    rw [probes_iff (by dsimp only; omega)] at hprobes
    have hslots : xtPageMaxSlot = 256 := rfl
    unfold routeIndex
    dsimp only at hprobes ⊢
    omega

theorem CountFits.probe_mem {compare : ℤ → ℤ} {i : ℤ} (h : p.CountFits)
    (hprobes : Probes compare ⟨xtEntryStart, p.nextindex - xtEntryStart, cmp⟩ i) :
    0 ≤ i ∧ i < xtPageMaxSlot := by
  have hstart : xtEntryStart = 2 := rfl
  have hslots : xtPageMaxSlot = 256 := rfl
  obtain ⟨hlo, hhi⟩ := h
  rcases le_or_gt xtEntryStart p.nextindex with hge | hlt
  · have hmem := hprobes.mem (.start hge cmp)
    omega
  · rw [probes_iff (by dsimp only; omega)] at hprobes
    dsimp only at hprobes
    omega

namespace Alike

theorem isLeaf (h : q.Alike p) : q.isLeaf = p.isLeaf := by
  rcases h with rfl | ⟨hsame, -⟩
  · rfl
  · exact hsame.isLeaf (by decide)

theorem nextindex (h : q.Alike p) : q.nextindex = p.nextindex := by
  rcases h with rfl | ⟨hsame, -⟩
  · rfl
  · exact hsame.nextindex (by decide)

theorem returns_iff (h : q.Alike p) :
    Returns (step fun i => xtCmp k (q.xad i)) ⟨xtEntryStart, p.nextindex - xtEntryStart, cmp⟩ out ↔
      Returns (step fun i => xtCmp k (p.xad i)) ⟨xtEntryStart, p.nextindex - xtEntryStart, cmp⟩
        out := by
  rcases h with rfl | ⟨hsame, hfits⟩
  · exact Iff.rfl
  · apply exists_congr
    intro n
    rw [run_congr_of_probes fun i hprobes => ?_]
    obtain ⟨hlo, hhi⟩ := hfits.probe_mem hprobes
    rw [hsame.xad hlo hhi]

theorem routeEntry (h : q.Alike p)
    (hreturns : Returns (step fun i => xtCmp k (p.xad i))
      ⟨xtEntryStart, p.nextindex - xtEntryStart, cmp⟩ out) :
    q.xad (routeIndex out) = p.xad (routeIndex out) := by
  rcases h with rfl | ⟨hsame, hfits⟩
  · rfl
  · obtain ⟨hlo, hhi⟩ := hfits.routeIndex_mem hreturns
    exact hsame.xad hlo hhi

end Alike

end XtPage

/-! ## `xt_Lookup` -/

theorem CountsFit.child (h : CountsFit m k p) (hled : LedTo m (Bytes.sparse []) xtRules k p q) :
    q.CountFits ∧ CountsFit m k q :=
  ⟨h q (.single hled), fun r hbelow => h r (.head hled hbelow)⟩

namespace XtOnPage

/-- The search of the page, which comes to `out`, is followed by the same as any
other search of it that does. -/
theorem resolved (h : XtOnPage call p cmp s)
    (hreturns : Returns (step fun i => xtCmp call.xoff (p.xad i))
      ⟨xtEntryStart, p.nextindex - xtEntryStart, cmp⟩ out) :
    ∃ n s', run (xtStep m m.ujfsReadDiskblocks call) n s = .inl s' ∧
      xtStep m m.ujfsReadDiskblocks call s' = xtResolve m m.ujfsReadDiskblocks call s out := by
  obtain ⟨n, hrun⟩ := h.page.returns_iff.mpr hreturns
  rw [← h.search] at hrun
  exact exists_run_resolve hrun

/-- A call that returns has come to the end of the page search. -/
theorem exists_outcome (h : XtOnPage call p cmp s) {r : XtEnd}
    (hreturns : Returns (xtStep m m.ujfsReadDiskblocks call) s r) :
    ∃ out, Returns (step fun i => xtCmp call.xoff (p.xad i))
      ⟨xtEntryStart, p.nextindex - xtEntryStart, cmp⟩ out := by
  by_contra hnever
  push Not at hnever
  have hstuck : ∀ out, ¬ Returns (step fun i => xtCmp call.xoff ((s.page call).xad i))
      s.search out := by
    intro out hout
    rw [h.search, h.page.returns_iff] at hout
    exact hnever out hout
  refine not_returns_of_embed s.withSearch ?_ hstuck r hreturns
  intro q q' hstep
  rw [xtStep_withSearch, hstep]

/-- On a leaf the answer is the same for all that search it. -/
theorem leaf (hleaf : p.isLeaf = true)
    (hreturns : Returns (step fun i => xtCmp call.xoff (p.xad i))
      ⟨xtEntryStart, p.nextindex - xtEntryStart, cmp⟩ out) :
    ∃ rc xaddr xlen, ∀ s, XtOnPage call p cmp s → ∃ pool,
      Returns (xtStep m m.ujfsReadDiskblocks call) s (.returned rc xaddr xlen pool) := by
  obtain ⟨rc, xaddr, xlen, hanswer⟩ : ∃ rc xaddr xlen, ∀ s, XtOnPage call p cmp s →
      xtResolve m m.ujfsReadDiskblocks call s out = xtOut s rc xaddr xlen := by
    cases out with
    | hit index =>
        refine ⟨0, addressXAD (p.xad index) + int32 (call.xoff - offsetXAD (p.xad index)),
          minLength call.xlen (lengthXAD (p.xad index))
            (int32 (call.xoff - offsetXAD (p.xad index))), fun s h => ?_⟩
        have hentry : (s.page call).xad index = p.xad index := h.page.routeEntry hreturns
        unfold xtResolve
        simp only [h.page.isLeaf, hleaf, if_true, hentry]
        rfl
    | miss base cmp' =>
        refine ⟨cmp', call.xaddr, call.xlen, fun s h => ?_⟩
        unfold xtResolve
        simp only [h.page.isLeaf, hleaf, if_true]
  refine ⟨rc, xaddr, xlen, fun s h => ?_⟩
  obtain ⟨n, s', hreach, hlast⟩ := h.resolved hreturns
  exact ⟨_, .of_last_step hreach (hlast.trans (hanswer s h))⟩

/-- Off a leaf the child is read, unless there is no memory for the buffers. -/
theorem child (h : XtOnPage call p cmp s) (hleaf : p.isLeaf = false)
    (hreturns : Returns (step fun i => xtCmp call.xoff (p.xad i))
      ⟨xtEntryStart, p.nextindex - xtEntryStart, cmp⟩ out)
    (hfits : (m.pageIn (Bytes.sparse []) p (routeIndex out)).CountFits) :
    Returns (xtStep m m.ujfsReadDiskblocks call) s .exited ∨
      ∃ n s', run (xtStep m m.ujfsReadDiskblocks call) (n + 1) s = .inl s' ∧
        XtOnPage call (m.pageIn (Bytes.sparse []) p (routeIndex out)) out.cmp s' := by
  obtain ⟨n, last, hreach, hlast⟩ := h.resolved (m := m) hreturns
  have hentry := h.page.routeEntry hreturns
  rw [xtResolve_descends (h.page.isLeaf.trans hleaf)] at hlast
  unfold xtDescend at hlast
  simp only [hentry] at hlast
  rcases BufPool.bRead_cases m (addressXAD (p.xad (routeIndex out))) (releasePage s.bp s.pool)
    with ⟨-, -, hexited⟩ | ⟨bp, pool, hread, hpage⟩
  · rw [hexited] at hlast
    exact .inl (.of_last_step hreach hlast)
  · rw [hread] at hlast
    have halike : (XtPage.mk (pool.heap.shift (pool.bData bp))).Alike
        (m.pageIn (Bytes.sparse []) p (routeIndex out)) := by
      refine .inr ⟨?_, hfits⟩
      rw [hpage]
      exact (Bytes.Agree.memcpy_src _ _ _).trans (m.pageIn_same _ _ _).symm
    refine .inr ⟨n, _, run_succ_of_last hreach hlast, halike, ?_⟩
    rw [← halike.nextindex]
    rfl

end XtOnPage

theorem ledTo_of_returns (hleaf : p.isLeaf = false)
    (hreturns : Returns (step fun i => xtCmp k (p.xad i))
      ⟨xtEntryStart, p.nextindex - xtEntryStart, cmp⟩ out) :
    LedTo m (Bytes.sparse []) xtRules k p (m.pageIn (Bytes.sparse []) p (routeIndex out)) := by
  obtain ⟨out', hfinds, hentry⟩ := returns_of_cmp hreturns 1
  refine ⟨out', hfinds, ?_, ?_⟩
  · simp [xtRules, hleaf]
  · rw [routeIndex_congr hentry]

/-- Two calls that are about to search the same page come to the same answer. -/
theorem XtOnPage.gives (hs : XtOnPage call p cmp s) (ht : XtOnPage call p cmp t)
    (hfits : CountsFit m call.xoff p)
    (hreturns : Returns (xtStep m m.ujfsReadDiskblocks call) s (.returned rc xaddr xlen pool)) :
    ∃ r, Returns (xtStep m m.ujfsReadDiskblocks call) t r ∧ r.Gives rc xaddr xlen := by
  obtain ⟨n, hrun⟩ := hreturns
  -- by the number of steps left: every descent takes at least one
  induction n using Nat.strong_induction_on generalizing s t p cmp with
  | _ n ih =>
      obtain ⟨out, hout⟩ := hs.exists_outcome ⟨n, hrun⟩
      cases hleaf : p.isLeaf with
      | true =>
          obtain ⟨rc', xaddr', xlen', hanswers⟩ := XtOnPage.leaf (m := m) hleaf hout
          obtain ⟨pool', hs'⟩ := hanswers s hs
          obtain ⟨pool'', ht'⟩ := hanswers t ht
          cases hs'.unique ⟨n, hrun⟩
          exact ⟨_, ht', .inr ⟨_, rfl⟩⟩
      | false =>
          obtain ⟨hchild, hbelow⟩ := hfits.child (ledTo_of_returns hleaf hout)
          rcases hs.child hleaf hout hchild with hexited | ⟨k, s', hreach, hs'⟩
          · cases hexited.unique ⟨n, hrun⟩
          · rcases ht.child hleaf hout hchild with hexited | ⟨k', t', hreach', ht'⟩
            · exact ⟨_, hexited, .inl rfl⟩
            · obtain ⟨hle, hrest⟩ := run_sub_of_inl hreach hrun
              obtain ⟨r, hr, hgives⟩ := ih (n - (k + 1)) (by omega) hs' ht' hbelow hrest
              exact ⟨r, .of_run hreach' hr, hgives⟩

/-- Where the counts fit, the answer does not depend on the page buffers. -/
theorem XtLookupEnds.gives (hfits : CountsFit m call.xoff call.root)
    (h : XtLookupEnds m call pool (.returned rc xaddr xlen pool')) (pool₁ : BufPool) :
    ∃ r, XtLookupEnds m call pool₁ r ∧ r.Gives rc xaddr xlen := by
  have hstart : ∀ pool, XtOnPage call call.root 1 (xtStart call pool) :=
    fun pool => ⟨.inl rfl, rfl⟩
  exact (hstart pool).gives (hstart pool₁) hfits h

/-! ## `pager_read_page` -/

section PageReads

variable {store : Store} {w : WordSize} {cacheId page : ℕ} {stSize : ℤ} {inode : Dinode}
  {err : ErrorT} {buf : Option Bytes}

theorem readFilePage_returned
    (h : readFilePage store w page stSize rc xaddr pool = .returned err buf pool') :
    pool' = pool ∧
      ∀ pool₁, readFilePage store w page stSize rc xaddr pool₁ = .returned err buf pool₁ := by
  unfold readFilePage readStorePage at h ⊢
  dsimp only at h ⊢
  split_ifs at h ⊢ <;> cases h <;> exact ⟨rfl, fun _ => rfl⟩

theorem PageReads.exists_lookup (hreads : ReadsInode m cacheId inode)
    (h : PageReads m store w cacheId stSize page xaddr pool (.returned err buf pool')) :
    ∃ rc xaddr' xlen, XtLookupEnds m (pageCall inode page xaddr) pool
        (.returned rc xaddr' xlen pool') ∧
      readFilePage store w page stSize rc xaddr' pool' = .returned err buf pool' := by
  obtain ⟨k, hread⟩ := hreads
  obtain ⟨n, hn⟩ := h
  have hpage := hn (max k n) (by omega)
  unfold pagerReadPage at hpage
  simp only [readInode_of_le hread (show k ≤ max k n by omega)] at hpage
  split at hpage
  next => cases hpage
  next => cases hpage
  next => cases hpage
  next rc xaddr' xlen taken hrun =>
    have hreturned := Option.some.inj hpage
    obtain rfl := (readFilePage_returned hreturned).1
    exact ⟨rc, xaddr', xlen, ⟨_, hrun⟩, hreturned⟩

theorem ReadsInode.pageReads_exited (h : ReadsInode m cacheId inode)
    (hlookup : XtLookupEnds m (pageCall inode page xaddr) pool .exited) :
    PageReads m store w cacheId stSize page xaddr pool .exited := by
  obtain ⟨k, hread⟩ := h
  obtain ⟨n, hrun⟩ := hlookup
  refine ⟨max k n, fun fuel hfuel => ?_⟩
  unfold pagerReadPage
  simp only [readInode_of_le hread (show k ≤ fuel by omega),
    run_of_le hrun (show n ≤ fuel by omega)]

/-- Where the counts fit, a page has the same content whenever it is read. -/
theorem PageReads.gives (hreads : ReadsInode m cacheId inode)
    (hfits : CountsFit m (pageCall inode page xaddr).xoff ⟨inode.diBtroot⟩)
    (h : PageReads m store w cacheId stSize page xaddr pool (.returned err buf pool'))
    (pool₁ : BufPool) :
    ∃ out, PageReads m store w cacheId stSize page xaddr pool₁ out ∧ out.Gives err buf := by
  obtain ⟨rc, xaddr', xlen, hlookup, hreturned⟩ := h.exists_lookup hreads
  obtain ⟨r, hends, rfl | ⟨pool₂, rfl⟩⟩ := hlookup.gives hfits pool₁
  · exact ⟨_, hreads.pageReads_exited hends, .inl rfl⟩
  · exact ⟨_, hreads.pageReads hends store w stSize,
      .inr ⟨pool₂, (readFilePage_returned hreturned).2 pool₂⟩⟩

end PageReads

end JfsReader
