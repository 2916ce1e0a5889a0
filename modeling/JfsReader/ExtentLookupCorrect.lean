import JfsReader.ExtentLookup
import JfsReader.ExtentTree

/-!
# The extent-tree search finds what the tree maps

The induction is over the tree.  On each page the halving search ends with a
correct outcome; a leaf page answers, and an internal page sends the search to
the one child below which the key can be mapped.  The page buffers drop out:
a page read leaves the page in the buffer whatever the pool was.
-/

namespace JfsReader

open StepMachine

variable {m : Mount} {call : XtCall}

/-- What a call has to return for a block that the extent `e` maps. -/
def XtHit (call : XtCall) (e : Xad) (out : XtEnd) : Prop :=
  ∃ pool, out = .returned 0 (addressXAD e + (call.xoff - offsetXAD e))
    (min call.xlen (lengthXAD e - (call.xoff - offsetXAD e))) pool

def XtMiss (call : XtCall) (out : XtEnd) : Prop :=
  ∃ rc pool, rc ≠ 0 ∧ out = .returned rc call.xaddr call.xlen pool

structure XtAt (call : XtCall) (capacity : ℤ) (s : XtState) (p : XtPage) : Prop where
  same : (s.page call).Same capacity p
  base : s.base = xtEntryStart
  lim : s.lim = p.nextindex - xtEntryStart
  cmp : s.cmp ≠ 0 ∨ xtEntryStart < p.nextindex

theorem minLength_eq (xlen length t32 : ℤ) (hxlen : 0 ≤ xlen)
    (hxlen' : xlen < 2 ^ 31) (ht32 : 0 ≤ t32) (hlt : t32 < length)
    (hlength : length < 2 ^ 24) : minLength xlen length t32 = min xlen (length - t32) := by
  unfold minLength
  rw [uint32_of_bounds hxlen (by omega), uint32_of_bounds (by omega) (by omega)]
  by_cases hmin : xlen < length - t32
  · rw [if_pos hmin, int32_of_bounds (by omega) hxlen', min_eq_left hmin.le]
  · rw [if_neg hmin, int32_of_bounds (by omega) (by omega),
      min_eq_right (not_lt.mp hmin)]

theorem xtDescend_page (hmem : m.HasMemory) (call : XtCall) (s : XtState)
    (index cmp : ℤ) :
    ∃ s', xtDescend m m.ujfsReadDiskblocks call s index cmp = .inl s' ∧
      (s'.page call).Same xtPageMaxSlot (m.childPage (s.page call) index) ∧
      s'.base = xtEntryStart ∧ s'.lim = (s'.page call).nextindex - xtEntryStart ∧
      s'.cmp = cmp := by
  obtain ⟨bp, pool, hread, hpage⟩ :=
    BufPool.bRead_page hmem (addressXAD ((s.page call).xad index))
      (releasePage s.bp s.pool)
  unfold xtDescend
  simp only [hread]
  exact ⟨_, rfl, hpage, rfl, rfl, rfl⟩

theorem xtResolve_descends {s : XtState} (hleaf : (s.page call).isLeaf = false)
    (out : HalvingSearch.Outcome) :
    xtResolve m m.ujfsReadDiskblocks call s out =
      xtDescend m m.ujfsReadDiskblocks call s (routeIndex out) out.cmp := by
  cases out with
  | hit index => simp [xtResolve, hleaf, routeIndex, HalvingSearch.Outcome.cmp]
  | miss base cmp => simp [xtResolve, hleaf, routeIndex, HalvingSearch.Outcome.cmp]

theorem XtAt.page_search {p : XtPage} {capacity : ℤ} {s : XtState}
    (hat : XtAt call capacity s p) (hsorted : p.Sorted capacity) :
    ∃ n s' out, run (xtStep m m.ujfsReadDiskblocks call) n s = .inl s' ∧
      xtStep m m.ujfsReadDiskblocks call s' =
        xtResolve m m.ujfsReadDiskblocks call s out ∧
      out.Correct (fun i => xtCmp call.xoff (p.xad i)) xtEntryStart p.nextindex := by
  obtain ⟨n, out, hrun, hout⟩ := hsorted.search hat.same call.xoff s.cmp hat.cmp
  have hstart : s.search = ⟨xtEntryStart, p.nextindex - xtEntryStart, s.cmp⟩ := by
    rw [XtState.search, hat.base, hat.lim]
  rw [← hstart] at hrun
  obtain ⟨k, s', hreach, hlast⟩ := exists_run_resolve hrun
  exact ⟨k, s', out, hreach, hlast, hout⟩

theorem int32_of_hit {k : ℤ} {x : Xad} (hzero : xtCmp k x = 0) :
    int32 (k - offsetXAD x) = k - offsetXAD x := by
  obtain ⟨hlo, hhi⟩ := (xtCmp_eq_zero_iff k x).mp hzero
  have hlen := lengthXAD_lt x
  exact int32_of_bounds (by omega) (by omega)

theorem minLength_of_hit {k xlen : ℤ} {x : Xad} (hxlen : 1 ≤ xlen) (hxlen' : xlen < 2 ^ 31)
    (hzero : xtCmp k x = 0) :
    minLength xlen (lengthXAD x) (k - offsetXAD x) =
      min xlen (lengthXAD x - (k - offsetXAD x)) := by
  obtain ⟨hlo, hhi⟩ := (xtCmp_eq_zero_iff k x).mp hzero
  exact minLength_eq xlen (lengthXAD x) (k - offsetXAD x) (by omega) hxlen' (by omega) (by omega)
    (by exact_mod_cast lengthXAD_lt x)

theorem xtFound_eq {s : XtState} {x : Xad} (hzero : xtCmp call.xoff x = 0) (cmp : ℤ) :
    xtFound call s x cmp =
      .inr (.returned cmp (addressXAD x + (call.xoff - offsetXAD x))
        (minLength call.xlen (lengthXAD x) (call.xoff - offsetXAD x))
        (releasePage s.bp s.pool)) := by
  unfold xtFound xtOut
  rw [int32_of_hit hzero]

theorem XtAt.leaf_answers (hxlen : 1 ≤ call.xlen) (hxlen' : call.xlen < 2 ^ 31)
    {p : XtPage} {capacity : ℤ} {s : XtState} (hat : XtAt call capacity s p)
    (hleaf : p.isLeaf = true) (hsorted : p.Sorted capacity) :
    ∃ out, Returns (xtStep m m.ujfsReadDiskblocks call) s out ∧
      TreeAnswer m call.xoff (XtHit call) (XtMiss call) p out := by
  obtain ⟨n, s', search, hrun, hlast, hsearch⟩ := hat.page_search (m := m) hsorted
  have hpageLeaf := (hat.same.isLeaf hsorted.capacity_ge).trans hleaf
  have hreturns : ∀ out, xtResolve m m.ujfsReadDiskblocks call s search = .inr out →
      Returns (xtStep m m.ujfsReadDiskblocks call) s out := by
    intro out hresolve
    exact .of_last_step hrun (hlast.trans hresolve)
  cases search with
  | hit index =>
      have hcorrect := hsearch
      obtain ⟨hlo, hhi, hzero⟩ := hsearch
      have hmin := minLength_of_hit hxlen hxlen' hzero
      have hresolve : xtResolve m m.ujfsReadDiskblocks call s (.hit index) =
          .inr (.returned 0
            (addressXAD (p.xad index) + (call.xoff - offsetXAD (p.xad index)))
            (min call.xlen
              (lengthXAD (p.xad index) - (call.xoff - offsetXAD (p.xad index))))
            (releasePage s.bp s.pool)) := by
        simp only [xtResolve, hpageLeaf, if_true]
        rw [hat.same.entry hsorted.nextindex_le hlo hhi, xtFound_eq hzero, hmin]
      refine ⟨_, hreturns _ hresolve, TreeAnswer.of_leaf hleaf hcorrect ?_ ?_⟩
      · intro index' heq
        cases heq
        exact ⟨_, rfl⟩
      · intro base cmp heq
        cases heq
  | miss base cmp =>
      refine ⟨_, hreturns _ (by simp only [xtResolve, hpageLeaf, if_true]; rfl),
        TreeAnswer.of_leaf hleaf hsearch ?_ ?_⟩
      · intro index heq
        cases heq
      · intro base' cmp' heq
        exact ⟨cmp, _, hsearch.2.2.2.2, rfl⟩

theorem XtAt.internal_descends (hmem : m.HasMemory)
    {p : XtPage} {capacity : ℤ} {s : XtState} (hat : XtAt call capacity s p)
    (hleaf : p.isLeaf = false) (hinternal : p.isInternal = true)
    (hsorted : p.Sorted capacity) (hadmits : p.Admits call.xoff) :
    ∃ n s' out, run (xtStep m m.ujfsReadDiskblocks call) n s = .inl s' ∧
      out.Correct (fun i => xtCmp call.xoff (p.xad i)) xtEntryStart p.nextindex ∧
      (xtEntryStart < (m.childPage p (routeIndex out)).nextindex →
        XtAt call xtPageMaxSlot s' (m.childPage p (routeIndex out))) := by
  obtain ⟨n, s', out, hrun, hlast, hout⟩ := hat.page_search (m := m) hsorted
  have hpageLeaf := (hat.same.isLeaf hsorted.capacity_ge).trans hleaf
  have hresolve := xtResolve_descends (m := m) hpageLeaf out
  obtain ⟨child, hdescend, hpage, hbase, hlim, -⟩ :=
    xtDescend_page hmem call s (routeIndex out) out.cmp
  have hstep := hlast.trans (hresolve.trans hdescend)
  refine ⟨n + 1, child, out, run_succ_of_last hrun hstep, hout, ?_⟩
  intro hnonempty
  rw [hat.same.childPage_routeIndex hsorted hinternal hadmits hout] at hpage
  rw [hpage.nextindex (by decide)] at hlim
  exact ⟨hpage, hbase, hlim, .inr hnonempty⟩

theorem XtTree.answers (hmem : m.HasMemory) (htree : XtTree m call.root)
    (hxoff : 0 ≤ call.xoff) (hxlen : 1 ≤ call.xlen) (hxlen' : call.xlen < 2 ^ 31)
    (pool : BufPool) :
    ∃ out, XtLookupEnds m call pool out ∧
      TreeAnswer m call.xoff (XtHit call) (XtMiss call) call.root out := by
  have hat : XtAt call xtRootMaxSlot (xtStart call pool) call.root :=
    ⟨Bytes.Agree.refl _ _, rfl, rfl, .inl (show (1 : ℤ) ≠ 0 by decide)⟩
  exact htree.subtree.search_rule
    (fun _ _ _ hat hleaf _ hsorted => hat.leaf_answers (m := m) hxlen hxlen' hleaf hsorted)
    (fun _ _ _ hat hleaf hinternal hsorted hadmits =>
      hat.internal_descends hmem hleaf hinternal hsorted hadmits)
    (htree.admits hxoff) hat

/-- The answer in terms of the extents. -/
theorem XtTree.returned (htree : XtTree m call.root) (hxlen : 1 ≤ call.xlen)
    {rc xaddr xlen : ℤ} {pool : BufPool}
    (hanswer : TreeAnswer m call.xoff (XtHit call) (XtMiss call) call.root
      (.returned rc xaddr xlen pool)) :
    (rc = 0 ↔ ∃ e, LeafExtent m call.root e ∧ e.Covers call.xoff) ∧
      (∀ e, LeafExtent m call.root e → e.Covers call.xoff →
        xaddr = addressXAD e + (call.xoff - offsetXAD e) ∧
        xlen = min call.xlen (lengthXAD e - (call.xoff - offsetXAD e)) ∧
        1 ≤ xlen) ∧
      (rc ≠ 0 → xaddr = call.xaddr ∧ xlen = call.xlen) := by
  rcases hanswer with ⟨e, he, hcovers, pool', heq⟩ | ⟨hnone, rc', pool', hrc, heq⟩
  · cases heq
    refine ⟨⟨fun _ => ⟨e, he, hcovers⟩, fun _ => rfl⟩, ?_, fun hne => absurd rfl hne⟩
    intro e' he' hcovers'
    obtain rfl := htree.subtree.covers_unique he he' hcovers hcovers'
    obtain ⟨hlo, hhi⟩ := hcovers
    exact ⟨rfl, rfl, by omega⟩
  · cases heq
    refine ⟨⟨fun hzero => absurd hzero hrc, ?_⟩, ?_, fun _ => ⟨rfl, rfl⟩⟩
    · rintro ⟨e, he, hcovers⟩
      exact absurd hcovers (hnone e he)
    · intro e he hcovers
      exact absurd hcovers (hnone e he)

/-- On a well-formed tree of any height the search ends; it succeeds exactly
on the mapped blocks, with their position and the length left in the extent,
and otherwise leaves the result cells alone. -/
theorem xtLookup_correct (hmem : m.HasMemory) (htree : XtTree m call.root)
    (hxoff : 0 ≤ call.xoff) (hxlen : 1 ≤ call.xlen) (hxlen' : call.xlen < 2 ^ 31)
    (pool : BufPool) :
    ∃ rc xaddr xlen pool',
      XtLookupEnds m call pool (.returned rc xaddr xlen pool') ∧
      (rc = 0 ↔ ∃ e, LeafExtent m call.root e ∧ e.Covers call.xoff) ∧
      (∀ e, LeafExtent m call.root e → e.Covers call.xoff →
        xaddr = addressXAD e + (call.xoff - offsetXAD e) ∧
        xlen = min call.xlen (lengthXAD e - (call.xoff - offsetXAD e)) ∧
        1 ≤ xlen) ∧
      (rc ≠ 0 → xaddr = call.xaddr ∧ xlen = call.xlen) := by
  obtain ⟨out, hreturns, hanswer⟩ := htree.answers hmem hxoff hxlen hxlen' pool
  obtain ⟨rc, xaddr, xlen, pool', rfl⟩ : ∃ rc xaddr xlen pool',
      out = .returned rc xaddr xlen pool' := by
    rcases hanswer with ⟨e, -, -, pool', rfl⟩ | ⟨-, rc, pool', -, rfl⟩
    · exact ⟨_, _, _, _, rfl⟩
    · exact ⟨_, _, _, _, rfl⟩
  exact ⟨rc, xaddr, xlen, pool', hreturns, htree.returned hxlen hanswer⟩

/-! A root with one entry over a leaf page that maps blocks 0-1 and 5-7. -/

def twoLevelRoot : XtPage :=
  ⟨Bytes.sparse [(16, 4), (18, 3), (40, 1), (44, 1)]⟩

def twoLevelMount : Mount where
  image := Bytes.sparse [(4096 + 16, 2), (4096 + 18, 4),
    (4096 + 40, 2), (4096 + 44, 10),
    (4096 + 52, 5), (4096 + 56, 3), (4096 + 60, 20)]
  l2bsize := 12
  l2bsize_ge := Mount.pageBlocks_ge
  l2bsize_le := Mount.pageBlocks_le
  malloc := fun _ => some (Bytes.sparse [])

def twoLevelCall : XtCall := ⟨twoLevelRoot, 6, 0, 100⟩

def emptyPool : BufPool := ⟨none, fun _ => none, fun _ => 0, Bytes.sparse [], 0⟩

theorem twoLevelMount_tree : XtTree twoLevelMount twoLevelRoot := by
  have hroot : twoLevelRoot.nextindex = 3 := by decide
  have hchild : (twoLevelMount.childPage twoLevelRoot 2).nextindex = 4 := by decide
  have honly : ∀ i, xtEntryStart ≤ i → i < twoLevelRoot.nextindex → i = 2 := by
    intro i hlo hhi
    have : xtEntryStart = 2 := rfl
    omega
  constructor
  · apply XtSubtree.internal
    · decide
    · decide
    · refine ⟨by decide, by decide, ?_⟩
      intro i j hlo hij hhi
      have := honly i hlo (by omega)
      have := honly j (by omega) hhi
      omega
    · intro i hlo hhi
      obtain rfl := honly i hlo hhi
      refine ⟨by decide, by decide, ?_⟩
      intro e k he hcovers
      obtain ⟨hlo', hhi'⟩ := hcovers
      have hzero : offsetXAD (twoLevelRoot.xad 2) = 0 := by decide
      rw [hzero, hroot]
      omega
    · intro i hlo hhi
      obtain rfl := honly i hlo hhi
      apply XtSubtree.leaf
      · decide
      · decide
      · refine ⟨by decide, by decide, ?_⟩
        intro i j hlo hij hhi
        have : xtEntryStart = 2 := rfl
        obtain rfl : i = 2 := by omega
        obtain rfl : j = 3 := by omega
        decide
  · intro _
    exact ⟨by decide, by decide⟩

theorem twoLevel_leafExtent {i : ℤ} (hlo : xtEntryStart ≤ i)
    (hhi : i < (twoLevelMount.childPage twoLevelRoot 2).nextindex) :
    LeafExtent twoLevelMount twoLevelRoot ((twoLevelMount.childPage twoLevelRoot 2).xad i) := by
  apply LeafExtent.child
  · decide
  · exact le_rfl
  · decide
  · exact .leaf (by decide) hlo hhi

theorem xtLookup_correct_twoLevel :
    XtTree twoLevelMount twoLevelCall.root ∧
      ∃ pool', XtLookupEnds twoLevelMount twoLevelCall emptyPool
        (.returned 0 21 2 pool') := by
  refine ⟨twoLevelMount_tree, ?_⟩
  obtain ⟨rc, xaddr, xlen, pool', hends, hrc, hfound, -⟩ :=
    @xtLookup_correct twoLevelMount twoLevelCall (fun _ => rfl) twoLevelMount_tree
      (by decide) (by decide) (by decide) emptyPool
  have hextent := twoLevel_leafExtent (i := 3) (by decide) (by decide)
  have hcovers : ((twoLevelMount.childPage twoLevelRoot 2).xad 3).Covers 6 :=
    ⟨by decide, by decide⟩
  obtain ⟨hxaddr, hxlen, -⟩ := hfound _ hextent hcovers
  have hzero : rc = 0 := hrc.mpr ⟨_, hextent, hcovers⟩
  have hxaddr' : xaddr = 21 := hxaddr.trans (by decide)
  have hxlen' : xlen = 2 := hxlen.trans (by decide)
  subst hzero hxaddr' hxlen'
  exact ⟨pool', hends⟩

end JfsReader
