import JfsReader.SearchTermination

/-!
# What a successful lookup has found

`xt_Lookup` returns the comparison it made last.  It starts as 1, so that an
inode without extents is a miss; but it is not set back on the way down, and a
leaf without entries below an entry that holds the key returns the zero of that
entry.  The pages may be in any order here.
-/

namespace JfsReader

open StepMachine HalvingSearch

/-- The outcome of the page search of `p`, if it ends. -/
def XtPage.found (k : ℤ) (p : XtPage) : Outcome :=
  if xtEntryStart ≤ p.nextindex then
    outcome (fun i => xtCmp k (p.xad i)) ⟨xtEntryStart, p.nextindex - xtEntryStart, 1⟩
  else .hit 1

/-- Whether the last comparison before the search goes below `p` was a hit;
`hit` is the same before the search of `p`. -/
def XtPage.hitBelow (k : ℤ) (p : XtPage) (hit : Bool) : Bool :=
  match p.found k with
  | .hit _ => true
  | .miss _ _ => hit && decide (p.nextindex = xtEntryStart)

/-- From one page to the next, with the comparison last made before each. -/
def Follows (m : Mount) (k : ℤ) (a b : XtPage × Bool) : Prop :=
  a.1.isLeaf = false ∧ b = (m.childPage a.1 (routeIndex (a.1.found k)), a.1.hitBelow k a.2)

def Visits (m : Mount) (k : ℤ) (root : XtPage) : XtPage × Bool → Prop :=
  Relation.ReflTransGen (Follows m k) (root, false)

def XtPage.Counted (p : XtPage) (capacity : ℤ) : Prop :=
  xtEntryStart ≤ p.nextindex ∧ p.nextindex ≤ capacity

structure PagesCounted (m : Mount) (k capacity : ℤ) (a : XtPage × Bool) : Prop where
  here : a.1.Counted capacity
  below : ∀ b, Relation.TransGen (Follows m k) a b → b.1.Counted xtPageMaxSlot

variable {m : Mount} {k capacity : ℤ} {a b : XtPage × Bool} {p : XtPage}

theorem PagesCounted.child (h : PagesCounted m k capacity a) (hfollows : Follows m k a b) :
    PagesCounted m k xtPageMaxSlot b :=
  ⟨h.below b (.single hfollows), fun c hc => h.below c (.head hfollows hc)⟩

theorem XtPage.Counted.found_routeIndex (h : p.Counted capacity) :
    0 ≤ routeIndex (p.found k) ∧ routeIndex (p.found k) < capacity := by
  obtain ⟨hlo, hhi⟩ := h
  have hstart : xtEntryStart = 2 := rfl
  have hwithin := State.Within.start hlo 1
  have hbounds := returns_within hwithin
    (returns_outcome (fun i => xtCmp k (p.xad i)) hwithin.lim_nonneg)
  unfold XtPage.found
  rw [if_pos hlo]
  cases hout : outcome (fun i => xtCmp k (p.xad i))
      ⟨xtEntryStart, p.nextindex - xtEntryStart, 1⟩ with
  | hit index =>
      rw [hout] at hbounds
      obtain ⟨hge, hlt⟩ := hbounds
      simp only [routeIndex]
      omega
  | miss base cmp =>
      rw [hout] at hbounds
      obtain ⟨hge, hle⟩ := hbounds
      simp only [routeIndex]
      rw [if_pos (by omega)]
      omega

/-- The search comes to one leaf at most. -/
theorem visited_leaf_unique {root : XtPage} (ha : Visits m k root a) (hb : Visits m k root b)
    (hleaf : a.1.isLeaf = true) (hleaf' : b.1.isLeaf = true) : a = b := by
  have hunique : Relator.RightUnique (Follows m k) := by
    rintro c d d' ⟨-, rfl⟩ ⟨-, rfl⟩
    rfl
  have hlast : ∀ {c d : XtPage × Bool}, c.1.isLeaf = true →
      Relation.ReflTransGen (Follows m k) c d → c = d := by
    intro c d hc hled
    rcases Relation.ReflTransGen.cases_head hled with rfl | ⟨_, ⟨hnot, -⟩, -⟩
    · rfl
    · rw [hc] at hnot
      cases hnot
  rcases ha.total_of_right_unique hunique hb with hab | hba
  · exact hlast hleaf hab
  · exact (hlast hleaf' hba).symm

/-! ## The pages of a run -/

/-- About to search the page `a.1`, with a zero in `cmp` just after a hit. -/
structure XtAtVisit (call : XtCall) (capacity : ℤ) (s : XtState) (a : XtPage × Bool) : Prop
    where
  same : (s.page call).Same capacity a.1
  base : s.base = xtEntryStart
  lim : s.lim = a.1.nextindex - xtEntryStart
  carried : s.cmp = 0 ↔ a.2 = true

variable {call : XtCall} {s : XtState}

theorem XtPage.Counted.capacity_ge (h : p.Counted capacity) : xtEntryStart ≤ capacity :=
  h.1.trans h.2

theorem XtAtVisit.search (hat : XtAtVisit call capacity s a) (hcount : a.1.Counted capacity) :
    ∃ n s' out, run (xtStep m m.ujfsReadDiskblocks call) n s = .inl s' ∧
      xtStep m m.ujfsReadDiskblocks call s' = xtResolve m m.ujfsReadDiskblocks call s out ∧
      SameEntry out (a.1.found call.xoff) ∧
      (out.cmp = 0 ↔ a.1.hitBelow call.xoff a.2 = true) ∧
      ∀ index, out = .hit index → xtEntryStart ≤ index ∧ index < a.1.nextindex ∧
        xtCmp call.xoff (a.1.xad index) = 0 := by
  obtain ⟨hlo, hhi⟩ := hcount
  have hwithin := State.Within.start hlo s.cmp
  obtain ⟨out, hreturns, hentry⟩ := returns_of_cmp
    (returns_outcome (fun i => xtCmp call.xoff (a.1.xad i)) (State.Within.start hlo 1).lim_nonneg)
    s.cmp
  have hfound : SameEntry out (a.1.found call.xoff) := by
    rw [XtPage.found, if_pos hlo]
    exact hentry.symm
  obtain ⟨n, hrun⟩ : Returns (step fun i => xtCmp call.xoff ((s.page call).xad i))
      s.search out := by
    obtain ⟨n, hrun⟩ := hreturns
    refine ⟨n, ?_⟩
    rw [XtState.search, hat.base, hat.lim, ← hrun]
    exact run_congr hwithin (fun i hge hlt => by rw [hat.same.entry hhi hge hlt]) n
  obtain ⟨k, s', hreach, hlast⟩ := exists_run_resolve hrun
  refine ⟨k, s', out, hreach, hlast, hfound, ?_, ?_⟩
  · unfold XtPage.hitBelow
    cases out with
    | hit index =>
        cases hout : a.1.found call.xoff with
        | hit index' => simp [Outcome.cmp]
        | miss base cmp => rw [hout] at hfound; cases hfound
    | miss base cmp =>
        have hcmp := cmp_of_miss hreturns
        cases hout : a.1.found call.xoff with
        | hit index' => rw [hout] at hfound; cases hfound
        | miss base' cmp' =>
            simp only [Outcome.cmp, hcmp, hat.carried, Bool.and_eq_true, decide_eq_true_eq]
            rw [and_comm, sub_eq_zero]
  · rintro index rfl
    have hzero := compare_eq_zero_of_hit hreturns
    obtain ⟨hge, hlt⟩ := returns_within hwithin hreturns
    exact ⟨hge, hlt, hzero⟩

/-- What a hit on the entry `x` of a leaf stores. -/
def XtStores (call : XtCall) (x : Xad) (xaddr xlen : ℤ) : Prop :=
  xaddr = addressXAD x + (call.xoff - offsetXAD x) ∧
    xlen = minLength call.xlen (lengthXAD x) (call.xoff - offsetXAD x)

/-- The ends of a call, at the leaf `b.1` it came to: an entry was hit, or the
last comparison is returned. -/
inductive EndsAt (call : XtCall) (b : XtPage × Bool) : XtEnd → Prop
  | hit {index xaddr xlen : ℤ} {pool : BufPool} : xtEntryStart ≤ index →
      index < b.1.nextindex → xtCmp call.xoff (b.1.xad index) = 0 →
      XtStores call (b.1.xad index) xaddr xlen → EndsAt call b (.returned 0 xaddr xlen pool)
  | miss {rc : ℤ} {pool : BufPool} : (rc = 0 ↔ b.2 = true ∧ b.1.nextindex = xtEntryStart) →
      EndsAt call b (.returned rc call.xaddr call.xlen pool)

theorem XtAtVisit.leaf_ends (hat : XtAtVisit call capacity s a) (hcount : a.1.Counted capacity)
    (hleaf : a.1.isLeaf = true) :
    ∃ out, Returns (xtStep m m.ujfsReadDiskblocks call) s out ∧ EndsAt call a out := by
  obtain ⟨n, s', out, hreach, hlast, hentry, hcmp, hhit⟩ := hat.search (m := m) hcount
  have hpageLeaf := (hat.same.isLeaf hcount.capacity_ge).trans hleaf
  cases out with
  | hit index =>
      obtain ⟨hlo, hhi, hzero⟩ := hhit index rfl
      have hresolve : xtResolve m m.ujfsReadDiskblocks call s (.hit index) =
          xtFound call s (a.1.xad index) 0 := by
        simp only [xtResolve, hpageLeaf, if_true]
        rw [hat.same.entry hcount.2 hlo hhi]
      rw [xtFound_eq hzero] at hresolve
      exact ⟨_, .of_last_step hreach (hlast.trans hresolve), .hit hlo hhi hzero ⟨rfl, rfl⟩⟩
  | miss base cmp =>
      have hresolve : xtResolve m m.ujfsReadDiskblocks call s (.miss base cmp) =
          .inr (.returned cmp call.xaddr call.xlen (releasePage s.bp s.pool)) := by
        simp only [xtResolve, hpageLeaf, if_true]
        rfl
      refine ⟨_, .of_last_step hreach (hlast.trans hresolve), .miss ?_⟩
      cases hfound : a.1.found call.xoff with
      | hit index => rw [hfound] at hentry; cases hentry
      | miss base' cmp' => simpa [XtPage.hitBelow, hfound, Outcome.cmp] using hcmp

theorem XtAtVisit.internal_descends (hmem : m.HasMemory) (hat : XtAtVisit call capacity s a)
    (hcount : a.1.Counted capacity) (hleaf : a.1.isLeaf = false) :
    ∃ n s' b, run (xtStep m m.ujfsReadDiskblocks call) (n + 1) s = .inl s' ∧
      Follows m call.xoff a b ∧ XtAtVisit call xtPageMaxSlot s' b := by
  obtain ⟨n, s', out, hreach, hlast, hentry, hcmp, -⟩ := hat.search (m := m) hcount
  have hpageLeaf := (hat.same.isLeaf hcount.capacity_ge).trans hleaf
  have hresolve := xtResolve_descends (m := m) hpageLeaf out
  obtain ⟨child, hdescend, hpage, hbase, hlim, hcarried⟩ :=
    xtDescend_page hmem call s (routeIndex out) out.cmp
  obtain ⟨hlo, hhi⟩ := hcount.found_routeIndex (k := call.xoff)
  rw [routeIndex_congr hentry, hat.same.childPage m hlo hhi] at hpage
  refine ⟨n, child, _, run_succ_of_last hreach (hlast.trans (hresolve.trans hdescend)),
    ⟨hleaf, rfl⟩, hpage, hbase, ?_, ?_⟩
  · rw [hlim, hpage.nextindex (by decide)]
  · rw [hcarried]
    exact hcmp

theorem XtAtVisit.ends (hmem : m.HasMemory) (hat : XtAtVisit call capacity s a)
    (hcounts : PagesCounted m call.xoff capacity a) {out : XtEnd}
    (hreturns : Returns (xtStep m m.ujfsReadDiskblocks call) s out) :
    ∃ b, Relation.ReflTransGen (Follows m call.xoff) a b ∧ b.1.isLeaf = true ∧
      EndsAt call b out := by
  obtain ⟨n, hrun⟩ := hreturns
  -- by the number of steps left: every descent takes at least one
  induction n using Nat.strong_induction_on generalizing s a capacity with
  | _ n ih =>
      cases hleaf : a.1.isLeaf with
      | true =>
          obtain ⟨out', hreturns, hends⟩ := hat.leaf_ends (m := m) hcounts.here hleaf
          rw [Returns.unique ⟨n, hrun⟩ hreturns]
          exact ⟨a, .refl, hleaf, hends⟩
      | false =>
          obtain ⟨steps, s', b, hreach, hfollows, hat'⟩ :=
            hat.internal_descends hmem hcounts.here hleaf
          obtain ⟨hle, hrest⟩ := run_sub_of_inl hreach hrun
          obtain ⟨c, hled, hc, hends⟩ := ih (n - (steps + 1)) (by omega) hat'
            (hcounts.child hfollows) hrest
          exact ⟨c, .head hfollows hled, hc, hends⟩

/-! ## Success -/

/-- Success comes with an extent: a call returns, and a return value of 0 means
that both cells were filled from an entry of a leaf that holds the key. -/
def SuccessFromLeaf (m : Mount) (call : XtCall) (out : XtEnd) : Prop :=
  ∃ rc xaddr xlen pool, out = .returned rc xaddr xlen pool ∧
    (rc = 0 → ∃ q hit index, Visits m call.xoff call.root (q, hit) ∧ q.isLeaf = true ∧
      xtEntryStart ≤ index ∧ index < q.nextindex ∧
      offsetXAD (q.xad index) ≤ call.xoff ∧
      call.xoff < offsetXAD (q.xad index) + lengthXAD (q.xad index) ∧
      XtStores call (q.xad index) xaddr xlen)

/-- The only way to succeed without an extent is a leaf without entries to
which a hit led. -/
theorem success_from_leaf_iff (hmem : m.HasMemory) (pool : BufPool)
    (hcounts : PagesCounted m call.xoff xtRootMaxSlot (call.root, false)) {out : XtEnd}
    (hends : XtLookupEnds m call pool out) :
    SuccessFromLeaf m call out ↔
      ∀ q, Visits m call.xoff call.root (q, true) → q.isLeaf = true →
        q.nextindex ≠ xtEntryStart := by
  have hat : XtAtVisit call xtRootMaxSlot (xtStart call pool) (call.root, false) :=
    ⟨Bytes.Agree.refl _ _, rfl, rfl, by simp [xtStart, xtSearchPage]⟩
  obtain ⟨⟨p, hit⟩, hvisit, hleaf, hout⟩ := hat.ends hmem hcounts hends
  cases hout with
  | hit hlo hhi hzero hstores =>
      obtain ⟨hge, hlt⟩ := (xtCmp_eq_zero_iff _ _).mp hzero
      constructor
      · rintro - q hq hqleaf hempty
        cases visited_leaf_unique hvisit hq hleaf hqleaf
        dsimp only at hhi
        omega
      · intro _
        exact ⟨_, _, _, _, rfl,
          fun _ => ⟨p, hit, _, hvisit, hleaf, hlo, hhi, hge, hlt, hstores⟩⟩
  | miss hrc =>
      constructor
      · rintro ⟨rc, xaddr, xlen, pool', heq, hfound⟩ q hq hqleaf hempty
        cases visited_leaf_unique hvisit hq hleaf hqleaf
        cases heq
        obtain ⟨q', hit', index, hq', hqleaf', hlo, hhi, -⟩ := hfound (hrc.mpr ⟨rfl, hempty⟩)
        cases visited_leaf_unique hvisit hq' hleaf hqleaf'
        omega
      · intro hnone
        refine ⟨_, _, _, _, rfl, fun hzero => ?_⟩
        obtain ⟨htrue, hempty⟩ := hrc.mp hzero
        dsimp only at htrue
        subst htrue
        exact absurd hempty (hnone p hvisit hleaf)

theorem pagesCounted_of_leaf_child {root q : XtPage} {hit : Bool} (hroot : root.Counted capacity)
    (hfollows : Follows m k (root, false) (q, hit)) (hcount : q.Counted xtPageMaxSlot)
    (hleaf : q.isLeaf = true) : PagesCounted m k capacity (root, false) := by
  refine ⟨hroot, ?_⟩
  intro b hled
  obtain ⟨c, hfirst, hrest⟩ := Relation.TransGen.head'_iff.mp hled
  obtain rfl : c = (q, hit) := hfirst.2.trans hfollows.2.symm
  rcases Relation.ReflTransGen.cases_head hrest with rfl | ⟨d, ⟨hnot, -⟩, -⟩
  · exact hcount
  · rw [hleaf] at hnot
    cases hnot

theorem twoLevel_follows :
    Follows twoLevelMount 6 (twoLevelRoot, false)
      (twoLevelMount.childPage twoLevelRoot 2, false) :=
  ⟨by decide, rfl⟩

theorem success_from_leaf_twoLevel :
    PagesCounted twoLevelMount 6 xtRootMaxSlot (twoLevelRoot, false) ∧
      ∃ out, XtLookupEnds twoLevelMount twoLevelCall emptyPool out ∧
        SuccessFromLeaf twoLevelMount twoLevelCall out := by
  have hcounts : PagesCounted twoLevelMount 6 xtRootMaxSlot (twoLevelRoot, false) :=
    pagesCounted_of_leaf_child ⟨by decide, by decide⟩ twoLevel_follows ⟨by decide, by decide⟩
      (by decide)
  refine ⟨hcounts, _, ⟨3, rfl⟩, ?_⟩
  refine (@success_from_leaf_iff twoLevelMount twoLevelCall (fun _ => rfl) emptyPool hcounts _
    ⟨3, rfl⟩).mpr ?_
  intro q hq hleaf
  cases visited_leaf_unique (.single twoLevel_follows) hq (by decide) hleaf

/-! The same root over a leaf without entries. -/

def emptyLeafMount : Mount where
  image := Bytes.sparse [(4096 + 16, 2), (4096 + 18, 2)]
  l2bsize := 12
  l2bsize_ge := Mount.pageBlocks_ge
  l2bsize_le := Mount.pageBlocks_le
  malloc := fun _ => some (Bytes.sparse [])

def emptyLeafCall : XtCall := ⟨twoLevelRoot, 0, 77, 100⟩

theorem emptyLeaf_follows :
    Follows emptyLeafMount 0 (twoLevelRoot, false)
      (emptyLeafMount.childPage twoLevelRoot 2, true) :=
  ⟨by decide, rfl⟩

/-- Success, with the cells as they were. -/
theorem success_without_extent :
    PagesCounted emptyLeafMount 0 xtRootMaxSlot (twoLevelRoot, false) ∧
      ∃ pool, XtLookupEnds emptyLeafMount emptyLeafCall emptyPool (.returned 0 77 100 pool) ∧
        ¬ SuccessFromLeaf emptyLeafMount emptyLeafCall (.returned 0 77 100 pool) := by
  refine ⟨pagesCounted_of_leaf_child ⟨by decide, by decide⟩ emptyLeaf_follows
    ⟨by decide, by decide⟩ (by decide), _, ⟨2, rfl⟩, ?_⟩
  rintro ⟨rc, xaddr, xlen, pool, heq, hfound⟩
  cases heq
  obtain ⟨q, hit, index, hq, hleaf, hlo, hhi, -⟩ := hfound rfl
  cases visited_leaf_unique (.single emptyLeaf_follows) hq (by decide) hleaf
  have hempty : (emptyLeafMount.childPage twoLevelRoot 2).nextindex = xtEntryStart := by decide
  omega

end JfsReader
