import JfsReader.ExtentLookupCorrect
import JfsReader.InodeSearch

/-!
# When the extent-tree searches end

Neither search bounds its descents, and both compute their loop count from a
header field without a look at its value: below 2 the count is negative, and
then it never comes down to zero.  The pages a key is led through decide whether
a search ends, each taken as it stands in its buffer, with the memory around it:
a count beyond the capacity of a page leads the comparisons there.
-/

namespace JfsReader

open StepMachine HalvingSearch

/-- Where the two searches differ: how they read the count of a page, and on
which outcomes of its search they go on below it. -/
structure SearchRules where
  count : XtPage → ℤ
  goesOn : XtPage → Outcome → Bool

/-- `xt_Lookup` goes on below every page that is not a leaf. -/
def xtRules : SearchRules := ⟨XtPage.nextindex, fun p _ => !p.isLeaf⟩

/-- `find_iag` tests for `BT_LEAF` on a hit and for `BT_INTERNAL` on a miss. -/
def iagGoesOn (p : XtPage) : Outcome → Bool
  | .hit _ => !p.isLeaf
  | .miss _ _ => p.isInternal

def iagRules : SearchRules := ⟨fun p => p.nextindexLe16, iagGoesOn⟩

/-- The search of `p` as it begins. -/
def SearchRules.start (R : SearchRules) (p : XtPage) : State :=
  ⟨xtEntryStart, R.count p - xtEntryStart, 1⟩

/-- The page search ends: the count covers the header, or one of the entries
that a smaller count leads to holds the key. -/
def XtPage.Resolves (p : XtPage) (R : SearchRules) (k : ℤ) : Prop :=
  xtEntryStart ≤ R.count p ∨
    ∃ i, Probes (fun i => xtCmp k (p.xad i)) (R.start p) i ∧ xtCmp k (p.xad i) = 0

def XtPage.Finds (p : XtPage) (R : SearchRules) (k : ℤ) (out : Outcome) : Prop :=
  Returns (step fun i => xtCmp k (p.xad i)) (R.start p) out

/-- The page that entry `i` of `p` leads to, when it has been read into
`buffer`. -/
def Mount.pageIn (m : Mount) (buffer : Bytes) (p : XtPage) (i : ℤ) : XtPage :=
  ⟨buffer.memcpy (m.block (addressXAD (p.xad i))) pageSize⟩

theorem Mount.pageIn_same (m : Mount) (buffer : Bytes) (p : XtPage) (i : ℤ) :
    (m.pageIn buffer p i).Same xtPageMaxSlot (m.childPage p i) :=
  Bytes.Agree.memcpy_src _ _ _

/-- The key is led through finitely many pages, on each of which the page
search ends. -/
inductive SearchEnds (m : Mount) (buffer : Bytes) (R : SearchRules) (k : ℤ) : XtPage → Prop
  | stops {p : XtPage} {out : Outcome} : p.Finds R k out → R.goesOn p out = false →
      SearchEnds m buffer R k p
  | descends {p : XtPage} {out : Outcome} : p.Finds R k out → R.goesOn p out = true →
      SearchEnds m buffer R k (m.pageIn buffer p (routeIndex out)) → SearchEnds m buffer R k p

def LedTo (m : Mount) (buffer : Bytes) (R : SearchRules) (k : ℤ) (p q : XtPage) : Prop :=
  ∃ out, p.Finds R k out ∧ R.goesOn p out = true ∧ q = m.pageIn buffer p (routeIndex out)

/-- The key is led from page to page for ever. -/
def EndlessDescent (m : Mount) (buffer : Bytes) (R : SearchRules) (k : ℤ) (p : XtPage) : Prop :=
  ∃ f : ℕ → XtPage, f 0 = p ∧ ∀ i, LedTo m buffer R k (f i) (f (i + 1))

variable {m : Mount} {buffer : Bytes} {R : SearchRules} {k : ℤ} {p q : XtPage} {out : Outcome}

theorem XtPage.resolves_iff : p.Resolves R k ↔ ∃ out, p.Finds R k out := by
  unfold XtPage.Resolves XtPage.Finds
  rw [exists_returns_iff]
  apply or_congr_left
  exact Int.sub_nonneg.symm

/-- A count of 0 or 1 leads to entry 1 alone, which is made of header bytes. -/
theorem XtPage.resolves_of_header (hlo : 0 ≤ R.count p) (hhi : R.count p < xtEntryStart) :
    p.Resolves R k ↔ xtCmp k (p.xad 1) = 0 := by
  have hstart : xtEntryStart = 2 := rfl
  have hlim : (R.start p).lim = -1 ∨ (R.start p).lim = -2 := by
    unfold SearchRules.start
    dsimp only
    omega
  have hbase : (R.start p).base - 1 = 1 := rfl
  unfold XtPage.Resolves
  constructor
  · rintro (hge | ⟨i, hprobes, hzero⟩)
    · omega
    · rw [probes_iff hlim, hbase] at hprobes
      rwa [hprobes] at hzero
  · exact fun hzero => .inr ⟨1, (probes_iff hlim).mpr hbase.symm, hzero⟩

theorem XtPage.Finds.unique {out' : Outcome} (h : p.Finds R k out) (h' : p.Finds R k out') :
    out = out' := Returns.unique h h'

theorem LedTo.of_finds (hfinds : p.Finds R k out) (hled : LedTo m buffer R k p q) :
    R.goesOn p out = true ∧ q = m.pageIn buffer p (routeIndex out) := by
  obtain ⟨out', hfinds', hgo, hq⟩ := hled
  cases hfinds.unique hfinds'
  exact ⟨hgo, hq⟩

theorem SearchEnds.resolves (h : SearchEnds m buffer R k p)
    (hled : Relation.ReflTransGen (LedTo m buffer R k) p q) : q.Resolves R k := by
  induction h with
  | stops hfinds hgo =>
      rcases Relation.ReflTransGen.cases_head hled with rfl | ⟨r, hfirst, -⟩
      · exact XtPage.resolves_iff.mpr ⟨_, hfinds⟩
      · rw [(hfirst.of_finds hfinds).1] at hgo
        contradiction
  | descends hfinds hgo _ ih =>
      rcases Relation.ReflTransGen.cases_head hled with rfl | ⟨r, hfirst, hrest⟩
      · exact XtPage.resolves_iff.mpr ⟨_, hfinds⟩
      · obtain ⟨-, rfl⟩ := hfirst.of_finds hfinds
        exact ih hrest

theorem SearchEnds.not_endless (h : SearchEnds m buffer R k p) :
    ¬ EndlessDescent m buffer R k p := by
  induction h with
  | stops hfinds hgo =>
      rintro ⟨f, rfl, hled⟩
      rw [((hled 0).of_finds hfinds).1] at hgo
      contradiction
  | descends hfinds hgo _ ih =>
      rintro ⟨f, rfl, hled⟩
      exact ih ⟨fun i => f (i + 1), ((hled 0).of_finds hfinds).2, fun i => hled (i + 1)⟩

/-- A search fails to end on a page whose own search does not, or by going
down for ever. -/
theorem searchEnds_iff :
    SearchEnds m buffer R k p ↔
      (∀ q, Relation.ReflTransGen (LedTo m buffer R k) p q → q.Resolves R k) ∧
        ¬ EndlessDescent m buffer R k p := by
  constructor
  · exact fun h => ⟨fun q hled => h.resolves hled, h.not_endless⟩
  · rintro ⟨hresolves, hfinite⟩
    by_contra hnot
    have hon : ∀ q, Relation.ReflTransGen (LedTo m buffer R k) p q ∧
        ¬ SearchEnds m buffer R k q →
        ∃ r, LedTo m buffer R k q r ∧ ¬ SearchEnds m buffer R k r := by
      rintro q ⟨hled, hq⟩
      obtain ⟨out, hfinds⟩ := XtPage.resolves_iff.mp (hresolves q hled)
      cases hgo : R.goesOn q out with
      | false => exact absurd (.stops hfinds hgo) hq
      | true => exact ⟨_, ⟨out, hfinds, hgo, rfl⟩, fun hends => hq (.descends hfinds hgo hends)⟩
    -- a page at which the search goes on for ever is followed by another one
    choose! child hchild using hon
    have hpath : ∀ i, Relation.ReflTransGen (LedTo m buffer R k) p (child^[i] p) ∧
        ¬ SearchEnds m buffer R k (child^[i] p) := by
      intro i
      induction i with
      | zero => exact ⟨.refl, hnot⟩
      | succ i ih =>
          rw [Function.iterate_succ_apply']
          exact ⟨ih.1.tail (hchild _ ih).1, (hchild _ ih).2⟩
    refine hfinite ⟨fun i => child^[i] p, rfl, ?_⟩
    intro i
    dsimp only
    rw [Function.iterate_succ_apply']
    exact (hchild _ (hpath i)).1

theorem routeIndex_congr {out out' : Outcome} (h : SameEntry out out') :
    routeIndex out = routeIndex out' := by
  cases out <;> cases out' <;> simp_all [SameEntry, routeIndex]

/-! ## Searches of whole trees -/

/-- `At s p` says that the machine is in state `s` about to search the page `p`.
If it stays for ever on the pages whose search does not end, and otherwise
answers or comes to the followed child, then it ends exactly where `SearchEnds`
says so. -/
theorem returns_iff_searchEnds {σ ρ : Type} {step : σ → σ ⊕ ρ} {At : σ → XtPage → Prop}
    (hstuck : ∀ {s p}, At s p → ¬ p.Resolves R k → ∀ r, ¬ Returns step s r)
    (hstops : ∀ {s p out}, At s p → p.Finds R k out → R.goesOn p out = false →
      ∃ r, Returns step s r)
    (hdescends : ∀ {s p out}, At s p → p.Finds R k out → R.goesOn p out = true →
      ∃ n s', run step (n + 1) s = .inl s' ∧ At s' (m.pageIn buffer p (routeIndex out)))
    {s : σ} (hat : At s p) : (∃ r, Returns step s r) ↔ SearchEnds m buffer R k p := by
  constructor
  · rintro ⟨r, n, hrun⟩
    -- by the number of steps left: every descent takes at least one
    induction n using Nat.strong_induction_on generalizing s p with
    | _ n ih =>
        have hresolves : p.Resolves R k := by
          by_contra hnot
          exact hstuck hat hnot r ⟨n, hrun⟩
        obtain ⟨out, hfinds⟩ := XtPage.resolves_iff.mp hresolves
        cases hgo : R.goesOn p out with
        | false => exact .stops hfinds hgo
        | true =>
            obtain ⟨steps, s', hreach, hat'⟩ := hdescends hat hfinds hgo
            obtain ⟨hle, hrest⟩ := run_sub_of_inl hreach hrun
            exact .descends hfinds hgo (ih (n - (steps + 1)) (by omega) hat' hrest)
  · intro hends
    induction hends generalizing s with
    | stops hfinds hgo => exact hstops hat hfinds hgo
    | descends hfinds hgo _ ih =>
        obtain ⟨steps, s', hreach, hat'⟩ := hdescends hat hfinds hgo
        obtain ⟨r, hreturns⟩ := ih hat'
        exact ⟨r, .of_run hreach hreturns⟩

/-! ## `xt_Lookup` -/

/-- About to search `p`; the next page goes where the present one is, or for the
root where the first page goes. -/
structure XtAtPage (m : Mount) (buffer : Bytes) (call : XtCall) (s : XtState) (p : XtPage) :
    Prop where
  page : s.page call = p
  base : s.base = xtEntryStart
  lim : s.lim = p.nextindex - xtEntryStart
  around : ∀ src, ((releasePage s.bp s.pool).nextBuffer m).memcpy src pageSize =
    buffer.memcpy src pageSize

section XtLookup

variable {call : XtCall} {s : XtState}

theorem XtAtPage.search_eq (hat : XtAtPage m buffer call s p) :
    s.search = ⟨xtEntryStart, p.nextindex - xtEntryStart, s.cmp⟩ := by
  rw [XtState.search, hat.base, hat.lim]

theorem XtAtPage.stuck (hat : XtAtPage m buffer call s p)
    (hstuck : ¬ p.Resolves xtRules call.xoff) (out : XtEnd) :
    ¬ Returns (xtStep m m.ujfsReadDiskblocks call) s out := by
  have hnever : ∀ out, ¬ Returns (step fun i => xtCmp call.xoff ((s.page call).xad i))
      s.search out := by
    rw [hat.search_eq, hat.page]
    intro out hreturns
    obtain ⟨out', hreturns', -⟩ := returns_of_cmp hreturns 1
    exact hstuck (XtPage.resolves_iff.mpr ⟨_, hreturns'⟩)
  refine not_returns_of_embed s.withSearch ?_ hnever out
  intro q q' hstep
  rw [xtStep_withSearch, hstep]

theorem XtAtPage.resolved (hat : XtAtPage m buffer call s p)
    (hfinds : p.Finds xtRules call.xoff out) :
    ∃ n s' out', run (xtStep m m.ujfsReadDiskblocks call) n s = .inl s' ∧
      xtStep m m.ujfsReadDiskblocks call s' = xtResolve m m.ujfsReadDiskblocks call s out' ∧
      SameEntry out out' := by
  have hfirst : Returns (step fun i => xtCmp call.xoff (p.xad i))
      ⟨xtEntryStart, p.nextindex - xtEntryStart, 1⟩ out := hfinds
  obtain ⟨out', ⟨n, hrun⟩, hentry⟩ := returns_of_cmp hfirst s.cmp
  rw [← hat.search_eq, ← hat.page] at hrun
  obtain ⟨k, s', hreach, hlast⟩ := exists_run_resolve hrun
  exact ⟨k, s', out', hreach, hlast, hentry⟩

theorem XtAtPage.stops (hat : XtAtPage m buffer call s p)
    (hfinds : p.Finds xtRules call.xoff out) (hgo : xtRules.goesOn p out = false) :
    ∃ r, Returns (xtStep m m.ujfsReadDiskblocks call) s r := by
  obtain ⟨n, s', out', hreach, hlast, -⟩ := hat.resolved hfinds
  have hleaf : (s.page call).isLeaf = true := by
    rw [hat.page]
    simpa [xtRules] using hgo
  obtain ⟨r, hresolve⟩ : ∃ r, xtResolve m m.ujfsReadDiskblocks call s out' = .inr r := by
    cases out' with
    | hit index => exact ⟨_, by simp only [xtResolve, hleaf, if_true]; rfl⟩
    | miss base cmp => exact ⟨_, by simp only [xtResolve, hleaf, if_true]; rfl⟩
  exact ⟨r, .of_last_step hreach (hlast.trans hresolve)⟩

theorem xtDescend_eq (hmem : m.HasMemory) (hat : XtAtPage m buffer call s p) (index cmp : ℤ) :
    ∃ s', xtDescend m m.ujfsReadDiskblocks call s index cmp = .inl s' ∧
      XtAtPage m buffer call s' (m.pageIn buffer p index) := by
  obtain ⟨bp, pool, hread, hpage⟩ :=
    BufPool.bRead_eq hmem (addressXAD ((s.page call).xad index)) (releasePage s.bp s.pool)
  rw [hat.around, hat.page] at hpage
  unfold xtDescend
  simp only [hat.page] at hread ⊢
  simp only [hread]
  have hchild : XtPage.mk (pool.heap.shift (pool.bData bp)) = m.pageIn buffer p index := by
    rw [hpage]
    rfl
  refine ⟨_, rfl, hchild, rfl, ?_, ?_⟩
  · rw [← hchild]
    rfl
  · intro src
    change ((pool.bRelease bp).nextBuffer m).memcpy src pageSize = _
    rw [BufPool.nextBuffer_bRelease, hpage, Bytes.memcpy_memcpy]

theorem XtAtPage.descends (hmem : m.HasMemory) (hat : XtAtPage m buffer call s p)
    (hfinds : p.Finds xtRules call.xoff out) (hgo : xtRules.goesOn p out = true) :
    ∃ n s', run (xtStep m m.ujfsReadDiskblocks call) (n + 1) s = .inl s' ∧
      XtAtPage m buffer call s' (m.pageIn buffer p (routeIndex out)) := by
  obtain ⟨n, s', out', hreach, hlast, hentry⟩ := hat.resolved hfinds
  have hleaf : (s.page call).isLeaf = false := by
    rw [hat.page]
    simpa [xtRules] using hgo
  have hresolve := xtResolve_descends (m := m) hleaf out'
  obtain ⟨child, hdescend, hat'⟩ := xtDescend_eq hmem hat (routeIndex out') out'.cmp
  rw [← routeIndex_congr hentry] at hat'
  exact ⟨n, child, run_succ_of_last hreach (hlast.trans (hresolve.trans hdescend)), hat'⟩

theorem xtLookup_ends_iff (hmem : m.HasMemory) (call : XtCall) (pool : BufPool) :
    (∃ out, XtLookupEnds m call pool out) ↔
      SearchEnds m (pool.nextBuffer m) xtRules call.xoff call.root := by
  have hat : XtAtPage m (pool.nextBuffer m) call (xtStart call pool) call.root :=
    ⟨rfl, rfl, rfl, fun _ => rfl⟩
  exact returns_iff_searchEnds XtAtPage.stuck XtAtPage.stops (XtAtPage.descends hmem) hat

end XtLookup

/-! ## `find_iag` -/

structure IagAtPage (buffer : Bytes) (call : IagCall) (s : IagState) (p : XtPage) : Prop where
  page : s.current call = p
  base : s.base = xtEntryStart
  lim : s.lim = (p.nextindexLe16 : ℤ) - xtEntryStart
  around : ∀ src, s.buffer.memcpy src pageSize = buffer.memcpy src pageSize

section FindIag

variable {call : IagCall} {s : IagState}

theorem IagAtPage.search_eq (hat : IagAtPage buffer call s p) :
    State.mk s.base s.lim 1 = iagRules.start p := by
  rw [hat.base, hat.lim]
  rfl

theorem IagAtPage.stuck (hat : IagAtPage buffer call s p)
    (hstuck : ¬ p.Resolves iagRules call.iagblock) (out : IagEnd) :
    ¬ Returns (iagStep m call) s out := by
  have hnever : ∀ out, ¬ Returns (step fun i => xtCmp call.iagblock ((s.current call).xad i))
      ⟨s.base, s.lim, 1⟩ out := by
    rw [hat.search_eq, hat.page]
    exact fun out hreturns => hstuck (XtPage.resolves_iff.mpr ⟨out, hreturns⟩)
  refine not_returns_of_embed s.withSearch ?_ hnever out
  intro q q' hstep
  rw [iagStep_withSearch, hstep]

theorem IagAtPage.resolved (hat : IagAtPage buffer call s p)
    (hfinds : p.Finds iagRules call.iagblock out) :
    ∃ n s', run (iagStep m call) n s = .inl s' ∧
      iagStep m call s' = iagResolve m call s out := by
  obtain ⟨n, hrun⟩ := hfinds
  rw [← hat.search_eq, ← hat.page] at hrun
  exact exists_run_iagResolve hrun

theorem IagAtPage.stops (hat : IagAtPage buffer call s p)
    (hfinds : p.Finds iagRules call.iagblock out) (hgo : iagRules.goesOn p out = false) :
    ∃ r, Returns (iagStep m call) s r := by
  obtain ⟨n, s', hreach, hlast⟩ := hat.resolved (m := m) hfinds
  rw [← hat.page] at hgo
  obtain ⟨r, hresolve⟩ : ∃ r, iagResolve m call s out = .inr r := by
    cases out with
    | hit index =>
        have hleaf : (s.current call).isLeaf = true := by simpa [iagRules, iagGoesOn] using hgo
        exact ⟨_, by simp only [iagResolve, hleaf, if_true]; rfl⟩
    | miss base cmp =>
        have hinternal : (s.current call).isInternal = false := hgo
        exact ⟨.failed, by simp [iagResolve, hinternal]⟩
  exact ⟨r, .of_last_step hreach (hlast.trans hresolve)⟩

theorem iagResolve_descends (hgo : iagGoesOn (s.current call) out = true) :
    iagResolve m call s out = iagDescend m call s (routeIndex out) := by
  cases out with
  | hit index =>
      have hleaf : (s.current call).isLeaf = false := by simpa [iagGoesOn] using hgo
      simp [iagResolve, hleaf, routeIndex]
  | miss base cmp =>
      have hinternal : (s.current call).isInternal = true := hgo
      simp [iagResolve, hinternal, routeIndex]

theorem IagAtPage.descends (hat : IagAtPage buffer call s p)
    (hfinds : p.Finds iagRules call.iagblock out) (hgo : iagRules.goesOn p out = true) :
    ∃ n s', run (iagStep m call) (n + 1) s = .inl s' ∧
      IagAtPage buffer call s' (m.pageIn buffer p (routeIndex out)) := by
  obtain ⟨n, s', hreach, hlast⟩ := hat.resolved (m := m) hfinds
  rw [← hat.page] at hgo
  have hresolve := iagResolve_descends (m := m) hgo
  have hchild : XtPage.mk (s.buffer.memcpy
      (m.block (addressXAD ((s.current call).xad (routeIndex out)))) pageSize) =
        m.pageIn buffer p (routeIndex out) := by
    rw [hat.around, hat.page]
    rfl
  have hdescend : iagDescend m call s (routeIndex out) =
      .inl (iagSearchPage call .buffer (m.pageIn buffer p (routeIndex out)).bytes) := by
    unfold iagDescend
    rw [m.xRead_page, ← hchild]
  refine ⟨n, _, run_succ_of_last hreach (hlast.trans (hresolve.trans hdescend)), rfl, rfl, rfl, ?_⟩
  intro src
  exact Bytes.memcpy_memcpy _ _ _ _

theorem findIag_search_ends_iff (m : Mount) (call : IagCall) :
    (∃ out, Returns (iagStep m call) (iagStart m call) out) ↔
      SearchEnds m (m.stack .buffer) iagRules call.iagblock call.root := by
  have hat : IagAtPage (m.stack .buffer) call (iagStart m call) call.root :=
    ⟨rfl, rfl, rfl, fun _ => rfl⟩
  exact returns_iff_searchEnds IagAtPage.stuck IagAtPage.stops IagAtPage.descends hat

end FindIag

/-- Both searches end exactly when the search of every page that the key is led
to ends, and the key is not led from page to page for ever. -/
theorem searches_end_iff (hmem : m.HasMemory) :
    (∀ (call : XtCall) (pool : BufPool),
      (∃ out, XtLookupEnds m call pool out) ↔
        (∀ q, Relation.ReflTransGen (LedTo m (pool.nextBuffer m) xtRules call.xoff) call.root q →
          q.Resolves xtRules call.xoff) ∧
        ¬ EndlessDescent m (pool.nextBuffer m) xtRules call.xoff call.root) ∧
    (∀ call : IagCall,
      (∃ out, Returns (iagStep m call) (iagStart m call) out) ↔
        (∀ q, Relation.ReflTransGen (LedTo m (m.stack .buffer) iagRules call.iagblock)
            call.root q → q.Resolves iagRules call.iagblock) ∧
        ¬ EndlessDescent m (m.stack .buffer) iagRules call.iagblock call.root) := by
  constructor
  · intro call pool
    rw [xtLookup_ends_iff hmem call pool, searchEnds_iff]
  · intro call
    rw [findIag_search_ends_iff m call, searchEnds_iff]

/-- Whatever lies behind it, a leaf with a count of 2 or more is the end. -/
theorem SearchEnds.of_leaf (hcount : xtEntryStart ≤ p.nextindex) (hleaf : p.isLeaf = true) :
    SearchEnds m buffer xtRules k p := by
  obtain ⟨out, hfinds⟩ := XtPage.resolves_iff.mp (.inl hcount : p.Resolves xtRules k)
  exact .stops hfinds (by simp [xtRules, hleaf])

theorem twoLevel_finds : twoLevelRoot.Finds xtRules 6 (.miss 3 1) := ⟨2, rfl⟩

theorem twoLevel_not_ledTo {buffer : Bytes} {q : XtPage} :
    ¬ LedTo twoLevelMount buffer xtRules 6 (twoLevelMount.pageIn buffer twoLevelRoot 2) q := by
  have hleaf : (twoLevelMount.pageIn buffer twoLevelRoot 2).isLeaf = true :=
    ((Mount.pageIn_same _ _ _ _).isLeaf (by decide)).trans (by decide)
  rintro ⟨out, -, hgo, -⟩
  simp [xtRules, hleaf] at hgo

/-- A leaf in the inode that counts one entry more than there is room for. -/
def crowdedRoot (around : Bytes) : XtPage :=
  ⟨around.memcpy (Bytes.sparse [(16, 2), (18, 19)]) 288⟩

theorem searches_end_twoLevel :
    (∃ out, XtLookupEnds twoLevelMount twoLevelCall emptyPool out) ∧
      ∀ around, ∃ out, XtLookupEnds twoLevelMount ⟨crowdedRoot around, 5, 0, 1⟩ emptyPool out := by
  constructor
  · apply ((searches_end_iff fun _ => rfl).1 twoLevelCall emptyPool).mpr
    constructor
    · intro q hled
      left
      rcases Relation.ReflTransGen.cases_head hled with rfl | ⟨r, hfirst, hrest⟩
      · decide
      · obtain ⟨-, rfl⟩ := hfirst.of_finds twoLevel_finds
        rcases Relation.ReflTransGen.cases_head hrest with rfl | ⟨r, hsecond, -⟩
        · change xtEntryStart ≤ (twoLevelMount.pageIn _ twoLevelRoot 2).nextindex
          rw [(Mount.pageIn_same _ _ _ _).nextindex (by decide)]
          decide
        · exact absurd hsecond twoLevel_not_ledTo
    · rintro ⟨f, hroot, hled⟩
      have hfirst := hled 0
      have hsecond := hled 1
      rw [hroot] at hfirst
      rw [(hfirst.of_finds twoLevel_finds).2] at hsecond
      exact twoLevel_not_ledTo hsecond
  · intro around
    have hsame : (crowdedRoot around).Same xtRootMaxSlot ⟨Bytes.sparse [(16, 2), (18, 19)]⟩ :=
      Bytes.Agree.memcpy_src _ _ _
    apply ((searches_end_iff fun _ => rfl).1 ⟨crowdedRoot around, 5, 0, 1⟩ emptyPool).mpr
    apply searchEnds_iff.mp
    apply SearchEnds.of_leaf
    · rw [hsame.nextindex (by decide)]
      decide
    · exact (hsame.isLeaf (by decide)).trans (by decide)

/-! A disk of zeroes. -/

def zeroMount : Mount where
  image := Bytes.sparse []
  l2bsize := 12
  l2bsize_ge := Mount.pageBlocks_ge
  l2bsize_le := Mount.pageBlocks_le
  malloc := fun _ => some (Bytes.sparse [])

theorem zeroPage_stuck {R : SearchRules} (hcount : R.count ⟨Bytes.sparse []⟩ = 0) :
    ¬ (XtPage.mk (Bytes.sparse [])).Resolves R 0 := by
  rw [XtPage.resolves_of_header hcount.ge (by rw [hcount]; decide)]
  decide

theorem zeroed_disk_hangs :
    (∀ out, ¬ XtLookupEnds zeroMount ⟨⟨Bytes.sparse []⟩, 0, 0, 1⟩ emptyPool out) ∧
      ∀ out, ¬ Returns (iagStep zeroMount ⟨⟨Bytes.sparse []⟩, 0⟩)
        (iagStart zeroMount ⟨⟨Bytes.sparse []⟩, 0⟩) out := by
  constructor
  · have hat : XtAtPage zeroMount (emptyPool.nextBuffer zeroMount) ⟨⟨Bytes.sparse []⟩, 0, 0, 1⟩
        (xtStart ⟨⟨Bytes.sparse []⟩, 0, 0, 1⟩ emptyPool) ⟨Bytes.sparse []⟩ :=
      ⟨rfl, rfl, rfl, fun _ => rfl⟩
    exact hat.stuck (zeroPage_stuck rfl)
  · have hat : IagAtPage (zeroMount.stack .buffer) ⟨⟨Bytes.sparse []⟩, 0⟩
        (iagStart zeroMount ⟨⟨Bytes.sparse []⟩, 0⟩) ⟨Bytes.sparse []⟩ :=
      ⟨rfl, rfl, rfl, fun _ => rfl⟩
    exact hat.stuck (zeroPage_stuck rfl)

end JfsReader
