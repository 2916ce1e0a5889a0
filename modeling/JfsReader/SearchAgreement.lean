import JfsReader.ExtentLookupCorrect
import JfsReader.InodeSearch

/-!
# The two extent-tree searches agree

`find_iag` and `xt_Lookup` run in lockstep on any pages, sorted or not, as
long as every page reached has one of the two kinds and a plausible entry
count.  The relation keeps the pages equal as far as their entries go, `base`
and `lim` equal, and the probe inside the page; the last comparison of
`xt_Lookup` is nonzero whenever the rounds on a page are over.
-/

namespace JfsReader

open StepMachine

structure XtPage.Searchable (p : XtPage) (least capacity : ℤ) : Prop where
  kind : p.isLeaf ≠ p.isInternal
  nextindex_ge : least ≤ p.nextindex
  nextindex_le : p.nextindex ≤ capacity

def IagState.capacity (s : IagState) : ℤ :=
  match s.page with
  | .root => xtRootMaxSlot
  | .buffer => xtPageMaxSlot

def IagState.PageOk (call : IagCall) (s : IagState) : Prop :=
  match s.page with
  | .root => call.root.Searchable 2 xtRootMaxSlot
  | .buffer => (XtPage.mk s.buffer).Searchable 3 xtPageMaxSlot

/-- What a round shows: the index it compares, and the block of the page it
descends to. -/
structure Visit where
  probe : Option ℤ
  child : Option ℕ
deriving DecidableEq

def IagState.visit (call : IagCall) (s : IagState) : Visit :=
  let page := s.current call
  if s.lim ≠ 0 then
    let index := s.base + s.lim / 2
    ⟨some index,
      if xtCmp call.iagblock (page.xad index) = 0 ∧ page.isLeaf = false then
        some (addressXAD (page.xad index))
      else none⟩
  else
    ⟨none,
      if page.isInternal = true then
        some (addressXAD (page.xad (if s.base ≠ 0 then s.base - 1 else s.base)))
      else none⟩

def XtState.visit (call : XtCall) (s : XtState) : Visit :=
  let p := s.page call
  if s.lim ≠ 0 then
    let index := s.base + s.lim / 2
    ⟨some index,
      if xtCmp call.xoff (p.xad index) = 0 ∧ p.isLeaf = false then
        some (addressXAD (p.xad index))
      else none⟩
  else
    ⟨none,
      if p.isLeaf = false then
        some (addressXAD (p.xad (if s.base ≠ 0 then s.base - 1 else s.base)))
      else none⟩

/-- Neither search has ended, or both have missed, or both have hit and
`find_iag` gives the byte position of the block `xt_Lookup` gives. -/
def SearchesAgree (m : Mount) : IagState ⊕ IagEnd → XtState ⊕ XtEnd → Prop
  | .inl _, .inl _ => True
  | .inr .failed, .inr (.returned rc _ _ _) => rc ≠ 0
  | .inr (.found address), .inr (.returned rc xaddr _ _) =>
      rc = 0 ∧ ∃ block : ℕ, xaddr = block ∧ address = block <<< m.l2bsize
  | _, _ => False

def IagCall.lookup (call : IagCall) (xaddr xlen : ℤ) : XtCall :=
  ⟨call.root, call.iagblock, xaddr, xlen⟩

structure InStep (call : IagCall) (xt : XtCall) (s : IagState) (t : XtState) : Prop where
  same : (s.current call).Same s.capacity (t.page xt)
  base : t.base = s.base
  lim : t.lim = s.lim
  within : HalvingSearch.State.Within xtEntryStart (s.current call).nextindex
    ⟨s.base, s.lim, 0⟩
  cmp : t.cmp ≠ 0 ∨ s.lim ≠ 0

variable {m : Mount} {call : IagCall} {xt : XtCall} {s : IagState} {t : XtState}

theorem IagState.PageOk.searchable (hok : s.PageOk call) :
    (s.current call).Searchable 2 s.capacity := by
  unfold IagState.PageOk at hok
  unfold IagState.current IagState.capacity
  cases hpage : s.page with
  | root =>
      rw [hpage] at hok
      exact hok
  | buffer =>
      rw [hpage] at hok
      exact ⟨hok.kind, le_trans (by decide) hok.nextindex_ge, hok.nextindex_le⟩

theorem IagState.capacity_ge (s : IagState) : xtEntryStart ≤ s.capacity := by
  unfold IagState.capacity
  cases s.page <;> decide

theorem InStep.xad (hin : InStep call xt s t) {index : ℤ}
    (hlo : 0 ≤ index) (hhi : index < s.capacity) :
    (t.page xt).xad index = (s.current call).xad index :=
  (hin.same.xad hlo hhi).symm

theorem InStep.probe_xad (hin : InStep call xt s t) (hok : s.PageOk call) (hlim : s.lim ≠ 0) :
    (t.page xt).xad (s.base + s.lim / 2) = (s.current call).xad (s.base + s.lim / 2) := by
  have hle := hok.searchable.nextindex_le
  have hstart : xtEntryStart = 2 := rfl
  have hprobe := hin.within.probe_mem hlim
  change xtEntryStart ≤ s.base + s.lim / 2 ∧
    s.base + s.lim / 2 < (s.current call).nextindex at hprobe
  exact hin.xad (by omega) (by omega)

theorem InStep.route_xad (hin : InStep call xt s t) (hok : s.PageOk call) (hlim : s.lim = 0) :
    (t.page xt).xad (if s.base ≠ 0 then s.base - 1 else s.base) =
      (s.current call).xad (if s.base ≠ 0 then s.base - 1 else s.base) := by
  have hle := hok.searchable.nextindex_le
  have hstart : xtEntryStart = 2 := rfl
  have hbase := hin.within.base_ge
  have hend := hin.within.end_le
  dsimp only at hbase hend
  apply hin.xad <;> split_ifs <;> omega

theorem InStep.isLeaf (hin : InStep call xt s t) :
    (t.page xt).isLeaf = (s.current call).isLeaf :=
  (hin.same.isLeaf s.capacity_ge).symm

theorem IagState.PageOk.isInternal (hok : s.PageOk call) :
    (s.current call).isInternal = !(s.current call).isLeaf := by
  have hkind := hok.searchable.kind
  revert hkind
  cases (s.current call).isLeaf <;> cases (s.current call).isInternal <;> simp

theorem InStep.of_searchPage {buffer : Bytes}
    (hsame : (XtPage.mk buffer).Same xtPageMaxSlot (t.page xt))
    (hbase : t.base = xtEntryStart) (hlim : t.lim = (t.page xt).nextindex - xtEntryStart)
    (hok : (XtPage.mk buffer).Searchable 3 xtPageMaxSlot) :
    InStep call xt (iagSearchPage call .buffer buffer) t := by
  have hge := hok.nextindex_ge
  have hstart : xtEntryStart = 2 := rfl
  have hlimS : (iagSearchPage call .buffer buffer).lim =
      (XtPage.mk buffer).nextindex - xtEntryStart := by
    change ((XtPage.mk buffer).nextindexLe16 : ℤ) - xtEntryStart = _
    rw [XtPage.nextindexLe16_eq (by omega)]
  refine ⟨hsame, hbase, ?_, ⟨?_, le_rfl, ?_⟩, ?_⟩
  · rw [hlim, hlimS, hsame.nextindex (by decide)]
  · dsimp only
    omega
  · change xtEntryStart + (iagSearchPage call .buffer buffer).lim ≤
      (XtPage.mk buffer).nextindex
    omega
  · right
    omega

theorem liftRel_descend (hmem : m.HasMemory) {index : ℤ}
    (hxad : (t.page xt).xad index = (s.current call).xad index) (cmp : ℤ) :
    Sum.LiftRel (fun s t => s.PageOk call → InStep call xt s t)
      (fun e r => SearchesAgree m (.inr e) (.inr r))
      (iagDescend m call s index) (xtDescend m m.ujfsReadDiskblocks xt t index cmp) := by
  obtain ⟨buffer, hiag, hbuffer⟩ := iagDescend_page (m := m) call s index
  obtain ⟨t', hxt, hpage, hbase, hlim, -⟩ := xtDescend_page hmem xt t index cmp
  rw [hiag, hxt]
  apply Sum.LiftRel.inl
  intro hok
  unfold Mount.childPage at hbuffer hpage
  rw [hxad] at hpage
  exact InStep.of_searchPage (hbuffer.trans hpage.symm) hbase hlim hok

theorem searchesAgree_found (e : Xad) {xaddr xlen : ℤ}
    (hzero : xtCmp call.iagblock e = 0) :
    SearchesAgree m
      (.inr (.found ((addressXAD e + (call.iagblock - offsetXAD e)) <<< m.l2bsize)))
      (xtFound (call.lookup xaddr xlen) t e 0) := by
  obtain ⟨hlo, hhi⟩ := (xtCmp_eq_zero_iff call.iagblock e).mp hzero
  have hlen := lengthXAD_lt e
  have ht32 : int32 (call.iagblock - offsetXAD e) = (call.iagblock : ℤ) - offsetXAD e :=
    int32_of_bounds (by omega) (by omega)
  refine ⟨rfl, addressXAD e + (call.iagblock - offsetXAD e), ?_, rfl⟩
  change (addressXAD e : ℤ) + int32 (call.iagblock - offsetXAD e) = _
  rw [ht32]
  omega

theorem InStep.step (hmem : m.HasMemory) {xaddr xlen : ℤ} (hok : s.PageOk call)
    (hin : InStep call (call.lookup xaddr xlen) s t) :
    Sum.LiftRel (fun s t => s.PageOk call → InStep call (call.lookup xaddr xlen) s t)
      (fun e r => SearchesAgree m (.inr e) (.inr r))
      (iagStep m call s) (xtStep m m.ujfsReadDiskblocks (call.lookup xaddr xlen) t) := by
  have hkey : (call.lookup xaddr xlen).xoff = call.iagblock := rfl
  unfold iagStep xtStep
  simp only [hin.base, hin.lim, hin.isLeaf, hok.isInternal, hkey]
  by_cases hlim : s.lim = 0
  · simp only [hlim, ne_eq, not_true_eq_false, if_false]
    cases hleaf : (s.current call).isLeaf with
    | true =>
        simp only [Bool.not_true, Bool.false_eq_true, if_false, if_true]
        exact .inr (hin.cmp.resolve_right (fun h => h hlim))
    | false =>
        simp only [Bool.not_false, if_true, Bool.false_eq_true, if_false]
        exact liftRel_descend hmem (hin.route_xad hok hlim) _
  · have hxad := hin.probe_xad hok hlim
    simp only [hlim, ne_eq, not_false_eq_true, if_true, hxad]
    by_cases hzero : xtCmp call.iagblock ((s.current call).xad (s.base + s.lim / 2)) = 0
    · simp only [hzero, if_true]
      cases hleaf : (s.current call).isLeaf with
      | true =>
          simp only [if_true]
          exact .inr (searchesAgree_found _ hzero)
      | false =>
          simp only [Bool.false_eq_true, if_false]
          exact liftRel_descend hmem hxad 0
    · by_cases hpos : 0 < xtCmp call.iagblock ((s.current call).xad (s.base + s.lim / 2))
      · simp only [hzero, hpos, if_false, if_true]
        refine .inl fun _ => ⟨hin.same, rfl, rfl, hin.within.right hlim 0, .inl hzero⟩
      · simp only [hzero, hpos, if_false]
        refine .inl fun _ => ⟨hin.same, rfl, rfl, hin.within.left 0, .inl hzero⟩

theorem InStep.visit_eq {xaddr xlen : ℤ} (hok : s.PageOk call)
    (hin : InStep call (call.lookup xaddr xlen) s t) :
    s.visit call = t.visit (call.lookup xaddr xlen) := by
  have hkey : (call.lookup xaddr xlen).xoff = call.iagblock := rfl
  unfold IagState.visit XtState.visit
  simp only [hin.base, hin.lim, hin.isLeaf, hok.isInternal, hkey]
  by_cases hlim : s.lim = 0
  · have hxad := hin.route_xad hok hlim
    simp only [hlim, ne_eq, not_true_eq_false, if_false] at hxad ⊢
    rw [hxad]
    cases (s.current call).isLeaf <;> rfl
  · have hxad := hin.probe_xad hok hlim
    simp only [hlim, ne_eq, not_false_eq_true, if_true, hxad]

theorem InStep.start {xaddr xlen : ℤ} (pool : BufPool) (hok : (iagStart m call).PageOk call) :
    InStep call (call.lookup xaddr xlen) (iagStart m call)
      (xtStart (call.lookup xaddr xlen) pool) := by
  have hge : 2 ≤ call.root.nextindex := hok.nextindex_ge
  have hstart : xtEntryStart = 2 := rfl
  have hlim : (iagStart m call).lim = call.root.nextindex - xtEntryStart := by
    change (call.root.nextindexLe16 : ℤ) - xtEntryStart = _
    rw [XtPage.nextindexLe16_eq (by omega)]
  refine ⟨Bytes.Agree.refl _ _, rfl, hlim.symm, ⟨?_, le_rfl, ?_⟩, .inl one_ne_zero⟩
  · dsimp only
    omega
  · change xtEntryStart + (iagStart m call).lim ≤ call.root.nextindex
    omega

theorem searchesAgree_of_liftRel {R : IagState → XtState → Prop}
    {u : IagState ⊕ IagEnd} {v : XtState ⊕ XtEnd}
    (h : Sum.LiftRel R (fun e r => SearchesAgree m (.inr e) (.inr r)) u v) :
    SearchesAgree m u v := by
  cases h with
  | inl _ => trivial
  | inr hends => exact hends

/-- After every number of rounds the two searches have compared the same
entries of the same pages, and they have ended alike or not at all. -/
theorem searches_agree (hmem : m.HasMemory) (call : IagCall) (xaddr xlen : ℤ)
    (pool : BufPool)
    (hpages : ∀ n s, run (iagStep m call) n (iagStart m call) = .inl s → s.PageOk call)
    (n : ℕ) :
    trace (iagStep m call) (IagState.visit call) n (iagStart m call) =
        trace (xtStep m m.ujfsReadDiskblocks (call.lookup xaddr xlen))
          (XtState.visit (call.lookup xaddr xlen)) n
          (xtStart (call.lookup xaddr xlen) pool) ∧
      SearchesAgree m (run (iagStep m call) n (iagStart m call))
        (run (xtStep m m.ujfsReadDiskblocks (call.lookup xaddr xlen)) n
          (xtStart (call.lookup xaddr xlen) pool)) := by
  have hstart : (iagStart m call).PageOk call →
      InStep call (call.lookup xaddr xlen) (iagStart m call)
        (xtStart (call.lookup xaddr xlen) pool) := InStep.start pool
  have hstep : ∀ s t, s.PageOk call →
      (s.PageOk call → InStep call (call.lookup xaddr xlen) s t) →
      Sum.LiftRel (fun s t => s.PageOk call → InStep call (call.lookup xaddr xlen) s t)
        (fun e r => SearchesAgree m (.inr e) (.inr r))
        (iagStep m call s) (xtStep m m.ujfsReadDiskblocks (call.lookup xaddr xlen) t) :=
    fun s t hok hin => (hin hok).step hmem hok
  constructor
  · apply trace_lockstep hstep _ hpages hstart
    intro s t hok hin
    exact (hin hok).visit_eq hok
  · have hlift := run_lockstep hstep hpages hstart n
    exact searchesAgree_of_liftRel hlift

/-! The two searches for block 6, in the tree of two levels. -/

def twoLevelIagCall : IagCall := ⟨twoLevelRoot, 6⟩

instance (p : XtPage) (least capacity : ℤ) : Decidable (p.Searchable least capacity) :=
  decidable_of_iff
    (p.isLeaf ≠ p.isInternal ∧ least ≤ p.nextindex ∧ p.nextindex ≤ capacity)
    ⟨fun h => ⟨h.1, h.2.1, h.2.2⟩, fun h => ⟨h.kind, h.nextindex_ge, h.nextindex_le⟩⟩

instance (call : IagCall) (s : IagState) : Decidable (s.PageOk call) :=
  match h : s.page with
  | .root => decidable_of_iff (call.root.Searchable 2 xtRootMaxSlot)
      (by unfold IagState.PageOk; rw [h])
  | .buffer => decidable_of_iff ((XtPage.mk s.buffer).Searchable 3 xtPageMaxSlot)
      (by unfold IagState.PageOk; rw [h])

theorem twoLevel_ends :
    run (iagStep twoLevelMount twoLevelIagCall) 3 (iagStart twoLevelMount twoLevelIagCall) =
      .inr (.found 86016) := by
  rfl

theorem twoLevel_pageOk (n : ℕ) (s : IagState)
    (hrun : run (iagStep twoLevelMount twoLevelIagCall) n (iagStart twoLevelMount twoLevelIagCall) =
      .inl s) : s.PageOk twoLevelIagCall := by
  have hall : ∀ k < 3, (run (iagStep twoLevelMount twoLevelIagCall) k
      (iagStart twoLevelMount twoLevelIagCall)).elim
        (fun s => decide (s.PageOk twoLevelIagCall)) (fun _ => true) = true := by
    decide
  by_cases hlt : n < 3
  · have hok := hall n hlt
    rw [hrun] at hok
    exact of_decide_eq_true hok
  · rw [run_of_le twoLevel_ends (by omega)] at hrun
    contradiction

theorem searches_agree_twoLevel :
    (∀ n s, run (iagStep twoLevelMount twoLevelIagCall) n (iagStart twoLevelMount twoLevelIagCall) =
        .inl s → s.PageOk twoLevelIagCall) ∧
      SearchesAgree twoLevelMount (.inr (.found 86016))
        (run (xtStep twoLevelMount twoLevelMount.ujfsReadDiskblocks
          (twoLevelIagCall.lookup 0 100)) 3
          (xtStart (twoLevelIagCall.lookup 0 100) emptyPool)) := by
  have hagree := (searches_agree (fun _ => rfl) twoLevelIagCall 0 100 emptyPool
    twoLevel_pageOk 3).2
  rw [twoLevel_ends] at hagree
  exact ⟨twoLevel_pageOk, hagree⟩

end JfsReader
