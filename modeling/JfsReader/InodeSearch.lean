import JfsReader.ExtentTree

/-!
# Locating an inode

`find_iag` searches the extent tree of an aggregate inode for the page of an
inode allocation group, with its own copy of the page search; `find_inode`
decodes the group's page.  Where `find_iag` differs from `xt_Lookup` it keeps
its own text: `nextindex` is read as unsigned, pages are read with `xRead` into
one local buffer, and on a miss the test is for `BT_INTERNAL`.
-/

namespace JfsReader

open StepMachine

def filesystemI : ℕ := 16
def aggregateI : ℕ := 1
/-- `AGGREGATE_2ND_I` is `-1`, compared as a `uint32_t`. -/
def aggregate2ndI : ℕ := 2 ^ 32 - 1
def aggrInodeTableStart : ℕ := 0x8000 + 4096 + (4096 <<< 1)
def l2InosPerExt : ℕ := 5
def inosPerExt : ℕ := 32
def inosPerIag : ℕ := 4096

def inotoiag (ino : ℕ) : ℕ := ino >>> 12

/-- `IAGTOLBLK`, in `uint32_t` arithmetic. -/
def iagtolblk (iagno l2nbperpg : ℕ) : ℕ :=
  (((iagno + 1) % 2 ^ 32) <<< l2nbperpg) % 2 ^ 32

def XtPage.nextindexLe16 (p : XtPage) : ℕ := p.bytes.le16 18

inductive IagPtr
  | root
  | buffer

structure IagCall where
  root : XtPage
  iagblock : ℕ

structure IagState where
  page : IagPtr
  buffer : Bytes
  base : ℤ
  lim : ℤ

inductive IagEnd
  | found (address : ℕ)
  | failed
deriving DecidableEq

def IagState.current (call : IagCall) (s : IagState) : XtPage :=
  match s.page with
  | .root => call.root
  | .buffer => ⟨s.buffer⟩

def iagSearchPage (call : IagCall) (page : IagPtr) (buffer : Bytes) : IagState :=
  let s : IagState := ⟨page, buffer, xtEntryStart, 0⟩
  { s with lim := (s.current call).nextindexLe16 - xtEntryStart }

def iagDescend (m : Mount) (call : IagCall) (s : IagState) (index : ℤ) :
    IagState ⊕ IagEnd :=
  match m.xRead (addressXAD ((s.current call).xad index) <<< m.l2bsize) pageSize
      s.buffer with
  | none => .inr .failed
  | some buffer => .inl (iagSearchPage call .buffer buffer)

def iagStep (m : Mount) (call : IagCall) (s : IagState) : IagState ⊕ IagEnd :=
  let page := s.current call
  if s.lim ≠ 0 then
    let index := s.base + s.lim / 2
    let cmp := xtCmp call.iagblock (page.xad index)
    if cmp = 0 then
      if page.isLeaf then
        .inr (.found ((addressXAD (page.xad index) +
          (call.iagblock - offsetXAD (page.xad index))) <<< m.l2bsize))
      else iagDescend m call s index
    else if cmp > 0 then .inl { s with base := index + 1, lim := (s.lim - 1) / 2 }
    else .inl { s with lim := s.lim / 2 }
  else if page.isInternal then
    iagDescend m call s (if s.base ≠ 0 then s.base - 1 else s.base)
  else .inr .failed

def iagStart (m : Mount) (call : IagCall) : IagState :=
  iagSearchPage call .root (m.stack .buffer)

/-- `find_iag`, cut off after `fuel` rounds of its search. -/
def findIag (m : Mount) (fuel iagnum whichTable : ℕ) : Option IagEnd :=
  if whichTable ≠ filesystemI ∧ whichTable ≠ aggregateI ∧
      whichTable ≠ aggregate2ndI then some .failed
  else
    let iagblock := iagtolblk iagnum (l2PageSize - m.l2bsize)
    let address := (aggrInodeTableStart + whichTable * 512) % 2 ^ 32
    match m.xRead address sizeofDinode (m.stack .filesetInode) with
    | none => some .failed
    | some bytes =>
        let call : IagCall := ⟨⟨(Dinode.mk bytes).diBtroot⟩, iagblock⟩
        match run (iagStep m call) fuel (iagStart m call) with
        | .inl _ => none
        | .inr out => some out

/-- `find_inode`: `none` when cut off, `some none` for the return value 1. -/
def findInode (m : Mount) (fuel inum whichTable : ℕ) : Option (Option ℕ) :=
  let iagnum := inotoiag inum
  let extnum := (inum &&& (inosPerIag - 1)) >>> l2InosPerExt
  match findIag m fuel iagnum whichTable with
  | none => none
  | some .failed => some none
  | some (.found mapAddress) =>
      match m.ujfsReadDiskblocks mapAddress sizeofIag (m.stack .iag) with
      | none => some none
      | some bytes =>
          let inoext := (Iag.mk bytes).inoext extnum
          if inoext.len = 0 then some none
          else
            -- the code assigns this twice, first with `sizeof(dinode_t)`
            some (some ((addressPXD inoext <<< m.l2bsize) +
              (inum &&& (inosPerExt - 1)) * 512))

theorem findIag_of_le {m : Mount} {fuel fuel' iagnum whichTable : ℕ} {out : IagEnd}
    (h : findIag m fuel iagnum whichTable = some out) (hle : fuel ≤ fuel') :
    findIag m fuel' iagnum whichTable = some out := by
  unfold findIag at h ⊢
  split at h
  next htable =>
    rw [if_pos htable]
    exact h
  next htable =>
    rw [if_neg htable]
    dsimp only at h ⊢
    cases hread : m.xRead ((aggrInodeTableStart + whichTable * 512) % 2 ^ 32)
        sizeofDinode (m.stack .filesetInode) with
    | none =>
        simp only [hread] at h ⊢
        exact h
    | some bytes =>
        simp only [hread] at h ⊢
        split at h
        next => contradiction
        next hrun =>
          rw [run_of_le hrun hle]
          exact h

theorem findInode_of_le {m : Mount} {fuel fuel' inum whichTable : ℕ} {r : Option ℕ}
    (h : findInode m fuel inum whichTable = some r) (hle : fuel ≤ fuel') :
    findInode m fuel' inum whichTable = some r := by
  unfold findInode at h ⊢
  cases hiag : findIag m fuel (inotoiag inum) whichTable with
  | none => simp [hiag] at h
  | some out =>
      simp only [findIag_of_le hiag hle]
      simpa only [hiag] using h

theorem findInode_unique {m : Mount} {fuel fuel' inum whichTable : ℕ}
    {r r' : Option ℕ} (h : findInode m fuel inum whichTable = some r)
    (h' : findInode m fuel' inum whichTable = some r') : r = r' := by
  have hleft := findInode_of_le h (Nat.le_max_left fuel fuel')
  have hright := findInode_of_le h' (Nat.le_max_right fuel fuel')
  rw [hleft] at hright
  simpa using hright

/-! ## The rounds on one page -/

def IagState.withSearch (s : IagState) (q : HalvingSearch.State) : IagState :=
  { s with base := q.base, lim := q.lim }

def iagResolve (m : Mount) (call : IagCall) (s : IagState) :
    HalvingSearch.Outcome → IagState ⊕ IagEnd
  | .hit index =>
      if (s.current call).isLeaf then
        .inr (.found ((addressXAD ((s.current call).xad index) +
          (call.iagblock - offsetXAD ((s.current call).xad index))) <<< m.l2bsize))
      else iagDescend m call s index
  | .miss base _ =>
      if (s.current call).isInternal then
        iagDescend m call s (if base ≠ 0 then base - 1 else base)
      else .inr .failed

variable {m : Mount} {call : IagCall}

theorem iagStep_withSearch (s : IagState) (q : HalvingSearch.State) :
    iagStep m call (s.withSearch q) =
      match HalvingSearch.step
          (fun i => xtCmp call.iagblock ((s.current call).xad i)) q with
      | .inl q' => .inl (s.withSearch q')
      | .inr out => iagResolve m call s out := by
  have hpage : (s.withSearch q).current call = s.current call := rfl
  unfold iagStep HalvingSearch.step HalvingSearch.State.probe
  simp only [hpage]
  by_cases hlim : q.lim = 0
  · simp only [IagState.withSearch, hlim, ne_eq, not_true_eq_false, if_false, if_true]
    rfl
  · simp only [IagState.withSearch, hlim, ne_eq, not_false_eq_true, if_true, if_false]
    by_cases hzero : xtCmp call.iagblock ((s.current call).xad (q.base + q.lim / 2)) = 0
    · simp only [hzero, if_true]
      rfl
    · by_cases hpos : 0 < xtCmp call.iagblock ((s.current call).xad (q.base + q.lim / 2))
      · simp only [hzero, hpos, if_true, if_false]
      · simp only [hzero, hpos, if_false]

theorem exists_run_iagResolve {s : IagState} {cmp : ℤ} {n : ℕ}
    {out : HalvingSearch.Outcome}
    (hrun : run (HalvingSearch.step
      (fun i => xtCmp call.iagblock ((s.current call).xad i))) n
        ⟨s.base, s.lim, cmp⟩ = .inr out) :
    ∃ k s', run (iagStep m call) k s = .inl s' ∧
      iagStep m call s' = iagResolve m call s out := by
  apply exists_run_resolved s.withSearch _ _ _ hrun
  · intro q q' hstep
    rw [iagStep_withSearch, hstep]
  · intro q out hstep
    rw [iagStep_withSearch, hstep]

/-! ## The search of a well-formed tree -/

theorem XtPage.nextindexLe16_eq {p : XtPage} (hnonneg : 0 ≤ p.nextindex) :
    (p.nextindexLe16 : ℤ) = p.nextindex := by
  unfold XtPage.nextindex Bytes.s16 at hnonneg ⊢
  unfold XtPage.nextindexLe16
  have hlt := p.bytes.le16_lt 18
  split_ifs at hnonneg ⊢ <;> omega

theorem iagDescend_page (call : IagCall) (s : IagState) (index : ℤ) :
    ∃ buffer, iagDescend m call s index = .inl (iagSearchPage call .buffer buffer) ∧
      XtPage.Same xtPageMaxSlot ⟨buffer⟩ (m.childPage (s.current call) index) := by
  unfold iagDescend
  rw [m.xRead_page]
  exact ⟨_, rfl, Bytes.Agree.memcpy_src _ _ _⟩

structure IagAt (call : IagCall) (capacity : ℤ) (s : IagState) (p : XtPage) :
    Prop where
  same : (s.current call).Same capacity p
  base : s.base = xtEntryStart
  lim : s.lim = p.nextindex - xtEntryStart

def IagHit (m : Mount) (call : IagCall) (e : Xad) (out : IagEnd) : Prop :=
  out = .found ((addressXAD e + (call.iagblock - offsetXAD e)) <<< m.l2bsize)

theorem IagAt.page_search {p : XtPage} {capacity : ℤ} {s : IagState}
    (hat : IagAt call capacity s p) (hsorted : p.Sorted capacity) :
    ∃ n s' out, run (iagStep m call) n s = .inl s' ∧
      iagStep m call s' = iagResolve m call s out ∧
      out.Correct (fun i => xtCmp call.iagblock (p.xad i)) xtEntryStart p.nextindex := by
  obtain ⟨n, out, hrun, hout⟩ :=
    hsorted.search hat.same call.iagblock 1 (.inl (by decide))
  rw [← hat.lim, ← hat.base] at hrun
  obtain ⟨k, s', hreach, hlast⟩ := exists_run_iagResolve hrun
  exact ⟨k, s', out, hreach, hlast, hout⟩

theorem IagAt.leaf_answers {p : XtPage} {capacity : ℤ} {s : IagState}
    (hat : IagAt call capacity s p) (hleaf : p.isLeaf = true)
    (hinternal : p.isInternal = false) (hsorted : p.Sorted capacity) :
    ∃ out, Returns (iagStep m call) s out ∧
      TreeAnswer m call.iagblock (IagHit m call) (· = .failed) p out := by
  obtain ⟨n, s', search, hrun, hlast, hsearch⟩ := hat.page_search (m := m) hsorted
  have hpageLeaf := (hat.same.isLeaf hsorted.capacity_ge).trans hleaf
  have hpageInternal := (hat.same.isInternal hsorted.capacity_ge).trans hinternal
  have hreturns : ∀ out, iagResolve m call s search = .inr out →
      Returns (iagStep m call) s out := by
    intro out hresolve
    exact .of_last_step hrun (hlast.trans hresolve)
  cases search with
  | hit index =>
      have hcorrect := hsearch
      obtain ⟨hlo, hhi, hzero⟩ := hsearch
      have hresolve : iagResolve m call s (.hit index) =
          .inr (.found ((addressXAD (p.xad index) +
            (call.iagblock - offsetXAD (p.xad index))) <<< m.l2bsize)) := by
        simp only [iagResolve, hpageLeaf, if_true]
        rw [hat.same.entry hsorted.nextindex_le hlo hhi]
      refine ⟨_, hreturns _ hresolve, TreeAnswer.of_leaf hleaf hcorrect ?_ ?_⟩
      · intro index' heq
        cases heq
        rfl
      · intro base cmp heq
        cases heq
  | miss base cmp =>
      refine ⟨.failed, hreturns _ (by simp [iagResolve, hpageInternal]),
        TreeAnswer.of_leaf hleaf hsearch ?_ ?_⟩
      · intro index heq
        cases heq
      · intro base' cmp' heq
        rfl

theorem IagAt.internal_descends {p : XtPage} {capacity : ℤ} {s : IagState}
    (hat : IagAt call capacity s p) (hleaf : p.isLeaf = false)
    (hinternal : p.isInternal = true) (hsorted : p.Sorted capacity)
    (hadmits : p.Admits call.iagblock) :
    ∃ n s' out, run (iagStep m call) n s = .inl s' ∧
      out.Correct (fun i => xtCmp call.iagblock (p.xad i)) xtEntryStart p.nextindex ∧
      (xtEntryStart < (m.childPage p (routeIndex out)).nextindex →
        IagAt call xtPageMaxSlot s' (m.childPage p (routeIndex out))) := by
  obtain ⟨n, s', out, hrun, hlast, hout⟩ := hat.page_search (m := m) hsorted
  have hpageLeaf := (hat.same.isLeaf hsorted.capacity_ge).trans hleaf
  have hpageInternal := (hat.same.isInternal hsorted.capacity_ge).trans hinternal
  have hresolve : iagResolve m call s out = iagDescend m call s (routeIndex out) := by
    cases out with
    | hit index => simp [iagResolve, hpageLeaf, routeIndex]
    | miss base cmp => simp [iagResolve, hpageInternal, routeIndex]
  obtain ⟨buffer, hdescend, hpage⟩ := iagDescend_page (m := m) call s (routeIndex out)
  have hstep := hlast.trans (hresolve.trans hdescend)
  refine ⟨n + 1, iagSearchPage call .buffer buffer, out, run_succ_of_last hrun hstep, hout, ?_⟩
  intro hnonempty
  rw [hat.same.childPage_routeIndex hsorted hinternal hadmits hout] at hpage
  refine ⟨hpage, rfl, ?_⟩
  have hnext := hpage.nextindex (by decide)
  have hstart : xtEntryStart = 2 := rfl
  change ((XtPage.mk buffer).nextindexLe16 : ℤ) - xtEntryStart = _
  rw [XtPage.nextindexLe16_eq (by omega), hnext]

theorem iag_search_correct {root : XtPage} (htree : XtTree m root)
    (hroot : call.root.Same xtRootMaxSlot root) :
    ∃ out, Returns (iagStep m call) (iagStart m call) out ∧
      TreeAnswer m call.iagblock (IagHit m call) (· = .failed) root out := by
  have hge : xtEntryStart ≤ root.nextindex := by
    cases htree.subtree with
    | leaf _ _ hsorted => exact hsorted.nextindex_ge
    | internal _ _ hsorted => exact hsorted.nextindex_ge
  have hstart : xtEntryStart = 2 := rfl
  have hnext := hroot.nextindex (by decide)
  have hat : IagAt call xtRootMaxSlot (iagStart m call) root := by
    refine ⟨hroot, rfl, ?_⟩
    change (call.root.nextindexLe16 : ℤ) - xtEntryStart = _
    rw [XtPage.nextindexLe16_eq (by omega), hnext]
  exact htree.subtree.search_rule
    (fun _ _ _ hat hleaf hinternal hsorted => hat.leaf_answers hleaf hinternal hsorted)
    (fun _ _ _ hat hleaf hinternal hsorted hadmits =>
      hat.internal_descends hleaf hinternal hsorted hadmits)
    (htree.admits (by omega)) hat

end JfsReader
