import JfsReader.BufferPool
import JfsReader.HalvingSearch

/-!
# The extent-tree search of a file

`xt_Lookup` is one loop with two back edges: the rounds of the page search and
the jump to `xtSearchPage` after a descent.  `xtStep` takes one round, or
leaves the page.  The comparison `cmp` is carried from page to page, and on a
miss it is the return value.
-/

namespace JfsReader

open StepMachine

inductive PagePtr
  | root
  | data (address : ℕ)
deriving DecidableEq

/-- The arguments of `xt_Lookup`, with the values its result cells hold on
entry. -/
structure XtCall where
  root : XtPage
  xoff : ℤ
  xaddr : ℤ
  xlen : ℤ

structure XtState where
  p : PagePtr
  bp : Option ℕ
  base : ℤ
  lim : ℤ
  cmp : ℤ
  pool : BufPool

/-- How a call ends.  `faulted` is the dereference of a null `bp`. -/
inductive XtEnd
  | returned (rc xaddr xlen : ℤ) (pool : BufPool)
  | exited
  | faulted

def XtState.page (call : XtCall) (s : XtState) : XtPage :=
  match s.p with
  | .root => call.root
  | .data address => ⟨s.pool.heap.shift address⟩

/-- The label `xtSearchPage` and the header of the loop. -/
def xtSearchPage (call : XtCall) (p : PagePtr) (bp : Option ℕ) (cmp : ℤ)
    (pool : BufPool) : XtState :=
  let s : XtState := ⟨p, bp, xtEntryStart, 0, cmp, pool⟩
  { s with lim := (s.page call).nextindex - xtEntryStart }

def releasePage (bp : Option ℕ) (pool : BufPool) : BufPool :=
  match bp with
  | some bp => pool.bRelease bp
  | none => pool

/-- The label `descend`.  A failed read leaves `bp` as it was, and the code
goes on with the page it points to. -/
def xtDescend (m : Mount) (read : ℕ → ℕ → Bytes → Option Bytes) (call : XtCall)
    (s : XtState) (index cmp : ℤ) : XtState ⊕ XtEnd :=
  let t64 := addressXAD ((s.page call).xad index)
  match BufPool.bRead m read t64 (pageSize >>> m.l2bsize) (releasePage s.bp s.pool) with
  | .exited => .inr .exited
  | .faulted => .inr .faulted
  | .done bp pool => .inl (xtSearchPage call (.data (pool.bData bp)) (some bp) cmp pool)
  | .failed pool =>
      match s.bp with
      | none => .inr .faulted
      | some bp => .inl (xtSearchPage call (.data (pool.bData bp)) (some bp) cmp pool)

def xtOut (s : XtState) (rc xaddr xlen : ℤ) : XtState ⊕ XtEnd :=
  .inr (.returned rc xaddr xlen (releasePage s.bp s.pool))

/-- `MIN(*xlen, lengthXAD(xad) - t32)`, compared as unsigned values and stored
back into an `int32_t`. -/
def minLength (xlen length t32 : ℤ) : ℤ :=
  if uint32 xlen < uint32 (length - t32) then int32 (uint32 xlen)
  else int32 (uint32 (length - t32))

def xtFound (call : XtCall) (s : XtState) (xad : Xad) (cmp : ℤ) : XtState ⊕ XtEnd :=
  let t32 := int32 (call.xoff - offsetXAD xad)
  xtOut s cmp (addressXAD xad + t32) (minLength call.xlen (lengthXAD xad) t32)

def xtStep (m : Mount) (read : ℕ → ℕ → Bytes → Option Bytes) (call : XtCall)
    (s : XtState) : XtState ⊕ XtEnd :=
  let p := s.page call
  if s.lim ≠ 0 then
    -- `lim >> 1` on a signed count rounds down, as `/ 2` does here
    let index := s.base + s.lim / 2
    let cmp := xtCmp call.xoff (p.xad index)
    if cmp = 0 then
      if p.isLeaf then xtFound call s (p.xad index) cmp
      else xtDescend m read call s index cmp
    else if cmp > 0 then
      .inl { s with base := index + 1, lim := (s.lim - 1) / 2, cmp := cmp }
    else .inl { s with lim := s.lim / 2, cmp := cmp }
  else if p.isLeaf then xtOut s s.cmp call.xaddr call.xlen
  else xtDescend m read call s (if s.base ≠ 0 then s.base - 1 else s.base) s.cmp

def xtStart (call : XtCall) (pool : BufPool) : XtState :=
  xtSearchPage call .root none 1 pool

def XtLookupEnds (m : Mount) (call : XtCall) (pool : BufPool) (out : XtEnd) : Prop :=
  Returns (xtStep m m.ujfsReadDiskblocks call) (xtStart call pool) out

theorem XtLookupEnds.unique {m : Mount} {call : XtCall} {pool : BufPool} {out out' : XtEnd}
    (h : XtLookupEnds m call pool out) (h' : XtLookupEnds m call pool out') : out = out' :=
  Returns.unique h h'

/-! ## The rounds on one page -/

def XtState.search (s : XtState) : HalvingSearch.State :=
  ⟨s.base, s.lim, s.cmp⟩

def XtState.withSearch (s : XtState) (q : HalvingSearch.State) : XtState :=
  { s with base := q.base, lim := q.lim, cmp := q.cmp }

def xtResolve (m : Mount) (read : ℕ → ℕ → Bytes → Option Bytes) (call : XtCall)
    (s : XtState) : HalvingSearch.Outcome → XtState ⊕ XtEnd
  | .hit index =>
      if (s.page call).isLeaf then xtFound call s ((s.page call).xad index) 0
      else xtDescend m read call s index 0
  | .miss base cmp =>
      if (s.page call).isLeaf then xtOut s cmp call.xaddr call.xlen
      else xtDescend m read call s (if base ≠ 0 then base - 1 else base) cmp

variable {m : Mount} {read : ℕ → ℕ → Bytes → Option Bytes} {call : XtCall}

theorem xtStep_withSearch (s : XtState) (q : HalvingSearch.State) :
    xtStep m read call (s.withSearch q) =
      match HalvingSearch.step (fun i => xtCmp call.xoff ((s.page call).xad i)) q with
      | .inl q' => .inl (s.withSearch q')
      | .inr out => xtResolve m read call s out := by
  have hpage : (s.withSearch q).page call = s.page call := rfl
  unfold xtStep HalvingSearch.step HalvingSearch.State.probe
  simp only [hpage]
  by_cases hlim : q.lim = 0
  · simp only [XtState.withSearch, hlim, ne_eq, not_true_eq_false, if_false, if_true]
    rfl
  · simp only [XtState.withSearch, hlim, ne_eq, not_false_eq_true, if_true, if_false]
    by_cases hzero : xtCmp call.xoff ((s.page call).xad (q.base + q.lim / 2)) = 0
    · simp only [hzero, if_true]
      rfl
    · by_cases hpos : 0 < xtCmp call.xoff ((s.page call).xad (q.base + q.lim / 2))
      · simp only [hzero, hpos, if_true, if_false]
      · simp only [hzero, hpos, if_false]

theorem exists_run_resolve {s : XtState} {n : ℕ} {out : HalvingSearch.Outcome}
    (hrun : run (HalvingSearch.step
      (fun i => xtCmp call.xoff ((s.page call).xad i))) n s.search = .inr out) :
    ∃ k s', run (xtStep m read call) k s = .inl s' ∧
      xtStep m read call s' = xtResolve m read call s out := by
  apply exists_run_resolved s.withSearch _ _ _ hrun
  · intro q q' hstep
    rw [xtStep_withSearch, hstep]
  · intro q out hstep
    rw [xtStep_withSearch, hstep]

end JfsReader
