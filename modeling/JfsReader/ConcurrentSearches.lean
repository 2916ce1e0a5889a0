import JfsReader.LockOrder
import JfsReader.BufferSections
import Mathlib.Data.Int.Interval

/-!
# Searches that share the page buffers

While the sections of the calls stay apart nobody writes to the buffer that a
call searches, so that it returns what the extent tree of its file maps,
whatever the others search.  Each call has a bounded number of steps to take,
and some call can always take one.
-/

namespace JfsReader

open StepMachine HalvingSearch LockOrder

/-- A call on a well-formed tree, as the pager makes it. -/
structure XtCall.Proper (m : Mount) (call : XtCall) : Prop where
  tree : XtTree m call.root
  xoff_nonneg : 0 ≤ call.xoff
  xlen_pos : 1 ≤ call.xlen
  xlen_lt : call.xlen < 2 ^ 31

/-- What the page calls for, the whole tree calls for. -/
def AnswersRoot (m : Mount) (call : XtCall) (p : XtPage) : Prop :=
  ∀ out, TreeAnswer m call.xoff (XtHit call) (XtMiss call) p out →
    TreeAnswer m call.xoff (XtHit call) (XtMiss call) call.root out

/-- The leaves are at most `h` pages below. -/
def WithinHeight (m : Mount) : ℕ → XtPage → Prop
  | 0, p => p.isLeaf = true
  | h + 1, p => p.isLeaf = true ∨
      ∀ i, xtEntryStart ≤ i → i < p.nextindex → WithinHeight m h (m.childPage p i)

structure PageSound (m : Mount) (call : XtCall) (h : ℕ) (capacity : ℤ) (p : XtPage) : Prop where
  subtree : XtSubtree m capacity p
  height : WithinHeight m h p
  capacity_le : capacity ≤ xtPageMaxSlot
  admits : p.Admits call.xoff
  answers : AnswersRoot m call p

/-- In the loop over a page that is sound. -/
structure FrameSound (m : Mount) (call : XtCall) (pool : BufPool) (f : XtFrame) (h : ℕ)
    (capacity : ℤ) (p : XtPage) : Prop extends PageSound m call h capacity p where
  same : ((f.on pool).page call).Same capacity p
  search : State.Invariant (fun i => xtCmp call.xoff (p.xad i)) xtEntryStart p.nextindex
    ⟨f.base, f.lim, f.cmp⟩

/-- On the way to a child that is sound. -/
structure DescentSound (m : Mount) (call : XtCall) (h t64 : ℕ) : Prop
    extends PageSound m call h xtPageMaxSlot ⟨m.block t64⟩ where
  nonempty : xtEntryStart < (XtPage.mk (m.block t64)).nextindex

def ReturnsRight (m : Mount) (call : XtCall) (rc xaddr xlen : ℤ) : Prop :=
  ∃ pool, TreeAnswer m call.xoff (XtHit call) (XtMiss call) call.root
    (.returned rc xaddr xlen pool)

/-- More than the steps that a page takes. -/
def pageSteps : ℕ := 300

/-- `n` steps are enough from the reading of the child on. -/
def DescentWithin (m : Mount) (call : XtCall) (t64 n : ℕ) : Prop :=
  ∃ h, DescentSound m call h t64 ∧ h * pageSteps + 270 ≤ n

def XtNext.Within (m : Mount) (call : XtCall) (n : ℕ) : XtNext → Prop
  | descend t64 _ => DescentWithin m call t64 n
  | out rc xaddr xlen => ReturnsRight m call rc xaddr xlen

/-- The call is on the way to what its tree maps, and `n` steps are enough. -/
def ReaderPhase.Within (m : Mount) (call : XtCall) (pool : BufPool) (n : ℕ) : ReaderPhase → Prop
  | start => ∃ h, WithinHeight m h call.root ∧ h * pageSteps + 270 ≤ n
  | searching f => ∃ h capacity p, FrameSound m call pool f h capacity p ∧
      h * pageSteps + f.lim.toNat + 4 ≤ n
  | releasing _ next => ∃ k, next.Within m call k ∧ k + 2 ≤ n
  | linked _ next => ∃ k, next.Within m call k ∧ k + 1 ≤ n
  | reading t64 _ => DescentWithin m call t64 n
  | taking t64 _ => DescentWithin m call t64 (n + 1)
  | unlinking _ t64 _ => DescentWithin m call t64 (n + 2)
  | copying _ t64 _ => DescentWithin m call t64 (n + 3)
  | returned rc xaddr xlen => ReturnsRight m call rc xaddr xlen
  | faulted => False

/-- What follows the loop over `p`. -/
def xtNext (call : XtCall) (p : XtPage) : Outcome → XtNext
  | .hit index =>
      if p.isLeaf then
        let t32 := int32 (call.xoff - offsetXAD (p.xad index))
        .out 0 (addressXAD (p.xad index) + t32) (minLength call.xlen (lengthXAD (p.xad index)) t32)
      else .descend (addressXAD (p.xad index)) 0
  | .miss base cmp =>
      if p.isLeaf then .out cmp call.xaddr call.xlen
      else .descend (addressXAD (p.xad (if base ≠ 0 then base - 1 else base))) cmp

variable {m : Mount} {calls : ℕ → XtCall} {call : XtCall} {s s' : ReaderSystem}
  {pool pool' : BufPool} {f : XtFrame} {p q : XtPage} {capacity : ℤ} {i j t64 h k n : ℕ}
  {next : XtNext} {o : Option ℕ} {cmp rc xaddr xlen : ℤ} {out : Outcome}

/-! ## Heights -/

theorem WithinHeight.mono (hp : WithinHeight m h p) (hle : h ≤ k) : WithinHeight m k p := by
  induction h generalizing k p with
  | zero =>
      cases k with
      | zero => exact hp
      | succ k => exact .inl hp
  | succ h ih =>
      obtain ⟨k, rfl⟩ := Nat.exists_eq_add_of_lt hle
      rcases hp with hleaf | hchildren
      · exact .inl hleaf
      · exact .inr fun i hlo hhi => ih (hchildren i hlo hhi) (by omega)

theorem XtSubtree.exists_height (hp : XtSubtree m capacity p) : ∃ h, WithinHeight m h p := by
  induction hp with
  | leaf hleaf => exact ⟨0, hleaf⟩
  | @internal capacity p _ _ _ _ _ ih =>
      choose! height hheight using ih
      refine ⟨(Finset.Ico xtEntryStart p.nextindex).sup height + 1, .inr fun i hlo hhi => ?_⟩
      exact (hheight i hlo hhi).mono (Finset.le_sup (Finset.mem_Ico.mpr ⟨hlo, hhi⟩))

/-! ## The loop over one page -/

theorem xtRound_eq (call : XtCall) (t : XtState) :
    xtRound call t =
      match HalvingSearch.step (fun i => xtCmp call.xoff ((t.page call).xad i)) t.search with
      | .inl q => .inl ⟨t.p, t.bp, q.base, q.lim, q.cmp⟩
      | .inr out => .inr (xtNext call (t.page call) out) := by
  unfold xtRound HalvingSearch.step State.probe XtState.search
  by_cases hlim : t.lim = 0
  · simp only [hlim, ne_eq, not_true_eq_false, if_false, if_true, xtNext]
    split <;> rfl
  · simp only [hlim, ne_eq, not_false_eq_true, if_true, if_false]
    by_cases hzero : xtCmp call.xoff ((t.page call).xad (t.base + t.lim / 2)) = 0
    · simp only [hzero, if_true, xtNext]
      split <;> rfl
    · by_cases hpos : 0 < xtCmp call.xoff ((t.page call).xad (t.base + t.lim / 2))
      · simp only [hzero, hpos, if_true, if_false]
      · simp only [hzero, hpos, if_false]

/-- On a leaf the call answers. -/
theorem xtNext_leaf (hproper : call.Proper m) (hsame : q.Same capacity p)
    (hleaf : p.isLeaf = true) (hsorted : p.Sorted capacity) (hanswers : AnswersRoot m call p)
    (hout : out.Correct (fun i => xtCmp call.xoff (p.xad i)) xtEntryStart p.nextindex) :
    (xtNext call q out).Within m call 0 := by
  have hq : q.isLeaf = true := (hsame.isLeaf hsorted.capacity_ge).trans hleaf
  cases out with
  | hit index =>
      have hcorrect := hout
      obtain ⟨hlo, hhi, hzero⟩ := hout
      unfold xtNext
      dsimp only
      rw [if_pos hq, hsame.entry hsorted.nextindex_le hlo hhi, int32_of_hit hzero,
        minLength_of_hit hproper.xlen_pos hproper.xlen_lt hzero]
      refine ⟨emptyPool, hanswers _ (.of_leaf hleaf hcorrect ?_ nofun)⟩
      rintro index' ⟨⟩
      exact ⟨_, rfl⟩
  | miss base cmp =>
      unfold xtNext
      dsimp only
      rw [if_pos hq]
      refine ⟨emptyPool, hanswers _ (.of_leaf hleaf hout nofun ?_)⟩
      rintro base' cmp' ⟨⟩
      exact ⟨cmp, _, hout.2.2.2.2, rfl⟩

/-- Off a leaf it goes to the child below which the key can be mapped. -/
theorem xtNext_internal (hsame : q.Same capacity p) (hleaf : p.isLeaf = false)
    (hinternal : p.isInternal = true) (hsorted : p.Sorted capacity)
    (hlinks : ∀ i, xtEntryStart ≤ i → i < p.nextindex → ChildLink m p i)
    (hchildren : ∀ i, xtEntryStart ≤ i → i < p.nextindex →
      XtSubtree m xtPageMaxSlot (m.childPage p i))
    (hheights : ∀ i, xtEntryStart ≤ i → i < p.nextindex → WithinHeight m h (m.childPage p i))
    (hadmits : p.Admits call.xoff) (hanswers : AnswersRoot m call p)
    (hout : out.Correct (fun i => xtCmp call.xoff (p.xad i)) xtEntryStart p.nextindex) :
    (xtNext call q out).Within m call (h * pageSteps + 270) := by
  obtain ⟨hlo, hhi, hoff, hnext⟩ := routeIndex_brackets hsorted hinternal hadmits hout
  have hq : q.isLeaf = false := (hsame.isLeaf hsorted.capacity_ge).trans hleaf
  have hlink := hlinks _ hlo hhi
  have hroute : xtNext call q out = .descend (addressXAD (q.xad (routeIndex out))) out.cmp := by
    cases out <;> simp [xtNext, hq, routeIndex, Outcome.cmp]
  have hchild : XtPage.mk (m.block (addressXAD (q.xad (routeIndex out)))) =
      m.childPage p (routeIndex out) :=
    hsame.childPage_routeIndex hsorted hinternal hadmits hout m
  rw [hroute]
  refine ⟨h, ⟨⟨?_, ?_, le_rfl, ?_, ?_⟩, ?_⟩, le_rfl⟩
  · rw [hchild]
    exact hchildren _ hlo hhi
  · rw [hchild]
    exact hheights _ hlo hhi
  · rw [hchild]
    exact hlink.admits hoff
  · intro r hanswer
    rw [hchild] at hanswer
    exact hanswers r (.of_child hleaf hsorted hlinks hlo hhi hoff hnext hanswer)
  · rw [hchild]
    exact hlink.nonempty

theorem XtSubtree.sorted (h : XtSubtree m capacity p) : p.Sorted capacity := by
  cases h with
  | leaf _ _ hsorted => exact hsorted
  | internal _ _ hsorted _ _ => exact hsorted

/-- The loop over a sound page as it begins. -/
theorem PageSound.frame (hpage : PageSound m call h capacity p) {ptr : PagePtr}
    (hsame : ((xtSearchPage call ptr o cmp pool).page call).Same capacity p)
    (hcmp : cmp ≠ 0 ∨ xtEntryStart < p.nextindex) :
    FrameSound m call pool (xtSearchPage call ptr o cmp pool).frame h capacity p ∧
      (xtSearchPage call ptr o cmp pool).frame.lim.toNat ≤ 254 := by
  have hsorted := hpage.subtree.sorted
  have hle := hsorted.nextindex_le.trans hpage.capacity_le
  have hlim : (xtSearchPage call ptr o cmp pool).frame.lim = p.nextindex - xtEntryStart :=
    congrArg (· - xtEntryStart) (hsame.nextindex hsorted.capacity_ge)
  constructor
  · refine ⟨hpage, hsame, ?_⟩
    rw [hlim]
    exact .start hsorted.nextindex_ge hcmp
  · rw [hlim]
    have hstart : xtEntryStart = 2 := rfl
    have hslots : xtPageMaxSlot = 256 := rfl
    omega

namespace FrameSound

/-- The comparison is made with an entry of the page. -/
theorem step_eq (hframe : FrameSound m call pool f h capacity p) :
    HalvingSearch.step (fun i => xtCmp call.xoff (((f.on pool).page call).xad i))
        (f.on pool).search =
      HalvingSearch.step (fun i => xtCmp call.xoff (p.xad i)) ⟨f.base, f.lim, f.cmp⟩ := by
  refine step_congr fun hlim => ?_
  obtain ⟨hlo, hhi⟩ := hframe.search.toWithin.probe_mem hlim
  have hentry := hframe.same.entry hframe.subtree.sorted.nextindex_le hlo hhi
  exact congrArg (xtCmp call.xoff) hentry

theorem round (hframe : FrameSound m call pool f h capacity p) {f' : XtFrame}
    (hround : xtRound call (f.on pool) = .inl f') :
    FrameSound m call pool f' h capacity p ∧ f'.lim.toNat < f.lim.toNat := by
  rw [xtRound_eq, hframe.step_eq] at hround
  cases hstep : HalvingSearch.step (fun i => xtCmp call.xoff (p.xad i)) ⟨f.base, f.lim, f.cmp⟩ with
  | inl q =>
      rw [hstep] at hround
      cases hround
      exact ⟨⟨hframe.toPageSound, hframe.same,
        step_invariant (hframe.subtree.sorted.ordered call.xoff) hframe.search hstep⟩,
        (step_within hframe.search.toWithin hstep).2⟩
  | inr out =>
      rw [hstep] at hround
      cases hround

theorem leave (hframe : FrameSound m call pool f h capacity p) (hproper : call.Proper m)
    (hround : xtRound call (f.on pool) = .inr next) :
    ∃ k, next.Within m call k ∧ k + 3 ≤ h * pageSteps + 4 := by
  rw [xtRound_eq, hframe.step_eq] at hround
  cases hstep : HalvingSearch.step (fun i => xtCmp call.xoff (p.xad i)) ⟨f.base, f.lim, f.cmp⟩ with
  | inl q =>
      rw [hstep] at hround
      cases hround
  | inr out =>
      rw [hstep] at hround
      cases hround
      have hout := step_outcome hframe.search hstep
      have hheight := hframe.height
      cases hframe.subtree with
      | leaf hleaf _ hsorted =>
          exact ⟨0, xtNext_leaf hproper hframe.same hleaf hsorted hframe.answers hout, by omega⟩
      | internal hleaf hinternal hsorted hlinks hchildren =>
          cases h with
          | zero =>
              rw [show p.isLeaf = true from hheight] at hleaf
              cases hleaf
          | succ h =>
              have hheights := hheight.resolve_left (by rw [hleaf]; exact Bool.false_ne_true)
              refine ⟨_, xtNext_internal hframe.same hleaf hinternal hsorted hlinks hchildren
                hheights hframe.admits hframe.answers hout, ?_⟩
              unfold pageSteps
              omega

end FrameSound

/-! ## The steps -/

theorem DescentWithin.mono (hdescent : DescentWithin m call t64 k) (hle : k ≤ n) :
    DescentWithin m call t64 n := by
  obtain ⟨h, hsound, hsteps⟩ := hdescent
  exact ⟨h, hsound, hsteps.trans hle⟩

theorem DescentWithin.le (hdescent : DescentWithin m call t64 n) : 270 ≤ n := by
  obtain ⟨h, -, hsteps⟩ := hdescent
  omega

namespace XtNext

theorem Within.phase (hnext : next.Within m call k) (hle : k ≤ n) :
    next.phase.Within m call pool n := by
  cases next with
  | descend t64 cmp => exact DescentWithin.mono hnext hle
  | out rc xaddr xlen => exact hnext

theorem Within.leave (hnext : next.Within m call k) (hle : k + 2 ≤ n) :
    (next.leave o).Within m call pool n := by
  cases o with
  | none => exact hnext.phase (by omega)
  | some bp => exact ⟨k, hnext, hle⟩

end XtNext

/-- The page that has been copied into the buffer. -/
theorem DescentSound.copied (hsound : DescentSound m call h t64) {bp : ℕ} {data : Bytes}
    (hread : m.ujfsReadDiskblocks (t64 <<< m.l2bsize) ((pageSize >>> m.l2bsize) <<< m.l2bsize)
      (pool.heap.shift (pool.bData bp)) = some data) :
    FrameSound m call (pool.write bp data)
        (xtSearchPage call (.data (pool.bData bp)) (some bp) cmp (pool.write bp data)).frame
        h xtPageMaxSlot ⟨m.block t64⟩ ∧
      (xtSearchPage call (.data (pool.bData bp)) (some bp) cmp
        (pool.write bp data)).frame.lim.toNat ≤ 254 := by
  have hpage : (pool.write bp data).heap.shift (pool.bData bp) = data := BufPool.poke_shift _ _
  rw [BufPool.read_page] at hread
  obtain rfl := Option.some.inj hread
  refine hsound.toPageSound.frame ?_ (.inr hsound.nonempty)
  unfold XtPage.Same XtState.page xtSearchPage
  dsimp only
  rw [hpage]
  exact Bytes.Agree.memcpy_src _ _ _

/-- A step of the call itself. -/
theorem ReaderPhase.Within.step (hwithin : (s.phase i).Within m (calls i) s.pool n)
    (hproper : (calls i).Proper m) (hrelies : (s.phase i).Relies s.pool)
    (hstep : ReaderStep m calls i s s') :
    ∃ k < n, (s'.phase i).Within m (calls i) s'.pool k := by
  cases hstep with
  | start hphase =>
      rw [hphase] at hwithin
      rw [ReaderSystem.setPhase_self]
      obtain ⟨h, hheight, hsteps⟩ := hwithin
      have htree := hproper.tree
      have hpage : PageSound m (calls i) h xtRootMaxSlot (calls i).root :=
        ⟨htree.subtree, hheight, by decide, htree.admits hproper.xoff_nonneg, fun _ => id⟩
      have hframe : FrameSound m (calls i) s.pool (xtStart (calls i) s.pool).frame h
            xtRootMaxSlot (calls i).root ∧ (xtStart (calls i) s.pool).frame.lim.toNat ≤ 254 :=
        hpage.frame (Bytes.Agree.refl _ _) (.inl one_ne_zero)
      have hlim := hframe.2
      exact ⟨n - 1, by omega, h, _, _, hframe.1, by omega⟩
  | round hphase hround =>
      rw [hphase] at hwithin
      rw [ReaderSystem.setPhase_self]
      obtain ⟨h, capacity, p, hframe, hsteps⟩ := hwithin
      obtain ⟨hframe', hlim⟩ := hframe.round hround
      exact ⟨n - 1, by omega, h, capacity, p, hframe', by omega⟩
  | leave hphase hround =>
      rw [hphase] at hwithin
      rw [ReaderSystem.setPhase_self]
      obtain ⟨h, capacity, p, hframe, hsteps⟩ := hwithin
      obtain ⟨k, hnext, hle⟩ := hframe.leave hproper hround
      exact ⟨n - 1, by omega, hnext.leave (by omega)⟩
  | link hphase =>
      rw [hphase] at hwithin
      rw [ReaderSystem.setPhase_self]
      obtain ⟨k, hnext, hle⟩ := hwithin
      exact ⟨n - 1, by omega, k, hnext, by omega⟩
  | push hphase =>
      rw [hphase] at hwithin
      rw [ReaderSystem.setPhase_self]
      obtain ⟨k, hnext, hle⟩ := hwithin
      exact ⟨n - 1, by omega, hnext.phase (by omega)⟩
  | test hphase _ | take hphase _ | unlink hphase =>
      rw [hphase] at hwithin
      rw [ReaderSystem.setPhase_self]
      have hle := DescentWithin.le hwithin
      exact ⟨n - 1, by omega, DescentWithin.mono hwithin (by omega)⟩
  | fault hphase hhead =>
      rw [hphase] at hrelies
      exact absurd hhead hrelies
  | copy hphase hread =>
      rw [hphase] at hwithin
      rw [ReaderSystem.setPhase_self]
      obtain ⟨h, hsound, hsteps⟩ := hwithin
      obtain ⟨hframe, hlim⟩ := hsound.copied hread
      exact ⟨n - 1, by omega, h, _, _, hframe, by omega⟩

namespace BufPool

theorem bAllocateLoop_heap (n bp buffer : ℕ) (pool : BufPool) :
    (bAllocateLoop n bp buffer pool).heap = pool.heap := by
  induction n generalizing bp buffer pool with
  | zero => rfl
  | succ n ih => rw [bAllocateLoop, ih]

theorem bAllocate_heap (h : pool.bAllocate m = some pool') : pool'.heap = pool.heap := by
  unfold bAllocate at h
  split at h
  next =>
    obtain rfl := Option.some.inj h
    exact bAllocateLoop_heap ..
  next => contradiction

theorem poke_memcpy_of_disjoint (heap src : Bytes) {a b : ℕ}
    (hdisjoint : a + pageSize ≤ b ∨ b + pageSize ≤ a) :
    Bytes.Agree pageSize ((poke a ((heap.shift a).memcpy src pageSize)).shift b)
      (heap.shift b) := by
  intro i hlo hhi
  unfold poke Bytes.shift Bytes.memcpy
  dsimp only
  rw [if_neg (by omega)]
  congr 1
  omega

end BufPool

/-- A step of another call leaves the page that is searched as it is. -/
theorem BuffersOk.page_kept (hok : BuffersOk s) (hphase : s.phase i = .searching f) (hne : i ≠ j)
    (hstep : ReaderStep m calls j s s') (call : XtCall) :
    ((f.on s'.pool).page call).Same xtPageMaxSlot ((f.on s.pool).page call) := by
  have hsame : ∀ pool pool' : BufPool, pool'.heap = pool.heap →
      ((f.on pool').page call).Same xtPageMaxSlot ((f.on pool).page call) := by
    intro pool pool' hheap
    unfold XtState.page XtFrame.on
    rw [hheap]
    exact Bytes.Agree.refl _ _
  cases hstep with
  | test _ hready =>
      apply hsame
      split at hready
      next => exact BufPool.bAllocate_heap hready
      next => rw [Option.some.inj hready]; rfl
  | @copy bp t64 cmp data hcopying hread =>
      rw [BufPool.read_page] at hread
      obtain rfl := Option.some.inj hread
      obtain ⟨free, hpool⟩ := hok.pool
      have howner : (s.phase j).owned = some bp := by rw [hcopying]; rfl
      have haddress := hpool.pages bp ((hpool.allocated bp).2 (.inr ⟨j, howner⟩))
      rcases hok.points hphase with ⟨hroot, -⟩ | ⟨own, hown, hpage⟩
      · unfold XtState.page XtFrame.on
        rw [hroot]
        exact Bytes.Agree.refl _ _
      · have hbp : own ≠ bp := by
          rintro rfl
          exact hne (hpool.unique (by rw [hphase]; exact hown) howner)
        unfold XtState.page XtFrame.on
        rw [hpage]
        refine BufPool.poke_memcpy_of_disjoint _ _ ?_
        rw [haddress]
        exact pages_apart hbp.symm
  | _ => exact hsame _ _ rfl

theorem FrameSound.kept (hframe : FrameSound m call pool f h capacity p)
    (hkept : ((f.on pool').page call).Same xtPageMaxSlot ((f.on pool).page call)) :
    FrameSound m call pool' f h capacity p := by
  refine ⟨hframe.toPageSound, fun i hlo hhi => ?_, hframe.search⟩
  have hle := hframe.capacity_le
  exact (hkept i hlo (by omega)).trans (hframe.same i hlo hhi)

/-- A step of another call. -/
theorem ReaderPhase.Within.kept (hwithin : (s.phase i).Within m call s.pool n)
    (hok : BuffersOk s) (hne : i ≠ j) (hstep : ReaderStep m calls j s s') :
    (s.phase i).Within m call s'.pool n := by
  cases hphase : s.phase i with
  | searching f =>
      rw [hphase] at hwithin
      obtain ⟨h, capacity, p, hframe, hsteps⟩ := hwithin
      exact ⟨h, capacity, p, hframe.kept (hok.page_kept hphase hne hstep call), hsteps⟩
  | _ =>
      rw [hphase] at hwithin
      exact hwithin

theorem ReaderRun.within (hrun : ReaderRun m calls SectionsApart s)
    (hproper : (calls i).Proper m) : ∃ n, (s.phase i).Within m (calls i) s.pool n := by
  induction hrun with
  | init =>
      obtain ⟨h, hheight⟩ := hproper.tree.subtree.exists_height
      exact ⟨_, h, hheight, le_rfl⟩
  | @step s s' j hrun _ hstep ih =>
      obtain ⟨n, hwithin⟩ := ih
      by_cases heq : i = j
      · subst heq
        obtain ⟨k, -, hk⟩ := hwithin.step hproper (hrun.buffersOk.relies i) hstep
        exact ⟨k, hk⟩
      · rw [hstep.phase_of_ne heq]
        exact ⟨n, hwithin.kept hrun.buffersOk heq hstep⟩

/-! ## The end of the searches -/

/-- The calls of `T` have returned, and all buffers are free again. -/
def Finished (T : Finset ℕ) (s : ReaderSystem) : Prop :=
  (∀ i ∈ T, ∃ rc xaddr xlen, s.phase i = .returned rc xaddr xlen) ∧
    ∃ free, PoolShared s.pool free fun _ => none

/-- A step of a call of `T` that keeps the sections apart. -/
def ApartStep (m : Mount) (calls : ℕ → XtCall) (T : Finset ℕ) (s s' : ReaderSystem) : Prop :=
  ∃ i ∈ T, SectionsApart s i ∧ ReaderStep m calls i s s'

/-- The calls of `T` are under way, with `n` steps left, and no others. -/
structure StepsLeft (m : Mount) (calls : ℕ → XtCall) (T : Finset ℕ) (s : ReaderSystem)
    (n : ℕ) : Prop where
  run : ReaderRun m calls SectionsApart s
  idle : ∀ i, i ∉ T → s.phase i = .start
  left : ∃ left : ℕ → ℕ, (∀ i ∈ T, (s.phase i).Within m (calls i) s.pool (left i)) ∧
    n = ∑ i ∈ T, left i

variable {T : Finset ℕ}

theorem StepsLeft.step (h : StepsLeft m calls T s n) (hproper : ∀ i ∈ T, (calls i).Proper m)
    (hstep : ApartStep m calls T s s') : ∃ k < n, StepsLeft m calls T s' k := by
  obtain ⟨i, hi, hapart, hstep⟩ := hstep
  obtain ⟨left, hwithin, rfl⟩ := h.left
  have hok := h.run.buffersOk
  obtain ⟨k, hlt, hk⟩ := (hwithin i hi).step (hproper i hi) (hok.relies i) hstep
  refine ⟨∑ j ∈ T, Function.update left i k j, ?_, h.run.step hapart hstep, fun j hj => ?_, _,
    fun j hj => ?_, rfl⟩
  · refine Finset.sum_lt_sum (fun j _ => ?_) ⟨i, hi, by rwa [Function.update_self]⟩
    by_cases heq : j = i
    · rw [heq, Function.update_self]
      exact hlt.le
    · rw [Function.update_of_ne heq]
  · have hne : j ≠ i := fun heq => hj (heq ▸ hi)
    rw [hstep.phase_of_ne hne]
    exact h.idle j hj
  · by_cases heq : j = i
    · subst heq
      rwa [Function.update_self]
    · rw [Function.update_of_ne heq, hstep.phase_of_ne heq]
      exact (hwithin j hj).kept hok heq hstep

theorem BuffersOk.exists_step_inside (hok : BuffersOk s) (hinside : (s.phase i).Inside) :
    ∃ s', ReaderStep m calls i s s' := by
  have hrelies := hok.relies i
  rcases hinside with ⟨bp, next, hphase⟩ | ⟨t64, cmp, hphase⟩ | ⟨bp, t64, cmp, hphase⟩
  · exact ⟨_, .push hphase⟩
  · rw [hphase] at hrelies
    obtain ⟨bp, hhead⟩ := Option.ne_none_iff_exists'.1 hrelies
    exact ⟨_, .take hphase hhead⟩
  · exact ⟨_, .unlink hphase⟩

theorem exists_step_outside (hmem : m.HasMemory) (hout : ¬ (s.phase i).Inside)
    (hwithin : (s.phase i).Within m call s.pool n)
    (hnot : ∀ rc xaddr xlen, s.phase i ≠ .returned rc xaddr xlen) :
    ∃ s', ReaderStep m calls i s s' := by
  cases hphase : s.phase i with
  | start => exact ⟨_, .start hphase⟩
  | searching f =>
      cases hround : xtRound (calls i) (f.on s.pool) with
      | inl f' => exact ⟨_, .round hphase hround⟩
      | inr next => exact ⟨_, .leave hphase hround⟩
  | releasing bp next => exact ⟨_, .link hphase⟩
  | linked bp next => exact absurd (.inl ⟨bp, next, hphase⟩) hout
  | reading t64 cmp =>
      obtain ⟨pool, hready⟩ := exists_ready hmem s.pool
      exact ⟨_, .test hphase hready⟩
  | taking t64 cmp => exact absurd (.inr (.inl ⟨t64, cmp, hphase⟩)) hout
  | unlinking bp t64 cmp => exact absurd (.inr (.inr ⟨bp, t64, cmp, hphase⟩)) hout
  | copying bp t64 cmp => exact ⟨_, .copy hphase (BufPool.read_page ..)⟩
  | returned rc xaddr xlen => exact absurd hphase (hnot rc xaddr xlen)
  | faulted =>
      rw [hphase] at hwithin
      exact hwithin.elim

theorem StepsLeft.exists_step (h : StepsLeft m calls T s n) (hmem : m.HasMemory)
    (hnot : ¬ Finished T s) : ∃ s', ApartStep m calls T s s' := by
  have hok := h.run.buffersOk
  obtain ⟨left, hwithin, -⟩ := h.left
  by_cases hinside : ∃ j, (s.phase j).Inside
  · obtain ⟨j, hj⟩ := hinside
    have hmemT : j ∈ T := by
      by_contra hout
      rw [h.idle j hout] at hj
      simp [ReaderPhase.Inside] at hj
    obtain ⟨s', hstep⟩ := hok.exists_step_inside hj
    exact ⟨s', j, hmemT, fun henters => absurd henters hj.not_enters, hstep⟩
  · have hnone : ∀ j, ¬ (s.phase j).Inside := fun j hj => hinside ⟨j, hj⟩
    obtain ⟨i, hi, hbusy⟩ : ∃ i ∈ T, ∀ rc xaddr xlen, s.phase i ≠ .returned rc xaddr xlen := by
      by_contra hall
      push Not at hall
      obtain ⟨free, hpool⟩ := hok.pool
      refine hnot ⟨hall, free, ?_⟩
      have howned : (fun i => (s.phase i).owned) = fun _ => none := by
        funext i
        by_cases hi : i ∈ T
        · obtain ⟨rc, xaddr, xlen, hphase⟩ := hall i hi
          rw [hphase]
          rfl
        · rw [h.idle i hi]
          rfl
      rwa [howned] at hpool
    obtain ⟨s', hstep⟩ := exists_step_outside hmem (hnone i) (hwithin i hi) hbusy
    exact ⟨s', i, hi, fun _ => hnone, hstep⟩

theorem StepsLeft.inevitable (h : StepsLeft m calls T s n) (hmem : m.HasMemory)
    (hproper : ∀ i ∈ T, (calls i).Proper m) :
    Inevitable (ApartStep m calls T) (Finished T) s :=
  .of_bound (B := StepsLeft m calls T) (fun h hstep => h.step hproper hstep)
    (fun h hnot => h.exists_step hmem hnot) h

theorem ReaderRun.stepsLeft (hrun : ReaderRun m calls SectionsApart s)
    (hproper : ∀ i ∈ T, (calls i).Proper m) (hidle : ∀ i, i ∉ T → s.phase i = .start) :
    ∃ n, StepsLeft m calls T s n := by
  have hleft : ∀ i, ∃ n, i ∈ T → (s.phase i).Within m (calls i) s.pool n := by
    intro i
    by_cases hi : i ∈ T
    · obtain ⟨n, hwithin⟩ := hrun.within (hproper i hi)
      exact ⟨n, fun _ => hwithin⟩
    · exact ⟨0, fun hmemT => absurd hmemT hi⟩
  choose left hwithin using hleft
  exact ⟨_, hrun, hidle, left, hwithin, rfl⟩

/-! ## The two searches at once -/

theorem ReaderRun.of_apartSteps (hrun : ReaderRun m calls SectionsApart s)
    (hsteps : Relation.ReflTransGen (ApartStep m calls T) s s') :
    ReaderRun m calls SectionsApart s' := by
  induction hsteps with
  | refl => exact hrun
  | tail _ hstep ih =>
      obtain ⟨i, -, hapart, hstep⟩ := hstep
      exact ih.step hapart hstep

theorem twoCalls_proper (i : ℕ) : (twoCalls i).Proper twoLevelMount := by
  unfold twoCalls
  split
  · exact ⟨twoLevelMount_tree, by decide, by decide, by decide⟩
  · exact ⟨twoLevelMount_tree, by decide, by decide, by decide⟩

theorem not_mem_twoCalls (h : i ∉ ({0, 1} : Finset ℕ)) : i ≠ 0 ∧ i ≠ 1 := by
  simpa using h

/-- From the middle of both searches to the end of both. -/
theorem twoCalls_finished : ∃ s s' f, s.phase 0 = .searching f ∧ f.bp ≠ none ∧
    s.phase 1 = .taking 1 1 ∧ ReaderRun twoLevelMount twoCalls SectionsApart s' ∧
    Relation.ReflTransGen (ApartStep twoLevelMount twoCalls {0, 1}) s s' ∧
    Finished {0, 1} s' := by
  obtain ⟨s, f, hrun, hsearching, hbp, htaking, hothers⟩ := twoCalls_searching
  have hidle : ∀ i, i ∉ ({0, 1} : Finset ℕ) → s.phase i = .start := fun i hi =>
    hothers i (not_mem_twoCalls hi).1 (not_mem_twoCalls hi).2
  obtain ⟨n, hleft⟩ := hrun.stepsLeft (fun i _ => twoCalls_proper i) hidle
  obtain ⟨s', hsteps, hfinished⟩ :=
    (hleft.inevitable (fun _ => rfl) fun i _ => twoCalls_proper i).exists_run
  exact ⟨s, s', f, hsearching, hbp, htaking, ReaderRun.of_apartSteps hrun hsteps, hsteps, hfinished⟩

/-- While the sections of the calls stay apart, a call on a well-formed tree
that returns has found what the tree maps, whatever the others search. -/
theorem concurrent_searches_correct (h : ReaderRun m calls SectionsApart s)
    (hproper : (calls i).Proper m) (hreturned : s.phase i = .returned rc xaddr xlen) :
    (rc = 0 ↔ ∃ e, LeafExtent m (calls i).root e ∧ e.Covers (calls i).xoff) ∧
      (∀ e, LeafExtent m (calls i).root e → e.Covers (calls i).xoff →
        xaddr = addressXAD e + ((calls i).xoff - offsetXAD e) ∧
        xlen = min (calls i).xlen (lengthXAD e - ((calls i).xoff - offsetXAD e)) ∧ 1 ≤ xlen) ∧
      (rc ≠ 0 → xaddr = (calls i).xaddr ∧ xlen = (calls i).xlen) := by
  obtain ⟨n, hwithin⟩ := h.within hproper
  rw [hreturned] at hwithin
  obtain ⟨pool, hanswer⟩ := hwithin
  exact hproper.tree.returned hproper.xlen_pos hanswer

/-- One call is in the page of its buffer when the other one takes a buffer. -/
theorem concurrent_searches_correct_twoCalls : ∃ s s' f, s.phase 0 = .searching f ∧
    f.bp ≠ none ∧ s.phase 1 = .taking 1 1 ∧
    Relation.ReflTransGen (ApartStep twoLevelMount twoCalls {0, 1}) s s' ∧
    s'.phase 0 = .returned 0 21 2 ∧ s'.phase 1 = .returned 0 11 1 := by
  obtain ⟨s, s', f, hsearching, hbp, htaking, hrun, hsteps, hreturned, -⟩ := twoCalls_finished
  have hanswer : ∀ i ∈ ({0, 1} : Finset ℕ), ∀ e,
      LeafExtent twoLevelMount (twoCalls i).root e → e.Covers (twoCalls i).xoff →
      ∃ xaddr xlen, s'.phase i = .returned 0 xaddr xlen ∧
        xaddr = addressXAD e + ((twoCalls i).xoff - offsetXAD e) ∧
        xlen = min (twoCalls i).xlen (lengthXAD e - ((twoCalls i).xoff - offsetXAD e)) := by
    intro i hi e hextent hcovers
    obtain ⟨rc, xaddr, xlen, hphase⟩ := hreturned i hi
    obtain ⟨hrc, hfound, -⟩ := concurrent_searches_correct hrun (twoCalls_proper i) hphase
    obtain ⟨hxaddr, hxlen, -⟩ := hfound e hextent hcovers
    obtain rfl := hrc.mpr ⟨e, hextent, hcovers⟩
    exact ⟨xaddr, xlen, hphase, hxaddr, hxlen⟩
  obtain ⟨xaddr₀, xlen₀, hzero, hxaddr₀, hxlen₀⟩ := hanswer 0 (by decide) _
    (twoLevel_leafExtent (i := 3) (by decide) (by decide)) ⟨by decide, by decide⟩
  obtain ⟨xaddr₁, xlen₁, hone, hxaddr₁, hxlen₁⟩ := hanswer 1 (by decide) _
    (twoLevel_leafExtent (i := 2) (by decide) (by decide)) ⟨by decide, by decide⟩
  obtain rfl : xaddr₀ = 21 := hxaddr₀.trans (by decide)
  obtain rfl : xlen₀ = 2 := hxlen₀.trans (by decide)
  obtain rfl : xaddr₁ = 11 := hxaddr₁.trans (by decide)
  obtain rfl : xlen₁ = 1 := hxlen₁.trans (by decide)
  exact ⟨s, s', f, hsearching, hbp, htaking, hsteps, hzero, hone⟩

/-- However the steps of finitely many calls on well-formed trees come, as long
as their sections stay apart: all of them return. -/
theorem concurrent_searches_finish (hmem : m.HasMemory) (hproper : ∀ i ∈ T, (calls i).Proper m)
    (hrun : ReaderRun m calls SectionsApart s) (hidle : ∀ i, i ∉ T → s.phase i = .start) :
    Inevitable (ApartStep m calls T) (Finished T) s := by
  obtain ⟨n, hleft⟩ := hrun.stepsLeft hproper hidle
  exact hleft.inevitable hmem hproper

theorem concurrent_searches_finish_twoCalls : ∃ s f, s.phase 0 = .searching f ∧ f.bp ≠ none ∧
    s.phase 1 = .taking 1 1 ∧
    Inevitable (ApartStep twoLevelMount twoCalls {0, 1}) (Finished {0, 1}) s := by
  obtain ⟨s, f, hrun, hsearching, hbp, htaking, hothers⟩ := twoCalls_searching
  refine ⟨s, f, hsearching, hbp, htaking, concurrent_searches_finish (fun _ => rfl)
    (fun i _ => twoCalls_proper i) hrun fun i hi => ?_⟩
  exact hothers i (not_mem_twoCalls hi).1 (not_mem_twoCalls hi).2

end JfsReader
