import JfsReader.BufferConservation

/-!
# The page buffers under concurrent searches

`xt_Lookup` runs in the threads of the pagers, and nothing guards `bCachelist`.
Here any number of calls share the pool, one access to it at a time.  A call is
inside a section from the first access of a `bRead` or `bRelease` that depends
on the head of the list to the one that sets it.
-/

namespace JfsReader

open StepMachine FreeList

/-- The local variables of a call. -/
structure XtFrame where
  p : PagePtr
  bp : Option ℕ
  base : ℤ
  lim : ℤ
  cmp : ℤ

def XtFrame.on (f : XtFrame) (pool : BufPool) : XtState :=
  ⟨f.p, f.bp, f.base, f.lim, f.cmp, pool⟩

def XtState.frame (s : XtState) : XtFrame := ⟨s.p, s.bp, s.base, s.lim, s.cmp⟩

/-- Where a call goes from the loop over a page: to the child at block `t64`, or
to the label `out`. -/
inductive XtNext
  | descend (t64 : ℕ) (cmp : ℤ)
  | out (rc xaddr xlen : ℤ)

/-- One round of the loop, or what follows it. -/
def xtRound (call : XtCall) (s : XtState) : XtFrame ⊕ XtNext :=
  let p := s.page call
  if s.lim ≠ 0 then
    let index := s.base + s.lim / 2
    let cmp := xtCmp call.xoff (p.xad index)
    if cmp = 0 then
      if p.isLeaf then
        let t32 := int32 (call.xoff - offsetXAD (p.xad index))
        .inr (.out cmp (addressXAD (p.xad index) + t32)
          (minLength call.xlen (lengthXAD (p.xad index)) t32))
      else .inr (.descend (addressXAD (p.xad index)) cmp)
    else if cmp > 0 then .inl ⟨s.p, s.bp, index + 1, (s.lim - 1) / 2, cmp⟩
    else .inl ⟨s.p, s.bp, s.base, s.lim / 2, cmp⟩
  else if p.isLeaf then .inr (.out s.cmp call.xaddr call.xlen)
  else .inr (.descend (addressXAD (p.xad (if s.base ≠ 0 then s.base - 1 else s.base))) s.cmp)

/-- Where a call stands: `releasing` and `linked` in `bRelease`, then `reading`,
`taking`, `unlinking` and `copying` in `bRead`. -/
inductive ReaderPhase
  | start
  | searching (f : XtFrame)
  | releasing (bp : ℕ) (next : XtNext)
  | linked (bp : ℕ) (next : XtNext)
  | reading (t64 : ℕ) (cmp : ℤ)
  | taking (t64 : ℕ) (cmp : ℤ)
  | unlinking (bp t64 : ℕ) (cmp : ℤ)
  | copying (bp t64 : ℕ) (cmp : ℤ)
  | returned (rc xaddr xlen : ℤ)
  | faulted

def XtNext.phase : XtNext → ReaderPhase
  | descend t64 cmp => .reading t64 cmp
  | out rc xaddr xlen => .returned rc xaddr xlen

/-- The parent page is given back first, if it is in a buffer. -/
def XtNext.leave (next : XtNext) : Option ℕ → ReaderPhase
  | none => next.phase
  | some bp => .releasing bp next

structure ReaderSystem where
  pool : BufPool
  phase : ℕ → ReaderPhase

namespace ReaderSystem

def setPhase (s : ReaderSystem) (i : ℕ) (p : ReaderPhase) : ReaderSystem :=
  { s with phase := Function.update s.phase i p }

def withPool (s : ReaderSystem) (pool : BufPool) : ReaderSystem := { s with pool := pool }

end ReaderSystem

namespace BufPool

def setHead (pool : BufPool) (head : Option ℕ) : BufPool := { pool with bCachelist := head }

def setNext (pool : BufPool) (bp : ℕ) (next : Option ℕ) : BufPool :=
  { pool with bNext := Function.update pool.bNext bp next }

def write (pool : BufPool) (bp : ℕ) (data : Bytes) : BufPool :=
  { pool with heap := poke (pool.bData bp) data }

end BufPool

/-- One step of call `i`; an allocation is one step with the test before it. -/
inductive ReaderStep (m : Mount) (calls : ℕ → XtCall) (i : ℕ) :
    ReaderSystem → ReaderSystem → Prop
  | start {s : ReaderSystem} : s.phase i = .start →
      ReaderStep m calls i s (s.setPhase i (.searching (xtStart (calls i) s.pool).frame))
  | round {s : ReaderSystem} {f f' : XtFrame} : s.phase i = .searching f →
      xtRound (calls i) (f.on s.pool) = .inl f' →
      ReaderStep m calls i s (s.setPhase i (.searching f'))
  | leave {s : ReaderSystem} {f : XtFrame} {next : XtNext} : s.phase i = .searching f →
      xtRound (calls i) (f.on s.pool) = .inr next →
      ReaderStep m calls i s (s.setPhase i (next.leave f.bp))
  | link {s : ReaderSystem} {bp : ℕ} {next : XtNext} : s.phase i = .releasing bp next →
      ReaderStep m calls i s
        ((s.withPool (s.pool.setNext bp s.pool.bCachelist)).setPhase i (.linked bp next))
  | push {s : ReaderSystem} {bp : ℕ} {next : XtNext} : s.phase i = .linked bp next →
      ReaderStep m calls i s ((s.withPool (s.pool.setHead (some bp))).setPhase i next.phase)
  | test {s : ReaderSystem} {t64 : ℕ} {cmp : ℤ} {pool : BufPool} :
      s.phase i = .reading t64 cmp →
      (if s.pool.bCachelist.isNone then s.pool.bAllocate m else some s.pool) = some pool →
      ReaderStep m calls i s ((s.withPool pool).setPhase i (.taking t64 cmp))
  | take {s : ReaderSystem} {t64 bp : ℕ} {cmp : ℤ} : s.phase i = .taking t64 cmp →
      s.pool.bCachelist = some bp →
      ReaderStep m calls i s (s.setPhase i (.unlinking bp t64 cmp))
  | fault {s : ReaderSystem} {t64 : ℕ} {cmp : ℤ} : s.phase i = .taking t64 cmp →
      s.pool.bCachelist = none → ReaderStep m calls i s (s.setPhase i .faulted)
  | unlink {s : ReaderSystem} {bp t64 : ℕ} {cmp : ℤ} : s.phase i = .unlinking bp t64 cmp →
      ReaderStep m calls i s
        ((s.withPool (s.pool.setHead (s.pool.bNext bp))).setPhase i (.copying bp t64 cmp))
  | copy {s : ReaderSystem} {bp t64 : ℕ} {cmp : ℤ} {data : Bytes} :
      s.phase i = .copying bp t64 cmp →
      m.ujfsReadDiskblocks (t64 <<< m.l2bsize) ((pageSize >>> m.l2bsize) <<< m.l2bsize)
        (s.pool.heap.shift (s.pool.bData bp)) = some data →
      ReaderStep m calls i s ((s.withPool (s.pool.write bp data)).setPhase i
        (.searching (xtSearchPage (calls i) (.data (s.pool.bData bp)) (some bp) cmp
          (s.pool.write bp data)).frame))

/-- The states that steps reach which all meet a condition. -/
inductive ReaderRun (m : Mount) (calls : ℕ → XtCall) (Meets : ReaderSystem → ℕ → Prop) :
    ReaderSystem → Prop
  | init {pool : BufPool} : pool.bCachelist = none → pool.nBuffer = 0 →
      ReaderRun m calls Meets ⟨pool, fun _ => .start⟩
  | step {s s' : ReaderSystem} {i : ℕ} : ReaderRun m calls Meets s → Meets s i →
      ReaderStep m calls i s s' → ReaderRun m calls Meets s'

namespace ReaderPhase

/-- The buffer that is off the list for the call. -/
def owned : ReaderPhase → Option ℕ
  | searching f => f.bp
  | releasing bp _ | linked bp _ | copying bp _ _ => some bp
  | _ => none

def Enters (p : ReaderPhase) : Prop :=
  (∃ bp next, p = .releasing bp next) ∨ ∃ t64 cmp, p = .reading t64 cmp

def Inside (p : ReaderPhase) : Prop :=
  (∃ bp next, p = .linked bp next) ∨ (∃ t64 cmp, p = .taking t64 cmp) ∨
    ∃ bp t64 cmp, p = .unlinking bp t64 cmp

/-- What a call inside its section relies on. -/
def Relies (pool : BufPool) : ReaderPhase → Prop
  | linked bp _ => pool.bNext bp = pool.bCachelist
  | taking _ _ => pool.bCachelist ≠ none
  | unlinking bp _ _ => pool.bCachelist = some bp
  | faulted => False
  | _ => True

end ReaderPhase

/-- A section is entered when no other call is in one. -/
def SectionsApart (s : ReaderSystem) (i : ℕ) : Prop :=
  (s.phase i).Enters → ∀ j, ¬ (s.phase j).Inside

/-- `free` is what the list spells, and the rest of the buffers are those of the
calls, one each. -/
structure PoolConserved (pool : BufPool) (free : List ℕ) (owners : ℕ → Option ℕ) : Prop where
  chain : Spells pool.bNext pool.bCachelist free
  nodup : free.Nodup
  allocated : ∀ bp, bp < pool.nBuffer ↔ bp ∈ free ∨ ∃ i, owners i = some bp
  disjoint : ∀ {i bp}, owners i = some bp → bp ∉ free
  unique : ∀ {i j bp}, owners i = some bp → owners j = some bp → i = j

/-- Each buffer has its own page as well. -/
structure PoolShared (pool : BufPool) (free : List ℕ) (owners : ℕ → Option ℕ) : Prop
    extends PoolConserved pool free owners where
  pages : ∀ bp, bp < pool.nBuffer → pool.bData bp = bp * pageSize

/-- The page that the call searches is the root or in its own buffer. -/
def XtFrame.PointsOwn (f : XtFrame) : Prop :=
  (f.p = .root ∧ f.bp = none) ∨ ∃ bp, f.bp = some bp ∧ f.p = .data (bp * pageSize)

structure BuffersOk (s : ReaderSystem) : Prop where
  pool : ∃ free, PoolShared s.pool free fun i => (s.phase i).owned
  inside : ∀ {i j}, (s.phase i).Inside → (s.phase j).Inside → i = j
  relies : ∀ i, (s.phase i).Relies s.pool
  points : ∀ {i f}, s.phase i = .searching f → f.PointsOwn

variable {m : Mount} {calls : ℕ → XtCall} {Meets : ReaderSystem → ℕ → Prop}
  {s s' : ReaderSystem} {p : ReaderPhase} {pool pool' : BufPool} {free : List ℕ}
  {owners : ℕ → Option ℕ} {i j bp : ℕ}

/-! ## The pool -/

theorem update_eq_some {o : Option ℕ} (hupdate : Function.update owners i o j = some bp) :
    (j = i ∧ o = some bp) ∨ (j ≠ i ∧ owners j = some bp) := by
  by_cases heq : j = i
  · rw [heq, Function.update_self] at hupdate
    exact .inl ⟨heq, hupdate⟩
  · rw [Function.update_of_ne heq] at hupdate
    exact .inr ⟨heq, hupdate⟩

namespace PoolShared

theorem congr (h : PoolShared pool free owners) (hlist : pool'.bCachelist = pool.bCachelist)
    (hnext : ∀ bp ∈ free, pool'.bNext bp = pool.bNext bp) (hcount : pool'.nBuffer = pool.nBuffer)
    (hdata : pool'.bData = pool.bData) : PoolShared pool' free owners := by
  refine ⟨⟨?_, h.nodup, ?_, h.disjoint, h.unique⟩, ?_⟩
  · rw [hlist]
    exact h.chain.frame hnext
  · rw [hcount]
    exact h.allocated
  · rw [hcount, hdata]
    exact h.pages

theorem setNext (h : PoolShared pool free owners) (howner : owners i = some bp)
    (next : Option ℕ) : PoolShared (pool.setNext bp next) free owners := by
  refine h.congr rfl (fun bp' hfree => ?_) rfl rfl
  have hne : bp' ≠ bp := by
    rintro rfl
    exact h.disjoint howner hfree
  exact Function.update_of_ne hne ..

/-- A call gives its buffer back. -/
theorem push (h : PoolShared pool free owners) (howner : owners i = some bp)
    (hlinked : pool.bNext bp = pool.bCachelist) :
    PoolShared (pool.setHead (some bp)) (bp :: free) (Function.update owners i none) := by
  have hothers : ∀ {j bp'}, Function.update owners i none j = some bp' →
      j ≠ i ∧ owners j = some bp' := by
    intro j bp' hj
    rcases update_eq_some hj with ⟨-, hnone⟩ | hold
    · cases hnone
    · exact hold
  refine ⟨⟨⟨rfl, ?_⟩, List.nodup_cons.2 ⟨h.disjoint howner, h.nodup⟩, ?_, ?_, ?_⟩, h.pages⟩
  · change Spells pool.bNext (pool.bNext bp) free
    rw [hlinked]
    exact h.chain
  · intro bp'
    refine (h.allocated bp').trans ?_
    constructor
    · rintro (hfree | ⟨j, hj⟩)
      · exact .inl (List.mem_cons_of_mem bp hfree)
      · by_cases heq : j = i
        · rw [heq, howner] at hj
          cases hj
          exact .inl List.mem_cons_self
        · exact .inr ⟨j, (Function.update_of_ne heq ..).trans hj⟩
    · rintro (hmem | ⟨j, hj⟩)
      · rcases List.mem_cons.1 hmem with rfl | hfree
        · exact .inr ⟨i, howner⟩
        · exact .inl hfree
      · exact .inr ⟨j, (hothers hj).2⟩
  · intro j bp' hj hmem
    obtain ⟨hne, hold⟩ := hothers hj
    rcases List.mem_cons.1 hmem with rfl | hfree
    · exact hne (h.unique hold howner)
    · exact h.disjoint hold hfree
  · intro j j' bp' hj hj'
    exact h.unique (hothers hj).2 (hothers hj').2

/-- A call takes the head of the list. -/
theorem pop (h : PoolShared pool free owners) (hhead : pool.bCachelist = some bp)
    (hnone : owners i = none) : ∃ rest, PoolShared (pool.setHead (pool.bNext bp)) rest
      (Function.update owners i (some bp)) := by
  obtain ⟨rest, rfl, hrest⟩ := h.chain.pop_of_head hhead
  obtain ⟨hbp, hnodup⟩ := List.nodup_cons.1 h.nodup
  have hfresh : ∀ j, owners j ≠ some bp := fun j hj => h.disjoint hj List.mem_cons_self
  refine ⟨rest, ⟨hrest, hnodup, ?_, ?_, ?_⟩, h.pages⟩
  · intro bp'
    refine (h.allocated bp').trans ?_
    constructor
    · rintro (hmem | ⟨j, hj⟩)
      · rcases List.mem_cons.1 hmem with rfl | hfree
        · exact .inr ⟨i, Function.update_self ..⟩
        · exact .inl hfree
      · have hne : j ≠ i := by
          rintro rfl
          rw [hnone] at hj
          cases hj
        exact .inr ⟨j, (Function.update_of_ne hne ..).trans hj⟩
    · rintro (hfree | ⟨j, hj⟩)
      · exact .inl (List.mem_cons_of_mem bp hfree)
      · rcases update_eq_some hj with ⟨-, heq⟩ | ⟨-, hold⟩
        · cases heq
          exact .inl List.mem_cons_self
        · exact .inr ⟨j, hold⟩
  · intro j bp' hj hfree
    rcases update_eq_some hj with ⟨-, heq⟩ | ⟨-, hold⟩
    · cases heq
      exact hbp hfree
    · exact h.disjoint hold (List.mem_cons_of_mem bp hfree)
  · intro j j' bp' hj hj'
    rcases update_eq_some hj with ⟨rfl, heq⟩ | ⟨hne, hold⟩
    · rcases update_eq_some hj' with ⟨rfl, -⟩ | ⟨-, hold'⟩
      · rfl
      · cases heq
        exact absurd hold' (hfresh j')
    · rcases update_eq_some hj' with ⟨rfl, heq⟩ | ⟨-, hold'⟩
      · cases heq
        exact absurd hold (hfresh j)
      · exact h.unique hold hold'

theorem bAllocate (h : PoolShared pool free owners) (hlist : pool.bCachelist = none)
    (halloc : pool.bAllocate m = some pool') :
    pool'.bCachelist ≠ none ∧ ∃ free', PoolShared pool' free' owners := by
  obtain rfl : free = [] := h.chain.eq_nil_iff.1 hlist
  have howned : ∀ bp, bp < pool.nBuffer ↔ ∃ i, owners i = some bp := fun bp =>
    (h.allocated bp).trans (or_iff_right List.not_mem_nil)
  unfold BufPool.bAllocate at halloc
  split at halloc
  next =>
    obtain rfl := Option.some.inj halloc
    have hmem : ∀ bp, bp ∈ (List.range' pool.nBuffer nbuffer).reverse ++ [] ↔
        pool.nBuffer ≤ bp ∧ bp < pool.nBuffer + nbuffer := by
      intro bp
      rw [List.append_nil, List.mem_reverse, List.mem_range'_1]
    refine ⟨?_, _, ⟨bAllocateLoop_spells h.chain (by simp), ?_, ?_, ?_, h.unique⟩, ?_⟩
    · change (BufPool.bAllocateLoop (7 + 1) pool.nBuffer (pool.nBuffer * pageSize)
        pool).bCachelist ≠ none
      rw [BufPool.bAllocateLoop_bCachelist]
      exact nofun
    · rw [List.append_nil, List.nodup_reverse]
      exact List.nodup_range'
    · intro bp
      rw [hmem, ← howned]
      change bp < pool.nBuffer + nbuffer ↔ _
      omega
    · intro i bp hi hfree
      have hlt := (howned bp).2 ⟨i, hi⟩
      have hge := ((hmem bp).1 hfree).1
      omega
    · intro bp hbp
      change bp < pool.nBuffer + nbuffer at hbp
      change (BufPool.bAllocateLoop nbuffer pool.nBuffer (pool.nBuffer * pageSize) pool).bData
        bp = _
      rcases lt_or_ge bp pool.nBuffer with hlt | hge
      · rw [bAllocateLoop_bData_below hlt]
        exact h.pages bp hlt
      · obtain ⟨k, rfl⟩ := Nat.exists_eq_add_of_le hge
        rw [bAllocateLoop_bData (by omega), Nat.add_mul]
  next => contradiction

end PoolShared

/-! ## The steps -/

namespace ReaderSystem

@[simp] theorem setPhase_self : (s.setPhase i p).phase i = p := Function.update_self ..

theorem setPhase_of_ne (hne : j ≠ i) : (s.setPhase i p).phase j = s.phase j :=
  Function.update_of_ne hne ..

theorem owned_setPhase : (fun j => ((s.setPhase i p).phase j).owned) =
    Function.update (fun j => (s.phase j).owned) i p.owned := by
  funext j
  by_cases heq : j = i
  · rw [heq, setPhase_self, Function.update_self]
  · rw [setPhase_of_ne heq, Function.update_of_ne heq]

end ReaderSystem

theorem ReaderPhase.Inside.not_enters (h : p.Inside) : ¬ p.Enters := by
  rintro (⟨bp, next, rfl⟩ | ⟨t64, cmp, rfl⟩) <;> simp [ReaderPhase.Inside] at h

theorem ReaderPhase.Relies.outside (h : p.Relies pool) (hout : ¬ p.Inside) : p.Relies pool' := by
  cases p with
  | linked bp next => exact absurd (.inl ⟨bp, next, rfl⟩) hout
  | taking t64 cmp => exact absurd (.inr (.inl ⟨t64, cmp, rfl⟩)) hout
  | unlinking bp t64 cmp => exact absurd (.inr (.inr ⟨bp, t64, cmp, rfl⟩)) hout
  | _ => exact h

theorem ReaderPhase.Relies.congr (h : p.Relies pool) (hlist : pool'.bCachelist = pool.bCachelist)
    (hnext : pool'.bNext = pool.bNext) : p.Relies pool' := by
  cases p <;> simp only [ReaderPhase.Relies, hlist, hnext] at h ⊢ <;> exact h

/-- A call goes on where no other one is inside, or outside without a change of
the list. -/
theorem BuffersOk.setPhase (h : BuffersOk s)
    (hpool : ∃ free, PoolShared pool free (Function.update (fun j => (s.phase j).owned) i p.owned))
    (hrelies : p.Relies pool)
    (hothers : (∀ j, j ≠ i → ¬ (s.phase j).Inside) ∨
      (¬ p.Inside ∧ pool.bCachelist = s.pool.bCachelist ∧ pool.bNext = s.pool.bNext))
    (hpoints : ∀ f, p = .searching f → f.PointsOwn) :
    BuffersOk ((s.withPool pool).setPhase i p) := by
  refine ⟨?_, ?_, ?_, ?_⟩
  · rw [ReaderSystem.owned_setPhase]
    exact hpool
  · intro j j' hj hj'
    rcases hothers with hothers | ⟨hout, -⟩
    · have honly : ∀ k, (((s.withPool pool).setPhase i p).phase k).Inside → k = i := by
        intro k hk
        by_contra hne
        rw [ReaderSystem.setPhase_of_ne hne] at hk
        exact hothers k hne hk
      exact (honly j hj).trans (honly j' hj').symm
    · have hold : ∀ k, (((s.withPool pool).setPhase i p).phase k).Inside →
          (s.phase k).Inside := by
        intro k hk
        by_cases heq : k = i
        · rw [heq, ReaderSystem.setPhase_self] at hk
          exact absurd hk hout
        · rwa [ReaderSystem.setPhase_of_ne heq] at hk
      exact h.inside (hold j hj) (hold j' hj')
  · intro j
    by_cases heq : j = i
    · rw [heq, ReaderSystem.setPhase_self]
      exact hrelies
    · rw [ReaderSystem.setPhase_of_ne heq]
      rcases hothers with hothers | ⟨-, hlist, hnext⟩
      · exact (h.relies j).outside (hothers j heq)
      · exact (h.relies j).congr hlist hnext
  · intro j f hj
    by_cases heq : j = i
    · rw [heq, ReaderSystem.setPhase_self] at hj
      exact hpoints f hj
    · rw [ReaderSystem.setPhase_of_ne heq] at hj
      exact h.points hj

/-- The steps that neither take a buffer nor give one back. -/
theorem BuffersOk.setPhase_kept (h : BuffersOk s) (howned : p.owned = (s.phase i).owned)
    (hpool : ∃ free, PoolShared pool free fun j => (s.phase j).owned) (hrelies : p.Relies pool)
    (hothers : (∀ j, j ≠ i → ¬ (s.phase j).Inside) ∨
      (¬ p.Inside ∧ pool.bCachelist = s.pool.bCachelist ∧ pool.bNext = s.pool.bNext))
    (hpoints : ∀ f, p = .searching f → f.PointsOwn) :
    BuffersOk ((s.withPool pool).setPhase i p) := by
  refine h.setPhase ?_ hrelies hothers hpoints
  rw [howned, Function.update_eq_self]
  exact hpool

theorem xtRound_inl {call : XtCall} {t : XtState} {f : XtFrame} (hround : xtRound call t = .inl f) :
    f.p = t.p ∧ f.bp = t.bp := by
  unfold xtRound at hround
  dsimp only at hround
  split_ifs at hround <;> cases hround <;> exact ⟨rfl, rfl⟩

namespace XtNext

variable {next : XtNext} {o : Option ℕ}

theorem phase_owned : next.phase.owned = none := by
  cases next <;> rfl

theorem leave_owned : (next.leave o).owned = o := by
  cases o with
  | none => exact phase_owned
  | some bp => rfl

theorem phase_outside : ¬ next.phase.Inside := by
  cases next <;> simp [XtNext.phase, ReaderPhase.Inside]

theorem leave_outside : ¬ (next.leave o).Inside := by
  cases o with
  | none => exact phase_outside
  | some bp => simp [XtNext.leave, ReaderPhase.Inside]

theorem phase_relies : next.phase.Relies pool := by
  cases next <;> trivial

theorem leave_relies : (next.leave o).Relies pool := by
  cases o with
  | none => exact phase_relies
  | some bp => trivial

theorem leave_ne_searching {f : XtFrame} : next.leave o ≠ .searching f := by
  cases o with
  | none => cases next <;> exact nofun
  | some bp => exact nofun

end XtNext

theorem ReaderStep.phase_of_ne (hstep : ReaderStep m calls j s s') (hne : i ≠ j) :
    s'.phase i = s.phase i := by
  cases hstep <;> exact ReaderSystem.setPhase_of_ne hne

theorem BuffersOk.step (h : BuffersOk s) (hapart : SectionsApart s i)
    (hstep : ReaderStep m calls i s s') : BuffersOk s' := by
  obtain ⟨free, hpool⟩ := h.pool
  have hrelies := h.relies i
  have hothers : (s.phase i).Inside → ∀ j, j ≠ i → ¬ (s.phase j).Inside :=
    fun hi j hne hj => hne (h.inside hj hi)
  cases hstep with
  | start hphase =>
      refine h.setPhase_kept (by rw [hphase]; rfl) h.pool trivial
        (.inr ⟨by simp [ReaderPhase.Inside], rfl, rfl⟩) ?_
      rintro f ⟨⟩
      exact .inl ⟨rfl, rfl⟩
  | @round f f' hphase hround =>
      obtain ⟨hp, hbp⟩ := xtRound_inl hround
      refine h.setPhase_kept (by rw [hphase]; exact hbp) h.pool trivial
        (.inr ⟨by simp [ReaderPhase.Inside], rfl, rfl⟩) ?_
      rintro f'' ⟨⟩
      have hpoints := h.points hphase
      unfold XtFrame.PointsOwn at hpoints ⊢
      rw [hp, hbp]
      exact hpoints
  | @leave f next hphase hround =>
      refine h.setPhase_kept (by rw [hphase]; exact XtNext.leave_owned) h.pool
        XtNext.leave_relies (.inr ⟨XtNext.leave_outside, rfl, rfl⟩) fun f' hsearching => ?_
      exact absurd hsearching XtNext.leave_ne_searching
  | @link bp next hphase =>
      have howner : (s.phase i).owned = some bp := by rw [hphase]; rfl
      exact h.setPhase_kept howner.symm ⟨free, hpool.setNext howner _⟩ (Function.update_self ..)
        (.inl fun j _ => hapart (.inl ⟨bp, next, hphase⟩) j) nofun
  | @push bp next hphase =>
      rw [hphase] at hrelies
      refine h.setPhase ⟨bp :: free, ?_⟩ XtNext.phase_relies
        (.inl (hothers (.inl ⟨bp, next, hphase⟩))) fun f hsearching => ?_
      · rw [XtNext.phase_owned]
        exact hpool.push (by rw [hphase]; rfl) hrelies
      · exact absurd hsearching (XtNext.leave_ne_searching (o := none))
  | @test t64 cmp pool hphase hready =>
      have hpool' : pool.bCachelist ≠ none ∧
          ∃ free', PoolShared pool free' fun j => (s.phase j).owned := by
        split at hready
        next hlist => exact hpool.bAllocate (Option.isNone_iff_eq_none.1 hlist) hready
        next hlist =>
          obtain rfl := Option.some.inj hready
          exact ⟨fun heq => hlist (Option.isNone_iff_eq_none.2 heq), free, hpool⟩
      exact h.setPhase_kept (by rw [hphase]; rfl) hpool'.2 hpool'.1
        (.inl fun j _ => hapart (.inr ⟨t64, cmp, hphase⟩) j) nofun
  | @take t64 bp cmp hphase hhead =>
      exact h.setPhase_kept (by rw [hphase]; rfl) h.pool hhead
        (.inl (hothers (.inr (.inl ⟨t64, cmp, hphase⟩)))) nofun
  | @fault t64 cmp hphase hhead =>
      rw [hphase] at hrelies
      exact absurd hhead hrelies
  | @unlink bp t64 cmp hphase =>
      rw [hphase] at hrelies
      exact h.setPhase (hpool.pop hrelies (by rw [hphase]; rfl)) trivial
        (.inl (hothers (.inr (.inr ⟨bp, t64, cmp, hphase⟩)))) nofun
  | @copy bp t64 cmp data hphase hread =>
      have howner : (s.phase i).owned = some bp := by rw [hphase]; rfl
      refine h.setPhase_kept howner.symm ⟨free, hpool.congr rfl (fun _ _ => rfl) rfl rfl⟩ trivial
        (.inr ⟨by simp [ReaderPhase.Inside], rfl, rfl⟩) ?_
      rintro f ⟨⟩
      refine .inr ⟨bp, rfl, congrArg PagePtr.data ?_⟩
      exact hpool.pages bp ((hpool.allocated bp).2 (.inr ⟨i, howner⟩))

theorem ReaderRun.buffersOk (h : ReaderRun m calls SectionsApart s) : BuffersOk s := by
  induction h with
  | @init pool hlist hcount =>
      refine ⟨⟨[], ⟨hlist, List.nodup_nil, ?_, nofun, nofun⟩, ?_⟩, ?_, fun _ => trivial, nofun⟩
      · intro bp
        rw [hcount]
        exact iff_of_false (Nat.not_lt_zero bp) (by rintro (h | ⟨i, h⟩) <;> cases h)
      · intro bp hbp
        rw [hcount] at hbp
        exact absurd hbp (Nat.not_lt_zero bp)
      · simp [ReaderPhase.Inside]
  | step _ hapart hstep ih => exact ih.step hapart hstep

end JfsReader
