import JfsReader.BlockRead

/-!
# The page buffers of the extent search

`bCachelist` heads an intrusive list of free buffers.  A buffer is named by
its number in allocation order; its page occupies `pageSize` bytes of `heap`
from `bData` on.
-/

namespace JfsReader

def nbuffer : ℕ := 8
def sizeofBuf : ℕ := 8

structure BufPool where
  bCachelist : Option ℕ
  bNext : ℕ → Option ℕ
  bData : ℕ → ℕ
  heap : Bytes
  nBuffer : ℕ

/-- The outcome of `bRead`: the process exited for want of memory, a null
buffer was dereferenced, the read failed, or buffer `bp` holds the page. -/
inductive BReadResult
  | exited
  | faulted
  | failed (pool : BufPool)
  | done (bp : ℕ) (pool : BufPool)

namespace BufPool

def bRelease (pool : BufPool) (bp : ℕ) : BufPool :=
  { pool with
    bNext := Function.update pool.bNext bp pool.bCachelist
    bCachelist := some bp }

/-- The loop of `bAllocate`, over the buffers from `bp` and the pages from
`buffer` on. -/
def bAllocateLoop : ℕ → ℕ → ℕ → BufPool → BufPool
  | 0, _, _, pool => pool
  | n + 1, bp, buffer, pool =>
      bAllocateLoop n (bp + 1) (buffer + pageSize)
        { pool with
          bData := Function.update pool.bData bp buffer
          bNext := Function.update pool.bNext bp pool.bCachelist
          bCachelist := some bp }

def bAllocate (m : Mount) (pool : BufPool) : Option BufPool :=
  match m.malloc (nbuffer * sizeofBuf), m.malloc (nbuffer * pageSize) with
  | some _, some _ =>
      let pool' := bAllocateLoop nbuffer pool.nBuffer (pool.nBuffer * pageSize) pool
      some { pool' with nBuffer := pool.nBuffer + nbuffer }
  | _, _ => none

/-- The heap, when `data` is what `address` sees of it. -/
def poke (address : ℕ) (data : Bytes) : Bytes := data.shift (-address)

/-- `bRead`, with the disk read as a parameter so that a failing one can be
put in its place. -/
def bRead (m : Mount) (read : ℕ → ℕ → Bytes → Option Bytes)
    (xaddr xlen : ℕ) (pool : BufPool) : BReadResult :=
  match (if pool.bCachelist.isNone then pool.bAllocate m else some pool) with
  | none => .exited
  | some pool =>
      match pool.bCachelist with
      | none => .faulted
      | some bp =>
          let pool := { pool with bCachelist := pool.bNext bp }
          let off := xaddr <<< m.l2bsize
          let len := xlen <<< m.l2bsize
          match read off len (pool.heap.shift (pool.bData bp)) with
          | some data => .done bp { pool with heap := poke (pool.bData bp) data }
          | none => .failed (pool.bRelease bp)

@[simp] theorem poke_shift (address : ℕ) (data : Bytes) :
    (poke address data).shift address = data := by
  funext i
  simp [poke]

theorem bAllocateLoop_bCachelist (n bp buffer : ℕ) (pool : BufPool) :
    (bAllocateLoop (n + 1) bp buffer pool).bCachelist = some (bp + n) := by
  induction n generalizing bp buffer pool with
  | zero => rfl
  | succ n ih =>
      rw [bAllocateLoop, ih]
      congr 1
      omega

theorem bAllocate_head {m : Mount} {pool pool' : BufPool} (h : pool.bAllocate m = some pool') :
    pool'.bCachelist = some (pool.nBuffer + 7) := by
  unfold bAllocate at h
  split at h
  next =>
    obtain rfl := Option.some.inj h
    exact bAllocateLoop_bCachelist 7 pool.nBuffer (pool.nBuffer * pageSize) pool
  next => contradiction

theorem exists_bAllocate {m : Mount} (hmem : m.HasMemory) (pool : BufPool) :
    ∃ pool', pool.bAllocate m = some pool' := by
  obtain ⟨headers, hheaders⟩ := hmem.exists_malloc (nbuffer * sizeofBuf)
  obtain ⟨pages, hpages⟩ := hmem.exists_malloc (nbuffer * pageSize)
  unfold bAllocate
  rw [hheaders, hpages]
  exact ⟨_, rfl⟩

/-- The memory at the first free buffer. -/
def firstFree (pool : BufPool) : Bytes :=
  match pool.bCachelist with
  | none => Bytes.sparse []
  | some bp => pool.heap.shift (pool.bData bp)

/-- The memory at the buffer that the next `bRead` takes. -/
def nextBuffer (m : Mount) (pool : BufPool) : Bytes :=
  match pool.bCachelist with
  | none => ((pool.bAllocate m).getD pool).firstFree
  | some _ => pool.firstFree

theorem nextBuffer_bRelease {m : Mount} (pool : BufPool) (bp : ℕ) :
    (pool.bRelease bp).nextBuffer m = pool.heap.shift (pool.bData bp) := rfl

theorem read_page (m : Mount) (xaddr : ℕ) (buffer : Bytes) :
    m.ujfsReadDiskblocks (xaddr <<< m.l2bsize) ((pageSize >>> m.l2bsize) <<< m.l2bsize) buffer =
      some (buffer.memcpy (m.block xaddr) pageSize) := by
  have hlen : (pageSize >>> m.l2bsize) <<< m.l2bsize = pageSize := by
    rw [Nat.shiftRight_eq_div_pow, Nat.shiftLeft_eq]
    exact Nat.div_mul_cancel m.bsize_dvd_pageSize
  rw [hlen]
  rfl

/-- A read of a page ends the process or fills the buffer it takes. -/
theorem bRead_cases (m : Mount) (xaddr : ℕ) (pool : BufPool) :
    (pool.bCachelist = none ∧ pool.bAllocate m = none ∧
      bRead m m.ujfsReadDiskblocks xaddr (pageSize >>> m.l2bsize) pool = .exited) ∨
    ∃ bp pool', bRead m m.ujfsReadDiskblocks xaddr (pageSize >>> m.l2bsize) pool =
        .done bp pool' ∧
      pool'.heap.shift (pool'.bData bp) =
        (pool.nextBuffer m).memcpy (m.block xaddr) pageSize := by
  have hready : (pool.bCachelist = none ∧ pool.bAllocate m = none) ∨ ∃ pool' bp,
      (if pool.bCachelist.isNone then pool.bAllocate m else some pool) = some pool' ∧
        pool'.bCachelist = some bp ∧
        pool.nextBuffer m = pool'.heap.shift (pool'.bData bp) := by
    unfold nextBuffer
    cases hlist : pool.bCachelist with
    | none =>
        cases hallocate : pool.bAllocate m with
        | none => exact .inl ⟨rfl, rfl⟩
        | some pool' =>
            refine .inr ⟨pool', _, rfl, bAllocate_head hallocate, ?_⟩
            simp only [Option.getD_some, firstFree, bAllocate_head hallocate]
    | some bp =>
        refine .inr ⟨pool, bp, rfl, hlist, ?_⟩
        simp only [firstFree, hlist]
  unfold bRead
  rcases hready with ⟨hlist, hallocate⟩ | ⟨pool', bp, hpool, hbp, hbuffer⟩
  · exact .inl ⟨hlist, hallocate, by simp [hlist, hallocate]⟩
  · right
    rw [hpool]
    simp only [hbp, read_page]
    refine ⟨bp, _, rfl, ?_⟩
    simp only [poke_shift, hbuffer]

theorem bRead_eq {m : Mount} (hmem : m.HasMemory) (xaddr : ℕ) (pool : BufPool) :
    ∃ bp pool', bRead m m.ujfsReadDiskblocks xaddr (pageSize >>> m.l2bsize) pool =
        .done bp pool' ∧
      pool'.heap.shift (pool'.bData bp) =
        (pool.nextBuffer m).memcpy (m.block xaddr) pageSize := by
  rcases bRead_cases m xaddr pool with ⟨-, hallocate, -⟩ | hdone
  · obtain ⟨pool', hpool'⟩ := exists_bAllocate hmem pool
    rw [hpool'] at hallocate
    contradiction
  · exact hdone

theorem bRead_page {m : Mount} (hmem : m.HasMemory) (xaddr : ℕ) (pool : BufPool) :
    ∃ bp pool', bRead m m.ujfsReadDiskblocks xaddr (pageSize >>> m.l2bsize) pool =
        .done bp pool' ∧
      Bytes.Agree pageSize (pool'.heap.shift (pool'.bData bp)) (m.block xaddr) := by
  obtain ⟨bp, pool', hread, hpage⟩ := bRead_eq hmem xaddr pool
  refine ⟨bp, pool', hread, ?_⟩
  rw [hpage]
  exact Bytes.Agree.memcpy_src _ _ _

end BufPool

end JfsReader
