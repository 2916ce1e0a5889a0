import JfsReader.ExtentLookupCorrect
import JfsReader.FailedLoads

/-!
# `pager_read_page`

A page of a file is read through the file's extent tree, in units of 4096 bytes,
and its tail past the end of the file is cleared.  Pages past the end are new
zero pages; a page before the end that no extent maps is an error.  `store_read`
and the anonymous `mmap` are taken as parameters, and so is the width of
`vm_offset_t`, which the sum `page + vm_page_size` wraps around at.
-/

namespace JfsReader

open StepMachine

inductive WordSize
  | w32
  | w64
deriving DecidableEq

def WordSize.bits : WordSize → ℕ
  | .w32 => 32
  | .w64 => 64

/-- An `off_t`, as it is compared with a `vm_offset_t`. -/
def WordSize.offset (w : WordSize) (x : ℤ) : ℤ :=
  match w with
  | .w32 => x
  | .w64 => x % 2 ^ 64

def vmPageSize : ℕ := 4096

def eio : ℕ := 0x40000005

/-- `store_read` gives the content of its buffer and the amount read. -/
structure Store where
  log2BlockSize : ℕ
  read : ℤ → ℕ → Bytes × ℕ

/-- What `pager_read_page` looks at of a `user_pager_info` and its node. -/
inductive PageSource
  | fileData (cacheId : ℕ) (stSize : ℤ)
  | disk

/-- The return value, `*buf` if it was set, and the page buffers of
`xt_Lookup`. -/
inductive PageReadEnd
  | returned (err : ErrorT) (buf : Option Bytes) (pool : BufPool)
  | exited
  | faulted

def zeroPage : Bytes := fun _ => 0

/-- `bzero` on the last `overrun` bytes of a page. -/
def clearTail (buf : Bytes) (overrun : ℕ) : Bytes :=
  fun i => if vmPageSize - overrun ≤ i ∧ i < vmPageSize then 0 else buf i

def overrunOf (w : WordSize) (page : ℕ) (stSize : ℤ) : ℕ :=
  let sum : ℤ := ((page + vmPageSize) % 2 ^ w.bits : ℕ)
  if sum > w.offset stSize then ((sum - w.offset stSize) % 2 ^ w.bits).toNat else 0

/-- From the call of `store_read` on, whose return value is not looked at. -/
def readStorePage (store : Store) (addr : ℤ) (overrun : ℕ) (pool : BufPool) : PageReadEnd :=
  let out := store.read addr vmPageSize
  if out.2 ≠ vmPageSize then .returned (.code eio) (some out.1) pool
  else if overrun ≠ 0 then .returned .success (some (clearTail out.1 overrun)) pool
  else .returned .success (some out.1) pool

/-- What follows `xt_Lookup`, which has returned `rc`. -/
def readFilePage (store : Store) (w : WordSize) (page : ℕ) (stSize rc xaddr : ℤ)
    (pool : BufPool) : PageReadEnd :=
  if rc ≠ 0 then
    if (page : ℤ) ≥ w.offset stSize then .returned .success (some zeroPage) pool
    else .returned (.code 1) none pool
  else
    -- `daddr_t` has 32 bits
    let addr := int32 (xaddr * 4096 / 2 ^ store.log2BlockSize)
    if (page : ℤ) ≥ w.offset stSize then .returned .success (some zeroPage) pool
    else readStorePage store addr (overrunOf w page stSize) pool

def pageCall (inode : Dinode) (page : ℕ) (xaddr : ℤ) : XtCall :=
  ⟨⟨inode.diBtroot⟩, ((page / 4096 : ℕ) : ℤ), xaddr, vmPageSize⟩

/-- `pager_read_page`; `xaddr` is the content of the local variable before the
call of `xt_Lookup`. -/
def pagerReadPage (m : Mount) (store : Store) (w : WordSize) (fuel : ℕ) (upi : PageSource)
    (page : ℕ) (xaddr : ℤ) (pool : BufPool) : Option PageReadEnd :=
  match upi with
  | .disk =>
      some (readStorePage store (int32 ((page >>> store.log2BlockSize : ℕ) : ℤ)) 0 pool)
  | .fileData cacheId stSize =>
      match m.readInode fuel cacheId with
      | none => none
      | some none => some (.returned (.code 1) none pool)
      | some (some inode) =>
          match run (xtStep m m.ujfsReadDiskblocks (pageCall inode page xaddr)) fuel
              (xtStart (pageCall inode page xaddr) pool) with
          | .inl _ => none
          | .inr .exited => some .exited
          | .inr .faulted => some .faulted
          | .inr (.returned rc xaddr _ pool) =>
              some (readFilePage store w page stSize rc xaddr pool)

/-! ## What a page ought to hold -/

/-- A regular file whose inode is delivered and whose extent tree is
well-formed. -/
structure IsRegularFile (m : Mount) (cacheId : ℕ) (inode : Dinode) : Prop where
  reads : ReadsInode m cacheId inode
  mode : inode.diMode &&& ifmt = ifreg
  tree : XtTree m ⟨inode.diBtroot⟩

/-- The extent that maps a page-sized block of the file. -/
def MapsBlock (m : Mount) (inode : Dinode) (block : ℕ) (e : Xad) : Prop :=
  LeafExtent m ⟨inode.diBtroot⟩ e ∧ e.Covers block

/-- Where the block is on the disk, in bytes, if blocks have 4096 of them. -/
def blockPosition (e : Xad) (block : ℕ) : ℕ :=
  (addressXAD e + (block - offsetXAD e)) * 4096

/-- A store that delivers the disk from its block numbers on. -/
structure StoreReads (m : Mount) (store : Store) : Prop where
  log2_ge : 9 ≤ store.log2BlockSize
  log2_le : store.log2BlockSize ≤ 12
  count : ∀ addr, 0 ≤ addr → (store.read addr vmPageSize).2 = vmPageSize
  bytes : ∀ addr : ℕ, Bytes.Agree vmPageSize (store.read addr vmPageSize).1
    (m.image.shift (addr <<< store.log2BlockSize))

variable {m : Mount} {store : Store} {w : WordSize} {cacheId : ℕ} {inode : Dinode}
  {stSize : ℤ} {page k : ℕ} {e : Xad}

theorem WordSize.offset_of_bounds (hlo : 0 ≤ stSize) (hhi : stSize < 2 ^ 63) :
    w.offset stSize = stSize := by
  cases w with
  | w32 => rfl
  | w64 => exact Int.emod_eq_of_lt hlo (by omega)

theorem readFilePage_of_before (hhi : stSize < 2 ^ 63) (hbefore : page < stSize) (xaddr : ℤ)
    (pool : BufPool) :
    readFilePage store w page stSize 0 xaddr pool =
      readStorePage store (int32 (xaddr * 4096 / 2 ^ store.log2BlockSize))
        (overrunOf w page stSize) pool := by
  unfold readFilePage
  rw [if_neg (by simp), w.offset_of_bounds (by omega) hhi, if_neg (by omega)]

theorem readFilePage_of_miss (hhi : stSize < 2 ^ 63) (hbefore : page < stSize) {rc : ℤ}
    (hrc : rc ≠ 0) (xaddr : ℤ) (pool : BufPool) :
    readFilePage store w page stSize rc xaddr pool = .returned (.code 1) none pool := by
  unfold readFilePage
  rw [if_pos hrc, w.offset_of_bounds (by omega) hhi, if_neg (by omega)]

theorem readFilePage_of_past (hlo : 0 ≤ stSize) (hhi : stSize < 2 ^ 63) (hpast : stSize ≤ page)
    (rc xaddr : ℤ) (pool : BufPool) :
    readFilePage store w page stSize rc xaddr pool =
      .returned .success (some zeroPage) pool := by
  unfold readFilePage
  simp [w.offset_of_bounds hlo hhi, hpast]

/-- A call that has ended with enough fuel. -/
def PageReads (m : Mount) (store : Store) (w : WordSize) (cacheId : ℕ) (stSize : ℤ)
    (page : ℕ) (xaddr : ℤ) (pool : BufPool) (out : PageReadEnd) : Prop :=
  ∃ n, ∀ fuel, n ≤ fuel →
    pagerReadPage m store w fuel (.fileData cacheId stSize) page xaddr pool = some out

variable {xaddr : ℤ} {pool : BufPool}

theorem PageReads.unique {out out' : PageReadEnd}
    (h : PageReads m store w cacheId stSize page xaddr pool out)
    (h' : PageReads m store w cacheId stSize page xaddr pool out') : out = out' := by
  obtain ⟨n, hn⟩ := h
  obtain ⟨n', hn'⟩ := h'
  have hleft := hn (max n n') (Nat.le_max_left _ _)
  have hright := hn' (max n n') (Nat.le_max_right _ _)
  exact Option.some.inj (hleft.symm.trans hright)

theorem ReadsInode.pageReads (h : ReadsInode m cacheId inode) {rc xaddr' xlen : ℤ}
    {pool' : BufPool}
    (hlookup : XtLookupEnds m (pageCall inode page xaddr) pool (.returned rc xaddr' xlen pool'))
    (store : Store) (w : WordSize) (stSize : ℤ) :
    PageReads m store w cacheId stSize page xaddr pool
      (readFilePage store w page stSize rc xaddr' pool') := by
  obtain ⟨k, hread⟩ := h
  obtain ⟨n, hrun⟩ := hlookup
  refine ⟨max k n, fun fuel hfuel => ?_⟩
  unfold pagerReadPage
  simp only [readInode_of_le hread (show k ≤ fuel by omega),
    run_of_le hrun (show n ≤ fuel by omega)]

theorem IsRegularFile.pageReads (h : IsRegularFile m cacheId inode) (hmem : m.HasMemory)
    (store : Store) (w : WordSize) (stSize : ℤ) (page : ℕ) (xaddr : ℤ) (pool : BufPool) :
    ∃ rc xaddr' pool', PageReads m store w cacheId stSize page xaddr pool
        (readFilePage store w page stSize rc xaddr' pool') ∧
      ((∃ e, MapsBlock m inode (page / 4096) e ∧ rc = 0 ∧
          xaddr' = addressXAD e + (((page / 4096 : ℕ) : ℤ) - offsetXAD e)) ∨
        ((∀ e, ¬ MapsBlock m inode (page / 4096) e) ∧ rc ≠ 0)) := by
  have htree : XtTree m (pageCall inode page xaddr).root := h.tree
  obtain ⟨out, hends, hanswer⟩ := htree.answers hmem (Int.natCast_nonneg _)
    (show (1 : ℤ) ≤ vmPageSize by decide) (show (vmPageSize : ℤ) < 2 ^ 31 by decide) pool
  rcases hanswer with ⟨e, he, hcovers, pool', rfl⟩ | ⟨hnone, rc, pool', hrc, rfl⟩
  · exact ⟨_, _, _, h.reads.pageReads hends store w stSize, .inl ⟨e, ⟨he, hcovers⟩, rfl, rfl⟩⟩
  · exact ⟨_, _, _, h.reads.pageReads hends store w stSize,
      .inr ⟨fun e hmaps => hnone e hmaps.1 hmaps.2, hrc⟩⟩

/-! ## The end of the file and the store -/

theorem overrunOf_eq (hhi : stSize < 2 ^ 63) (haligned : page % 4096 = 0)
    (hpage : page < 2 ^ w.bits) (hbefore : page < stSize) :
    overrunOf w page stSize =
      if page + 4096 = 2 ^ w.bits then 0 else (page + 4096 - stSize).toNat := by
  unfold overrunOf vmPageSize
  rw [w.offset_of_bounds (by omega) hhi]
  split
  next hlast =>
    rw [hlast, Nat.mod_self]
    exact if_neg (by push_cast; omega)
  next hnotLast =>
    have hbits : 2 ^ w.bits % 4096 = 0 := by cases w <;> rfl
    have hlarge : 4096 < 2 ^ w.bits := by cases w <;> decide
    have hsum : (page + 4096) % 2 ^ w.bits = page + 4096 := Nat.mod_eq_of_lt (by omega)
    rw [hsum]
    push_cast
    split
    next hover =>
      rw [Int.emod_eq_of_lt (by omega)]
      have : (4096 : ℤ) < 2 ^ w.bits := by exact_mod_cast hlarge
      omega
    next hwithin => omega

theorem clearTail_zero (buf : Bytes) : clearTail buf 0 = buf := by
  funext i
  exact if_neg (by omega)

theorem readStorePage_of_count {addr : ℤ} {overrun : ℕ}
    (hcount : (store.read addr vmPageSize).2 = vmPageSize) (pool : BufPool) :
    readStorePage store addr overrun pool =
      .returned .success (some (clearTail (store.read addr vmPageSize).1 overrun)) pool := by
  unfold readStorePage
  simp only [hcount, ne_eq, not_true_eq_false, if_false]
  split
  next => rfl
  next hnone =>
    have hzero : overrun = 0 := by simpa using hnone
    rw [hzero, clearTail_zero]

theorem StoreReads.readStorePage (h : StoreReads m store) (addr overrun : ℕ) (pool : BufPool) :
    ∃ buf, readStorePage store addr overrun pool = .returned .success (some buf) pool ∧
      ∀ i : ℕ, i < 4096 → buf i =
        if i < 4096 - overrun then m.image ((addr <<< store.log2BlockSize) + i) else 0 := by
  refine ⟨_, readStorePage_of_count (h.count addr (Int.natCast_nonneg _)) pool, fun i hi => ?_⟩
  unfold clearTail vmPageSize
  by_cases hkept : i < 4096 - overrun
  · rw [if_neg (by omega), if_pos hkept]
    exact h.bytes addr i (Int.natCast_nonneg i) (by exact_mod_cast hi)
  · rw [if_pos (by omega), if_neg hkept]

theorem MapsBlock.offset_le {block : ℕ} (h : MapsBlock m inode block e) : offsetXAD e ≤ block := by
  have := h.2.1
  omega

theorem MapsBlock.unique {block : ℕ} {e' : Xad} (htree : XtTree m ⟨inode.diBtroot⟩)
    (h : MapsBlock m inode block e) (h' : MapsBlock m inode block e') : e = e' :=
  htree.subtree.covers_unique h.1 h'.1 h.2 h'.2

/-- The store block that is asked for, as long as its number has 31 bits. -/
theorem StoreReads.store_block (h : StoreReads m store) {block : ℕ}
    (hmaps : MapsBlock m inode block e)
    (hpos : blockPosition e block / 2 ^ store.log2BlockSize < 2 ^ 31) :
    int32 (((addressXAD e : ℤ) + ((block : ℤ) - offsetXAD e)) * 4096 /
        2 ^ store.log2BlockSize) =
      ((blockPosition e block / 2 ^ store.log2BlockSize : ℕ) : ℤ) ∧
    (blockPosition e block / 2 ^ store.log2BlockSize) <<< store.log2BlockSize =
      blockPosition e block := by
  have hle := hmaps.offset_le
  have hcast : ((addressXAD e : ℤ) + ((block : ℤ) - offsetXAD e)) * 4096 /
      2 ^ store.log2BlockSize =
        ((blockPosition e block / 2 ^ store.log2BlockSize : ℕ) : ℤ) := by
    unfold blockPosition
    push_cast [Nat.cast_sub hle]
    rfl
  constructor
  · rw [hcast]
    have hnonneg := Int.natCast_nonneg (blockPosition e block / 2 ^ store.log2BlockSize)
    exact int32_of_bounds (le_trans (by decide) hnonneg) (by exact_mod_cast hpos)
  · have hdvd : 2 ^ store.log2BlockSize ∣ blockPosition e block := by
      have hpage : 2 ^ store.log2BlockSize ∣ 2 ^ 12 := Nat.pow_dvd_pow 2 h.log2_le
      exact hpage.trans (Dvd.intro_left _ rfl)
    rw [Nat.shiftLeft_eq, Nat.div_mul_cancel hdvd]

/-- A page before the end of the file, in a block that is mapped. -/
theorem IsRegularFile.mapped_page (h : IsRegularFile m cacheId inode) (hmem : m.HasMemory)
    (hstore : StoreReads m store) (hhi : stSize < 2 ^ 63) (hbefore : page < stSize)
    (hmaps : MapsBlock m inode (page / 4096) e)
    (hpos : blockPosition e (page / 4096) / 2 ^ store.log2BlockSize < 2 ^ 31)
    (w : WordSize) (xaddr : ℤ) (pool : BufPool) :
    ∃ buf pool',
      PageReads m store w cacheId stSize page xaddr pool
        (.returned .success (some buf) pool') ∧
      ∀ i : ℕ, i < 4096 → buf i =
        if i < 4096 - overrunOf w page stSize then
          m.image (blockPosition e (page / 4096) + i)
        else 0 := by
  obtain ⟨rc, xaddr', pool', hreads, hanswer⟩ :=
    h.pageReads hmem store w stSize page xaddr pool
  rcases hanswer with ⟨e', hmaps', rfl, rfl⟩ | ⟨hnone, -⟩
  · obtain rfl := hmaps'.unique h.tree hmaps
    obtain ⟨haddr, hshift⟩ := hstore.store_block hmaps hpos
    obtain ⟨buf, hbuf, hbytes⟩ := hstore.readStorePage
      (blockPosition e' (page / 4096) / 2 ^ store.log2BlockSize) (overrunOf w page stSize) pool'
    refine ⟨buf, pool', ?_, by simpa only [hshift] using hbytes⟩
    rwa [readFilePage_of_before hhi hbefore, haddr, hbuf] at hreads
  · exact absurd hmaps (hnone e)

/-! ## Paging in a file -/

/-- A page past the end is zero; a mapped page before the end holds the bytes of
its block as far as the file reaches, and zeros from there on. -/
def DeliversPage (m : Mount) (store : Store) (w : WordSize) (cacheId : ℕ) (inode : Dinode)
    (stSize : ℤ) (page : ℕ) (xaddr : ℤ) (pool : BufPool) : Prop :=
  (stSize ≤ page → ∃ pool', PageReads m store w cacheId stSize page xaddr pool
    (.returned .success (some zeroPage) pool')) ∧
  (page < stSize → ∀ e, MapsBlock m inode (page / 4096) e → ∃ buf pool',
    PageReads m store w cacheId stSize page xaddr pool (.returned .success (some buf) pool') ∧
    ∀ i : ℕ, i < 4096 → buf i =
      if page + i < stSize then m.image (blockPosition e (page / 4096) + i) else 0)

theorem IsRegularFile.page_past_end (h : IsRegularFile m cacheId inode) (hmem : m.HasMemory)
    (hlo : 0 ≤ stSize) (hhi : stSize < 2 ^ 63) (hpast : stSize ≤ page) (store : Store)
    (w : WordSize) (xaddr : ℤ) (pool : BufPool) :
    ∃ pool', PageReads m store w cacheId stSize page xaddr pool
      (.returned .success (some zeroPage) pool') := by
  obtain ⟨rc, xaddr', pool', hreads, -⟩ := h.pageReads hmem store w stSize page xaddr pool
  rw [readFilePage_of_past hlo hhi hpast] at hreads
  exact ⟨pool', hreads⟩

/-- Every page is delivered, but for the last page of the address space: the sum
`page + vm_page_size` wraps around there, and what the block holds after the end
of the file is left in the page. -/
theorem page_delivered_iff (hmem : m.HasMemory) (hstore : StoreReads m store)
    (hfile : IsRegularFile m cacheId inode) (hlo : 0 ≤ stSize) (hhi : stSize < 2 ^ 63)
    (haligned : page % 4096 = 0) (hpage : page < 2 ^ w.bits)
    (hpos : ∀ e, MapsBlock m inode (page / 4096) e →
      blockPosition e (page / 4096) / 2 ^ store.log2BlockSize < 2 ^ 31)
    (xaddr : ℤ) (pool : BufPool) :
    DeliversPage m store w cacheId inode stSize page xaddr pool ↔
      (page + 4096 = 2 ^ w.bits → page < stSize → ∀ e, MapsBlock m inode (page / 4096) e →
        ∀ i : ℕ, stSize ≤ page + i → i < 4096 →
          m.image (blockPosition e (page / 4096) + i) = 0) := by
  constructor
  · rintro ⟨-, hbeforeEnd⟩ hlast hbefore e hmaps i hafter hi
    obtain ⟨buf, pool', hreads, hbytes⟩ := hbeforeEnd hbefore e hmaps
    obtain ⟨buf', pool'', hreads', hbytes'⟩ := hfile.mapped_page hmem hstore hhi hbefore
      hmaps (hpos e hmaps) w xaddr pool
    cases hreads.unique hreads'
    have hzero := hbytes i hi
    rw [if_neg (by omega)] at hzero
    have hkept := hbytes' i hi
    rw [overrunOf_eq hhi haligned hpage hbefore, if_pos hlast, if_pos (by omega)] at hkept
    exact hkept.symm.trans hzero
  · intro hclean
    refine ⟨fun hpast => hfile.page_past_end hmem hlo hhi hpast store w xaddr pool, ?_⟩
    intro hbefore e hmaps
    obtain ⟨buf, pool', hreads, hbytes⟩ := hfile.mapped_page hmem hstore hhi hbefore
      hmaps (hpos e hmaps) w xaddr pool
    refine ⟨buf, pool', hreads, fun i hi => ?_⟩
    rw [hbytes i hi, overrunOf_eq hhi haligned hpage hbefore]
    by_cases hlast : page + 4096 = 2 ^ w.bits
    · rw [if_pos hlast, if_pos (by omega)]
      split
      next => rfl
      next hafter => exact hclean hlast hbefore e hmaps i (by omega) hi
    · rw [if_neg hlast]
      by_cases hinside : (page : ℤ) + i < stSize
      · rw [if_pos (by omega), if_pos hinside]
      · rw [if_neg (by omega), if_neg hinside]

/-! A file of one page at its start and a part of a page at 4 GiB, in blocks 50
and 51, with nothing mapped between them. -/

/-- Inode 2 of a file system with one inode extent, at byte 123904. -/
def fileImage (l2bsize : ℕ) (file : List (ℕ × UInt8)) : Bytes :=
  let scale : UInt8 := UInt8.ofNat (2 ^ (12 - l2bsize))
  Bytes.sparse ([(53488, 2), (53490, 3), (53512, 2 * scale), (53516, 20 * scale),
    (89088, 4 * scale), (89092, 30 * scale), (123957, 0x80), (124144, 2)] ++ file)

def sparseFileMount : Mount where
  image := fileImage 12 [(123928, 50), (123929, 0xF0), (123930, 0xFF), (123931, 0xFF),
    (123958, 2), (124146, 4), (124168, 1), (124172, 50),
    (124180, 0xFF), (124181, 0xFF), (124182, 0x0F), (124184, 1), (124188, 51),
    (204800, 104), (208896, 105), (208996, 106)]
  l2bsize := 12
  l2bsize_ge := Mount.pageBlocks_ge
  l2bsize_le := Mount.pageBlocks_le
  malloc := fun _ => some (Bytes.sparse [])

def sparseFile : Dinode := sparseFileMount.inodeAt 123904

/-- A store that delivers an image and has no blocks below the first one. -/
def imageStore (image : Bytes) (log2BlockSize : ℕ) : Store where
  log2BlockSize := log2BlockSize
  read := fun addr amount =>
    if 0 ≤ addr then (image.shift (addr.toNat <<< log2BlockSize), amount) else (zeroPage, 0)

theorem imageStore_reads (hge : 9 ≤ k) (hle : k ≤ 12) : StoreReads m (imageStore m.image k) where
  log2_ge := hge
  log2_le := hle
  count := by
    intro addr hnonneg
    simp [imageStore, hnonneg]
  bytes := by
    intro addr i hi
    simp [imageStore]

theorem sparseFileMount_file : IsRegularFile sparseFileMount 2 sparseFile := by
  have hfind : findInode sparseFileMount 3 (2 % 2 ^ 32) filesystemI = some (some 123904) := rfl
  refine ⟨.of_findInode (fun _ => rfl) hfind, by decide, ?_, ?_⟩
  · refine .leaf (by decide) (by decide) ⟨by decide, by decide, ?_⟩
    have hnext : (XtPage.mk sparseFile.diBtroot).nextindex = 4 := by decide
    intro i j hlo hij hhi
    have hstart : xtEntryStart = 2 := rfl
    obtain rfl : i = 2 := by omega
    obtain rfl : j = 3 := by omega
    decide
  · intro hinternal
    exact absurd hinternal (by decide)

theorem sparseFile_nextindex : (XtPage.mk sparseFile.diBtroot).nextindex = 4 := by decide

theorem sparseFile_maps_last :
    MapsBlock sparseFileMount sparseFile (0xFFFFF000 / 4096)
      ((XtPage.mk sparseFile.diBtroot).xad 3) :=
  ⟨.leaf (by decide) (by decide) (by decide), by decide, by decide⟩

theorem sparseFile_position (e : Xad)
    (hmaps : MapsBlock sparseFileMount sparseFile (0xFFFFF000 / 4096) e) :
    blockPosition e (0xFFFFF000 / 4096) = 208896 := by
  rw [hmaps.unique sparseFileMount_file.tree sparseFile_maps_last]
  decide

theorem page_delivered_iff_tail :
    ∃ buf pool', PageReads sparseFileMount (imageStore sparseFileMount.image 9) .w64 2
        0xFFFFF032 0xFFFFF000 0 emptyPool (.returned .success (some buf) pool') ∧
      buf 0 = 105 ∧ buf 100 = 0 := by
  have hdelivered := (@page_delivered_iff sparseFileMount _ .w64 2 sparseFile 0xFFFFF032
    0xFFFFF000 (fun _ => rfl) (imageStore_reads (k := 9) (by decide) (by decide))
    sparseFileMount_file (by decide) (by decide) (by decide) (by decide)
    (fun e hmaps => by rw [sparseFile_position e hmaps]; decide) 0 emptyPool).mpr
    (fun hlast => absurd hlast (by decide))
  obtain ⟨buf, pool', hreads, hbytes⟩ := hdelivered.2 (by decide) _ sparseFile_maps_last
  have hfirst := hbytes 0 (by decide)
  have hpast := hbytes 100 (by decide)
  rw [if_pos (by decide), sparseFile_position _ sparseFile_maps_last] at hfirst
  rw [if_neg (by decide)] at hpast
  exact ⟨buf, pool', hreads, hfirst, hpast⟩

/-- The sum of the last page below 4 GiB and `vm_page_size` is zero, and the file
ends 50 bytes into that page. -/
theorem last_page_not_delivered :
    IsRegularFile sparseFileMount 2 sparseFile ∧
      (readStat 2 sparseFile).stSize = 0xFFFFF032 ∧
      StoreReads sparseFileMount (imageStore sparseFileMount.image 9) ∧
      (∀ e, MapsBlock sparseFileMount sparseFile (0xFFFFF000 / 4096) e →
        blockPosition e (0xFFFFF000 / 4096) / 2 ^ 9 < 2 ^ 31) ∧
      ¬ DeliversPage sparseFileMount (imageStore sparseFileMount.image 9) .w32 2 sparseFile
        0xFFFFF032 0xFFFFF000 0 emptyPool := by
  have hstore := imageStore_reads (m := sparseFileMount) (k := 9) (by decide) (by decide)
  have hpos : ∀ e, MapsBlock sparseFileMount sparseFile (0xFFFFF000 / 4096) e →
      blockPosition e (0xFFFFF000 / 4096) / 2 ^ 9 < 2 ^ 31 := by
    intro e hmaps
    rw [sparseFile_position e hmaps]
    decide
  refine ⟨sparseFileMount_file, by decide, hstore, hpos, fun hdelivered => ?_⟩
  obtain ⟨buf, pool, hreads, hbytes⟩ := hdelivered.2 (by decide) _ sparseFile_maps_last
  obtain ⟨buf', pool', hreads', hbytes'⟩ := sparseFileMount_file.mapped_page (fun _ => rfl)
    hstore (show (0xFFFFF032 : ℤ) < 2 ^ 63 by decide) (by decide) sparseFile_maps_last
    (hpos _ sparseFile_maps_last) .w32 0 emptyPool
  cases hreads.unique hreads'
  have hclear := hbytes 100 (by decide)
  have hkept := hbytes' 100 (by decide)
  rw [if_neg (by decide)] at hclear
  rw [if_pos (by decide), sparseFile_position _ sparseFile_maps_last] at hkept
  exact absurd (hkept.symm.trans hclear) (by decide)

/-! ## Holes -/

/-- A page before the end of the file is delivered, as zeros if it is a hole. -/
def ReadsPage (m : Mount) (store : Store) (w : WordSize) (cacheId : ℕ) (inode : Dinode)
    (stSize : ℤ) (page : ℕ) (xaddr : ℤ) (pool : BufPool) : Prop :=
  ∃ buf pool',
    PageReads m store w cacheId stSize page xaddr pool (.returned .success (some buf) pool') ∧
    ((∀ e, ¬ MapsBlock m inode (page / 4096) e) → ∀ i : ℕ, i < 4096 → buf i = 0)

theorem IsRegularFile.hole_refused (h : IsRegularFile m cacheId inode) (hmem : m.HasMemory)
    (hhi : stSize < 2 ^ 63) (hbefore : page < stSize)
    (hhole : ∀ e, ¬ MapsBlock m inode (page / 4096) e) (store : Store) (w : WordSize)
    (xaddr : ℤ) (pool : BufPool) :
    ∃ pool', PageReads m store w cacheId stSize page xaddr pool
      (.returned (.code 1) none pool') := by
  obtain ⟨rc, xaddr', pool', hreads, hanswer⟩ :=
    h.pageReads hmem store w stSize page xaddr pool
  rcases hanswer with ⟨e, hmaps, -, -⟩ | ⟨-, hrc⟩
  · exact absurd hmaps (hhole e)
  · rw [readFilePage_of_miss hhi hbefore hrc] at hreads
    exact ⟨pool', hreads⟩

/-- Of the pages before the end of the file, exactly the mapped ones can be
read. -/
theorem page_readable_iff (hmem : m.HasMemory)
    (hstore : ∀ addr, (store.read addr vmPageSize).2 = vmPageSize)
    (hfile : IsRegularFile m cacheId inode) (hhi : stSize < 2 ^ 63) (hbefore : page < stSize)
    (w : WordSize) (xaddr : ℤ) (pool : BufPool) :
    ReadsPage m store w cacheId inode stSize page xaddr pool ↔
      ∃ e, MapsBlock m inode (page / 4096) e := by
  constructor
  · rintro ⟨buf, pool', hreads, -⟩
    by_contra hhole
    obtain ⟨pool'', hrefused⟩ := hfile.hole_refused hmem hhi hbefore
      (not_exists.mp hhole) store w xaddr pool
    cases hreads.unique hrefused
  · rintro ⟨e, hmaps⟩
    obtain ⟨rc, xaddr', pool', hreads, hanswer⟩ :=
      hfile.pageReads hmem store w stSize page xaddr pool
    rcases hanswer with ⟨e', hmaps', rfl, -⟩ | ⟨hnone, -⟩
    · rw [readFilePage_of_before hhi hbefore, readStorePage_of_count (hstore _)] at hreads
      exact ⟨_, pool', hreads, fun hhole => absurd hmaps (hhole e)⟩
    · exact absurd hmaps (hnone e)

theorem page_readable_iff_tail :
    ReadsPage sparseFileMount ⟨9, fun addr amount =>
        (sparseFileMount.image.shift (addr.toNat <<< 9), amount)⟩ .w32 2 sparseFile
      0xFFFFF032 0xFFFFF000 0 emptyPool :=
  (page_readable_iff (fun _ => rfl) (fun _ => rfl) sparseFileMount_file (by decide)
    (by decide) .w32 0 emptyPool).mpr ⟨_, sparseFile_maps_last⟩

theorem sparseFile_hole (e : Xad) : ¬ MapsBlock sparseFileMount sparseFile (4096 / 4096) e := by
  rintro ⟨hextent, hlo, hhi⟩
  cases hextent with
  | child hleaf => exact absurd hleaf (by decide)
  | @leaf _ i _ hfirst hnext =>
      rw [sparseFile_nextindex] at hnext
      have hstart : xtEntryStart = 2 := rfl
      obtain rfl | rfl : i = 2 ∨ i = 3 := by omega
      · exact absurd hhi (by decide)
      · exact absurd hlo (by decide)

/-- Block 1 of the file is a hole, long before its end. -/
theorem hole_not_readable :
    IsRegularFile sparseFileMount 2 sparseFile ∧
      (readStat 2 sparseFile).stSize = 0xFFFFF032 ∧
      ∀ store w, ¬ ReadsPage sparseFileMount store w 2 sparseFile 0xFFFFF032 4096 0
        emptyPool := by
  refine ⟨sparseFileMount_file, by decide, ?_⟩
  rintro store w ⟨buf, pool, hreads, -⟩
  obtain ⟨pool', hrefused⟩ := sparseFileMount_file.hole_refused (fun _ => rfl)
    (show (0xFFFFF032 : ℤ) < 2 ^ 63 by decide) (by decide) sparseFile_hole store w 0 emptyPool
  cases hreads.unique hrefused

end JfsReader
