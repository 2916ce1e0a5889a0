import JfsReader.InodeLocation
import JfsReader.PageRead

/-!
# The block unit of the pager

Extents count in blocks of `s_bsize` bytes, and `bRead`, `find_iag` and
`find_inode` shift by `s_l2bsize`.  `pager_read_page` divides the offset of a
page by 4096 and multiplies the address by 4096.  The two agree on file systems
with blocks of 4096 bytes and on no others; and since `daddr_t` has 32 bits they
agree only below store block `2 ^ 31`.
-/

namespace JfsReader

/-- Every file system block of the page is mapped, below store block `N`. -/
def PageMapped (m : Mount) (store : Store) (inode : Dinode) (page N : ℕ) : Prop :=
  ∀ i, i < 4096 → ∃ e, MapsBlock m inode ((page + i) / m.bsize) e ∧
    ((addressXAD e + ((page + i) / m.bsize - offsetXAD e)) <<< m.l2bsize) >>>
      store.log2BlockSize < N

/-- The page that is delivered holds the bytes of the file, with extents in units
of the block size of the file system. -/
def InBlockUnits (m : Mount) (store : Store) (w : WordSize) (cacheId : ℕ) (inode : Dinode)
    (stSize : ℤ) (page : ℕ) (xaddr : ℤ) (pool : BufPool) : Prop :=
  ∃ buf pool',
    PageReads m store w cacheId stSize page xaddr pool (.returned .success (some buf) pool') ∧
    ∀ i, i < 4096 → FileByte m ⟨inode.diBtroot⟩ (page + i) (buf i)

/-- All full pages of all files come out right, on file systems of one block
size. -/
def PagesInBlockUnits (l2bsize N : ℕ) : Prop :=
  ∀ (m : Mount) (store : Store) (w : WordSize) (cacheId : ℕ) (inode : Dinode) (stSize : ℤ)
    (page : ℕ) (xaddr : ℤ) (pool : BufPool),
    m.l2bsize = l2bsize → m.HasMemory → StoreReads m store → IsRegularFile m cacheId inode →
    stSize < 2 ^ 63 → page % 4096 = 0 → page < 2 ^ w.bits → page + 4096 ≤ stSize →
    PageMapped m store inode page N →
      InBlockUnits m store w cacheId inode stSize page xaddr pool

theorem pagesInBlockUnits_of_page_blocks {N : ℕ} (hN : N ≤ 2 ^ 31) :
    PagesInBlockUnits 12 N := by
  intro m store w cacheId inode stSize page xaddr pool hl2bsize hmem hstore hfile hhi
    haligned hpage hfull hmapped
  have hbsize : m.bsize = 4096 := by
    unfold Mount.bsize
    rw [hl2bsize]
    rfl
  obtain ⟨e, hmaps, hpos⟩ := hmapped 0 (by decide)
  rw [Nat.add_zero, hbsize] at hmaps hpos
  rw [hl2bsize, Nat.shiftLeft_eq, Nat.shiftRight_eq_div_pow] at hpos
  obtain ⟨buf, pool', hreads, hbytes⟩ := hfile.mapped_page hmem hstore hhi
    (by omega) hmaps (lt_of_lt_of_le hpos hN) w xaddr pool
  refine ⟨buf, pool', hreads, fun i hi => ⟨e, hmaps.1, ?_, ?_⟩⟩
  · rw [hbsize, show (page + i) / 4096 = page / 4096 by omega]
    exact hmaps.2
  · have hoverrun : overrunOf w page stSize = 0 := by
      rw [overrunOf_eq hhi haligned hpage (by omega)]
      split
      · rfl
      · omega
    rw [hbytes i hi, hoverrun, if_pos (by omega), hbsize, hl2bsize,
      show (page + i) / 4096 = page / 4096 by omega, show (page + i) % 4096 = i by omega,
      Nat.shiftLeft_eq]
    rfl

/-! ## Files that come out wrong -/

structure OneExtent (p : XtPage) (e : Xad) : Prop where
  isLeaf : p.isLeaf = true
  isInternal : p.isInternal = false
  nextindex : p.nextindex = 3
  xad : p.xad 2 = e

theorem OneExtent.tree {m : Mount} {p : XtPage} {e : Xad} (h : OneExtent p e) : XtTree m p := by
  have hstart : xtEntryStart = 2 := rfl
  have hcapacity : xtRootMaxSlot = 18 := rfl
  have hnext := h.nextindex
  refine ⟨.leaf h.isLeaf h.isInternal ⟨by omega, by omega, ?_⟩, ?_⟩
  · intro i j hlo hij hhi
    omega
  · intro hinternal
    rw [h.isInternal] at hinternal
    cases hinternal

theorem OneExtent.maps {m : Mount} {inode : Dinode} {e : Xad} {block : ℕ}
    (h : OneExtent ⟨inode.diBtroot⟩ e) (hcovers : e.Covers block) :
    MapsBlock m inode block e := by
  refine ⟨?_, hcovers⟩
  rw [← h.xad]
  exact .leaf h.isLeaf (by decide) (by rw [h.nextindex]; decide)

/-! A file of one page in the file system blocks from 1000 on.  The pager reads
the bytes from `1000 * 4096` on. -/

def smallBlockMount (size : Fin 3) : Mount where
  image := fileImage (9 + size) [(123929, 0x10), (124146, 3), (124168, 8), (124172, 0xE8),
    (124173, 3), (1000 * 2 ^ (9 + size.val), 104)]
  l2bsize := 9 + size
  l2bsize_ge := by omega
  l2bsize_le := by omega
  malloc := fun _ => some (Bytes.sparse [])

def smallBlockFile (size : Fin 3) : Dinode := (smallBlockMount size).inodeAt 123904

theorem smallBlockMount_findInode (size : Fin 3) :
    findInode (smallBlockMount size) 3 (2 % 2 ^ 32) filesystemI = some (some 123904) := by
  fin_cases size <;> rfl

def smallBlockExtent : Xad := ⟨0, 0, 8, 0, 1000⟩

theorem smallBlockFile_extent (size : Fin 3) :
    OneExtent ⟨(smallBlockFile size).diBtroot⟩ smallBlockExtent := by
  fin_cases size <;> exact ⟨by decide, by decide, by decide, by decide⟩

theorem smallBlockMount_file (size : Fin 3) :
    IsRegularFile (smallBlockMount size) 2 (smallBlockFile size) where
  reads := .of_findInode (fun _ => rfl) (smallBlockMount_findInode size)
  mode := by fin_cases size <;> decide
  tree := (smallBlockFile_extent size).tree

theorem smallBlockMount_mapped (size : Fin 3) {N : ℕ} (hN : 2 ^ 10 ≤ N) :
    PageMapped (smallBlockMount size) (imageStore (smallBlockMount size).image (9 + size))
      (smallBlockFile size) 0 N := by
  intro i hi
  have hoffset : offsetXAD smallBlockExtent = 0 := by decide
  have hlength : lengthXAD smallBlockExtent = 8 := by decide
  have haddress : addressXAD smallBlockExtent = 1000 := by decide
  have hblock : (0 + i) / (smallBlockMount size).bsize < 8 := by
    apply (Nat.div_lt_iff_lt_mul (smallBlockMount size).bsize_pos).mpr
    have hge : 2 ^ 9 ≤ (smallBlockMount size).bsize :=
      Nat.pow_le_pow_right (by decide) (smallBlockMount size).l2bsize_ge
    omega
  refine ⟨smallBlockExtent, (smallBlockFile_extent size).maps ⟨?_, ?_⟩, ?_⟩
  · rw [hoffset]
    exact Int.natCast_nonneg _
  · rw [hoffset, hlength]
    omega
  · have hunits : (smallBlockMount size).l2bsize =
        (imageStore (smallBlockMount size).image (9 + size)).log2BlockSize := rfl
    rw [haddress, hoffset, hunits, Nat.shiftLeft_shiftRight]
    omega

theorem smallBlockMount_data (size : Fin 3) :
    (smallBlockMount size).image
      ((addressXAD smallBlockExtent + (0 - offsetXAD smallBlockExtent)) <<<
        (smallBlockMount size).l2bsize + 0 % (smallBlockMount size).bsize : ℕ) = 104 ∧
      (smallBlockMount size).image 4096000 = 0 := by
  fin_cases size <;> decide

theorem smallBlock_page_wrong (size : Fin 3) (w : WordSize) (xaddr : ℤ) (pool : BufPool) :
    ¬ InBlockUnits (smallBlockMount size) (imageStore (smallBlockMount size).image (9 + size)) w
      2 (smallBlockFile size) 4096 0 xaddr pool := by
  rintro ⟨buf, pool', hreads, hbytes⟩
  have hmaps : MapsBlock (smallBlockMount size) (smallBlockFile size) (0 / 4096)
      smallBlockExtent := (smallBlockFile_extent size).maps ⟨by decide, by decide⟩
  have hposition : blockPosition smallBlockExtent (0 / 4096) = 4096000 := by decide
  obtain ⟨buf', pool'', hreads', hbytes'⟩ := (smallBlockMount_file size).mapped_page
    (fun _ => rfl) (imageStore_reads (k := 9 + size.val) (by omega) (by omega))
    (show (4096 : ℤ) < 2 ^ 63 by decide) (by decide) hmaps
    (by rw [hposition]; exact (Nat.div_le_self _ _).trans_lt (by decide)) w xaddr pool
  cases hreads.unique hreads'
  -- the pager has read a zero where the file has 104
  have hread := hbytes' 0 (by decide)
  obtain ⟨e, hextent, hcovers, hbyte⟩ := hbytes 0 (by decide)
  rw [Nat.add_zero, Nat.zero_div] at hcovers hbyte
  rw [hposition, Nat.cast_zero, add_zero, Nat.cast_ofNat] at hread
  obtain rfl := MapsBlock.unique (smallBlockMount_file size).tree ⟨hextent, hcovers⟩ hmaps
  obtain ⟨hfile, hother⟩ := smallBlockMount_data size
  rw [hother, ite_self] at hread
  rw [Nat.cast_zero, hread, hfile] at hbyte
  exact absurd hbyte (by decide)

/-! A file of one page in block `2 ^ 28` of 4096 bytes, which is store block
`2 ^ 31` of 512 bytes. -/

def farMount : Mount where
  image := fileImage 12 [(123929, 0x10), (124146, 3), (124168, 1), (124175, 0x10)]
  l2bsize := 12
  l2bsize_ge := Mount.pageBlocks_ge
  l2bsize_le := Mount.pageBlocks_le
  malloc := fun _ => some (Bytes.sparse [])

def farFile : Dinode := farMount.inodeAt 123904

def farExtent : Xad := ⟨0, 0, 1, 0, 0x10000000⟩

theorem farFile_extent : OneExtent ⟨farFile.diBtroot⟩ farExtent :=
  ⟨by decide, by decide, by decide, by decide⟩

theorem farMount_file : IsRegularFile farMount 2 farFile where
  reads :=
    have hfind : findInode farMount 3 (2 % 2 ^ 32) filesystemI = some (some 123904) := rfl
    .of_findInode (fun _ => rfl) hfind
  mode := by decide
  tree := farFile_extent.tree

theorem first_block {m : Mount} {i : ℕ} (hbsize : m.bsize = 4096) (hi : i < 4096) :
    (0 + i) / m.bsize = 0 := by
  rw [Nat.zero_add, hbsize]
  exact Nat.div_eq_of_lt hi

theorem farMount_mapped {N : ℕ} (hN : 2 ^ 31 < N) :
    PageMapped farMount (imageStore farMount.image 9) farFile 0 N := by
  intro i hi
  rw [first_block rfl hi]
  refine ⟨farExtent, farFile_extent.maps ⟨by decide, by decide⟩, lt_of_eq_of_lt ?_ hN⟩
  decide

theorem far_page_wrong (w : WordSize) (xaddr : ℤ) (pool : BufPool) :
    ¬ InBlockUnits farMount (imageStore farMount.image 9) w 2 farFile 4096 0 xaddr pool := by
  rintro ⟨buf, pool', hreads, -⟩
  have hmaps : MapsBlock farMount farFile (0 / 4096) farExtent :=
    farFile_extent.maps ⟨by decide, by decide⟩
  obtain ⟨rc, xaddr', pool'', hreads', hanswer⟩ := farMount_file.pageReads (fun _ => rfl)
    (imageStore farMount.image 9) w 4096 0 xaddr pool
  rcases hanswer with ⟨e, hmaps', rfl, rfl⟩ | ⟨hnone, -⟩
  · obtain rfl := hmaps'.unique farMount_file.tree hmaps
    have haddr : int32 (((addressXAD farExtent : ℤ) + (((0 / 4096 : ℕ) : ℤ) - offsetXAD farExtent))
        * 4096 / 2 ^ (imageStore farMount.image 9).log2BlockSize) = -2 ^ 31 := by decide
    rw [readFilePage_of_before (by decide) (by decide), haddr] at hreads'
    cases hreads.unique hreads'
  · exact hnone _ hmaps

/-- The pager takes extents in the unit of the other readers exactly on file
systems with blocks of 4096 bytes, and there up to the store block numbers of 31
bits. -/
theorem pages_in_block_units_iff {l2bsize N : ℕ} (hge : 9 ≤ l2bsize) (hle : l2bsize ≤ 12)
    (hN : 2 ^ 10 ≤ N) :
    PagesInBlockUnits l2bsize N ↔ l2bsize = 12 ∧ N ≤ 2 ^ 31 := by
  constructor
  · intro hall
    have hblocks : l2bsize = 12 := by
      by_contra hsmall
      obtain ⟨size, rfl⟩ : ∃ size : Fin 3, l2bsize = 9 + size :=
        ⟨⟨l2bsize - 9, by omega⟩, (Nat.add_sub_of_le hge).symm⟩
      exact smallBlock_page_wrong size .w32 0 emptyPool
        (hall _ _ _ _ _ _ _ _ _ rfl (fun _ => rfl)
          (imageStore_reads (k := 9 + size.val) (by omega) (by omega))
          (smallBlockMount_file size) (by decide) (by decide) (by decide) (by decide)
          (smallBlockMount_mapped size hN))
    subst hblocks
    refine ⟨rfl, ?_⟩
    by_contra hfar
    exact far_page_wrong .w32 0 emptyPool
      (hall _ _ _ _ _ _ _ _ _ rfl (fun _ => rfl) (imageStore_reads (by decide) (by decide))
        farMount_file (by decide) (by decide) (by decide) (by decide)
        (farMount_mapped (by omega)))
  · rintro ⟨rfl, hN'⟩
    exact pagesInBlockUnits_of_page_blocks hN'

theorem sparseFile_first_mapped :
    PageMapped sparseFileMount (imageStore sparseFileMount.image 9) sparseFile 0 (2 ^ 31) := by
  intro i hi
  rw [first_block rfl hi]
  exact ⟨(XtPage.mk sparseFile.diBtroot).xad 2,
    ⟨.leaf (by decide) (by decide) (by decide), by decide, by decide⟩, by decide⟩

theorem pages_in_block_units_iff_page_blocks :
    ¬ PagesInBlockUnits 9 (2 ^ 31) ∧
      InBlockUnits sparseFileMount (imageStore sparseFileMount.image 9) .w32 2 sparseFile
        0xFFFFF032 0 0 emptyPool := by
  constructor
  · rw [pages_in_block_units_iff (by decide) (by decide) (by decide)]
    decide
  · have hall := (@pages_in_block_units_iff 12 (2 ^ 31) (by decide) (by decide)
      (by decide)).mpr ⟨rfl, le_rfl⟩
    exact hall _ _ _ _ _ _ _ _ _ rfl (fun _ => rfl) (imageStore_reads (by decide) (by decide))
      sparseFileMount_file (by decide) (by decide) (by decide) (by decide)
      sparseFile_first_mapped

/-- With blocks of 512 bytes the first page of the file is read from byte
`1000 * 4096` instead of `1000 * 512`. -/
theorem small_blocks_read_elsewhere :
    (smallBlockMount 0).l2bsize = 9 ∧ IsRegularFile (smallBlockMount 0) 2 (smallBlockFile 0) ∧
      (readStat 2 (smallBlockFile 0)).stSize = 4096 ∧
      StoreReads (smallBlockMount 0) (imageStore (smallBlockMount 0).image 9) ∧
      PageMapped (smallBlockMount 0) (imageStore (smallBlockMount 0).image 9)
        (smallBlockFile 0) 0 (2 ^ 10) ∧
      ¬ InBlockUnits (smallBlockMount 0) (imageStore (smallBlockMount 0).image 9) .w32 2
        (smallBlockFile 0) 4096 0 0 emptyPool :=
  ⟨rfl, smallBlockMount_file 0, by decide, imageStore_reads (by decide) (by decide),
    smallBlockMount_mapped 0 le_rfl, smallBlock_page_wrong 0 .w32 0 emptyPool⟩

end JfsReader
