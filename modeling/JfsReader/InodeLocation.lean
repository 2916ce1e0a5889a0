import JfsReader.InodeSearch

/-!
# Where the inodes are

The fileset's inode map is a file: its first page is a control page, and page
`iag + 1` is inode allocation group `iag`.  Read through its extent tree the
file has bytes (`FileByte`), and a group has a page when all of its bytes are
there (`IagPage`).  `find_inode` reads that page and decodes the extent of
thirty-two inodes that the number falls into; different numbers then get
different 512-byte places as long as the inode extents do not overlap.
-/

namespace JfsReader

open StepMachine

def filesetInodeAddress : ℕ := aggrInodeTableStart + filesystemI * 512

def Mount.filesetRoot (m : Mount) : XtPage :=
  ⟨m.image.shift (filesetInodeAddress + 224)⟩

def Mount.iagBlock (m : Mount) (iag : ℕ) : ℕ :=
  (iag + 1) <<< (l2PageSize - m.l2bsize)

/-- The byte at position `pos` of the file mapped by the tree under `root`. -/
def FileByte (m : Mount) (root : XtPage) (pos : ℕ) (b : UInt8) : Prop :=
  ∃ e, LeafExtent m root e ∧ e.Covers (pos / m.bsize : ℕ) ∧
    b = m.image (((addressXAD e + (pos / m.bsize - offsetXAD e)) <<< m.l2bsize) +
      pos % m.bsize : ℕ)

def IagPage (m : Mount) (iag : ℕ) (page : Iag) : Prop :=
  ∀ i, i < pageSize →
    FileByte m m.filesetRoot ((iag + 1) * pageSize + i) (page.bytes i)

/-- A well-formed fileset inode map: a well-formed tree in which the page of a
group is mapped in one piece. -/
structure InodeMap (m : Mount) : Prop where
  tree : XtTree m m.filesetRoot
  contiguous : ∀ iag, iag < 2 ^ 20 → ∀ e, LeafExtent m m.filesetRoot e →
    e.Covers (m.iagBlock iag) →
      m.iagBlock iag + (pageSize >>> m.l2bsize) ≤ offsetXAD e + lengthXAD e

def inodeExtentSize : ℕ := 16384

def InodeExtentsDisjoint (m : Mount) : Prop :=
  ∀ iag ext page iag' ext' page', iag < 2 ^ 20 → iag' < 2 ^ 20 →
    ext < 128 → ext' < 128 → (iag, ext) ≠ (iag', ext') →
    IagPage m iag page → IagPage m iag' page' →
    (page.inoext ext).len ≠ 0 → (page'.inoext ext').len ≠ 0 →
      (addressPXD (page.inoext ext) <<< m.l2bsize) + inodeExtentSize ≤
          addressPXD (page'.inoext ext') <<< m.l2bsize ∨
        (addressPXD (page'.inoext ext') <<< m.l2bsize) + inodeExtentSize ≤
          addressPXD (page.inoext ext) <<< m.l2bsize

/-! ## The parts of an inode number -/

def extnumOf (inum : ℕ) : ℕ := (inum &&& (inosPerIag - 1)) >>> l2InosPerExt

theorem extnumOf_eq (inum : ℕ) : extnumOf inum = inum % 4096 / 32 := by
  unfold extnumOf
  rw [show inosPerIag - 1 = 2 ^ 12 - 1 by rfl, Nat.and_two_pow_sub_one_eq_mod,
    Nat.shiftRight_eq_div_pow]
  rfl

theorem extnumOf_lt (inum : ℕ) : extnumOf inum < 128 := by
  rw [extnumOf_eq]
  omega

theorem inotoiag_eq (inum : ℕ) : inotoiag inum = inum / 4096 := by
  unfold inotoiag
  rw [Nat.shiftRight_eq_div_pow]

theorem inodeIndex_eq (inum : ℕ) : inum &&& (inosPerExt - 1) = inum % 32 := by
  rw [show inosPerExt - 1 = 2 ^ 5 - 1 by rfl, Nat.and_two_pow_sub_one_eq_mod]

theorem inum_parts_injective {inum inum' : ℕ} (hne : inum ≠ inum')
    (hiag : inotoiag inum = inotoiag inum') (hext : extnumOf inum = extnumOf inum') :
    inum % 32 ≠ inum' % 32 := by
  rw [inotoiag_eq, inotoiag_eq] at hiag
  rw [extnumOf_eq, extnumOf_eq] at hext
  omega

variable {m : Mount}

theorem iagtolblk_eq (m : Mount) {iag : ℕ} (hiag : iag < 2 ^ 20) :
    iagtolblk iag (l2PageSize - m.l2bsize) = m.iagBlock iag := by
  have hpow : 2 ^ (l2PageSize - m.l2bsize) ≤ 2 ^ 3 :=
    Nat.pow_le_pow_right (by decide) (by
      have := m.l2bsize_ge
      unfold l2PageSize
      omega)
  have hmul : (iag + 1) * 2 ^ (l2PageSize - m.l2bsize) ≤ 2 ^ 20 * 2 ^ 3 :=
    Nat.mul_le_mul (by omega) hpow
  unfold iagtolblk Mount.iagBlock
  rw [Nat.mod_eq_of_lt (show iag + 1 < 2 ^ 32 by omega), Nat.shiftLeft_eq]
  exact Nat.mod_eq_of_lt (by omega)

/-! ## The page of a group -/

theorem pageSize_eq_bsize_mul (m : Mount) :
    pageSize = m.bsize * 2 ^ (l2PageSize - m.l2bsize) := by
  have hle : m.l2bsize ≤ l2PageSize := m.l2bsize_le
  unfold Mount.bsize
  rw [← Nat.pow_add, Nat.add_sub_cancel' hle]
  rfl

theorem iagPosition_div (m : Mount) (iag i : ℕ) :
    ((iag + 1) * pageSize + i) / m.bsize = m.iagBlock iag + i / m.bsize := by
  unfold Mount.iagBlock
  rw [pageSize_eq_bsize_mul m, Nat.shiftLeft_eq,
    show (iag + 1) * (m.bsize * 2 ^ (l2PageSize - m.l2bsize)) + i =
      i + m.bsize * ((iag + 1) * 2 ^ (l2PageSize - m.l2bsize)) by ring,
    Nat.add_mul_div_left _ _ m.bsize_pos]
  ring

theorem iagPosition_mod (m : Mount) (iag i : ℕ) :
    ((iag + 1) * pageSize + i) % m.bsize = i % m.bsize := by
  rw [pageSize_eq_bsize_mul m,
    show (iag + 1) * (m.bsize * 2 ^ (l2PageSize - m.l2bsize)) + i =
      i + m.bsize * ((iag + 1) * 2 ^ (l2PageSize - m.l2bsize)) by ring,
    Nat.add_mul_mod_self_left]

theorem extentByte_address (m : Mount) (addr block off i : ℕ) (hoff : off ≤ block) :
    ((addr + (block + i / m.bsize - off)) <<< m.l2bsize) + i % m.bsize =
      ((addr + (block - off)) <<< m.l2bsize) + i := by
  have hdiv : i / m.bsize * 2 ^ m.l2bsize + i % m.bsize = i := Nat.div_add_mod' i m.bsize
  generalize i / m.bsize = q at hdiv ⊢
  rw [show addr + (block + q - off) = addr + (block - off) + q by omega,
    Nat.shiftLeft_eq, Nat.shiftLeft_eq, add_mul, add_assoc, hdiv]

theorem FileByte.unique {root : XtPage} (htree : XtTree m root) {pos : ℕ}
    {b b' : UInt8} (hb : FileByte m root pos b) (hb' : FileByte m root pos b') :
    b = b' := by
  obtain ⟨e, he, hcovers, rfl⟩ := hb
  obtain ⟨e', he', hcovers', rfl⟩ := hb'
  rw [htree.subtree.covers_unique he he' hcovers hcovers']

theorem IagPage.inoext_eq (hmap : InodeMap m) {iag ext : ℕ} {page page' : Iag}
    (hpage : IagPage m iag page) (hpage' : IagPage m iag page') (hext : ext < 128) :
    page.inoext ext = page'.inoext ext := by
  have hagree : Bytes.Agree pageSize page.bytes page'.bytes := by
    intro i hlo hhi
    obtain ⟨k, rfl⟩ := Int.eq_ofNat_of_zero_le hlo
    have hk : k < pageSize := by omega
    exact (hpage k hk).unique hmap.tree (hpage' k hk)
  have hsize : pageSize = 4096 := rfl
  exact pxdAt_congr hagree (by omega)

theorem InodeMap.iagPage_of_covers (hmap : InodeMap m) {iag : ℕ} (hiag : iag < 2 ^ 20)
    {e : Xad} (he : LeafExtent m m.filesetRoot e) (hcovers : e.Covers (m.iagBlock iag)) :
    IagPage m iag
      ⟨m.block (addressXAD e + (m.iagBlock iag - offsetXAD e))⟩ := by
  intro i hi
  have hwhole := hmap.contiguous iag hiag e he hcovers
  have hblocks : i / m.bsize < pageSize >>> m.l2bsize := by
    rw [Nat.shiftRight_eq_div_pow]
    exact Nat.div_lt_div_of_lt_of_dvd m.bsize_dvd_pageSize hi
  obtain ⟨hlo, hhi⟩ := hcovers
  refine ⟨e, he, ?_, ?_⟩
  · rw [iagPosition_div]
    generalize i / m.bsize = q at hblocks ⊢
    generalize pageSize >>> m.l2bsize = pageBlocks at hwhole hblocks
    constructor <;> push_cast <;> omega
  · rw [iagPosition_div, iagPosition_mod, extentByte_address m _ _ _ _ (by omega), Nat.cast_add]
    rfl

theorem IagPage.exists_covers {iag : ℕ} {page : Iag} (hpage : IagPage m iag page) :
    ∃ e, LeafExtent m m.filesetRoot e ∧ e.Covers (m.iagBlock iag) := by
  obtain ⟨e, he, hcovers, -⟩ := hpage 0 (by decide)
  rw [iagPosition_div, Nat.zero_div, Nat.add_zero] at hcovers
  exact ⟨e, he, hcovers⟩

/-! ## The searches -/

theorem findIag_correct (hmem : m.HasMemory) (hmap : InodeMap m) {iag : ℕ}
    (hiag : iag < 2 ^ 20) :
    ∃ n out, (∀ fuel, n ≤ fuel → findIag m fuel iag filesystemI = some out) ∧
      TreeAnswer m (m.iagBlock iag)
        (fun e out => out = IagEnd.found
          ((addressXAD e + (m.iagBlock iag - offsetXAD e)) <<< m.l2bsize))
        (· = .failed) m.filesetRoot out := by
  obtain ⟨bytes, hread, hbytes⟩ :=
    m.xRead_delivers hmem filesetInodeAddress sizeofDinode (by decide) (m.stack .filesetInode)
  have hroot : XtPage.Same xtRootMaxSlot ⟨(Dinode.mk bytes).diBtroot⟩ m.filesetRoot := by
    intro i hlo hhi
    have hlt : 224 + i < sizeofDinode := by
      change i < 288 at hhi
      unfold sizeofDinode
      omega
    change bytes (224 + i) = m.image (filesetInodeAddress + 224 + i)
    rw [hbytes _ (by omega) hlt, add_assoc]
    rfl
  obtain ⟨out, ⟨n, hrun⟩, hanswer⟩ :=
    @iag_search_correct m ⟨⟨(Dinode.mk bytes).diBtroot⟩, m.iagBlock iag⟩ m.filesetRoot
      hmap.tree hroot
  refine ⟨n, out, ?_, hanswer⟩
  intro fuel hfuel
  have haddress : (aggrInodeTableStart + filesystemI * 512) % 2 ^ 32 =
      filesetInodeAddress := by decide
  unfold findIag
  rw [if_neg (by decide)]
  dsimp only
  rw [haddress, hread, iagtolblk_eq m hiag]
  dsimp only
  rw [run_of_le hrun hfuel]

theorem findInode_spec (hmem : m.HasMemory) (hmap : InodeMap m) {inum : ℕ}
    (hinum : inum < 2 ^ 32) :
    ∃ n r, (∀ fuel, n ≤ fuel → findInode m fuel inum filesystemI = some r) ∧
      ((∃ page, IagPage m (inotoiag inum) page ∧
          (page.inoext (extnumOf inum)).len ≠ 0 ∧
          r = some ((addressPXD (page.inoext (extnumOf inum)) <<< m.l2bsize) +
            inum % 32 * 512)) ∨
        (r = none ∧ ∀ page, IagPage m (inotoiag inum) page →
          (page.inoext (extnumOf inum)).len = 0)) := by
  have hiag : inotoiag inum < 2 ^ 20 := by
    rw [inotoiag_eq]
    omega
  obtain ⟨n, out, hrun, hanswer⟩ := findIag_correct hmem hmap hiag
  rcases hanswer with ⟨e, he, hcovers, rfl⟩ | ⟨hnone, rfl⟩
  · have hpage := hmap.iagPage_of_covers hiag he hcovers
    have hread : ∀ ext, ext < 128 →
        (Iag.mk ((m.stack .iag).memcpy
          (m.image.shift ((addressXAD e + (m.iagBlock (inotoiag inum) -
            offsetXAD e)) <<< m.l2bsize)) sizeofIag)).inoext ext =
        (Iag.mk (m.block (addressXAD e + (m.iagBlock (inotoiag inum) -
          offsetXAD e)))).inoext ext := by
      intro ext hext
      have hsize : sizeofIag = 4096 := rfl
      exact pxdAt_congr (Bytes.Agree.memcpy_src _ _ sizeofIag) (by omega)
    by_cases hlen : ((Iag.mk (m.block (addressXAD e + (m.iagBlock (inotoiag inum) -
        offsetXAD e)))).inoext (extnumOf inum)).len = 0
    · refine ⟨n, none, ?_, .inr ⟨rfl, ?_⟩⟩
      · intro fuel hfuel
        unfold findInode
        simp only [hrun fuel hfuel, Mount.ujfsReadDiskblocks]
        rw [← extnumOf, hread _ (extnumOf_lt inum), if_pos hlen]
      · intro page hpage'
        rw [hpage'.inoext_eq hmap hpage (extnumOf_lt inum), hlen]
    · refine ⟨n, _, ?_, .inl ⟨_, hpage, hlen, rfl⟩⟩
      intro fuel hfuel
      unfold findInode
      simp only [hrun fuel hfuel, Mount.ujfsReadDiskblocks]
      rw [← extnumOf, hread _ (extnumOf_lt inum), if_neg hlen, inodeIndex_eq]
  · refine ⟨n, none, ?_, .inr ⟨rfl, ?_⟩⟩
    · intro fuel hfuel
      unfold findInode
      simp only [hrun fuel hfuel]
    · intro page hpage
      obtain ⟨e, he, hcovers⟩ := hpage.exists_covers
      exact absurd hcovers (hnone e he)

theorem findInode_found (hmem : m.HasMemory) (hmap : InodeMap m) {inum fuel a : ℕ}
    (hinum : inum < 2 ^ 32) (hfound : findInode m fuel inum filesystemI = some (some a)) :
    ∃ page, IagPage m (inotoiag inum) page ∧ (page.inoext (extnumOf inum)).len ≠ 0 ∧
      a = (addressPXD (page.inoext (extnumOf inum)) <<< m.l2bsize) + inum % 32 * 512 := by
  obtain ⟨n, r, hrun, hspec⟩ := findInode_spec hmem hmap hinum
  obtain rfl : r = some a := findInode_unique (hrun n le_rfl) hfound
  rcases hspec with ⟨page, hpage, hlen, heq⟩ | ⟨hnone, -⟩
  · exact ⟨page, hpage, hlen, by simpa using heq⟩
  · contradiction

theorem findInode_disjoint (hmem : m.HasMemory) (hmap : InodeMap m)
    (hdisjoint : InodeExtentsDisjoint m) {inum inum' fuel fuel' a a' : ℕ}
    (hinum : inum < 2 ^ 32) (hinum' : inum' < 2 ^ 32) (hne : inum ≠ inum')
    (hfound : findInode m fuel inum filesystemI = some (some a))
    (hfound' : findInode m fuel' inum' filesystemI = some (some a')) :
    a + 512 ≤ a' ∨ a' + 512 ≤ a := by
  obtain ⟨page, hpage, hlen, rfl⟩ := findInode_found hmem hmap hinum hfound
  obtain ⟨page', hpage', hlen', rfl⟩ := findInode_found hmem hmap hinum' hfound'
  have hsize : inodeExtentSize = 16384 := rfl
  by_cases hparts : (inotoiag inum, extnumOf inum) = (inotoiag inum', extnumOf inum')
  · obtain ⟨hiag, hext⟩ := Prod.mk.inj hparts
    have hindex := inum_parts_injective hne hiag hext
    rw [← hiag] at hpage'
    rw [← hext] at hlen' ⊢
    rw [hpage'.inoext_eq hmap hpage (extnumOf_lt inum)]
    omega
  · have hiag : inotoiag inum < 2 ^ 20 := by
      rw [inotoiag_eq]
      omega
    have hiag' : inotoiag inum' < 2 ^ 20 := by
      rw [inotoiag_eq]
      omega
    have hranges := hdisjoint _ _ page _ _ page' hiag hiag' (extnumOf_lt inum)
      (extnumOf_lt inum') hparts hpage hpage' hlen hlen'
    omega

/-- On a well-formed inode map `find_inode` stays inside the extent table,
finds exactly the inodes of backed extents, at their place, and never gives
two numbers overlapping places. -/
theorem findInode_locates (hmem : m.HasMemory) (hmap : InodeMap m) :
    (∀ inum, inum < 2 ^ 32 →
      (inum &&& (inosPerIag - 1)) >>> l2InosPerExt < 128 ∧
      ∃ n r, (∀ fuel, n ≤ fuel → findInode m fuel inum filesystemI = some r) ∧
        (r.isSome ↔ ∃ page, IagPage m (inum >>> 12) page ∧
          (page.inoext ((inum &&& 4095) >>> 5)).len ≠ 0) ∧
        ∀ page address, IagPage m (inum >>> 12) page → r = some address →
          address = (addressPXD (page.inoext ((inum &&& 4095) >>> 5)) <<< m.l2bsize) +
            inum % 32 * 512) ∧
    (InodeExtentsDisjoint m → ∀ inum inum' fuel fuel' a a',
      inum < 2 ^ 32 → inum' < 2 ^ 32 → inum ≠ inum' →
      findInode m fuel inum filesystemI = some (some a) →
      findInode m fuel' inum' filesystemI = some (some a') →
        a + 512 ≤ a' ∨ a' + 512 ≤ a) := by
  constructor
  · intro inum hinum
    refine ⟨extnumOf_lt inum, ?_⟩
    obtain ⟨n, r, hrun, hspec⟩ := findInode_spec hmem hmap hinum
    refine ⟨n, r, hrun, ?_⟩
    rcases hspec with ⟨page, hpage, hlen, rfl⟩ | ⟨rfl, hnone⟩
    · refine ⟨⟨fun _ => ⟨page, hpage, hlen⟩, fun _ => rfl⟩, ?_⟩
      intro page' address hpage' heq
      have hext := hpage'.inoext_eq hmap hpage (extnumOf_lt inum)
      change page'.inoext ((inum &&& 4095) >>> 5) = _ at hext
      rw [hext]
      simpa using heq.symm
    · constructor
      · constructor
        · intro hsome
          simp at hsome
        · rintro ⟨page, hpage, hlen⟩
          exact absurd (hnone page hpage) hlen
      · intro page address hpage heq
        contradiction
  · intro hdisjoint inum inum' fuel fuel' a a' hinum hinum' hne hfound hfound'
    exact findInode_disjoint hmem hmap hdisjoint hinum hinum' hne hfound hfound'

/-! A map of one group, whose first inode extent starts at block 30. -/

def oneGroupMount : Mount where
  image := Bytes.sparse [(53488, 2), (53490, 3), (53512, 2), (53516, 20),
    (89088, 4), (89092, 30)]
  l2bsize := 12
  l2bsize_ge := Mount.pageBlocks_ge
  l2bsize_le := Mount.pageBlocks_le
  malloc := fun _ => some (Bytes.sparse [])

theorem oneGroupMount_entries {i : ℤ} (hlo : xtEntryStart ≤ i)
    (hhi : i < oneGroupMount.filesetRoot.nextindex) : i = 2 := by
  have hstart : xtEntryStart = 2 := rfl
  have hnext : oneGroupMount.filesetRoot.nextindex = 3 := by decide
  omega

theorem oneGroupMount_extent {e : Xad}
    (he : LeafExtent oneGroupMount oneGroupMount.filesetRoot e) :
    offsetXAD e = 0 ∧ lengthXAD e = 2 ∧ addressXAD e = 20 := by
  cases he with
  | child hleaf => exact absurd hleaf (by decide)
  | leaf hleaf hlo hhi =>
      rw [oneGroupMount_entries hlo hhi]
      decide

theorem oneGroupMount_inodeMap : InodeMap oneGroupMount := by
  constructor
  · constructor
    · apply XtSubtree.leaf
      · decide
      · decide
      · refine ⟨by decide, by decide, ?_⟩
        intro i j hlo hij hhi
        have := oneGroupMount_entries hlo (by omega)
        have := oneGroupMount_entries (by omega) hhi
        omega
    · intro hinternal
      exact absurd hinternal (by decide)
  · intro iag hiag e he hcovers
    obtain ⟨hoff, hlen, -⟩ := oneGroupMount_extent he
    have hblock : oneGroupMount.iagBlock iag = iag + 1 := rfl
    have hpage : pageSize >>> oneGroupMount.l2bsize = 1 := by decide
    obtain ⟨hlo, hhi⟩ := hcovers
    omega

theorem oneGroupMount_iagPage {iag : ℕ} {page : Iag}
    (hpage : IagPage oneGroupMount iag page) {ext : ℕ} (hext : ext < 128) :
    iag = 0 ∧ page.inoext ext = (Iag.mk (oneGroupMount.block 21)).inoext ext := by
  obtain ⟨e, he, hcovers⟩ := hpage.exists_covers
  obtain ⟨hoff, hlen, haddr⟩ := oneGroupMount_extent he
  have hzero : iag = 0 := by
    have hblock : oneGroupMount.iagBlock iag = iag + 1 := rfl
    obtain ⟨hlo, hhi⟩ := hcovers
    omega
  subst hzero
  have hpage' := oneGroupMount_inodeMap.iagPage_of_covers (by decide) he hcovers
  rw [hoff, haddr] at hpage'
  exact ⟨rfl, hpage.inoext_eq oneGroupMount_inodeMap hpage' hext⟩

theorem oneGroupMount_disjoint : InodeExtentsDisjoint oneGroupMount := by
  have honly : ∀ ext, ext < 128 →
      ((Iag.mk (oneGroupMount.block 21)).inoext ext).len ≠ 0 → ext = 0 := by
    decide
  intro iag ext page iag' ext' page' _ _ hext hext' hne hpage hpage' hlen hlen'
  obtain ⟨rfl, heq⟩ := oneGroupMount_iagPage hpage hext
  obtain ⟨rfl, heq'⟩ := oneGroupMount_iagPage hpage' hext'
  rw [heq] at hlen
  rw [heq'] at hlen'
  exact absurd (by rw [honly ext hext hlen, honly ext' hext' hlen']) hne

theorem oneGroupMount_iag :
    IagPage oneGroupMount 0 ⟨oneGroupMount.block 21⟩ := by
  have hextent : LeafExtent oneGroupMount oneGroupMount.filesetRoot
      (oneGroupMount.filesetRoot.xad 2) :=
    .leaf (by decide) (by decide) (by decide)
  obtain ⟨hoff, -, haddr⟩ := oneGroupMount_extent hextent
  have hpage := oneGroupMount_inodeMap.iagPage_of_covers (by decide) hextent
    (show (oneGroupMount.filesetRoot.xad 2).Covers (oneGroupMount.iagBlock 0)
      from ⟨by decide, by decide⟩)
  rwa [hoff, haddr] at hpage

theorem findInode_locates_oneGroup :
    InodeMap oneGroupMount ∧ InodeExtentsDisjoint oneGroupMount ∧
      ∃ n a, (∀ fuel, n ≤ fuel →
          findInode oneGroupMount fuel 2 filesystemI = some (some 123904) ∧
          findInode oneGroupMount fuel 3 filesystemI = some (some a) ∧
          findInode oneGroupMount fuel 32 filesystemI = some none) ∧
        (123904 + 512 ≤ a ∨ a + 512 ≤ 123904) := by
  refine ⟨oneGroupMount_inodeMap, oneGroupMount_disjoint, ?_⟩
  obtain ⟨hlocates, hdisjoint⟩ := findInode_locates (fun _ => rfl) oneGroupMount_inodeMap
  obtain ⟨-, n, r, hrun, hfound, haddress⟩ := hlocates 2 (by decide)
  obtain ⟨-, n', r', hrun', hfound', -⟩ := hlocates 3 (by decide)
  obtain ⟨-, n'', r'', hrun'', hmissing, -⟩ := hlocates 32 (by decide)
  obtain ⟨address, rfl⟩ := Option.isSome_iff_exists.mp
    (hfound.mpr ⟨_, oneGroupMount_iag, by decide⟩)
  obtain rfl : address = 123904 := (haddress _ address oneGroupMount_iag rfl).trans (by decide)
  obtain ⟨a, rfl⟩ := Option.isSome_iff_exists.mp (hfound'.mpr ⟨_, oneGroupMount_iag, by decide⟩)
  obtain rfl : r'' = none := by
    rw [← Option.not_isSome_iff_eq_none, hmissing]
    rintro ⟨page, hpage, hlen⟩
    rw [(oneGroupMount_iagPage hpage (by decide)).2] at hlen
    exact absurd hlen (by decide)
  refine ⟨max n (max n' n''), a, fun fuel hfuel => ⟨hrun fuel (by omega), hrun' fuel (by omega),
    hrun'' fuel (by omega)⟩, ?_⟩
  exact hdisjoint oneGroupMount_disjoint 2 3 n n' _ _ (by decide) (by decide) (by decide)
    (hrun n le_rfl) (hrun' n' le_rfl)

end JfsReader
