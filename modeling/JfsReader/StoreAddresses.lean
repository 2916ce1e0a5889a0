import JfsReader.BlockUnits

/-!
# From an extent to the store

The position of a block goes through `int32_t`, `int64_t` and `daddr_t` on its
way from the extent descriptor to `store_read`.  A hit keeps the displacement
below the length of the extent, and 64 bits hold what comes of it; `daddr_t` has
32, and larger store block numbers do not get through.
-/

namespace JfsReader

open StepMachine

/-- The variable `t32` of `xt_Lookup`. -/
def displacement (xoff : ℤ) (e : Xad) : ℤ := int32 (int64 (xoff - offsetXAD e))

/-- What `xt_Lookup` stores in `*xaddr`. -/
def storedXaddr (xoff : ℤ) (e : Xad) : ℤ := int64 (addressXAD e + displacement xoff e)

/-- `xaddr *= 4096` in `pager_read_page`. -/
def byteXaddr (xoff : ℤ) (e : Xad) : ℤ := int64 (storedXaddr xoff e * 4096)

/-- The `addr` that `store_read` is given, in store blocks of `2 ^ k` bytes. -/
def storeAddr (k : ℕ) (xoff : ℤ) (e : Xad) : ℤ := int32 (byteXaddr xoff e / 2 ^ k)

/-- Every value on the way is what it is in exact arithmetic. -/
structure ExactAddresses (k : ℕ) (xoff : ℤ) (e : Xad) : Prop where
  displacement : displacement xoff e = xoff - offsetXAD e
  stored : storedXaddr xoff e = addressXAD e + (xoff - offsetXAD e)
  product : byteXaddr xoff e = (addressXAD e + (xoff - offsetXAD e)) * 4096
  units : storeAddr k xoff e * 2 ^ k = (addressXAD e + (xoff - offsetXAD e)) * 4096

/-- The lookup ends with what it makes of a hit on the leaf entry `e`. -/
def LookupFinds (m : Mount) (call : XtCall) (pool : BufPool) (e : Xad) : Prop :=
  ∃ s out, XtLookupEnds m call pool out ∧ xtFound call s e 0 = .inr out

section Values

variable {k : ℕ} {xoff : ℤ} {e : Xad}

theorem displacement_eq (hcovers : e.Covers xoff) :
    displacement xoff e = xoff - offsetXAD e := by
  obtain ⟨hlo, hhi⟩ := hcovers
  have hlen := lengthXAD_lt e
  unfold displacement
  rw [int64_of_bounds (by omega) (by omega), int32_of_bounds (by omega) (by omega)]

theorem storedXaddr_eq (hcovers : e.Covers xoff) :
    storedXaddr xoff e = addressXAD e + (xoff - offsetXAD e) := by
  have hdisplacement := displacement_eq hcovers
  obtain ⟨hlo, hhi⟩ := hcovers
  have hlen := lengthXAD_lt e
  have haddr := addressXAD_lt e
  unfold storedXaddr
  rw [hdisplacement, int64_of_bounds (by omega) (by omega)]

theorem byteXaddr_eq (hcovers : e.Covers xoff) :
    byteXaddr xoff e = (addressXAD e + (xoff - offsetXAD e)) * 4096 := by
  have hstored := storedXaddr_eq hcovers
  obtain ⟨hlo, hhi⟩ := hcovers
  have hlen := lengthXAD_lt e
  have haddr := addressXAD_lt e
  unfold byteXaddr
  rw [hstored, int64_of_bounds (by omega) (by omega)]

/-- Whole pages are whole store blocks, so nothing is lost in the division. -/
theorem byteXaddr_div (hle : k ≤ 12) (hcovers : e.Covers xoff) :
    byteXaddr xoff e / 2 ^ k = (addressXAD e + (xoff - offsetXAD e)) * 2 ^ (12 - k) := by
  have hpage : (4096 : ℤ) = 2 ^ (12 - k) * 2 ^ k := by
    rw [← pow_add, Nat.sub_add_cancel hle]
    norm_num
  rw [byteXaddr_eq hcovers, hpage, ← mul_assoc]
  exact Int.mul_ediv_cancel _ (by positivity)

theorem storeAddr_exact_iff (hle : k ≤ 12) (hcovers : e.Covers xoff) :
    storeAddr k xoff e * 2 ^ k = (addressXAD e + (xoff - offsetXAD e)) * 4096 ↔
      addressXAD e + (xoff - offsetXAD e) < 2 ^ (19 + k) := by
  have hdiv := byteXaddr_div hle hcovers
  have hnonneg : 0 ≤ (addressXAD e : ℤ) + (xoff - offsetXAD e) := by
    have := hcovers.1
    omega
  have hexact : (addressXAD e + (xoff - offsetXAD e)) * 4096 =
      byteXaddr xoff e / 2 ^ k * 2 ^ k := by
    rw [hdiv, mul_assoc, ← pow_add, Nat.sub_add_cancel hle]
    norm_num
  have hbound : (2 : ℤ) ^ 31 = 2 ^ (19 + k) * 2 ^ (12 - k) := by
    rw [← pow_add]
    congr 1
    omega
  unfold storeAddr
  rw [hexact, mul_left_inj' (by positivity), int32_eq_iff, hdiv, hbound,
    mul_lt_mul_iff_left₀ (by positivity)]
  refine and_iff_right (le_trans ?_ (mul_nonneg hnonneg (by positivity)))
  norm_num

theorem exactAddresses_iff (hle : k ≤ 12) (hcovers : e.Covers xoff) :
    ExactAddresses k xoff e ↔ addressXAD e + (xoff - offsetXAD e) < 2 ^ (19 + k) := by
  rw [← storeAddr_exact_iff hle hcovers]
  constructor
  · exact fun h => h.units
  · exact fun h => ⟨displacement_eq hcovers, storedXaddr_eq hcovers, byteXaddr_eq hcovers, h⟩

/-! ## The values in the code -/

theorem xtFound_stored {call : XtCall} {s : XtState} (hcovers : e.Covers call.xoff) :
    ∃ xlen, xtFound call s e 0 =
      .inr (.returned 0 (storedXaddr call.xoff e) xlen (releasePage s.bp s.pool)) := by
  refine ⟨minLength call.xlen (lengthXAD e) (call.xoff - offsetXAD e), ?_⟩
  rw [xtFound_eq ((xtCmp_eq_zero_iff call.xoff e).mpr hcovers), storedXaddr_eq hcovers]

theorem readFilePage_stored {store : Store} {w : WordSize} {page : ℕ} {stSize : ℤ}
    (hcovers : e.Covers xoff) (hhi : stSize < 2 ^ 63) (hbefore : page < stSize) (pool : BufPool) :
    readFilePage store w page stSize 0 (storedXaddr xoff e) pool =
      readStorePage store (storeAddr store.log2BlockSize xoff e) (overrunOf w page stSize)
        pool := by
  have hproduct : storedXaddr xoff e * 4096 = byteXaddr xoff e := by
    rw [byteXaddr_eq hcovers, storedXaddr_eq hcovers]
  rw [readFilePage_of_before hhi hbefore, hproduct]
  rfl

end Values

variable {m : Mount} {store : Store} {w : WordSize} {cacheId page k : ℕ} {inode : Dinode}
  {stSize xaddr : ℤ} {pool : BufPool} {e : Xad}

theorem MapsBlock.lookupFinds (hmaps : MapsBlock m inode (page / 4096) e)
    (hfile : IsRegularFile m cacheId inode) (hmem : m.HasMemory) (xaddr : ℤ) (pool : BufPool) :
    LookupFinds m (pageCall inode page xaddr) pool e := by
  have htree : XtTree m (pageCall inode page xaddr).root := hfile.tree
  obtain ⟨out, hends, hanswer⟩ := htree.answers hmem (Int.natCast_nonneg _)
    (show (1 : ℤ) ≤ vmPageSize by decide) (show (vmPageSize : ℤ) < 2 ^ 31 by decide) pool
  rcases hanswer with ⟨e', he', hcovers', pool', rfl⟩ | ⟨hnone, -⟩
  · obtain rfl := hmaps.unique hfile.tree ⟨he', hcovers'⟩
    refine ⟨⟨.root, none, 0, 0, 0, pool'⟩, _, hends, ?_⟩
    have hlen := lengthXAD_lt e
    have hxlen : (pageCall inode page xaddr).xlen = 4096 := rfl
    rw [xtFound_eq ((xtCmp_eq_zero_iff _ e).mpr hcovers'), hxlen,
      minLength_eq _ _ _ (by decide) (by decide) (by have := hcovers'.1; omega)
        (by have := hcovers'.2; omega) (by exact_mod_cast hlen)]
    rfl
  · exact absurd hmaps.2 (hnone e hmaps.1)

theorem LookupFinds.pageReads (h : LookupFinds m (pageCall inode page xaddr) pool e)
    (hcovers : e.Covers ((page / 4096 : ℕ) : ℤ)) (hread : ReadsInode m cacheId inode)
    (hhi : stSize < 2 ^ 63) (hbefore : page < stSize) (store : Store) (w : WordSize) :
    ∃ pool', PageReads m store w cacheId stSize page xaddr pool
      (readStorePage store (storeAddr store.log2BlockSize ((page / 4096 : ℕ) : ℤ) e)
        (overrunOf w page stSize) pool') := by
  obtain ⟨s, out, hends, hfound⟩ := h
  obtain ⟨xlen, hstored⟩ := @xtFound_stored e (pageCall inode page xaddr) s hcovers
  obtain rfl := Sum.inr.inj (hfound.symm.trans hstored)
  have hreads := hread.pageReads hends store w stSize
  have hxoff : (pageCall inode page xaddr).xoff = ((page / 4096 : ℕ) : ℤ) := rfl
  rw [hxoff, readFilePage_stored hcovers hhi hbefore] at hreads
  exact ⟨_, hreads⟩

/-- Nothing is truncated on the way to the store exactly below store block
`2 ^ 31`; and these are the values that the two functions hand on. -/
theorem addresses_exact_iff {xoff : ℕ} (hle : k ≤ 12) (hcovers : e.Covers xoff) :
    (ExactAddresses k xoff e ↔
      addressXAD e + ((xoff : ℤ) - offsetXAD e) < 2 ^ (19 + k)) ∧
    (∀ (call : XtCall) (s : XtState), call.xoff = xoff → ∃ xlen, xtFound call s e 0 =
      .inr (.returned 0 (storedXaddr xoff e) xlen (releasePage s.bp s.pool))) ∧
    ∀ m (store : Store) w cacheId inode (stSize : ℤ) (page : ℕ) xaddr pool,
      store.log2BlockSize = k → page / 4096 = xoff → ReadsInode m cacheId inode →
      LookupFinds m (pageCall inode page xaddr) pool e → stSize < 2 ^ 63 → page < stSize →
      ∃ pool', PageReads m store w cacheId stSize page xaddr pool
        (readStorePage store (storeAddr k xoff e) (overrunOf w page stSize) pool') := by
  refine ⟨exactAddresses_iff hle hcovers, ?_, ?_⟩
  · rintro call s hxoff
    rw [← hxoff] at hcovers ⊢
    exact xtFound_stored hcovers
  · rintro m store w cacheId inode stSize page xaddr pool rfl rfl hread hfinds hhi hbefore
    exact hfinds.pageReads hcovers hread hhi hbefore store w

theorem addresses_exact_iff_far :
    ExactAddresses 12 0 farExtent ∧
      ∃ pool', PageReads farMount (imageStore farMount.image 12) .w32 2 4096 0 0 emptyPool
        (readStorePage (imageStore farMount.image 12) (2 ^ 28) 0 pool') := by
  obtain ⟨hiff, -, hreads⟩ := @addresses_exact_iff 12 farExtent 0 le_rfl
    ⟨by decide, by decide⟩
  refine ⟨hiff.mpr (by decide), ?_⟩
  exact hreads farMount (imageStore farMount.image 12) .w32 2 farFile 4096 0 0 emptyPool rfl rfl
    farMount_file.reads ((farFile_extent.maps ⟨by decide, by decide⟩).lookupFinds farMount_file
      (fun _ => rfl) 0 emptyPool) (by decide) (by decide)

/-- Block `2 ^ 28` of 4096 bytes is store block `2 ^ 31` of 512, and is asked for
as a negative one. -/
theorem far_address_truncated :
    farExtent.Covers 0 ∧ MapsBlock farMount farFile (0 / 4096) farExtent ∧
      (∃ pool', PageReads farMount (imageStore farMount.image 9) .w32 2 4096 0 0 emptyPool
        (readStorePage (imageStore farMount.image 9) (-2 ^ 31) 0 pool')) ∧
      ¬ ExactAddresses 9 0 farExtent := by
  have hcovers : farExtent.Covers 0 := ⟨by decide, by decide⟩
  have hmaps : MapsBlock farMount farFile (0 / 4096) farExtent := farFile_extent.maps hcovers
  have hfinds := hmaps.lookupFinds farMount_file (fun _ => rfl) 0 emptyPool
  have haddr : storeAddr 9 0 farExtent = -2 ^ 31 := by decide
  obtain ⟨pool', hreads⟩ := hfinds.pageReads hcovers farMount_file.reads
    (show (4096 : ℤ) < 2 ^ 63 by decide) (by decide) (imageStore farMount.image 9) .w32
  refine ⟨hcovers, hmaps, ⟨pool', ?_⟩, ?_⟩
  · rw [← haddr]
    exact hreads
  · rw [exactAddresses_iff (by decide) hcovers]
    decide

end JfsReader
