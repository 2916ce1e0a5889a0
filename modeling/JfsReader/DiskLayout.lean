import Mathlib.Tactic

/-!
# Bytes and the on-disk structures

A C object is the memory seen from its address, and a field is decoded from
its offset, little-endian as on the i386 target.  Unions therefore come for free:
`xad[0]` and `xad[1]` of an extent page are its header read as descriptors,
and a directory's sorted table is a slot read as bytes.  So do indices that lead
out of an object: what lies behind it has the offsets from its size on, what lies
in front of it the negative ones.
-/

namespace JfsReader

abbrev Bytes := ℤ → UInt8

namespace Bytes

def byte (b : Bytes) (o : ℤ) : ℕ := (b o).toNat

def le16 (b : Bytes) (o : ℤ) : ℕ := b.byte o + 2 ^ 8 * b.byte (o + 1)

def le24 (b : Bytes) (o : ℤ) : ℕ := b.le16 o + 2 ^ 16 * b.byte (o + 2)

def le32 (b : Bytes) (o : ℤ) : ℕ := b.le16 o + 2 ^ 16 * b.le16 (o + 2)

def le64 (b : Bytes) (o : ℤ) : ℕ := b.le32 o + 2 ^ 32 * b.le32 (o + 4)

def s8 (b : Bytes) (o : ℤ) : ℤ :=
  if b.byte o < 2 ^ 7 then b.byte o else (b.byte o : ℤ) - 2 ^ 8

def s16 (b : Bytes) (o : ℤ) : ℤ :=
  if b.le16 o < 2 ^ 15 then b.le16 o else (b.le16 o : ℤ) - 2 ^ 16

def shift (b : Bytes) (o : ℤ) : Bytes := fun i => b (o + i)

def memcpy (dst src : Bytes) (n : ℕ) : Bytes :=
  fun i => if 0 ≤ i ∧ i < n then src i else dst i

def sparse (l : List (ℕ × UInt8)) : Bytes :=
  fun i => if i < 0 then 0 else (l.lookup i.toNat).getD 0

def Agree (n : ℕ) (b c : Bytes) : Prop :=
  ∀ i : ℤ, 0 ≤ i → i < n → b i = c i

theorem memcpy_memcpy (dst src src' : Bytes) (n : ℕ) :
    (dst.memcpy src n).memcpy src' n = dst.memcpy src' n := by
  funext i
  unfold memcpy
  split_ifs <;> rfl

@[simp] theorem shift_apply (b : Bytes) (o i : ℤ) : b.shift o i = b (o + i) := rfl

theorem byte_lt (b : Bytes) (o : ℤ) : b.byte o < 2 ^ 8 := (b o).toNat_lt

theorem le16_lt (b : Bytes) (o : ℤ) : b.le16 o < 2 ^ 16 := by
  have hlo := b.byte_lt o
  have hhi := b.byte_lt (o + 1)
  unfold le16
  omega

theorem le32_lt (b : Bytes) (o : ℤ) : b.le32 o < 2 ^ 32 := by
  have hlo := b.le16_lt o
  have hhi := b.le16_lt (o + 2)
  unfold le32
  omega

namespace Agree

variable {n : ℕ} {b c d : Bytes}

theorem refl (n : ℕ) (b : Bytes) : Agree n b b := fun _ _ _ => rfl

theorem symm (h : Agree n b c) : Agree n c b := fun i hlo hhi => (h i hlo hhi).symm

theorem trans (h : Agree n b c) (h' : Agree n c d) : Agree n b d :=
  fun i hlo hhi => (h i hlo hhi).trans (h' i hlo hhi)

theorem byte (h : Agree n b c) {o : ℤ} (ho : 0 ≤ o ∧ o < n) : b.byte o = c.byte o := by
  unfold Bytes.byte
  rw [h o ho.1 ho.2]

theorem le16 (h : Agree n b c) {o : ℤ} (ho : 0 ≤ o ∧ o + 2 ≤ n) :
    b.le16 o = c.le16 o := by
  unfold Bytes.le16
  rw [h.byte (o := o) (by omega), h.byte (o := o + 1) (by omega)]

theorem le24 (h : Agree n b c) {o : ℤ} (ho : 0 ≤ o ∧ o + 3 ≤ n) :
    b.le24 o = c.le24 o := by
  unfold Bytes.le24
  rw [h.le16 (o := o) (by omega), h.byte (o := o + 2) (by omega)]

theorem le32 (h : Agree n b c) {o : ℤ} (ho : 0 ≤ o ∧ o + 4 ≤ n) :
    b.le32 o = c.le32 o := by
  unfold Bytes.le32
  rw [h.le16 (o := o) (by omega), h.le16 (o := o + 2) (by omega)]

theorem le64 (h : Agree n b c) {o : ℤ} (ho : 0 ≤ o ∧ o + 8 ≤ n) :
    b.le64 o = c.le64 o := by
  unfold Bytes.le64
  rw [h.le32 (o := o) (by omega), h.le32 (o := o + 4) (by omega)]

theorem s8 (h : Agree n b c) {o : ℤ} (ho : 0 ≤ o ∧ o < n) : b.s8 o = c.s8 o := by
  unfold Bytes.s8
  rw [h.byte ho]

theorem s16 (h : Agree n b c) {o : ℤ} (ho : 0 ≤ o ∧ o + 2 ≤ n) :
    b.s16 o = c.s16 o := by
  unfold Bytes.s16
  rw [h.le16 ho]

theorem memcpy_src (dst src : Bytes) (n : ℕ) : Agree n (dst.memcpy src n) src := by
  intro i hlo hhi
  simp [Bytes.memcpy, hlo, hhi]

end Agree

end Bytes

/-! ## Conversions between C's integer types -/

def int32 (x : ℤ) : ℤ := x.bmod (2 ^ 32)

def int64 (x : ℤ) : ℤ := x.bmod (2 ^ 64)

def uint32 (x : ℤ) : ℤ := x % 2 ^ 32

theorem int32_of_bounds {x : ℤ} (hlo : -2 ^ 31 ≤ x) (hhi : x < 2 ^ 31) :
    int32 x = x := by
  unfold int32
  apply Int.bmod_eq_of_le_mul_two <;> push_cast <;> omega

theorem int32_eq_iff (x : ℤ) : int32 x = x ↔ -2 ^ 31 ≤ x ∧ x < 2 ^ 31 := by
  constructor
  · intro heq
    have hlo := Int.le_bmod (x := x) (m := 2 ^ 32) (by decide)
    have hhi := Int.bmod_lt (x := x) (m := 2 ^ 32) (by decide)
    unfold int32 at heq
    rw [heq] at hlo hhi
    push_cast at hlo hhi
    omega
  · rintro ⟨hlo, hhi⟩
    exact int32_of_bounds hlo hhi

theorem int64_of_bounds {x : ℤ} (hlo : -2 ^ 63 ≤ x) (hhi : x < 2 ^ 63) :
    int64 x = x := by
  unfold int64
  apply Int.bmod_eq_of_le_mul_two <;> push_cast <;> omega

theorem uint32_of_bounds {x : ℤ} (hlo : 0 ≤ x) (hhi : x < 2 ^ 32) :
    uint32 x = x :=
  Int.emod_eq_of_lt hlo hhi

/-! ## Constants of the headers -/

def btLeaf : UInt8 := 0x02
def btInternal : UInt8 := 0x04
def xtEntryStart : ℤ := 2
def xtRootMaxSlot : ℤ := 18
def xtPageMaxSlot : ℤ := 256
def pageSize : ℕ := 4096
def l2PageSize : ℕ := 12
def ifmt : ℕ := 0xF000
def ifdir : ℕ := 0x4000

/-! ## Extent descriptors and extent pages -/

/-- `xad_t`, without its flag and reserved bits. -/
structure Xad where
  off1 : BitVec 8
  off2 : BitVec 32
  len : BitVec 24
  addr1 : BitVec 8
  addr2 : BitVec 32
deriving DecidableEq

def offsetXAD (x : Xad) : ℕ := x.off1.toNat <<< 32 ||| x.off2.toNat

def lengthXAD (x : Xad) : ℕ := x.len.toNat

def addressXAD (x : Xad) : ℕ := x.addr1.toNat <<< 32 ||| x.addr2.toNat

theorem addressXAD_lt (x : Xad) : addressXAD x < 2 ^ 40 := by
  have haddr1 := x.addr1.isLt
  have haddr2 := x.addr2.isLt
  apply Nat.or_lt_two_pow
  · rw [Nat.shiftLeft_eq]
    omega
  · omega

theorem lengthXAD_lt (x : Xad) : lengthXAD x < 2 ^ 24 := x.len.isLt

/-- `XT_CMP` and `XT_CMP_4`, which differ only in where they keep the offset. -/
def xtCmp (k : ℤ) (x : Xad) : ℤ :=
  if k ≥ offsetXAD x + lengthXAD x then 1 else if k < offsetXAD x then -1 else 0

theorem xtCmp_pos_iff (k : ℤ) (x : Xad) :
    0 < xtCmp k x ↔ (offsetXAD x : ℤ) + lengthXAD x ≤ k := by
  unfold xtCmp
  split_ifs <;> omega

theorem xtCmp_neg_iff (k : ℤ) (x : Xad) :
    xtCmp k x < 0 ↔ k < offsetXAD x := by
  unfold xtCmp
  split_ifs <;> omega

theorem xtCmp_eq_zero_iff (k : ℤ) (x : Xad) :
    xtCmp k x = 0 ↔ (offsetXAD x : ℤ) ≤ k ∧ k < offsetXAD x + lengthXAD x := by
  have hpos := xtCmp_pos_iff k x
  have hneg := xtCmp_neg_iff k x
  omega

/-- `xtpage_t`, at any address: the inode's root or a 4 KiB page. -/
structure XtPage where
  bytes : Bytes

namespace XtPage

def flag (p : XtPage) : UInt8 := p.bytes 16

def nextindex (p : XtPage) : ℤ := p.bytes.s16 18

/-- A negative index leads to the memory in front of the page. -/
def xad (p : XtPage) (index : ℤ) : Xad where
  off1 := .ofNat 8 (p.bytes.byte (16 * index + 3))
  off2 := .ofNat 32 (p.bytes.le32 (16 * index + 4))
  len := .ofNat 24 (p.bytes.le24 (16 * index + 8))
  addr1 := .ofNat 8 (p.bytes.byte (16 * index + 11))
  addr2 := .ofNat 32 (p.bytes.le32 (16 * index + 12))

def isLeaf (p : XtPage) : Bool := p.flag &&& btLeaf != 0

def isInternal (p : XtPage) : Bool := p.flag &&& btInternal != 0

end XtPage

def XtPage.Same (capacity : ℤ) (p q : XtPage) : Prop :=
  Bytes.Agree (16 * capacity.toNat) p.bytes q.bytes

namespace XtPage.Same

variable {p q : XtPage} {capacity : ℤ}

theorem flag (h : p.Same capacity q) (hcapacity : xtEntryStart ≤ capacity) :
    p.flag = q.flag := by
  have hstart : xtEntryStart = 2 := rfl
  exact h 16 (by omega) (by omega)

theorem isLeaf (h : p.Same capacity q) (hcapacity : xtEntryStart ≤ capacity) :
    p.isLeaf = q.isLeaf := by
  unfold XtPage.isLeaf
  rw [h.flag hcapacity]

theorem isInternal (h : p.Same capacity q) (hcapacity : xtEntryStart ≤ capacity) :
    p.isInternal = q.isInternal := by
  unfold XtPage.isInternal
  rw [h.flag hcapacity]

theorem nextindex (h : p.Same capacity q) (hcapacity : xtEntryStart ≤ capacity) :
    p.nextindex = q.nextindex := by
  have hstart : xtEntryStart = 2 := rfl
  exact Bytes.Agree.s16 h (by omega)

theorem xad (h : p.Same capacity q) {index : ℤ} (hlo : 0 ≤ index)
    (hhi : index < capacity) : p.xad index = q.xad index := by
  unfold XtPage.xad
  rw [Bytes.Agree.byte h (o := 16 * index + 3) (by omega),
    Bytes.Agree.le32 h (o := 16 * index + 4) (by omega),
    Bytes.Agree.le24 h (o := 16 * index + 8) (by omega),
    Bytes.Agree.byte h (o := 16 * index + 11) (by omega),
    Bytes.Agree.le32 h (o := 16 * index + 12) (by omega)]

theorem entry (h : p.Same capacity q) (hle : q.nextindex ≤ capacity) {index : ℤ}
    (hlo : xtEntryStart ≤ index) (hhi : index < q.nextindex) : p.xad index = q.xad index := by
  have hstart : xtEntryStart = 2 := rfl
  exact h.xad (by omega) (by omega)

end XtPage.Same

/-! ## Physical extents, inodes and inode allocation groups -/

structure Pxd where
  len : BitVec 24
  addr1 : BitVec 8
  addr2 : BitVec 32
deriving DecidableEq

def addressPXD (x : Pxd) : ℕ := x.addr1.toNat <<< 32 ||| x.addr2.toNat

def pxdAt (b : Bytes) (o : ℤ) : Pxd where
  len := .ofNat 24 (b.le24 o)
  addr1 := .ofNat 8 (b.byte (o + 3))
  addr2 := .ofNat 32 (b.le32 (o + 4))

theorem pxdAt_congr {n : ℕ} {b c : Bytes} (h : Bytes.Agree n b c) {o : ℤ}
    (ho : 0 ≤ o ∧ o + 8 ≤ n) : pxdAt b o = pxdAt c o := by
  unfold pxdAt
  rw [h.le24 (o := o) (by omega), h.byte (o := o + 3) (by omega), h.le32 (o := o + 4) (by omega)]

def sizeofDinode : ℕ := 512

/-- `dinode_t`, with the fields the readers look at. -/
structure Dinode where
  bytes : Bytes

namespace Dinode

def diMode (d : Dinode) : ℕ := d.bytes.le32 52

/-- `&inode.di_btroot`, shared by the extent root and the directory root. -/
def diBtroot (d : Dinode) : Bytes := d.bytes.shift 224

end Dinode

def sizeofIag : ℕ := 4096

structure Iag where
  bytes : Bytes

def Iag.inoext (iag : Iag) (extnum : ℕ) : Pxd := pxdAt iag.bytes (3072 + 8 * extnum)

end JfsReader
