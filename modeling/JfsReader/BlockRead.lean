import JfsReader.BlockCover
import JfsReader.DiskLayout

/-!
# Reading byte ranges of the mapped disk

`xRead` serves every metadata read.  Block-aligned reads go straight to the
image; the others pass through a bounce buffer that covers the enclosing
blocks.  Signed 64-bit addresses are kept as their bit patterns, on which the
mask, the subtraction and the conversion to `uint64_t` are the same operation.
-/

namespace JfsReader

open BlockCover

/-- The local variables that the readers read into; `inode` is `di` in
`read_node`. -/
inductive LocalVariable
  | filesetInode
  | buffer
  | iag
  | inode
  | dtree

/-- What the reading functions see of the running translator: the mapped
image, the superblock's block size, the allocator and the stack.  `malloc n` is
the initial content of a new block of `n` bytes, or `none` when it is refused;
`stack v` is the memory at `v`, and around it, before anything is read into it. -/
structure Mount where
  image : Bytes
  l2bsize : ℕ
  l2bsize_ge : 9 ≤ l2bsize
  l2bsize_le : l2bsize ≤ 12
  malloc : ℕ → Option Bytes
  stack : LocalVariable → Bytes := fun _ => Bytes.sparse []

namespace Mount

/-- The bounds of `l2bsize` for blocks of one page. -/
theorem pageBlocks_ge : 9 ≤ 12 := by decide

theorem pageBlocks_le : 12 ≤ 12 := le_rfl

def bsize (m : Mount) : ℕ := 2 ^ m.l2bsize

def HasMemory (m : Mount) : Prop := ∀ n, (m.malloc n).isSome

/-- `memcpy` returns its first argument, which is never null here, so the
error return is not taken. -/
def ujfsReadDiskblocks (m : Mount) (diskOffset diskCount : ℕ)
    (dataBuffer : Bytes) : Option Bytes :=
  some (dataBuffer.memcpy (m.image.shift diskOffset) diskCount)

def xRead (m : Mount) (address count : ℕ) (buffer : Bytes) : Option Bytes :=
  let offset := (address &&& (m.bsize - 1)) % 2 ^ 32
  -- `~(bsize - 1)` converted to `uint32_t`
  let length := ((offset + count + m.bsize - 1) % 2 ^ 32) &&& (2 ^ 32 - m.bsize)
  if offset = 0 ∧ length = count then m.ujfsReadDiskblocks address count buffer
  else
    match m.malloc length with
    | none => none
    | some blockBuffer =>
        match m.ujfsReadDiskblocks (address - offset) length blockBuffer with
        | none => none
        | some blockBuffer => some (buffer.memcpy (blockBuffer.shift offset) count)

def block (m : Mount) (block : ℕ) : Bytes := m.image.shift (block <<< m.l2bsize)

theorem bsize_pos (m : Mount) : 0 < m.bsize := Nat.two_pow_pos _

theorem bsize_le (m : Mount) : m.bsize ≤ 4096 :=
  Nat.pow_le_pow_right (by decide) m.l2bsize_le

theorem bsize_dvd_pageSize (m : Mount) : m.bsize ∣ pageSize :=
  Nat.pow_dvd_pow 2 m.l2bsize_le

theorem HasMemory.exists_malloc {m : Mount} (hmem : m.HasMemory) (n : ℕ) :
    ∃ b, m.malloc n = some b :=
  Option.isSome_iff_exists.mp (hmem n)

end Mount

/-! ## The rounding arithmetic -/

theorem and_high_mask_eq (x k : ℕ) (hk : k ≤ 32) (hx : x < 2 ^ 32) :
    x &&& (2 ^ 32 - 2 ^ k) = x / 2 ^ k * 2 ^ k := by
  have hmask : 2 ^ 32 - 2 ^ k = (2 ^ (32 - k) - 1) <<< k := by
    rw [Nat.shiftLeft_eq, Nat.sub_mul, ← Nat.pow_add, Nat.sub_add_cancel hk, one_mul]
  rw [hmask, ← Nat.shiftRight_eq_div_pow, ← Nat.shiftLeft_eq]
  apply Nat.eq_of_testBit_eq
  intro i
  simp only [Nat.testBit_and, Nat.testBit_shiftLeft, Nat.testBit_two_pow_sub_one,
    Nat.testBit_shiftRight]
  by_cases hik : k ≤ i
  · have hsum : k + (i - k) = i := by omega
    rw [hsum]
    by_cases hi : i < 32
    · have hlt : i - k < 32 - k := by omega
      simp [hik, hlt]
    · have hbit : x.testBit i = false := by
        apply Nat.testBit_lt_two_pow
        calc
          x < 2 ^ 32 := hx
          _ ≤ 2 ^ i := Nat.pow_le_pow_right (by decide) (by omega)
      simp [hbit]
  · simp [hik]

namespace Mount

theorem xRead_offset_eq (m : Mount) (address : ℕ) :
    (address &&& (m.bsize - 1)) % 2 ^ 32 = address % m.bsize := by
  have hlt := Nat.mod_lt address m.bsize_pos
  have hle := m.bsize_le
  unfold bsize at hlt hle ⊢
  rw [Nat.and_two_pow_sub_one_eq_mod, Nat.mod_eq_of_lt (by omega)]

theorem xRead_length_eq (m : Mount) {n : ℕ} (hwidth : n + m.bsize - 1 < 2 ^ 32) :
    ((n + m.bsize - 1) % 2 ^ 32) &&& (2 ^ 32 - m.bsize) = roundUp m.bsize n := by
  rw [Nat.mod_eq_of_lt hwidth]
  unfold bsize at hwidth ⊢
  exact and_high_mask_eq _ _ (by have := m.l2bsize_le; omega) hwidth

theorem block_aligned (m : Mount) (b : ℕ) : m.bsize ∣ b <<< m.l2bsize := by
  rw [Nat.shiftLeft_eq]
  exact Dvd.intro_left b rfl

theorem xRead_page (m : Mount) (b : ℕ) (buffer : Bytes) :
    m.xRead (b <<< m.l2bsize) pageSize buffer =
      some (buffer.memcpy (m.block b) pageSize) := by
  have hle := m.bsize_le
  have hsize : pageSize = 4096 := rfl
  have hoffset : (b <<< m.l2bsize) % m.bsize = 0 := Nat.mod_eq_zero_of_dvd (m.block_aligned b)
  have hlength : roundUp m.bsize (0 + pageSize) = pageSize := by
    rw [Nat.zero_add]
    exact le_antisymm (roundUp_le_of_dvd m.bsize_pos m.bsize_dvd_pageSize le_rfl)
      (le_roundUp m.bsize_pos pageSize)
  unfold xRead
  simp only [xRead_offset_eq, hoffset, m.xRead_length_eq (n := 0 + pageSize) (by omega), hlength,
    and_self, if_true]
  rfl

theorem xRead_delivers (m : Mount) (hmem : m.HasMemory) (address count : ℕ)
    (hcount : count ≤ pageSize) (buffer : Bytes) :
    ∃ out, m.xRead address count buffer = some out ∧
      Bytes.Agree count out (m.image.shift address) := by
  have hpos := m.bsize_pos
  have hle := m.bsize_le
  have hsize : pageSize = 4096 := rfl
  have hoffset := Nat.mod_lt address hpos
  have hoffsetLe := Nat.mod_le address m.bsize
  unfold xRead
  dsimp only
  rw [xRead_offset_eq, m.xRead_length_eq (n := address % m.bsize + count) (by omega)]
  split_ifs with hdirect
  · exact ⟨_, rfl, Bytes.Agree.memcpy_src _ _ _⟩
  · have hcover := le_roundUp hpos (address % m.bsize + count)
    generalize roundUp m.bsize (address % m.bsize + count) = length at hcover ⊢
    obtain ⟨blockBuffer, hmalloc⟩ := hmem.exists_malloc length
    rw [hmalloc]
    refine ⟨_, rfl, ?_⟩
    intro i hlo hhi
    have hwithin : 0 ≤ ((address % m.bsize : ℕ) : ℤ) + i ∧
        ((address % m.bsize : ℕ) : ℤ) + i < length := by omega
    have haddr : ((address - address % m.bsize : ℕ) : ℤ) + ((address % m.bsize : ℕ) + i) =
        address + i := by omega
    simp only [Bytes.memcpy, Bytes.shift_apply, hlo, hhi, and_self, if_true, hwithin, haddr]

end Mount

end JfsReader
