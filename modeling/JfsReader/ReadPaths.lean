import JfsReader.BlockRead

/-!
# The two paths of `xRead`

A read of whole blocks goes to the disk directly, any other through a bounce
buffer.  Both make one read of the disk, of the least run of blocks that covers
the bytes, and deliver these bytes and no others.
-/

namespace JfsReader

open BlockCover

namespace Mount

/-- The local variable `offset`. -/
def readOffset (m : Mount) (address : ℕ) : ℕ := (address &&& (m.bsize - 1)) % 2 ^ 32

/-- The local variable `length`. -/
def readLength (m : Mount) (address count : ℕ) : ℕ :=
  ((m.readOffset address + count + m.bsize - 1) % 2 ^ 32) &&& (2 ^ 32 - m.bsize)

/-- The path through the bounce buffer. -/
def bounceRead (m : Mount) (read : ℕ → ℕ → Bytes → Option Bytes) (address count : ℕ)
    (buffer : Bytes) : Option Bytes :=
  match m.malloc (m.readLength address count) with
  | none => none
  | some blockBuffer =>
      match read (address - m.readOffset address) (m.readLength address count) blockBuffer with
      | none => none
      | some blockBuffer =>
          some (buffer.memcpy (blockBuffer.shift (m.readOffset address)) count)

/-- `xRead`, over any way to read the disk. -/
def xReadWith (m : Mount) (read : ℕ → ℕ → Bytes → Option Bytes) (address count : ℕ)
    (buffer : Bytes) : Option Bytes :=
  if m.readOffset address = 0 ∧ m.readLength address count = count then read address count buffer
  else m.bounceRead read address count buffer

theorem xReadWith_ujfsReadDiskblocks (m : Mount) :
    m.xReadWith m.ujfsReadDiskblocks = m.xRead := rfl

/-- Whatever the disk answers, the call reads `length` bytes from `position` on,
once, and goes on from there. -/
def OneRead (m : Mount) (address count : ℕ) (buffer : Bytes) (position length : ℕ) : Prop :=
  ∃ (target : Bytes) (deliver : Bytes → Bytes), ∀ read,
    m.xReadWith read address count buffer = (read position length target).map deliver

variable {m : Mount} {size address count : ℕ}

theorem readOffset_eq (m : Mount) (address : ℕ) : m.readOffset address = address % m.bsize :=
  m.xRead_offset_eq address

theorem readLength_eq (hwidth : address % m.bsize + count + m.bsize - 1 < 2 ^ 32) :
    m.readLength address count = roundUp m.bsize (address % m.bsize + count) := by
  unfold readLength
  rw [readOffset_eq]
  exact m.xRead_length_eq hwidth

theorem sub_readOffset (m : Mount) (address : ℕ) :
    address - m.readOffset address = roundDown m.bsize address := by
  rw [readOffset_eq, roundDown_eq]

theorem bounceRead_of_malloc {blockBuffer : Bytes}
    (hmalloc : m.malloc (m.readLength address count) = some blockBuffer)
    (read : ℕ → ℕ → Bytes → Option Bytes) (buffer : Bytes) :
    m.bounceRead read address count buffer =
      (read (address - m.readOffset address) (m.readLength address count) blockBuffer).map
        fun blockBuffer => buffer.memcpy (blockBuffer.shift (m.readOffset address)) count := by
  unfold bounceRead
  rw [hmalloc]
  dsimp only
  cases read (address - m.readOffset address) (m.readLength address count) blockBuffer <;> rfl

theorem oneRead (hmalloc : (m.malloc (m.readLength address count)).isSome) (buffer : Bytes) :
    m.OneRead address count buffer (address - m.readOffset address)
      (m.readLength address count) := by
  obtain ⟨blockBuffer, hblock⟩ := Option.isSome_iff_exists.mp hmalloc
  unfold OneRead xReadWith
  by_cases hdirect : m.readOffset address = 0 ∧ m.readLength address count = count
  · obtain ⟨hoffset, hlength⟩ := hdirect
    refine ⟨buffer, id, fun read => ?_⟩
    rw [if_pos ⟨hoffset, hlength⟩, hoffset, hlength, Option.map_id]
    rfl
  · refine ⟨blockBuffer,
      fun blockBuffer => buffer.memcpy (blockBuffer.shift (m.readOffset address)) count,
      fun read => ?_⟩
    rw [if_neg hdirect]
    exact bounceRead_of_malloc hblock read buffer

theorem bounceRead_delivers (hmalloc : (m.malloc (m.readLength address count)).isSome)
    (hcover : m.readOffset address + count ≤ m.readLength address count) (buffer : Bytes) :
    m.bounceRead m.ujfsReadDiskblocks address count buffer =
      some (buffer.memcpy (m.image.shift address) count) := by
  obtain ⟨blockBuffer, hblock⟩ := Option.isSome_iff_exists.mp hmalloc
  have hle : m.readOffset address ≤ address := by
    rw [readOffset_eq]
    exact Nat.mod_le _ _
  rw [bounceRead_of_malloc hblock]
  unfold ujfsReadDiskblocks
  rw [Option.map_some, Option.some.injEq]
  funext i
  unfold Bytes.memcpy
  by_cases hi : 0 ≤ i ∧ i < count
  · have hinside : 0 ≤ (m.readOffset address : ℤ) + i ∧
        (m.readOffset address : ℤ) + i < m.readLength address count := by omega
    have hbyte : ((address - m.readOffset address : ℕ) : ℤ) + (m.readOffset address + i) =
        address + i := by omega
    simp only [hi, and_self, if_true, Bytes.shift_apply, hinside, hbyte]
  · rw [if_neg hi, if_neg hi]

theorem xRead_eq_bounceRead (hmalloc : (m.malloc (m.readLength address count)).isSome)
    (hcover : m.readOffset address + count ≤ m.readLength address count) (buffer : Bytes) :
    m.xRead address count buffer =
      m.bounceRead m.ujfsReadDiskblocks address count buffer := by
  rw [← xReadWith_ujfsReadDiskblocks]
  unfold xReadWith
  split_ifs
  · rw [bounceRead_delivers hmalloc hcover]
    rfl
  · rfl

/-- Exactly the bytes that are asked for, on either path, from the least run of
blocks that covers them. -/
theorem xRead_exact (m : Mount) (hsize : m.bsize ∣ size) (hcount : 1 ≤ count)
    (hwidth : address % m.bsize + count + m.bsize - 1 < 2 ^ 32)
    (hinside : address + count ≤ size)
    (hmalloc : (m.malloc (m.readLength address count)).isSome) (buffer : Bytes) :
    m.xRead address count buffer = some (buffer.memcpy (m.image.shift address) count) ∧
    m.bounceRead m.ujfsReadDiskblocks address count buffer =
      some (buffer.memcpy (m.image.shift address) count) ∧
    m.OneRead address count buffer (address - m.readOffset address)
      (m.readLength address count) ∧
    IsLeast (covers m.bsize (Set.Ico address (address + count)))
      (Set.Ico (address - m.readOffset address)
        (address - m.readOffset address + m.readLength address count)) ∧
    address - m.readOffset address + m.readLength address count ≤ size ∧
    m.readOffset address + count ≤ m.readLength address count := by
  have hpos := m.bsize_pos
  have hcover : m.readOffset address + count ≤ m.readLength address count := by
    rw [readLength_eq hwidth, readOffset_eq]
    exact le_roundUp hpos _
  have hend : address - m.readOffset address + m.readLength address count =
      roundUp m.bsize (address + count) := by
    rw [sub_readOffset, readLength_eq hwidth, roundDown_add_roundUp hpos]
  have hbounce := bounceRead_delivers hmalloc hcover buffer
  refine ⟨(xRead_eq_bounceRead hmalloc hcover buffer).trans hbounce, hbounce,
    oneRead hmalloc buffer, ?_, ?_, hcover⟩
  · rw [hend, sub_readOffset]
    exact isLeast_covers hpos (by omega)
  · rw [hend]
    exact roundUp_le_of_dvd hpos hsize hinside

end Mount

def borderMount : Mount where
  image := fun i => .ofNat i.toNat
  l2bsize := 10
  l2bsize_ge := by decide
  l2bsize_le := by decide
  malloc := fun _ => some fun _ => 7

/-- Ten bytes across the border of two blocks of 1024 bytes. -/
theorem xRead_exact_border :
    ∃ out, borderMount.xRead 1019 10 (fun _ => 1) = some out ∧
      ((List.range 11).map fun i => out i) = [251, 252, 253, 254, 255, 0, 1, 2, 3, 4, 1] := by
  have hread := (@Mount.xRead_exact 2048 1019 10 borderMount (by decide) (by decide)
    (by decide) (by decide) rfl fun _ => 1).1
  exact ⟨_, hread, by decide⟩

end JfsReader
