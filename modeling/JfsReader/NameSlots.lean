import JfsReader.BlockRead
import JfsReader.StepMachine
import JfsReader.UnicodeConversion

/-!
# Directory entries and their names

A leaf entry keeps the first eleven characters of its name and hands the rest
to a chain of slots.  `name_inum` and `print_direntry` assemble the name with
the same text, which is modelled once; they differ in what they do with the
converted bytes.
-/

namespace JfsReader

open StepMachine WriteBuffer

def dtslotSize : ℕ := 32
def dtSlotDataLen : ℕ := 15
def dtlHdrDataLen : ℕ := 11

structure DtSlot where
  bytes : Bytes

def DtSlot.next (s : DtSlot) : ℤ := s.bytes.s8 0

def DtSlot.name (s : DtSlot) (k : ℕ) : UniChar := .ofNat (s.bytes.le16 (2 + 2 * k))

structure LdtEntry where
  bytes : Bytes

namespace LdtEntry

def inumber (e : LdtEntry) : ℕ := e.bytes.le32 0
def next (e : LdtEntry) : ℤ := e.bytes.s8 4
def namlen (e : LdtEntry) : ℕ := e.bytes.byte 5
def name (e : LdtEntry) (k : ℕ) : UniChar := .ofNat (e.bytes.le16 (6 + 2 * k))

end LdtEntry

def dtslot (slot : Bytes) (i : ℕ) : DtSlot := ⟨slot.shift (dtslotSize * i)⟩

def ldtentry (slot : Bytes) (i : ℕ) : LdtEntry := ⟨slot.shift (dtslotSize * i)⟩

def uniPad : ℕ → ℕ → Buffer UniChar → Buffer UniChar
  | 0, _, b => b
  | n + 1, ucs1, b => uniPad n (ucs1 + 1) (b.write ucs1 0)

/-- `UniStrncpy`, reading from `ucs2 + k`.  The test that ends the copying has
already decremented `n`, past zero if need be, and `n++` takes that back. -/
def uniStrncpy (ucs2 : ℕ → UniChar) : ℕ → ℕ → ℕ → Buffer UniChar → Buffer UniChar
  | 0, _, _, b => b
  | n + 1, k, ucs1, b =>
      if ucs2 k ≠ 0 then uniStrncpy ucs2 n (k + 1) (ucs1 + 1) (b.write ucs1 (ucs2 k))
      else uniPad (n + 1) ucs1 b

/-- The variables of the loop over the chain.  `len` never exceeds `namlen`. -/
structure ChainState where
  next : ℤ
  namlen : ℕ
  len : ℕ
  n : ℕ
  name : Buffer UniChar

def chainStep (slot : Bytes) (c : ChainState) : ChainState ⊕ Buffer UniChar :=
  if c.next ≥ 0 then
    let s := dtslot slot c.next.toNat
    let namlen := c.namlen - c.len
    let len := min namlen dtSlotDataLen
    .inl ⟨s.next, namlen, len, c.n + len, uniStrncpy s.name len 0 c.n c.name⟩
  else .inr c.name

def chainStart (entry : LdtEntry) (name : Buffer UniChar) : ChainState :=
  let name := name.write entry.namlen 0
  let len := min entry.namlen dtlHdrDataLen
  ⟨entry.next, entry.namlen, len, len, uniStrncpy entry.name len 0 0 name⟩

/-- The part of `name_inum` and `print_direntry` up to the conversion: `none`
when cut off, `some none` when there is no memory for the name. -/
def assembleName (m : Mount) (fuel : ℕ) (slot : Bytes) (headIndex : ℕ) :
    Option (Option (Buffer UniChar)) :=
  let entry := ldtentry slot headIndex
  match m.malloc (2 * (entry.namlen + 1)) with
  | none => some none
  | some bytes =>
      match run (chainStep slot) fuel
          (chainStart entry (.fresh fun k => .ofNat (bytes.le16 (2 * k)))) with
      | .inl _ => none
      | .inr name => some (some name)

/-- `UTF8_Buffer` after the conversion.  It is cleared first, so nothing of an
earlier name is left in it. -/
def convertName (entry : LdtEntry) (name : Buffer UniChar) : Buffer UInt8 :=
  (unicodeStringToUtf8String (.fresh fun _ => 0) name.cells entry.namlen).1

def nameInum (m : Mount) (fuel : ℕ) (slot : Bytes) (headIndex : ℕ)
    (rname : Buffer UInt8) (gotinum : ℕ) : Option (Buffer UInt8 × ℕ) :=
  let entry := ldtentry slot headIndex
  match assembleName m fuel slot headIndex with
  | none => none
  | some none => some (rname, gotinum)
  | some (some name) =>
      let rname := rname.writeFrom 0 ((convertName entry name).read 0 entry.namlen)
      some (rname.write entry.namlen 0, entry.inumber)

/-- A plain `char`, which is signed, as the `int` it is compared as. -/
def charToInt (c : UInt8) : ℤ := if c.toNat < 128 then c.toNat else (c.toNat : ℤ) - 256

/-- `*gotinum = -1` -/
def noInum : ℕ := 2 ^ 64 - 1

def namesMatch (utf8 : ℕ → UInt8) (sname : List UInt8) (snamelen : ℕ) : Bool :=
  (List.range snamelen).all fun i => decide (((utf8 i).toNat : ℤ) = charToInt (sname.getD i 0))

/-- The return value and `*gotinum`. -/
def printDirentry (m : Mount) (fuel : ℕ) (slot : Bytes) (headIndex : ℕ)
    (sname : List UInt8) (snamelen gotinum : ℕ) : Option (ℕ × ℕ) :=
  let entry := ldtentry slot headIndex
  match assembleName m fuel slot headIndex with
  | none => none
  | some none => some (1, gotinum)
  | some (some name) =>
      -- no test that the converted name ends where `sname` does
      if namesMatch (convertName entry name).cells sname snamelen then
        some (0, entry.inumber)
      else some (1, noInum)

/-! ## What the copying writes -/

def uniPadded : List UniChar → List UniChar
  | [] => []
  | u :: us => if u ≠ 0 then u :: uniPadded us else List.replicate (us.length + 1) 0

@[simp] theorem uniPadded_length (us : List UniChar) : (uniPadded us).length = us.length := by
  induction us with
  | nil => rfl
  | cons u us ih =>
      unfold uniPadded
      split_ifs <;> simp [ih]

theorem uniPadded_of_nonzero {us : List UniChar} (h : ∀ u ∈ us, u ≠ 0) :
    uniPadded us = us := by
  induction us with
  | nil => rfl
  | cons u us ih =>
      rw [uniPadded, if_pos (h u (by simp)), ih (fun v hv => h v (by simp [hv]))]

theorem uniPad_eq (n ucs1 : ℕ) (b : Buffer UniChar) :
    uniPad n ucs1 b = b.writeFrom ucs1 (List.replicate n 0) := by
  induction n generalizing ucs1 b with
  | zero => rfl
  | succ n ih => rw [uniPad, ih, List.replicate_succ, Buffer.writeFrom_cons]

theorem uniStrncpy_eq (ucs2 : ℕ → UniChar) (n k ucs1 : ℕ) (b : Buffer UniChar) :
    uniStrncpy ucs2 n k ucs1 b =
      b.writeFrom ucs1 (uniPadded ((List.range' k n).map ucs2)) := by
  induction n generalizing k ucs1 b with
  | zero => rfl
  | succ n ih =>
      rw [uniStrncpy, List.range'_succ, List.map_cons, uniPadded]
      by_cases hzero : ucs2 k ≠ 0
      · rw [if_pos hzero, if_pos hzero, ih, Buffer.writeFrom_cons]
      · rw [if_neg hzero, if_neg hzero, uniPad_eq]
        simp

/-! ## The chain of slots -/

/-- From the link `next` the slots `chain` follow, all inside an array of
`count` slots, and the last one has a negative link. -/
inductive SlotChain (slot : Bytes) (count : ℕ) : ℤ → List ℕ → Prop
  | done {next : ℤ} : next < 0 → SlotChain slot count next []
  | link {i : ℕ} {rest : List ℕ} : i < count →
      SlotChain slot count (dtslot slot i).next rest → SlotChain slot count i (i :: rest)

namespace SlotChain

variable {slot : Bytes} {count : ℕ} {next : ℤ} {chain chain' : List ℕ}

theorem unique (h : SlotChain slot count next chain) (h' : SlotChain slot count next chain') :
    chain = chain' := by
  induction h generalizing chain' with
  | done hneg =>
      cases h' with
      | done _ => rfl
      | link _ _ => omega
  | @link i rest _ _ ih =>
      generalize hnext : (i : ℤ) = next' at h'
      cases h' with
      | done hneg => omega
      | @link j rest' _ hrest' =>
          obtain rfl : i = j := by omega
          rw [ih hrest']

theorem lt_of_mem (h : SlotChain slot count next chain) {i : ℕ} (hi : i ∈ chain) :
    i < count := by
  induction h with
  | done _ => simp at hi
  | link hlt _ ih =>
      rcases List.mem_cons.mp hi with rfl | hrest
      · exact hlt
      · exact ih hrest

theorem exists_suffix (h : SlotChain slot count next chain) {i : ℕ} (hi : i ∈ chain) :
    ∃ rest, SlotChain slot count (dtslot slot i).next rest ∧ rest.length < chain.length := by
  induction h with
  | done _ => simp at hi
  | @link j rest _ hrest ih =>
      rcases List.mem_cons.mp hi with rfl | hmem
      · exact ⟨rest, hrest, by simp⟩
      · obtain ⟨suffix, hsuffix, hlen⟩ := ih hmem
        exact ⟨suffix, hsuffix, by rw [List.length_cons]; omega⟩

theorem nodup (h : SlotChain slot count next chain) : chain.Nodup := by
  induction h with
  | done _ => simp
  | @link i rest _ hrest ih =>
      refine List.nodup_cons.mpr ⟨?_, ih⟩
      intro hmem
      obtain ⟨suffix, hsuffix, hlen⟩ := hrest.exists_suffix hmem
      rw [hsuffix.unique hrest] at hlen
      omega

theorem length_le (h : SlotChain slot count next chain) : chain.length ≤ count := by
  have hsub : chain ⊆ List.range count := fun i hi => List.mem_range.mpr (h.lt_of_mem hi)
  simpa using (h.nodup.subperm hsub).length_le

end SlotChain

def DtSlot.units (s : DtSlot) : List UniChar := (List.range' 0 dtSlotDataLen).map s.name

def LdtEntry.units (e : LdtEntry) : List UniChar := (List.range' 0 dtlHdrDataLen).map e.name

def chainUnits (slot : Bytes) : ℕ → List ℕ → List UniChar
  | _, [] => []
  | rest, i :: is =>
      uniPadded ((dtslot slot i).units.take rest) ++
        chainUnits slot (rest - min rest dtSlotDataLen) is

theorem take_units (f : ℕ → UniChar) (rest size : ℕ) :
    ((List.range' 0 size).map f).take rest = (List.range' 0 (min rest size)).map f := by
  rw [← List.map_take]
  rcases Nat.le_total rest size with hle | hle
  · rw [List.take_range'_of_length_ge hle, min_eq_left hle]
  · rw [List.take_range'_of_length_le hle, min_eq_right hle]

variable {slot : Bytes} {count : ℕ} {next : ℤ} {chain : List ℕ}

theorem length_take_units (s : DtSlot) (rest : ℕ) :
    (s.units.take rest).length = min rest dtSlotDataLen := by
  unfold DtSlot.units
  simp

theorem chainUnits_length_le (rest : ℕ) (chain : List ℕ) :
    (chainUnits slot rest chain).length ≤ rest := by
  induction chain generalizing rest with
  | nil => simp [chainUnits]
  | cons i is ih =>
      have := ih (rest - min rest dtSlotDataLen)
      rw [chainUnits, List.length_append, uniPadded_length, length_take_units]
      omega

/-- A name of nonzero units is copied whole over a border between two slots. -/
theorem uniPadded_take_append {units more : List UniChar} {rest size : ℕ}
    (hsize : units.length = size) (hnonzero : ∀ u ∈ (units ++ more).take rest, u ≠ 0) :
    uniPadded (units.take rest) ++ more.take (rest - min rest size) =
        (units ++ more).take rest ∧
      ∀ u ∈ more.take (rest - min rest size), u ≠ 0 := by
  have hsub : rest - min rest size = rest - units.length := by omega
  rw [List.take_append] at hnonzero ⊢
  rw [hsub, uniPadded_of_nonzero]
  · refine ⟨rfl, ?_⟩
    intro u hu
    exact hnonzero u (List.mem_append_right _ hu)
  · intro u hu
    exact hnonzero u (List.mem_append_left _ hu)

theorem chainUnits_eq {rest : ℕ} {chain : List ℕ}
    (hnonzero : ∀ u ∈ (chain.flatMap fun i => (dtslot slot i).units).take rest, u ≠ 0) :
    chainUnits slot rest chain =
      (chain.flatMap fun i => (dtslot slot i).units).take rest := by
  induction chain generalizing rest with
  | nil => simp [chainUnits]
  | cons i is ih =>
      have hlen : (dtslot slot i).units.length = dtSlotDataLen := by
        simp [DtSlot.units]
      rw [List.flatMap_cons] at hnonzero ⊢
      obtain ⟨hcopied, hrest⟩ := uniPadded_take_append hlen hnonzero
      rw [chainUnits, ih hrest, hcopied]

theorem run_chainStep (h : SlotChain slot count next chain) {namlen len n fuel : ℕ}
    {name : Buffer UniChar} (hfuel : chain.length < fuel) :
    run (chainStep slot) fuel ⟨next, namlen, len, n, name⟩ =
      .inr (name.writeFrom n (chainUnits slot (namlen - len) chain)) := by
  induction h generalizing namlen len n fuel name with
  | done hneg =>
      obtain ⟨fuel, rfl⟩ := Nat.exists_eq_succ_of_ne_zero (Nat.ne_of_gt hfuel)
      have hstep : ¬ (0 : ℤ) ≤ _ := not_le.mpr hneg
      exact run_succ_of_inr (by simp [chainStep, hstep, chainUnits])
  | @link i rest _ _ ih =>
      obtain ⟨fuel, rfl⟩ := Nat.exists_eq_succ_of_ne_zero
        (show fuel ≠ 0 by rw [List.length_cons] at hfuel; omega)
      rw [List.length_cons] at hfuel
      have hstep : chainStep slot ⟨i, namlen, len, n, name⟩ =
          .inl ⟨(dtslot slot i).next, namlen - len, min (namlen - len) dtSlotDataLen,
            n + min (namlen - len) dtSlotDataLen,
            uniStrncpy (dtslot slot i).name (min (namlen - len) dtSlotDataLen) 0 n name⟩ := by
        simp [chainStep]
      rw [run_succ_of_inl hstep, ih (by omega), uniStrncpy_eq, chainUnits,
        Buffer.writeFrom_append, uniPadded_length, length_take_units]
      unfold DtSlot.units
      rw [take_units]

def assembledUnits (slot : Bytes) (entry : LdtEntry) (chain : List ℕ) : List UniChar :=
  uniPadded (entry.units.take entry.namlen) ++
    chainUnits slot (entry.namlen - min entry.namlen dtlHdrDataLen) chain

theorem length_take_headUnits (entry : LdtEntry) (n : ℕ) :
    (entry.units.take n).length = min n dtlHdrDataLen := by
  unfold LdtEntry.units
  simp

theorem assembledUnits_length_le (entry : LdtEntry) (chain : List ℕ) :
    (assembledUnits slot entry chain).length ≤ entry.namlen := by
  have := @chainUnits_length_le slot (entry.namlen - min entry.namlen dtlHdrDataLen) chain
  unfold assembledUnits
  rw [List.length_append, uniPadded_length, length_take_headUnits]
  omega

theorem assembledUnits_eq {entry : LdtEntry} {chain : List ℕ}
    (hnonzero : ∀ u ∈ (entry.units ++ chain.flatMap fun i => (dtslot slot i).units).take
      entry.namlen, u ≠ 0) :
    assembledUnits slot entry chain =
      (entry.units ++ chain.flatMap fun i => (dtslot slot i).units).take entry.namlen := by
  have hlen : entry.units.length = dtlHdrDataLen := by simp [LdtEntry.units]
  obtain ⟨hcopied, hrest⟩ := uniPadded_take_append hlen hnonzero
  unfold assembledUnits
  rw [chainUnits_eq hrest, hcopied]

theorem assembleName_of_chain {m : Mount} {headIndex fuel : ℕ} {bytes : Bytes}
    (hmalloc : m.malloc (2 * ((ldtentry slot headIndex).namlen + 1)) = some bytes)
    (hchain : SlotChain slot count (ldtentry slot headIndex).next chain)
    (hfuel : count < fuel) :
    assembleName m fuel slot headIndex =
      some (some (((Buffer.fresh fun k => .ofNat (bytes.le16 (2 * k))).write
        (ldtentry slot headIndex).namlen 0).writeFrom 0
          (assembledUnits slot (ldtentry slot headIndex) chain))) := by
  have hle := hchain.length_le
  unfold assembleName chainStart
  simp only [hmalloc]
  rw [run_chainStep hchain (by omega), uniStrncpy_eq]
  unfold assembledUnits
  rw [Buffer.writeFrom_append, uniPadded_length, length_take_headUnits, Nat.zero_add]
  unfold LdtEntry.units
  rw [take_units]

theorem assembleName_written_le {m : Mount} {headIndex fuel : ℕ} {name : Buffer UniChar}
    (hchain : SlotChain slot count (ldtentry slot headIndex).next chain)
    (hfuel : count < fuel) (hname : assembleName m fuel slot headIndex = some (some name)) :
    ∀ k ∈ name.written, k ≤ (ldtentry slot headIndex).namlen := by
  have hlength := @assembledUnits_length_le slot (ldtentry slot headIndex) chain
  cases hmalloc : m.malloc (2 * ((ldtentry slot headIndex).namlen + 1)) with
  | none =>
      unfold assembleName at hname
      simp [hmalloc] at hname
  | some bytes =>
      rw [assembleName_of_chain hmalloc hchain hfuel, Option.some.injEq,
        Option.some.injEq] at hname
      subst name
      intro k hk
      rw [Buffer.mem_written_writeFrom] at hk
      simp only [Buffer.write, Buffer.fresh, List.mem_singleton] at hk
      omega

/-! ## Entries -/

structure DirEntry where
  units : List UniChar
  inumber : ℕ
deriving DecidableEq

/-- The entry that the slot `headIndex` starts: its chain stays in the array
and supplies the whole name, which has no null in it. -/
structure HoldsEntry (slot : Bytes) (count headIndex : ℕ) (e : DirEntry) : Prop where
  head_lt : headIndex < count
  inumber : (ldtentry slot headIndex).inumber = e.inumber
  namlen : (ldtentry slot headIndex).namlen = e.units.length
  supplied : ∃ chain, SlotChain slot count (ldtentry slot headIndex).next chain ∧
    e.units <+: (ldtentry slot headIndex).units ++
      chain.flatMap fun i => (dtslot slot i).units
  nonzero : ∀ u ∈ e.units, u ≠ 0

section Congruence

variable {slot' : Bytes} (hagree : Bytes.Agree (dtslotSize * count) slot slot')

include hagree

theorem slot_agree {i : ℕ} (hi : i < count) :
    Bytes.Agree dtslotSize (slot.shift (dtslotSize * i)) (slot'.shift (dtslotSize * i)) := by
  intro k hlo hhi
  apply hagree <;> unfold dtslotSize at hhi ⊢ <;> omega

theorem SlotChain.congr (h : SlotChain slot count next chain) :
    SlotChain slot' count next chain := by
  induction h with
  | done hneg => exact .done hneg
  | @link i rest hlt hrest ih =>
      have hnext : (dtslot slot' i).next = (dtslot slot i).next :=
        ((slot_agree hagree hlt).s8 (by decide)).symm
      refine .link hlt ?_
      rw [hnext]
      exact ih

theorem dtslot_units_congr {i : ℕ} (hi : i < count) :
    (dtslot slot' i).units = (dtslot slot i).units := by
  apply List.map_congr_left
  intro k hk
  have hlt := (List.mem_range'_1.mp hk).2
  have hword := (slot_agree hagree hi).le16 (o := 2 + 2 * k)
    (by unfold dtslotSize; unfold dtSlotDataLen at hlt; omega)
  exact congrArg UInt16.ofNat hword.symm

theorem HoldsEntry.congr {headIndex : ℕ} {e : DirEntry}
    (h : HoldsEntry slot count headIndex e) : HoldsEntry slot' count headIndex e := by
  have hhead := slot_agree hagree h.head_lt
  have hunits : (ldtentry slot' headIndex).units = (ldtentry slot headIndex).units := by
    apply List.map_congr_left
    intro k hk
    have hlt := (List.mem_range'_1.mp hk).2
    have hword := hhead.le16 (o := 6 + 2 * k)
      (by unfold dtslotSize; unfold dtlHdrDataLen at hlt; omega)
    exact congrArg UInt16.ofNat hword.symm
  have hnext : (ldtentry slot' headIndex).next = (ldtentry slot headIndex).next :=
    (hhead.s8 (by decide)).symm
  obtain ⟨chain, hchain, hprefix⟩ := h.supplied
  refine ⟨h.head_lt, ?_, ?_, ⟨chain, ?_, ?_⟩, h.nonzero⟩
  · rw [← h.inumber]
    exact (hhead.le32 (by decide)).symm
  · rw [← h.namlen]
    exact (hhead.byte (by decide)).symm
  · rw [hnext]
    exact hchain.congr hagree
  · rw [hunits, List.flatMap_congr fun i hi => dtslot_units_congr hagree (hchain.lt_of_mem hi)]
    exact hprefix

end Congruence

/-- The name as it is listed: its UTF-8 encoding within as many bytes as it has
characters. -/
def DirEntry.listed (e : DirEntry) : List UInt8 := utf8Within e.units.length e.units

structure HoldsString (cells : ℕ → UInt8) (s : List UInt8) : Prop where
  chars : ∀ k (hk : k < s.length), cells k = s[k]
  ends : cells s.length = 0
  nonzero : ∀ b ∈ s, b ≠ 0

def DirEntry.converted (e : DirEntry) : Buffer UInt8 :=
  (Buffer.fresh fun _ => 0).writeFrom 0 e.listed

variable {m : Mount} {headIndex : ℕ} {e : DirEntry} {fuel : ℕ}

structure DirEntry.Storable (e : DirEntry) : Prop where
  nonzero : ∀ u ∈ e.units, u ≠ 0
  namlen_lt : e.units.length < 256
  inumber_lt : e.inumber < 2 ^ 32

theorem DirEntry.Storable.inumber_ne (h : e.Storable) : e.inumber ≠ noInum := by
  have hlt := h.inumber_lt
  unfold noInum
  omega

-- `namlen` is a byte and `inumber` a 32-bit field
theorem HoldsEntry.storable (h : HoldsEntry slot count headIndex e) : e.Storable := by
  refine ⟨h.nonzero, ?_, ?_⟩
  · rw [← h.namlen]
    exact Bytes.byte_lt _ _
  · rw [← h.inumber]
    exact Bytes.le32_lt _ _

theorem HoldsEntry.assembled (h : HoldsEntry slot count headIndex e)
    (hmem : m.HasMemory) (hfuel : count < fuel) :
    ∃ name, assembleName m fuel slot headIndex = some (some name) ∧
      (∀ k (hk : k < e.units.length), name.cells k = e.units[k]) ∧
      name.cells e.units.length = 0 := by
  obtain ⟨chain, hchain, hprefix⟩ := h.supplied
  obtain ⟨bytes, hmalloc⟩ :=
    hmem.exists_malloc (2 * ((ldtentry slot headIndex).namlen + 1))
  have htake := List.prefix_iff_eq_take.mp hprefix
  rw [← h.namlen] at htake
  have hunits : assembledUnits slot (ldtentry slot headIndex) chain = e.units := by
    rw [assembledUnits_eq (by rw [← htake]; exact h.nonzero), ← htake]
  refine ⟨_, assembleName_of_chain hmalloc hchain hfuel, ?_, ?_⟩
  · intro k hk
    rw [hunits, Buffer.cells_writeFrom_zero hk]
  · rw [hunits, Buffer.cells_writeFrom_of_not_mem (.inr (by omega)), h.namlen,
      Buffer.cells_write_self]

theorem HoldsEntry.convertName (h : HoldsEntry slot count headIndex e)
    {name : Buffer UniChar} (hunits : ∀ k (hk : k < e.units.length), name.cells k = e.units[k])
    (hend : name.cells e.units.length = 0) :
    JfsReader.convertName (ldtentry slot headIndex) name = e.converted := by
  unfold JfsReader.convertName
  rw [unicodeStringToUtf8String_eq _ hunits h.nonzero hend, h.namlen]
  rfl

def DirEntry.listInto (e : DirEntry) (rname : Buffer UInt8) : Buffer UInt8 :=
  (rname.writeFrom 0 (e.converted.read 0 e.units.length)).write e.units.length 0

theorem DirEntry.listed_length_le (e : DirEntry) : e.listed.length ≤ e.units.length :=
  utf8Within_length_le _ _

theorem DirEntry.listed_ascii {e : DirEntry} (hascii : ∀ u ∈ e.units, u ≤ 0x7f) :
    e.listed = e.units.map UInt16.toUInt8 :=
  utf8Within_ascii hascii le_rfl

theorem DirEntry.listed_nonzero {e : DirEntry} (hnonzero : ∀ u ∈ e.units, u ≠ 0) :
    ∀ b ∈ e.listed, b ≠ 0 :=
  utf8Within_ne_zero hnonzero _

theorem DirEntry.converted_of_lt {e : DirEntry} {k : ℕ} (hk : k < e.listed.length) :
    e.converted.cells k = e.listed[k] :=
  Buffer.cells_writeFrom_zero hk

theorem DirEntry.converted_of_ge {e : DirEntry} {k : ℕ} (hk : e.listed.length ≤ k) :
    e.converted.cells k = 0 :=
  Buffer.cells_writeFrom_of_not_mem (.inr (by omega))

theorem DirEntry.listInto_holds {e : DirEntry} (hnonzero : ∀ u ∈ e.units, u ≠ 0)
    (rname : Buffer UInt8) : HoldsString (e.listInto rname).cells e.listed := by
  have hlen := e.listed_length_le
  have hbefore : ∀ k, k < e.units.length →
      (e.listInto rname).cells k = e.converted.cells k := by
    intro k hk
    unfold DirEntry.listInto
    rw [Buffer.cells_write_of_ne (by omega), Buffer.cells_writeFrom_zero (by simpa using hk),
      Buffer.getElem_read, Nat.zero_add]
  refine ⟨?_, ?_, DirEntry.listed_nonzero hnonzero⟩
  · intro k hk
    rw [hbefore k (by omega), DirEntry.converted_of_lt hk]
  · by_cases hlt : e.listed.length < e.units.length
    · rw [hbefore _ hlt, DirEntry.converted_of_ge le_rfl]
    · obtain heq : e.listed.length = e.units.length := by omega
      rw [heq]
      exact Buffer.cells_write_self

theorem HoldsEntry.nameInum (h : HoldsEntry slot count headIndex e)
    (hmem : m.HasMemory) (hfuel : count < fuel) (rname : Buffer UInt8) (gotinum : ℕ) :
    JfsReader.nameInum m fuel slot headIndex rname gotinum =
      some (e.listInto rname, e.inumber) := by
  obtain ⟨name, hname, hunits, hend⟩ := h.assembled hmem hfuel
  unfold JfsReader.nameInum DirEntry.listInto
  simp only [hname, h.convertName hunits hend, h.namlen, h.inumber]

theorem HoldsEntry.printDirentry (h : HoldsEntry slot count headIndex e)
    (hmem : m.HasMemory) (hfuel : count < fuel) (sname : List UInt8)
    (snamelen gotinum : ℕ) :
    JfsReader.printDirentry m fuel slot headIndex sname snamelen gotinum =
      some (if namesMatch e.converted.cells sname snamelen then (0, e.inumber)
        else (1, noInum)) := by
  obtain ⟨name, hname, hunits, hend⟩ := h.assembled hmem hfuel
  unfold JfsReader.printDirentry
  simp only [hname, h.convertName hunits hend, h.inumber]
  split_ifs <;> rfl

end JfsReader
