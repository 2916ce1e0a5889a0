import JfsReader.NameSlots

/-!
# Names assembled, listed and matched

Assembling a name stays inside the buffer allocated for it and yields the units
its slots hold.  The conversion that follows has as many bytes to spend as the
name has characters, so only an ASCII name is listed whole; and a byte beyond
ASCII that it does list never compares equal to itself, since one side of the
comparison is signed.
-/

namespace JfsReader

open StepMachine WriteBuffer

variable {m : Mount} {slot : Bytes} {count headIndex fuel : ℕ} {chain : List ℕ}

/-! ## Assembling -/

def suppliedUnits (slot : Bytes) (entry : LdtEntry) (chain : List ℕ) : List UniChar :=
  entry.units ++ chain.flatMap fun i => (dtslot slot i).units

/-- Between two copies: what is left of the name fits behind the position `n`. -/
structure CopyWithin (total : ℕ) (c : ChainState) : Prop where
  len_le : c.len ≤ c.namlen
  position : c.n + (c.namlen - c.len) = total
  written : ∀ k ∈ c.name.written, k ≤ total

theorem chainStart_copyWithin (entry : LdtEntry) (cells : ℕ → UniChar) :
    CopyWithin entry.namlen (chainStart entry (.fresh cells)) := by
  refine ⟨?_, ?_, ?_⟩
  · simp only [chainStart]
    omega
  · simp only [chainStart]
    omega
  · intro k hk
    simp only [chainStart, uniStrncpy_eq, Buffer.mem_written_writeFrom, uniPadded_length,
      List.length_map, List.length_range'] at hk
    simp only [Buffer.write, Buffer.fresh, List.mem_singleton] at hk
    omega

theorem CopyWithin.step {total : ℕ} {c c' : ChainState} (h : CopyWithin total c)
    (hstep : chainStep slot c = .inl c') :
    CopyWithin total c' ∧ c'.len ≤ dtSlotDataLen := by
  unfold chainStep at hstep
  split_ifs at hstep with hnext
  simp only [Sum.inl.injEq] at hstep
  subst c'
  have hlen := h.len_le
  have hposition := h.position
  refine ⟨⟨?_, ?_, ?_⟩, ?_⟩
  · simp only
    omega
  · simp only
    omega
  · intro k hk
    simp only [uniStrncpy_eq, Buffer.mem_written_writeFrom, uniPadded_length,
      List.length_map, List.length_range'] at hk
    rcases hk with hbefore | hcopied
    · exact h.written k hbefore
    · omega
  · exact min_le_right _ _

theorem copyWithin_of_run {total rounds : ℕ} {c c' : ChainState} (h : CopyWithin total c)
    (hrun : run (chainStep slot) rounds c = .inl c') : CopyWithin total c' :=
  run_invariant (fun _ _ h hstep => (h.step hstep).1) h hrun

theorem chain_len_le {entry : LdtEntry} {cells : ℕ → UniChar} {rounds : ℕ} {c : ChainState}
    (hrun : run (chainStep slot) rounds (chainStart entry (.fresh cells)) = .inl c) :
    c.len ≤ if rounds = 0 then dtlHdrDataLen else dtSlotDataLen := by
  cases rounds with
  | zero =>
      rw [run_zero, Sum.inl.injEq] at hrun
      subst c
      exact min_le_right _ _
  | succ rounds =>
      have hstart := chainStart_copyWithin entry cells
      generalize chainStart entry (.fresh cells) = start at hrun hstart
      have hinvariant : ∀ s s', (CopyWithin entry.namlen s ∧ s.len ≤ dtSlotDataLen) →
          chainStep slot s = .inl s' →
            CopyWithin entry.namlen s' ∧ s'.len ≤ dtSlotDataLen :=
        fun s s' h hstep => h.1.step hstep
      cases hfirst : chainStep slot start with
      | inl next =>
          rw [run_succ_of_inl hfirst] at hrun
          exact (run_invariant hinvariant (hstart.step hfirst) hrun).2
      | inr name => rw [run_succ_of_inr hfirst] at hrun; cases hrun

theorem assembled_read {entry : LdtEntry} {cells : ℕ → UniChar}
    (hsupplied : entry.namlen ≤ (suppliedUnits slot entry chain).length)
    (hnonzero : ∀ u ∈ (suppliedUnits slot entry chain).take entry.namlen, u ≠ 0) :
    (((Buffer.fresh cells).write entry.namlen 0).writeFrom 0
        (assembledUnits slot entry chain)).read 0 (entry.namlen + 1) =
      (suppliedUnits slot entry chain).take entry.namlen ++ [0] := by
  have hunits : assembledUnits slot entry chain =
      (suppliedUnits slot entry chain).take entry.namlen := assembledUnits_eq hnonzero
  have hlen : ((suppliedUnits slot entry chain).take entry.namlen).length = entry.namlen := by
    rw [List.length_take]
    omega
  rw [hunits]
  apply List.ext_getElem
  · rw [Buffer.length_read, List.length_append, hlen, List.length_singleton]
  · intro k hk _
    rw [Buffer.length_read] at hk
    rw [Buffer.getElem_read, Nat.zero_add]
    by_cases hlt : k < entry.namlen
    · rw [Buffer.cells_writeFrom_zero (by omega), List.getElem_append_left (by omega)]
    · obtain rfl : k = entry.namlen := by omega
      rw [Buffer.cells_writeFrom_of_not_mem (.inr (by omega)), Buffer.cells_write_self,
        List.getElem_append_right (by omega)]
      simp

/-- `name_inum` and `print_direntry` on one entry: every copy is as short as the
slot it reads, everything written lies in `name[0..namlen]`, and the name both
go on to convert is the first `namlen` units that the slots supply. -/
theorem names_assembled (hchain : SlotChain slot count (ldtentry slot headIndex).next chain)
    (hfuel : count < fuel) (rname : Buffer UInt8) (sname : List UInt8)
    (snamelen gotinum : ℕ) :
    (∀ cells rounds c,
      run (chainStep slot) rounds (chainStart (ldtentry slot headIndex) (.fresh cells)) =
        .inl c →
      CopyWithin (ldtentry slot headIndex).namlen c ∧
        c.len ≤ if rounds = 0 then dtlHdrDataLen else dtSlotDataLen) ∧
    (m.malloc (2 * ((ldtentry slot headIndex).namlen + 1)) = none →
      nameInum m fuel slot headIndex rname gotinum = some (rname, gotinum) ∧
      printDirentry m fuel slot headIndex sname snamelen gotinum = some (1, gotinum)) ∧
    (∀ bytes, m.malloc (2 * ((ldtentry slot headIndex).namlen + 1)) = some bytes →
      ∃ name, assembleName m fuel slot headIndex = some (some name) ∧
        nameInum m fuel slot headIndex rname gotinum =
          some ((rname.writeFrom 0 ((convertName (ldtentry slot headIndex) name).read 0
            (ldtentry slot headIndex).namlen)).write (ldtentry slot headIndex).namlen 0,
              (ldtentry slot headIndex).inumber) ∧
        printDirentry m fuel slot headIndex sname snamelen gotinum =
          some (if namesMatch (convertName (ldtentry slot headIndex) name).cells sname snamelen
            then (0, (ldtentry slot headIndex).inumber) else (1, noInum)) ∧
        (∀ k ∈ name.written, k ≤ (ldtentry slot headIndex).namlen) ∧
        ((ldtentry slot headIndex).namlen ≤
            (suppliedUnits slot (ldtentry slot headIndex) chain).length →
          (∀ u ∈ (suppliedUnits slot (ldtentry slot headIndex) chain).take
            (ldtentry slot headIndex).namlen, u ≠ 0) →
          name.read 0 ((ldtentry slot headIndex).namlen + 1) =
            (suppliedUnits slot (ldtentry slot headIndex) chain).take
              (ldtentry slot headIndex).namlen ++ [0])) := by
  refine ⟨?_, ?_, ?_⟩
  · intro cells rounds c hrun
    exact ⟨copyWithin_of_run (chainStart_copyWithin _ cells) hrun, chain_len_le hrun⟩
  · intro hmalloc
    have hname : assembleName m fuel slot headIndex = some none := by
      unfold assembleName
      simp only [hmalloc]
    unfold nameInum printDirentry
    simp only [hname, and_self]
  · intro bytes hmalloc
    have hname := assembleName_of_chain hmalloc hchain hfuel
    refine ⟨_, hname, ?_, ?_, assembleName_written_le hchain hfuel hname, ?_⟩
    · unfold nameInum
      simp only [hname]
    · unfold printDirentry
      simp only [hname]
      split_ifs <;> rfl
    · exact fun hsupplied hnonzero => assembled_read hsupplied hnonzero

def blankMount : Mount where
  image := fun _ => 0
  l2bsize := 12
  l2bsize_ge := Mount.pageBlocks_ge
  l2bsize_le := Mount.pageBlocks_le
  malloc := fun _ => some fun _ => 0xFF

/-- Thirteen characters from slot 1 on, whose chain over slots 3 and 2 has room
for many more. -/
def longChain : Bytes := fun k =>
  if k = 36 then 3 else if k = 37 then 13 else if k = 96 then 2 else if k = 64 then 0xFF
  else if k % 2 = 0 then 0x61 else 0

theorem longChain_chain : SlotChain longChain 4 (ldtentry longChain 1).next [3, 2] :=
  .link (i := 3) (by decide) (.link (i := 2) (by decide) (.done (by decide)))

theorem names_assembled_longChain :
    ∃ name, assembleName blankMount 5 longChain 1 = some (some name) ∧
      (∀ k ∈ name.written, k ≤ 13) ∧
      name.read 0 14 = List.replicate 13 0x61 ++ [0] := by
  obtain ⟨-, -, hsome⟩ := @names_assembled blankMount longChain 4 1 5 [3, 2] longChain_chain
    (by decide) (.fresh fun _ => 0) [] 0 0
  obtain ⟨name, hname, -, -, hwritten, hread⟩ := hsome (fun _ => 0xFF) rfl
  have htake : (suppliedUnits longChain (ldtentry longChain 1) [3, 2]).take 13 =
      List.replicate 13 0x61 := rfl
  refine ⟨name, hname, hwritten, ?_⟩
  rw [← htake]
  refine hread (by decide) ?_
  change ∀ u ∈ (suppliedUnits longChain (ldtentry longChain 1) [3, 2]).take 13, u ≠ 0
  rw [htake]
  simp

/-! ## Listing -/

theorem utf8Encode_length_of_gt {u : UniChar} (hu : 0x7f < u) : 2 ≤ (utf8Encode u).length := by
  have hnat : ¬ u.toNat ≤ 0x7F := Nat.not_le.mpr hu
  unfold utf8Encode
  simp only [hnat, if_false]
  split_ifs <;> simp

theorem utf8Encode_flatMap_length_ge (units : List UniChar) :
    units.length ≤ (units.flatMap utf8Encode).length := by
  induction units with
  | nil => simp
  | cons u us ih =>
      have hpos := utf8Encode_length_pos u
      rw [List.flatMap_cons, List.length_append, List.length_cons]
      omega

theorem ascii_of_utf8Encode_flatMap_length_le {units : List UniChar}
    (hle : (units.flatMap utf8Encode).length ≤ units.length) : ∀ u ∈ units, u ≤ 0x7f := by
  induction units with
  | nil => simp
  | cons u us ih =>
      have hpos := utf8Encode_length_pos u
      have hge := utf8Encode_flatMap_length_ge us
      rw [List.flatMap_cons, List.length_append, List.length_cons] at hle
      intro v hv
      rcases List.mem_cons.mp hv with rfl | hrest
      · by_contra hgt
        have htwo := utf8Encode_length_of_gt (UInt16.not_le.mp hgt)
        omega
      · exact ih (by omega) v hrest

namespace DirEntry

variable {e e' : DirEntry}

theorem listed_eq_encoding_iff :
    e.listed = e.units.flatMap utf8Encode ↔ ∀ u ∈ e.units, u ≤ 0x7f := by
  constructor
  · intro hlisted
    have hle := e.listed_length_le
    rw [hlisted] at hle
    exact ascii_of_utf8Encode_flatMap_length_le hle
  · intro hascii
    have hflat : e.units.flatMap utf8Encode = e.units.map UInt16.toUInt8 := by
      rw [List.map_eq_flatMap]
      exact List.flatMap_congr fun u hu => utf8Encode_of_le (hascii u hu)
    rw [hflat, listed_ascii hascii]

theorem units_eq_of_listed_eq (hascii : ∀ u ∈ e.units, u ≤ 0x7f)
    (hascii' : ∀ u ∈ e'.units, u ≤ 0x7f) (heq : e.listed = e'.listed) :
    e.units = e'.units := by
  rw [listed_eq_encoding_iff.mpr hascii, listed_eq_encoding_iff.mpr hascii'] at heq
  exact utf8Encode_flatMap_injective heq

end DirEntry

theorem HoldsString.length_le {cells : ℕ → UInt8} {r r' : List UInt8}
    (h : HoldsString cells r) (h' : HoldsString cells r') : r.length ≤ r'.length := by
  by_contra hlt
  have hlt' : r'.length < r.length := by omega
  have hcell := h.chars r'.length hlt'
  rw [h'.ends] at hcell
  exact h.nonzero _ (List.getElem_mem hlt') hcell.symm

theorem HoldsString.unique {cells : ℕ → UInt8} {r r' : List UInt8} (h : HoldsString cells r)
    (h' : HoldsString cells r') : r = r' := by
  apply List.ext_getElem (le_antisymm (h.length_le h') (h'.length_le h))
  intro k hk hk'
  rw [← h.chars k hk, ← h'.chars k hk']

theorem flatMap_utf8EncodeChar {chars : List Char} {units : List UniChar}
    (hchars : List.Forall₂ (fun c u => c.toNat = u.toNat) chars units) :
    chars.flatMap String.utf8EncodeChar = units.flatMap utf8Encode := by
  induction hchars with
  | nil => rfl
  | cons hchar _ ih =>
      rw [List.flatMap_cons, List.flatMap_cons, ih, utf8Encode_eq_utf8EncodeChar hchar]

variable {e : DirEntry}

/-- An ASCII name is listed whole and no other is; the budget of the conversion
is the number of characters, not of bytes. -/
theorem nameInum_complete_iff {chars : List Char} (h : HoldsEntry slot count headIndex e)
    (hchars : List.Forall₂ (fun c u => c.toNat = u.toNat) chars e.units)
    (hmem : m.HasMemory) (hfuel : count < fuel) (rname : Buffer UInt8) (gotinum : ℕ) :
    ∃ out, nameInum m fuel slot headIndex rname gotinum = some (out, e.inumber) ∧
      (HoldsString out.cells (chars.flatMap String.utf8EncodeChar) ↔
        ∀ u ∈ e.units, u ≤ 0x7f) ∧
      ∀ slot' count' headIndex' e', HoldsEntry slot' count' headIndex' e' → count' < fuel →
        (∀ u ∈ e.units, u ≤ 0x7f) → (∀ u ∈ e'.units, u ≤ 0x7f) →
        ∀ rname' gotinum', ∃ out',
          nameInum m fuel slot' headIndex' rname' gotinum' = some (out', e'.inumber) ∧
          ∀ r, HoldsString out.cells r → HoldsString out'.cells r → e.units = e'.units := by
  have hholds := DirEntry.listInto_holds h.nonzero rname
  refine ⟨_, h.nameInum hmem hfuel rname gotinum, ?_, ?_⟩
  · rw [flatMap_utf8EncodeChar hchars, ← DirEntry.listed_eq_encoding_iff]
    constructor
    · exact fun hwhole => hholds.unique hwhole
    · intro hlisted
      rw [← hlisted]
      exact hholds
  · intro slot' count' headIndex' e' h' hfuel' hascii hascii' rname' gotinum'
    refine ⟨_, h'.nameInum hmem hfuel' rname' gotinum', ?_⟩
    intro r hr hr'
    have hholds' := DirEntry.listInto_holds h'.nonzero rname'
    apply DirEntry.units_eq_of_listed_eq hascii hascii'
    rw [hholds.unique hr, hholds'.unique hr']

/-- Entries named "aé", "aü" and "éa" at the slots 1, 2 and 3. -/
def accentSlots : Bytes := .sparse
  [(32, 5), (36, 0xFF), (37, 2), (38, 0x61), (40, 0xE9),
   (64, 6), (68, 0xFF), (69, 2), (70, 0x61), (72, 0xFC),
   (96, 7), (100, 0xFF), (101, 2), (102, 0xE9), (104, 0x61)]

theorem accentSlots_first : HoldsEntry accentSlots 4 1 ⟨[0x61, 0xE9], 5⟩ :=
  ⟨by decide, by decide, by decide, ⟨[], .done (by decide), by decide⟩, by simp⟩

theorem accentSlots_second : HoldsEntry accentSlots 4 2 ⟨[0x61, 0xFC], 6⟩ :=
  ⟨by decide, by decide, by decide, ⟨[], .done (by decide), by decide⟩, by simp⟩

theorem accentSlots_third : HoldsEntry accentSlots 4 3 ⟨[0xE9, 0x61], 7⟩ :=
  ⟨by decide, by decide, by decide, ⟨[], .done (by decide), by decide⟩, by simp⟩

theorem longChain_holds : HoldsEntry longChain 4 1 ⟨List.replicate 13 0x61, 0x610061⟩ :=
  ⟨by decide, by decide, by decide, ⟨[3, 2], longChain_chain, by decide⟩, by simp⟩

theorem nameInum_complete_iff_longChain :
    ∃ out, nameInum blankMount 5 longChain 1 (.fresh fun _ => 1) 0 = some (out, 0x610061) ∧
      HoldsString out.cells ((List.replicate 13 'a').flatMap String.utf8EncodeChar) := by
  have hchars : List.Forall₂ (fun (c : Char) (u : UniChar) => c.toNat = u.toNat)
      (List.replicate 13 'a') (List.replicate 13 0x61) := by
    simp [List.replicate]
  obtain ⟨out, hout, hwhole, -⟩ := nameInum_complete_iff longChain_holds hchars
    (m := blankMount) (fun _ => rfl) (show 4 < 5 by decide) (.fresh fun _ => 1) 0
  exact ⟨out, hout, hwhole.mpr (by simp)⟩

/-- Both names are listed as "a". -/
theorem nameInum_loses_characters :
    ∃ out out', nameInum blankMount 5 accentSlots 1 (.fresh fun _ => 1) 0 = some (out, 5) ∧
      nameInum blankMount 5 accentSlots 2 (.fresh fun _ => 1) 0 = some (out', 6) ∧
      HoldsEntry accentSlots 4 1 ⟨[0x61, 0xE9], 5⟩ ∧
      HoldsEntry accentSlots 4 2 ⟨[0x61, 0xFC], 6⟩ ∧
      HoldsString out.cells [0x61] ∧ HoldsString out'.cells [0x61] ∧
      ¬ HoldsString out.cells (['a', 'é'].flatMap String.utf8EncodeChar) := by
  have hfirst := DirEntry.listInto_holds accentSlots_first.nonzero (.fresh fun _ => 1)
  have hsecond := DirEntry.listInto_holds accentSlots_second.nonzero (.fresh fun _ => 1)
  refine ⟨_, _, accentSlots_first.nameInum (fun _ => rfl) (by decide) _ 0,
    accentSlots_second.nameInum (fun _ => rfl) (by decide) _ 0, accentSlots_first,
    accentSlots_second, hfirst, hsecond, ?_⟩
  intro hwhole
  have hlength := congrArg List.length (hfirst.unique hwhole)
  revert hlength
  decide

/-! ## Matching -/

/-- Every character beyond ASCII stands too near to the end of the name for its
encoding: one of two bytes at the last position, one of three at the last two. -/
def NoRoomBeyondAscii (units : List UniChar) : Prop :=
  ∀ j (hj : j < units.length), 0x7f < units[j] →
    units.length < j + (utf8Encode units[j]).length

theorem noRoomBeyondAscii_cons {u : UniChar} {us : List UniChar} :
    NoRoomBeyondAscii (u :: us) ↔
      (0x7f < u → us.length + 1 < (utf8Encode u).length) ∧ NoRoomBeyondAscii us := by
  constructor
  · intro h
    refine ⟨?_, ?_⟩
    · intro hu
      have hfirst := h 0 (by simp) hu
      rw [Nat.zero_add, List.length_cons] at hfirst
      exact hfirst
    · intro j hj hu
      have hlater := h (j + 1) (by simpa using hj) hu
      simp only [List.getElem_cons_succ, List.length_cons] at hlater
      omega
  · rintro ⟨hfirst, hlater⟩ j hj hu
    cases j with
    | zero => simpa using hfirst hu
    | succ j =>
        have := hlater j (by simpa using hj) hu
        simp only [List.getElem_cons_succ, List.length_cons]
        omega

theorem utf8Encode_beyond_ascii {u : UniChar} (hu : 0x7f < u) :
    ∃ b ∈ utf8Encode u, 128 ≤ b.toNat := by
  have hmax : u.toNat ≤ 0xFFFF := Nat.le_of_lt_succ u.toNat_lt
  have hnat : ¬ u.toNat ≤ 0x7F := Nat.not_le.mpr hu
  refine ⟨.ofNat (0x80 + u.toNat % 64), ?_, ?_⟩
  · rw [utf8Encode_eq]
    simp only [hnat, if_false]
    split_ifs <;> simp
  · rw [UInt8.toNat_ofNat_of_lt' (by change 0x80 + u.toNat % 64 < 256; omega)]
    omega

-- a character that is skipped costs one byte, as an ASCII one does, so up to the
-- first that is encoded in several bytes as many bytes as characters are left
theorem utf8Within_ascii_iff (units : List UniChar) :
    (∀ b ∈ utf8Within units.length units, b.toNat < 128) ↔ NoRoomBeyondAscii units := by
  induction units with
  | nil => simp [utf8Within, NoRoomBeyondAscii]
  | cons u us ih =>
      rw [noRoomBeyondAscii_cons, List.length_cons, utf8Within, if_neg (by omega)]
      by_cases hu : 0x7f < u
      · by_cases hfits : (utf8Encode u).length ≤ us.length + 1
        · rw [if_pos hfits]
          obtain ⟨b, hb, hge⟩ := utf8Encode_beyond_ascii hu
          constructor
          · intro hall
            have := hall b (List.mem_append_left _ hb)
            omega
          · rintro ⟨hroom, -⟩
            have := hroom hu
            omega
        · rw [if_neg hfits, Nat.add_sub_cancel, ih]
          exact ⟨fun h => ⟨fun _ => by omega, h⟩, fun h => h.2⟩
      · have hone := utf8Encode_of_le (UInt16.not_lt.mp hu)
        have hbyte : u.toNat % 256 < 128 := by
          have hle : u.toNat ≤ 0x7F := UInt16.not_lt.mp hu
          omega
        rw [hone, List.length_singleton, if_pos (by omega), Nat.add_sub_cancel, ← ih]
        simp [hu, hbyte]

theorem namesMatch_listed_iff :
    namesMatch e.converted.cells e.listed e.listed.length = true ↔
      ∀ b ∈ e.listed, b.toNat < 128 := by
  unfold namesMatch
  simp only [List.all_eq_true, List.mem_range, decide_eq_true_eq]
  have hcell : ∀ i (hi : i < e.listed.length),
      (((e.converted.cells i).toNat : ℤ) = charToInt (e.listed.getD i 0) ↔
        e.listed[i].toNat < 128) := by
    intro i hi
    rw [DirEntry.converted_of_lt hi, List.getD_eq_getElem?_getD, List.getElem?_eq_getElem hi,
      Option.getD_some]
    unfold charToInt
    split_ifs with hlt
    · simp [hlt]
    · omega
  rw [List.forall_mem_iff_getElem]
  exact forall₂_congr hcell

/-- The entry matches its own listing if and only if nothing beyond ASCII is in
that listing. -/
theorem printDirentry_listed_iff (h : HoldsEntry slot count headIndex e)
    (hmem : m.HasMemory) (hfuel : count < fuel) (rname : Buffer UInt8)
    (gotinum gotinum' : ℕ) :
    ∃ out r, nameInum m fuel slot headIndex rname gotinum = some (out, e.inumber) ∧
      HoldsString out.cells r ∧
      (printDirentry m fuel slot headIndex r r.length gotinum' = some (0, e.inumber) ↔
        NoRoomBeyondAscii e.units) := by
  refine ⟨_, _, h.nameInum hmem hfuel rname gotinum,
    DirEntry.listInto_holds h.nonzero rname, ?_⟩
  rw [h.printDirentry hmem hfuel, ← utf8Within_ascii_iff]
  change _ ↔ ∀ b ∈ e.listed, b.toNat < 128
  rw [← namesMatch_listed_iff]
  split_ifs with hmatch
  · simp [hmatch]
  · simp [hmatch]

theorem printDirentry_listed_iff_longChain :
    ∃ out r, nameInum blankMount 5 longChain 1 (.fresh fun _ => 1) 0 = some (out, 0x610061) ∧
      HoldsString out.cells r ∧
      printDirentry blankMount 5 longChain 1 r r.length 0 = some (0, 0x610061) := by
  have hroom : NoRoomBeyondAscii (List.replicate 13 0x61) := by
    intro j hj hgt
    rw [List.getElem_replicate] at hgt
    exact absurd hgt (by decide)
  obtain ⟨out, r, hout, hr, hiff⟩ := printDirentry_listed_iff longChain_holds
    (m := blankMount) (fun _ => rfl) (show 4 < 5 by decide) (.fresh fun _ => 1) 0 0
  exact ⟨out, r, hout, hr, hiff.mpr hroom⟩

/-- "éa" is listed as the two bytes of "é", which are negative as characters. -/
theorem printDirentry_misses_listed :
    HoldsEntry accentSlots 4 3 ⟨[0xE9, 0x61], 7⟩ ∧
    ∃ out, nameInum blankMount 5 accentSlots 3 (.fresh fun _ => 1) 0 = some (out, 7) ∧
      HoldsString out.cells [0xC3, 0xA9] ∧
      printDirentry blankMount 5 accentSlots 3 [0xC3, 0xA9] 2 0 = some (1, noInum) := by
  have hholds := DirEntry.listInto_holds accentSlots_third.nonzero (.fresh fun _ => 1)
  refine ⟨accentSlots_third, _, accentSlots_third.nameInum (fun _ => rfl) (by decide) _ 0,
    hholds, ?_⟩
  rw [accentSlots_third.printDirentry (fun _ => rfl) (by decide)]
  rfl

end JfsReader
