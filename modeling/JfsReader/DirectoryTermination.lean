import JfsReader.DirectoryScan

/-!
# When the directory operations end

The way down to the first leaf, the walk from leaf to leaf and the assembly of
a name each follow links of the disk with nothing to stop them.  All three can
go round in circles, and what an operation needs to end is that none of those
it meets does, up to the entry that answers it.
-/

namespace JfsReader

open StepMachine WriteBuffer

/-- A page as it stands in the reader's variable, which every read overwrites
as a whole. -/
def Mount.dtpageRead (m : Mount) (b : ℕ) : DtPage :=
  ⟨(m.stack .dtree).memcpy (m.block b) sizeofDtpage⟩

/-- A leaf entry: the slots it is in, and the index of its head. -/
structure EntryCell where
  slot : Bytes
  head : ℕ

namespace EntryCell

def entry (c : EntryCell) : LdtEntry := ldtentry c.slot c.head

def Chain (c : EntryCell) (chain : List ℕ) : Prop :=
  SlotChain c.slot dtPageMaxSlot c.entry.next chain

/-- The name's chain ends, or there is no memory to assemble it in. -/
def NameEnds (m : Mount) (c : EntryCell) : Prop :=
  m.malloc (2 * (c.entry.namlen + 1)) = none ∨ ∃ chain, c.Chain chain

/-- What the slots of a chain leave in the memory for the name. -/
def assembled (c : EntryCell) (bytes : Bytes) (chain : List ℕ) : Buffer UniChar :=
  ((Buffer.fresh fun k => .ofNat (bytes.le16 (2 * k))).write c.entry.namlen 0).writeFrom 0
    (assembledUnits c.slot c.entry chain)

def Answers (m : Mount) (name : List UInt8) (namelen : ℕ) (c : EntryCell) : Prop :=
  ∃ bytes chain, m.malloc (2 * (c.entry.namlen + 1)) = some bytes ∧ c.Chain chain ∧
    namesMatch (convertName c.entry (c.assembled bytes chain)).cells name namelen = true

end EntryCell

def DtPage.cells (p : DtPage) : List EntryCell := p.headIndices.map (.mk p.bytes)

def DtRoot.cells (r : DtRoot) : List EntryCell := r.headIndices.map (.mk r.bytes)

/-- From a page down to a leaf, over the first entry of every page. -/
inductive LeftmostLeaf (m : Mount) : ℕ → ℕ → Prop
  | here {b : ℕ} : (m.dtpageRead b).isLeaf = true → LeftmostLeaf m b b
  | down {b leaf : ℕ} : (m.dtpageRead b).isLeaf = false →
      LeftmostLeaf m ((m.dtpageRead b).child 0) leaf → LeftmostLeaf m b leaf

/-- The block that a leaf's link leads to, less the bits that its byte address
has no room for. -/
def Mount.nextLeaf (m : Mount) (b : ℕ) : ℕ := (m.dtpageRead b).next % 2 ^ (64 - m.l2bsize)

/-- Some of the leaves that follow each other from the first one on, and the
last one of them. -/
inductive LeafRun (m : Mount) : ℕ → List ℕ → ℕ → Prop
  | one (b : ℕ) : LeafRun m b [b] b
  | more {b last : ℕ} {leaves : List ℕ} : (m.dtpageRead b).next ≠ 0 →
      LeafRun m (m.nextLeaf b) leaves last → LeafRun m b (b :: leaves) last

/-- The first entries of a directory, as many as one likes; the flag says that
they are all of them. -/
inductive FirstCells (m : Mount) (r : DtRoot) : List EntryCell → Bool → Prop
  | inline : r.isLeaf = true → FirstCells m r r.cells true
  | paged {first last : ℕ} {leaves : List ℕ} : r.isLeaf = false →
      LeftmostLeaf m (r.child 0) first → LeafRun m first leaves last →
      FirstCells m r (leaves.flatMap fun b => (m.dtpageRead b).cells)
        ((m.dtpageRead last).next == 0)

def ReadndirEnds (m : Mount) (r : DtRoot) (pos : ℤ) : Prop :=
  ∃ cells all, FirstCells m r cells all ∧
    ((∃ (k : ℕ) (c : EntryCell), pos = k ∧ cells[k]? = some c ∧ c.NameEnds m) ∨
      (all = true ∧ (pos < 0 ∨ cells.length ≤ pos)))

def SearchStops (m : Mount) (name : List UInt8) (namelen : ℕ) (cells : List EntryCell)
    (all : Bool) : Prop :=
  (∃ seen c rest, cells = seen ++ c :: rest ∧ (∀ d ∈ seen, d.NameEnds m) ∧
      c.Answers m name namelen) ∨
    (all = true ∧ ∀ d ∈ cells, d.NameEnds m)

def DirectoryEnds (m : Mount) (r : DtRoot) (name : List UInt8) (namelen : ℕ) : Prop :=
  ∃ cells all, FirstCells m r cells all ∧ SearchStops m name namelen cells all

/-! ## The assembly of a name -/

variable {m : Mount} {c : EntryCell} {fuel n : ℕ} {chain : List ℕ}

theorem s8_lt (b : Bytes) (o : ℤ) : b.s8 o < 2 ^ 7 := by
  have hbyte := b.byte_lt o
  unfold Bytes.s8
  split_ifs <;> omega

theorem exists_slotChain_of_run {slot : Bytes} {st : ChainState} {name : Buffer UniChar}
    (hnext : st.next < 2 ^ 7) (hrun : run (chainStep slot) fuel st = .inr name) :
    ∃ chain, SlotChain slot dtPageMaxSlot st.next chain := by
  induction fuel generalizing st with
  | zero => simp at hrun
  | succ fuel ih =>
      by_cases hneg : st.next < 0
      · exact ⟨[], .done hneg⟩
      · have hstep := run_succ_of_inl (n := fuel)
          (show chainStep slot st = .inl _ from if_pos (not_lt.mp hneg))
        rw [hstep] at hrun
        obtain ⟨chain, hchain⟩ := ih (s8_lt _ _) hrun
        obtain ⟨i, hi⟩ := Int.eq_ofNat_of_zero_le (not_lt.mp hneg)
        rw [hi] at hnext hchain ⊢
        refine ⟨i :: chain, .link ?_ hchain⟩
        unfold dtPageMaxSlot
        omega

theorem nameEnds_of_assembleName {name : Option (Buffer UniChar)}
    (h : assembleName m fuel c.slot c.head = some name) : c.NameEnds m := by
  unfold assembleName at h
  cases hmalloc : m.malloc (2 * ((ldtentry c.slot c.head).namlen + 1)) with
  | none => exact .inl hmalloc
  | some bytes =>
      simp only [hmalloc] at h
      split at h
      next => cases h
      next name hrun => exact .inr (exists_slotChain_of_run (s8_lt _ _) hrun)

theorem assembleName_of_le {slot : Bytes} {head : ℕ} {name : Option (Buffer UniChar)}
    (h : assembleName m fuel slot head = some name) (hle : fuel ≤ n) :
    assembleName m n slot head = some name := by
  unfold assembleName at h ⊢
  cases hmalloc : m.malloc (2 * ((ldtentry slot head).namlen + 1)) with
  | none =>
      simp only [hmalloc] at h ⊢
      exact h
  | some bytes =>
      simp only [hmalloc] at h ⊢
      split at h
      next => cases h
      next name hrun =>
        rw [run_of_le hrun hle]
        exact h

theorem assembleName_eq_none_iff (hfuel : dtPageMaxSlot < fuel) :
    assembleName m fuel c.slot c.head = none ↔ ¬ c.NameEnds m := by
  constructor
  · rintro hnone (hmalloc | ⟨chain, hchain⟩)
    · unfold EntryCell.entry at hmalloc
      simp [assembleName, hmalloc] at hnone
    · cases hmalloc : m.malloc (2 * ((ldtentry c.slot c.head).namlen + 1)) with
      | none => simp [assembleName, hmalloc] at hnone
      | some bytes =>
          rw [assembleName_of_chain hmalloc hchain hfuel] at hnone
          cases hnone
  · intro hends
    cases hname : assembleName m fuel c.slot c.head with
    | none => rfl
    | some name => exact absurd (nameEnds_of_assembleName hname) hends

theorem assembleName_of_answers {name : List UInt8} {namelen : ℕ}
    (h : c.Answers m name namelen) (hfuel : dtPageMaxSlot < fuel) :
    ∃ units, assembleName m fuel c.slot c.head = some (some units) ∧
      namesMatch (convertName c.entry units).cells name namelen = true := by
  obtain ⟨bytes, chain, hmalloc, hchain, hmatch⟩ := h
  exact ⟨_, assembleName_of_chain hmalloc hchain hfuel, hmatch⟩

theorem EntryCell.Answers.nameEnds {name : List UInt8} {namelen : ℕ}
    (h : c.Answers m name namelen) : c.NameEnds m := by
  obtain ⟨bytes, chain, -, hchain, -⟩ := h
  exact .inr ⟨chain, hchain⟩

theorem answers_of_assembleName {name : List UInt8} {namelen : ℕ} {units : Buffer UniChar}
    (hfuel : dtPageMaxSlot < fuel)
    (h : assembleName m fuel c.slot c.head = some (some units))
    (hmatch : namesMatch (convertName c.entry units).cells name namelen = true) :
    c.Answers m name namelen := by
  cases hmalloc : m.malloc (2 * ((ldtentry c.slot c.head).namlen + 1)) with
  | none => simp [assembleName, hmalloc] at h
  | some bytes =>
      rcases nameEnds_of_assembleName h with hnone | ⟨chain, hchain⟩
      · unfold EntryCell.entry at hnone
        rw [hmalloc] at hnone
        cases hnone
      · rw [assembleName_of_chain hmalloc hchain hfuel, Option.some.injEq,
          Option.some.injEq] at h
        subst units
        exact ⟨bytes, chain, hmalloc, hchain, hmatch⟩

/-! ## The pages -/

theorem dtpageRead_reread (m : Mount) (b b' : ℕ) :
    (m.dtpageRead b).bytes.memcpy (m.block b') sizeofDtpage = (m.dtpageRead b').bytes := by
  funext i
  simp only [Mount.dtpageRead, Bytes.memcpy]
  split <;> rfl

theorem xRead_nextLeaf (m : Mount) (b : ℕ) :
    m.xRead (((m.dtpageRead b).next <<< m.l2bsize) % 2 ^ 64) sizeofDtpage
      (m.dtpageRead b).bytes = some (m.dtpageRead (m.nextLeaf b)).bytes := by
  have hle := m.l2bsize_le
  have haddress : ((m.dtpageRead b).next <<< m.l2bsize) % 2 ^ 64 =
      m.nextLeaf b <<< m.l2bsize := by
    have hpow : 2 ^ 64 = 2 ^ (64 - m.l2bsize) * 2 ^ m.l2bsize := by
      rw [← Nat.pow_add]
      congr 1
      omega
    unfold Mount.nextLeaf
    rw [Nat.shiftLeft_eq, Nat.shiftLeft_eq, hpow, Nat.mul_mod_mul_right]
  rw [haddress]
  exact (m.xRead_page _ _).trans (congrArg some (dtpageRead_reread m b _))

/-- A read over this content leaves nothing of it behind. -/
def Mount.Rereadable (m : Mount) (buffer : Bytes) : Prop :=
  ∀ b, buffer.memcpy (m.block b) sizeofDtpage = (m.dtpageRead b).bytes

theorem Mount.Rereadable.xRead {buffer : Bytes} (h : m.Rereadable buffer) (b : ℕ) :
    m.xRead (b <<< m.l2bsize) sizeofDtpage buffer = some (m.dtpageRead b).bytes :=
  (m.xRead_page _ _).trans (congrArg some (h b))

theorem rereadable_dtpageRead (b : ℕ) : m.Rereadable (m.dtpageRead b).bytes :=
  dtpageRead_reread m b

theorem leftmostLeaf_of_descendLeft {xd : Pxd} {buffer : Bytes} {out : Option Bytes}
    (hbuffer : m.Rereadable buffer) (h : descendLeft m fuel xd buffer = some out) :
    ∃ leaf, LeftmostLeaf m (addressPXD xd) leaf ∧ out = some (m.dtpageRead leaf).bytes := by
  induction fuel generalizing xd buffer with
  | zero => simp [descendLeft] at h
  | succ fuel ih =>
      rw [descendLeft, hbuffer.xRead] at h
      dsimp only at h
      split at h
      next hleaf => exact ⟨_, .here hleaf, (Option.some.inj h).symm⟩
      next hinternal =>
        obtain ⟨leaf, hdown, rfl⟩ := ih (rereadable_dtpageRead _) h
        exact ⟨leaf, .down (Bool.not_eq_true _ ▸ hinternal) hdown, rfl⟩

theorem LeftmostLeaf.descendLeft {b leaf : ℕ} (h : LeftmostLeaf m b leaf) :
    ∃ n, ∀ fuel, n ≤ fuel → ∀ xd buffer, addressPXD xd = b → m.Rereadable buffer →
      descendLeft m fuel xd buffer = some (some (m.dtpageRead leaf).bytes) := by
  induction h with
  | @here b hleaf =>
      refine ⟨1, ?_⟩
      rintro fuel hfuel xd buffer rfl hbuffer
      obtain ⟨fuel, rfl⟩ := Nat.exists_eq_succ_of_ne_zero (show fuel ≠ 0 by omega)
      rw [JfsReader.descendLeft, hbuffer.xRead]
      exact if_pos hleaf
  | @down b leaf hinternal _ ih =>
      obtain ⟨n, hn⟩ := ih
      refine ⟨n + 1, ?_⟩
      rintro fuel hfuel xd buffer rfl hbuffer
      obtain ⟨fuel, rfl⟩ := Nat.exists_eq_succ_of_ne_zero (show fuel ≠ 0 by omega)
      rw [JfsReader.descendLeft, hbuffer.xRead]
      have hnot : ¬ (DtPage.mk (m.dtpageRead (addressPXD xd)).bytes).isLeaf = true := by
        rw [Bool.not_eq_true]
        exact hinternal
      exact (if_neg hnot).trans (hn fuel (by omega) _ _ rfl (rereadable_dtpageRead _))

/-! ## The walk -/

section Walk

variable {σ ρ : Type} {visit : Bytes → ℕ → σ → Option (σ ⊕ ρ)} {s : σ} {r : σ ⊕ ρ}
  {b last : ℕ} {leaves : List ℕ}

def visitCell (visit : Bytes → ℕ → σ → Option (σ ⊕ ρ)) (c : EntryCell) (s : σ) :
    Option (σ ⊕ ρ) :=
  visit c.slot c.head s

theorem scan_cells (p : DtPage) (s : σ) :
    scan (fun i => visit p.bytes (p.stbl i)) (List.range p.nextindex) s =
      scan (visitCell visit) p.cells s := by
  unfold DtPage.cells DtPage.headIndices
  rw [scan_map, scan_map]
  rfl

theorem scan_rootCells (root : DtRoot) (s : σ) :
    scan (fun i => visit root.bytes (root.headIndex i)) (List.range root.nextindex) s =
      scan (visitCell visit) root.cells s := by
  unfold DtRoot.cells DtRoot.headIndices
  rw [scan_map, scan_map]
  rfl

theorem walkLeaves_succ :
    walkLeaves m visit (fuel + 1) (m.dtpageRead b).bytes s =
      match scan (visitCell visit) (m.dtpageRead b).cells s with
      | none => none
      | some (.inr r) => some (.inr r)
      | some (.inl s) =>
          if (m.dtpageRead b).next ≠ 0 then
            walkLeaves m visit fuel (m.dtpageRead (m.nextLeaf b)).bytes s
          else some (.inl s) := by
  have hread : m.xRead (((DtPage.mk (m.dtpageRead b).bytes).next <<< m.l2bsize) % 2 ^ 64)
      sizeofDtpage (m.dtpageRead b).bytes = some (m.dtpageRead (m.nextLeaf b)).bytes :=
    xRead_nextLeaf m b
  rw [walkLeaves, ← scan_cells]
  rcases scan (fun i => visit (m.dtpageRead b).bytes ((m.dtpageRead b).stbl i))
    (List.range (m.dtpageRead b).nextindex) s with _ | s' | r
  · rfl
  · simp only [hread]
  · rfl

theorem LeafRun.walkLeaves (h : LeafRun m b leaves last) (hfuel : leaves.length ≤ fuel)
    (hscan : scan (visitCell visit) (leaves.flatMap fun b => (m.dtpageRead b).cells) s = some r)
    (hstop : ∀ s', r = .inl s' → (m.dtpageRead last).next = 0) :
    walkLeaves m visit fuel (m.dtpageRead b).bytes s = some r := by
  induction h generalizing fuel s with
  | one b =>
      obtain ⟨fuel, rfl⟩ := Nat.exists_eq_succ_of_ne_zero (Nat.ne_of_gt hfuel)
      rw [List.flatMap_singleton] at hscan
      rw [walkLeaves_succ, hscan]
      cases r with
      | inr r => rfl
      | inl s' =>
          have hnext := hstop s' rfl
          simp [hnext]
  | @more b last leaves hnext _ ih =>
      rw [List.length_cons] at hfuel
      obtain ⟨fuel, rfl⟩ := Nat.exists_eq_succ_of_ne_zero (show fuel ≠ 0 by omega)
      rw [List.flatMap_cons, scan_append] at hscan
      rw [walkLeaves_succ]
      cases hfirst : scan (visitCell visit) (m.dtpageRead b).cells s with
      | none =>
          rw [hfirst] at hscan
          cases hscan
      | some out =>
          rw [hfirst] at hscan
          cases out with
          | inr r' => exact hscan
          | inl s' =>
              dsimp only
              rw [if_pos hnext]
              exact ih (by omega) hscan hstop

theorem exists_leafRun_of_walkLeaves
    (h : walkLeaves m visit fuel (m.dtpageRead b).bytes s = some r) :
    ∃ leaves last, LeafRun m b leaves last ∧
      scan (visitCell visit) (leaves.flatMap fun b => (m.dtpageRead b).cells) s = some r ∧
      ∀ s', r = .inl s' → (m.dtpageRead last).next = 0 := by
  induction fuel generalizing b s with
  | zero => simp [walkLeaves] at h
  | succ fuel ih =>
      rw [walkLeaves_succ] at h
      cases hfirst : scan (visitCell visit) (m.dtpageRead b).cells s with
      | none =>
          rw [hfirst] at h
          cases h
      | some out =>
          rw [hfirst] at h
          cases out with
          | inr r' =>
              refine ⟨[b], b, .one b, ?_, ?_⟩
              · rw [List.flatMap_singleton, hfirst]
                exact h
              · rintro s' rfl
                cases h
          | inl s' =>
              by_cases hnext : (m.dtpageRead b).next = 0
              · dsimp only at h
                rw [if_neg (not_not.mpr hnext)] at h
                refine ⟨[b], b, .one b, ?_, fun _ _ => hnext⟩
                rw [List.flatMap_singleton, hfirst]
                exact h
              · dsimp only at h
                rw [if_pos hnext] at h
                obtain ⟨leaves, last, hrun, hscan, hstop⟩ := ih h
                refine ⟨b :: leaves, last, .more hnext hrun, ?_, hstop⟩
                rw [List.flatMap_cons, scan_append, hfirst]
                exact hscan

/-- More fuel does not change what a visit ends with. -/
def VisitMono (visit : ℕ → Bytes → ℕ → σ → Option (σ ⊕ ρ)) : Prop :=
  ∀ k n slot head s r, k ≤ n → visit k slot head s = some r → visit n slot head s = some r

theorem VisitMono.scan {visit : ℕ → Bytes → ℕ → σ → Option (σ ⊕ ρ)} (h : VisitMono visit)
    {k n : ℕ} (hle : k ≤ n) {cells : List EntryCell}
    (hscan : StepMachine.scan (visitCell (visit k)) cells s = some r) :
    StepMachine.scan (visitCell (visit n)) cells s = some r :=
  scan_mono (fun _ _ _ hvisit => h _ _ _ _ _ _ hle hvisit) hscan

theorem exists_firstCells_of_walkDirectory {inum address : ℕ} {inode : Bytes}
    (hfind : findInode m fuel (inum % 2 ^ 32) filesystemI = some (some address))
    (hread : m.xRead address sizeofDinode (m.stack .inode) = some inode)
    (hmode : (Dinode.mk inode).diMode &&& ifmt = ifdir)
    (h : walkDirectory m fuel inum visit s = some r) :
    ∃ cells all, FirstCells m ⟨(Dinode.mk inode).diBtroot⟩ cells all ∧
      scan (visitCell visit) cells s = some r ∧ ∀ s', r = .inl s' → all = true := by
  unfold walkDirectory at h
  simp only [hfind, hread, hmode, ne_eq, not_true_eq_false, if_false] at h
  split at h
  next hleaf =>
    refine ⟨_, true, .inline hleaf, ?_, fun _ _ => rfl⟩
    rw [← scan_rootCells]
    split at h
    next hempty =>
      rw [hempty]
      exact h
    next => exact h
  next hinternal =>
    split at h
    next => cases h
    next hfailed =>
      obtain ⟨leaf, -, hout⟩ := leftmostLeaf_of_descendLeft (fun b => rfl) hfailed
      cases hout
    next dtree hdescent =>
      obtain ⟨first, hfirst, hout⟩ := leftmostLeaf_of_descendLeft (fun b => rfl) hdescent
      obtain rfl := Option.some.inj hout
      obtain ⟨leaves, last, hrun, hscan, hstop⟩ := exists_leafRun_of_walkLeaves h
      refine ⟨_, _, .paged (Bool.not_eq_true _ ▸ hinternal) hfirst hrun, hscan, ?_⟩
      intro s' hs'
      rw [beq_iff_eq]
      exact hstop s' hs'

theorem FirstCells.exists_walkDirectory {visit : ℕ → Bytes → ℕ → σ → Option (σ ⊕ ρ)}
    (hmono : VisitMono visit) {inum address : ℕ} {inode : Bytes}
    (hfind : findInode m fuel (inum % 2 ^ 32) filesystemI = some (some address))
    (hread : m.xRead address sizeofDinode (m.stack .inode) = some inode)
    (hmode : (Dinode.mk inode).diMode &&& ifmt = ifdir) {cells : List EntryCell} {all : Bool}
    (hcells : FirstCells m ⟨(Dinode.mk inode).diBtroot⟩ cells all)
    (hscan : scan (visitCell (visit n)) cells s = some r)
    (hstop : ∀ s', r = .inl s' → all = true) :
    ∃ fuel, walkDirectory m fuel inum (visit fuel) s = some r := by
  cases hcells with
  | inline hleaf =>
      refine ⟨max fuel n, ?_⟩
      have hscan' := hmono.scan (show n ≤ max fuel n by omega) hscan
      unfold walkDirectory
      simp only [findInode_of_le hfind (show fuel ≤ max fuel n by omega), hread, hmode, ne_eq,
        not_true_eq_false, if_false, hleaf, if_true]
      rw [← scan_rootCells] at hscan'
      split
      next hempty =>
        rw [hempty] at hscan'
        exact hscan'
      next => exact hscan'
  | @paged first last leaves hinternal hfirst hrun =>
      obtain ⟨k, hk⟩ := hfirst.descendLeft
      refine ⟨max (max fuel n) (max k leaves.length), ?_⟩
      have hscan' := hmono.scan
        (show n ≤ max (max fuel n) (max k leaves.length) by omega) hscan
      unfold walkDirectory
      simp only [findInode_of_le hfind
        (show fuel ≤ max (max fuel n) (max k leaves.length) by omega), hread, hmode, ne_eq,
        not_true_eq_false, if_false, hinternal, Bool.false_eq_true]
      rw [hk _ (by omega) _ _ rfl fun b => rfl]
      apply hrun.walkLeaves (by omega) hscan'
      intro s' hs'
      simpa using hstop s' hs'

theorem findInode_of_walkDirectory {inum : ℕ} (h : walkDirectory m fuel inum visit s = some r) :
    ∃ found, findInode m fuel (inum % 2 ^ 32) filesystemI = some found := by
  unfold walkDirectory at h
  cases hfind : findInode m fuel (inum % 2 ^ 32) filesystemI with
  | none =>
      rw [hfind] at h
      cases h
  | some found => exact ⟨found, rfl⟩

theorem walkDirectory_of_not_directory {inum address : ℕ} {inode : Bytes}
    (hfind : findInode m fuel (inum % 2 ^ 32) filesystemI = some (some address))
    (hread : m.xRead address sizeofDinode (m.stack .inode) = some inode)
    (hmode : (Dinode.mk inode).diMode &&& ifmt ≠ ifdir) :
    walkDirectory m fuel inum visit s = some (.inl s) := by
  unfold walkDirectory
  simp only [hfind, hread, hmode, ne_eq, not_false_eq_true, if_true]

/-- The walk ends exactly when the visits of some first entries do: of all, or of
those up to one that returns. -/
theorem walkDirectory_ends_iff {visit : ℕ → Bytes → ℕ → σ → Option (σ ⊕ ρ)}
    (hmono : VisitMono visit) {inum address : ℕ} {inode : Bytes}
    (hfind : findInode m fuel (inum % 2 ^ 32) filesystemI = some (some address))
    (hread : m.xRead address sizeofDinode (m.stack .inode) = some inode) :
    (∃ fuel r, walkDirectory m fuel inum (visit fuel) s = some r) ↔
      (Dinode.mk inode).diMode &&& ifmt ≠ ifdir ∨
        ∃ cells all, FirstCells m ⟨(Dinode.mk inode).diBtroot⟩ cells all ∧
          ∃ n r, scan (visitCell (visit n)) cells s = some r ∧
            ∀ s', r = .inl s' → all = true := by
  constructor
  · rintro ⟨n, r, hwalk⟩
    by_cases hmode : (Dinode.mk inode).diMode &&& ifmt = ifdir
    · right
      obtain ⟨found, hfound⟩ := findInode_of_walkDirectory hwalk
      obtain rfl := findInode_unique hfound hfind
      obtain ⟨cells, all, hcells, hscan, hstop⟩ :=
        exists_firstCells_of_walkDirectory hfound hread hmode hwalk
      exact ⟨cells, all, hcells, n, r, hscan, hstop⟩
    · exact .inl hmode
  · intro hends
    by_cases hmode : (Dinode.mk inode).diMode &&& ifmt = ifdir
    · obtain ⟨cells, all, hcells, n, r, hscan, hstop⟩ := hends.resolve_left (not_not.mpr hmode)
      obtain ⟨k, hk⟩ := hcells.exists_walkDirectory hmono hfind hread hmode hscan hstop
      exact ⟨k, r, hk⟩
    · exact ⟨fuel, _, walkDirectory_of_not_directory hfind hread hmode⟩

end Walk

/-! ## `readndir` -/

variable {pos : ℤ} {name2 : Buffer UInt8} {rino1 : ℕ}

theorem nameInum_eq_none_iff {slot : Bytes} {head : ℕ} :
    nameInum m fuel slot head name2 rino1 = none ↔ assembleName m fuel slot head = none := by
  unfold nameInum
  cases assembleName m fuel slot head with
  | none => simp
  | some out => cases out <;> simp

theorem nameInum_ends_iff :
    (∃ n out, nameInum m n c.slot c.head name2 rino1 = some out) ↔ c.NameEnds m := by
  constructor
  · rintro ⟨n, out, hout⟩
    cases hname : assembleName m n c.slot c.head with
    | none =>
        rw [nameInum_eq_none_iff.mpr hname] at hout
        cases hout
    | some name => exact nameEnds_of_assembleName hname
  · intro hends
    cases hname : nameInum m (dtPageMaxSlot + 1) c.slot c.head name2 rino1 with
    | none =>
        rw [nameInum_eq_none_iff, assembleName_eq_none_iff (Nat.lt_succ_self _)] at hname
        exact absurd hends hname
    | some out => exact ⟨_, out, hname⟩

theorem readndirVisit_mono (m : Mount) (pos : ℤ) (name2 : Buffer UInt8) (rino1 : ℕ) :
    VisitMono fun n => readndirVisit m n pos name2 rino1 := by
  intro k n slot head cpos r hle hvisit
  unfold readndirVisit at hvisit ⊢
  dsimp only at hvisit ⊢
  split
  next hhere =>
    rw [if_pos hhere] at hvisit
    cases hname : assembleName m k slot head with
    | none =>
        rw [nameInum_eq_none_iff.mpr hname] at hvisit
        cases hvisit
    | some name =>
        unfold nameInum at hvisit ⊢
        simp only [assembleName_of_le hname hle]
        simpa only [hname] using hvisit
  next hlater =>
    rw [if_neg hlater] at hvisit
    exact hvisit

theorem scan_readndirVisit_ends_iff {cells : List EntryCell} {all : Bool} :
    (∃ n r, scan (visitCell (readndirVisit m n pos name2 rino1)) cells 0 = some r ∧
        ∀ cpos, r = .inl cpos → all = true) ↔
      (∃ (k : ℕ) (c : EntryCell), pos = k ∧ cells[k]? = some c ∧ c.NameEnds m) ∨
        (all = true ∧ (pos < 0 ∨ cells.length ≤ pos)) := by
  have hcount : ∀ n, visitCell (readndirVisit m n pos name2 rino1) =
      countTo pos fun c => nameInum m n c.slot c.head name2 rino1 := fun _ => rfl
  simp only [hcount]
  by_cases hpos : pos < 0 ∨ cells.length ≤ pos
  · have hscan : ∀ n, scan (countTo pos fun c : EntryCell =>
        nameInum m n c.slot c.head name2 rino1) cells 0 = some (.inl (0 + cells.length)) :=
      fun n => scan_countTo_of_not_mem (by omega)
    simp only [hscan]
    constructor
    · rintro ⟨n, r, hr, hall⟩
      exact .inr ⟨hall _ (Option.some.inj hr).symm, hpos⟩
    · rintro (⟨k, c, rfl, hc, -⟩ | ⟨hall, -⟩)
      · have hlt := (List.getElem?_eq_some_iff.mp hc).1
        omega
      · exact ⟨0, _, rfl, fun _ _ => hall⟩
  · push Not at hpos
    obtain ⟨k, rfl⟩ := Int.eq_ofNat_of_zero_le hpos.1
    have hlt : k < cells.length := by omega
    have hc := List.getElem?_eq_getElem hlt
    have hscan : ∀ n, scan (countTo (k : ℤ) fun c : EntryCell =>
        nameInum m n c.slot c.head name2 rino1) cells 0 =
          (nameInum m n cells[k].slot cells[k].head name2 rino1).map .inr :=
      fun n => scan_countTo_of_lt (zero_add (k : ℤ)).symm hc
    simp only [hscan]
    constructor
    · rintro ⟨n, r, hr, -⟩
      obtain ⟨out, hout, -⟩ := Option.map_eq_some_iff.mp hr
      exact .inl ⟨k, cells[k], rfl, hc, nameInum_ends_iff.mp ⟨n, out, hout⟩⟩
    · rintro (⟨k', c, hk', hc', hends⟩ | ⟨-, hout⟩)
      · obtain rfl : k = k' := by omega
        obtain rfl : cells[k] = c := Option.some.inj (hc.symm.trans hc')
        obtain ⟨n, out, hout⟩ := nameInum_ends_iff.mpr hends
        refine ⟨n, .inr out, by rw [hout]; rfl, ?_⟩
        intro cpos hcpos
        cases hcpos
      · omega

theorem readndir_ends_iff {inum address : ℕ} {inode : Bytes}
    (hfind : findInode m fuel (inum % 2 ^ 32) filesystemI = some (some address))
    (hread : m.xRead address sizeofDinode (m.stack .inode) = some inode) :
    (∃ fuel out, readndir m fuel inum pos name2 rino1 = some out) ↔
      m.malloc 100 = none ∨ (Dinode.mk inode).diMode &&& ifmt ≠ ifdir ∨
        ReadndirEnds m ⟨(Dinode.mk inode).diBtroot⟩ pos := by
  have hwalk := walkDirectory_ends_iff (s := (0 : ℤ))
    (readndirVisit_mono m pos name2 rino1) hfind hread
  unfold ReadndirEnds
  cases hscratch : m.malloc 100 with
  | none => simp [readndir, hscratch]
  | some scratch =>
      have hreturns : (∃ fuel out, readndir m fuel inum pos name2 rino1 = some out) ↔
          ∃ fuel r, walkDirectory m fuel inum (readndirVisit m fuel pos name2 rino1) 0 =
            some r := by
        apply exists_congr
        intro n
        unfold readndir
        rw [hscratch]
        cases walkDirectory m n inum (readndirVisit m n pos name2 rino1) 0 with
        | none => simp
        | some r => cases r <;> simp
      rw [hreturns, hwalk]
      simp only [reduceCtorEq, false_or, scan_readndirVisit_ends_iff]

/-! ## `directory` -/

variable {name : List UInt8} {namelen gotinum : ℕ}

theorem directoryVisit_eq_none_iff {slot : Bytes} {head : ℕ} :
    directoryVisit m fuel name namelen slot head gotinum = none ↔
      assembleName m fuel slot head = none := by
  unfold directoryVisit printDirentry
  cases assembleName m fuel slot head with
  | none => simp
  | some out =>
      cases out with
      | none => simp
      | some units =>
          by_cases hmatch : namesMatch (convertName (ldtentry slot head) units).cells name
              namelen = true
          · simp [hmatch]
          · simp [hmatch]

theorem directoryVisit_mono (m : Mount) (name : List UInt8) (namelen : ℕ) :
    VisitMono fun n => directoryVisit m n name namelen := by
  intro k n slot head gotinum r hle hvisit
  dsimp only at hvisit ⊢
  cases hname : assembleName m k slot head with
  | none =>
      rw [directoryVisit_eq_none_iff.mpr hname] at hvisit
      cases hvisit
  | some out =>
      unfold directoryVisit printDirentry at hvisit ⊢
      simp only [assembleName_of_le hname hle]
      simpa only [hname] using hvisit

theorem directoryVisit_of_answers (h : c.Answers m name namelen)
    (hfuel : dtPageMaxSlot < fuel) :
    directoryVisit m fuel name namelen c.slot c.head gotinum = some (.inr c.entry.inumber) := by
  obtain ⟨units, hunits, hmatch⟩ := assembleName_of_answers h hfuel
  unfold EntryCell.entry at hmatch ⊢
  simp [directoryVisit, printDirentry, hunits, hmatch]

theorem directoryVisit_of_not_answers (hends : c.NameEnds m) (h : ¬ c.Answers m name namelen)
    (hfuel : dtPageMaxSlot < fuel) :
    ∃ gotinum', directoryVisit m fuel name namelen c.slot c.head gotinum =
      some (.inl gotinum') := by
  cases hname : assembleName m fuel c.slot c.head with
  | none => exact absurd hends ((assembleName_eq_none_iff hfuel).mp hname)
  | some out =>
      cases out with
      | none => exact ⟨gotinum, by simp [directoryVisit, printDirentry, hname]⟩
      | some units =>
          have hnot : ¬ namesMatch (convertName (ldtentry c.slot c.head) units).cells name
              namelen = true :=
            fun hmatch => h (answers_of_assembleName hfuel hname hmatch)
          exact ⟨noInum, by simp [directoryVisit, printDirentry, hname, hnot]⟩

theorem searchStops_cons_iff {cells : List EntryCell} {all : Bool} :
    SearchStops m name namelen (c :: cells) all ↔
      c.Answers m name namelen ∨ (c.NameEnds m ∧ SearchStops m name namelen cells all) := by
  unfold SearchStops
  constructor
  · rintro (⟨seen, d, rest, heq, hseen, hanswers⟩ | ⟨hall, hends⟩)
    · cases seen with
      | nil =>
          obtain ⟨rfl, -⟩ := List.cons.inj heq
          exact .inl hanswers
      | cons e seen =>
          obtain ⟨rfl, hcells⟩ := List.cons.inj heq
          rw [List.forall_mem_cons] at hseen
          exact .inr ⟨hseen.1, .inl ⟨seen, d, rest, hcells, hseen.2, hanswers⟩⟩
    · rw [List.forall_mem_cons] at hends
      exact .inr ⟨hends.1, .inr ⟨hall, hends.2⟩⟩
  · rintro (hanswers | ⟨hends, ⟨seen, d, rest, rfl, hseen, hanswers⟩ | ⟨hall, hrest⟩⟩)
    · exact .inl ⟨[], c, cells, rfl, by simp, hanswers⟩
    · exact .inl ⟨c :: seen, d, rest, rfl, List.forall_mem_cons.mpr ⟨hends, hseen⟩, hanswers⟩
    · exact .inr ⟨hall, List.forall_mem_cons.mpr ⟨hends, hrest⟩⟩

theorem scan_directoryVisit_ends_iff {cells : List EntryCell} {all : Bool}
    (hfuel : dtPageMaxSlot < fuel) :
    (∃ r, scan (visitCell (directoryVisit m fuel name namelen)) cells gotinum = some r ∧
        ∀ g, r = .inl g → all = true) ↔ SearchStops m name namelen cells all := by
  induction cells generalizing gotinum with
  | nil => simp [scan, SearchStops]
  | cons c cells ih =>
      rw [searchStops_cons_iff, scan]
      unfold visitCell at ih ⊢
      by_cases hanswers : c.Answers m name namelen
      · rw [directoryVisit_of_answers hanswers hfuel]
        simp [hanswers]
      · by_cases hends : c.NameEnds m
        · obtain ⟨gotinum', hvisit⟩ := directoryVisit_of_not_answers hends hanswers hfuel
          rw [hvisit]
          simp only [hanswers, hends, true_and, false_or]
          exact ih
        · have hvisit : directoryVisit m fuel name namelen c.slot c.head gotinum = none :=
            directoryVisit_eq_none_iff.mpr ((assembleName_eq_none_iff hfuel).mpr hends)
          rw [hvisit]
          simp [hanswers, hends]

theorem directory_ends_iff {inum address : ℕ} {inode : Bytes}
    (hfind : findInode m fuel (inum % 2 ^ 32) filesystemI = some (some address))
    (hread : m.xRead address sizeofDinode (m.stack .inode) = some inode) :
    (∃ fuel out, directory m fuel inum name namelen gotinum = some out) ↔
      (Dinode.mk inode).diMode &&& ifmt ≠ ifdir ∨
        DirectoryEnds m ⟨(Dinode.mk inode).diBtroot⟩ name namelen := by
  have hmono := directoryVisit_mono m name namelen
  have hreturns : (∃ fuel out, directory m fuel inum name namelen gotinum = some out) ↔
      ∃ fuel r, walkDirectory m fuel inum (directoryVisit m fuel name namelen) gotinum =
        some r := by
    apply exists_congr
    intro n
    unfold directory
    cases walkDirectory m n inum (directoryVisit m n name namelen) gotinum with
    | none => simp
    | some r => cases r <;> simp
  have hscan : ∀ cells all, (∃ n r,
      scan (visitCell (directoryVisit m n name namelen)) cells gotinum = some r ∧
        ∀ g, r = .inl g → all = true) ↔ SearchStops m name namelen cells all := by
    intro cells all
    constructor
    · rintro ⟨n, r, hr, hall⟩
      have hlong := hmono.scan (Nat.le_max_left n (dtPageMaxSlot + 1)) hr
      exact (scan_directoryVisit_ends_iff (by omega)).mp ⟨r, hlong, hall⟩
    · intro hstops
      exact ⟨_, (scan_directoryVisit_ends_iff (Nat.lt_succ_self dtPageMaxSlot)).mpr hstops⟩
  rw [hreturns, walkDirectory_ends_iff hmono hfind hread]
  simp only [hscan]
  rfl

/-- The directory operations end exactly when the links that they follow come to
an end: the way down, the links between the leaves unless the entry that
answers comes before, and the slot chains of the names that are assembled. -/
theorem directory_operations_end_iff {inum address : ℕ} {inode : Bytes}
    (hfind : findInode m fuel (inum % 2 ^ 32) filesystemI = some (some address))
    (hread : m.xRead address sizeofDinode (m.stack .inode) = some inode) :
    (∀ pos name2 rino1, (∃ fuel out, readndir m fuel inum pos name2 rino1 = some out) ↔
      m.malloc 100 = none ∨ (Dinode.mk inode).diMode &&& ifmt ≠ ifdir ∨
        ReadndirEnds m ⟨(Dinode.mk inode).diBtroot⟩ pos) ∧
    (∀ name namelen gotinum,
      (∃ fuel out, directory m fuel inum name namelen gotinum = some out) ↔
        (Dinode.mk inode).diMode &&& ifmt ≠ ifdir ∨
          DirectoryEnds m ⟨(Dinode.mk inode).diBtroot⟩ name namelen) :=
  ⟨fun _ _ _ => readndir_ends_iff hfind hread, fun _ _ _ => directory_ends_iff hfind hread⟩

theorem twoLeafMount_firstCells :
    FirstCells twoLeafMount ⟨(twoLeafMount.inodeAt 123904).diBtroot⟩
      ([40, 41].flatMap fun b => (twoLeafMount.dtpageRead b).cells) true := by
  have hchild : (DtRoot.mk (twoLeafMount.inodeAt 123904).diBtroot).child 0 = 40 := by decide
  have hnext : twoLeafMount.nextLeaf 40 = 41 := by decide
  have hlast : ((twoLeafMount.dtpageRead 41).next == 0) = true := by decide
  have hfirst : LeftmostLeaf twoLeafMount
      ((DtRoot.mk (twoLeafMount.inodeAt 123904).diBtroot).child 0) 40 := by
    rw [hchild]
    exact .here (by decide)
  have hrun : LeafRun twoLeafMount 40 [40, 41] 41 := by
    refine .more (by decide) ?_
    rw [hnext]
    exact .one 41
  rw [← hlast]
  exact .paged (by decide) hfirst hrun

theorem twoLeafMount_namesEnd :
    ∀ c ∈ [40, 41].flatMap fun b => (twoLeafMount.dtpageRead b).cells, c.NameEnds twoLeafMount := by
  have hnext : ∀ c ∈ [40, 41].flatMap fun b => (twoLeafMount.dtpageRead b).cells,
      c.entry.next < 0 := by decide
  intro c hc
  exact .inr ⟨[], .done (hnext c hc)⟩

theorem directory_operations_end_twoLeaf :
    (∃ fuel out, readndir twoLeafMount fuel 2 (-1) (.fresh fun _ => 1) 0 = some out) ∧
      ∃ fuel out, directory twoLeafMount fuel 2 [120] 1 0 = some out := by
  have hends := directory_operations_end_iff twoLeafMount_findInode
    (show twoLeafMount.xRead 123904 sizeofDinode (twoLeafMount.stack .inode) =
      some (twoLeafMount.inodeAt 123904).bytes from rfl)
  refine ⟨(hends.1 _ _ _).mpr (.inr (.inr ?_)), (hends.2 _ _ _).mpr (.inr ?_)⟩
  · exact ⟨_, _, twoLeafMount_firstCells, .inr ⟨rfl, .inl (by decide)⟩⟩
  · exact ⟨_, _, twoLeafMount_firstCells, .inr ⟨rfl, twoLeafMount_namesEnd⟩⟩

/-! A directory of one entry in the inode, whose name goes on in a slot that is
linked to itself. -/

def loopMount : Mount where
  image := Bytes.sparse [(53488, 2), (53490, 3), (53512, 2), (53516, 20),
    (89088, 4), (89092, 30),
    (123957, 0x40), (124144, 2), (124145, 1), (124152, 1),
    (124160, 5), (124164, 2), (124165, 20), (124192, 2)]
  l2bsize := 12
  l2bsize_ge := Mount.pageBlocks_ge
  l2bsize_le := Mount.pageBlocks_le
  malloc := fun _ => some (Bytes.sparse [])

theorem not_slotChain_of_self {slot : Bytes} {count i : ℕ} (h : (dtslot slot i).next = i) :
    ¬ SlotChain slot count i chain := by
  intro hchain
  generalize hnext : (i : ℤ) = next at hchain
  cases hchain with
  | done hneg => omega
  | @link j rest hlt hrest =>
      obtain rfl : i = j := by omega
      rw [h] at hrest
      have hlen := congrArg List.length (hrest.unique (.link hlt (h ▸ hrest)))
      rw [List.length_cons] at hlen
      omega

theorem loopMount_firstCells {cells : List EntryCell} {all : Bool}
    (h : FirstCells loopMount ⟨(loopMount.inodeAt 123904).diBtroot⟩ cells all) :
    cells = [⟨(loopMount.inodeAt 123904).diBtroot, 1⟩] := by
  cases h with
  | inline _ => rfl
  | paged hinternal _ _ => exact absurd hinternal (by decide)

theorem loopMount_not_nameEnds :
    ¬ EntryCell.NameEnds loopMount ⟨(loopMount.inodeAt 123904).diBtroot, 1⟩ := by
  rintro (hnone | ⟨chain, hchain⟩)
  · cases hnone
  · have hself : (dtslot (loopMount.inodeAt 123904).diBtroot 2).next = (2 : ℕ) := by decide
    exact not_slotChain_of_self hself hchain

theorem looping_name_hangs :
    (∀ fuel name2 rino1, readndir loopMount fuel 2 0 name2 rino1 = none) ∧
      ∀ fuel name namelen gotinum, directory loopMount fuel 2 name namelen gotinum = none := by
  have hfind : findInode loopMount 3 (2 % 2 ^ 32) filesystemI = some (some 123904) := rfl
  have hread : loopMount.xRead 123904 sizeofDinode (loopMount.stack .inode) =
    some (loopMount.inodeAt 123904).bytes := rfl
  constructor
  · intro fuel name2 rino1
    by_contra hsome
    obtain ⟨out, hout⟩ := Option.ne_none_iff_exists'.mp hsome
    rcases (readndir_ends_iff hfind hread).mp ⟨fuel, out, hout⟩ with
      hnone | hmode | ⟨cells, all, hcells, hends⟩
    · cases hnone
    · exact absurd (by decide) hmode
    · obtain rfl := loopMount_firstCells hcells
      rcases hends with ⟨k, c, hk, hc, hends⟩ | ⟨-, hpos⟩
      · obtain rfl : k = 0 := by omega
        obtain rfl := Option.some.inj hc
        exact loopMount_not_nameEnds hends
      · simp at hpos
  · intro fuel name namelen gotinum
    by_contra hsome
    obtain ⟨out, hout⟩ := Option.ne_none_iff_exists'.mp hsome
    rcases (directory_ends_iff hfind hread).mp ⟨fuel, out, hout⟩ with
      hmode | ⟨cells, all, hcells, hstops⟩
    · exact absurd (by decide) hmode
    · obtain rfl := loopMount_firstCells hcells
      rcases searchStops_cons_iff.mp hstops with hanswers | ⟨hends, -⟩
      · exact loopMount_not_nameEnds hanswers.nameEnds
      · exact loopMount_not_nameEnds hends

end JfsReader
