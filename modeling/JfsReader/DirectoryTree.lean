import JfsReader.InodeSearch
import JfsReader.NameSlots

/-!
# Directories as trees, and the walk over their leaves

`readndir` and `directory` go to a directory's entries in the same way: down
the left edge of the tree to its first leaf, then from leaf to leaf over the
sibling links.  The walk is modelled once, with the body of the loop over the
entries as a parameter, and is shown to run that body over the in-order list of
the entries of the tree.
-/

namespace JfsReader

open StepMachine

def dtRootMaxSlot : ℕ := 9
def dtRootStblSize : ℕ := 8
def dtPageMaxSlot : ℕ := 128
def sizeofDtpage : ℕ := 4096

/-- `dtroot_t`; `slot` starts where the header does. -/
structure DtRoot where
  bytes : Bytes

namespace DtRoot

def flag (r : DtRoot) : UInt8 := r.bytes 16
def nextindex (r : DtRoot) : ℕ := r.bytes.byte 17
def stbl (r : DtRoot) (i : ℕ) : ℤ := r.bytes.s8 (24 + i)
def isLeaf (r : DtRoot) : Bool := r.flag &&& btLeaf != 0

/-- `stbl[i]`, converted to `uint8_t` for the call. -/
def headIndex (r : DtRoot) (i : ℕ) : ℕ := r.bytes.byte (24 + i)

end DtRoot

structure DtPage where
  bytes : Bytes

namespace DtPage

def next (p : DtPage) : ℕ := p.bytes.le64 0
def flag (p : DtPage) : UInt8 := p.bytes 16
def nextindex (p : DtPage) : ℕ := p.bytes.byte 17
def stblindex (p : DtPage) : ℕ := p.bytes.byte 21
def stbl (p : DtPage) (i : ℕ) : ℕ := p.bytes.byte (dtslotSize * p.stblindex + i)
def isLeaf (p : DtPage) : Bool := p.flag &&& btLeaf != 0

end DtPage

def idtentryXd (slot : Bytes) (i : ℤ) : Pxd := pxdAt slot (dtslotSize * i)

section Walk

variable {σ ρ : Type}

/-- The label `descend`: the leftmost leaf, or `some none` after a failed
read. -/
def descendLeft (m : Mount) : ℕ → Pxd → Bytes → Option (Option Bytes)
  | 0, _, _ => none
  | fuel + 1, xd, dtree =>
      match m.xRead (addressPXD xd <<< m.l2bsize) sizeofDtpage dtree with
      | none => some none
      | some dtree =>
          if (DtPage.mk dtree).isLeaf then some (some dtree)
          else descendLeft m fuel (idtentryXd dtree ((DtPage.mk dtree).stbl 0)) dtree

/-- The label `next_leaf`, with `visit` as the body of the loop over the
entries. -/
def walkLeaves (m : Mount) (visit : Bytes → ℕ → σ → Option (σ ⊕ ρ)) :
    ℕ → Bytes → σ → Option (σ ⊕ ρ)
  | 0, _, _ => none
  | fuel + 1, dtree, s =>
      let p : DtPage := ⟨dtree⟩
      match scan (fun i => visit dtree (p.stbl i)) (List.range p.nextindex) s with
      | none => none
      | some (.inr r) => some (.inr r)
      | some (.inl s) =>
          if p.next ≠ 0 then
            -- `header.next` is 64 bits wide, so the shift can lose bits here
            match m.xRead ((p.next <<< m.l2bsize) % 2 ^ 64) sizeofDtpage dtree with
            | none => some (.inl s)
            | some dtree => walkLeaves m visit fuel dtree s
          else some (.inl s)

/-- The body of `readndir` and `directory`.  Every exit but an early return
from the loop over the entries leaves the loop's variables as they stand. -/
def walkDirectory (m : Mount) (fuel inum : ℕ) (visit : Bytes → ℕ → σ → Option (σ ⊕ ρ))
    (s : σ) : Option (σ ⊕ ρ) :=
  match findInode m fuel (inum % 2 ^ 32) filesystemI with
  | none => none
  | some none => some (.inl s)
  | some (some inodeAddress) =>
      match m.xRead inodeAddress sizeofDinode (m.stack .inode) with
      | none => some (.inl s)
      | some inode =>
          if (Dinode.mk inode).diMode &&& ifmt ≠ ifdir then some (.inl s)
          else
            let root : DtRoot := ⟨(Dinode.mk inode).diBtroot⟩
            if root.isLeaf then
              if root.nextindex = 0 then some (.inl s)
              else
                scan (fun i => visit root.bytes (root.headIndex i))
                  (List.range root.nextindex) s
            else
              -- `stbl` is signed here: a negative number leads to a slot in front
              match descendLeft m fuel (idtentryXd root.bytes (root.stbl 0)) (m.stack .dtree) with
              | none => none
              | some none => some (.inl s)
              | some (some dtree) => walkLeaves m visit fuel dtree s

end Walk

/-! ## Well-formed directories -/

def Mount.dtpage (m : Mount) (block : ℕ) : DtPage := ⟨m.block block⟩

def DtRoot.headIndices (r : DtRoot) : List ℕ := (List.range r.nextindex).map r.headIndex

def DtPage.headIndices (p : DtPage) : List ℕ := (List.range p.nextindex).map p.stbl

structure DtPage.TableOk (p : DtPage) : Prop where
  inside : dtslotSize * p.stblindex + p.nextindex ≤ sizeofDtpage
  entries : ∀ i, i < p.nextindex → p.stbl i < dtPageMaxSlot

structure DtRoot.TableOk (r : DtRoot) : Prop where
  inside : r.nextindex ≤ dtRootStblSize
  entries : ∀ i, i < r.nextindex → 0 ≤ r.stbl i ∧ r.stbl i < dtRootMaxSlot

def DtPage.child (p : DtPage) (i : ℕ) : ℕ := addressPXD (idtentryXd p.bytes (p.stbl i))

def DtRoot.child (r : DtRoot) (i : ℕ) : ℕ := addressPXD (idtentryXd r.bytes (r.stbl i))

/-- The subtree under a block, with the blocks of its leaves from left to
right. -/
inductive DtSubtree (m : Mount) : ℕ → List ℕ → Prop
  | leaf {b : ℕ} : (m.dtpage b).isLeaf = true → DtSubtree m b [b]
  | internal {b : ℕ} {leaves : ℕ → List ℕ} :
      (m.dtpage b).isLeaf = false → (m.dtpage b).TableOk →
      0 < (m.dtpage b).nextindex →
      (∀ i, i < (m.dtpage b).nextindex → DtSubtree m ((m.dtpage b).child i) (leaves i)) →
      DtSubtree m b ((List.range (m.dtpage b).nextindex).flatMap leaves)

def LeavesLinked (m : Mount) : List ℕ → Prop
  | [] => True
  | [b] => (m.dtpage b).next = 0
  | b :: b' :: rest =>
      ((m.dtpage b).next = b' ∧ b' ≠ 0) ∧ LeavesLinked m (b' :: rest)

structure DtPage.LeafHolds (p : DtPage) (entries : List DirEntry) : Prop where
  table : p.TableOk
  holds : List.Forall₂ (HoldsEntry p.bytes dtPageMaxSlot) p.headIndices entries

/-- A directory root and the in-order list of its tree's entries. -/
inductive DtTree (m : Mount) (r : DtRoot) : List DirEntry → Prop
  | inline {entries : List DirEntry} : r.isLeaf = true → r.TableOk →
      List.Forall₂ (HoldsEntry r.bytes dtRootMaxSlot) r.headIndices entries →
      DtTree m r entries
  | paged {leaves : ℕ → List ℕ} {entries : List (List DirEntry)} : r.isLeaf = false →
      r.TableOk → 0 < r.nextindex →
      (∀ i, i < r.nextindex → DtSubtree m (r.child i) (leaves i)) →
      LeavesLinked m ((List.range r.nextindex).flatMap leaves) →
      List.Forall₂ (fun b es => (m.dtpage b).LeafHolds es)
        ((List.range r.nextindex).flatMap leaves) entries →
      DtTree m r entries.flatten

/-- An inode that `find_inode` and `xRead` deliver, and that is a directory
with the given entries. -/
structure IsDirectory (m : Mount) (inum : ℕ) (entries : List DirEntry) : Prop where
  delivered : ∃ fuel address inode,
    findInode m fuel (inum % 2 ^ 32) filesystemI = some (some address) ∧
    m.xRead address sizeofDinode (m.stack .inode) = some inode ∧
    (Dinode.mk inode).diMode &&& ifmt = ifdir ∧
    DtTree m ⟨(Dinode.mk inode).diBtroot⟩ entries

/-! ## Pages read from the disk -/

def DtPage.Same (p q : DtPage) : Prop := Bytes.Agree sizeofDtpage p.bytes q.bytes

namespace DtPage.Same

variable {p q : DtPage} (h : p.Same q)

include h

theorem isLeaf : p.isLeaf = q.isLeaf := by
  unfold DtPage.isLeaf DtPage.flag
  rw [h 16 (by decide) (by decide)]

theorem next : p.next = q.next := Bytes.Agree.le64 h (by decide)

theorem nextindex : p.nextindex = q.nextindex := Bytes.Agree.byte h (by decide)

theorem stbl (hq : q.TableOk) {i : ℕ} (hi : i < q.nextindex) : p.stbl i = q.stbl i := by
  have hindex : p.stblindex = q.stblindex := Bytes.Agree.byte h (by decide)
  have hinside := hq.inside
  unfold DtPage.stbl
  rw [hindex]
  exact Bytes.Agree.byte h (by omega)

theorem headIndices (hq : q.TableOk) : p.headIndices = q.headIndices := by
  unfold DtPage.headIndices
  rw [h.nextindex]
  apply List.map_congr_left
  intro i hi
  exact h.stbl hq (List.mem_range.mp hi)

theorem child (hq : q.TableOk) {i : ℕ} (hi : i < q.nextindex) :
    addressPXD (idtentryXd p.bytes (p.stbl i)) = q.child i := by
  have hlt := hq.entries i hi
  unfold DtPage.child idtentryXd
  rw [h.stbl hq hi, pxdAt_congr h]
  unfold dtslotSize sizeofDtpage
  unfold dtPageMaxSlot at hlt
  omega

theorem leafHolds {entries : List DirEntry} (hq : q.LeafHolds entries) :
    List.Forall₂ (HoldsEntry p.bytes dtPageMaxSlot) p.headIndices entries := by
  have hagree : Bytes.Agree (dtslotSize * dtPageMaxSlot) q.bytes p.bytes :=
    Bytes.Agree.symm h
  rw [h.headIndices hq.table]
  exact hq.holds.imp fun _ _ hentry => hentry.congr hagree

end DtPage.Same

variable {m : Mount}

theorem Mount.xRead_dtpage (m : Mount) (b : ℕ) (buffer : Bytes) :
    ∃ dtree, m.xRead (b <<< m.l2bsize) sizeofDtpage buffer = some dtree ∧
      (DtPage.mk dtree).Same (m.dtpage b) :=
  ⟨_, m.xRead_page b buffer, Bytes.Agree.memcpy_src _ _ _⟩

theorem addressPXD_lt (x : Pxd) : addressPXD x < 2 ^ 40 := by
  have hlo := x.addr1.isLt
  apply Nat.or_lt_two_pow
  · rw [Nat.shiftLeft_eq]
    omega
  · exact lt_trans x.addr2.isLt (by decide)

/-! ## The walk -/

theorem DtSubtree.leaves_lt {b : ℕ} {leaves : List ℕ} (h : DtSubtree m b leaves)
    (hb : b < 2 ^ 40) : ∀ l ∈ leaves, l < 2 ^ 40 := by
  induction h with
  | leaf _ => simpa using hb
  | internal _ _ _ _ ih =>
      intro l hl
      obtain ⟨i, hi, hmem⟩ := List.mem_flatMap.mp hl
      exact ih i (List.mem_range.mp hi) (addressPXD_lt _) l hmem

theorem DtSubtree.descendLeft {b : ℕ} {leaves : List ℕ} (h : DtSubtree m b leaves) :
    ∃ first rest depth, leaves = first :: rest ∧
      ∀ fuel xd buffer, depth ≤ fuel → addressPXD xd = b →
        ∃ dtree, JfsReader.descendLeft m fuel xd buffer = some (some dtree) ∧
          (DtPage.mk dtree).Same (m.dtpage first) := by
  induction h with
  | @leaf b hleaf =>
      refine ⟨b, [], 1, rfl, ?_⟩
      intro fuel xd buffer hfuel hxd
      obtain ⟨fuel, rfl⟩ := Nat.exists_eq_succ_of_ne_zero (show fuel ≠ 0 by omega)
      obtain ⟨dtree, hread, hsame⟩ := m.xRead_dtpage b buffer
      refine ⟨dtree, ?_, hsame⟩
      simp [JfsReader.descendLeft, hxd, hread, hsame.isLeaf, hleaf]
  | @internal b leaves hinternal htable hpos _ ih =>
      obtain ⟨first, rest, depth, hfirst, hdescend⟩ := ih 0 hpos
      obtain ⟨n, hn⟩ := Nat.exists_eq_succ_of_ne_zero (Nat.ne_of_gt hpos)
      refine ⟨first, rest ++ ((List.range n).map Nat.succ).flatMap leaves, depth + 1, ?_, ?_⟩
      · rw [hn, Nat.succ_eq_add_one, List.range_succ_eq_map, List.flatMap_cons, hfirst]
        rfl
      · intro fuel xd buffer hfuel hxd
        obtain ⟨fuel, rfl⟩ := Nat.exists_eq_succ_of_ne_zero (show fuel ≠ 0 by omega)
        obtain ⟨dtree, hread, hsame⟩ := m.xRead_dtpage b buffer
        obtain ⟨leaf, hleaf, hsameLeaf⟩ :=
          hdescend fuel _ dtree (by omega) (hsame.child htable hpos)
        refine ⟨leaf, ?_, hsameLeaf⟩
        simp [JfsReader.descendLeft, hxd, hread, hsame.isLeaf, hinternal, hleaf]

section Walk

variable {σ ρ : Type} {visit : Bytes → ℕ → σ → Option (σ ⊕ ρ)}
  {act : DirEntry → σ → Option (σ ⊕ ρ)}

def VisitActs (visit : Bytes → ℕ → σ → Option (σ ⊕ ρ))
    (act : DirEntry → σ → Option (σ ⊕ ρ)) : Prop :=
  ∀ slot count headIndex e s, count ≤ dtPageMaxSlot →
    HoldsEntry slot count headIndex e → visit slot headIndex s = act e s

theorem VisitActs.scan (hvisit : VisitActs visit act) {slot : Bytes} {count n : ℕ}
    {headIndex : ℕ → ℕ} {entries : List DirEntry} (hcount : count ≤ dtPageMaxSlot)
    (h : List.Forall₂ (HoldsEntry slot count) ((List.range n).map headIndex) entries) (s : σ) :
    StepMachine.scan (fun i => visit slot (headIndex i)) (List.range n) s =
      StepMachine.scan act entries s := by
  rw [List.forall₂_map_left_iff] at h
  exact scan_forall₂ (fun i e s hentry => hvisit slot count (headIndex i) e s hcount hentry) h s

theorem walkLeaves_eq (hvisit : VisitActs visit act) {leaves : List ℕ}
    {entries : List (List DirEntry)} (hlinked : LeavesLinked m leaves)
    (hlt : ∀ l ∈ leaves, l < 2 ^ 40)
    (hholds : List.Forall₂ (fun b es => (m.dtpage b).LeafHolds es) leaves entries)
    {first fuel : ℕ} {dtree : Bytes} (hfirst : leaves.head? = some first)
    (hsame : (DtPage.mk dtree).Same (m.dtpage first)) (hfuel : leaves.length ≤ fuel) (s : σ) :
    walkLeaves m visit fuel dtree s = StepMachine.scan act entries.flatten s := by
  induction hholds generalizing first fuel dtree s with
  | nil => simp at hfirst
  | @cons b es rest entries hes hrest ih =>
      obtain rfl : b = first := by simpa using hfirst
      rw [List.length_cons] at hfuel
      obtain ⟨fuel, rfl⟩ := Nat.exists_eq_succ_of_ne_zero (show fuel ≠ 0 by omega)
      rw [walkLeaves, hvisit.scan le_rfl (hsame.leafHolds hes), List.flatten_cons, scan_append]
      cases StepMachine.scan act es s with
      | none => rfl
      | some out =>
          cases out with
          | inr r => rfl
          | inl s =>
              cases rest with
              | nil =>
                  have hnext : (DtPage.mk dtree).next = 0 := hsame.next.trans hlinked
                  cases hrest
                  simp [hnext, StepMachine.scan]
              | cons b' rest =>
                  obtain ⟨⟨hlink, hne⟩, hlinked⟩ := hlinked
                  have hnext : (DtPage.mk dtree).next = b' := hsame.next.trans hlink
                  have haddress : b' <<< m.l2bsize < 2 ^ 64 := by
                    have hb := hlt b' (by simp)
                    have hpow : 2 ^ m.l2bsize ≤ 2 ^ 12 :=
                      Nat.pow_le_pow_right (by decide) m.l2bsize_le
                    rw [Nat.shiftLeft_eq]
                    calc
                      b' * 2 ^ m.l2bsize ≤ 2 ^ 40 * 2 ^ 12 := Nat.mul_le_mul hb.le hpow
                      _ < 2 ^ 64 := by norm_num
                  obtain ⟨dtree', hread, hsame'⟩ := m.xRead_dtpage b' dtree
                  simp only [hnext, ne_eq, hne, not_false_eq_true, if_true,
                    Nat.mod_eq_of_lt haddress, hread]
                  exact ih hlinked (fun l hl => hlt l (by simp [hl])) rfl hsame' (by omega) s

end Walk

theorem IsDirectory.walk {inum : ℕ} {entries : List DirEntry}
    (h : IsDirectory m inum entries) :
    ∃ n, dtPageMaxSlot < n ∧ ∀ fuel, n ≤ fuel →
      ∀ {σ ρ : Type} {visit : Bytes → ℕ → σ → Option (σ ⊕ ρ)}
        {act : DirEntry → σ → Option (σ ⊕ ρ)}, VisitActs visit act → ∀ s,
        walkDirectory m fuel inum visit s = scan act entries s := by
  obtain ⟨k, address, inode, hfind, hread, hmode, htree⟩ := h.delivered
  cases htree with
  | inline hleaf _ hholds =>
      refine ⟨max k (dtPageMaxSlot + 1), by omega, ?_⟩
      intro fuel hfuel σ ρ visit act hvisit s
      have hfound := findInode_of_le hfind (show k ≤ fuel by omega)
      unfold walkDirectory
      simp only [hfound, hread, hmode, ne_eq, not_true_eq_false, if_false, hleaf, if_true]
      split_ifs with hempty
      · unfold DtRoot.headIndices at hholds
        rw [hempty] at hholds
        cases hholds
        rfl
      · exact hvisit.scan (by decide) hholds s
  | @paged leaves entries hinternal _ hpos hsubtrees hlinked hholds =>
      obtain ⟨first, rest, depth, hfirst, hdescend⟩ := (hsubtrees 0 hpos).descendLeft
      refine ⟨max (max k (dtPageMaxSlot + 1)) (max depth
        ((List.range (DtRoot.nextindex ⟨(Dinode.mk inode).diBtroot⟩)).flatMap leaves).length),
        by omega, ?_⟩
      intro fuel hfuel σ ρ visit act hvisit s
      have hfound := findInode_of_le hfind (show k ≤ fuel by omega)
      obtain ⟨dtree, hleaf, hsame⟩ := hdescend fuel _ (m.stack .dtree) (by omega) rfl
      unfold walkDirectory
      simp only [hfound, hread, hmode, ne_eq, not_true_eq_false, if_false, hinternal,
        Bool.false_eq_true, hleaf]
      apply walkLeaves_eq hvisit hlinked _ hholds _ hsame (by omega)
      · intro l hl
        obtain ⟨i, hi, hmem⟩ := List.mem_flatMap.mp hl
        exact (hsubtrees i (List.mem_range.mp hi)).leaves_lt (addressPXD_lt _) l hmem
      · obtain ⟨n, hn⟩ := Nat.exists_eq_succ_of_ne_zero (Nat.ne_of_gt hpos)
        rw [hn, Nat.succ_eq_add_one, List.range_succ_eq_map, List.flatMap_cons, hfirst]
        rfl

theorem IsDirectory.storable {inum : ℕ} {entries : List DirEntry}
    (h : IsDirectory m inum entries) {e : DirEntry} (he : e ∈ entries) : e.Storable := by
  have hmem : ∀ {slot count indices es}, List.Forall₂ (HoldsEntry slot count) indices es →
      e ∈ es → e.Storable := by
    intro slot count indices es hholds he
    obtain ⟨i, hi, rfl⟩ := List.getElem_of_mem he
    exact (hholds.get (by rwa [hholds.length_eq]) hi).storable
  obtain ⟨_, _, _, _, _, _, htree⟩ := h.delivered
  cases htree with
  | inline _ _ hholds => exact hmem hholds he
  | paged _ _ _ _ _ hholds =>
      obtain ⟨es, hes, he⟩ := List.mem_flatten.mp he
      obtain ⟨i, hi, rfl⟩ := List.getElem_of_mem hes
      exact hmem (hholds.get (by rwa [hholds.length_eq]) hi).holds he

def Mount.inodeAt (m : Mount) (address : ℕ) : Dinode :=
  ⟨(m.xRead address sizeofDinode (m.stack .inode)).getD (m.stack .inode)⟩

theorem DtTree.of_oneLeaf {r : DtRoot} {b : ℕ} {entries : List DirEntry}
    (hflag : r.isLeaf = false) (htable : r.TableOk) (hcount : r.nextindex = 1)
    (hchild : r.child 0 = b) (hleaf : (m.dtpage b).isLeaf = true) (hnext : (m.dtpage b).next = 0)
    (hholds : (m.dtpage b).LeafHolds entries) : DtTree m r entries := by
  have htree : DtTree m r [entries].flatten := by
    apply @DtTree.paged _ _ fun _ => [b]
    · exact hflag
    · exact htable
    · omega
    · rw [hcount]
      intro i hi
      obtain rfl : i = 0 := by omega
      rw [hchild]
      exact .leaf hleaf
    · rw [hcount]
      exact hnext
    · rw [hcount]
      exact .cons hholds .nil
  rwa [List.flatten_singleton] at htree

theorem IsDirectory.of_inodeAt (hmem : m.HasMemory) {fuel inum address : ℕ}
    {entries : List DirEntry}
    (hfind : findInode m fuel (inum % 2 ^ 32) filesystemI = some (some address))
    (hmode : (m.inodeAt address).diMode &&& ifmt = ifdir)
    (htree : DtTree m ⟨(m.inodeAt address).diBtroot⟩ entries) : IsDirectory m inum entries := by
  obtain ⟨inode, hread, -⟩ := m.xRead_delivers hmem address sizeofDinode (by decide)
    (m.stack .inode)
  have hinode : m.inodeAt address = ⟨inode⟩ := by
    unfold Mount.inodeAt
    rw [hread]
    rfl
  rw [hinode] at hmode htree
  exact ⟨fuel, address, inode, hfind, hread, hmode, htree⟩

end JfsReader
