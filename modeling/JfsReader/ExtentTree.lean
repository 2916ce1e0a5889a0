import JfsReader.BlockRead
import JfsReader.HalvingSearch

/-!
# Well-formed extent trees

A page is searched by the ranges of its entries, in leaf pages the blocks an
extent maps and in internal pages only the first blocks of a child's key
range.  `XtSubtree` is the tree rooted at a page of the given capacity, and
`LeafExtent` collects what its leaves map.  The routing lemmas say which entry
a finished page search has to follow; they are shared by the two searches of
the translator.
-/

namespace JfsReader

open StepMachine HalvingSearch

def Xad.Covers (x : Xad) (k : ℤ) : Prop :=
  (offsetXAD x : ℤ) ≤ k ∧ k < offsetXAD x + lengthXAD x

def Mount.childPage (m : Mount) (p : XtPage) (i : ℤ) : XtPage :=
  ⟨m.block (addressXAD (p.xad i))⟩

theorem XtPage.Same.childPage {p q : XtPage} {capacity i : ℤ} (h : p.Same capacity q) (m : Mount)
    (hlo : 0 ≤ i) (hhi : i < capacity) : m.childPage p i = m.childPage q i := by
  unfold Mount.childPage
  rw [h.xad hlo hhi]

inductive LeafExtent (m : Mount) : XtPage → Xad → Prop
  | leaf {p : XtPage} {i : ℤ} (hleaf : p.isLeaf = true)
      (hlo : xtEntryStart ≤ i) (hhi : i < p.nextindex) :
      LeafExtent m p (p.xad i)
  | child {p : XtPage} {i : ℤ} {e : Xad} (hleaf : p.isLeaf = false)
      (hlo : xtEntryStart ≤ i) (hhi : i < p.nextindex)
      (hchild : LeafExtent m (m.childPage p i) e) :
      LeafExtent m p e

structure XtPage.Sorted (p : XtPage) (capacity : ℤ) : Prop where
  nextindex_ge : xtEntryStart ≤ p.nextindex
  nextindex_le : p.nextindex ≤ capacity
  increasing : ∀ i j, xtEntryStart ≤ i → i < j → j < p.nextindex →
    offsetXAD (p.xad i) + lengthXAD (p.xad i) ≤ offsetXAD (p.xad j)

structure ChildLink (m : Mount) (p : XtPage) (i : ℤ) : Prop where
  nonempty : xtEntryStart < (m.childPage p i).nextindex
  first : (m.childPage p i).isInternal = true →
    offsetXAD ((m.childPage p i).xad xtEntryStart) = offsetXAD (p.xad i)
  keys : ∀ e k, LeafExtent m (m.childPage p i) e → e.Covers k →
    (offsetXAD (p.xad i) : ℤ) ≤ k ∧
      (i + 1 < p.nextindex → k < offsetXAD (p.xad (i + 1)))

inductive XtSubtree (m : Mount) : ℤ → XtPage → Prop
  | leaf {capacity : ℤ} {p : XtPage}
      (hleaf : p.isLeaf = true) (hinternal : p.isInternal = false)
      (hsorted : p.Sorted capacity) :
      XtSubtree m capacity p
  | internal {capacity : ℤ} {p : XtPage}
      (hleaf : p.isLeaf = false) (hinternal : p.isInternal = true)
      (hsorted : p.Sorted capacity)
      (hlinks : ∀ i, xtEntryStart ≤ i → i < p.nextindex → ChildLink m p i)
      (hchildren : ∀ i, xtEntryStart ≤ i → i < p.nextindex →
        XtSubtree m xtPageMaxSlot (m.childPage p i)) :
      XtSubtree m capacity p

/-- An internal page the search for `k` can pass through: it has a first
entry, and that entry is not beyond `k`. -/
def XtPage.Admits (p : XtPage) (k : ℤ) : Prop :=
  p.isInternal = true →
    xtEntryStart < p.nextindex ∧ (offsetXAD (p.xad xtEntryStart) : ℤ) ≤ k

structure XtTree (m : Mount) (root : XtPage) : Prop where
  subtree : XtSubtree m xtRootMaxSlot root
  first : root.isInternal = true →
    xtEntryStart < root.nextindex ∧ offsetXAD (root.xad xtEntryStart) = 0

theorem XtTree.admits {m : Mount} {root : XtPage} (htree : XtTree m root)
    {k : ℤ} (hk : 0 ≤ k) : root.Admits k := by
  intro hinternal
  obtain ⟨hnonempty, hfirst⟩ := htree.first hinternal
  exact ⟨hnonempty, by rw [hfirst]; exact hk⟩

/-! ## Searching the entries of one page -/

theorem XtPage.Sorted.ordered {p : XtPage} {capacity : ℤ}
    (hsorted : p.Sorted capacity) (k : ℤ) :
    Ordered (fun i => xtCmp k (p.xad i)) xtEntryStart p.nextindex := by
  intro i j hlo hij hhi hle
  dsimp only at hle ⊢
  have hinc := hsorted.increasing i j hlo hij hhi
  have hpos := xtCmp_pos_iff k (p.xad i)
  have hneg := xtCmp_neg_iff k (p.xad j)
  omega

theorem XtPage.Sorted.covers_unique {p : XtPage} {capacity : ℤ}
    (hsorted : p.Sorted capacity) {i j k : ℤ}
    (hilo : xtEntryStart ≤ i) (hihi : i < p.nextindex)
    (hjlo : xtEntryStart ≤ j) (hjhi : j < p.nextindex)
    (hi : (p.xad i).Covers k) (hj : (p.xad j).Covers k) : i = j := by
  obtain ⟨hi₁, hi₂⟩ := hi
  obtain ⟨hj₁, hj₂⟩ := hj
  rcases lt_trichotomy i j with hlt | heq | hgt
  · have := hsorted.increasing i j hilo hlt hjhi
    omega
  · exact heq
  · have := hsorted.increasing j i hjlo hgt hihi
    omega

def routeIndex : Outcome → ℤ
  | .hit index => index
  | .miss base _ => if base ≠ 0 then base - 1 else base

theorem routeIndex_brackets {p : XtPage} {capacity k : ℤ}
    (hsorted : p.Sorted capacity) (hinternal : p.isInternal = true)
    (hadmits : p.Admits k) {out : Outcome}
    (hout : out.Correct (fun i => xtCmp k (p.xad i)) xtEntryStart p.nextindex) :
    xtEntryStart ≤ routeIndex out ∧ routeIndex out < p.nextindex ∧
      (offsetXAD (p.xad (routeIndex out)) : ℤ) ≤ k ∧
      (routeIndex out + 1 < p.nextindex →
        k < offsetXAD (p.xad (routeIndex out + 1))) := by
  obtain ⟨hnonempty, hfirst⟩ := hadmits hinternal
  cases out with
  | hit index =>
      obtain ⟨hlo, hhi, hzero⟩ := hout
      have hcovers := (xtCmp_eq_zero_iff k (p.xad index)).mp hzero
      refine ⟨hlo, hhi, hcovers.1, ?_⟩
      intro hnext
      change index + 1 < p.nextindex at hnext
      have hinc := hsorted.increasing index (index + 1) hlo (by omega) hnext
      change k < (offsetXAD (p.xad (index + 1)) : ℤ)
      omega
  | miss base cmp =>
      obtain ⟨hlo, hhi, hbelow, habove, -⟩ := hout
      have hstart : xtEntryStart = 2 := rfl
      -- the first entry is not beyond the key, so `base` has moved past it
      have hbase : xtEntryStart < base := by
        by_contra hnot
        have hneg := habove xtEntryStart (by omega) hnonempty
        have := (xtCmp_neg_iff k _).mp hneg
        omega
      have hroute : routeIndex (.miss base cmp) = base - 1 := by
        simp only [routeIndex]
        rw [if_pos (by omega)]
      rw [hroute]
      have hpos := (xtCmp_pos_iff k _).mp (hbelow (base - 1) (by omega) (by omega))
      refine ⟨by omega, by omega, by omega, ?_⟩
      intro hnext
      rw [show base - 1 + 1 = base by omega] at hnext ⊢
      exact (xtCmp_neg_iff k _).mp (habove base le_rfl hnext)

theorem LeafExtent.below_routeIndex {m : Mount} {p : XtPage} {capacity k : ℤ}
    (hleaf : p.isLeaf = false) (hsorted : p.Sorted capacity)
    (hlinks : ∀ i, xtEntryStart ≤ i → i < p.nextindex → ChildLink m p i)
    {index : ℤ} (hlo : xtEntryStart ≤ index) (hhi : index < p.nextindex)
    (hoff : (offsetXAD (p.xad index) : ℤ) ≤ k)
    (hnext : index + 1 < p.nextindex → k < offsetXAD (p.xad (index + 1)))
    {e : Xad} (he : LeafExtent m p e) (hcovers : e.Covers k) :
    LeafExtent m (m.childPage p index) e := by
  cases he with
  | leaf hleaf' hlo' hhi' => simp [hleaf] at hleaf'
  | @child _ i _ hleaf' hlo' hhi' hchild =>
      have hkeys := (hlinks i hlo' hhi').keys e k hchild hcovers
      rcases lt_trichotomy i index with hlt | heq | hgt
      · have hupper := hkeys.2 (by omega)
        rcases Int.lt_or_eq_of_le (show i + 1 ≤ index by omega) with hlt' | heq'
        · have hinc := hsorted.increasing (i + 1) index (by omega) hlt' hhi
          omega
        · rw [heq'] at hupper
          omega
      · rw [← heq]
        exact hchild
      · have hupper := hnext (by omega)
        rcases Int.lt_or_eq_of_le (show index + 1 ≤ i by omega) with hlt' | heq'
        · have hinc := hsorted.increasing (index + 1) i (by omega) hlt' hhi'
          omega
        · rw [heq'] at hupper
          omega

theorem ChildLink.admits {m : Mount} {p : XtPage} {i k : ℤ}
    (hlink : ChildLink m p i) (hoff : (offsetXAD (p.xad i) : ℤ) ≤ k) :
    (m.childPage p i).Admits k := by
  intro hinternal
  exact ⟨hlink.nonempty, by rw [hlink.first hinternal]; exact hoff⟩

theorem XtSubtree.covers_unique {m : Mount} {capacity : ℤ} {p : XtPage}
    (htree : XtSubtree m capacity p) {e e' : Xad} {k : ℤ}
    (he : LeafExtent m p e) (he' : LeafExtent m p e')
    (hcovers : e.Covers k) (hcovers' : e'.Covers k) : e = e' := by
  induction htree with
  | @leaf capacity p hleaf hinternal hsorted =>
      cases he with
      | child hleaf' => simp [hleaf] at hleaf'
      | leaf _ hlo hhi =>
          cases he' with
          | child hleaf' => simp [hleaf] at hleaf'
          | leaf _ hlo' hhi' =>
              rw [hsorted.covers_unique hlo hhi hlo' hhi' hcovers hcovers']
  | @internal capacity p hleaf hinternal hsorted hlinks hchildren ih =>
      cases he with
      | leaf hleaf' => simp [hleaf] at hleaf'
      | @child _ i _ _ hlo hhi hchild =>
          have hkeys := (hlinks i hlo hhi).keys e k hchild hcovers
          exact ih i hlo hhi hchild
            (he'.below_routeIndex hleaf hsorted hlinks hlo hhi hkeys.1 hkeys.2 hcovers')

/-! ## Searching the tree -/

theorem XtPage.Sorted.capacity_ge {p : XtPage} {capacity : ℤ}
    (hsorted : p.Sorted capacity) : xtEntryStart ≤ capacity :=
  hsorted.nextindex_ge.trans hsorted.nextindex_le

theorem XtPage.Sorted.of_same {p q : XtPage} {capacity : ℤ}
    (hsorted : p.Sorted capacity) (hsame : q.Same capacity p) :
    q.Sorted capacity := by
  have hle := hsorted.nextindex_le
  have hnext := hsame.nextindex hsorted.capacity_ge
  constructor
  · rw [hnext]
    exact hsorted.nextindex_ge
  · rw [hnext]
    exact hle
  · intro i j hlo hij hhi
    rw [hnext] at hhi
    rw [hsame.entry hle hlo (hij.trans hhi), hsame.entry hle (hlo.trans hij.le) hhi]
    exact hsorted.increasing i j hlo hij hhi

theorem XtPage.Sorted.search {p q : XtPage} {capacity : ℤ}
    (hsorted : p.Sorted capacity) (hsame : q.Same capacity p) (k cmp : ℤ)
    (hcmp : cmp ≠ 0 ∨ xtEntryStart < p.nextindex) :
    ∃ n out, run (HalvingSearch.step (fun i => xtCmp k (q.xad i))) n
        ⟨xtEntryStart, p.nextindex - xtEntryStart, cmp⟩ = .inr out ∧
      out.Correct (fun i => xtCmp k (p.xad i)) xtEntryStart p.nextindex := by
  have hordered := (hsorted.of_same hsame).ordered k
  rw [hsame.nextindex hsorted.capacity_ge] at hordered
  obtain ⟨n, out, hrun, hout⟩ := search_correct hordered hsorted.nextindex_ge cmp hcmp
  refine ⟨n, out, hrun, hout.congr ?_⟩
  intro i hlo hhi
  rw [hsame.entry hsorted.nextindex_le hlo hhi]

theorem XtPage.Same.childPage_routeIndex {p q : XtPage} {capacity k : ℤ}
    (hsame : q.Same capacity p) (hsorted : p.Sorted capacity) (hinternal : p.isInternal = true)
    (hadmits : p.Admits k) {out : Outcome}
    (hout : out.Correct (fun i => xtCmp k (p.xad i)) xtEntryStart p.nextindex) (m : Mount) :
    m.childPage q (routeIndex out) = m.childPage p (routeIndex out) := by
  obtain ⟨hlo, hhi, -, -⟩ := routeIndex_brackets hsorted hinternal hadmits hout
  have hle := hsorted.nextindex_le
  have hstart : xtEntryStart = 2 := rfl
  exact hsame.childPage m (by omega) (by omega)

/-- The answer the leaves below `p` call for: `hit e` where the extent `e`
maps the key, `miss` where none does. -/
def TreeAnswer {ρ : Type} (m : Mount) (k : ℤ) (hit : Xad → ρ → Prop)
    (miss : ρ → Prop) (p : XtPage) (r : ρ) : Prop :=
  (∃ e, LeafExtent m p e ∧ e.Covers k ∧ hit e r) ∨
    ((∀ e, LeafExtent m p e → ¬ e.Covers k) ∧ miss r)

theorem TreeAnswer.of_leaf {ρ : Type} {m : Mount} {k : ℤ} {hit : Xad → ρ → Prop}
    {miss : ρ → Prop} {p : XtPage} (hleaf : p.isLeaf = true) {out : Outcome}
    (hout : out.Correct (fun i => xtCmp k (p.xad i)) xtEntryStart p.nextindex)
    {r : ρ} (hhit : ∀ index, out = .hit index → hit (p.xad index) r)
    (hmiss : ∀ base cmp, out = .miss base cmp → miss r) :
    TreeAnswer m k hit miss p r := by
  cases out with
  | hit index =>
      obtain ⟨hlo, hhi, hzero⟩ := hout
      exact .inl ⟨p.xad index, .leaf hleaf hlo hhi,
        (xtCmp_eq_zero_iff k (p.xad index)).mp hzero, hhit index rfl⟩
  | miss base cmp =>
      obtain ⟨hlo, hhi, hbelow, habove, hcmp⟩ := hout
      refine .inr ⟨?_, hmiss base cmp rfl⟩
      intro e he hcovers
      cases he with
      | child hleaf' => simp [hleaf] at hleaf'
      | @leaf _ i _ hlo' hhi' =>
          have hzero := (xtCmp_eq_zero_iff k (p.xad i)).mpr hcovers
          rcases lt_or_ge i base with hlt | hge
          · exact (hbelow i hlo' hlt).ne' hzero
          · exact (habove i hge hhi').ne hzero

/-- The answer of the child below which the key can be mapped is the one of the
page. -/
theorem TreeAnswer.of_child {ρ : Type} {m : Mount} {k index capacity : ℤ} {hit : Xad → ρ → Prop}
    {miss : ρ → Prop} {p : XtPage} {r : ρ} (hleaf : p.isLeaf = false) (hsorted : p.Sorted capacity)
    (hlinks : ∀ i, xtEntryStart ≤ i → i < p.nextindex → ChildLink m p i)
    (hlo : xtEntryStart ≤ index) (hhi : index < p.nextindex)
    (hoff : (offsetXAD (p.xad index) : ℤ) ≤ k)
    (hnext : index + 1 < p.nextindex → k < offsetXAD (p.xad (index + 1)))
    (hanswer : TreeAnswer m k hit miss (m.childPage p index) r) : TreeAnswer m k hit miss p r := by
  rcases hanswer with ⟨e, he, hrest⟩ | ⟨hnone, hmiss⟩
  · exact .inl ⟨e, .child hleaf hlo hhi he, hrest⟩
  · refine .inr ⟨?_, hmiss⟩
    intro e he hcovers
    exact hnone e (he.below_routeIndex hleaf hsorted hlinks hlo hhi hoff hnext hcovers) hcovers

/-- The search rule.  `At capacity s p` says that the machine is in state `s`
about to search the page `p`.  If it answers on leaf pages and reaches the
followed child on internal ones, it answers on whole trees. -/
theorem XtSubtree.search_rule {σ ρ : Type} {step : σ → σ ⊕ ρ} {m : Mount} {k : ℤ}
    {At : ℤ → σ → XtPage → Prop} {hit : Xad → ρ → Prop} {miss : ρ → Prop}
    (hleafPage : ∀ capacity s p, At capacity s p → p.isLeaf = true →
      p.isInternal = false → p.Sorted capacity →
      ∃ r, Returns step s r ∧ TreeAnswer m k hit miss p r)
    (hinternalPage : ∀ capacity s p, At capacity s p → p.isLeaf = false →
      p.isInternal = true → p.Sorted capacity → p.Admits k →
      ∃ n s' out, run step n s = .inl s' ∧
        out.Correct (fun i => xtCmp k (p.xad i)) xtEntryStart p.nextindex ∧
        (xtEntryStart < (m.childPage p (routeIndex out)).nextindex →
          At xtPageMaxSlot s' (m.childPage p (routeIndex out))))
    {capacity : ℤ} {p : XtPage} (htree : XtSubtree m capacity p)
    (hadmits : p.Admits k) {s : σ} (hat : At capacity s p) :
    ∃ r, Returns step s r ∧ TreeAnswer m k hit miss p r := by
  induction htree generalizing s with
  | @leaf capacity p hleaf hinternal hsorted =>
      exact hleafPage capacity s p hat hleaf hinternal hsorted
  | @internal capacity p hleaf hinternal hsorted hlinks hchildren ih =>
      obtain ⟨n, s', out, hrun, hout, hatChild⟩ :=
        hinternalPage capacity s p hat hleaf hinternal hsorted hadmits
      obtain ⟨hlo, hhi, hoff, hnext⟩ :=
        routeIndex_brackets hsorted hinternal hadmits hout
      have hlink := hlinks (routeIndex out) hlo hhi
      obtain ⟨r, hreturns, hanswer⟩ :=
        ih (routeIndex out) hlo hhi (hlink.admits hoff) (hatChild hlink.nonempty)
      exact ⟨r, Returns.of_run hrun hreturns,
        hanswer.of_child hleaf hsorted hlinks hlo hhi hoff hnext⟩

end JfsReader
