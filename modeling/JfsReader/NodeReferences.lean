import JfsReader.NodeCache

/-!
# Reference counts of cached nodes

A miss of `diskfs_cached_lookup` keeps the reference `diskfs_make_node` gave its
node and takes another one for the caller, who knows of one handle only.  Every
node in the table therefore carries one reference too many, none is ever
removed, and the counts are those of the handles only as long as there is no
node at all.
-/

namespace JfsReader

/-- Giving a handle back, as libdiskfs does it. -/
def releaseHandle (np : NodeId) (c : NodeCache) : Option NodeCache :=
  let references := (c.node np).references - 1
  let c := c.setReferences np references
  if references = 0 then diskfsNodeNorefs np c else some c

def liveAfterRelease (np : NodeId) (c : NodeCache) (live : Finset NodeId) : Finset NodeId :=
  if (c.node np).references - 1 = 0 then live.erase np else live

/-- The states that successful lookups and releases of their handles reach: the
cache, the nodes in the table, the handles not yet released, and the number of
lookups so far. -/
inductive HandleRun : NodeCache → Finset NodeId → (NodeId → ℕ) → ℕ → Prop
  | init (c : NodeCache) : HandleRun (inodeInit c) ∅ (fun _ => 0) 0
  | lookup {c : NodeCache} {live : Finset NodeId} {handles : NodeId → ℕ} {lookups : ℕ}
      {fuel inum : ℕ} {env : LookupEnv} {out : LookupEnd} {np : NodeId} :
      HandleRun c live handles lookups → (∀ np, env.makeNode = some np → np ∉ live) →
      diskfsCachedLookup fuel inum env c = some out → out.err = .success →
      out.npp = some np →
      HandleRun out.cache (out.liveAfter live)
        (Function.update handles np (handles np + 1)) (lookups + 1)
  | release {c c' : NodeCache} {live : Finset NodeId} {handles : NodeId → ℕ} {lookups : ℕ}
      {np : NodeId} : HandleRun c live handles lookups → 0 < handles np →
      releaseHandle np c = some c' →
      HandleRun c' (liveAfterRelease np c live)
        (Function.update handles np (handles np - 1)) lookups

structure HandlesOk (c : NodeCache) (rows : Fin inohsz → List NodeId) (live : Finset NodeId)
    (handles : NodeId → ℕ) : Prop where
  table : TableOk c rows live
  references : ∀ np ∈ live, (c.node np).references = handles np + 1
  none_left : ∀ np, np ∉ live → handles np = 0

variable {c : NodeCache} {rows : Fin inohsz → List NodeId} {live : Finset NodeId}
  {handles : NodeId → ℕ} {lookups inum : ℕ} {env : LookupEnv} {np : NodeId}

theorem setReferences_references_self (n : ℕ) :
    ((c.setReferences np n).node np).references = n := by
  simp [NodeCache.setReferences, NodeCache.setNode]

theorem setReferences_references_of_ne {np' : NodeId} (hne : np' ≠ np) (n : ℕ) :
    ((c.setReferences np n).node np').references = (c.node np').references := by
  simp [NodeCache.setReferences, NodeCache.setNode, hne]

theorem fillStat_references (r : Except ℕ Dinode) (np' : NodeId) :
    ((c.fillStat np r).node np').references = (c.node np').references :=
  fillStat_keeps Node.references (fun _ _ => rfl) r np'

theorem HandlesOk.setReferences (h : HandlesOk c rows live handles) (hnp : np ∈ live)
    {n k : ℕ} (hcount : n = k + 1) :
    HandlesOk (c.setReferences np n) rows live (Function.update handles np k) := by
  refine ⟨h.table.setReferences np n, ?_, ?_⟩
  · intro np' hnp'
    by_cases heq : np' = np
    · subst heq
      rw [setReferences_references_self, Function.update_self, hcount]
    · rw [setReferences_references_of_ne heq, Function.update_of_ne heq]
      exact h.references np' hnp'
  · intro np' hnp'
    have hne : np' ≠ np := fun heq => hnp' (heq ▸ hnp)
    rw [Function.update_of_ne hne]
    exact h.none_left np' hnp'

theorem HandlesOk.miss (h : HandlesOk c rows live handles) (hfresh : np ∉ live)
    (hnone : ∀ np ∈ live, (c.node np).cacheId ≠ inum) (r : Except ℕ Dinode) :
    HandlesOk (((c.insertNode inum np).fillStat np r).addReference np)
      (Function.update rows (inohash inum) (np :: rows (inohash inum))) (insert np live)
      (Function.update handles np (handles np + 1)) := by
  refine ⟨((h.table.insertNode hfresh hnone).fillStat np r).setReferences np _, ?_, ?_⟩
  · intro np' hnp'
    unfold NodeCache.addReference
    by_cases heq : np' = np
    · subst heq
      rw [setReferences_references_self, fillStat_references, insertNode_node_self,
        Function.update_self, h.none_left np' hfresh]
    · rw [setReferences_references_of_ne heq, fillStat_references, insertNode_node_of_ne heq,
        Function.update_of_ne heq]
      exact h.references np' (Finset.mem_of_mem_insert_of_ne hnp' heq)
  · intro np' hnp'
    rw [Finset.mem_insert, not_or] at hnp'
    rw [Function.update_of_ne hnp'.1]
    exact h.none_left np' hnp'.2

theorem HandlesOk.release (h : HandlesOk c rows live handles) (hheld : 0 < handles np) :
    np ∈ live ∧ liveAfterRelease np c live = live ∧
      ∃ c', releaseHandle np c = some c' ∧
        HandlesOk c' rows live (Function.update handles np (handles np - 1)) := by
  have hnp : np ∈ live := by
    by_contra hnot
    rw [h.none_left np hnot] at hheld
    exact lt_irrefl 0 hheld
  have hcount := h.references np hnp
  have hne : (c.node np).references - 1 ≠ 0 := by omega
  exact ⟨hnp, if_neg hne, _, if_neg hne, h.setReferences hnp (by omega)⟩

theorem HandleRun.handlesOk (h : HandleRun c live handles lookups) :
    (∃ rows, HandlesOk c rows live handles) ∧ (live = ∅ ↔ lookups = 0) := by
  induction h with
  | init c => exact ⟨⟨_, .init c, by simp, by simp⟩, by simp⟩
  | @lookup c live handles lookups fuel inum env out np _ hfresh hout herr hnpp ih =>
      obtain ⟨⟨rows, hok⟩, -⟩ := ih
      obtain ⟨r, hr⟩ := TableOk.exists_has c live inum
      obtain rfl := hok.table.lookup_eq hr hout
      cases r with
      | some np' =>
          obtain rfl : np' = np := by simpa [lookupEnd] using hnpp
          have hcount := hok.references np' hr.1
          refine ⟨⟨rows, hok.setReferences hr.1 (by omega)⟩, ?_⟩
          have hne : live ≠ ∅ := Finset.ne_empty_of_mem hr.1
          simpa [lookupEnd, LookupEnd.liveAfter] using hne
      | none =>
          unfold lookupEnd missEnd at herr hnpp ⊢
          cases hmalloc : env.malloc with
          | false => simp [hmalloc] at herr
          | true =>
              cases hmake : env.makeNode with
              | none => simp [hmalloc, hmake] at herr
              | some np' =>
                  obtain rfl : np' = np := by simpa [hmalloc, hmake] using hnpp
                  refine ⟨⟨_, hok.miss (hfresh np' hmake) hr env.readNode⟩, ?_⟩
                  simp [LookupEnd.liveAfter]
  | @release c c' live handles lookups np _ hheld hrelease ih =>
      obtain ⟨⟨rows, hok⟩, hempty⟩ := ih
      obtain ⟨-, hlive, c'', heq, hok'⟩ := hok.release hheld
      obtain rfl := Option.some.inj (heq.symm.trans hrelease)
      rw [hlive]
      exact ⟨⟨rows, hok'⟩, hempty⟩

/-- The counts in every state of every run: one reference too many for every
node, so that they are the handles' as long as no lookup has succeeded and no
longer. -/
theorem references_exact_iff (h : HandleRun c live handles lookups) :
    (∀ np ∈ live, (c.node np).references = handles np + 1) ∧
      (((∀ np ∈ live, (c.node np).references = handles np) ∧
        ∀ np, handles np = 0 → np ∉ live) ↔ lookups = 0) := by
  obtain ⟨⟨rows, hok⟩, hempty⟩ := h.handlesOk
  refine ⟨hok.references, ?_⟩
  rw [← hempty]
  constructor
  · rintro ⟨hexact, -⟩
    apply Finset.eq_empty_of_forall_notMem
    intro np hnp
    have hone := hok.references np hnp
    have hzero := hexact np hnp
    omega
  · rintro rfl
    simp

theorem references_exact_oneLookup :
    ∃ c live handles, HandleRun c live handles 1 ∧
      (∀ np ∈ live, (c.node np).references = handles np + 1) ∧
      ¬ ((∀ np ∈ live, (c.node np).references = handles np) ∧
        ∀ np, handles np = 0 → np ∉ live) := by
  have hlookup := @HandleRun.lookup _ _ _ _ 1 5 (goodEnv 1) _ 1 (HandleRun.init blankCache)
    (by simp) rfl rfl rfl
  obtain ⟨hone, hiff⟩ := references_exact_iff hlookup
  exact ⟨_, _, _, hlookup, hone, fun hexact => absurd (hiff.mp hexact) (by decide)⟩

/-- One lookup of inode 5, whose handle is given back: the node stays in the
table with a reference that nobody holds. -/
theorem released_node_stays :
    ∃ c live handles, HandleRun c live handles 1 ∧ 1 ∈ live ∧ handles 1 = 0 ∧
      (c.node 1).references = 1 := by
  have hlookup := @HandleRun.lookup _ _ _ _ 1 5 (goodEnv 1) _ 1 (HandleRun.init blankCache)
    (by simp) rfl rfl rfl
  have hrelease := @HandleRun.release _ _ _ _ _ 1 hlookup (by decide) rfl
  exact ⟨_, _, _, hrelease, by decide, by decide, rfl⟩

end JfsReader
