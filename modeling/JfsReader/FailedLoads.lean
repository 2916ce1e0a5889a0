import JfsReader.ReadNode
import JfsReader.DirectoryListing

/-!
# Lookups whose inode cannot be read

A miss puts its node into the table before `read_node` fills it, and leaves it
there when that fails.  The next lookup of the same inode finds it and returns
it as if it were filled.  Runs in which every node that is made is also filled
are the ones in which this does not happen.
-/

namespace JfsReader

/-- A lookup that finds its node, makes none, or fills the one it makes. -/
def LoadSucceeds (m : Mount) (c : NodeCache) (live : Finset NodeId) (inum : ℕ)
    (env : LibdiskfsEnv) : Prop :=
  (∃ np ∈ live, (c.node np).cacheId = inum) ∨ env.malloc = false ∨ env.makeNode = none ∨
    ((∃ di, ReadsInode m inum di) ∧ env.catchException = 0)

/-- The states that lookups on one disk reach when the condition holds of all of
them. -/
inductive DiskRun (m : Mount)
    (Meets : NodeCache → Finset NodeId → ℕ → LibdiskfsEnv → Prop) :
    NodeCache → Finset NodeId → Prop
  | init (c : NodeCache) : DiskRun m Meets (inodeInit c) ∅
  | lookup {c : NodeCache} {live : Finset NodeId} {fuel inum : ℕ} {env : LibdiskfsEnv}
      {out : LookupEnd} : DiskRun m Meets c live →
      (∀ np, env.makeNode = some np → np ∉ live) → Meets c live inum env →
      diskLookup m fuel inum env c = some out →
      DiskRun m Meets out.cache (out.liveAfter live)
  | norefs {c c' : NodeCache} {live : Finset NodeId} {np : NodeId} : DiskRun m Meets c live →
      np ∈ live → diskfsNodeNorefs np c = some c' → DiskRun m Meets c' (live.erase np)

/-- Every node in the table is filled from the disk. -/
def AllFilled (m : Mount) (c : NodeCache) (live : Finset NodeId) : Prop :=
  ∀ np ∈ live, ∃ di, ReadsInode m (c.node np).cacheId di ∧ (c.node np).dnStat = some di

variable {m : Mount} {c : NodeCache} {rows : Fin inohsz → List NodeId} {live : Finset NodeId}
  {fuel inum : ℕ} {env : LibdiskfsEnv} {out : LookupEnd} {np : NodeId} {di : Dinode}

theorem AllFilled.addReference (h : AllFilled m c live) (np : NodeId) :
    AllFilled m (c.addReference np) live := by
  intro np' hnp'
  rw [addReference_cacheId, addReference_dnStat]
  exact h np' hnp'

theorem AllFilled.insertNode (h : AllFilled m c live) (hfresh : np ∉ live)
    (hread : ReadsInode m inum di) :
    AllFilled m ((c.insertNode inum np).fillStat np (.ok di)) (insert np live) := by
  intro np' hnp'
  rcases Finset.mem_insert.mp hnp' with rfl | hold
  · refine ⟨di, ?_, fillStat_ok_self⟩
    rw [fillStat_cacheId, insertNode_node_self]
    exact hread
  · have hne : np' ≠ np := fun heq => hfresh (heq ▸ hold)
    rw [fillStat_node_of_ne hne, insertNode_node_of_ne hne]
    exact h np' hold

theorem AllFilled.not_mem_of_unreadable (h : AllFilled m c live) (hinum : Unreadable m inum) :
    ∀ np ∈ live, (c.node np).cacheId ≠ inum := by
  rintro np hnp rfl
  obtain ⟨di, hread, -⟩ := h np hnp
  exact hinum.not_readsInode hread

theorem diskfsNodeNorefs_node {c' : NodeCache} (h : diskfsNodeNorefs np c = some c') :
    c'.node = c.node := by
  unfold diskfsNodeNorefs at h
  dsimp only at h
  split at h
  · rw [← Option.some.inj h]
  · cases h

/-! ## Runs -/

theorem DiskRun.filled (h : DiskRun m (LoadSucceeds m) c live) :
    (∃ rows, TableOk c rows live) ∧ AllFilled m c live := by
  induction h with
  | init c => exact ⟨⟨_, .init c⟩, by simp [AllFilled]⟩
  | @lookup c live fuel inum env out _ hfresh hmeets hout ih =>
      obtain ⟨⟨rows, hok⟩, hfilled⟩ := ih
      rcases hok.diskLookup_cases hout with ⟨np, -, -, rfl⟩ | ⟨-, -, rfl⟩ |
        ⟨np, found, hnone, hmalloc, hmake, hread, rfl⟩
      · exact ⟨⟨rows, hok.setReferences np _⟩, hfilled.addReference np⟩
      · exact ⟨⟨rows, hok⟩, hfilled⟩
      · have hnew := hok.insertNode (hfresh np hmake) hnone
        rcases hmeets with ⟨np', hnp', hid⟩ | hfail | hfail | ⟨⟨di, hdi⟩, hcatch⟩
        · exact absurd hid (hnone np' hnp')
        · rw [hmalloc] at hfail
          cases hfail
        · rw [hmake] at hfail
          cases hfail
        · obtain rfl : found = some di := by
            obtain ⟨k, hk⟩ := hdi
            exact readInode_unique hread hk
          have hok' : readNode env.catchException (some di) = .ok di := if_pos hcatch
          rw [hok']
          exact ⟨⟨_, (hnew.fillStat np _).setReferences np _⟩,
            (hfilled.insertNode (hfresh np hmake) hdi).addReference np⟩
  | @norefs c c' live np _ hnp hnorefs ih =>
      obtain ⟨⟨rows, hok⟩, hfilled⟩ := ih
      obtain ⟨c'', rows', heq, hok'⟩ := hok.norefs hnp
      obtain rfl := Option.some.inj (heq.symm.trans hnorefs)
      refine ⟨⟨rows', hok'⟩, fun np' hnp' => ?_⟩
      rw [diskfsNodeNorefs_node hnorefs]
      exact hfilled np' (Finset.mem_of_mem_erase hnp')

theorem AllFilled.stat (h : AllFilled m c live) (hnp : np ∈ live) :
    ∃ di, ReadsInode m (c.node np).cacheId di ∧
      (c.node np).stat = some (readStat (c.node np).cacheId di) := by
  obtain ⟨di, hread, hstat⟩ := h np hnp
  refine ⟨di, hread, ?_⟩
  unfold Node.stat
  rw [hstat]
  rfl

theorem AllFilled.diskLookup_unreadable (hok : TableOk c rows live) (hfilled : AllFilled m c live)
    (hinum : Unreadable m inum) (env : LibdiskfsEnv) :
    ∃ n out, (∀ fuel, n ≤ fuel → diskLookup m fuel inum env c = some out) ∧
      out.err ≠ .success ∧
      ((∀ np, env.makeNode = some np → np ∉ live) →
        (out.liveAfter live = live ↔ LoadSucceeds m c live inum env)) := by
  have hnone := hfilled.not_mem_of_unreadable hinum
  have hunread : ∀ {di}, ¬ ReadsInode m inum di := hinum.not_readsInode
  obtain ⟨k, hread⟩ := hinum
  obtain ⟨n, out, hout⟩ := hok.diskLookup_returns hread env
  refine ⟨n, out, hout, ?_⟩
  rcases hok.diskLookup_cases (hout n le_rfl) with ⟨np, hnp, hid, -⟩ | ⟨-, hmem, rfl⟩ |
    ⟨np, found, -, hmalloc, hmake, hfound, rfl⟩
  · exact absurd hid (hnone np hnp)
  · refine ⟨by simp, fun _ => ⟨fun _ => ?_, fun _ => rfl⟩⟩
    rcases hmem with hmalloc | hmake
    · exact .inr (.inl hmalloc)
    · exact .inr (.inr (.inl hmake))
  · obtain rfl := readInode_unique hfound hread
    refine ⟨by simp [readNode, readNodeErr], fun hfresh => ⟨fun hlive => ?_, ?_⟩⟩
    · have hmem : np ∈ insert np live := Finset.mem_insert_self np live
      rw [show insert np live = live from hlive] at hmem
      exact absurd hmem (hfresh np hmake)
    · rintro (⟨np', hnp', hid⟩ | hfail | hfail | ⟨⟨di, hdi⟩, -⟩)
      · exact absurd hid (hnone np' hnp')
      · rw [hmalloc] at hfail
        cases hfail
      · rw [hmake] at hfail
        cases hfail
      · exact absurd hdi hunread

theorem AllFilled.diskLookup_success (hok : TableOk c rows live) (hfilled : AllFilled m c live)
    (hout : diskLookup m fuel inum env c = some out) (herr : out.err = .success) :
    ∃ np di, out.npp = some np ∧ ReadsInode m inum di ∧
      (out.cache.node np).stat = some (readStat inum di) := by
  unfold Node.stat
  rcases hok.diskLookup_cases hout with ⟨np, hnp, rfl, rfl⟩ | ⟨-, -, rfl⟩ |
    ⟨np, found, -, -, -, hfound, rfl⟩
  · obtain ⟨di, hread, hstat⟩ := hfilled np hnp
    refine ⟨np, di, rfl, hread, ?_⟩
    simp [hstat]
  · cases herr
  · cases found with
    | none => simp [readNode, readNodeErr] at herr
    | some di =>
        by_cases hcatch : env.catchException = 0
        · refine ⟨np, di, rfl, ⟨fuel, hfound⟩, ?_⟩
          simp [readNode, hcatch, fillStat_ok_self, insertNode_node_self]
        · simp [readNode, readNodeErr, hcatch] at herr

/-- In a run whose lookups all find their node, make none or fill the one they
make, every node is filled from the disk; a lookup of an inode that cannot be
read fails there, and leaves the table as it was exactly when it makes no
node. -/
theorem failed_loads_leave_no_node (h : DiskRun m (LoadSucceeds m) c live) :
    (∃ rows, TableOk c rows live) ∧
      (∀ np ∈ live, ∃ di, ReadsInode m (c.node np).cacheId di ∧
        (c.node np).stat = some (readStat (c.node np).cacheId di)) ∧
      (∀ inum env, Unreadable m inum →
        ∃ n out, (∀ fuel, n ≤ fuel → diskLookup m fuel inum env c = some out) ∧
          out.err ≠ .success ∧
          ((∀ np, env.makeNode = some np → np ∉ live) →
            (out.liveAfter live = live ↔ LoadSucceeds m c live inum env))) ∧
      ∀ fuel inum env out, diskLookup m fuel inum env c = some out → out.err = .success →
        ∃ np di, out.npp = some np ∧ ReadsInode m inum di ∧
          (out.cache.node np).stat = some (readStat inum di) := by
  obtain ⟨⟨rows, hok⟩, hfilled⟩ := h.filled
  refine ⟨⟨rows, hok⟩, fun np hnp => hfilled.stat hnp, ?_, ?_⟩
  · intro inum env hinum
    exact hfilled.diskLookup_unreadable hok hinum env
  · intro fuel inum env out hout herr
    exact hfilled.diskLookup_success hok hout herr

/-! Inode 2 can be read, inode 64 cannot. -/

def givingEnv (np : NodeId) : LibdiskfsEnv := ⟨true, some np, 0⟩

theorem twoLeafMount_reads : ReadsInode twoLeafMount 2 (twoLeafMount.inodeAt 123904) :=
  .of_findInode (fun _ => rfl) twoLeafMount_findInode

theorem twoLeafMount_unreadable : Unreadable twoLeafMount 64 := ⟨3, rfl⟩

theorem failed_loads_leave_no_node_oneLookup :
    ∃ c, DiskRun twoLeafMount (LoadSucceeds twoLeafMount) c {1} ∧
      ∃ n out, (∀ fuel, n ≤ fuel →
        diskLookup twoLeafMount fuel 64 ⟨false, none, 0⟩ c = some out) ∧
        out.err ≠ .success ∧ out.liveAfter {1} = {1} := by
  have hrun := @DiskRun.lookup twoLeafMount (LoadSucceeds twoLeafMount) _ _ 3 2 (givingEnv 1) _
    (.init blankCache) (by simp) (.inr (.inr (.inr ⟨⟨_, twoLeafMount_reads⟩, rfl⟩))) rfl
  obtain ⟨-, -, hfails, -⟩ := failed_loads_leave_no_node hrun
  obtain ⟨n, out, hout, herr, hlive⟩ := hfails 64 ⟨false, none, 0⟩ twoLeafMount_unreadable
  exact ⟨_, hrun, n, out, hout, herr, (hlive nofun).mpr (.inr (.inl rfl))⟩

/-- Two lookups of an inode that cannot be read: the first one fails and leaves
its node in the table, the second one returns it. -/
theorem failed_load_is_returned :
    Unreadable twoLeafMount 64 ∧
      ∃ first second, diskLookup twoLeafMount 3 64 (givingEnv 1) (inodeInit blankCache) =
          some first ∧ first.err = .code 1 ∧ first.liveAfter ∅ = {1} ∧
        diskLookup twoLeafMount 3 64 (givingEnv 2) first.cache = some second ∧
          second.err = .success ∧ second.npp = some 1 ∧ (second.cache.node 1).stat = none :=
  ⟨twoLeafMount_unreadable, _, _, rfl, rfl, rfl, rfl, rfl, rfl, rfl⟩

end JfsReader
