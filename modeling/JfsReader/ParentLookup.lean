import JfsReader.FailedLoads
import JfsReader.LookupHard

/-!
# Looking up the parent directory

The root of a directory's tree records the parent in `idotdot`, and a directory
has no entry for it.  `directory` prints the field and does not use it: it looks
for an entry that begins with two dots, and what `*gotinum` holds afterwards is
looked up in the node table, whatever comes of that.
-/

namespace JfsReader

def DtRoot.idotdot (r : DtRoot) : ℕ := r.bytes.le32 20

/-- The parent that the root of the directory's tree records. -/
def RecordsParent (m : Mount) (inum parent : ℕ) : Prop :=
  ∃ di, ReadsInode m inum di ∧ (DtRoot.mk di.diBtroot).idotdot = parent

/-- The lookup on the node table and the disk; a call that is cut off leaves no
state.  The locks are not part of it, and what giving a reference back does is
left open. -/
def diskOps (m : Mount) (fuel : ℕ) (env : LibdiskfsEnv)
    (nput : NodeId → Option NodeCache → Option NodeCache) : LookupOps (Option NodeCache) where
  cachedLookup := fun inum s =>
    match s.bind (diskLookup m fuel inum env) with
    | none => (.success, none, none)
    | some out => (out.err, out.npp, some out.cache)
  nref := fun np s => s.map (·.addReference np)
  nput := nput
  lock := fun _ s => s
  unlock := fun _ s => s

def dotdot : List UInt8 := [46, 46]

/-- The lookup of ".." in the directory `dp` returns 0 and the node of the
inode `parent`.  If that is `dp` itself, its lock is taken by
`diskfs_cached_lookup` and then waited for. -/
def ParentFound (m : Mount) (fuel : ℕ) (env : LibdiskfsEnv)
    (nput : NodeId → Option NodeCache → Option NodeCache) (rootNode dp : NodeId)
    (specDotdot : Bool) (gotinum : ℕ) (c : NodeCache) (parent : ℕ) : Prop :=
  ∃ np c', diskfsLookupHard (diskOps m fuel env nput) m fuel rootNode dp (c.node dp).cacheId
      dotdot ⟨.lookup, specDotdot⟩ (some none) gotinum (some c) =
        some (.returned .success (some (some np)) (some c')) ∧
    np ≠ dp ∧ (c'.node np).cacheId = parent

/-- The first entry that is listed with two dots in front leads to `parent`, or
there is no entry and the variable held it already. -/
def DotdotLeadsTo (entries : List DirEntry) (gotinum parent : ℕ) : Prop :=
  (∃ e, entries.find? (fun e => dotdot.isPrefixOf e.listed) = some e ∧ e.inumber = parent) ∨
    (entries = [] ∧ gotinum = parent)

/-- The node is in the table already, or there is memory for a new one; and it
is not `dp`. -/
def NodeAvailable (env : LibdiskfsEnv) (c : NodeCache) (live : Finset NodeId) (dp : NodeId)
    (inum : ℕ) : Prop :=
  (∃ np ∈ live, np ≠ dp ∧ (c.node np).cacheId = inum) ∨
    ((∀ np ∈ live, (c.node np).cacheId ≠ inum) ∧ env.malloc = true ∧
      ∃ np, env.makeNode = some np ∧ np ≠ dp)

variable {m : Mount} {fuel : ℕ} {env : LibdiskfsEnv}
  {nput : NodeId → Option NodeCache → Option NodeCache} {rootNode dp : NodeId}
  {c : NodeCache} {rows : Fin inohsz → List NodeId} {live : Finset NodeId}
  {entries : List DirEntry} {gotinum parent inum : ℕ}

theorem find?_answers_dotdot (entries : List DirEntry) :
    entries.find? (·.answers dotdot) =
      entries.find? fun e => dotdot.isPrefixOf e.listed := by
  apply List.find?_congr
  intro e _
  have hname : ∀ b ∈ dotdot, b ≠ 0 := by simp [dotdot]
  have hascii : ∀ b ∈ dotdot, b < 128 := by simp [dotdot]
  rw [Bool.eq_iff_iff, answers_iff hname, List.isPrefixOf_iff_prefix]
  exact and_iff_right hascii

-- `-1` is no parent, since `idotdot` is a 32-bit field
theorem lookupResult_dotdot_iff (hparent : parent < 2 ^ 32) :
    lookupResult entries dotdot gotinum = parent ↔ DotdotLeadsTo entries gotinum parent := by
  unfold lookupResult DotdotLeadsTo
  rw [find?_answers_dotdot]
  cases hfind : entries.find? fun e => dotdot.isPrefixOf e.listed with
  | some e =>
      have hne : entries ≠ [] := by
        rintro rfl
        cases hfind
      simp [hne]
  | none =>
      have hno : noInum ≠ parent := by
        unfold noInum
        omega
      by_cases hempty : entries = []
      · simp [hempty]
      · simp [hempty, hno]

theorem loadInode_dotdot {S : Type} (ops : LookupOps S) (hdp : dp ≠ rootNode)
    (specDotdot : Bool) (s : S) :
    loadInode ops rootNode dp dotdot ⟨.lookup, specDotdot⟩ gotinum (some none) s =
      .returned .success (some (ops.cachedLookup gotinum (ops.unlock dp s)).2.1)
        (ops.lock dp (ops.cachedLookup gotinum (ops.unlock dp s)).2.2) := by
  -- `SPEC_DOTDOT` does not fit into the `uint8_t` it is kept in
  have hspec : (LookupType.mk .lookup specDotdot).andSpecDotdot % 2 ^ 8 = 0 := by
    cases specDotdot <;> rfl
  unfold loadInode
  simp only [hspec, hdp, if_false, ne_eq, not_true_eq_false]
  rfl

theorem TableOk.diskLookup_cacheId (hok : TableOk c rows live) {out : LookupEnd} {np : NodeId}
    (hout : diskLookup m fuel inum env c = some out) (hnp : out.npp = some np) :
    (out.cache.node np).cacheId = inum := by
  rcases hok.diskLookup_cases hout with ⟨np', -, hid, rfl⟩ | ⟨-, -, rfl⟩ |
    ⟨np', found, -, -, -, -, rfl⟩
  · obtain rfl := Option.some.inj hnp
    rw [addReference_cacheId]
    exact hid
  · cases hnp
  · obtain rfl := Option.some.inj hnp
    rw [addReference_cacheId, fillStat_cacheId, insertNode_node_self]

theorem TableOk.diskLookup_npp_iff (hok : TableOk c rows live) {out : LookupEnd}
    (hout : diskLookup m fuel inum env c = some out) :
    (∃ np, out.npp = some np ∧ np ≠ dp) ↔ NodeAvailable env c live dp inum := by
  unfold NodeAvailable
  rcases hok.diskLookup_cases hout with ⟨np, hnp, hid, rfl⟩ | ⟨hnone, hrefused, rfl⟩ |
    ⟨np, found, hnone, hmalloc, hmake, -, rfl⟩
  · constructor
    · rintro ⟨np', heq, hne⟩
      cases heq
      exact .inl ⟨np, hnp, hne, hid⟩
    · rintro (⟨np', hnp', hne, hid'⟩ | ⟨hnone, -⟩)
      · exact ⟨np, rfl, hok.unique hnp hnp' (hid.trans hid'.symm) ▸ hne⟩
      · exact absurd hid (hnone np hnp)
  · refine iff_of_false (by simp) ?_
    rintro (⟨np, hnp, -, hid⟩ | ⟨-, hmalloc, np, hmake, -⟩)
    · exact hnone np hnp hid
    · rcases hrefused with hno | hno
      · rw [hno] at hmalloc
        cases hmalloc
      · rw [hno] at hmake
        cases hmake
  · constructor
    · rintro ⟨np', heq, hne⟩
      cases heq
      exact .inr ⟨hnone, hmalloc, np, hmake, hne⟩
    · rintro (⟨np', hnp', -, hid⟩ | ⟨-, -, np', hmake', hne⟩)
      · exact absurd hid (hnone np' hnp')
      · cases hmake.symm.trans hmake'
        exact ⟨np, rfl, hne⟩

theorem diskfsLookupHard_dotdot (hdp : dp ≠ rootNode)
    (hscan : dirscan m fuel (c.node dp).cacheId dotdot dotdot.length gotinum =
      some (.success, inum)) (specDotdot : Bool) :
    diskfsLookupHard (diskOps m fuel env nput) m fuel rootNode dp (c.node dp).cacheId dotdot
        ⟨.lookup, specDotdot⟩ (some none) gotinum (some c) =
      some (match diskLookup m fuel inum env c with
        | none => .returned .success (some none) none
        | some out => .returned .success (some out.npp) (some out.cache)) := by
  unfold diskfsLookupHard
  rw [if_neg (by simp), if_neg (by simp), hscan]
  simp only [Option.map_some, loadInode_dotdot _ hdp]
  unfold diskOps
  simp only [Option.bind_some]
  cases diskLookup m fuel inum env c <;> rfl

theorem TableOk.inum_of_parentFound (hok : TableOk c rows live) (hdp : dp ≠ rootNode)
    (hscan : dirscan m fuel (c.node dp).cacheId dotdot dotdot.length gotinum =
      some (.success, inum)) {specDotdot : Bool}
    (hfound : ParentFound m fuel env nput rootNode dp specDotdot gotinum c parent) :
    inum = parent ∧ NodeAvailable env c live dp inum := by
  obtain ⟨np, c', heq, hne, rfl⟩ := hfound
  rw [diskfsLookupHard_dotdot hdp hscan] at heq
  cases hlookup : diskLookup m fuel inum env c with
  | none =>
      rw [hlookup] at heq
      cases heq
  | some out =>
      rw [hlookup] at heq
      simp only [Option.some.injEq, LookupHardEnd.returned.injEq, true_and] at heq
      obtain ⟨hnp, rfl⟩ := heq
      exact ⟨(hok.diskLookup_cacheId hlookup hnp).symm,
        (hok.diskLookup_npp_iff hlookup).mp ⟨np, hnp, hne⟩⟩

theorem TableOk.parentFound_of_dirscan (hok : TableOk c rows live) (hdp : dp ≠ rootNode)
    (hscan : dirscan m fuel (c.node dp).cacheId dotdot dotdot.length gotinum =
      some (.success, parent)) (havailable : NodeAvailable env c live dp parent)
    {out : LookupEnd} (hout : diskLookup m fuel parent env c = some out) (specDotdot : Bool) :
    ParentFound m fuel env nput rootNode dp specDotdot gotinum c parent := by
  obtain ⟨np, hnp, hne⟩ := (hok.diskLookup_npp_iff hout).mpr havailable
  refine ⟨np, out.cache, ?_, hne, hok.diskLookup_cacheId hout hnp⟩
  rw [diskfsLookupHard_dotdot hdp hscan, hout]
  simp [hnp]

theorem dirscan_dotdot (h : IsDirectory m inum entries) (hmem : m.HasMemory) :
    ∃ n, ∀ fuel, n ≤ fuel → ∀ gotinum, dirscan m fuel inum dotdot dotdot.length gotinum =
      some (.success, lookupResult entries dotdot gotinum) := by
  obtain ⟨n, hscan⟩ := h.dirscan hmem
  refine ⟨n, ?_⟩
  intro fuel hfuel gotinum
  rw [hscan fuel hfuel, if_neg (by simp [dotdot])]

/-- The parent is found exactly when an entry happens to lead to it and there
is a node for it besides that of the directory. -/
theorem parentFound_iff {di : Dinode} (hmem : m.HasMemory) (hcache : CacheRun c live)
    (hdp : dp ≠ rootNode) (h : IsDirectory m (c.node dp).cacheId entries)
    (hrecords : RecordsParent m (c.node dp).cacheId parent) (hparent : ReadsInode m parent di)
    (env : LibdiskfsEnv) :
    ∃ n, ∀ fuel, n ≤ fuel → ∀ nput specDotdot gotinum,
      ParentFound m fuel env nput rootNode dp specDotdot gotinum c parent ↔
        DotdotLeadsTo entries gotinum parent ∧ NodeAvailable env c live dp parent := by
  obtain ⟨rows, hok⟩ := hcache.tableOk
  obtain ⟨n, hscan⟩ := dirscan_dotdot h hmem
  obtain ⟨k, hread⟩ := hparent
  obtain ⟨l, out, hout⟩ := hok.diskLookup_returns hread env
  refine ⟨max n l, ?_⟩
  intro fuel hfuel nput specDotdot gotinum
  have hlt : parent < 2 ^ 32 := by
    obtain ⟨di, -, rfl⟩ := hrecords
    exact Bytes.le32_lt _ _
  have hresult := hscan fuel (by omega) gotinum
  rw [← lookupResult_dotdot_iff hlt]
  constructor
  · intro hfound
    obtain ⟨hleads, havailable⟩ := hok.inum_of_parentFound hdp hresult hfound
    rw [hleads] at havailable
    exact ⟨hleads, havailable⟩
  · rintro ⟨hleads, havailable⟩
    rw [hleads] at hresult
    exact hok.parentFound_of_dirscan hdp hresult havailable (hout fuel (by omega)) specDotdot

/-! Inode 3 is a directory below inode 2, with one entry, "..a" or "aaa". -/

def subdirMount (dotted : Bool) : Mount where
  image := Bytes.sparse [(53488, 2), (53490, 3), (53512, 2), (53516, 20), (89088, 4), (89092, 30),
    (124469, 0x40), (124656, 2), (124657, 1), (124660, 2), (124664, 1),
    (124672, 2), (124676, 0xFF), (124677, 3),
    (124678, bif dotted then 46 else 97), (124680, bif dotted then 46 else 97), (124682, 97)]
  l2bsize := 12
  l2bsize_ge := Mount.pageBlocks_ge
  l2bsize_le := Mount.pageBlocks_le
  malloc := fun _ => some (Bytes.sparse [])

def subdirEntry (dotted : Bool) : DirEntry :=
  ⟨[bif dotted then 46 else 97, bif dotted then 46 else 97, 97], 2⟩

theorem subdirMount_holds (dotted : Bool) :
    HoldsEntry ((subdirMount dotted).inodeAt 124416).diBtroot dtRootMaxSlot 1
      (subdirEntry dotted) := by
  cases dotted
  · exact ⟨by decide, by decide, by decide, ⟨[], .done (by decide), by decide⟩,
      by simp [subdirEntry]⟩
  · exact ⟨by decide, by decide, by decide, ⟨[], .done (by decide), by decide⟩,
      by simp [subdirEntry]⟩

theorem subdirMount_findInode (dotted : Bool) :
    findInode (subdirMount dotted) 3 (3 % 2 ^ 32) filesystemI = some (some 124416) := by
  cases dotted <;> rfl

theorem subdirMount_isDirectory (dotted : Bool) :
    IsDirectory (subdirMount dotted) 3 [subdirEntry dotted] := by
  have htree : DtTree (subdirMount dotted)
      ⟨((subdirMount dotted).inodeAt 124416).diBtroot⟩ [subdirEntry dotted] := by
    have hheads :
        (DtRoot.mk ((subdirMount dotted).inodeAt 124416).diBtroot).headIndices = [1] := by
      cases dotted <;> rfl
    refine .inline ?_ ⟨?_, ?_⟩ (hheads ▸ .cons (subdirMount_holds dotted) .nil)
    · cases dotted <;> decide
    · cases dotted <;> decide
    · cases dotted <;> decide
  refine .of_inodeAt (fun _ => rfl) (subdirMount_findInode dotted) ?_ htree
  cases dotted <;> decide

theorem subdirMount_records (dotted : Bool) : RecordsParent (subdirMount dotted) 3 2 := by
  refine ⟨_, .of_findInode (fun _ => rfl) (subdirMount_findInode dotted), ?_⟩
  cases dotted <;> decide

theorem subdirMount_reads_parent (dotted : Bool) :
    ReadsInode (subdirMount dotted) 2 ((subdirMount dotted).inodeAt 123904) := by
  refine .of_findInode (m := subdirMount dotted) (fun _ => rfl) (?_ : findInode _ 3 _ _ = _)
  cases dotted <;> rfl

/-- The node table after a lookup of inode 3, which is node 1. -/
def subdirCache : NodeCache :=
  ((inodeInit blankCache).insertNode 3 1).fillStat 1 (.ok ⟨Bytes.sparse []⟩) |>.addReference 1

theorem subdirCache_run : CacheRun subdirCache {1} :=
  @CacheRun.lookup _ _ 1 3 (goodEnv 1) _ (.init blankCache) (by simp) rfl

theorem parentFound_iff_dotted :
    ∃ n, ∀ fuel, n ≤ fuel → ∀ nput,
      ParentFound (subdirMount true) fuel (givingEnv 5) nput 0 1 true 9 subdirCache 2 := by
  have hleads : DotdotLeadsTo [subdirEntry true] 9 2 := .inl ⟨subdirEntry true, rfl, rfl⟩
  obtain ⟨n, hn⟩ := @parentFound_iff (subdirMount true) 0 1 subdirCache {1}
    [subdirEntry true] 2 _ (fun _ => rfl) subdirCache_run (by decide)
    (subdirMount_isDirectory true) (subdirMount_records true) (subdirMount_reads_parent true)
    (givingEnv 5)
  have hnone : ∀ np ∈ ({1} : Finset NodeId), (subdirCache.node np).cacheId ≠ 2 := by decide
  exact ⟨n, fun fuel hfuel nput => (hn fuel hfuel nput true 9).mpr
    ⟨hleads, .inr ⟨hnone, rfl, 5, rfl, by decide⟩⟩⟩

/-- The parent is recorded and readable, and the lookup does not come to it. -/
theorem parent_not_found :
    CacheRun subdirCache {1} ∧ (subdirCache.node 1).cacheId = 3 ∧
      IsDirectory (subdirMount false) 3 [subdirEntry false] ∧
      RecordsParent (subdirMount false) 3 2 ∧
      ReadsInode (subdirMount false) 2 ((subdirMount false).inodeAt 123904) ∧
      ∃ n, ∀ fuel, n ≤ fuel → ∀ nput specDotdot gotinum,
        ¬ ParentFound (subdirMount false) fuel (givingEnv 5) nput 0 1 specDotdot gotinum
          subdirCache 2 := by
  have hnode : (subdirCache.node 1).cacheId = 3 := rfl
  refine ⟨subdirCache_run, hnode, subdirMount_isDirectory false, subdirMount_records false,
    subdirMount_reads_parent false, ?_⟩
  obtain ⟨rows, hok⟩ := subdirCache_run.tableOk
  obtain ⟨n, hscan⟩ := dirscan_dotdot (subdirMount_isDirectory false) (fun _ => rfl)
  refine ⟨n, ?_⟩
  intro fuel hfuel nput specDotdot gotinum hfound
  have hscanned := hscan fuel hfuel gotinum
  rw [← hnode] at hscanned
  have hinum : lookupResult [subdirEntry false] dotdot gotinum = 2 :=
    (hok.inum_of_parentFound (by decide) hscanned hfound).1
  have hleads : DotdotLeadsTo [subdirEntry false] gotinum 2 :=
    (lookupResult_dotdot_iff (by decide)).mp hinum
  rcases hleads with ⟨e, hfind, -⟩ | ⟨hempty, -⟩
  · cases hfind
  · cases hempty

end JfsReader
