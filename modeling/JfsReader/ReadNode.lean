import JfsReader.DirectoryTree
import JfsReader.NodeCache

/-!
# `read_node` and the parts of a lookup

`diskfs_cached_lookup` is one section under `diskfs_node_refcnt_lock`, after
which a node that was found is locked and a node that was made is filled by
`read_node`.  The parts are modelled one by one, with what `read_node` delivers
read off the disk, and put together they are `diskfs_cached_lookup`.
-/

namespace JfsReader

namespace Dinode

def diGen (d : Dinode) : ℕ := d.bytes.le32 12
def diSize (d : Dinode) : ℤ := (d.bytes.le64 24 : ℤ).bmod (2 ^ 64)
def diNlink (d : Dinode) : ℕ := d.bytes.le32 40
def diUid (d : Dinode) : ℕ := d.bytes.le32 44
def diGid (d : Dinode) : ℕ := d.bytes.le32 48
def diAtime (d : Dinode) : ℕ × ℕ := (d.bytes.le32 56, d.bytes.le32 60)
def diCtime (d : Dinode) : ℕ × ℕ := (d.bytes.le32 64, d.bytes.le32 68)
def diMtime (d : Dinode) : ℕ × ℕ := (d.bytes.le32 72, d.bytes.le32 76)

end Dinode

/-- The fields of `struct stat` that come from the inode. -/
structure Stat where
  stIno : ℕ
  stMode : ℕ
  stNlink : ℕ
  stUid : ℕ
  stGid : ℕ
  stAuthor : ℕ
  stSize : ℤ
  stGen : ℕ
  stAtim : ℕ × ℕ
  stMtim : ℕ × ℕ
  stCtim : ℕ × ℕ
  stBlocks : ℤ

def ifreg : ℕ := 0x8000
def iflnk : ℕ := 0xA000

def readStat (cacheId : ℕ) (di : Dinode) : Stat where
  stIno := cacheId
  stMode := if di.diMode &&& ifmt = ifdir then ifdir ||| 0o777 else ifreg ||| 0o666
  stNlink := di.diNlink
  stUid := di.diUid
  stGid := di.diGid
  stAuthor := di.diUid
  stSize := if di.diMode &&& ifmt = iflnk then 0 else di.diSize
  stGen := di.diGen
  stAtim := di.diAtime
  stMtim := di.diMtime
  stCtim := di.diCtime
  stBlocks := di.diSize.tdiv 512 + 1

/-- The content of `dn_stat`, if `read_node` has filled it. -/
def Node.stat (n : Node) : Option Stat := n.dnStat.map (readStat n.cacheId)

/-- The inode behind a node: `none` when cut off, `some none` when it is not
found or not read. -/
def Mount.readInode (m : Mount) (fuel cacheId : ℕ) : Option (Option Dinode) :=
  match findInode m fuel (cacheId % 2 ^ 32) filesystemI with
  | none => none
  | some none => some none
  | some (some address) =>
      some ((m.xRead address sizeofDinode (m.stack .inode)).map Dinode.mk)

/-- What `read_node` ends with; `catchException` is the answer of
`diskfs_catch_exception`, which is asked only when there is an inode. -/
def readNode (catchException : ℕ) : Option Dinode → Except ℕ Dinode
  | none => .error 1
  | some di => if catchException = 0 then .ok di else .error catchException

/-- What the libdiskfs calls of one lookup answer. -/
structure LibdiskfsEnv where
  malloc : Bool
  makeNode : Option NodeId
  catchException : ℕ

/-- How the section under `diskfs_node_refcnt_lock` ends. -/
inductive LookupSection
  | hit (np : NodeId) (c : NodeCache)
  | noMemory
  | miss (np : NodeId) (c : NodeCache)

def sectionEnd (c : NodeCache) (inum : ℕ) (env : LibdiskfsEnv) : Option NodeId → LookupSection
  | some np => .hit np (c.addReference np)
  | none =>
      match env.malloc, env.makeNode with
      | true, some np => .miss np (c.insertNode inum np)
      | _, _ => .noMemory

def lookupSection (fuel inum : ℕ) (env : LibdiskfsEnv) (c : NodeCache) :
    Option LookupSection :=
  (c.links.search (fun np => (c.node np).cacheId == inum) fuel
    (c.links.deref (.head (inohash inum)))).map (sectionEnd c inum env)

/-- What follows the section; `c` is the cache from before it. -/
def finishLookup (m : Mount) (fuel : ℕ) (env : LibdiskfsEnv) (c : NodeCache) :
    LookupSection → Option LookupEnd
  | .hit np c => some ⟨.success, some np, none, c⟩
  | .noMemory => some ⟨.enomem, none, none, c⟩
  | .miss np c =>
      (m.readInode fuel (c.node np).cacheId).map fun found =>
        let r := readNode env.catchException found
        ⟨readNodeErr r, some np, some np, (c.fillStat np r).addReference np⟩

/-- A lookup whose `read_node` reads the disk. -/
def diskLookup (m : Mount) (fuel inum : ℕ) (env : LibdiskfsEnv) (c : NodeCache) :
    Option LookupEnd :=
  (lookupSection fuel inum env c).bind (finishLookup m fuel env c)

def ReadsInode (m : Mount) (inum : ℕ) (di : Dinode) : Prop :=
  ∃ fuel, m.readInode fuel inum = some (some di)

/-- `find_inode` returns 1, or the inode is not read. -/
def Unreadable (m : Mount) (inum : ℕ) : Prop := ∃ fuel, m.readInode fuel inum = some none

variable {m : Mount} {fuel inum : ℕ} {env : LibdiskfsEnv} {c : NodeCache} {out : LookupEnd}
  {rows : Fin inohsz → List NodeId} {live : Finset NodeId} {np : NodeId} {di : Dinode}

theorem readInode_of_le {fuel' : ℕ} {found : Option Dinode}
    (h : m.readInode fuel inum = some found) (hle : fuel ≤ fuel') :
    m.readInode fuel' inum = some found := by
  unfold Mount.readInode at h ⊢
  cases hfind : findInode m fuel (inum % 2 ^ 32) filesystemI with
  | none =>
      rw [hfind] at h
      cases h
  | some address =>
      simp only [findInode_of_le hfind hle]
      simpa only [hfind] using h

theorem readInode_unique {fuel' : ℕ} {found found' : Option Dinode}
    (h : m.readInode fuel inum = some found) (h' : m.readInode fuel' inum = some found') :
    found = found' := by
  have hleft := readInode_of_le h (Nat.le_max_left fuel fuel')
  have hright := readInode_of_le h' (Nat.le_max_right fuel fuel')
  exact Option.some.inj (hleft.symm.trans hright)

theorem Unreadable.not_readsInode (h : Unreadable m inum) : ¬ ReadsInode m inum di := by
  rintro ⟨k, hread⟩
  obtain ⟨n, hnone⟩ := h
  cases readInode_unique hnone hread

theorem ReadsInode.unique {di' : Dinode} (h : ReadsInode m inum di) (h' : ReadsInode m inum di') :
    di = di' := by
  obtain ⟨k, hread⟩ := h
  obtain ⟨n, hread'⟩ := h'
  exact Option.some.inj (readInode_unique hread hread')

theorem ReadsInode.of_findInode (hmem : m.HasMemory) {address : ℕ}
    (hfind : findInode m fuel (inum % 2 ^ 32) filesystemI = some (some address)) :
    ReadsInode m inum (m.inodeAt address) := by
  obtain ⟨inode, hread, -⟩ := m.xRead_delivers hmem address sizeofDinode (by decide)
    (m.stack .inode)
  refine ⟨fuel, ?_⟩
  unfold Mount.readInode Mount.inodeAt
  rw [hfind]
  simp only [hread, Option.map_some, Option.getD_some]

/-! ## The parts of a lookup -/

theorem finishLookup_sectionEnd {r : Option NodeId}
    (h : finishLookup m fuel env c (sectionEnd c inum env r) = some out) :
    ∃ read, out = lookupEnd c inum ⟨env.malloc, env.makeNode, read⟩ r ∧
      (out.created.isSome → ∃ found, m.readInode fuel inum = some found ∧
        read = readNode env.catchException found) := by
  cases r with
  | some np =>
      obtain rfl := Option.some.inj h
      exact ⟨.error 1, rfl, by simp⟩
  | none =>
      unfold sectionEnd at h
      unfold lookupEnd missEnd
      cases hmalloc : env.malloc with
      | false =>
          rw [hmalloc] at h
          obtain rfl := Option.some.inj h
          exact ⟨.error 1, rfl, by simp⟩
      | true =>
          cases hmake : env.makeNode with
          | none =>
              rw [hmalloc, hmake] at h
              obtain rfl := Option.some.inj h
              exact ⟨.error 1, rfl, by simp⟩
          | some np =>
              rw [hmalloc, hmake] at h
              obtain ⟨found, hread, rfl⟩ := Option.map_eq_some_iff.mp h
              rw [insertNode_node_self] at hread
              exact ⟨_, rfl, fun _ => ⟨found, hread, rfl⟩⟩

/-- The parts together are `diskfs_cached_lookup`, with the answer of `read_node`
that the disk gives. -/
theorem diskfsCachedLookup_of_diskLookup (h : diskLookup m fuel inum env c = some out) :
    ∃ read, diskfsCachedLookup fuel inum ⟨env.malloc, env.makeNode, read⟩ c = some out ∧
      (out.created.isSome → ∃ found, m.readInode fuel inum = some found ∧
        read = readNode env.catchException found) := by
  obtain ⟨part, hsection, hfinish⟩ := Option.bind_eq_some_iff.mp h
  obtain ⟨r, hsearch, rfl⟩ := Option.map_eq_some_iff.mp hsection
  obtain ⟨read, rfl, hread⟩ := finishLookup_sectionEnd hfinish
  refine ⟨read, ?_, hread⟩
  rw [diskfsCachedLookup_eq, hsearch]
  rfl

/-- A lookup has found its node, has made none, or has made one and tried to
fill it. -/
theorem TableOk.diskLookup_cases (h : TableOk c rows live)
    (hout : diskLookup m fuel inum env c = some out) :
    (∃ np ∈ live, (c.node np).cacheId = inum ∧
      out = ⟨.success, some np, none, c.addReference np⟩) ∨
    ((∀ np ∈ live, (c.node np).cacheId ≠ inum) ∧ (env.malloc = false ∨ env.makeNode = none) ∧
      out = ⟨.enomem, none, none, c⟩) ∨
    ∃ np found, (∀ np ∈ live, (c.node np).cacheId ≠ inum) ∧ env.malloc = true ∧
      env.makeNode = some np ∧ m.readInode fuel inum = some found ∧
      out = ⟨readNodeErr (readNode env.catchException found), some np, some np,
        ((c.insertNode inum np).fillStat np
          (readNode env.catchException found)).addReference np⟩ := by
  obtain ⟨read, hlookup, hread⟩ := diskfsCachedLookup_of_diskLookup hout
  obtain ⟨r, hr⟩ := TableOk.exists_has c live inum
  obtain rfl := h.lookup_eq hr hlookup
  cases r with
  | some np => exact .inl ⟨np, hr.1, hr.2, rfl⟩
  | none =>
      right
      unfold JfsReader.lookupEnd missEnd at hread ⊢
      cases hmalloc : env.malloc with
      | false => exact .inl ⟨hr, .inl rfl, rfl⟩
      | true =>
          cases hmake : env.makeNode with
          | none => exact .inl ⟨hr, .inr rfl, rfl⟩
          | some np =>
              simp only [hmalloc, hmake] at hread
              obtain ⟨found, hfound, rfl⟩ := hread rfl
              exact .inr ⟨np, found, hr, rfl, rfl, hfound, rfl⟩

theorem TableOk.lookupSection (h : TableOk c rows live) {r : Option NodeId}
    (hr : TableHas c live inum r) (hfuel : (rows (inohash inum)).length < fuel)
    (env : LibdiskfsEnv) :
    lookupSection fuel inum env c = some (sectionEnd c inum env r) := by
  unfold JfsReader.lookupSection
  rw [(h.chains.chain (inohash inum)).search _ hfuel, h.find?_eq hr]
  rfl

theorem TableOk.lookupSection_eq (h : TableOk c rows live) {r : Option NodeId}
    (hr : TableHas c live inum r) {part : LookupSection}
    (hpart : JfsReader.lookupSection fuel inum env c = some part) :
    part = sectionEnd c inum env r := by
  obtain ⟨found, hsearch, rfl⟩ := Option.map_eq_some_iff.mp hpart
  rw [(h.chains.chain (inohash inum)).search_eq hsearch, h.find?_eq hr]

theorem TableOk.lookupSection_cases (h : TableOk c rows live) {part : LookupSection}
    (hpart : JfsReader.lookupSection fuel inum env c = some part) :
    (∃ np ∈ live, (c.node np).cacheId = inum ∧ part = .hit np (c.addReference np)) ∨
    part = .noMemory ∨
    ∃ np, (∀ np ∈ live, (c.node np).cacheId ≠ inum) ∧ env.makeNode = some np ∧
      part = .miss np (c.insertNode inum np) := by
  obtain ⟨r, hr⟩ := TableOk.exists_has c live inum
  obtain rfl := h.lookupSection_eq hr hpart
  cases r with
  | some np => exact .inl ⟨np, hr.1, hr.2, rfl⟩
  | none =>
      right
      unfold sectionEnd
      cases env.malloc with
      | false => exact .inl rfl
      | true =>
          cases hmake : env.makeNode with
          | none => exact .inl rfl
          | some np => exact .inr ⟨np, hr, rfl, rfl⟩

theorem TableOk.diskLookup_returns (h : TableOk c rows live) {found : Option Dinode}
    (hread : m.readInode fuel inum = some found) (env : LibdiskfsEnv) :
    ∃ n out, ∀ fuel, n ≤ fuel → diskLookup m fuel inum env c = some out := by
  obtain ⟨r, hr⟩ := TableOk.exists_has c live inum
  have hfinish : ∃ out, ∀ k, fuel ≤ k →
      finishLookup m k env c (sectionEnd c inum env r) = some out := by
    unfold sectionEnd
    cases r with
    | some np => exact ⟨_, fun _ _ => rfl⟩
    | none =>
        cases env.malloc with
        | false => exact ⟨_, fun _ _ => rfl⟩
        | true =>
            cases env.makeNode with
            | none => exact ⟨_, fun _ _ => rfl⟩
            | some np =>
                refine ⟨⟨readNodeErr (readNode env.catchException found), some np, some np,
                  ((c.insertNode inum np).fillStat np
                    (readNode env.catchException found)).addReference np⟩, fun k hk => ?_⟩
                simp only [finishLookup, insertNode_node_self, readInode_of_le hread hk]
                rfl
  obtain ⟨out, hout⟩ := hfinish
  refine ⟨max fuel ((rows (inohash inum)).length + 1), out, fun k hk => ?_⟩
  unfold diskLookup
  rw [h.lookupSection hr (by omega), Option.bind_some, hout k (by omega)]

/-! ## Filling a node -/

@[simp] theorem addReference_cacheId (np' : NodeId) :
    ((c.addReference np).node np').cacheId = (c.node np').cacheId :=
  setReferences_cacheId _ _

@[simp] theorem addReference_dnStat (np' : NodeId) :
    ((c.addReference np).node np').dnStat = (c.node np').dnStat :=
  setReferences_keeps Node.dnStat (fun _ _ => rfl) _ np'

theorem fillStat_ok_self : ((c.fillStat np (.ok di)).node np).dnStat = some di := by
  simp [NodeCache.fillStat, NodeCache.setNode]

theorem fillStat_node_of_ne {np' : NodeId} (hne : np' ≠ np) (r : Except ℕ Dinode) :
    (c.fillStat np r).node np' = c.node np' := by
  cases r with
  | error n => rfl
  | ok di => simp [NodeCache.fillStat, NodeCache.setNode, hne]

end JfsReader
