import JfsReader.FailedLoads

/-!
# The locks of a lookup

`diskfs_cached_lookup` with `diskfs_node_refcnt_lock` and the locks of the
nodes.  A hit and the failures before the insertion leave them as a caller
expects.  A miss does so only when its inode cannot be read: `read_node` keeps
the first lock when `diskfs_catch_exception` fails, and the lines that would
take the lock of a new node are commented out.
-/

namespace JfsReader

structure LockedCache where
  cache : NodeCache
  refcntLock : Bool
  nodeLock : NodeId → Bool

namespace LockedCache

/-- `none` when the lock is held: the caller spins for ever. -/
def spinLock (s : LockedCache) : Option LockedCache :=
  if s.refcntLock then none else some { s with refcntLock := true }

def spinUnlock (s : LockedCache) : LockedCache := { s with refcntLock := false }

/-- `none` when the caller is blocked. -/
def mutexLock (s : LockedCache) (np : NodeId) : Option LockedCache :=
  if s.nodeLock np then none
  else some { s with nodeLock := Function.update s.nodeLock np true }

/-- `diskfs_make_node` initialises the lock of the node. -/
def initLock (s : LockedCache) (np : NodeId) : LockedCache :=
  { s with nodeLock := Function.update s.nodeLock np false }

def withCache (s : LockedCache) (c : NodeCache) : LockedCache := { s with cache := c }

end LockedCache

structure LockedEnd where
  err : ErrorT
  npp : Option NodeId
  created : Option NodeId
  state : LockedCache

/-- `read_node`, with the lock it takes. -/
def lockedReadNode (m : Mount) (fuel catchException : ℕ) (np : NodeId) (s : LockedCache) :
    Option (ErrorT × LockedCache) :=
  match m.readInode fuel (s.cache.node np).cacheId with
  | none => none
  | some none => some (.code 1, s)
  | some (some di) =>
      s.spinLock.map fun s =>
        -- this return leaves the lock held
        if catchException ≠ 0 then (.code catchException, s)
        else (.success, (s.withCache (s.cache.fillStat np (.ok di))).spinUnlock)

def lockedLookup (m : Mount) (fuel inum : ℕ) (env : LibdiskfsEnv) (s : LockedCache) :
    Option LockedEnd :=
  s.spinLock.bind fun s =>
    (lookupSection fuel inum env s.cache).bind fun
      | .hit np c =>
          (((s.withCache c).spinUnlock).mutexLock np).map fun s => ⟨.success, some np, none, s⟩
      | .noMemory => some ⟨.enomem, none, none, s.spinUnlock⟩
      | .miss np c =>
          -- the lock of the new node is not taken
          (lockedReadNode m fuel env.catchException np
            ((s.withCache c).initLock np).spinUnlock).map fun out =>
              ⟨out.1, some np, some np, out.2.withCache (out.2.cache.addReference np)⟩

/-- What the callers rely on. -/
def LockedEnd.Balanced (out : LockedEnd) : Prop :=
  out.state.refcntLock = false ∧
    (out.err = .success → ∃ np, out.npp = some np ∧ out.state.nodeLock np = true)

variable {m : Mount} {c : NodeCache} {rows : Fin inohsz → List NodeId} {live : Finset NodeId}
  {fuel inum : ℕ} {env : LibdiskfsEnv} {np : NodeId} {s : LockedCache}

namespace LockedCache

variable {s' : LockedCache}

theorem spinLock_eq (h : s.spinLock = some s') : s' = { s with refcntLock := true } := by
  unfold spinLock at h
  split at h
  · cases h
  · exact (Option.some.inj h).symm

theorem mutexLock_eq (h : s.mutexLock np = some s') :
    s' = { s with nodeLock := Function.update s.nodeLock np true } := by
  unfold mutexLock at h
  split at h
  · cases h
  · exact (Option.some.inj h).symm

end LockedCache

theorem lockedReadNode_eq (hfree : s.refcntLock = false) (np : NodeId) (catchException : ℕ)
    {found : Option Dinode}
    (hread : m.readInode fuel (s.cache.node np).cacheId = some found) :
    ∃ s', lockedReadNode m fuel catchException np s =
        some (readNodeErr (readNode catchException found), s') ∧
      s'.cache = s.cache.fillStat np (readNode catchException found) ∧
      s'.nodeLock = s.nodeLock ∧
      (s'.refcntLock = true ↔ found ≠ none ∧ catchException ≠ 0) := by
  unfold lockedReadNode LockedCache.spinLock
  rw [hread]
  cases found with
  | none => exact ⟨s, rfl, rfl, rfl, by simp [hfree]⟩
  | some di =>
      by_cases hcatch : catchException = 0
      · refine ⟨(s.withCache (s.cache.fillStat np (.ok di))).spinUnlock, ?_, ?_, rfl, ?_⟩
        · simp [hfree, hcatch, readNode, readNodeErr, LockedCache.withCache,
            LockedCache.spinUnlock]
        · simp [hcatch, readNode, LockedCache.withCache, LockedCache.spinUnlock]
        · simp [hcatch, LockedCache.spinUnlock]
      · refine ⟨{ s with refcntLock := true }, ?_, ?_, rfl, ?_⟩
        · simp [hfree, hcatch, readNode, readNodeErr]
        · simp [hcatch, readNode, NodeCache.fillStat]
        · simp [hcatch]

theorem exists_found_of_lockedReadNode (hfree : s.refcntLock = false) {catchException : ℕ}
    {out : ErrorT × LockedCache}
    (hload : lockedReadNode m fuel catchException np s = some out) :
    ∃ found, m.readInode fuel (s.cache.node np).cacheId = some found ∧
      out.1 = readNodeErr (readNode catchException found) ∧
      out.2.cache = s.cache.fillStat np (readNode catchException found) := by
  cases hread : m.readInode fuel (s.cache.node np).cacheId with
  | none =>
      unfold lockedReadNode at hload
      rw [hread] at hload
      cases hload
  | some found =>
      obtain ⟨s', hload', hcache, -, -⟩ := lockedReadNode_eq hfree np catchException hread
      obtain rfl := Option.some.inj (hload'.symm.trans hload)
      exact ⟨found, rfl, rfl, hcache⟩

section Returns

variable {r : Option NodeId} (hfree : s.refcntLock = false)
  (hsection : lookupSection fuel inum env s.cache = some (sectionEnd s.cache inum env r))

include hfree hsection

theorem lockedLookup_eq :
    lockedLookup m fuel inum env s =
      match sectionEnd s.cache inum env r with
      | .hit np c =>
          (((s.withCache c).spinUnlock).mutexLock np).map fun s => ⟨.success, some np, none, s⟩
      | .noMemory => some ⟨.enomem, none, none, s.spinUnlock⟩
      | .miss np c =>
          (lockedReadNode m fuel env.catchException np
            ((s.withCache c).initLock np).spinUnlock).map fun out =>
              ⟨out.1, some np, some np, out.2.withCache (out.2.cache.addReference np)⟩ := by
  have hlock : s.spinLock = some { s with refcntLock := true } := by
    simp [LockedCache.spinLock, hfree]
  unfold lockedLookup
  rw [hlock, Option.bind_some]
  dsimp only
  rw [hsection, Option.bind_some]
  cases sectionEnd s.cache inum env r <;> rfl

theorem lockedLookup_hit (hr : r = some np) (hunlocked : s.nodeLock np = false) :
    ∃ out, lockedLookup m fuel inum env s = some out ∧ out.Balanced := by
  refine ⟨⟨.success, some np, none, ⟨s.cache.addReference np, false,
    Function.update s.nodeLock np true⟩⟩, ?_, ⟨rfl, fun _ => ⟨np, rfl, ?_⟩⟩⟩
  · rw [lockedLookup_eq hfree hsection, hr]
    simp [sectionEnd, LockedCache.mutexLock, LockedCache.withCache, LockedCache.spinUnlock,
      hunlocked]
  · exact Function.update_self np true s.nodeLock

theorem lockedLookup_noMemory (hr : r = none) (hmem : env.malloc = false ∨ env.makeNode = none) :
    ∃ out, lockedLookup m fuel inum env s = some out ∧ out.Balanced := by
  have hend : sectionEnd s.cache inum env none = .noMemory := by
    unfold sectionEnd
    rcases hmem with hmalloc | hmake
    · rw [hmalloc]
    · rw [hmake]
      cases env.malloc <;> rfl
  refine ⟨⟨.enomem, none, none, s.spinUnlock⟩, ?_, ⟨rfl, by simp⟩⟩
  rw [lockedLookup_eq hfree hsection, hr, hend]

omit hfree hsection in
theorem sectionEnd_miss (hmalloc : env.malloc = true) (hmake : env.makeNode = some np) :
    sectionEnd c inum env none = .miss np (c.insertNode inum np) := by
  unfold sectionEnd
  rw [hmalloc, hmake]

theorem lockedLookup_miss (hr : r = none) (hmalloc : env.malloc = true)
    (hmake : env.makeNode = some np) {found : Option Dinode}
    (hread : m.readInode fuel inum = some found) :
    ∃ out, lockedLookup m fuel inum env s = some out ∧ (out.Balanced ↔ found = none) := by
  have hid : ((s.cache.insertNode inum np).node np).cacheId = inum := by
    rw [insertNode_node_self]
  obtain ⟨s', hload, hcache, hlocks, hrefcnt⟩ := lockedReadNode_eq
    (show (((s.withCache (s.cache.insertNode inum np)).initLock np).spinUnlock).refcntLock = false
      from rfl) np env.catchException (hid.symm ▸ hread)
  have hunlocked : s'.nodeLock np = false := by
    rw [hlocks]
    exact Function.update_self np false s.nodeLock
  refine ⟨⟨readNodeErr (readNode env.catchException found), some np, some np,
    s'.withCache (s'.cache.addReference np)⟩, ?_, ?_⟩
  · rw [lockedLookup_eq hfree hsection, hr, sectionEnd_miss hmalloc hmake]
    simp only [hload, Option.map_some]
  · constructor
    · rintro ⟨hfree', hheld⟩
      by_contra hsome
      obtain ⟨di, rfl⟩ := Option.ne_none_iff_exists'.mp hsome
      by_cases hcatch : env.catchException = 0
      · obtain ⟨np', hnp', hlock⟩ := hheld (by simp [readNode, readNodeErr, hcatch])
        obtain rfl := Option.some.inj hnp'
        have hheld' : s'.nodeLock np = true := hlock
        rw [hunlocked] at hheld'
        cases hheld'
      · have hkept := hrefcnt.mpr ⟨hsome, hcatch⟩
        rw [show s'.refcntLock = false from hfree'] at hkept
        cases hkept
    · rintro rfl
      refine ⟨?_, by simp [readNode, readNodeErr]⟩
      cases hheld : s'.refcntLock with
      | false => exact hheld
      | true => exact absurd rfl (hrefcnt.mp hheld).1

theorem lockedLookup_balanced (hr : TableHas s.cache live inum r)
    (hunlocked : ∀ np ∈ live, (s.cache.node np).cacheId = inum → s.nodeLock np = false)
    (hread : ∀ np, r = none → env.malloc = true → env.makeNode = some np →
      ∃ found, m.readInode fuel inum = some found) :
    ∃ out, lockedLookup m fuel inum env s = some out ∧
      (out.Balanced ↔ (∃ np ∈ live, (s.cache.node np).cacheId = inum) ∨
        env.malloc = false ∨ env.makeNode = none ∨ Unreadable m inum) := by
  cases r with
  | some np =>
      obtain ⟨out, hout, hbalanced⟩ :=
        lockedLookup_hit hfree hsection rfl (hunlocked np hr.1 hr.2)
      exact ⟨out, hout, fun _ => .inl ⟨np, hr.1, hr.2⟩, fun _ => hbalanced⟩
  | none =>
      by_cases hnode : env.malloc = false ∨ env.makeNode = none
      · obtain ⟨out, hout, hbalanced⟩ := lockedLookup_noMemory hfree hsection rfl hnode
        refine ⟨out, hout, fun _ => ?_, fun _ => hbalanced⟩
        rcases hnode with hmalloc | hmake
        · exact .inr (.inl hmalloc)
        · exact .inr (.inr (.inl hmake))
      · rw [not_or] at hnode
        have hmalloc := Bool.eq_true_of_not_eq_false hnode.1
        obtain ⟨np, hmake⟩ := Option.ne_none_iff_exists'.mp hnode.2
        obtain ⟨found, hfound⟩ := hread np rfl hmalloc hmake
        obtain ⟨out, hout, hiff⟩ := lockedLookup_miss hfree hsection rfl hmalloc hmake hfound
        have hunread : found = none ↔ Unreadable m inum := by
          constructor
          · rintro rfl
            exact ⟨fuel, hfound⟩
          · rintro ⟨k, hk⟩
            exact readInode_unique hfound hk
        have hmissing : ¬ ∃ np ∈ live, (s.cache.node np).cacheId = inum := by
          rintro ⟨np', hnp', hid⟩
          exact hr np' hnp' hid
        refine ⟨out, hout, ?_⟩
        rw [hiff, hunread]
        tauto

end Returns

theorem exists_section_of_lockedLookup {out : LockedEnd}
    (h : lockedLookup m fuel inum env s = some out) :
    ∃ part, lookupSection fuel inum env s.cache = some part := by
  obtain ⟨s₁, hlock, h⟩ := Option.bind_eq_some_iff.mp h
  obtain rfl := LockedCache.spinLock_eq hlock
  obtain ⟨part, hsection, -⟩ := Option.bind_eq_some_iff.mp h
  exact ⟨part, hsection⟩

/-- Without its locks this is the lookup on the disk. -/
theorem diskLookup_of_lockedLookup {out : LockedEnd}
    (h : lockedLookup m fuel inum env s = some out) :
    diskLookup m fuel inum env s.cache =
      some ⟨out.err, out.npp, out.created, out.state.cache⟩ := by
  obtain ⟨s₁, hlock, h⟩ := Option.bind_eq_some_iff.mp h
  obtain rfl := LockedCache.spinLock_eq hlock
  obtain ⟨part, hsection, h⟩ := Option.bind_eq_some_iff.mp h
  dsimp only at hsection
  unfold diskLookup
  rw [hsection, Option.bind_some]
  cases part with
  | hit np c =>
      obtain ⟨s₂, hmutex, rfl⟩ := Option.map_eq_some_iff.mp h
      obtain rfl := LockedCache.mutexLock_eq hmutex
      rfl
  | noMemory =>
      obtain rfl := Option.some.inj h
      rfl
  | miss np c =>
      obtain ⟨⟨err, s₂⟩, hload, rfl⟩ := Option.map_eq_some_iff.mp h
      obtain ⟨found, hread, rfl, hcache⟩ := exists_found_of_lockedReadNode rfl hload
      change m.readInode fuel (c.node np).cacheId = some found at hread
      change s₂.cache = c.fillStat np (readNode env.catchException found) at hcache
      simp only [finishLookup, hread, Option.map_some, LockedCache.withCache, hcache]

/-- A lookup that returns leaves the locks as its caller expects them exactly
when it has found the node, made none, or found no inode for the one it made;
and it returns if the search for the inode ends. -/
theorem lookup_balanced_iff (h : CacheRun s.cache live) (hfree : s.refcntLock = false)
    (hunlocked : ∀ np ∈ live, (s.cache.node np).cacheId = inum → s.nodeLock np = false)
    (env : LibdiskfsEnv) :
    (∀ fuel out, lockedLookup m fuel inum env s = some out →
      (out.Balanced ↔ (∃ np ∈ live, (s.cache.node np).cacheId = inum) ∨
        env.malloc = false ∨ env.makeNode = none ∨ Unreadable m inum)) ∧
    ∀ fuel found, m.readInode fuel inum = some found →
      ∃ n, ∀ fuel, n ≤ fuel → ∃ out, lockedLookup m fuel inum env s = some out := by
  obtain ⟨rows, hok⟩ := h.tableOk
  obtain ⟨r, hr⟩ := TableOk.exists_has s.cache live inum
  constructor
  · intro fuel out hout
    obtain ⟨part, hsection⟩ := exists_section_of_lockedLookup hout
    obtain rfl := hok.lookupSection_eq hr hsection
    have hread : ∀ np, r = none → env.malloc = true → env.makeNode = some np →
        ∃ found, m.readInode fuel inum = some found := by
      rintro np rfl hmalloc hmake
      obtain ⟨part, hpart, hfinish⟩ := Option.bind_eq_some_iff.mp (diskLookup_of_lockedLookup hout)
      obtain rfl := hok.lookupSection_eq hr hpart
      rw [sectionEnd_miss hmalloc hmake] at hfinish
      obtain ⟨found, hfound, -⟩ := Option.map_eq_some_iff.mp hfinish
      rw [insertNode_node_self] at hfound
      exact ⟨found, hfound⟩
    obtain ⟨out', hout', hiff⟩ := lockedLookup_balanced hfree hsection hr hunlocked hread
    obtain rfl := Option.some.inj (hout.symm.trans hout')
    exact hiff
  · intro fuel found hread
    refine ⟨max fuel ((rows (inohash inum)).length + 1), fun k hk => ?_⟩
    have hsection := hok.lookupSection hr (show _ < k by omega) env
    obtain ⟨out, hout, -⟩ := lockedLookup_balanced hfree hsection hr hunlocked
      fun _ _ _ _ => ⟨found, readInode_of_le hread (show fuel ≤ k by omega)⟩
    exact ⟨out, hout⟩

def freshLocks : LockedCache := ⟨inodeInit blankCache, false, fun _ => false⟩

/-- The table after the lookup of inode 64, which cannot be read, has made node 1. -/
def unreadLocks : LockedCache :=
  ⟨(((inodeInit blankCache).insertNode 64 1).fillStat 1 (.error 1)).addReference 1, false,
    fun _ => false⟩

theorem unreadLocks_run : CacheRun unreadLocks.cache {1} :=
  @CacheRun.lookup _ ∅ 1 64 ⟨true, some 1, .error 1⟩ _ (.init blankCache) (by simp) rfl

/-- Inode 64 is looked up when it is not in the table, and when it is: then the
caller comes to hold the lock of its node. -/
theorem lookup_balanced_found :
    (∃ n, ∀ fuel, n ≤ fuel → ∃ out,
      lockedLookup twoLeafMount fuel 64 (givingEnv 1) freshLocks = some out ∧ out.Balanced) ∧
    ∃ out, lockedLookup twoLeafMount 3 64 (givingEnv 2) unreadLocks = some out ∧
      out.err = .success ∧ out.state.refcntLock = false ∧
      ∃ np, out.npp = some np ∧ out.state.nodeLock np = true := by
  obtain ⟨k, hread⟩ := twoLeafMount_unreadable
  constructor
  · obtain ⟨hbalanced, hreturns⟩ := @lookup_balanced_iff twoLeafMount ∅ 64 freshLocks
      (.init blankCache) rfl (by simp) (givingEnv 1)
    obtain ⟨n, hn⟩ := hreturns k none hread
    refine ⟨n, fun fuel hfuel => ?_⟩
    obtain ⟨out, hout⟩ := hn fuel hfuel
    exact ⟨out, hout, (hbalanced fuel out hout).mpr (.inr (.inr (.inr ⟨k, hread⟩)))⟩
  · obtain ⟨hbalanced, -⟩ := @lookup_balanced_iff twoLeafMount {1} 64 unreadLocks
      unreadLocks_run rfl (fun _ _ _ => rfl) (givingEnv 2)
    obtain ⟨hfree, hheld⟩ :=
      (hbalanced 3 _ rfl).mpr (.inl ⟨1, Finset.mem_singleton_self 1, rfl⟩)
    exact ⟨_, rfl, rfl, hfree, hheld rfl⟩

/-- Two lookups of inode 2 in an empty table: one returns its node without the
lock of it, and the other, for which no exception can be caught, returns with
`diskfs_node_refcnt_lock` held. -/
theorem new_node_not_locked :
    CacheRun freshLocks.cache ∅ ∧
      (∃ out, lockedLookup twoLeafMount 3 2 (givingEnv 1) freshLocks = some out ∧
        out.err = .success ∧ out.npp = some 1 ∧ out.state.nodeLock 1 = false) ∧
      ∃ out, lockedLookup twoLeafMount 3 2 ⟨true, some 1, 5⟩ freshLocks = some out ∧
        out.err = .code 5 ∧ out.state.refcntLock = true :=
  ⟨.init blankCache, ⟨_, rfl, rfl, rfl, rfl⟩, _, rfl, rfl, rfl⟩

end JfsReader
