import JfsReader.LookupThreads

/-!
# Lookups keep to the lock order

The order is from a directory to its entries, with the node of inode `-1`, which
is what ".." comes to, below them all.  As long as only names are looked up that
are found or reported as missing, or "..", and no two scans overlap, no lookup
waits for ever.
-/

namespace JfsReader

open FileService LockOrder

variable {m : Mount} {store : Store} {w : WordSize}
  {fs : FileSystem ℕ (List UInt8) Stat UInt8} {s s' s₀ : ThreadSystem} {q : LookupCall}
  {parent : Bool} {np : NodeId} {i j inum : ℕ} {name : List UInt8} {err : ErrorT}
  {npp : Option NodeId}

/-! ## Accepted names -/

/-- Names that are found or reported as missing, and ".." in a directory that has
entries, none of which begins with it. -/
inductive AcceptedName (fs : FileSystem ℕ (List UInt8) Stat UInt8) (inum : ℕ) :
    List UInt8 → Prop
  | leads {name : List UInt8} {j : ℕ} : fs.Leads jfsNaming inum name j → AcceptedName fs inum name
  | misses {name : List UInt8} : fs.Misses jfsNaming inum name → AcceptedName fs inum name
  | parent {entries : List (List UInt8 × ℕ)} : fs.object inum = some (.directory entries) →
      entries ≠ [] → entries.find? (fun e => jfsNaming.answers e.1 dotdot) = none →
      AcceptedName fs inum dotdot

def AcceptedCall (fs : FileSystem ℕ (List UInt8) Stat UInt8) (s : ThreadSystem)
    (q : LookupCall) : Prop :=
  AcceptedName fs (s.cache.node q.dp).cacheId q.name

/-- What `dirscan` makes of an accepted name. -/
inductive ScanFinds (fs : FileSystem ℕ (List UInt8) Stat UInt8) (inum : ℕ) :
    List UInt8 → ErrorT → ℕ → Prop
  | missing {name : List UInt8} : fs.Misses jfsNaming inum name →
      ScanFinds fs inum name .enoent noInum
  | self {j : ℕ} : fs.Leads jfsNaming inum [46] inum → ScanFinds fs inum [46] .success j
  | entry {name : List UInt8} {j : ℕ} : fs.Leads jfsNaming inum name j → name ≠ [46] →
      OrdinaryName name → ScanFinds fs inum name .success j
  | parent : ScanFinds fs inum dotdot .success noInum

theorem Represents.dirscan_dotdot (hfs : Represents m store w fs)
    {entries : List (List UInt8 × ℕ)} (hdir : fs.object inum = some (.directory entries))
    (hne : entries ≠ []) (hfind : entries.find? (fun e => jfsNaming.answers e.1 dotdot) = none)
    (gotinum : ℕ) :
    Ends (fun fuel => dirscan m fuel inum dotdot dotdot.length gotinum) (.success, noInum) := by
  obtain ⟨es, hes, -, rfl⟩ := hfs.directory hdir
  have hvalid : ∀ b ∈ dotdot, b ≠ 0 := by simp [dotdot]
  rw [find?_pair hvalid, Option.map_eq_none_iff] at hfind
  have hresult : lookupResult es dotdot gotinum = noInum := by
    unfold lookupResult
    rw [hfind]
    exact if_neg fun hempty => hne (by rw [hempty]; rfl)
  have hends := hes.dirscan_ends hfs.memory dotdot gotinum
  rwa [hresult, if_neg fun hcond => hcond.1 rfl] at hends

theorem AcceptedName.scans (h : AcceptedName fs inum name) (hfs : Represents m store w fs)
    (gotinum : ℕ) :
    ∃ err j, ScanFinds fs inum name err j ∧
      Ends (fun fuel => dirscan m fuel inum name name.length gotinum) (err, j) := by
  cases h with
  | @leads _ j hleads =>
      by_cases hself : name = [46]
      · subst hself
        cases hleads with
        | self hdir =>
            obtain ⟨es, hes, -, -⟩ := hfs.directory hdir
            have hdot : ([46] : List UInt8).getD 0 0 = 46 := rfl
            obtain ⟨g, hends⟩ := hes.dirscan_dotted hfs.memory hdot gotinum
            exact ⟨_, g, .self (.self hdir), hends⟩
        | entry _ _ hne => exact absurd rfl hne
      · obtain ⟨hname, hends, -⟩ := hfs.dirscan_leads hleads hself gotinum
        exact ⟨_, _, .entry hleads hself hname, hends⟩
  | misses hmisses => exact ⟨_, _, .missing hmisses, hfs.dirscan_misses hmisses gotinum⟩
  | parent hdir hne hfind => exact ⟨_, _, .parent, hfs.dirscan_dotdot hdir hne hfind gotinum⟩

theorem AcceptedCall.finds (h : AcceptedCall fs s q) (hfs : Represents m store w fs)
    (hscans : Scans m s q err inum) :
    ScanFinds fs (s.cache.node q.dp).cacheId q.name err inum := by
  obtain ⟨gotinum, hends⟩ := hscans
  obtain ⟨err', j, hfinds, hends'⟩ := AcceptedName.scans h hfs gotinum
  cases hends.unique hends'
  exact hfinds

theorem AcceptedName.directory (h : AcceptedName fs inum name) :
    ∃ entries, fs.object inum = some (.directory entries) := by
  cases h with
  | leads hleads =>
      cases hleads with
      | self hdir => exact ⟨_, hdir⟩
      | entry hdir => exact ⟨_, hdir⟩
  | misses hmisses =>
      obtain ⟨entries, hdir, -⟩ := hmisses
      exact ⟨entries, hdir⟩
  | parent hdir => exact ⟨_, hdir⟩

/-! ## The invariant -/

/-- The inode that a lookup has come to. -/
inductive LookupCall.Seeks (fs : FileSystem ℕ (List UInt8) Stat UInt8) (s : ThreadSystem)
    (q : LookupCall) : Bool → ℕ → Prop
  | parent : q.name = dotdot → q.dp ≠ s.diskfsRootNode → LookupCall.Seeks fs s q true noInum
  | entry {j : ℕ} : fs.Leads jfsNaming (s.cache.node q.dp).cacheId q.name j → q.name ≠ [46] →
      LookupCall.Seeks fs s q false j

/-- What a lookup returns. -/
inductive LookupCall.Answered (fs : FileSystem ℕ (List UInt8) Stat UInt8) (s : ThreadSystem)
    (q : LookupCall) : ErrorT → Option NodeId → Prop
  | found {np : NodeId} : np ∈ s.live →
      fs.Leads jfsNaming (s.cache.node q.dp).cacheId q.name (s.cache.node np).cacheId →
      LookupCall.Answered fs s q .success (some np)
  | missing : fs.Misses jfsNaming (s.cache.node q.dp).cacheId q.name →
      LookupCall.Answered fs s q .enoent none
  | noMemory {j : ℕ} : fs.Leads jfsNaming (s.cache.node q.dp).cacheId q.name j →
      q.name ≠ [46] → LookupCall.Answered fs s q .enomem none
  | again : q.name = dotdot → q.dp = s.diskfsRootNode → LookupCall.Answered fs s q .eagain none
  | parent {npp : Option NodeId} : q.name = dotdot → q.dp ≠ s.diskfsRootNode →
      (∀ np ∈ npp, np ∈ s.live ∧ (s.cache.node np).cacheId = noInum) →
      LookupCall.Answered fs s q .success npp

def LookupCall.Ok (fs : FileSystem ℕ (List UInt8) Stat UInt8) (s : ThreadSystem)
    (q : LookupCall) : Prop :=
  q.dp ∈ s.live ∧ AcceptedCall fs s q

def ThreadPhase.Ok (fs : FileSystem ℕ (List UInt8) Stat UInt8) (s : ThreadSystem) :
    ThreadPhase → Prop
  | .idle => True
  | .entering q | .scanning q => q.Ok fs s
  | .looking q parent inum => q.Ok fs s ∧ q.Seeks fs s parent inum
  | .locking q parent np | .loading q parent np =>
      q.Ok fs s ∧ np ∈ s.live ∧ q.Seeks fs s parent (s.cache.node np).cacheId
  | .relocking q npp => q.Ok fs s ∧ q.name = dotdot ∧ q.dp ≠ s.diskfsRootNode ∧
      ∀ np ∈ npp, np ∈ s.live ∧ (s.cache.node np).cacheId = noInum
  | .returned q err npp => q.Ok fs s ∧ q.Answered fs s err npp

structure ThreadsOk (fs : FileSystem ℕ (List UInt8) Stat UInt8) (s : ThreadSystem) : Prop where
  apart : s.ScansApart
  unraced : s.Unraced
  table : s.HasTable
  phases : ∀ i, (s.phase i).Ok fs s
  locked : s.LocksHeld
  busy : ∃ T : Finset ℕ, ∀ i, s.phase i ≠ .idle → i ∈ T

section Grows

variable (hgrows : Grows s s')

include hgrows

theorem LookupCall.Ok.mono (h : q.Ok fs s) : q.Ok fs s' := by
  refine ⟨hgrows.live h.1, ?_⟩
  unfold AcceptedCall
  rw [hgrows.cacheId h.1]
  exact h.2

theorem LookupCall.Seeks.mono (h : q.Seeks fs s parent inum) (hdp : q.dp ∈ s.live) :
    q.Seeks fs s' parent inum := by
  cases h with
  | parent hname hroot => exact .parent hname (hgrows.root ▸ hroot)
  | entry hleads hself =>
      refine .entry ?_ hself
      rwa [hgrows.cacheId hdp]

theorem Grows.inode {k : ℕ} (h : ∀ np ∈ npp, np ∈ s.live ∧ (s.cache.node np).cacheId = k) :
    ∀ np ∈ npp, np ∈ s'.live ∧ (s'.cache.node np).cacheId = k := by
  intro np hnp
  obtain ⟨hlive, hid⟩ := h np hnp
  exact ⟨hgrows.live hlive, (hgrows.cacheId hlive).trans hid⟩

theorem LookupCall.Answered.mono (h : q.Answered fs s err npp) (hdp : q.dp ∈ s.live) :
    q.Answered fs s' err npp := by
  have hid := hgrows.cacheId hdp
  cases h with
  | found hlive hleads =>
      refine .found (hgrows.live hlive) ?_
      rwa [hid, hgrows.cacheId hlive]
  | missing hmisses => exact .missing (hid ▸ hmisses)
  | noMemory hleads hself => exact .noMemory (hid ▸ hleads) hself
  | again hname hroot => exact .again hname (hgrows.root ▸ hroot)
  | parent hname hroot hnpp => exact .parent hname (hgrows.root ▸ hroot) (hgrows.inode hnpp)

theorem ThreadPhase.Ok.mono {p : ThreadPhase} (h : p.Ok fs s) : p.Ok fs s' := by
  cases p with
  | idle => trivial
  | entering q => exact LookupCall.Ok.mono hgrows h
  | scanning q => exact LookupCall.Ok.mono hgrows h
  | looking q parent inum => exact ⟨h.1.mono hgrows, h.2.mono hgrows h.1.1⟩
  | locking q parent np =>
      obtain ⟨hq, hlive, hseeks⟩ := h
      refine ⟨hq.mono hgrows, hgrows.live hlive, ?_⟩
      rw [hgrows.cacheId hlive]
      exact hseeks.mono hgrows hq.1
  | loading q parent np =>
      obtain ⟨hq, hlive, hseeks⟩ := h
      refine ⟨hq.mono hgrows, hgrows.live hlive, ?_⟩
      rw [hgrows.cacheId hlive]
      exact hseeks.mono hgrows hq.1
  | relocking q npp =>
      obtain ⟨hq, hname, hroot, hnpp⟩ := h
      exact ⟨hq.mono hgrows, hname, hgrows.root ▸ hroot, hgrows.inode hnpp⟩
  | returned q err npp => exact ⟨h.1.mono hgrows, h.2.mono hgrows h.1.1⟩

end Grows

theorem ScanFinds.refused (h : ScanFinds fs inum name err j) (herr : err ≠ .success) :
    err = .enoent ∧ fs.Misses jfsNaming inum name := by
  cases h with
  | missing hmisses => exact ⟨rfl, hmisses⟩
  | _ => exact absurd rfl herr

theorem ScanFinds.branch (h : ScanFinds fs inum name .success j) (rootNode dp : NodeId) :
    match nameBranch rootNode dp name with
    | .again => name = dotdot ∧ dp = rootNode
    | .parent => name = dotdot ∧ dp ≠ rootNode ∧ j = noInum
    | .self => fs.Leads jfsNaming inum name inum
    | .entry => fs.Leads jfsNaming inum name j ∧ name ≠ [46] := by
  cases h with
  | self hleads => exact hleads
  | entry hleads hself hname =>
      rw [nameBranch_ordinary hname]
      exact ⟨hleads, hself⟩
  | parent =>
      by_cases hdp : dp = rootNode
      · rw [show nameBranch rootNode dp dotdot = .again from if_pos hdp]
        exact ⟨rfl, hdp⟩
      · rw [nameBranch_dotdot hdp]
        exact ⟨rfl, hdp, rfl⟩

theorem LookupCall.Seeks.afterLookup (hseeks : q.Seeks fs s parent inum) (hq : q.Ok fs s)
    (hnpp : ∀ np ∈ npp, np ∈ s.live ∧ (s.cache.node np).cacheId = inum)
    (herr : parent = false →
      (err = .success ∧ ∃ np, npp = some np) ∨ (err = .enomem ∧ npp = none)) :
    (ThreadPhase.afterLookup q parent err npp).Ok fs s := by
  cases hseeks with
  | parent hname hroot => exact ⟨hq, hname, hroot, hnpp⟩
  | entry hleads hself =>
      refine ⟨hq, ?_⟩
      rcases herr rfl with ⟨rfl, np, rfl⟩ | ⟨rfl, rfl⟩
      · obtain ⟨hlive, hid⟩ := hnpp np rfl
        exact .found hlive (hid.symm ▸ hleads)
      · exact .noMemory hleads hself

/-- The inode of an entry can be read. -/
theorem LookupCall.Seeks.readInode (hseeks : q.Seeks fs s parent inum)
    (hfs : Represents m store w fs) (hminus : Unreadable m noInum) :
    ∃ k found, m.readInode k inum = some found ∧ (parent = false → ∃ di, found = some di) := by
  cases hseeks with
  | parent =>
      obtain ⟨k, hk⟩ := hminus
      exact ⟨k, none, hk, by simp⟩
  | entry hleads hself =>
      obtain ⟨-, -, o, ho⟩ := hfs.dirscan_leads hleads hself 0
      obtain ⟨di, ⟨k, hk⟩, -⟩ := hfs.inode ho
      exact ⟨k, some di, hk, fun _ => ⟨di, rfl⟩⟩

theorem ThreadStep.ok (hfs : Represents m store w fs) (hminus : Unreadable m noInum)
    (htable : s.HasTable) (hunraced : s.Unraced) (hok : (s.phase i).Ok fs s)
    (hstep : ThreadStep m i s s') : (s'.phase i).Ok fs s' := by
  have hgrows := (hstep.grows htable).2
  obtain ⟨rows, htable⟩ := htable
  cases hstep with
  | enter hphase =>
      rw [hphase] at hok
      rw [ThreadSystem.setPhase_self]
      exact LookupCall.Ok.mono hgrows hok
  | refuse hphase hscans herr =>
      rw [hphase] at hok
      rw [ThreadSystem.setPhase_self]
      have hscan := hscans.resolve_right (hunraced i ⟨_, hphase⟩)
      obtain ⟨rfl, hmisses⟩ := (hok.2.finds hfs hscan).refused herr
      exact ThreadPhase.Ok.mono hgrows (p := .returned _ _ _) ⟨hok, .missing hmisses⟩
  | @again q inum hphase hscans hbranch =>
      rw [hphase] at hok
      rw [ThreadSystem.setPhase_self]
      have hscan := hscans.resolve_right (hunraced i ⟨_, hphase⟩)
      have hfinds := (hok.2.finds hfs hscan).branch s.diskfsRootNode q.dp
      rw [hbranch] at hfinds
      obtain ⟨hname, hroot⟩ := hfinds
      exact ThreadPhase.Ok.mono hgrows (p := .returned _ _ _) ⟨hok, .again hname hroot⟩
  | @parent q inum hphase hscans hbranch =>
      rw [hphase] at hok
      rw [ThreadSystem.setPhase_self]
      have hscan := hscans.resolve_right (hunraced i ⟨_, hphase⟩)
      have hfinds := (hok.2.finds hfs hscan).branch s.diskfsRootNode q.dp
      rw [hbranch] at hfinds
      obtain ⟨hname, hroot, rfl⟩ := hfinds
      exact ThreadPhase.Ok.mono hgrows (p := .looking _ _ _) ⟨hok, .parent hname hroot⟩
  | @self q inum hphase hscans hbranch =>
      rw [hphase] at hok
      rw [ThreadSystem.setPhase_self]
      have hscan := hscans.resolve_right (hunraced i ⟨_, hphase⟩)
      have hleads := (hok.2.finds hfs hscan).branch s.diskfsRootNode q.dp
      rw [hbranch] at hleads
      exact ThreadPhase.Ok.mono hgrows (p := .returned _ _ _) ⟨hok, .found hok.1 hleads⟩
  | @entry q inum hphase hscans hbranch =>
      rw [hphase] at hok
      rw [ThreadSystem.setPhase_self]
      have hscan := hscans.resolve_right (hunraced i ⟨_, hphase⟩)
      have hfinds := (hok.2.finds hfs hscan).branch s.diskfsRootNode q.dp
      rw [hbranch] at hfinds
      obtain ⟨hleads, hself⟩ := hfinds
      exact ThreadPhase.Ok.mono hgrows (p := .looking _ _ _) ⟨hok, .entry hleads hself⟩
  | hit hphase hsection =>
      rw [hphase] at hok
      rw [ThreadSystem.setPhase_self]
      obtain ⟨np, hlive, rfl, hpart⟩ | hpart | ⟨np, -, -, hpart⟩ :=
        htable.lookupSection_cases hsection
      · cases hpart
        exact ThreadPhase.Ok.mono hgrows (p := .locking _ _ _) ⟨hok.1, hlive, hok.2⟩
      · cases hpart
      · cases hpart
  | noMemory hphase hsection =>
      rw [hphase] at hok
      rw [ThreadSystem.setPhase_self]
      exact .mono hgrows (hok.2.afterLookup hok.1 (by simp) fun _ => .inr ⟨rfl, rfl⟩)
  | @miss q parent inum fuel env np c hphase hsection hfresh =>
      rw [hphase] at hok
      rw [ThreadSystem.setPhase_self]
      obtain ⟨np, -, -, hpart⟩ | hpart | ⟨np, -, -, hpart⟩ := htable.lookupSection_cases hsection
      · cases hpart
      · cases hpart
      · obtain ⟨rfl, rfl⟩ := LookupSection.miss.inj hpart
        refine ⟨hok.1.mono hgrows, Finset.mem_insert_self _ _, ?_⟩
        change q.Seeks fs _ parent ((s.cache.insertNode inum np).node np).cacheId
        rw [insertNode_node_self]
        exact hok.2.mono hgrows hok.1.1
  | lock hphase =>
      rw [hphase] at hok
      rw [ThreadSystem.setPhase_self]
      obtain ⟨hq, hlive, hseeks⟩ := hok
      refine .mono hgrows (hseeks.afterLookup hq ?_ fun _ => .inl ⟨rfl, _, rfl⟩)
      simpa using hlive
  | load hphase hread =>
      rw [hphase] at hok
      rw [ThreadSystem.setPhase_self]
      obtain ⟨hq, hlive, hseeks⟩ := hok
      refine .mono hgrows (hseeks.afterLookup hq ?_ fun hparent => .inl ⟨?_, _, rfl⟩)
      · simpa using hlive
      · obtain ⟨k, found, hfound, hentry⟩ := hseeks.readInode hfs hminus
        obtain rfl := readInode_unique hread hfound
        obtain ⟨di, rfl⟩ := hentry hparent
        rfl
  | relock hphase =>
      rw [hphase] at hok
      rw [ThreadSystem.setPhase_self]
      obtain ⟨hq, hname, hroot, hnpp⟩ := hok
      exact ThreadPhase.Ok.mono hgrows (p := .returned _ _ _) ⟨hq, .parent hname hroot hnpp⟩
  | leave =>
      rw [ThreadSystem.setPhase_self]
      trivial

theorem ThreadsOk.of_changes (h : ThreadsOk fs s) (hchanges : Changes i s s')
    (hapart : s'.ScansApart) (hunraced : s'.Unraced) (htable : s'.HasTable)
    (hgrows : Grows s s') (hphase : (s'.phase i).Ok fs s') : ThreadsOk fs s' where
  apart := hapart
  unraced := hunraced
  table := htable
  phases := fun j => by
    by_cases heq : j = i
    · rwa [heq]
    · rw [hchanges.others j heq]
      exact (h.phases j).mono hgrows
  locked := hchanges.locksHeld h.locked
  busy := by
    obtain ⟨T, hT⟩ := h.busy
    refine ⟨insert i T, fun j hj => ?_⟩
    by_cases heq : j = i
    · rw [heq]
      exact Finset.mem_insert_self _ _
    · rw [hchanges.others j heq] at hj
      exact Finset.mem_insert_of_mem (hT j hj)

theorem ThreadsOk.thread (h : ThreadsOk fs s) (hfs : Represents m store w fs)
    (hminus : Unreadable m noInum) (hstep : ThreadStep m i s s') (hapart : s'.ScansApart) :
    ThreadsOk fs s' := by
  obtain ⟨htable, hgrows⟩ := hstep.grows h.table
  exact h.of_changes hstep.changes hapart (hstep.unraced h.unraced hapart) htable hgrows
    (hstep.ok hfs hminus h.table h.unraced (h.phases i))

/-- The node that a client has been given is one that it can go on with. -/
theorem LookupCall.Answered.mem_live (h : q.Answered fs s .success (some np)) : np ∈ s.live := by
  cases h with
  | found hlive => exact hlive
  | parent _ _ hnpp => exact (hnpp np rfl).1

theorem ThreadsOk.client (h : ThreadsOk fs s) (hstep : ClientStep (AcceptedCall fs) i s s')
    (hapart : s'.ScansApart) : ThreadsOk fs s' := by
  obtain ⟨htable, hgrows⟩ := hstep.grows h.table
  refine h.of_changes hstep.changes hapart (hstep.unraced h.unraced hapart) htable hgrows ?_
  cases hstep with
  | @call q _ hlive haccepted =>
      rw [ThreadSystem.setPhase_self]
      exact LookupCall.Ok.mono hgrows ⟨hlive, haccepted⟩
  | @follow q np name hphase haccepted =>
      have hok := h.phases i
      rw [hphase] at hok
      rw [ThreadSystem.setPhase_self]
      exact LookupCall.Ok.mono hgrows ⟨hok.2.mem_live, haccepted⟩

def ThreadSystem.waiting (s : ThreadSystem) : Waiting ℕ NodeId where
  holds := fun i np => np ∈ (s.phase i).held
  wants := fun i np => (s.phase i).target = some np ∧ s.nodeLock np = true

/-- The inode `-1` is below the directories, and they are below what is in
them. -/
def lockRank (depth : ℕ → ℕ) (inum : ℕ) : ℕ := if inum = noInum then 0 else depth inum + 1

/-- Every directory is above its entries: there is no cycle. -/
def Descends (fs : FileSystem ℕ (List UInt8) Stat UInt8) (depth : ℕ → ℕ) : Prop :=
  ∀ {i entries e}, fs.object i = some (.directory entries) → e ∈ entries → depth i < depth e.2

section Order

variable {depth : ℕ → ℕ}

theorem lockRank_noInum : lockRank depth noInum = 0 := if_pos rfl

theorem Represents.lockRank_of_object (hfs : Represents m store w fs)
    (hminus : Unreadable m noInum) {o : FileObject ℕ (List UInt8) UInt8}
    (ho : fs.object inum = some o) : lockRank depth inum = depth inum + 1 := by
  refine if_neg ?_
  rintro rfl
  obtain ⟨di, hread, -⟩ := hfs.inode ho
  exact hminus.not_readsInode hread

theorem Represents.lockRank_lt (hfs : Represents m store w fs) (hminus : Unreadable m noInum)
    (hdepth : Descends fs depth) (hleads : fs.Leads jfsNaming inum name j) (hself : name ≠ [46]) :
    lockRank depth inum < lockRank depth j := by
  cases hleads with
  | self => exact absurd rfl hself
  | entry hdir _ _ _ hfind =>
      have hmem := List.mem_of_find?_eq_some hfind
      obtain ⟨o, ho⟩ := fs.closed hdir hmem
      rw [hfs.lockRank_of_object hminus hdir, hfs.lockRank_of_object hminus ho]
      exact Nat.succ_lt_succ (hdepth hdir hmem)

theorem ThreadsOk.ordered (h : ThreadsOk fs s) (hfs : Represents m store w fs)
    (hminus : Unreadable m noInum) (hdepth : Descends fs depth) :
    s.waiting.Ordered fun np => lockRank depth (s.cache.node np).cacheId := by
  rintro i a b hholds ⟨htarget, -⟩
  have hok := h.phases i
  change a ∈ (s.phase i).held at hholds
  cases hphase : s.phase i with
  | entering q =>
      rw [hphase] at hholds
      cases hholds
  | locking q parent np =>
      rw [hphase] at hholds htarget hok
      obtain rfl := Option.some.inj htarget
      obtain ⟨-, -, hseeks⟩ := hok
      dsimp only
      generalize (s.cache.node np).cacheId = inum at hseeks
      cases hseeks with
      | parent => cases hholds
      | entry hleads hself =>
          obtain rfl : a = q.dp := List.mem_singleton.mp hholds
          exact hfs.lockRank_lt hminus hdepth hleads hself
  | relocking q npp =>
      rw [hphase] at hholds htarget hok
      obtain rfl := Option.some.inj htarget
      obtain ⟨⟨-, haccepted⟩, -, -, hnpp⟩ := hok
      obtain ⟨-, hid⟩ := hnpp a (by simpa [ThreadPhase.held] using hholds)
      obtain ⟨entries, hdir⟩ := haccepted.directory
      dsimp only
      rw [hid, lockRank_noInum, hfs.lockRank_of_object hminus hdir]
      exact Nat.succ_pos _
  | _ =>
      rw [hphase] at htarget
      cases htarget

theorem ThreadsOk.held (h : ThreadsOk fs s) : s.waiting.Held := fun hwants => h.locked hwants.2

theorem ThreadsOk.looking_step (h : ThreadsOk fs s) (hphase : s.phase i = .looking q parent inum) :
    ∃ s', ThreadStep m i s s' := by
  obtain ⟨rows, htable⟩ := h.table
  obtain ⟨r, hr⟩ := TableOk.exists_has s.cache s.live inum
  obtain ⟨np, hnp⟩ := Infinite.exists_notMem_finset s.live
  have hsection := htable.lookupSection hr (Nat.lt_succ_self _) ⟨true, some np, 0⟩
  cases r with
  | some np' => exact ⟨_, .hit hphase hsection⟩
  | none => exact ⟨_, .miss hphase hsection hnp⟩

theorem ThreadsOk.scanning_step (h : ThreadsOk fs s) (hfs : Represents m store w fs)
    (hphase : s.phase i = .scanning q) : ∃ s', ThreadStep m i s s' := by
  have hok := h.phases i
  rw [hphase] at hok
  obtain ⟨err, j, -, hends⟩ := AcceptedName.scans hok.2 hfs 0
  have hscans : ScanEnds m s i q err j := .inl ⟨0, hends⟩
  by_cases herr : err = .success
  · subst herr
    cases hbranch : nameBranch s.diskfsRootNode q.dp q.name with
    | again => exact ⟨_, .again hphase hscans hbranch⟩
    | parent => exact ⟨_, .parent hphase hscans hbranch⟩
    | self => exact ⟨_, .self hphase hscans hbranch⟩
    | entry => exact ⟨_, .entry hphase hscans hbranch⟩
  · exact ⟨_, .refuse hphase hscans herr⟩

/-- A thread that is in a lookup and not blocked can go on. -/
theorem ThreadsOk.exists_step (h : ThreadsOk fs s) (hfs : Represents m store w fs)
    (hminus : Unreadable m noInum) (hbusy : s.phase i ≠ .idle) (hfree : ¬ s.waiting.Blocked i) :
    ∃ s', ThreadStep m i s s' := by
  have hunlocked : ∀ np, (s.phase i).target = some np → s.nodeLock np = false := by
    intro np htarget
    by_contra hlocked
    exact hfree ⟨np, htarget, Bool.eq_true_of_not_eq_false hlocked⟩
  cases hphase : s.phase i with
  | idle => exact absurd hphase hbusy
  | entering q => exact ⟨_, .enter hphase (hunlocked _ (by rw [hphase]; rfl))⟩
  | scanning q => exact h.scanning_step hfs hphase
  | looking q parent inum => exact h.looking_step hphase
  | locking q parent np => exact ⟨_, .lock hphase (hunlocked _ (by rw [hphase]; rfl))⟩
  | loading q parent np =>
      have hok := h.phases i
      rw [hphase] at hok
      obtain ⟨k, found, hread, -⟩ := hok.2.2.readInode hfs hminus
      exact ⟨_, .load hphase hread⟩
  | relocking q npp => exact ⟨_, .relock hphase (hunlocked _ (by rw [hphase]; rfl))⟩
  | returned q err npp => exact ⟨_, .leave hphase⟩

/-- At most this many steps are left of a lookup. -/
def ThreadPhase.rest : ThreadPhase → ℕ
  | idle => 0
  | returned .. => 1
  | relocking .. => 2
  | locking .. | loading .. => 3
  | looking .. => 4
  | scanning _ => 5
  | entering _ => 6

theorem ThreadPhase.rest_afterLookup (q : LookupCall) (parent : Bool) (err : ErrorT)
    (npp : Option NodeId) : (ThreadPhase.afterLookup q parent err npp).rest ≤ 2 := by
  cases parent
  · exact Nat.le_succ 1
  · exact le_refl 2

theorem ThreadStep.rest_lt (hstep : ThreadStep m i s s') :
    (s'.phase i).rest < (s.phase i).rest := by
  cases hstep with
  | noMemory hphase =>
      rw [hphase, ThreadSystem.setPhase_self]
      exact (ThreadPhase.rest_afterLookup ..).trans_lt (by simp [ThreadPhase.rest])
  | lock hphase =>
      rw [hphase, ThreadSystem.setPhase_self]
      exact (ThreadPhase.rest_afterLookup ..).trans_lt (by simp [ThreadPhase.rest])
  | load hphase =>
      rw [hphase, ThreadSystem.setPhase_self]
      exact (ThreadPhase.rest_afterLookup ..).trans_lt (by simp [ThreadPhase.rest])
  | _ hphase =>
      rw [hphase, ThreadSystem.setPhase_self]
      simp [ThreadPhase.rest]

theorem ThreadStep.busy (hstep : ThreadStep m i s s') : s.phase i ≠ .idle := by
  intro hidle
  have hlt := hstep.rest_lt
  rw [hidle] at hlt
  exact Nat.not_lt_zero _ hlt

theorem ThreadStep.idle (hstep : ThreadStep m i s s') (hidle : s.phase j = .idle) :
    s'.phase j = .idle := by
  rwa [hstep.changes.others j fun heq => hstep.busy (heq ▸ hidle)]

end Order

/-! Lookups of "a" in the root directory. -/

end JfsReader
