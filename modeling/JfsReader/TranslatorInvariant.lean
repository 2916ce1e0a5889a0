import JfsReader.BufferConservation
import JfsReader.PageMemory
import JfsReader.TranslatorRefinement

/-!
# The translator on any disk

Nothing is assumed of the disk here: what holds of the node table, of the page
buffers and of the answers on a disk that may be damaged in any way, as long as
the clients name nodes that are not freed and give back what they hold, and no
listing comes to a name that is longer than the buffer for it.
-/

namespace JfsReader

open RequestServer FileService WriteBuffer

/-- What has been handed out of each node and has not been given back. -/
def countHandles (handles : NodeId → ℕ) : Call → Reply → NodeId → ℕ
  | _, .lookup _ (some np) => Function.update handles np (handles np + 1)
  | .diskfsNput np, .released => Function.update handles np (handles np - 1)
  | _, _ => handles

def Call.KeepsHandles (live : Finset NodeId) (handles : NodeId → ℕ) : Call → Prop
  | .diskfsLookupHard dp _ _ _ makeNode _ => dp ∈ live ∧ ∀ np, makeNode = some np → np ∉ live
  | .diskfsGetDirects dp _ _ _ _ => dp ∈ live
  | .pagerReadPage np _ _ => np ∈ live
  | .dnStat np => np ∈ live
  | .diskfsNput np => 0 < handles np

/-- The node is filled from its inode, or its inode cannot be read. -/
def ShowsInode (m : Mount) (n : Node) : Prop :=
  match n.dnStat with
  | some di => ReadsInode m n.cacheId di
  | none => Unreadable m n.cacheId

structure TranslatorOk (m : Mount) (rootNode : NodeId) (s : TranslatorState)
    (handles : NodeId → ℕ) : Prop where
  table : ∃ rows, HandlesOk s.cache rows s.live handles
  nodes : ∀ np ∈ s.live, ShowsInode m (s.cache.node np)
  pool : ∃ free, PoolOk s.pool free none
  root : s.diskfsRootNode = rootNode
  root_mem : rootNode ∈ s.live
  root_cacheId : (s.cache.node rootNode).cacheId = 2

/-- No node goes away or changes. -/
structure NodesStay (c : NodeCache) (live : Finset NodeId) (c' : NodeCache)
    (live' : Finset NodeId) : Prop where
  subset : live ⊆ live'
  cacheId : ∀ {np}, np ∈ live → (c'.node np).cacheId = (c.node np).cacheId
  dnStat : ∀ {np}, np ∈ live → (c'.node np).dnStat = (c.node np).dnStat

/-- What a lookup has done to the table: it has come to no node, has taken a
reference to one, or has made one. -/
inductive TableChange (m : Mount) (c : NodeCache) (live : Finset NodeId) :
    Option NodeId → NodeCache → Prop
  | unchanged : TableChange m c live none c
  | taken {np : NodeId} : np ∈ live → TableChange m c live (some np) (c.addReference np)
  | made {inum fuel : ℕ} {np : NodeId} {found : Option Dinode} : np ∉ live →
      (∀ np ∈ live, (c.node np).cacheId ≠ inum) → m.readInode fuel inum = some found →
      TableChange m c live (some np)
        (((c.insertNode inum np).fillStat np (readNode 0 found)).addReference np)

/-- The nodes that a call and its answer name. -/
def NamesNode (call : Call) (reply : Reply) (np : NodeId) : Prop :=
  match call, reply with
  | .diskfsLookupHard dp _ _ _ _ _, .lookup _ npp => np = dp ∨ npp = some np
  | .diskfsGetDirects dp _ _ _ _, _ => np = dp
  | .pagerReadPage np' _ _, _ => np = np'
  | .dnStat np', _ => np = np'
  | _, _ => False

/-- A lookup that comes to a node comes to the directory itself, or to the node
of the inode that the scan delivers, and fails with it only if that cannot be
read; `scans` are the results of the scan. -/
def LookupAnswer (m : Mount) (rootNode dp : NodeId) (name : List UInt8)
    (fresh : Option NodeId) (scans : ℕ → Prop) (inumOf : NodeId → ℕ) (err : ErrorT) :
    Option NodeId → Prop
  | some np => (np = dp ∧ err = .success ∧ nameBranch rootNode dp name = .self) ∨
      (scans (inumOf np) ∧ (err = .success ∨ err = .code 1 ∧ Unreadable m (inumOf np)))
  -- the error of the lookup of ".." is not looked at
  | none => err = .success → nameBranch rootNode dp name = .parent ∧ fresh = none

/-- A page read that some page buffers allow, and the only one that any allow if
the counts fit. -/
structure PageAnswer (m : Mount) (store : Store) (w : WordSize) (cacheId : ℕ) (di : Dinode)
    (page : ℕ) (xaddr : ℤ) (err : ErrorT) (buf : Option Bytes) : Prop where
  reads : ∃ pool pool', PageReads m store w cacheId (readStat cacheId di).stSize page xaddr pool
    (.returned err buf pool')
  only : CountsFit m (pageCall di page xaddr).xoff ⟨di.diBtroot⟩ → ∀ pool, ∃ out,
    PageReads m store w cacheId (readStat cacheId di).stSize page xaddr pool out ∧
      out.Gives err buf

/-- The answer is the one of the disk for the inodes of the nodes, whatever has
been asked for before. -/
def FromDisk (m : Mount) (store : Store) (w : WordSize) (d : Dirent) (rootNode : NodeId)
    (inumOf : NodeId → ℕ) : Call → Reply → Prop
  | .diskfsLookupHard dp name _ malloc makeNode gotinum, .lookup err npp =>
      LookupAnswer m rootNode dp name (offered malloc makeNode)
        (fun inum => Ends (fun fuel => dirscan m fuel (inumOf dp) name name.length gotinum)
          (.success, inum)) inumOf err npp
  | .diskfsGetDirects dp entry n data bufsiz, .directs amt records =>
      ∃ out, Ends (fun fuel => diskfsGetDirects m d fuel (inumOf dp) entry n data bufsiz) out ∧
        out.amt = amt ∧ out.records d = some records
  | .pagerReadPage np page xaddr, .page err bytes =>
      ∃ di buf, ReadsInode m (inumOf np) di ∧
        PageAnswer m store w (inumOf np) di page xaddr err buf ∧ bytes = buf.map pageBytes
  | .dnStat np, .stat st => ∃ di, ReadsInode m (inumOf np) di ∧ st = readStat (inumOf np) di
  | _, _ => True

variable {m : Mount} {store : Store} {w : WordSize} {d : Dirent} {s s' : TranslatorState}
  {log : List (Call × Reply)} {handles : NodeId → ℕ} {call : Call} {reply : Reply}
  {np dp rootNode : NodeId} {inum : ℕ} {name : List UInt8} {c c' : NodeCache}
  {live live' : Finset NodeId} {npp : Option NodeId} {rows : Fin inohsz → List NodeId}

/-! ## The nodes -/

namespace NodesStay

theorem refl (c : NodeCache) (live : Finset NodeId) : NodesStay c live c live :=
  ⟨subset_rfl, fun _ => rfl, fun _ => rfl⟩

theorem of_setReferences (np : NodeId) (n : ℕ) : NodesStay c live (c.setReferences np n) live :=
  ⟨subset_rfl, fun _ => setReferences_cacheId n _,
    fun _ => setReferences_keeps Node.dnStat (fun _ _ => rfl) n _⟩

theorem of_insertNode (hfresh : np ∉ live) (r : Except ℕ Dinode) :
    NodesStay c live (((c.insertNode inum np).fillStat np r).addReference np)
      (insert np live) := by
  have hne : ∀ {np'}, np' ∈ live → np' ≠ np := fun hnp' heq => hfresh (heq ▸ hnp')
  refine ⟨Finset.subset_insert _ _, fun hnp' => ?_, fun hnp' => ?_⟩
  · rw [addReference_cacheId, fillStat_cacheId, insertNode_node_of_ne (hne hnp')]
  · rw [addReference_dnStat, fillStat_node_of_ne (hne hnp'), insertNode_node_of_ne (hne hnp')]

theorem showsInode (h : NodesStay c live c' live') (hnp : np ∈ live)
    (hshows : ShowsInode m (c.node np)) : ShowsInode m (c'.node np) := by
  unfold ShowsInode at hshows ⊢
  rwa [h.dnStat hnp, h.cacheId hnp]

end NodesStay

theorem showsInode_made {fuel : ℕ} {found : Option Dinode}
    (hread : m.readInode fuel inum = some found) :
    ShowsInode m ((((c.insertNode inum np).fillStat np (readNode 0 found)).addReference np).node
      np) := by
  unfold ShowsInode
  rw [addReference_dnStat, addReference_cacheId, fillStat_cacheId, insertNode_node_self]
  cases found with
  | none =>
      change match ((c.insertNode inum np).node np).dnStat with
        | some di => ReadsInode m inum di
        | none => Unreadable m inum
      rw [insertNode_node_self]
      exact ⟨fuel, hread⟩
  | some di =>
      rw [show readNode 0 (some di) = .ok di from rfl, fillStat_ok_self]
      exact ⟨fuel, hread⟩

/-! ## Lookups -/

theorem TableOk.diskLookup_change {fuel : ℕ} {malloc : Bool} {makeNode : Option NodeId}
    {out : LookupEnd} (h : TableOk c rows live) (hfresh : ∀ np, makeNode = some np → np ∉ live)
    (hout : diskLookup m fuel inum ⟨malloc, makeNode, 0⟩ c = some out) :
    TableChange m c live out.npp out.cache ∧
      match out.npp with
      | some np => (out.cache.node np).cacheId = inum ∧
          (out.err = .success ∨ out.err = .code 1 ∧ Unreadable m inum)
      | none => out.err = .enomem ∧ offered malloc makeNode = none := by
  rcases h.diskLookup_cases hout with ⟨np, hnp, hid, rfl⟩ | ⟨-, hmem, rfl⟩ |
    ⟨np, found, hnone, -, hmake, hread, rfl⟩
  · refine ⟨.taken hnp, ?_, .inl rfl⟩
    rw [addReference_cacheId, hid]
  · refine ⟨.unchanged, rfl, ?_⟩
    unfold offered
    rcases hmem with hmalloc | hmake
    · exact if_neg (by simpa using hmalloc)
    · rw [show makeNode = none from hmake, ite_self]
  · refine ⟨.made (hfresh np hmake) hnone hread, ?_, ?_⟩
    · rw [addReference_cacheId, fillStat_cacheId, insertNode_node_self]
    · cases found with
      | none => exact .inr ⟨rfl, fuel, hread⟩
      | some di => exact .inl rfl

section LookupHard

variable {fuel cacheId gotinum : ℕ} {type : LookupType} {env : LibdiskfsEnv}
  {nput : NodeId → Option NodeCache → Option NodeCache} {err : ErrorT}

theorem callCachedLookup_returned {k : ErrorT → Option NodeCache → ErrorT × Option NodeCache}
    (hk : ∀ err s, (k err s).2 = s)
    (h : callCachedLookup (diskOps m fuel env nput) inum (some none) (some c) k =
      .returned err (some npp) (some c')) :
    ∃ out, diskLookup m fuel inum env c = some out ∧ npp = out.npp ∧ c' = out.cache ∧
      err = (k out.err (some out.cache)).1 := by
  unfold callCachedLookup diskOps at h
  dsimp only at h
  rw [Option.bind_some] at h
  cases hout : diskLookup m fuel inum env c with
  | none =>
      rw [hout] at h
      injection h with _ _ hcache
      rw [hk] at hcache
      cases hcache
  | some out =>
      rw [hout] at h
      injection h with herr hnpp hcache
      rw [hk] at hcache
      exact ⟨out, rfl, (Option.some.inj hnpp).symm, (Option.some.inj hcache).symm, herr.symm⟩

/-- What a lookup that has returned did, by the branches of `loadInode`. -/
theorem diskfsLookupHard_returned
    (h : diskfsLookupHard (diskOps m fuel env nput) m fuel rootNode dp cacheId name type
      (some none) gotinum (some c) = some (.returned err (some npp) (some c'))) :
    (npp = none ∧ c' = c ∧ err ≠ .success) ∨
      (npp = some dp ∧ c' = c.addReference dp ∧ err = .success ∧
        nameBranch rootNode dp name = .self) ∨
      ∃ inum out, dirscan m fuel cacheId name name.length gotinum = some (.success, inum) ∧
        diskLookup m fuel inum env c = some out ∧ npp = out.npp ∧ c' = out.cache ∧
        (err = out.err ∨ err = .success ∧ nameBranch rootNode dp name = .parent) := by
  unfold diskfsLookupHard at h
  dsimp only [Option.map_some, Option.isNone_some] at h
  split at h
  next =>
    cases h
    exact .inl ⟨rfl, rfl, nofun⟩
  split at h
  next =>
    cases h
    exact .inl ⟨rfl, rfl, nofun⟩
  split at h
  next => cases h
  next inum hscan =>
    rw [Option.some.injEq, loadInode_eq] at h
    cases hbranch : nameBranch rootNode dp name with
    | again =>
        rw [hbranch] at h
        cases h
        exact .inl ⟨rfl, rfl, nofun⟩
    | self =>
        rw [hbranch] at h
        cases h
        exact .inr (.inl ⟨rfl, rfl, rfl, rfl⟩)
    | parent =>
        rw [hbranch] at h
        obtain ⟨out, hout, hnpp, hcache, herr⟩ := callCachedLookup_returned (fun _ _ => rfl) h
        exact .inr (.inr ⟨inum, out, hscan, hout, hnpp, hcache, .inr ⟨herr, rfl⟩⟩)
    | entry =>
        rw [hbranch] at h
        obtain ⟨out, hout, hnpp, hcache, herr⟩ := callCachedLookup_returned (fun _ _ => rfl) h
        exact .inr (.inr ⟨inum, out, hscan, hout, hnpp, hcache, .inl herr⟩)
  next hne _ =>
    cases h
    exact .inl ⟨rfl, rfl, hne⟩

end LookupHard

theorem TableChange.nodesStay (h : TableChange m c live npp c') :
    NodesStay c live c' (liveAfterLookup npp live) := by
  cases h with
  | unchanged => exact .refl c live
  | @taken np hnp =>
      change NodesStay c live _ (insert np live)
      rw [Finset.insert_eq_self.mpr hnp]
      exact .of_setReferences np _
  | made hfresh => exact .of_insertNode hfresh _

theorem TableChange.handlesOk (h : TableChange m c live npp c')
    (hok : HandlesOk c rows live handles) (call : Call) (err : ErrorT) :
    ∃ rows', HandlesOk c' rows' (liveAfterLookup npp live)
      (countHandles handles call (.lookup err npp)) := by
  cases h with
  | unchanged =>
      have hcount : countHandles handles call (.lookup err none) = handles := by cases call <;> rfl
      rw [hcount]
      exact ⟨rows, hok⟩
  | @taken np hnp =>
      have hcount : countHandles handles call (.lookup err (some np)) =
          Function.update handles np (handles np + 1) := by cases call <;> rfl
      rw [hcount]
      change ∃ rows', HandlesOk _ rows' (insert np live) _
      rw [Finset.insert_eq_self.mpr hnp]
      exact ⟨rows, hok.setReferences hnp (by rw [hok.references np hnp])⟩
  | @made inum fuel np found hfresh hnone hread =>
      have hcount : countHandles handles call (.lookup err (some np)) =
          Function.update handles np (handles np + 1) := by cases call <;> rfl
      rw [hcount]
      exact ⟨_, hok.miss hfresh hnone _⟩

theorem TableChange.showsInode (h : TableChange m c live npp c')
    (hnodes : ∀ np ∈ live, ShowsInode m (c.node np)) :
    ∀ np ∈ liveAfterLookup npp live, ShowsInode m (c'.node np) := by
  intro np hnp
  by_cases hold : np ∈ live
  · exact h.nodesStay.showsInode hold (hnodes np hold)
  · cases h with
    | unchanged => exact absurd hnp hold
    | taken hlive =>
        change np ∈ insert _ live at hnp
        rw [Finset.insert_eq_self.mpr hlive] at hnp
        exact absurd hnp hold
    | made _ _ hread =>
        obtain rfl := (Finset.mem_insert.mp hnp).resolve_right hold
        exact showsInode_made hread

section LookupHard

variable {fuel cacheId gotinum : ℕ} {type : LookupType} {malloc : Bool}
  {makeNode : Option NodeId} {nput : NodeId → Option NodeCache → Option NodeCache} {err : ErrorT}

theorem TableOk.lookupHard_returned (h : TableOk c rows live) (hdp : dp ∈ live)
    (hfresh : ∀ np, makeNode = some np → np ∉ live)
    (hreturned : diskfsLookupHard (diskOps m fuel ⟨malloc, makeNode, 0⟩ nput) m fuel rootNode dp
      cacheId name type (some none) gotinum (some c) =
        some (.returned err (some npp) (some c'))) :
    TableChange m c live npp c' ∧
      LookupAnswer m rootNode dp name (offered malloc makeNode)
        (fun inum => dirscan m fuel cacheId name name.length gotinum = some (.success, inum))
        (fun np => (c'.node np).cacheId) err npp := by
  rcases diskfsLookupHard_returned hreturned with ⟨rfl, rfl, herr⟩ |
    ⟨rfl, rfl, hsuccess, hbranch⟩ | ⟨inum, out, hscan, hout, rfl, rfl, herr⟩
  · exact ⟨.unchanged, fun hsuccess => absurd hsuccess herr⟩
  · exact ⟨.taken hdp, .inl ⟨rfl, hsuccess, hbranch⟩⟩
  · obtain ⟨hchange, hfound⟩ := h.diskLookup_change hfresh hout
    refine ⟨hchange, ?_⟩
    cases hnpp : out.npp with
    | none =>
        rw [hnpp] at hfound
        intro hsuccess
        rcases herr with herr | ⟨-, hparent⟩
        · rw [herr, hfound.1] at hsuccess
          cases hsuccess
        · exact ⟨hparent, hfound.2⟩
    | some np =>
        rw [hnpp] at hfound
        obtain ⟨rfl, hread⟩ := hfound
        refine .inr ⟨hscan, ?_⟩
        rcases herr with herr | ⟨hsuccess, -⟩
        · rwa [herr]
        · exact .inl hsuccess

/-- The lookup of a session, which ends with any fuel from some on. -/
theorem TableOk.lookupHard_ends (h : TableOk c rows live) (hdp : dp ∈ live)
    (hfresh : ∀ np, makeNode = some np → np ∉ live)
    (hends : Ends (fun fuel => diskfsLookupHard (diskOps m fuel ⟨malloc, makeNode, 0⟩ nput) m fuel
      rootNode dp cacheId name type (some none) gotinum (some c))
      (.returned err (some npp) (some c'))) :
    TableChange m c live npp c' ∧
      LookupAnswer m rootNode dp name (offered malloc makeNode)
        (fun inum => Ends (fun fuel => dirscan m fuel cacheId name name.length gotinum)
          (.success, inum)) (fun np => (c'.node np).cacheId) err npp := by
  obtain ⟨n, hn⟩ := hends
  have hreturned := fun fuel hfuel => (h.lookupHard_returned hdp hfresh (hn fuel hfuel)).2
  refine ⟨(h.lookupHard_returned hdp hfresh (hn n le_rfl)).1, ?_⟩
  cases npp with
  | none => exact hreturned n le_rfl
  | some np =>
      by_cases hself : np = dp ∧ err = .success ∧ nameBranch rootNode dp name = .self
      · exact .inl hself
      · have hscans := fun fuel hfuel => (hreturned fuel hfuel).resolve_left hself
        exact .inr ⟨⟨n, fun fuel hfuel => (hscans fuel hfuel).1⟩, (hscans n le_rfl).2⟩

end LookupHard

/-! ## Page reads and references given back -/

theorem PageReads.poolOk {cacheId page : ℕ} {stSize xaddr : ℤ} {pool pool' : BufPool}
    {free : List ℕ} {err : ErrorT} {buf : Option Bytes} (hok : PoolOk pool free none)
    (h : PageReads m store w cacheId stSize page xaddr pool (.returned err buf pool')) :
    ∃ free', PoolOk pool' free' none := by
  obtain ⟨n, hn⟩ := h
  have hread := hn n le_rfl
  unfold pagerReadPage at hread
  dsimp only at hread
  split at hread
  next => cases hread
  next =>
    cases hread
    exact ⟨free, hok⟩
  next inode _ =>
    split at hread
    next => cases hread
    next => cases hread
    next => cases hread
    next rc xaddr' xlen taken hrun =>
      obtain rfl := (readFilePage_returned (Option.some.inj hread)).1
      exact hok.returned ⟨n, hrun⟩

theorem HandlesOk.released (h : HandlesOk c rows live handles) (hheld : 0 < handles np)
    (hrelease : releaseHandle np c = some c') :
    HandlesOk c' rows live (Function.update handles np (handles np - 1)) ∧
      liveAfterRelease np c live = live ∧ NodesStay c live c' live := by
  obtain ⟨hlive, hsame, c'', hrelease', hok⟩ := h.release hheld
  obtain rfl := Option.some.inj (hrelease'.symm.trans hrelease)
  have hne : (c.node np).references - 1 ≠ 0 := by
    have hcount := h.references np hlive
    omega
  obtain rfl : c.setReferences np ((c.node np).references - 1) = c'' := by
    unfold releaseHandle at hrelease
    simpa [hne] using hrelease
  exact ⟨hok, hsame, .of_setReferences np _⟩

/-! ## Runs -/

theorem ShowsInode.stat {n : Node} {st : Stat} (h : ShowsInode m n) (hstat : n.stat = some st) :
    ∃ di, ReadsInode m n.cacheId di ∧ st = readStat n.cacheId di := by
  unfold Node.stat at hstat
  unfold ShowsInode at h
  obtain ⟨di, hdi, rfl⟩ := Option.map_eq_some_iff.mp hstat
  rw [hdi] at h
  exact ⟨di, h, rfl⟩

theorem TranslatorStarted.ok (hstarted : TranslatorStarted m rootNode s)
    (hlist : s.pool.bCachelist = none) (hcount : s.pool.nBuffer = 0) :
    TranslatorOk m rootNode s (Function.update (fun _ => 0) rootNode 1) := by
  obtain ⟨c, out, ⟨n, hn⟩, hcache, hlive, hroot⟩ := hstarted
  have hinit : HandlesOk (inodeInit c) (fun _ => []) ∅ fun _ => 0 := ⟨.init c, by simp, by simp⟩
  rcases hinit.table.diskLookup_cases (hn n le_rfl) with ⟨np, hnp, -⟩ | ⟨-, hnone, -⟩ |
    ⟨np, found, hnone, -, hmake, hread, rfl⟩
  · cases hnp
  · rcases hnone with hnone | hnone <;> cases hnone
  · cases hmake
    have hmade := hinit.miss (Finset.notMem_empty rootNode) hnone (readNode 0 found)
    refine ⟨?_, ?_, ⟨[], .empty hlist hcount⟩, hroot, ?_, ?_⟩
    · rw [hcache, hlive]
      exact ⟨_, hmade⟩
    · intro np hnp
      rw [hlive] at hnp
      obtain rfl := Finset.mem_singleton.mp hnp
      rw [hcache]
      exact showsInode_made hread
    · rw [hlive]
      exact Finset.mem_singleton_self rootNode
    · rw [hcache, addReference_cacheId, fillStat_cacheId, insertNode_node_self]

/-- One call: what it keeps, and that its answer is the one of the disk. -/
theorem TranslatorOk.step (h : TranslatorOk m rootNode s handles)
    (hcall : call.KeepsHandles s.live handles) (hwithin : call.Within m d s)
    (hstep : TranslatorStep m store w d s call reply s') :
    TranslatorOk m rootNode s' (countHandles handles call reply) ∧
      NodesStay s.cache s.live s'.cache s'.live ∧
      (∀ np, NamesNode call reply np → np ∈ s'.live) ∧
      FromDisk m store w d rootNode (fun np => (s'.cache.node np).cacheId) call reply := by
  obtain ⟨rows, hok⟩ := h.table
  cases hstep with
  | overrun hnot => exact absurd hwithin hnot
  | @lookup dp name type malloc makeNode gotinum err npp c hends =>
      obtain ⟨hdp, hfresh⟩ := hcall
      rw [h.root] at hends
      obtain ⟨hchange, hfound⟩ := hok.table.lookupHard_ends hdp hfresh hends
      have hstay := hchange.nodesStay
      refine ⟨⟨hchange.handlesOk hok _ err, hchange.showsInode h.nodes, h.pool, h.root,
        hstay.subset h.root_mem, (hstay.cacheId h.root_mem).trans h.root_cacheId⟩, hstay, ?_, ?_⟩
      · rintro np (rfl | rfl)
        · exact hstay.subset hdp
        · exact Finset.mem_insert_self _ _
      · unfold FromDisk
        dsimp only
        rwa [hstay.cacheId hdp]
  | @directs dp entry n data bufsiz out records _ hends hrecords =>
      refine ⟨⟨h.table, h.nodes, h.pool, h.root, h.root_mem, h.root_cacheId⟩, .refl _ _, ?_,
        ⟨out, hends, rfl, hrecords⟩⟩
      rintro np rfl
      exact hcall
  | @page np page xaddr st err buf pool hstat hreads =>
      obtain ⟨free, hpool⟩ := h.pool
      obtain ⟨di, hread, rfl⟩ := (h.nodes np hcall).stat hstat
      refine ⟨⟨h.table, h.nodes, hreads.poolOk hpool, h.root, h.root_mem, h.root_cacheId⟩,
        .refl _ _, ?_, ⟨di, buf, hread, ⟨⟨_, _, hreads⟩, hreads.gives hread⟩, rfl⟩⟩
      rintro np' rfl
      exact hcall
  | @stat np st hstat =>
      refine ⟨⟨h.table, h.nodes, h.pool, h.root, h.root_mem, h.root_cacheId⟩, .refl _ _, ?_,
        (h.nodes np hcall).stat hstat⟩
      rintro np' rfl
      exact hcall
  | @release np c hrelease =>
      obtain ⟨hok', hsame, hstay⟩ := hok.released hcall hrelease
      rw [hsame]
      refine ⟨⟨⟨rows, hok'⟩, fun np' hnp' => hstay.showsInode hnp' (h.nodes np' hnp'), h.pool,
        h.root, h.root_mem, (hstay.cacheId h.root_mem).trans h.root_cacheId⟩, hstay, ?_, trivial⟩
      rintro np' ⟨⟩

end JfsReader
