import JfsReader.LookupThreads

/-!
# Lookups that wait for each other

A name with a dot in front that no entry has is looked up as inode `-1`, and so
is "..".  The first lookup has the directory locked while it waits for the node
of that inode, the second one has that node locked while it waits for the
directory.
-/

namespace JfsReader

open FileService

variable {m : Mount} {Allowed : ThreadSystem → LookupCall → Prop} {s s' : ThreadSystem}
  {i j : ℕ} {q : LookupCall} {parent : Bool} {dp np : NodeId} {name : List UInt8}

/-! ## Stuck threads -/

theorem ThreadPhase.mem_claims_of_held {p : ThreadPhase} (h : np ∈ p.held) : np ∈ p.claims := by
  cases p with
  | loading => exact List.mem_cons_of_mem _ h
  | _ => exact h

theorem ThreadSystem.setLock_true {a : NodeId} (hlocked : s.nodeLock a = true) :
    (s.setLock np true).nodeLock a = true := by
  by_cases heq : a = np
  · rw [heq, ThreadSystem.setLock_self]
  · rwa [ThreadSystem.setLock_of_ne heq]

theorem ThreadPhase.claims_afterLookup {err : ErrorT} {npp : Option NodeId} {a : NodeId}
    (h : a ∈ (ThreadPhase.afterLookup q parent err npp).claims) :
    a ∈ npp ∨ a ∈ if parent then [] else [q.dp] := by
  cases parent with
  | true =>
      refine .inl ?_
      simpa [ThreadPhase.afterLookup, ThreadPhase.claims, ThreadPhase.held] using h
  | false =>
      rcases List.mem_cons.mp h with rfl | hnpp
      · exact .inr (List.mem_singleton_self _)
      · split at hnpp
        · exact .inl (by simpa using hnpp)
        · cases hnpp

/-- A thread takes over only what is free or new. -/
theorem ThreadStep.claims {a : NodeId} (hstep : ThreadStep m i s s')
    (ha : a ∈ (s'.phase i).claims) :
    a ∈ (s.phase i).claims ∨ s.nodeLock a = false ∨ a ∉ s.live := by
  cases hstep with
  | enter hphase hfree =>
      rw [ThreadSystem.setPhase_self] at ha
      obtain rfl := List.mem_singleton.mp ha
      exact .inr (.inl hfree)
  | noMemory hphase =>
      rw [ThreadSystem.setPhase_self] at ha
      rcases ThreadPhase.claims_afterLookup ha with hnpp | hheld
      · cases hnpp
      · exact .inl (hphase ▸ hheld)
  | miss hphase _ hfresh =>
      rw [ThreadSystem.setPhase_self] at ha
      rcases List.mem_cons.mp ha with rfl | hheld
      · exact .inr (.inr hfresh)
      · exact .inl (hphase ▸ hheld)
  | lock hphase hfree =>
      rw [ThreadSystem.setPhase_self] at ha
      rcases ThreadPhase.claims_afterLookup ha with hnpp | hheld
      · obtain rfl := Option.mem_some_iff.mp hnpp
        exact .inr (.inl hfree)
      · exact .inl (hphase ▸ hheld)
  | load hphase =>
      rw [ThreadSystem.setPhase_self] at ha
      rw [hphase]
      rcases ThreadPhase.claims_afterLookup ha with hnpp | hheld
      · obtain rfl := Option.mem_some_iff.mp hnpp
        exact .inl List.mem_cons_self
      · exact .inl (List.mem_cons_of_mem _ hheld)
  | relock hphase hfree =>
      rw [ThreadSystem.setPhase_self] at ha
      rcases List.mem_cons.mp ha with rfl | hnpp
      · exact .inr (.inl hfree)
      · rw [hphase]
        exact .inl (by simpa [ThreadPhase.claims, ThreadPhase.held] using hnpp)
  | parent =>
      rw [ThreadSystem.setPhase_self] at ha
      cases ha
  | leave =>
      rw [ThreadSystem.setPhase_self] at ha
      cases ha
  | _ hphase =>
      rw [ThreadSystem.setPhase_self] at ha
      rw [hphase]
      exact .inl (by simpa [ThreadPhase.claims, ThreadPhase.held] using ha)

/-- A thread unlocks only what it holds. -/
theorem ThreadStep.locked {a : NodeId} (hstep : ThreadStep m i s s') (hlive : a ∈ s.live)
    (hlocked : s.nodeLock a = true) (hnot : a ∉ (s.phase i).held) : s'.nodeLock a = true := by
  cases hstep with
  | enter => exact ThreadSystem.setLock_true hlocked
  | lock => exact ThreadSystem.setLock_true hlocked
  | relock => exact ThreadSystem.setLock_true hlocked
  | @parent q _ hphase =>
      have hne : a ≠ q.dp := by
        rintro rfl
        exact hnot (hphase ▸ List.mem_singleton_self _)
      exact (ThreadSystem.setLock_of_ne hne false).trans hlocked
  | @miss _ _ _ _ _ np _ _ _ hfresh =>
      have hne : a ≠ np := fun heq => hfresh (heq ▸ hlive)
      exact (Function.update_of_ne hne ..).trans hlocked
  | leave => exact (if_neg hnot).trans hlocked
  | _ => exact hlocked

theorem ClientStep.claims {a : NodeId} (hstep : ClientStep Allowed i s s')
    (ha : a ∈ (s'.phase i).claims) : a ∈ (s.phase i).claims := by
  cases hstep with
  | call hphase =>
      rw [ThreadSystem.setPhase_self] at ha
      cases ha
  | follow hphase =>
      rw [ThreadSystem.setPhase_self] at ha
      obtain rfl := List.mem_singleton.mp ha
      rw [hphase]
      exact List.mem_cons_of_mem _ (List.mem_singleton_self _)

theorem ClientStep.locked {a : NodeId} (hstep : ClientStep Allowed i s s')
    (hlocked : s.nodeLock a = true) (hnot : a ∉ (s.phase i).held) : s'.nodeLock a = true := by
  cases hstep with
  | call => exact hlocked
  | follow => exact (if_neg fun hmem => hnot (List.mem_of_mem_filter hmem)).trans hlocked

/-- Thread `i` waits for the directory, which thread `j` has locked, and has the
node locked that thread `j` waits for.  No other thread is going to unlock
either. -/
structure Stuck (i j : ℕ) (dp np : NodeId) (name : List UInt8) (s : ThreadSystem) : Prop where
  table : s.HasTable
  parent : s.phase i = .relocking ⟨dp, dotdot⟩ (some np)
  hidden : s.phase j = .locking ⟨dp, name⟩ false np
  live : dp ∈ s.live ∧ np ∈ s.live
  locked : s.nodeLock dp = true ∧ s.nodeLock np = true
  others : ∀ k, k ≠ i → k ≠ j → dp ∉ (s.phase k).claims ∧ np ∉ (s.phase k).claims

namespace Stuck

theorem not_parent (h : Stuck i j dp np name s) : ¬ ThreadStep m i s s' := by
  intro hstep
  have hphase := h.parent
  cases hstep with
  | relock hphase' hfree =>
      cases hphase.symm.trans hphase'
      cases h.locked.1.symm.trans hfree
  | _ hphase' => cases hphase.symm.trans hphase'

theorem not_hidden (h : Stuck i j dp np name s) : ¬ ThreadStep m j s s' := by
  intro hstep
  have hphase := h.hidden
  cases hstep with
  | lock hphase' hfree =>
      cases hphase.symm.trans hphase'
      cases h.locked.2.symm.trans hfree
  | _ hphase' => cases hphase.symm.trans hphase'

theorem not_client {k : ℕ} (h : Stuck i j dp np name s) (hstep : ClientStep Allowed k s s') :
    k ≠ i ∧ k ≠ j := by
  have hparent := h.parent
  have hhidden := h.hidden
  constructor
  · rintro rfl
    cases hstep with
    | call hphase => cases hparent.symm.trans hphase
    | follow hphase => cases hparent.symm.trans hphase
  · rintro rfl
    cases hstep with
    | call hphase => cases hhidden.symm.trans hphase
    | follow hphase => cases hhidden.symm.trans hphase

/-- What another thread does. -/
theorem other {k : ℕ} (h : Stuck i j dp np name s) (hk : k ≠ i ∧ k ≠ j) (hchanges : Changes k s s')
    (htable : s'.HasTable) (hgrows : Grows s s')
    (hclaims : ∀ {a}, a ∈ (s'.phase k).claims →
      a ∈ (s.phase k).claims ∨ s.nodeLock a = false ∨ a ∉ s.live)
    (hlocked : ∀ {a}, a ∈ s.live → s.nodeLock a = true → a ∉ (s.phase k).held →
      s'.nodeLock a = true) : Stuck i j dp np name s' := by
  obtain ⟨hdp, hnp⟩ := h.others k hk.1 hk.2
  have hkept : ∀ {a}, a ∈ s.live → s.nodeLock a = true → a ∉ (s.phase k).claims →
      a ∉ (s'.phase k).claims := by
    intro a hlive hbusy hnot ha
    rcases hclaims ha with hold | hfree | hnew
    · exact hnot hold
    · cases hbusy.symm.trans hfree
    · exact hnew hlive
  refine ⟨htable, ?_, ?_, ⟨hgrows.live h.live.1, hgrows.live h.live.2⟩, ⟨?_, ?_⟩, fun l hi hj => ?_⟩
  · rw [hchanges.others i (Ne.symm hk.1), h.parent]
  · rw [hchanges.others j (Ne.symm hk.2), h.hidden]
  · exact hlocked h.live.1 h.locked.1 fun hheld => hdp (ThreadPhase.mem_claims_of_held hheld)
  · exact hlocked h.live.2 h.locked.2 fun hheld => hnp (ThreadPhase.mem_claims_of_held hheld)
  · by_cases heq : l = k
    · rw [heq]
      exact ⟨hkept h.live.1 h.locked.1 hdp, hkept h.live.2 h.locked.2 hnp⟩
    · rw [hchanges.others l heq]
      exact h.others l hi hj

theorem step (h : Stuck i j dp np name s) (hstep : SystemStep m Allowed s s') :
    Stuck i j dp np name s' := by
  cases hstep with
  | @thread k hstep =>
      have hk : k ≠ i ∧ k ≠ j := by
        constructor
        · rintro rfl
          exact h.not_parent hstep
        · rintro rfl
          exact h.not_hidden hstep
      obtain ⟨htable, hgrows⟩ := hstep.grows h.table
      exact h.other hk hstep.changes htable hgrows hstep.claims hstep.locked
  | client hstep =>
      obtain ⟨htable, hgrows⟩ := hstep.grows h.table
      exact h.other (h.not_client hstep) hstep.changes htable hgrows
        (fun ha => .inl (hstep.claims ha)) fun _ => hstep.locked

theorem run (h : Stuck i j dp np name s) (hrun : ThreadRun m Allowed s s') :
    Stuck i j dp np name s' := by
  induction hrun with
  | refl => exact h
  | tail _ hstep ih => exact ih.step hstep

end Stuck

/-! ## How they get there -/

/-- Steps of thread `i` and of its client, while no other thread scans. -/
structure Advances (m : Mount) (Allowed : ThreadSystem → LookupCall → Prop) (i : ℕ)
    (s s' : ThreadSystem) : Prop where
  run : SerialRun m Allowed s s'
  alone : ∀ j, j ≠ i → ¬ s'.Scanning j
  others : ∀ j, j ≠ i → s'.phase j = s.phase j
  table : s'.HasTable
  grows : Grows s s'
  locksHeld : s'.LocksHeld

theorem Grows.trans {t : ThreadSystem} (h : Grows s s') (h' : Grows s' t) : Grows s t :=
  ⟨h.live.trans h'.live, fun hlive => (h'.cacheId (h.live hlive)).trans (h.cacheId hlive),
    h'.root.trans h.root⟩

namespace Advances

variable {t : ThreadSystem}

theorem refl (htable : s.HasTable) (hlocks : s.LocksHeld)
    (halone : ∀ j, j ≠ i → ¬ s.Scanning j) : Advances m Allowed i s s :=
  ⟨.refl, halone, fun _ _ => rfl, htable, ⟨subset_rfl, fun _ => rfl, rfl⟩, hlocks⟩

theorem step (h : Advances m Allowed i s s') (hstep : SystemStep m Allowed s' t)
    (hchanges : Changes i s' t) (htable : t.HasTable) (hgrows : Grows s' t) :
    Advances m Allowed i s t where
  run := h.run.tail ⟨hstep, hchanges.scansApart h.alone⟩
  alone := fun j hne hj => h.alone j hne ((hchanges.scanning hne).mp hj)
  others := fun j hj => (hchanges.others j hj).trans (h.others j hj)
  table := htable
  grows := h.grows.trans hgrows
  locksHeld := hchanges.locksHeld h.locksHeld

theorem thread (h : Advances m Allowed i s s') (hstep : ThreadStep m i s' t) :
    Advances m Allowed i s t := by
  obtain ⟨htable, hgrows⟩ := hstep.grows h.table
  exact h.step (.thread hstep) hstep.changes htable hgrows

theorem client (h : Advances m Allowed i s s') (hstep : ClientStep Allowed i s' t) :
    Advances m Allowed i s t := by
  obtain ⟨htable, hgrows⟩ := hstep.grows h.table
  exact h.step (.client hstep) hstep.changes htable hgrows

theorem threads (h : Advances m Allowed i s s')
    (hruns : Relation.ReflTransGen (ThreadStep m i) s' t) : Advances m Allowed i s t := by
  induction hruns with
  | refl => exact h
  | tail _ hstep ih => exact ih.thread hstep

/-- The thread comes to `dirscan`. -/
theorem enter (h : Advances m Allowed i s s') (hidle : s'.phase i = .idle)
    (hlive : q.dp ∈ s'.live) (hallowed : Allowed s' q) (hfree : s'.nodeLock q.dp = false) :
    ∃ t, Advances m Allowed i s t ∧ t.phase i = .scanning q ∧
      t.nodeLock = Function.update s'.nodeLock q.dp true := by
  have hcalled := h.client (.call hidle hlive hallowed)
  exact ⟨_, hcalled.thread (.enter (ThreadSystem.setPhase_self _) hfree),
    ThreadSystem.setPhase_self _, rfl⟩

/-- It finds its node in the table. -/
theorem hit {inum : ℕ} (h : Advances m Allowed i s s')
    (hphase : s'.phase i = .looking q parent inum) (hlive : np ∈ s'.live)
    (hid : (s'.cache.node np).cacheId = inum) :
    ∃ t, Advances m Allowed i s t ∧ t.phase i = .locking q parent np ∧
      t.nodeLock = s'.nodeLock := by
  obtain ⟨rows, hok⟩ := h.table
  have hsection := hok.lookupSection (r := some np) ⟨hlive, hid⟩ (Nat.lt_succ_self _)
    ⟨true, none, 0⟩
  exact ⟨_, h.thread (.hit hphase hsection), ThreadSystem.setPhase_self _, rfl⟩

end Advances

variable {entries : List DirEntry}

theorem IsDirectory.scans_hidden (h : IsDirectory m (s.cache.node q.dp).cacheId entries)
    (hmem : m.HasMemory) (hne : entries ≠ []) (hdot : q.name.getD 0 0 = 46)
    (hnone : entries.find? (·.answers q.name) = none) : Scans m s q .success noInum := by
  refine ⟨0, ?_⟩
  have hends := h.dirscan_ends hmem q.name 0
  have hresult : lookupResult entries q.name 0 = noInum := by
    unfold lookupResult
    rw [hnone]
    exact if_neg hne
  rwa [hresult, if_neg fun hcond => hcond.1 hdot] at hends

theorem IsDirectory.ne_noInum {inum : ℕ} (h : IsDirectory m inum entries)
    (hminus : Unreadable m noInum) : inum ≠ noInum := by
  rintro rfl
  obtain ⟨fuel, address, inode, hfind, hread, -⟩ := h.delivered
  have hreads : ReadsInode m noInum (Dinode.mk inode) := by
    refine ⟨fuel, ?_⟩
    unfold Mount.readInode
    rw [hfind]
    simp only [hread, Option.map_some]
  exact hminus.not_readsInode hreads

theorem Advances.scans_hidden {t : ThreadSystem} (h : Advances m Allowed i s t)
    (hmem : m.HasMemory) (hlive : q.dp ∈ s.live)
    (hdir : IsDirectory m (s.cache.node q.dp).cacheId entries) (hne : entries ≠ [])
    (hdot : q.name.getD 0 0 = 46) (hnone : entries.find? (·.answers q.name) = none) :
    Scans m t q .success noInum := by
  rw [← h.grows.cacheId hlive] at hdir
  exact hdir.scans_hidden hmem hne hdot hnone

section Directory

variable (hmem : m.HasMemory) (hminus : Unreadable m noInum) (hlive : dp ∈ s.live)
  (hroot : dp ≠ s.diskfsRootNode) (hdir : IsDirectory m (s.cache.node dp).cacheId entries)
  (hne : entries ≠ []) (hdotdot : entries.find? (·.answers dotdot) = none)

include hmem hlive hdir hne

include hroot hdotdot in
/-- The lookup of ".." comes to the inode `-1`, with nothing locked. -/
theorem exists_looking_parent (hallowed : ∀ s, Allowed s ⟨dp, dotdot⟩) (htable : s.HasTable)
    (hlocks : s.LocksHeld) (halone : ∀ j, j ≠ i → ¬ s.Scanning j) (hidle : s.phase i = .idle)
    (hfree : s.nodeLock dp = false) :
    ∃ t, Advances m Allowed i s t ∧ t.phase i = .looking ⟨dp, dotdot⟩ true noInum ∧
      t.nodeLock = s.nodeLock := by
  obtain ⟨t, hscanning, hphase, hlock⟩ := (Advances.refl htable hlocks halone).enter hidle
    (q := ⟨dp, dotdot⟩) hlive (hallowed s) hfree
  have hscans := hscanning.scans_hidden (q := ⟨dp, dotdot⟩) hmem hlive hdir hne rfl hdotdot
  have hbranch : nameBranch t.diskfsRootNode dp dotdot = .parent :=
    nameBranch_dotdot (hscanning.grows.root ▸ hroot)
  refine ⟨_, hscanning.thread (.parent hphase (.inl hscans) hbranch),
    ThreadSystem.setPhase_self _, ?_⟩
  change Function.update t.nodeLock dp false = s.nodeLock
  rw [hlock, Function.update_idem, ← hfree, Function.update_eq_self]

include hroot hdotdot in
/-- It goes on to wait for the directory with the node of that inode locked. -/
theorem exists_relocking (hallowed : ∀ s, Allowed s ⟨dp, dotdot⟩) (htable : s.HasTable)
    (hlocks : s.LocksHeld) (halone : ∀ j, j ≠ i → ¬ s.Scanning j) (hidle : s.phase i = .idle)
    (hfree : s.nodeLock dp = false) (hnp : np ∈ s.live) (hid : (s.cache.node np).cacheId = noInum)
    (hnpFree : s.nodeLock np = false) :
    ∃ t, Advances m Allowed i s t ∧ t.phase i = .relocking ⟨dp, dotdot⟩ (some np) ∧
      t.nodeLock = Function.update s.nodeLock np true := by
  obtain ⟨t, hlooking, hphase, hlock⟩ := exists_looking_parent hmem hlive hroot hdir hne hdotdot
    hallowed htable hlocks halone hidle hfree
  obtain ⟨t', hlocking, hphase', hlock'⟩ := hlooking.hit hphase (hlooking.grows.live hnp)
    ((hlooking.grows.cacheId hnp).trans hid)
  rw [hlock] at hlock'
  refine ⟨_, hlocking.thread (.lock hphase' (by rw [hlock', hnpFree])),
    ThreadSystem.setPhase_self _, ?_⟩
  change Function.update t'.nodeLock np true = _
  rw [hlock']

/-- The lookup of a hidden name comes to the same node with the directory
locked. -/
theorem exists_locking_hidden (hname : OrdinaryName name) (hdot : name.getD 0 0 = 46)
    (hnone : entries.find? (·.answers name) = none) (hallowed : ∀ s, Allowed s ⟨dp, name⟩)
    (htable : s.HasTable) (hlocks : s.LocksHeld) (halone : ∀ k, k ≠ j → ¬ s.Scanning k)
    (hidle : s.phase j = .idle) (hfree : s.nodeLock dp = false) (hnp : np ∈ s.live)
    (hid : (s.cache.node np).cacheId = noInum) :
    ∃ t, Advances m Allowed j s t ∧ t.phase j = .locking ⟨dp, name⟩ false np ∧
      t.nodeLock = Function.update s.nodeLock dp true := by
  obtain ⟨t, hscanning, hphase, hlock⟩ := (Advances.refl htable hlocks halone).enter hidle
    (q := ⟨dp, name⟩) hlive (hallowed s) hfree
  have hscans := hscanning.scans_hidden (q := ⟨dp, name⟩) hmem hlive hdir hne hdot hnone
  have hlooking := hscanning.thread
    (.entry hphase (.inl hscans) (nameBranch_ordinary hname))
  obtain ⟨t', hlocking, hphase', hlock'⟩ := hlooking.hit (ThreadSystem.setPhase_self _)
    (hlooking.grows.live hnp) ((hlooking.grows.cacheId hnp).trans hid)
  exact ⟨t', hlocking, hphase', hlock'.trans hlock⟩

include hminus hroot hdotdot in
/-- A first lookup of ".." leaves a node for the inode `-1` behind. -/
theorem exists_minus_node (hallowed : ∀ s, Allowed s ⟨dp, dotdot⟩) (hquiet : s.Quiet) (i : ℕ) :
    ∃ t np, Advances m Allowed i s t ∧ t.Quiet ∧ np ∈ t.live ∧
      (t.cache.node np).cacheId = noInum := by
  obtain ⟨t, hlooking, hphase, hlock⟩ := exists_looking_parent hmem hlive hroot hdir hne hdotdot
    hallowed hquiet.table hquiet.locksHeld (fun j _ => hquiet.not_scanning j) (hquiet.idle i)
    (hquiet.unlocked dp)
  obtain ⟨rows, hok⟩ := hlooking.table
  obtain ⟨r, hr⟩ := TableOk.exists_has t.cache t.live noInum
  obtain ⟨fresh, hfresh⟩ := Infinite.exists_notMem_finset t.live
  obtain ⟨k, hread⟩ := hminus
  have hdp := hlooking.grows.live hlive
  have hfree : ∀ np ∈ r, np ≠ dp ∧ t.nodeLock np = false := by
    rintro np rfl
    refine ⟨?_, by rw [hlock, hquiet.unlocked]⟩
    rintro rfl
    exact hdir.ne_noInum ⟨k, hread⟩ ((hlooking.grows.cacheId hlive).symm.trans hr.2)
  have hnew : ∀ np ∈ some fresh, np ∉ t.live := by
    rintro np hnp
    rwa [← Option.mem_some_iff.mp hnp]
  obtain ⟨u, hruns, hphase', hcache, hlock', hmade⟩ := ThreadSystem.runs_cachedLookup hok hphase hdp
    hr hfree true hnew hread
  obtain ⟨np, hnpp, hid⟩ : ∃ np,
      (lookupEnd t.cache noInum ⟨true, some fresh, readNode 0 none⟩ r).npp = some np ∧
        (u.cache.node np).cacheId = noInum := by
    rw [hcache]
    cases r with
    | some np => exact ⟨np, rfl, (addReference_cacheId np).trans hr.2⟩
    | none =>
        refine ⟨fresh, rfl, (addReference_cacheId fresh).trans ?_⟩
        rw [fillStat_cacheId, insertNode_node_self]
  have hunlocked : u.nodeLock dp = false := by
    rw [hlock', hlock, hquiet.unlocked]
  have hdone := ((hlooking.threads hruns).thread (.relock hphase' hunlocked)).thread
    (.leave (ThreadSystem.setPhase_self _))
  refine ⟨_, np, hdone, hdone.locksHeld.quiet hdone.table fun j => ?_, hmade np hnpp, hid⟩
  by_cases heq : j = i
  · rw [heq, ThreadSystem.setPhase_self]
  · rw [hdone.others j heq, hquiet.idle]

end Directory

def CallsIn (dp : NodeId) (names : List (List UInt8)) (_ : ThreadSystem) (q : LookupCall) :
    Prop :=
  q.dp = dp ∧ q.name ∈ names

/-- In any directory but the root, a lookup of ".." and one of a hidden name that
is in no entry can come to wait for each other without a race between scans, and
then never return, whatever else is called. -/
theorem lookupThreads_deadlock (hmem : m.HasMemory) (hminus : Unreadable m noInum)
    (hquiet : s.Quiet) (hlive : dp ∈ s.live) (hroot : dp ≠ s.diskfsRootNode)
    (hdir : IsDirectory m (s.cache.node dp).cacheId entries) (hne : entries ≠ [])
    (hdotdot : entries.find? (·.answers dotdot) = none) (hname : OrdinaryName name)
    (hdot : name.getD 0 0 = 46) (hnone : entries.find? (·.answers name) = none) (hij : i ≠ j) :
    ∃ np t, SerialRun m (CallsIn dp [dotdot, name]) s t ∧
      t.phase i = .relocking ⟨dp, dotdot⟩ (some np) ∧
      t.phase j = .locking ⟨dp, name⟩ false np ∧
      ∀ Allowed u, ThreadRun m Allowed t u → u.phase i = t.phase i ∧ u.phase j = t.phase j := by
  have hparent : ∀ s, CallsIn dp [dotdot, name] s ⟨dp, dotdot⟩ := fun _ => ⟨rfl, by simp⟩
  have hhidden : ∀ s, CallsIn dp [dotdot, name] s ⟨dp, name⟩ := fun _ => ⟨rfl, by simp⟩
  -- the node of the inode `-1` is made first
  obtain ⟨t₁, np, h₁, hquiet, hnp, hid⟩ := exists_minus_node hmem hminus hlive hroot hdir hne
    hdotdot hparent hquiet i
  have hlive₁ := h₁.grows.live hlive
  rw [← h₁.grows.root] at hroot
  rw [← h₁.grows.cacheId hlive] at hdir
  have hnode : np ≠ dp := by
    rintro rfl
    exact hdir.ne_noInum hminus hid
  obtain ⟨t₂, h₂, hphase₂, hlock₂⟩ := exists_relocking hmem hlive₁ hroot hdir hne hdotdot
    hparent h₁.table h₁.locksHeld (fun k _ => hquiet.not_scanning k) (hquiet.idle i)
    (hquiet.unlocked dp) hnp hid (hquiet.unlocked np)
  have hidle : ∀ k, k ≠ i → t₂.phase k = .idle := by
    intro k hk
    rw [h₂.others k hk, hquiet.idle]
  have hnone₂ : ∀ k, ¬ t₂.Scanning k := by
    rintro k ⟨q, hk⟩
    by_cases heq : k = i
    · cases hphase₂.symm.trans (heq ▸ hk)
    · cases (hidle k heq).symm.trans hk
  have hfree : t₂.nodeLock dp = false := by
    rw [hlock₂, Function.update_of_ne (Ne.symm hnode), hquiet.unlocked]
  rw [← h₂.grows.cacheId hlive₁] at hdir
  obtain ⟨t₃, h₃, hphase₃, hlock₃⟩ := exists_locking_hidden hmem (h₂.grows.live hlive₁) hdir hne
    hname hdot hnone hhidden h₂.table h₂.locksHeld (fun k _ => hnone₂ k) (hidle j (Ne.symm hij))
    hfree (h₂.grows.live hnp) ((h₂.grows.cacheId hnp).trans hid)
  have hgrows := h₂.grows.trans h₃.grows
  have hstuck : Stuck i j dp np name t₃ := by
    refine ⟨h₃.table, (h₃.others i hij).trans hphase₂, hphase₃,
      ⟨hgrows.live hlive₁, hgrows.live hnp⟩, ⟨?_, ?_⟩, fun k hk hk' => ?_⟩
    · rw [hlock₃, Function.update_self]
    · rw [hlock₃, Function.update_of_ne hnode, hlock₂, Function.update_self]
    · rw [h₃.others k hk', hidle k hk]
      exact ⟨List.not_mem_nil, List.not_mem_nil⟩
  refine ⟨np, t₃, (h₁.run.trans h₂.run).trans h₃.run, hstuck.parent, hstuck.hidden, ?_⟩
  intro Allowed u hrun
  have hstuck' := hstuck.run hrun
  exact ⟨hstuck'.parent.trans hstuck.parent.symm, hstuck'.hidden.trans hstuck.hidden.symm⟩

theorem subdirMount_unreadable : Unreadable (subdirMount false) noInum := ⟨3, rfl⟩

theorem lookupThreads_deadlock_subdir :
    ∃ s np t, s.Quiet ∧ SerialRun (subdirMount false) (CallsIn 1 [dotdot, [46, 120]]) s t ∧
      t.phase 0 = .relocking ⟨1, dotdot⟩ (some np) ∧
      t.phase 1 = .locking ⟨1, [46, 120]⟩ false np ∧
      ∀ Allowed u, ThreadRun (subdirMount false) Allowed t u →
        u.phase 0 = t.phase 0 ∧ u.phase 1 = t.phase 1 := by
  have hquiet := quietThreads_quiet 3 1 0
  have hdir : IsDirectory (subdirMount false) ((quietThreads 3 1 0).cache.node 1).cacheId
      [subdirEntry false] := by
    rw [quietThreads_cacheId]
    exact subdirMount_isDirectory false
  have hname : OrdinaryName [46, 120] := fun _ => ⟨by decide, by decide, by decide⟩
  obtain ⟨np, t, hrun⟩ := lookupThreads_deadlock (i := 0) (j := 1) (fun _ => rfl)
    subdirMount_unreadable hquiet (Finset.mem_singleton_self 1) (by decide) hdir
    (List.cons_ne_nil _ _) rfl hname rfl rfl (by decide)
  exact ⟨quietThreads 3 1 0, np, t, hquiet, hrun⟩

end JfsReader
