import JfsReader.LockOrder
import JfsReader.TranslatorRefinement

/-!
# Lookups in threads

Any number of threads in `diskfs_lookup_hard`, whose steps come in any order,
with the locks of the nodes.  A lookup has its directory locked while it waits
for the lock of the node it has found, but for "..", where it gives the
directory up first and takes it back last.  Scans of different directories share
one buffer, which no lock protects.
-/

namespace JfsReader

open FileService LockOrder

structure LookupCall where
  dp : NodeId
  name : List UInt8

/-- Where a thread stands: before the lock of the directory, before and in
`diskfs_cached_lookup`, before the directory is locked again, and with its
result.  `parent` is set when the directory has been given up for "..". -/
inductive ThreadPhase
  | idle
  | entering (q : LookupCall)
  | scanning (q : LookupCall)
  | looking (q : LookupCall) (parent : Bool) (inum : ℕ)
  | locking (q : LookupCall) (parent : Bool) (np : NodeId)
  | loading (q : LookupCall) (parent : Bool) (np : NodeId)
  | relocking (q : LookupCall) (npp : Option NodeId)
  | returned (q : LookupCall) (err : ErrorT) (npp : Option NodeId)

namespace ThreadPhase

/-- The nodes that the thread takes to be locked by it. -/
def held : ThreadPhase → List NodeId
  | idle | entering _ => []
  | scanning q => [q.dp]
  | looking q parent _ | locking q parent _ | loading q parent _ => if parent then [] else [q.dp]
  | relocking _ npp => npp.toList
  | returned q err npp => q.dp :: if err = .success then npp.toList else []

/-- These and the node that it has made and not returned. -/
def claims : ThreadPhase → List NodeId
  | loading q parent np => np :: (loading q parent np).held
  | p => p.held

/-- The lock that the thread takes next. -/
def target : ThreadPhase → Option NodeId
  | entering q | relocking q _ => some q.dp
  | locking _ _ np => some np
  | _ => none

/-- The return of `diskfs_cached_lookup`, whose error is dropped for "..". -/
def afterLookup (q : LookupCall) (parent : Bool) (err : ErrorT) (npp : Option NodeId) :
    ThreadPhase :=
  if parent then .relocking q npp else .returned q err npp

end ThreadPhase

/-- `raced` are the threads during whose last scan another one was under way. -/
structure ThreadSystem where
  cache : NodeCache
  live : Finset NodeId
  nodeLock : NodeId → Bool
  diskfsRootNode : NodeId
  phase : ℕ → ThreadPhase
  raced : Set ℕ

namespace ThreadSystem

def Scanning (s : ThreadSystem) (i : ℕ) : Prop := ∃ q, s.phase i = .scanning q

/-- Thread `i` begins to write names to `UTF8_Buffer`. -/
def markScan (s : ThreadSystem) (i : ℕ) : ThreadSystem :=
  { s with raced := {j | if j = i then ∃ k, k ≠ i ∧ s.Scanning k else j ∈ s.raced ∨ s.Scanning j} }

def setPhase (s : ThreadSystem) (i : ℕ) (p : ThreadPhase) : ThreadSystem :=
  { s with phase := Function.update s.phase i p }

def setLock (s : ThreadSystem) (np : NodeId) (locked : Bool) : ThreadSystem :=
  { s with nodeLock := Function.update s.nodeLock np locked }

/-- A mutex does not ask who unlocks it. -/
def unlockAll (s : ThreadSystem) (nps : List NodeId) : ThreadSystem :=
  { s with nodeLock := fun np => if np ∈ nps then false else s.nodeLock np }

def withCache (s : ThreadSystem) (c : NodeCache) : ThreadSystem := { s with cache := c }

def addNode (s : ThreadSystem) (np : NodeId) (c : NodeCache) : ThreadSystem :=
  { s.withCache c with live := insert np s.live, nodeLock := Function.update s.nodeLock np false }

end ThreadSystem

/-- `dirscan` has ended, whatever `gotinum` held before. -/
def Scans (m : Mount) (s : ThreadSystem) (q : LookupCall) (err : ErrorT) (inum : ℕ) : Prop :=
  ∃ gotinum, Ends (fun fuel => dirscan m fuel (s.cache.node q.dp).cacheId q.name q.name.length
    gotinum) (err, inum)

/-- The scan of thread `i` ends.  When another one has written to its buffer, any
comparison may have gone wrong. -/
def ScanEnds (m : Mount) (s : ThreadSystem) (i : ℕ) (q : LookupCall) (err : ErrorT)
    (inum : ℕ) : Prop :=
  Scans m s q err inum ∨ i ∈ s.raced

/-- A step of thread `i` in its lookup, which ends when the caller unlocks what
it was given.  The section under `diskfs_node_refcnt_lock` is one step. -/
inductive ThreadStep (m : Mount) (i : ℕ) : ThreadSystem → ThreadSystem → Prop
  | enter {s : ThreadSystem} {q : LookupCall} : s.phase i = .entering q →
      s.nodeLock q.dp = false →
      ThreadStep m i s (((s.setLock q.dp true).markScan i).setPhase i (.scanning q))
  | refuse {s : ThreadSystem} {q : LookupCall} {err : ErrorT} {inum : ℕ} :
      s.phase i = .scanning q → ScanEnds m s i q err inum → err ≠ .success →
      ThreadStep m i s (s.setPhase i (.returned q err none))
  | again {s : ThreadSystem} {q : LookupCall} {inum : ℕ} : s.phase i = .scanning q →
      ScanEnds m s i q .success inum → nameBranch s.diskfsRootNode q.dp q.name = .again →
      ThreadStep m i s (s.setPhase i (.returned q .eagain none))
  | parent {s : ThreadSystem} {q : LookupCall} {inum : ℕ} : s.phase i = .scanning q →
      ScanEnds m s i q .success inum → nameBranch s.diskfsRootNode q.dp q.name = .parent →
      ThreadStep m i s ((s.setLock q.dp false).setPhase i (.looking q true inum))
  | self {s : ThreadSystem} {q : LookupCall} {inum : ℕ} : s.phase i = .scanning q →
      ScanEnds m s i q .success inum → nameBranch s.diskfsRootNode q.dp q.name = .self →
      ThreadStep m i s ((s.withCache (s.cache.addReference q.dp)).setPhase i
        (.returned q .success (some q.dp)))
  | entry {s : ThreadSystem} {q : LookupCall} {inum : ℕ} : s.phase i = .scanning q →
      ScanEnds m s i q .success inum → nameBranch s.diskfsRootNode q.dp q.name = .entry →
      ThreadStep m i s (s.setPhase i (.looking q false inum))
  | hit {s : ThreadSystem} {q : LookupCall} {parent : Bool} {inum fuel : ℕ} {env : LibdiskfsEnv}
      {np : NodeId} {c : NodeCache} : s.phase i = .looking q parent inum →
      lookupSection fuel inum env s.cache = some (.hit np c) →
      ThreadStep m i s ((s.withCache c).setPhase i (.locking q parent np))
  | noMemory {s : ThreadSystem} {q : LookupCall} {parent : Bool} {inum fuel : ℕ}
      {env : LibdiskfsEnv} : s.phase i = .looking q parent inum →
      lookupSection fuel inum env s.cache = some .noMemory →
      ThreadStep m i s (s.setPhase i (.afterLookup q parent .enomem none))
  | miss {s : ThreadSystem} {q : LookupCall} {parent : Bool} {inum fuel : ℕ}
      {env : LibdiskfsEnv} {np : NodeId} {c : NodeCache} : s.phase i = .looking q parent inum →
      lookupSection fuel inum env s.cache = some (.miss np c) → np ∉ s.live →
      ThreadStep m i s ((s.addNode np c).setPhase i (.loading q parent np))
  | lock {s : ThreadSystem} {q : LookupCall} {parent : Bool} {np : NodeId} :
      s.phase i = .locking q parent np → s.nodeLock np = false →
      ThreadStep m i s ((s.setLock np true).setPhase i (.afterLookup q parent .success (some np)))
  | load {s : ThreadSystem} {q : LookupCall} {parent : Bool} {np : NodeId} {fuel : ℕ}
      {found : Option Dinode} : s.phase i = .loading q parent np →
      m.readInode fuel (s.cache.node np).cacheId = some found →
      ThreadStep m i s
        ((s.withCache ((s.cache.fillStat np (readNode 0 found)).addReference np)).setPhase i
          (.afterLookup q parent (readNodeErr (readNode 0 found)) (some np)))
  | relock {s : ThreadSystem} {q : LookupCall} {npp : Option NodeId} :
      s.phase i = .relocking q npp → s.nodeLock q.dp = false →
      ThreadStep m i s ((s.setLock q.dp true).setPhase i (.returned q .success npp))
  | leave {s : ThreadSystem} {q : LookupCall} {err : ErrorT} {npp : Option NodeId} :
      s.phase i = .returned q err npp →
      ThreadStep m i s ((s.unlockAll (s.phase i).held).setPhase i .idle)

/-- The next lookup of the client of a thread: in any node that was given out, or
in the node it has just been given, which it has locked. -/
inductive ClientStep (Allowed : ThreadSystem → LookupCall → Prop) (i : ℕ) :
    ThreadSystem → ThreadSystem → Prop
  | call {s : ThreadSystem} {q : LookupCall} : s.phase i = .idle → q.dp ∈ s.live →
      Allowed s q → ClientStep Allowed i s (s.setPhase i (.entering q))
  | follow {s : ThreadSystem} {q : LookupCall} {np : NodeId} {name : List UInt8} :
      s.phase i = .returned q .success (some np) → Allowed s ⟨np, name⟩ →
      ClientStep Allowed i s
        (((s.unlockAll ((s.phase i).held.filter (· ≠ np))).markScan i).setPhase i
          (.scanning ⟨np, name⟩))

inductive SystemStep (m : Mount) (Allowed : ThreadSystem → LookupCall → Prop) :
    ThreadSystem → ThreadSystem → Prop
  | thread {s s' : ThreadSystem} {i : ℕ} : ThreadStep m i s s' → SystemStep m Allowed s s'
  | client {s s' : ThreadSystem} {i : ℕ} : ClientStep Allowed i s s' →
      SystemStep m Allowed s s'

/-- No lookup is going on and nothing is locked. -/
structure ThreadSystem.Quiet (s : ThreadSystem) : Prop where
  table : ∃ rows, TableOk s.cache rows s.live
  idle : ∀ i, s.phase i = .idle
  unlocked : ∀ np, s.nodeLock np = false

def ThreadRun (m : Mount) (Allowed : ThreadSystem → LookupCall → Prop) :
    ThreadSystem → ThreadSystem → Prop :=
  Relation.ReflTransGen (SystemStep m Allowed)

/-- No two scans are under way. -/
def ThreadSystem.ScansApart (s : ThreadSystem) : Prop :=
  ∀ i j, s.Scanning i → s.Scanning j → i = j

/-- A run in which a scan begins only when no other one is under way. -/
def SerialRun (m : Mount) (Allowed : ThreadSystem → LookupCall → Prop) :
    ThreadSystem → ThreadSystem → Prop :=
  Relation.ReflTransGen fun s s' => SystemStep m Allowed s s' ∧ s'.ScansApart

variable {m : Mount} {i j : ℕ} {s s' : ThreadSystem} {q : LookupCall} {parent : Bool}
  {np : NodeId} {inum : ℕ} {rows : Fin inohsz → List NodeId}

@[simp] theorem ThreadSystem.setPhase_self (p : ThreadPhase) : (s.setPhase i p).phase i = p :=
  Function.update_self ..

theorem ThreadSystem.setPhase_of_ne (hne : j ≠ i) (p : ThreadPhase) :
    (s.setPhase i p).phase j = s.phase j :=
  Function.update_of_ne hne ..

@[simp] theorem ThreadSystem.setLock_self (b : Bool) : (s.setLock np b).nodeLock np = b :=
  Function.update_self ..

theorem ThreadSystem.setLock_of_ne {np' : NodeId} (hne : np' ≠ np) (b : Bool) :
    (s.setLock np b).nodeLock np' = s.nodeLock np' :=
  Function.update_of_ne hne ..

/-! ## A thread alone -/

/-- The steps of `diskfs_cached_lookup`, when the node that is found is not
locked. -/
theorem ThreadSystem.runs_cachedLookup (hok : TableOk s.cache rows s.live)
    (hphase : s.phase i = .looking q parent inum) (hdp : q.dp ∈ s.live) {r : Option NodeId}
    (hr : TableHas s.cache s.live inum r) (hfree : ∀ np ∈ r, np ≠ q.dp ∧ s.nodeLock np = false)
    (malloc : Bool) {makeNode : Option NodeId} (hfresh : ∀ np ∈ makeNode, np ∉ s.live) {k : ℕ}
    {found : Option Dinode} (hread : m.readInode k inum = some found) :
    ∃ s', Relation.ReflTransGen (ThreadStep m i) s s' ∧
      s'.phase i = .afterLookup q parent
        (lookupEnd s.cache inum ⟨malloc, makeNode, readNode 0 found⟩ r).err
        (lookupEnd s.cache inum ⟨malloc, makeNode, readNode 0 found⟩ r).npp ∧
      s'.cache = (lookupEnd s.cache inum ⟨malloc, makeNode, readNode 0 found⟩ r).cache ∧
      s'.nodeLock q.dp = s.nodeLock q.dp ∧
      ∀ np ∈ (lookupEnd s.cache inum ⟨malloc, makeNode, readNode 0 found⟩ r).npp,
        np ∈ s'.live := by
  have hsection := hok.lookupSection hr (Nat.lt_succ_self _) ⟨malloc, makeNode, 0⟩
  unfold sectionEnd at hsection
  cases r with
  | some np =>
      obtain ⟨hne, hunlocked⟩ := hfree np rfl
      have hhit : ThreadStep m i s _ := .hit hphase hsection
      have hlock := ThreadStep.lock (m := m) (i := i)
        (s := (s.withCache (s.cache.addReference np)).setPhase i (.locking q parent np))
        (ThreadSystem.setPhase_self _) hunlocked
      refine ⟨_, .tail (.single hhit) hlock, ThreadSystem.setPhase_self _, rfl, ?_, ?_⟩
      · exact ThreadSystem.setLock_of_ne (Ne.symm hne) true
      · exact fun np' hnp' => Option.mem_some_iff.mp hnp' ▸ hr.1
  | none =>
      unfold lookupEnd missEnd
      cases malloc with
      | false =>
          exact ⟨_, .single (.noMemory hphase hsection), ThreadSystem.setPhase_self _, rfl, rfl,
            by simp⟩
      | true =>
          cases makeNode with
          | none =>
              exact ⟨_, .single (.noMemory hphase hsection), ThreadSystem.setPhase_self _, rfl, rfl,
                by simp⟩
          | some np =>
              have hnew := hfresh np rfl
              have hmiss : ThreadStep m i s _ := .miss hphase hsection hnew
              have hid : ((s.cache.insertNode inum np).node np).cacheId = inum := by
                rw [insertNode_node_self]
              have hload : ThreadStep m i
                  ((s.addNode np (s.cache.insertNode inum np)).setPhase i (.loading q parent np))
                  _ :=
                .load (ThreadSystem.setPhase_self _) (hid.symm ▸ hread)
              refine ⟨_, .tail (.single hmiss) hload, ThreadSystem.setPhase_self _, rfl, ?_, ?_⟩
              · have hne : q.dp ≠ np := fun heq => hnew (heq ▸ hdp)
                exact Function.update_of_ne hne ..
              · exact fun np' hnp' => Option.mem_some_iff.mp hnp' ▸ Finset.mem_insert_self _ _

/-- Nodes stay, with their inodes. -/
structure Grows (s s' : ThreadSystem) : Prop where
  live : s.live ⊆ s'.live
  cacheId : ∀ {np}, np ∈ s.live → (s'.cache.node np).cacheId = (s.cache.node np).cacheId
  root : s'.diskfsRootNode = s.diskfsRootNode

theorem Grows.of_eq (hlive : s'.live = s.live)
    (hcacheId : ∀ np, (s'.cache.node np).cacheId = (s.cache.node np).cacheId)
    (hroot : s'.diskfsRootNode = s.diskfsRootNode) : Grows s s' :=
  ⟨hlive.symm.subset, fun _ => hcacheId _, hroot⟩

def ThreadSystem.HasTable (s : ThreadSystem) : Prop := ∃ rows, TableOk s.cache rows s.live

/-- Only thread `i` goes on, and it has what is locked and was not before, or was
locked by it. -/
structure Changes (i : ℕ) (s s' : ThreadSystem) : Prop where
  others : ∀ j, j ≠ i → s'.phase j = s.phase j
  locks : ∀ np, s'.nodeLock np = true →
    np ∈ (s'.phase i).held ∨ (s.nodeLock np = true ∧ np ∉ (s.phase i).held)

theorem ThreadSystem.locks_kept {p : ThreadPhase} (hheld : (s.phase i).held ⊆ p.held)
    (hlocked : s.nodeLock np = true) :
    np ∈ p.held ∨ (s.nodeLock np = true ∧ np ∉ (s.phase i).held) := by
  by_cases hmem : np ∈ (s.phase i).held
  · exact .inl (hheld hmem)
  · exact .inr ⟨hlocked, hmem⟩

/-- The lock is released, or taken by the thread. -/
theorem ThreadSystem.locks_set {np' : NodeId} {b : Bool} {p : ThreadPhase}
    (hheld : ∀ np ∈ (s.phase i).held, np ≠ np' → np ∈ p.held) (hnew : b = true → np' ∈ p.held)
    (hlocked : (s.setLock np' b).nodeLock np = true) :
    np ∈ p.held ∨ (s.nodeLock np = true ∧ np ∉ (s.phase i).held) := by
  by_cases heq : np = np'
  · rw [heq, ThreadSystem.setLock_self] at hlocked
    exact .inl (heq ▸ hnew hlocked)
  · rw [ThreadSystem.setLock_of_ne heq] at hlocked
    by_cases hmem : np ∈ (s.phase i).held
    · exact .inl (hheld np hmem heq)
    · exact .inr ⟨hlocked, hmem⟩

theorem ThreadSystem.locks_unlockAll {nps : List NodeId} {p : ThreadPhase}
    (hheld : ∀ np ∈ (s.phase i).held, np ∉ nps → np ∈ p.held)
    (hlocked : (s.unlockAll nps).nodeLock np = true) :
    np ∈ p.held ∨ (s.nodeLock np = true ∧ np ∉ (s.phase i).held) := by
  have hnot : np ∉ nps := by
    intro hmem
    rw [show (s.unlockAll nps).nodeLock np = false from if_pos hmem] at hlocked
    cases hlocked
  rw [show (s.unlockAll nps).nodeLock np = s.nodeLock np from if_neg hnot] at hlocked
  by_cases hmem : np ∈ (s.phase i).held
  · exact .inl (hheld np hmem hnot)
  · exact .inr ⟨hlocked, hmem⟩

theorem ThreadPhase.held_afterLookup {err : ErrorT} {npp : Option NodeId} :
    (if parent then [] else [q.dp]) ⊆ (ThreadPhase.afterLookup q parent err npp).held := by
  cases parent with
  | true => exact List.nil_subset _
  | false => exact List.cons_subset_cons _ (List.nil_subset _)

theorem Changes.setPhase {p : ThreadPhase} (hphase : s'.phase = s.phase)
    (hlocks : ∀ np, s'.nodeLock np = true →
      np ∈ p.held ∨ (s.nodeLock np = true ∧ np ∉ (s.phase i).held)) :
    Changes i s (s'.setPhase i p) := by
  refine ⟨fun j hne => ?_, fun np hlocked => ?_⟩
  · rw [ThreadSystem.setPhase_of_ne hne, hphase]
  · rw [ThreadSystem.setPhase_self]
    exact hlocks np hlocked

theorem ThreadStep.changes (hstep : ThreadStep m i s s') : Changes i s s' := by
  cases hstep with
  | enter hphase _ =>
      refine .setPhase rfl fun np hlocked => ThreadSystem.locks_set ?_ ?_ hlocked
      · simp [hphase, ThreadPhase.held]
      · simp [ThreadPhase.held]
  | refuse hphase => exact .setPhase rfl fun np => s.locks_kept (by simp [hphase, ThreadPhase.held])
  | again hphase => exact .setPhase rfl fun np => s.locks_kept (by simp [hphase, ThreadPhase.held])
  | parent hphase =>
      refine .setPhase rfl fun np hlocked => ThreadSystem.locks_set ?_ (by simp) hlocked
      simp [hphase, ThreadPhase.held]
  | self hphase => exact .setPhase rfl fun np => s.locks_kept (by simp [hphase, ThreadPhase.held])
  | entry hphase => exact .setPhase rfl fun np => s.locks_kept (by simp [hphase, ThreadPhase.held])
  | hit hphase => exact .setPhase rfl fun np => s.locks_kept (by simp [hphase, ThreadPhase.held])
  | noMemory hphase =>
      exact .setPhase rfl fun np => s.locks_kept (hphase ▸ ThreadPhase.held_afterLookup)
  | miss hphase =>
      refine .setPhase rfl fun np hlocked => ThreadSystem.locks_set ?_ (by simp) hlocked
      simp +contextual [hphase, ThreadPhase.held]
  | @lock q parent np hphase _ =>
      refine .setPhase rfl fun np' hlocked => ThreadSystem.locks_set ?_ ?_ hlocked
      · intro np' hmem _
        rw [hphase] at hmem
        exact ThreadPhase.held_afterLookup hmem
      · cases parent <;> simp [ThreadPhase.afterLookup, ThreadPhase.held]
  | load hphase =>
      exact .setPhase rfl fun np => s.locks_kept (hphase ▸ ThreadPhase.held_afterLookup)
  | relock hphase _ =>
      refine .setPhase rfl fun np hlocked => ThreadSystem.locks_set ?_ ?_ hlocked
      · simp +contextual [hphase, ThreadPhase.held]
      · simp [ThreadPhase.held]
  | leave hphase =>
      exact .setPhase rfl fun np => ThreadSystem.locks_unlockAll (by simp +contextual)

theorem ThreadStep.grows (htable : s.HasTable) (hstep : ThreadStep m i s s') :
    s'.HasTable ∧ Grows s s' := by
  obtain ⟨rows, hok⟩ := htable
  cases hstep with
  | self hphase =>
      exact ⟨⟨rows, hok.setReferences _ _⟩, .of_eq rfl (addReference_cacheId ·) rfl⟩
  | hit _ hsection =>
      obtain ⟨np, hnp, -, hpart⟩ | hpart | ⟨np, -, -, hpart⟩ := hok.lookupSection_cases hsection
      · cases hpart
        exact ⟨⟨rows, hok.setReferences _ _⟩, .of_eq rfl (addReference_cacheId ·) rfl⟩
      · cases hpart
      · cases hpart
  | miss _ hsection hfresh =>
      obtain ⟨np, hnp, -, hpart⟩ | hpart | ⟨np, hnone, -, hpart⟩ := hok.lookupSection_cases hsection
      · cases hpart
      · cases hpart
      · obtain ⟨rfl, rfl⟩ := LookupSection.miss.inj hpart
        refine ⟨⟨_, hok.insertNode hfresh hnone⟩, Finset.subset_insert _ _, ?_, rfl⟩
        intro np' hnp'
        exact congrArg Node.cacheId (insertNode_node_of_ne fun heq => hfresh (heq ▸ hnp'))
  | load =>
      refine ⟨⟨rows, (hok.fillStat _ _).setReferences _ _⟩, .of_eq rfl (fun np => ?_) rfl⟩
      exact (addReference_cacheId np).trans (fillStat_cacheId _ np)
  | _ => exact ⟨⟨rows, hok⟩, .of_eq rfl (fun _ => rfl) rfl⟩

/-! ## Scans apart -/

/-- No scan that is under way has been overlapped by another one. -/
def ThreadSystem.Unraced (s : ThreadSystem) : Prop := ∀ i, s.Scanning i → i ∉ s.raced

theorem Changes.scanning {j : ℕ} (h : Changes i s s') (hne : j ≠ i) :
    s'.Scanning j ↔ s.Scanning j := by
  unfold ThreadSystem.Scanning
  rw [h.others j hne]

/-- When no other thread scans, this one may begin. -/
theorem Changes.scansApart (h : Changes i s s') (halone : ∀ j, j ≠ i → ¬ s.Scanning j) :
    s'.ScansApart := by
  have honly : ∀ j, s'.Scanning j → j = i := by
    intro j hj
    by_contra hne
    exact halone j hne ((h.scanning hne).mp hj)
  intro j k hj hk
  rw [honly j hj, honly k hk]

theorem ThreadSystem.markScan_unraced
    (hapart : ((s.markScan i).setPhase i (.scanning q)).ScansApart) :
    ((s.markScan i).setPhase i (.scanning q)).Unraced := by
  have hself : ((s.markScan i).setPhase i (.scanning q)).Scanning i :=
    ⟨q, ThreadSystem.setPhase_self _⟩
  intro j hj hraced
  obtain rfl := hapart j i hj hself
  change if j = j then ∃ k, k ≠ j ∧ s.Scanning k else _ at hraced
  rw [if_pos rfl] at hraced
  obtain ⟨k, hne, q', hk⟩ := hraced
  exact hne (hapart k j ⟨q', (ThreadSystem.setPhase_of_ne hne _).trans hk⟩ hself)

theorem ThreadSystem.Unraced.setPhase {p : ThreadPhase} (h : s.Unraced)
    (hphase : s'.phase = s.phase) (hraced : s'.raced = s.raced) (hp : ∀ q, p ≠ .scanning q) :
    (s'.setPhase i p).Unraced := by
  rintro j ⟨q, hj⟩
  change j ∉ s'.raced
  rw [hraced]
  by_cases heq : j = i
  · rw [heq, ThreadSystem.setPhase_self] at hj
    exact absurd hj (hp q)
  · rw [ThreadSystem.setPhase_of_ne heq, hphase] at hj
    exact h j ⟨q, hj⟩

theorem ThreadPhase.afterLookup_ne_scanning {err : ErrorT} {npp : Option NodeId} (q' : LookupCall) :
    ThreadPhase.afterLookup q parent err npp ≠ .scanning q' := by
  cases parent <;> simp [ThreadPhase.afterLookup]

theorem ThreadStep.unraced (h : s.Unraced) (hstep : ThreadStep m i s s') (hapart : s'.ScansApart) :
    s'.Unraced := by
  cases hstep with
  | enter => exact ThreadSystem.markScan_unraced hapart
  | noMemory => exact h.setPhase rfl rfl ThreadPhase.afterLookup_ne_scanning
  | lock => exact h.setPhase rfl rfl ThreadPhase.afterLookup_ne_scanning
  | load => exact h.setPhase rfl rfl ThreadPhase.afterLookup_ne_scanning
  | _ => exact h.setPhase rfl rfl (by simp)

variable {Allowed : ThreadSystem → LookupCall → Prop}

theorem SerialRun.run (h : SerialRun m Allowed s s') : ThreadRun m Allowed s s' := by
  induction h with
  | refl => exact .refl
  | tail _ hstep ih => exact ih.tail hstep.1

theorem ClientStep.changes (hstep : ClientStep Allowed i s s') : Changes i s s' := by
  cases hstep with
  | call hphase => exact .setPhase rfl fun np => s.locks_kept (by simp [hphase, ThreadPhase.held])
  | @follow q np name hphase =>
      refine .setPhase rfl fun np' => ThreadSystem.locks_unlockAll ?_
      intro np' hmem hnot
      rw [List.mem_filter, not_and] at hnot
      have heq : np' = np := by simpa using hnot hmem
      rw [heq]
      exact List.mem_singleton_self np

theorem ClientStep.unraced (h : s.Unraced) (hstep : ClientStep Allowed i s s')
    (hapart : s'.ScansApart) : s'.Unraced := by
  cases hstep with
  | call => exact h.setPhase rfl rfl (by simp)
  | follow => exact ThreadSystem.markScan_unraced hapart

theorem ClientStep.grows (htable : s.HasTable) (hstep : ClientStep Allowed i s s') :
    s'.HasTable ∧ Grows s s' := by
  cases hstep with
  | call => exact ⟨htable, .of_eq rfl (fun _ => rfl) rfl⟩
  | follow => exact ⟨htable, .of_eq rfl (fun _ => rfl) rfl⟩

/-- Whatever is locked is held by a thread that is going to unlock it. -/
def ThreadSystem.LocksHeld (s : ThreadSystem) : Prop :=
  ∀ ⦃np⦄, s.nodeLock np = true → ∃ i, np ∈ (s.phase i).held

theorem Changes.locksHeld (h : Changes i s s') (hlocks : s.LocksHeld) : s'.LocksHeld := by
  intro np hlocked
  rcases h.locks np hlocked with hheld | ⟨hold, hnot⟩
  · exact ⟨i, hheld⟩
  · obtain ⟨j, hj⟩ := hlocks hold
    have hne : j ≠ i := fun heq => hnot (heq ▸ hj)
    exact ⟨j, by rwa [h.others j hne]⟩

theorem ThreadSystem.LocksHeld.quiet (h : s.LocksHeld) (htable : s.HasTable)
    (hidle : ∀ i, s.phase i = .idle) : s.Quiet := by
  refine ⟨htable, hidle, fun np => ?_⟩
  by_contra hlocked
  obtain ⟨i, hi⟩ := h (Bool.eq_true_of_not_eq_false hlocked)
  rw [hidle i] at hi
  cases hi

theorem ThreadSystem.Quiet.not_scanning (h : s.Quiet) (i : ℕ) : ¬ s.Scanning i := by
  rintro ⟨q, hq⟩
  rw [h.idle i] at hq
  cases hq

theorem ThreadSystem.Quiet.locksHeld (h : s.Quiet) : s.LocksHeld := by
  intro np hlocked
  rw [h.unlocked] at hlocked
  cases hlocked

/-- There is one node, and no lookup has come yet. -/
def quietThreads (inum : ℕ) (np rootNode : NodeId) : ThreadSystem :=
  ⟨((inodeInit blankCache).insertNode inum np).addReference np, {np}, fun _ => false, rootNode,
    fun _ => .idle, ∅⟩

theorem quietThreads_quiet (inum : ℕ) (np rootNode : NodeId) :
    (quietThreads inum np rootNode).Quiet := by
  have hnone : ∀ np' ∈ (∅ : Finset NodeId), ((inodeInit blankCache).node np').cacheId ≠ inum := by
    simp
  have hinit := (TableOk.init blankCache).insertNode (Finset.notMem_empty np) hnone
  rw [insert_empty_eq] at hinit
  exact ⟨⟨_, hinit.setReferences np _⟩, fun _ => rfl, fun _ => rfl⟩

theorem quietThreads_cacheId (inum : ℕ) (np rootNode : NodeId) :
    ((quietThreads inum np rootNode).cache.node np).cacheId = inum := by
  change (((inodeInit blankCache).insertNode inum np).addReference np |>.node np).cacheId = inum
  rw [addReference_cacheId, insertNode_node_self]

end JfsReader
