import JfsReader.FailedLoads

/-!
# Concurrent lookups

Any number of calls of `diskfs_cached_lookup`, whose steps come in any order.
A miss publishes its node in the section under `diskfs_node_refcnt_lock` and
fills it in a later step, without holding the lock of the node in between, so
that a second call may take that lock and return the node while it is still
empty.
-/

namespace JfsReader

/-- Where a call stands.  After its section it waits for the lock of the node it
has found, or has its new node still to fill. -/
inductive CallPhase
  | start
  | locking (np : NodeId)
  | loading (np : NodeId)
  | returning (err : ErrorT) (npp : Option NodeId)
  | returned (err : ErrorT) (npp : Option NodeId)

structure LookupSystem where
  cache : NodeCache
  live : Finset NodeId
  nodeLock : NodeId → Bool
  phase : ℕ → CallPhase

namespace LookupSystem

def setPhase (s : LookupSystem) (i : ℕ) (p : CallPhase) : LookupSystem :=
  { s with phase := Function.update s.phase i p }

def setLock (s : LookupSystem) (np : NodeId) (held : Bool) : LookupSystem :=
  { s with nodeLock := Function.update s.nodeLock np held }

def withCache (s : LookupSystem) (c : NodeCache) : LookupSystem := { s with cache := c }

/-- What call `i` does with the outcome of its section.  A new node is unlocked
and stays so. -/
def enter (s : LookupSystem) (i : ℕ) : LookupSection → LookupSystem
  | .hit np c => (s.withCache c).setPhase i (.locking np)
  | .noMemory => s.setPhase i (.returning .enomem none)
  | .miss np c =>
      { ((s.withCache c).setLock np false).setPhase i (.loading np) with
        live := insert np s.live }

def load (s : LookupSystem) (i : ℕ) (np : NodeId) (di : Dinode) : LookupSystem :=
  (s.withCache ((s.cache.fillStat np (.ok di)).addReference np)).setPhase i
    (.returning .success (some np))

end LookupSystem

inductive LookupAction
  | enter (i : ℕ)
  | lock (i : ℕ) (np : NodeId)
  | load (i : ℕ)
  | ret (i : ℕ)
  | unlock (np : NodeId)

/-- One step, for calls whose `read_node` succeeds; call `i` is for the inode
`inums i`.  Callers unlock the nodes they were given at any time. -/
inductive LookupStep (m : Mount) (inums : ℕ → ℕ) :
    LookupSystem → LookupAction → LookupSystem → Prop
  | enter {s : LookupSystem} {i fuel : ℕ} {env : LibdiskfsEnv} {part : LookupSection} :
      s.phase i = .start → (∀ np, env.makeNode = some np → np ∉ s.live) →
      lookupSection fuel (inums i) env s.cache = some part →
      LookupStep m inums s (.enter i) (s.enter i part)
  | lock {s : LookupSystem} {i : ℕ} {np : NodeId} : s.phase i = .locking np →
      s.nodeLock np = false →
      LookupStep m inums s (.lock i np)
        ((s.setLock np true).setPhase i (.returning .success (some np)))
  | load {s : LookupSystem} {i fuel : ℕ} {np : NodeId} {di : Dinode} :
      s.phase i = .loading np → m.readInode fuel (s.cache.node np).cacheId = some (some di) →
      LookupStep m inums s (.load i) (s.load i np di)
  | ret {s : LookupSystem} {i : ℕ} {err : ErrorT} {npp : Option NodeId} :
      s.phase i = .returning err npp →
      LookupStep m inums s (.ret i) (s.setPhase i (.returned err npp))
  | unlock {s : LookupSystem} {np : NodeId} : s.nodeLock np = true →
      LookupStep m inums s (.unlock np) (s.setLock np false)

/-- The states that steps reach which all meet a condition. -/
inductive LookupRun (m : Mount) (inums : ℕ → ℕ) (Meets : LookupSystem → LookupAction → Prop) :
    LookupSystem → Prop
  | init (c : NodeCache) :
      LookupRun m inums Meets ⟨inodeInit c, ∅, fun _ => false, fun _ => .start⟩
  | step {s s' : LookupSystem} {a : LookupAction} : LookupRun m inums Meets s → Meets s a →
      LookupStep m inums s a s' → LookupRun m inums Meets s'

/-- The lock of a node is taken only when no call has the node still to fill. -/
def LocksFilled (s : LookupSystem) : LookupAction → Prop
  | .lock _ np => ∀ j, s.phase j ≠ .loading np
  | _ => True

/-- Every node that a call has returned with 0 is filled from its inode. -/
def ReturnsFilled (m : Mount) (inums : ℕ → ℕ) (s : LookupSystem) : Prop :=
  ∀ i np, s.phase i = .returned .success (some np) →
    ∃ di, ReadsInode m (inums i) di ∧ (s.cache.node np).stat = some (readStat (inums i) di)

/-! ## The invariant of all runs -/

/-- The calls that have to do with a node. -/
def CallPhase.Concerns (p : CallPhase) (np : NodeId) : Prop :=
  p = .locking np ∨ p = .loading np ∨ p = .returning .success (some np) ∨
    p = .returned .success (some np)

structure SystemOk (m : Mount) (inums : ℕ → ℕ) (s : LookupSystem) : Prop where
  table : ∃ rows, TableOk s.cache rows s.live
  concerns : ∀ {i np}, (s.phase i).Concerns np →
    np ∈ s.live ∧ (s.cache.node np).cacheId = inums i
  loading : ∀ {i np}, s.phase i = .loading np → (s.cache.node np).dnStat = none
  loader : ∀ {np}, np ∈ s.live → (s.cache.node np).dnStat = none →
    ∃ i, s.phase i = .loading np
  unique : ∀ {i j np}, s.phase i = .loading np → s.phase j = .loading np → i = j
  filled : ∀ {np di}, np ∈ s.live → (s.cache.node np).dnStat = some di →
    ReadsInode m (s.cache.node np).cacheId di

variable {m : Mount} {inums : ℕ → ℕ} {s s' : LookupSystem} {i : ℕ} {np : NodeId}
  {a : LookupAction}

@[simp] theorem setPhase_self (p : CallPhase) : (s.setPhase i p).phase i = p :=
  Function.update_self ..

theorem setPhase_of_ne {j : ℕ} (hne : j ≠ i) (p : CallPhase) :
    (s.setPhase i p).phase j = s.phase j :=
  Function.update_of_ne hne ..

theorem concerns_loading_iff {np' : NodeId} : (CallPhase.loading np).Concerns np' ↔ np' = np := by
  unfold CallPhase.Concerns
  simp [eq_comm]

theorem SystemOk.setLock (h : SystemOk m inums s) (np : NodeId) (held : Bool) :
    SystemOk m inums (s.setLock np held) :=
  ⟨h.table, h.concerns, h.loading, h.loader, h.unique, h.filled⟩

theorem withCache_cache (c : NodeCache) : (s.withCache c).cache = c := rfl

theorem SystemOk.addReference (h : SystemOk m inums s) (np : NodeId) :
    SystemOk m inums (s.withCache (s.cache.addReference np)) := by
  obtain ⟨rows, hok⟩ := h.table
  refine ⟨⟨rows, hok.setReferences np _⟩, ?_, ?_, ?_, h.unique, ?_⟩
  · intro i np' hphase
    rw [withCache_cache, addReference_cacheId]
    exact h.concerns hphase
  · intro i np' hphase
    rw [withCache_cache, addReference_dnStat]
    exact h.loading hphase
  · intro np' hnp' hstat
    rw [withCache_cache, addReference_dnStat] at hstat
    exact h.loader hnp' hstat
  · intro np' di hnp' hstat
    rw [withCache_cache, addReference_dnStat] at hstat
    rw [withCache_cache, addReference_cacheId]
    exact h.filled hnp' hstat

/-- A call that is done with loading, or never came to it, goes on. -/
theorem SystemOk.setPhase (h : SystemOk m inums s) {p : CallPhase}
    (hold : ∀ np, s.phase i ≠ .loading np) (hnew : ∀ np, p ≠ .loading np)
    (hconcerns : ∀ np, p.Concerns np →
      np ∈ s.live ∧ (s.cache.node np).cacheId = inums i) :
    SystemOk m inums (s.setPhase i p) := by
  have hloading : ∀ {j np}, (s.setPhase i p).phase j = .loading np ↔ s.phase j = .loading np := by
    intro j np
    by_cases heq : j = i
    · rw [heq, setPhase_self]
      exact ⟨fun hp => absurd hp (hnew np), fun hp => absurd hp (hold np)⟩
    · rw [setPhase_of_ne heq]
  refine ⟨h.table, ?_, ?_, ?_, ?_, h.filled⟩
  · intro j np hphase
    by_cases heq : j = i
    · rw [heq, setPhase_self] at hphase
      rw [heq]
      exact hconcerns np hphase
    · rw [setPhase_of_ne heq] at hphase
      exact h.concerns hphase
  · intro j np hphase
    exact h.loading (hloading.mp hphase)
  · intro np hnp hstat
    obtain ⟨j, hj⟩ := h.loader hnp hstat
    exact ⟨j, hloading.mpr hj⟩
  · intro j k np hj hk
    exact h.unique (hloading.mp hj) (hloading.mp hk)

theorem enter_miss_self (c : NodeCache) : (s.enter i (.miss np c)).phase i = .loading np :=
  Function.update_self ..

theorem enter_miss_of_ne {j : ℕ} (hne : j ≠ i) (c : NodeCache) :
    (s.enter i (.miss np c)).phase j = s.phase j :=
  Function.update_of_ne hne ..

theorem enter_miss_loading_iff (hstart : s.phase i = .start) {c : NodeCache} {j : ℕ}
    {np' : NodeId} :
    (s.enter i (.miss np c)).phase j = .loading np' ↔
      (j = i ∧ np' = np) ∨ s.phase j = .loading np' := by
  by_cases hj : j = i
  · rw [hj, enter_miss_self, hstart]
    simp [eq_comm]
  · rw [enter_miss_of_ne hj]
    simp [hj]

theorem SystemOk.insertNode (h : SystemOk m inums s) (hstart : s.phase i = .start)
    (hfresh : np ∉ s.live) (hnone : ∀ np ∈ s.live, (s.cache.node np).cacheId ≠ inums i) :
    SystemOk m inums (s.enter i (.miss np (s.cache.insertNode (inums i) np))) := by
  obtain ⟨rows, hok⟩ := h.table
  have hcache : (s.enter i (.miss np (s.cache.insertNode (inums i) np))).cache =
    s.cache.insertNode (inums i) np := rfl
  have hne : ∀ {np'}, np' ∈ s.live → np' ≠ np := fun hnp' heq => hfresh (heq ▸ hnp')
  have hold : ∀ {j np'}, s.phase j = .loading np' → np' ∈ s.live :=
    fun hj => (h.concerns (.inr (.inl hj))).1
  refine ⟨⟨_, hok.insertNode hfresh hnone⟩, ?_, ?_, ?_, ?_, ?_⟩
  · intro j np' hphase
    rw [hcache]
    by_cases hj : j = i
    · rw [hj, enter_miss_self, concerns_loading_iff] at hphase
      rw [hphase, hj, insertNode_node_self]
      exact ⟨Finset.mem_insert_self np s.live, rfl⟩
    · rw [enter_miss_of_ne hj] at hphase
      obtain ⟨hmem, hid⟩ := h.concerns hphase
      rw [insertNode_node_of_ne (hne hmem)]
      exact ⟨Finset.mem_insert_of_mem hmem, hid⟩
  · intro j np' hphase
    rw [hcache]
    rcases (enter_miss_loading_iff hstart).mp hphase with ⟨-, rfl⟩ | hj
    · rw [insertNode_node_self]
    · rw [insertNode_node_of_ne (hne (hold hj))]
      exact h.loading hj
  · intro np' hnp' hstat
    rcases Finset.mem_insert.mp hnp' with rfl | hmem
    · exact ⟨i, enter_miss_self _⟩
    · rw [hcache, insertNode_node_of_ne (hne hmem)] at hstat
      obtain ⟨j, hj⟩ := h.loader hmem hstat
      exact ⟨j, (enter_miss_loading_iff hstart).mpr (.inr hj)⟩
  · intro j k np' hj hk
    rcases (enter_miss_loading_iff hstart).mp hj with ⟨hji, rfl⟩ | hjold <;>
      rcases (enter_miss_loading_iff hstart).mp hk with ⟨hki, heq⟩ | hkold
    · rw [hji, hki]
    · exact absurd (hold hkold) hfresh
    · exact absurd (heq ▸ hold hjold) hfresh
    · exact h.unique hjold hkold
  · intro np' di hnp' hstat
    rw [hcache] at hstat ⊢
    rcases Finset.mem_insert.mp hnp' with rfl | hmem
    · rw [insertNode_node_self] at hstat
      cases hstat
    · rw [insertNode_node_of_ne (hne hmem)] at hstat ⊢
      exact h.filled hmem hstat

theorem load_cacheId {di : Dinode} (np' : NodeId) :
    ((s.load i np di).cache.node np').cacheId = (s.cache.node np').cacheId := by
  unfold LookupSystem.load LookupSystem.setPhase LookupSystem.withCache
  rw [addReference_cacheId, fillStat_cacheId]

theorem load_dnStat_self {di : Dinode} :
    ((s.load i np di).cache.node np).dnStat = some di := by
  unfold LookupSystem.load LookupSystem.setPhase LookupSystem.withCache
  rw [addReference_dnStat, fillStat_ok_self]

theorem load_dnStat_of_ne {di : Dinode} {np' : NodeId} (hne : np' ≠ np) :
    ((s.load i np di).cache.node np').dnStat = (s.cache.node np').dnStat := by
  unfold LookupSystem.load LookupSystem.setPhase LookupSystem.withCache
  rw [addReference_dnStat, fillStat_node_of_ne hne]

theorem load_phase_self {di : Dinode} :
    (s.load i np di).phase i = .returning .success (some np) :=
  Function.update_self ..

theorem load_phase_of_ne {di : Dinode} {j : ℕ} (hne : j ≠ i) :
    (s.load i np di).phase j = s.phase j :=
  Function.update_of_ne hne ..

theorem load_loading_iff {di : Dinode} {j : ℕ} {np' : NodeId} :
    (s.load i np di).phase j = .loading np' ↔ j ≠ i ∧ s.phase j = .loading np' := by
  by_cases hj : j = i
  · rw [hj, load_phase_self]
    simp
  · rw [load_phase_of_ne hj]
    simp [hj]

theorem SystemOk.load (h : SystemOk m inums s) (hloading : s.phase i = .loading np)
    {di : Dinode} (hread : ReadsInode m (s.cache.node np).cacheId di) :
    SystemOk m inums (s.load i np di) := by
  obtain ⟨rows, hok⟩ := h.table
  have hapart : ∀ {j np'}, j ≠ i → s.phase j = .loading np' → np' ≠ np := by
    rintro j np' hne hj rfl
    exact hne (h.unique hj hloading)
  refine ⟨⟨rows, (hok.fillStat np _).setReferences np _⟩, ?_, ?_, ?_, ?_, ?_⟩
  · intro j np' hconcerns
    rw [load_cacheId]
    by_cases hj : j = i
    · rw [hj, load_phase_self] at hconcerns
      obtain rfl : np = np' := by simpa [CallPhase.Concerns] using hconcerns
      rw [hj]
      exact h.concerns (.inr (.inl hloading))
    · rw [load_phase_of_ne hj] at hconcerns
      exact h.concerns hconcerns
  · intro j np' hj
    obtain ⟨hne, hj⟩ := load_loading_iff.mp hj
    rw [load_dnStat_of_ne (hapart hne hj)]
    exact h.loading hj
  · intro np' hnp' hstat
    have hne : np' ≠ np := by
      rintro rfl
      rw [load_dnStat_self] at hstat
      cases hstat
    rw [load_dnStat_of_ne hne] at hstat
    obtain ⟨j, hj⟩ := h.loader hnp' hstat
    refine ⟨j, load_loading_iff.mpr ⟨?_, hj⟩⟩
    rintro rfl
    rw [hloading] at hj
    cases hj
    exact hne rfl
  · intro j k np' hj hk
    exact h.unique (load_loading_iff.mp hj).2 (load_loading_iff.mp hk).2
  · intro np' di' hnp' hstat
    rw [load_cacheId]
    by_cases heq : np' = np
    · rw [heq, load_dnStat_self] at hstat
      cases hstat
      rw [heq]
      exact hread
    · rw [load_dnStat_of_ne heq] at hstat
      exact h.filled hnp' hstat

theorem SystemOk.enter (h : SystemOk m inums s) (hstart : s.phase i = .start) {fuel : ℕ}
    {env : LibdiskfsEnv} {part : LookupSection}
    (hfresh : ∀ np, env.makeNode = some np → np ∉ s.live)
    (hpart : lookupSection fuel (inums i) env s.cache = some part) :
    SystemOk m inums (s.enter i part) := by
  obtain ⟨rows, hok⟩ := h.table
  rcases hok.lookupSection_cases hpart with ⟨np, hnp, hid, rfl⟩ | rfl | ⟨np, hnone, hmake, rfl⟩
  · refine (h.addReference np).setPhase ?_ (by simp) ?_
    · intro np' hloading
      rw [show s.phase i = .loading np' from hloading] at hstart
      cases hstart
    · intro np' hconcerns
      obtain rfl : np = np' := by simpa [CallPhase.Concerns] using hconcerns
      rw [withCache_cache, addReference_cacheId]
      exact ⟨hnp, hid⟩
  · refine h.setPhase ?_ (by simp) ?_
    · intro np' hloading
      rw [hloading] at hstart
      cases hstart
    · intro np' hconcerns
      simp [CallPhase.Concerns] at hconcerns
  · exact h.insertNode hstart (hfresh np hmake) hnone

theorem SystemOk.step (h : SystemOk m inums s) (hstep : LookupStep m inums s a s') :
    SystemOk m inums s' := by
  cases hstep with
  | enter hstart hfresh hpart => exact h.enter hstart hfresh hpart
  | @lock i np hlocking _ =>
      refine (h.setLock np true).setPhase ?_ (by simp) ?_
      · intro np' hloading
        rw [show s.phase i = .loading np' from hloading] at hlocking
        cases hlocking
      · intro np' hconcerns
        obtain rfl : np = np' := by simpa [CallPhase.Concerns] using hconcerns
        exact h.concerns (.inl hlocking)
  | load hloading hread => exact h.load hloading ⟨_, hread⟩
  | @ret i err npp hreturning =>
      refine h.setPhase ?_ (by simp) ?_
      · intro np' hloading
        rw [hreturning] at hloading
        cases hloading
      · intro np' hconcerns
        obtain ⟨rfl, rfl⟩ : err = .success ∧ npp = some np' := by
          simpa [CallPhase.Concerns] using hconcerns
        exact h.concerns (.inr (.inr (.inl hreturning)))
  | unlock _ => exact h.setLock _ false

theorem LookupRun.systemOk {Meets : LookupSystem → LookupAction → Prop}
    (h : LookupRun m inums Meets s) : SystemOk m inums s := by
  induction h with
  | init c => exact ⟨⟨_, .init c⟩, by simp [CallPhase.Concerns], by simp, by simp, by simp, by simp⟩
  | step _ _ hstep ih => exact ih.step hstep

/-! ## Calls that return -/

/-- Phases of a call that is past its last wait. -/
def CallPhase.Answers (p : CallPhase) (np : NodeId) : Prop :=
  p = .returning .success (some np) ∨ p = .returned .success (some np)

theorem CallPhase.Answers.concerns {p : CallPhase} (h : p.Answers np) : p.Concerns np := by
  rcases h with h | h
  · exact .inr (.inr (.inl h))
  · exact .inr (.inr (.inr h))

def Answered (s : LookupSystem) : Prop :=
  ∀ i np, (s.phase i).Answers np → (s.cache.node np).dnStat ≠ none

theorem LookupStep.keeps_filled (h : SystemOk m inums s) (hstep : LookupStep m inums s a s')
    (hnp : np ∈ s.live) (hfilled : (s.cache.node np).dnStat ≠ none) :
    (s'.cache.node np).dnStat ≠ none := by
  cases hstep with
  | @enter i fuel env part _ hfresh hpart =>
      obtain ⟨rows, hok⟩ := h.table
      rcases hok.lookupSection_cases hpart with
        ⟨np', -, -, rfl⟩ | rfl | ⟨np', -, hmake, rfl⟩
      · change ((s.cache.addReference np').node np).dnStat ≠ none
        rw [addReference_dnStat]
        exact hfilled
      · exact hfilled
      · have hne : np ≠ np' := fun heq => hfresh np' hmake (heq ▸ hnp)
        change ((s.cache.insertNode (inums i) np').node np).dnStat ≠ none
        rw [insertNode_node_of_ne hne]
        exact hfilled
  | lock _ _ => exact hfilled
  | @load i fuel np' di _ _ =>
      by_cases heq : np = np'
      · rw [heq, load_dnStat_self]
        simp
      · rw [load_dnStat_of_ne heq]
        exact hfilled
  | ret _ => exact hfilled
  | unlock _ => exact hfilled

/-- A step brings a call past its last wait, or leaves it there. -/
theorem LookupStep.answers_cases (hstep : LookupStep m inums s a s')
    (hanswers : (s'.phase i).Answers np) :
    (s.phase i).Answers np ∨ (a = .lock i np ∧ s.phase i = .locking np) ∨
      (s'.cache.node np).dnStat ≠ none := by
  cases hstep with
  | @enter j fuel env part _ _ hpart =>
      left
      by_cases hi : i = j
      · exfalso
        subst hi
        cases part <;>
          simp [LookupSystem.enter, LookupSystem.setPhase, CallPhase.Answers] at hanswers
      · have hother : (s.enter j part).phase i = s.phase i := by
          cases part <;> exact Function.update_of_ne hi ..
        rwa [hother] at hanswers
  | @lock j np' hlocking _ =>
      by_cases hi : i = j
      · subst hi
        rw [setPhase_self] at hanswers
        obtain rfl : np' = np := by simpa [CallPhase.Answers] using hanswers
        exact .inr (.inl ⟨rfl, hlocking⟩)
      · rw [setPhase_of_ne hi] at hanswers
        exact .inl hanswers
  | @load j fuel np' di _ _ =>
      by_cases hi : i = j
      · subst hi
        rw [load_phase_self] at hanswers
        obtain rfl : np' = np := by simpa [CallPhase.Answers] using hanswers
        right
        right
        rw [load_dnStat_self]
        simp
      · rw [load_phase_of_ne hi] at hanswers
        exact .inl hanswers
  | @ret j err npp hreturning =>
      left
      by_cases hi : i = j
      · subst hi
        rw [setPhase_self] at hanswers
        obtain ⟨rfl, rfl⟩ : err = .success ∧ npp = some np := by
          simpa [CallPhase.Answers] using hanswers
        exact .inl hreturning
      · rwa [setPhase_of_ne hi] at hanswers
  | unlock _ => exact .inl hanswers

theorem Answered.step (hanswered : Answered s) (h : SystemOk m inums s)
    (hmeets : LocksFilled s a) (hstep : LookupStep m inums s a s') : Answered s' := by
  intro i np hanswers
  rcases hstep.answers_cases hanswers with hold | ⟨rfl, hlocking⟩ | hfilled
  · exact hstep.keeps_filled h (h.concerns hold.concerns).1 (hanswered i np hold)
  · have hnp := (h.concerns (.inl hlocking)).1
    apply hstep.keeps_filled h hnp
    intro hempty
    obtain ⟨j, hj⟩ := h.loader hnp hempty
    exact hmeets j hj
  · exact hfilled

theorem LookupRun.answered (h : LookupRun m inums LocksFilled s) : Answered s := by
  induction h with
  | init c => simp [Answered, CallPhase.Answers]
  | step hrun hmeets hstep ih => exact ih.step hrun.systemOk hmeets hstep

/-- As long as no call takes the lock of a node that another one has still to
fill, every node that is returned is filled; and a call that does take such a
lock may return the node empty in the next step. -/
theorem concurrent_lookups_filled :
    (∀ {s}, LookupRun m inums LocksFilled s → ReturnsFilled m inums s) ∧
      ∀ {Meets s s' i np}, LookupRun m inums Meets s → LookupStep m inums s (.lock i np) s' →
        ¬ LocksFilled s (.lock i np) →
        ∃ s'', LookupStep m inums s' (.ret i) s'' ∧ ¬ ReturnsFilled m inums s'' := by
  constructor
  · intro s h i np hreturned
    have hok := h.systemOk
    obtain ⟨di, hdi⟩ := Option.ne_none_iff_exists'.mp (h.answered i np (.inr hreturned))
    obtain ⟨hnp, hid⟩ := hok.concerns (.inr (.inr (.inr hreturned)))
    have hread := hok.filled hnp hdi
    rw [hid] at hread
    refine ⟨di, hread, ?_⟩
    unfold Node.stat
    rw [hdi, hid]
    rfl
  · intro Meets s s' i np h hstep hnot
    have hok := h.systemOk
    unfold LocksFilled at hnot
    push Not at hnot
    obtain ⟨j, hj⟩ := hnot
    cases hstep with
    | lock _ _ =>
        refine ⟨_, .ret (setPhase_self _), ?_⟩
        intro hfilled
        obtain ⟨di, -, hstat⟩ := hfilled i np (setPhase_self _)
        have hempty : (s.cache.node np).stat = none := by
          unfold Node.stat
          rw [hok.loading hj]
          rfl
        rw [show (s.cache.node np).stat = some (readStat (inums i) di) from hstat] at hempty
        cases hempty

/-! Two calls for inode 2: the first one makes node 1, and the second one finds it. -/

def blankSystem : LookupSystem := ⟨inodeInit blankCache, ∅, fun _ => false, fun _ => .start⟩

def foundSystem : LookupSystem :=
  (blankSystem.enter 0 (.miss 1 ((inodeInit blankCache).insertNode 2 1))).enter 1
    (.hit 1 (((inodeInit blankCache).insertNode 2 1).addReference 1))

theorem foundSystem_run {Meets : LookupSystem → LookupAction → Prop}
    (hmeets : ∀ s i, Meets s (.enter i)) :
    LookupRun twoLeafMount (fun _ => 2) Meets foundSystem := by
  have hmade := @LookupStep.enter twoLeafMount (fun _ => 2) blankSystem 0 1 (givingEnv 1) _ rfl
    (by simp [blankSystem]) rfl
  have hfound := @LookupStep.enter twoLeafMount (fun _ => 2)
    (blankSystem.enter 0 (.miss 1 ((inodeInit blankCache).insertNode 2 1))) 1 1
    ⟨false, none, 0⟩ _ rfl (by simp) rfl
  exact ((LookupRun.init blankCache).step (hmeets _ 0) hmade).step (hmeets _ 1) hfound

theorem foundSystem_lock :
    LookupStep twoLeafMount (fun _ => 2) foundSystem (.lock 1 1)
      ((foundSystem.setLock 1 true).setPhase 1 (.returning .success (some 1))) :=
  .lock rfl rfl

/-- The second call takes the lock when the node has been filled, and both return
it; or it takes it before that. -/
theorem concurrent_lookups_filled_twoCalls :
    (∃ s, LookupRun twoLeafMount (fun _ => 2) LocksFilled s ∧
      s.phase 0 = .returned .success (some 1) ∧ s.phase 1 = .returned .success (some 1) ∧
      ReturnsFilled twoLeafMount (fun _ => 2) s) ∧
    ∃ s s', LookupRun twoLeafMount (fun _ => 2) (fun _ _ => True) s ∧
      LookupStep twoLeafMount (fun _ => 2) s (.ret 1) s' ∧
      ¬ ReturnsFilled twoLeafMount (fun _ => 2) s' := by
  obtain ⟨fuel, hread⟩ := twoLeafMount_reads
  constructor
  · have hfound : LookupRun twoLeafMount (fun _ => 2) LocksFilled foundSystem :=
      foundSystem_run fun _ _ => trivial
    have hloaded := hfound.step (by trivial) (@LookupStep.load _ _ _ 0 fuel 1 _ rfl hread)
    have hfilled :
        LocksFilled (foundSystem.load 0 1 (twoLeafMount.inodeAt 123904)) (.lock 1 1) := by
      intro j hj
      obtain ⟨hne, hloading⟩ := load_loading_iff.mp hj
      exact hne (hfound.systemOk.unique hloading rfl)
    have hlocked := hloaded.step hfilled (@LookupStep.lock _ _ _ 1 1 rfl rfl)
    have hfirst := hlocked.step (by trivial) (@LookupStep.ret _ _ _ 0 .success (some 1) rfl)
    have hboth := hfirst.step (by trivial) (@LookupStep.ret _ _ _ 1 .success (some 1) rfl)
    exact ⟨_, hboth, rfl, rfl, concurrent_lookups_filled.1 hboth⟩
  · have hfound : LookupRun twoLeafMount (fun _ => 2) (fun _ _ => True) foundSystem :=
      foundSystem_run fun _ _ => trivial
    obtain ⟨s', hreturn, hempty⟩ := concurrent_lookups_filled.2 hfound foundSystem_lock
      fun hfilled => hfilled 0 rfl
    exact ⟨_, s', hfound.step trivial foundSystem_lock, hreturn, hempty⟩

/-- The second call finds the node of the first one, which is still to fill, and
returns it. -/
theorem empty_node_returned :
    (∃ di, ReadsInode twoLeafMount 2 di) ∧
      ∃ s, LookupRun twoLeafMount (fun _ => 2) (fun _ _ => True) s ∧
        s.phase 1 = .returned .success (some 1) ∧ (s.cache.node 1).stat = none := by
  have hfound : LookupRun twoLeafMount (fun _ => 2) (fun _ _ => True) foundSystem :=
    foundSystem_run fun _ _ => trivial
  have hlocked := hfound.step trivial foundSystem_lock
  have hreturned := hlocked.step trivial
    (@LookupStep.ret twoLeafMount (fun _ => 2) _ 1 .success (some 1) rfl)
  exact ⟨⟨_, twoLeafMount_reads⟩, _, hreturned, rfl, rfl⟩

end JfsReader
