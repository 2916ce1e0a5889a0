import JfsReader.FailedLoads
import JfsReader.NodeReferences
import Mathlib.Data.Finset.Card
import Mathlib.Logic.Relation

/-!
# Reference counts of nodes that are looked up concurrently

A hit counts its reference under `diskfs_node_refcnt_lock`, and libdiskfs takes
references back under it.  A miss adds the reference of its caller without that
lock: what is counted between its reading and its writing of `references` is
lost.
-/

namespace JfsReader

/-- Where a call of `diskfs_cached_lookup` stands, up to when its caller gives
the node back.  The last statement of a miss is a read and a write. -/
inductive CountPhase
  | start
  | locking (np : NodeId)
  | loading (np : NodeId)
  | adding (np : NodeId)
  | writing (np : NodeId) (read : ℕ)
  | returned (np : NodeId)
  | done

/-- `holders` are the calls with a reference of their own to the node. -/
structure CountSystem where
  cache : NodeCache
  live : Finset NodeId
  nodeLock : NodeId → Bool
  phase : ℕ → CountPhase
  holders : NodeId → Finset ℕ

namespace CountSystem

def setPhase (s : CountSystem) (i : ℕ) (p : CountPhase) : CountSystem :=
  { s with phase := Function.update s.phase i p }

def setLock (s : CountSystem) (np : NodeId) (locked : Bool) : CountSystem :=
  { s with nodeLock := Function.update s.nodeLock np locked }

def withCache (s : CountSystem) (c : NodeCache) : CountSystem := { s with cache := c }

def withLive (s : CountSystem) (live : Finset NodeId) : CountSystem := { s with live := live }

def setHolders (s : CountSystem) (np : NodeId) (calls : Finset ℕ) : CountSystem :=
  { s with holders := Function.update s.holders np calls }

def references (s : CountSystem) (np : NodeId) : ℕ := (s.cache.node np).references

end CountSystem

inductive CountAction
  | enter (i : ℕ)
  | lock (i : ℕ)
  | load (i : ℕ)
  | read (i : ℕ)
  | write (i : ℕ)
  | nput (i : ℕ)

/-- One step, for calls whose `read_node` succeeds; call `i` is for the inode
`inums i`. -/
inductive CountStep (m : Mount) (inums : ℕ → ℕ) :
    CountSystem → CountAction → CountSystem → Prop
  | hit {s : CountSystem} {i fuel : ℕ} {env : LibdiskfsEnv} {np : NodeId} {c : NodeCache} :
      s.phase i = .start → lookupSection fuel (inums i) env s.cache = some (.hit np c) →
      CountStep m inums s (.enter i)
        (((s.withCache c).setHolders np (insert i (s.holders np))).setPhase i (.locking np))
  | noMemory {s : CountSystem} {i fuel : ℕ} {env : LibdiskfsEnv} : s.phase i = .start →
      lookupSection fuel (inums i) env s.cache = some .noMemory →
      CountStep m inums s (.enter i) (s.setPhase i .done)
  | miss {s : CountSystem} {i fuel : ℕ} {env : LibdiskfsEnv} {np : NodeId} {c : NodeCache} :
      s.phase i = .start → lookupSection fuel (inums i) env s.cache = some (.miss np c) →
      np ∉ s.live →
      CountStep m inums s (.enter i)
        ((((s.withCache c).withLive (insert np s.live)).setLock np false).setPhase i
          (.loading np))
  | lock {s : CountSystem} {i : ℕ} {np : NodeId} : s.phase i = .locking np →
      s.nodeLock np = false →
      CountStep m inums s (.lock i) ((s.setLock np true).setPhase i (.returned np))
  | load {s : CountSystem} {i fuel : ℕ} {np : NodeId} {di : Dinode} : s.phase i = .loading np →
      m.readInode fuel (s.cache.node np).cacheId = some (some di) →
      CountStep m inums s (.load i)
        ((s.withCache (s.cache.fillStat np (.ok di))).setPhase i (.adding np))
  | read {s : CountSystem} {i : ℕ} {np : NodeId} : s.phase i = .adding np →
      CountStep m inums s (.read i) (s.setPhase i (.writing np (s.references np)))
  | write {s : CountSystem} {i n : ℕ} {np : NodeId} : s.phase i = .writing np n →
      CountStep m inums s (.write i)
        (((s.withCache (s.cache.setReferences np (n + 1))).setHolders np
          (insert i (s.holders np))).setPhase i (.returned np))
  | nput {s : CountSystem} {i : ℕ} {np : NodeId} {c : NodeCache} : s.phase i = .returned np →
      np ∈ s.live → releaseHandle np s.cache = some c →
      CountStep m inums s (.nput i)
        (((((s.withCache c).withLive (liveAfterRelease np s.cache s.live)).setLock np
          false).setHolders np ((s.holders np).erase i)).setPhase i .done)

/-- The states that steps reach which all meet a condition. -/
inductive CountRun (m : Mount) (inums : ℕ → ℕ) (Meets : CountSystem → CountAction → Prop) :
    CountSystem → Prop
  | init (c : NodeCache) :
      CountRun m inums Meets ⟨inodeInit c, ∅, fun _ => false, fun _ => .start, fun _ => ∅⟩
  | step {s s' : CountSystem} {a : CountAction} : CountRun m inums Meets s → Meets s a →
      CountStep m inums s a s' → CountRun m inums Meets s'

/-- A miss writes when `references` is larger than it has read by one at most. -/
def LosesOneAtMost (s : CountSystem) : CountAction → Prop
  | .write i => ∀ np n, s.phase i = .writing np n → s.references np ≤ n + 1
  | _ => True

namespace CountPhase

/-- The node that the call has a reference of its own to. -/
def held : CountPhase → Option NodeId
  | locking np | returned np => some np
  | _ => none

/-- The node that the call has made and has not returned. -/
def made : CountPhase → Option NodeId
  | loading np | adding np | writing np _ => some np
  | _ => none

end CountPhase

/-- What holds in every run, whatever is lost. -/
structure CountTable (s : CountSystem) : Prop where
  table : ∃ rows, TableOk s.cache rows s.live
  holders : ∀ {i np}, i ∈ s.holders np ↔ (s.phase i).held = some np
  locked : ∀ {np}, s.nodeLock np = true → ∃ i, s.phase i = .returned np

/-- As long as no more than one reference to a node is lost, its count reaches
the number of those who hold it; until the node is returned, there is one more. -/
structure NodeCounted (s : CountSystem) (np : NodeId) : Prop where
  held : (s.holders np).Nonempty → np ∈ s.live
  made : ∀ {i}, (s.phase i).made = some np → np ∈ s.live ∧
    s.references np = (s.holders np).card + 1 ∧ ∀ j, (s.phase j).made = some np → j = i
  counted : np ∈ s.live → 0 < s.references np ∧ (s.holders np).card ≤ s.references np

variable {m : Mount} {inums : ℕ → ℕ} {s s' t : CountSystem} {a : CountAction} {i j n : ℕ}
  {np np' : NodeId} {p : CountPhase} {Meets : CountSystem → CountAction → Prop}

/-! ## The parts of a step -/

namespace CountSystem

@[simp] theorem setPhase_self : (s.setPhase i p).phase i = p := Function.update_self ..

theorem setPhase_of_ne (hne : j ≠ i) : (s.setPhase i p).phase j = s.phase j :=
  Function.update_of_ne hne ..

@[simp] theorem setHolders_self (calls : Finset ℕ) : (s.setHolders np calls).holders np = calls :=
  Function.update_self ..

theorem setHolders_of_ne (hne : np' ≠ np) (calls : Finset ℕ) :
    (s.setHolders np calls).holders np' = s.holders np' :=
  Function.update_of_ne hne ..

end CountSystem

theorem mem_update_insert_of_ne {holders : NodeId → Finset ℕ} (hne : j ≠ i) :
    j ∈ Function.update holders np (insert i (holders np)) np' ↔ j ∈ holders np' := by
  by_cases heq : np' = np
  · rw [heq, Function.update_self, Finset.mem_insert]
    exact or_iff_right hne
  · rw [Function.update_of_ne heq]

theorem mem_update_erase_of_ne {holders : NodeId → Finset ℕ} (hne : j ≠ i) :
    j ∈ Function.update holders np ((holders np).erase i) np' ↔ j ∈ holders np' := by
  by_cases heq : np' = np
  · rw [heq, Function.update_self, Finset.mem_erase]
    exact and_iff_right hne
  · rw [Function.update_of_ne heq]

theorem TableOk.release {c c' : NodeCache} {rows : Fin inohsz → List NodeId}
    {live : Finset NodeId} (h : TableOk c rows live) (hnp : np ∈ live)
    (hrelease : releaseHandle np c = some c') :
    (∃ rows', TableOk c' rows' (liveAfterRelease np c live)) ∧
      c'.node = (c.setReferences np ((c.node np).references - 1)).node := by
  unfold releaseHandle at hrelease
  unfold liveAfterRelease
  dsimp only at hrelease
  split at hrelease
  next hzero =>
    rw [if_pos hzero]
    have hset := h.setReferences np ((c.node np).references - 1)
    obtain ⟨c'', rows', hnorefs, hok⟩ := hset.norefs hnp
    obtain rfl := Option.some.inj (hnorefs.symm.trans hrelease)
    exact ⟨⟨rows', hok⟩, diskfsNodeNorefs_node hrelease⟩
  next hne =>
    rw [if_neg hne]
    obtain rfl := Option.some.inj hrelease
    exact ⟨⟨rows, h.setReferences np _⟩, rfl⟩

theorem TableOk.exists_release {c : NodeCache} {rows : Fin inohsz → List NodeId}
    {live : Finset NodeId} (h : TableOk c rows live) (hnp : np ∈ live) :
    ∃ c', releaseHandle np c = some c' := by
  unfold releaseHandle
  dsimp only
  split
  next =>
    obtain ⟨c', rows', hnorefs, -⟩ :=
      (h.setReferences np ((c.node np).references - 1)).norefs hnp
    exact ⟨c', hnorefs⟩
  next => exact ⟨_, rfl⟩

theorem CountTable.hit_eq (h : CountTable s) {fuel inum : ℕ} {env : LibdiskfsEnv} {c : NodeCache}
    (hsection : lookupSection fuel inum env s.cache = some (.hit np c)) :
    np ∈ s.live ∧ c = s.cache.addReference np := by
  obtain ⟨rows, hok⟩ := h.table
  obtain ⟨np', hnp', -, hpart⟩ | hpart | ⟨np', -, -, hpart⟩ :=
    hok.lookupSection_cases hsection <;> cases hpart
  exact ⟨hnp', rfl⟩

theorem CountTable.miss_eq (h : CountTable s) {fuel inum : ℕ} {env : LibdiskfsEnv} {c : NodeCache}
    (hsection : lookupSection fuel inum env s.cache = some (.miss np c)) :
    (∀ np ∈ s.live, (s.cache.node np).cacheId ≠ inum) ∧ c = s.cache.insertNode inum np := by
  obtain ⟨rows, hok⟩ := h.table
  obtain ⟨np', -, -, hpart⟩ | hpart | ⟨np', hmiss, -, hpart⟩ :=
    hok.lookupSection_cases hsection <;> cases hpart
  exact ⟨hmiss, rfl⟩

/-- A call without a node is among the holders of none. -/
theorem CountTable.notMem_holders (h : CountTable s) (hnone : (s.phase i).held = none)
    (np : NodeId) : i ∉ s.holders np := by
  rw [h.holders, hnone]
  exact nofun

/-! ## What every step keeps -/

/-- One call goes on: what the other calls hold stays as it is. -/
theorem CountTable.setPhase (h : CountTable s)
    (htable : ∃ rows, TableOk t.cache rows t.live) (hphase : t.phase = s.phase)
    (hothers : ∀ j np, j ≠ i → (j ∈ t.holders np ↔ j ∈ s.holders np))
    (hself : ∀ np, i ∈ t.holders np ↔ p.held = some np)
    (hlocked : ∀ np, t.nodeLock np = true →
      p = .returned np ∨ (s.nodeLock np = true ∧ s.phase i ≠ .returned np)) :
    CountTable (t.setPhase i p) := by
  refine ⟨htable, ?_, ?_⟩
  · intro j np
    by_cases heq : j = i
    · rw [heq, CountSystem.setPhase_self]
      exact hself np
    · rw [CountSystem.setPhase_of_ne heq, hphase]
      exact (hothers j np heq).trans h.holders
  · intro np hlock
    rcases hlocked np hlock with rfl | ⟨hold, hne⟩
    · exact ⟨i, CountSystem.setPhase_self⟩
    · obtain ⟨j, hj⟩ := h.locked hold
      have hji : j ≠ i := by
        rintro rfl
        exact hne hj
      exact ⟨j, by rw [CountSystem.setPhase_of_ne hji, hphase, hj]⟩

/-- A call with no reference of its own goes on without taking one. -/
theorem CountTable.setPhase_none (h : CountTable s)
    (htable : ∃ rows, TableOk t.cache rows t.live) (hphase : t.phase = s.phase)
    (hholders : t.holders = s.holders) (hold : (s.phase i).held = none) (hnew : p.held = none)
    (hlocked : ∀ np, t.nodeLock np = true → s.nodeLock np = true) :
    CountTable (t.setPhase i p) := by
  refine h.setPhase htable hphase (fun _ _ _ => by rw [hholders]) (fun np => ?_)
    fun np hlock => .inr ⟨hlocked np hlock, fun hreturned => ?_⟩
  · rw [hholders, hnew]
    exact iff_of_false (h.notMem_holders hold np) nofun
  · rw [hreturned] at hold
    cases hold

/-- A call with no reference of its own takes the one that it has counted. -/
theorem CountTable.setPhase_insert (h : CountTable s)
    (htable : ∃ rows, TableOk t.cache rows t.live) (hphase : t.phase = s.phase)
    (hholders : t.holders = s.holders) (hlock : t.nodeLock = s.nodeLock)
    (hold : (s.phase i).held = none) (hnew : p.held = some np) :
    CountTable ((t.setHolders np (insert i (t.holders np))).setPhase i p) := by
  rw [hholders]
  refine h.setPhase htable hphase (fun j np' hne => ?_) (fun np' => ?_)
    fun np' hlocked => .inr ⟨hlock ▸ hlocked, fun hreturned => ?_⟩
  · change j ∈ Function.update t.holders np _ np' ↔ _
    rw [hholders]
    exact mem_update_insert_of_ne hne
  · change i ∈ Function.update t.holders np _ np' ↔ _
    rw [hnew]
    by_cases heq : np' = np
    · rw [heq, Function.update_self]
      exact iff_of_true (Finset.mem_insert_self i _) rfl
    · rw [Function.update_of_ne heq, hholders]
      exact iff_of_false (h.notMem_holders hold np') fun hsome =>
        heq (Option.some.inj hsome).symm
  · rw [hreturned] at hold
    cases hold

theorem CountTable.step (h : CountTable s) (hstep : CountStep m inums s a s') :
    CountTable s' := by
  obtain ⟨rows, hok⟩ := h.table
  cases hstep with
  | @hit i fuel env np c hphase hsection =>
      obtain ⟨-, rfl⟩ := h.hit_eq hsection
      exact h.setPhase_insert ⟨rows, hok.setReferences np _⟩ rfl rfl rfl (by rw [hphase]; rfl) rfl
  | noMemory hphase =>
      exact h.setPhase_none h.table rfl rfl (by rw [hphase]; rfl) rfl fun _ => id
  | @miss i fuel env np c hphase hsection hfresh =>
      obtain ⟨hmiss, rfl⟩ := h.miss_eq hsection
      refine h.setPhase_none ⟨_, hok.insertNode hfresh hmiss⟩ rfl rfl (by rw [hphase]; rfl) rfl
        fun np' hlock => ?_
      by_cases heq : np' = np
      · rw [heq] at hlock
        exact absurd hlock (by simp [CountSystem.setLock])
      · exact (Function.update_of_ne heq ..).symm.trans hlock
  | @lock i np hphase hfree =>
      refine h.setPhase h.table rfl (fun _ _ _ => Iff.rfl) (fun np' => ?_) fun np' hlock => ?_
      · change i ∈ s.holders np' ↔ _
        rw [h.holders, hphase]
        rfl
      · by_cases heq : np' = np
        · exact .inl (heq ▸ rfl)
        · exact .inr ⟨(Function.update_of_ne heq ..).symm.trans hlock, by simp [hphase]⟩
  | @load i fuel np di hphase =>
      exact h.setPhase_none ⟨rows, hok.fillStat np (.ok di)⟩ rfl rfl (by rw [hphase]; rfl) rfl
        fun _ => id
  | read hphase =>
      exact h.setPhase_none h.table rfl rfl (by rw [hphase]; rfl) rfl fun _ => id
  | @write i n np hphase =>
      exact h.setPhase_insert ⟨rows, hok.setReferences np _⟩ rfl rfl rfl (by rw [hphase]; rfl) rfl
  | @nput i np c hphase hnp hrelease =>
      refine h.setPhase (hok.release hnp hrelease).1 rfl
        (fun j np' hne => mem_update_erase_of_ne hne) (fun np' => ?_) fun np' hlock => ?_
      · refine iff_of_false ?_ nofun
        change i ∉ Function.update s.holders np _ np'
        by_cases heq : np' = np
        · rw [heq, Function.update_self]
          exact Finset.notMem_erase i _
        · rw [Function.update_of_ne heq, h.holders, hphase]
          exact fun hsome => heq (Option.some.inj hsome).symm
      · have hne : np' ≠ np := by
          rintro rfl
          exact absurd hlock (by simp [CountSystem.setLock, CountSystem.setHolders])
        refine .inr ⟨(Function.update_of_ne hne ..).symm.trans hlock, ?_⟩
        rw [hphase]
        rintro ⟨⟩
        exact hne rfl

theorem CountRun.table (h : CountRun m inums Meets s) : CountTable s := by
  induction h with
  | init c =>
      refine ⟨⟨_, .init c⟩, ?_, by simp⟩
      exact iff_of_false (Finset.notMem_empty _) nofun
  | step _ _ hstep ih => exact ih.step hstep

/-! ## What runs keep that lose one reference to a node at most -/

/-- A step that neither begins nor ends the making of the node. -/
theorem NodeCounted.setPhase (h : NodeCounted s np) (hphase : t.phase = s.phase)
    (hmakes : p.made = some np ↔ (s.phase i).made = some np)
    (hheld : (t.holders np).Nonempty → np ∈ t.live)
    (hmade : np ∈ s.live → s.references np = (s.holders np).card + 1 →
      np ∈ t.live ∧ t.references np = (t.holders np).card + 1)
    (hcounted : np ∈ t.live → 0 < t.references np ∧ (t.holders np).card ≤ t.references np) :
    NodeCounted (t.setPhase i p) np := by
  have hsame : ∀ j, ((t.setPhase i p).phase j).made = some np ↔ (s.phase j).made = some np := by
    intro j
    by_cases heq : j = i
    · rw [heq, CountSystem.setPhase_self, hmakes]
    · rw [CountSystem.setPhase_of_ne heq, hphase]
  refine ⟨hheld, ?_, hcounted⟩
  intro j hj
  obtain ⟨hlive, hrefs, hunique⟩ := h.made ((hsame j).1 hj)
  obtain ⟨hlive', hrefs'⟩ := hmade hlive hrefs
  exact ⟨hlive', hrefs', fun j' hj' => hunique j' ((hsame j').1 hj')⟩

/-- A step that leaves the count of the node and its holders alone. -/
theorem NodeCounted.frame (h : NodeCounted s np) (hphase : t.phase = s.phase)
    (hmakes : p.made = some np ↔ (s.phase i).made = some np) (hlive : np ∈ t.live ↔ np ∈ s.live)
    (hrefs : t.references np = s.references np) (hholders : t.holders np = s.holders np) :
    NodeCounted (t.setPhase i p) np := by
  refine h.setPhase hphase hmakes ?_ ?_ ?_
  · rw [hholders, hlive]
    exact h.held
  · rw [hholders, hlive, hrefs]
    exact fun hnp hcard => ⟨hnp, hcard⟩
  · rw [hholders, hlive, hrefs]
    exact h.counted

theorem NodeCounted.hit (h : NodeCounted s np) (hnp : np ∈ s.live) (hi : i ∉ s.holders np)
    (hphase : (s.phase i).made = none) :
    NodeCounted (((s.withCache (s.cache.addReference np)).setHolders np
      (insert i (s.holders np))).setPhase i (.locking np)) np := by
  have hrefs : ((s.withCache (s.cache.addReference np)).setHolders np
      (insert i (s.holders np))).references np = s.references np + 1 :=
    setReferences_references_self _
  have hcard := Finset.card_insert_of_notMem hi
  have hmakes : (CountPhase.locking np).made = some np ↔ (s.phase i).made = some np := by
    rw [hphase]
    rfl
  refine h.setPhase rfl hmakes (fun _ => hnp) (fun _ heq => ⟨hnp, ?_⟩) fun _ => ?_
  · rw [hrefs, CountSystem.setHolders_self, hcard, heq]
  · rw [hrefs, CountSystem.setHolders_self, hcard]
    have hle := (h.counted hnp).2
    omega

/-- Nobody holds the node yet, and it has the reference of `diskfs_make_node`. -/
theorem NodeCounted.miss (h : NodeCounted s np) (hfresh : np ∉ s.live) (hlive : np ∈ t.live)
    (hphase : t.phase = s.phase) (hholders : t.holders = s.holders)
    (hrefs : t.references np = 1) : NodeCounted (t.setPhase i (.loading np)) np := by
  have hnone : s.holders np = ∅ := by
    by_contra hne
    exact hfresh (h.held (Finset.nonempty_iff_ne_empty.2 hne))
  have hcard : (t.holders np).card = 0 := by
    rw [hholders, hnone, Finset.card_empty]
  have honly : ∀ j, ((t.setPhase i (.loading np)).phase j).made = some np → j = i := by
    intro j hj
    by_contra hne
    rw [CountSystem.setPhase_of_ne hne, hphase] at hj
    exact hfresh (h.made hj).1
  refine ⟨fun _ => hlive, fun {j} hj => ⟨hlive, ?_, fun j' hj' => ?_⟩, fun _ => ?_⟩
  · change t.references np = (t.holders np).card + 1
    rw [hrefs, hcard]
  · exact (honly j' hj').trans (honly j hj).symm
  · change 0 < t.references np ∧ (t.holders np).card ≤ t.references np
    omega

/-- The write of a miss whose read was overtaken once at most. -/
theorem NodeCounted.write (h : NodeCounted s np) (hphase : s.phase i = .writing np n)
    (hi : i ∉ s.holders np) (hn : s.references np ≤ n + 1) :
    NodeCounted (((s.withCache (s.cache.setReferences np (n + 1))).setHolders np
      (insert i (s.holders np))).setPhase i (.returned np)) np := by
  obtain ⟨hlive, hrefs, hunique⟩ := h.made (i := i) (by rw [hphase]; rfl)
  refine ⟨fun _ => hlive, fun {j} hj => ?_, fun _ => ?_⟩
  · by_cases heq : j = i
    · rw [heq, CountSystem.setPhase_self] at hj
      cases hj
    · rw [CountSystem.setPhase_of_ne heq] at hj
      exact absurd (hunique j hj) heq
  · have hrefs' : ((s.cache.setReferences np (n + 1)).node np).references = n + 1 :=
      setReferences_references_self _
    change 0 < ((s.cache.setReferences np (n + 1)).node np).references ∧
      (Function.update s.holders np (insert i (s.holders np)) np).card ≤
        ((s.cache.setReferences np (n + 1)).node np).references
    rw [hrefs', Function.update_self, Finset.card_insert_of_notMem hi]
    omega

theorem NodeCounted.nput (h : NodeCounted s np) (hi : i ∈ s.holders np) (hnp : np ∈ s.live)
    (hphase : t.phase = s.phase) (hmakes : p.made = some np ↔ (s.phase i).made = some np)
    (hholders : t.holders np = (s.holders np).erase i)
    (hrefs : t.references np = s.references np - 1)
    (hlive : t.live = liveAfterRelease np s.cache s.live) : NodeCounted (t.setPhase i p) np := by
  have hcard := Finset.card_erase_add_one hi
  obtain ⟨hpos, hle⟩ := h.counted hnp
  have hlive_iff : np ∈ t.live ↔ 1 < s.references np := by
    rw [hlive, liveAfterRelease]
    change np ∈ (if s.references np - 1 = 0 then _ else _) ↔ _
    split
    next hzero => exact iff_of_false (Finset.notMem_erase np _) (by omega)
    next hne => exact iff_of_true hnp (by omega)
  refine h.setPhase hphase hmakes ?_ ?_ ?_
  · intro hsome
    rw [hholders, ← Finset.card_pos] at hsome
    rw [hlive_iff]
    omega
  · intro _ heq
    rw [hlive_iff, hrefs, hholders]
    omega
  · intro hmem
    rw [hlive_iff] at hmem
    rw [hrefs, hholders]
    omega

theorem NodeCounted.step (hcounted : ∀ np, NodeCounted s np) (h : CountTable s)
    (hloses : LosesOneAtMost s a) (hstep : CountStep m inums s a s') (np' : NodeId) :
    NodeCounted s' np' := by
  obtain ⟨rows, hok⟩ := h.table
  have hself := hcounted np'
  cases hstep with
  | @hit i fuel env np c hphase hsection =>
      obtain ⟨hnp, rfl⟩ := h.hit_eq hsection
      by_cases heq : np' = np
      · subst heq
        exact hself.hit hnp (h.notMem_holders (by rw [hphase]; rfl) np') (by rw [hphase]; rfl)
      · exact hself.frame rfl (by rw [hphase]; rfl) Iff.rfl
          (setReferences_references_of_ne heq _) (CountSystem.setHolders_of_ne heq _)
  | noMemory hphase => exact hself.frame rfl (by rw [hphase]; rfl) Iff.rfl rfl rfl
  | @miss i fuel env np c hphase hsection hfresh =>
      obtain ⟨-, rfl⟩ := h.miss_eq hsection
      by_cases heq : np' = np
      · subst heq
        exact hself.miss hfresh (Finset.mem_insert_self np' _) rfl rfl
          (congrArg Node.references insertNode_node_self)
      · refine hself.frame rfl ?_ (Finset.mem_insert.trans (or_iff_right heq))
          (congrArg Node.references (insertNode_node_of_ne heq)) rfl
        rw [hphase]
        exact iff_of_false (fun hsome => heq (Option.some.inj hsome).symm) nofun
  | @lock i np hphase hfree => exact hself.frame rfl (by rw [hphase]; rfl) Iff.rfl rfl rfl
  | @load i fuel np di hphase =>
      exact hself.frame rfl (by rw [hphase]; rfl) Iff.rfl (fillStat_references (.ok di) np') rfl
  | @read i np hphase => exact hself.frame rfl (by rw [hphase]; rfl) Iff.rfl rfl rfl
  | @write i n np hphase =>
      by_cases heq : np' = np
      · subst heq
        exact hself.write hphase (h.notMem_holders (by rw [hphase]; rfl) np')
          (hloses np' n hphase)
      · refine hself.frame rfl ?_ Iff.rfl (setReferences_references_of_ne heq _)
          (CountSystem.setHolders_of_ne heq _)
        rw [hphase]
        exact iff_of_false nofun fun hsome => heq (Option.some.inj hsome).symm
  | @nput i np c hphase hnp hrelease =>
      have hnode := (hok.release hnp hrelease).2
      by_cases heq : np' = np
      · subst heq
        refine hself.nput ?_ hnp rfl (by rw [hphase]; rfl) (CountSystem.setHolders_self _) ?_ rfl
        · rw [h.holders, hphase]
          rfl
        · change (c.node np').references = _
          rw [hnode, setReferences_references_self]
          rfl
      · refine hself.frame rfl (by rw [hphase]; rfl) ?_ ?_ (CountSystem.setHolders_of_ne heq _)
        · change np' ∈ liveAfterRelease np s.cache s.live ↔ _
          unfold liveAfterRelease
          split
          next => exact Finset.mem_erase.trans (and_iff_right heq)
          next => rfl
        · change (c.node np').references = _
          rw [hnode, setReferences_references_of_ne heq]
          rfl

theorem CountRun.counted (h : CountRun m inums LosesOneAtMost s) (np : NodeId) :
    NodeCounted s np := by
  induction h generalizing np with
  | init c => exact ⟨nofun, nofun, nofun⟩
  | step hrun hloses hstep ih => exact .step ih hrun.table hloses hstep np

/-- In a run whose misses each lose one reference at most, a node that anyone
holds is in the table, with no fewer references than it has holders. -/
theorem references_cover_holders (h : CountRun m inums LosesOneAtMost s) :
    (∃ rows, TableOk s.cache rows s.live) ∧
      (∀ i np, (s.phase i).held = some np → np ∈ s.live ∧ i ∈ s.holders np) ∧
      ∀ np ∈ s.live, 0 < s.references np ∧ (s.holders np).card ≤ s.references np := by
  have htable := h.table
  refine ⟨htable.table, fun i np hi => ?_, fun np => (h.counted np).counted⟩
  have hmem : i ∈ s.holders np := htable.holders.2 hi
  exact ⟨(h.counted np).held ⟨i, hmem⟩, hmem⟩

/-! Calls for inode 2: the first one makes node 1, which the second one finds
between the read and the write of the first one. -/

theorem countRun_overtaken :
    ∃ s c, CountRun twoLeafMount (fun _ => 2) LosesOneAtMost s ∧ s.phase 0 = .writing 1 1 ∧
      s.phase 1 = .locking 1 ∧ s.phase 2 = .start ∧ s.references 1 = 2 ∧
      lookupSection 1 2 (givingEnv 1) s.cache = some (.hit 1 c) ∧ (c.node 1).references = 3 := by
  obtain ⟨fuel, hread⟩ := twoLeafMount_reads
  have hblank : CountRun twoLeafMount (fun _ => 2) LosesOneAtMost
      ⟨inodeInit blankCache, ∅, fun _ => false, fun _ => .start, fun _ => ∅⟩ := .init blankCache
  have hmissed := hblank.step (by trivial)
    (@CountStep.miss _ _ _ 0 1 (givingEnv 1) 1 _ rfl rfl (by simp))
  have hloaded := hmissed.step (by trivial) (@CountStep.load _ _ _ 0 fuel 1 _ rfl hread)
  have hstarted := hloaded.step (by trivial) (@CountStep.read _ _ _ 0 1 rfl)
  have hfound := hstarted.step (by trivial)
    (@CountStep.hit _ _ _ 1 1 (givingEnv 1) 1 _ rfl rfl)
  exact ⟨_, _, hfound, rfl, rfl, rfl, rfl, rfl, rfl⟩

theorem references_cover_holders_twoLeaf :
    ∃ s, CountRun twoLeafMount (fun _ => 2) LosesOneAtMost s ∧ s.phase 0 = .returned 1 ∧
      s.phase 1 = .locking 1 ∧ 1 ∈ s.live ∧ (s.holders 1).card ≤ s.references 1 := by
  obtain ⟨s, c, hrun, hphase, hother, -, hrefs, -, -⟩ := countRun_overtaken
  have hloses : LosesOneAtMost s (.write 0) := by
    intro np n hwriting
    cases hphase.symm.trans hwriting
    exact hrefs.le
  have hwritten := hrun.step hloses (.write hphase)
  obtain ⟨-, hheld, hcounted⟩ := references_cover_holders hwritten
  have hlive := (hheld 0 1 (by rw [CountSystem.setPhase_self]; rfl)).1
  exact ⟨_, hwritten, CountSystem.setPhase_self, hother, hlive, (hcounted 1 hlive).2⟩

/-! ## What follows when two are lost -/

/-- The steps of calls that take the lock of their node or give the node back. -/
def GivesBack (m : Mount) (inums : ℕ → ℕ) (s s' : CountSystem) : Prop :=
  ∃ i, CountStep m inums s (.lock i) s' ∨ CountStep m inums s (.nput i) s'

/-- Of the holders of a node one can be brought to give it back. -/
theorem CountTable.exists_returned (m : Mount) (inums : ℕ → ℕ) (h : CountTable s)
    (hsome : (s.holders np).Nonempty) :
    ∃ s' j, Relation.ReflTransGen (GivesBack m inums) s s' ∧ CountTable s' ∧
      s'.phase j = .returned np ∧ s'.cache = s.cache ∧ s'.live = s.live ∧
      s'.holders = s.holders := by
  obtain ⟨i, hi⟩ := hsome
  have hheld := h.holders.1 hi
  cases hphase : s.phase i with
  | locking np' =>
      rw [hphase] at hheld
      obtain rfl : np' = np := Option.some.inj hheld
      cases hlock : s.nodeLock np' with
      | true =>
          obtain ⟨j, hj⟩ := h.locked hlock
          exact ⟨s, j, .refl, h, hj, rfl, rfl, rfl⟩
      | false =>
          have hstep : CountStep m inums s (.lock i) _ := .lock hphase hlock
          exact ⟨_, i, .single ⟨i, .inl hstep⟩, h.step hstep, CountSystem.setPhase_self, rfl, rfl,
            rfl⟩
  | returned np' =>
      rw [hphase] at hheld
      obtain rfl : np' = np := Option.some.inj hheld
      exact ⟨s, i, .refl, h, hphase, rfl, rfl, rfl⟩
  | _ =>
      rw [hphase] at hheld
      cases hheld

/-- What a holder leaves behind that gives the node back. -/
theorem CountTable.nput (m : Mount) (inums : ℕ → ℕ) (h : CountTable s)
    (hphase : s.phase i = .returned np) (hnp : np ∈ s.live) :
    ∃ s', CountStep m inums s (.nput i) s' ∧ CountTable s' ∧
      s'.references np = s.references np - 1 ∧ (s'.holders np).card + 1 = (s.holders np).card ∧
      s'.live = liveAfterRelease np s.cache s.live := by
  obtain ⟨rows, hok⟩ := h.table
  obtain ⟨c, hrelease⟩ := hok.exists_release hnp
  have hstep : CountStep m inums s (.nput i) _ := .nput hphase hnp hrelease
  have hi : i ∈ s.holders np := h.holders.2 (by rw [hphase]; rfl)
  refine ⟨_, hstep, h.step hstep, ?_, ?_, rfl⟩
  · change (c.node np).references = _
    rw [(hok.release hnp hrelease).2, setReferences_references_self]
    rfl
  · change (Function.update s.holders np ((s.holders np).erase i) np).card + 1 = _
    rw [Function.update_self]
    exact Finset.card_erase_add_one hi

/-- With fewer references than holders, the last reference goes before the last
holder does. -/
theorem CountTable.dangles (m : Mount) (inums : ℕ → ℕ) (h : CountTable s) (hnp : np ∈ s.live)
    (hpos : 0 < s.references np) (hless : s.references np < (s.holders np).card) :
    ∃ s' j, Relation.ReflTransGen (GivesBack m inums) s s' ∧ np ∉ s'.live ∧
      (s'.phase j).held = some np := by
  induction hrefs : s.references np generalizing s with
  | zero => omega
  | succ r ih =>
      obtain ⟨t, i, hlocks, ht, hphase, hcache, hlive, hholders⟩ :=
        h.exists_returned m inums (Finset.card_pos.1 (hpos.trans hless))
      rw [← hlive] at hnp
      obtain ⟨s', hstep, h', hrefs', hcard, hlive'⟩ := ht.nput m inums hphase hnp
      have hruns := hlocks.tail ⟨i, .inr hstep⟩
      have hr : t.references np = r + 1 := by
        rw [← hrefs]
        exact congrArg (fun c => (c.node np).references) hcache
      rw [hr] at hrefs'
      rw [hholders] at hcard
      unfold liveAfterRelease at hlive'
      change s'.live = if t.references np - 1 = 0 then _ else _ at hlive'
      rw [hr] at hlive'
      cases r with
      | zero =>
          rw [if_pos rfl] at hlive'
          obtain ⟨j, hj⟩ : (s'.holders np).Nonempty := Finset.card_pos.1 (by omega)
          refine ⟨s', j, hruns, ?_, h'.holders.1 hj⟩
          rw [hlive']
          exact Finset.notMem_erase np _
      | succ r =>
          rw [if_neg (by omega)] at hlive'
          obtain ⟨s'', j, hrest, hgone⟩ :=
            ih h' (hlive' ▸ hnp) (by omega) (by omega) (by omega)
          exact ⟨s'', j, hruns.trans hrest, hgone⟩

/-- Where a miss overwrites two references or more, its write and steps of calls
that only give the node back lead to one that holds a node that is gone. -/
theorem lost_references_dangle (h : CountRun m inums LosesOneAtMost s)
    (hphase : s.phase i = .writing np n) (hlost : n + 1 < s.references np) :
    ∃ s' s'' j, CountStep m inums s (.write i) s' ∧
      Relation.ReflTransGen (GivesBack m inums) s' s'' ∧ np ∉ s''.live ∧
      (s''.phase j).held = some np := by
  have htable := h.table
  have hstep : CountStep m inums s (.write i) _ := .write hphase
  obtain ⟨hlive, hrefs, -⟩ := (h.counted np).made (i := i) (by rw [hphase]; rfl)
  have hi := htable.notMem_holders (i := i) (by rw [hphase]; rfl) np
  have hrefs' : ((s.cache.setReferences np (n + 1)).node np).references = n + 1 :=
    setReferences_references_self _
  have hless : ((s.cache.setReferences np (n + 1)).node np).references <
      (Function.update s.holders np (insert i (s.holders np)) np).card := by
    rw [hrefs', Function.update_self, Finset.card_insert_of_notMem hi]
    omega
  obtain ⟨s'', j, hruns, hgone, hheld⟩ := (htable.step hstep).dangles m inums hlive
    (Nat.lt_of_lt_of_eq (Nat.succ_pos n) hrefs'.symm) hless
  exact ⟨_, s'', j, hstep, hruns, hgone, hheld⟩

/-- A third call finds the node before the write. -/
theorem lost_references_dangle_twoLeaf :
    ∃ s s' s'' j, CountRun twoLeafMount (fun _ => 2) LosesOneAtMost s ∧
      CountStep twoLeafMount (fun _ => 2) s (.write 0) s' ∧
      Relation.ReflTransGen (GivesBack twoLeafMount fun _ => 2) s' s'' ∧ 1 ∉ s''.live ∧
      (s''.phase j).held = some 1 := by
  obtain ⟨s, c, hrun, hphase, -, hstart, -, hsection, hrefs⟩ := countRun_overtaken
  have hthird := hrun.step (by trivial) (.hit hstart hsection)
  obtain ⟨s', s'', j, hdangles⟩ := lost_references_dangle hthird
    ((CountSystem.setPhase_of_ne (by decide)).trans hphase)
    (Nat.lt_of_lt_of_eq (by decide) hrefs.symm)
  exact ⟨_, s', s'', j, hthird, hdangles⟩

end JfsReader
