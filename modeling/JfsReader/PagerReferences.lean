import JfsReader.NodeCache
import JfsReader.StepMachine

/-!
# The references of the file pagers

`np->dn->fileinfo` is a weak pointer to the node's current pager.  A pager that
is nearly gone is replaced before its own clearing has run, so that a node can
have several `user_pager_info`s at once, in any state of being taken down.  Each
of them holds one light reference until it is freed, and only the one that
`fileinfo` points to may still be used.
-/

namespace JfsReader

open StepMachine

abbrev UpiId := ℕ

abbrev MachPort := ℕ

inductive PagerType
  | disk
  | fileData
deriving DecidableEq

/-- The node of the disk pager is null and never looked at. -/
structure UserPagerInfo where
  type : PagerType
  np : NodeId
  p : Option ℕ

/-- `upis` are allocated and not yet freed; `cleared` are those among them whose
`pager_clear_user_data` is past the critical section.  `light` counts the light
references the pager code has taken. -/
structure PagerState where
  cache : NodeCache
  light : NodeId → ℕ
  info : UpiId → UserPagerInfo
  upis : Finset UpiId
  cleared : Finset UpiId

/-- What the calls of a `diskfs_get_filemap` answer.  `malloc` is told what is
in use; the pager library answers anew in every round of the loop. -/
structure FilemapEnv where
  malloc : Finset UpiId → UpiId
  pagerCreate : ℕ → Option ℕ
  pagerGetPort : ℕ → Option ℕ → Option MachPort

namespace PagerState

def fileinfo (s : PagerState) (np : NodeId) : Option UpiId := (s.cache.node np).fileinfo

def setFileinfo (s : PagerState) (np : NodeId) (upi : Option UpiId) : PagerState :=
  { s with cache := s.cache.setNode np { s.cache.node np with fileinfo := upi } }

def diskfsNrefLight (s : PagerState) (np : NodeId) : PagerState :=
  { s with light := Function.update s.light np (s.light np + 1) }

def diskfsNreleLight (s : PagerState) (np : NodeId) : PagerState :=
  { s with light := Function.update s.light np (s.light np - 1) }

def newUpi (s : PagerState) (upi : UpiId) (info : UserPagerInfo) : PagerState :=
  { s with info := Function.update s.info upi info, upis := insert upi s.upis }

def freeUpi (s : PagerState) (upi : UpiId) : PagerState :=
  { s with upis := s.upis.erase upi, cleared := s.cleared.erase upi }

def markCleared (s : PagerState) (upi : UpiId) : PagerState :=
  { s with cleared := insert upi s.cleared }

def holders (s : PagerState) (np : NodeId) : Finset UpiId :=
  s.upis.filter fun upi => (s.info upi).type = .fileData ∧ (s.info upi).np = np

end PagerState

/-- The end of a round: another one unless there is a right to return. -/
def filemapRight (round : ℕ) (s : PagerState) (right : Option MachPort) :
    (PagerState × ℕ) ⊕ (PagerState × Option MachPort) :=
  if right = none then .inl (s, round + 1) else .inr (s, right)

/-- One round of the loop in `diskfs_get_filemap`. -/
def filemapStep (np : NodeId) (env : FilemapEnv) (st : PagerState × ℕ) :
    (PagerState × ℕ) ⊕ (PagerState × Option MachPort) :=
  let s := st.1
  match s.fileinfo np with
  | none =>
      let upi := env.malloc s.upis
      let p := env.pagerCreate st.2
      let s := (s.newUpi upi ⟨.fileData, np, p⟩).diskfsNrefLight np
      match p with
      | none => .inr ((s.diskfsNreleLight np).freeUpi upi, none)
      | some _ => filemapRight st.2 (s.setFileinfo np (some upi)) (env.pagerGetPort st.2 p)
  | some upi =>
      match env.pagerGetPort st.2 (s.info upi).p with
      | none => .inl (s.setFileinfo np none, st.2 + 1)
      | some right => .inr (s, some right)

/-- `diskfs_get_filemap`, cut off after `fuel` rounds. -/
def diskfsGetFilemap (fuel : ℕ) (np : NodeId) (env : FilemapEnv) (s : PagerState) :
    Option (PagerState × Option MachPort) :=
  (run (filemapStep np env) fuel (s, 0)).elim (fun _ => none) some

/-- `pager_clear_user_data` up to the end of its critical section. -/
def clearFileinfo (upi : UpiId) (s : PagerState) : PagerState :=
  if (s.info upi).type = .fileData ∧ s.fileinfo (s.info upi).np = some upi then
    (s.markCleared upi).setFileinfo (s.info upi).np none
  else s.markCleared upi

/-- The rest of `pager_clear_user_data`. -/
def releaseUpi (upi : UpiId) (s : PagerState) : PagerState :=
  if (s.info upi).type = .fileData then (s.diskfsNreleLight (s.info upi).np).freeUpi upi
  else s.freeUpi upi

def createDiskPager (upi : UpiId) (p : Option ℕ) (s : PagerState) : PagerState :=
  s.newUpi upi ⟨.disk, 0, p⟩

/-- The states the file pagers can reach. -/
inductive PagerRun : PagerState → Prop
  | init {c : NodeCache} {info : UpiId → UserPagerInfo} :
      (∀ np, (c.node np).fileinfo = none) → PagerRun ⟨c, fun _ => 0, info, ∅, ∅⟩
  | disk {s : PagerState} {upi : UpiId} {p : Option ℕ} : PagerRun s → upi ∉ s.upis →
      PagerRun (createDiskPager upi p s)
  | getFilemap {s s' : PagerState} {fuel : ℕ} {np : NodeId} {env : FilemapEnv}
      {right : Option MachPort} : PagerRun s → (∀ used, env.malloc used ∉ used) →
      diskfsGetFilemap fuel np env s = some (s', right) → PagerRun s'
  | clear {s : PagerState} {upi : UpiId} : PagerRun s → upi ∈ s.upis → upi ∉ s.cleared →
      PagerRun (clearFileinfo upi s)
  | release {s : PagerState} {upi : UpiId} : PagerRun s → upi ∈ s.cleared →
      PagerRun (releaseUpi upi s)

/-! ## The invariant -/

structure PagersOk (s : PagerState) : Prop where
  light : ∀ np, s.light np = (s.holders np).card
  fileinfo : ∀ {np upi}, s.fileinfo np = some upi →
    upi ∈ s.holders np ∧ upi ∉ s.cleared
  cleared : s.cleared ⊆ s.upis

variable {s s' : PagerState} {np np' : NodeId} {upi : UpiId} {env : FilemapEnv}

@[simp] theorem setFileinfo_self (upi : Option UpiId) :
    (s.setFileinfo np upi).fileinfo np = upi := by
  simp [PagerState.setFileinfo, PagerState.fileinfo, NodeCache.setNode]

theorem setFileinfo_of_ne (hne : np' ≠ np) (upi : Option UpiId) :
    (s.setFileinfo np upi).fileinfo np' = s.fileinfo np' := by
  simp [PagerState.setFileinfo, PagerState.fileinfo, NodeCache.setNode, hne]

theorem mem_holders : upi ∈ s.holders np ↔
    upi ∈ s.upis ∧ (s.info upi).type = .fileData ∧ (s.info upi).np = np :=
  Finset.mem_filter

theorem holders_newUpi (hfresh : upi ∉ s.upis) (info : UserPagerInfo) :
    (s.newUpi upi info).holders np =
      if info.type = .fileData ∧ info.np = np then insert upi (s.holders np)
      else s.holders np := by
  have hold : (s.upis.filter fun other => ((s.newUpi upi info).info other).type = .fileData ∧
      ((s.newUpi upi info).info other).np = np) = s.holders np := by
    apply Finset.filter_congr
    intro other hother
    have hne : other ≠ upi := fun heq => hfresh (heq ▸ hother)
    simp [PagerState.newUpi, hne]
  have hself : (s.newUpi upi info).info upi = info := by simp [PagerState.newUpi]
  unfold PagerState.holders at hold ⊢
  rw [show (s.newUpi upi info).upis = insert upi s.upis from rfl, Finset.filter_insert, hold,
    hself]

theorem holders_freeUpi : (s.freeUpi upi).holders np = (s.holders np).erase upi := by
  ext other
  simp only [mem_holders, Finset.mem_erase, PagerState.freeUpi]
  tauto

theorem PagersOk.setFileinfo_none (h : PagersOk s) (np : NodeId) :
    PagersOk (s.setFileinfo np none) := by
  refine ⟨h.light, ?_, h.cleared⟩
  intro np' upi hupi
  by_cases heq : np' = np
  · rw [heq, setFileinfo_self] at hupi
    cases hupi
  · rw [setFileinfo_of_ne heq] at hupi
    exact h.fileinfo hupi

theorem PagersOk.newUpi (h : PagersOk s) (hfresh : upi ∉ s.upis) (p : Option ℕ) :
    PagersOk ((s.newUpi upi ⟨.fileData, np, p⟩).diskfsNrefLight np) := by
  refine ⟨?_, ?_, fun other hother => Finset.mem_insert_of_mem (h.cleared hother)⟩
  · intro np'
    change Function.update s.light np (s.light np + 1) np' =
      ((s.newUpi upi ⟨.fileData, np, p⟩).holders np').card
    rw [holders_newUpi hfresh]
    by_cases heq : np' = np
    · have hnew : upi ∉ s.holders np := fun hmem => hfresh (mem_holders.mp hmem).1
      rw [heq, Function.update_self, if_pos ⟨rfl, rfl⟩, Finset.card_insert_of_notMem hnew,
        h.light]
    · rw [Function.update_of_ne heq, if_neg fun hand => heq hand.2.symm]
      exact h.light np'
  · intro np' other hother
    obtain ⟨hholds, hcleared⟩ := h.fileinfo (show s.fileinfo np' = some other from hother)
    refine ⟨?_, hcleared⟩
    change other ∈ (s.newUpi upi ⟨.fileData, np, p⟩).holders np'
    rw [holders_newUpi hfresh]
    split
    · exact Finset.mem_insert_of_mem hholds
    · exact hholds

theorem PagersOk.setFileinfo (h : PagersOk s) (hholds : upi ∈ s.holders np)
    (hcleared : upi ∉ s.cleared) : PagersOk (s.setFileinfo np (some upi)) := by
  refine ⟨h.light, ?_, h.cleared⟩
  intro np' other hother
  by_cases heq : np' = np
  · rw [heq, setFileinfo_self, Option.some.injEq] at hother
    rw [heq, ← hother]
    exact ⟨hholds, hcleared⟩
  · rw [setFileinfo_of_ne heq] at hother
    exact h.fileinfo hother

theorem PagersOk.freeUpi (h : PagersOk s) (hcleared : upi ∈ s.cleared) {light : NodeId → ℕ}
    (hlight : ∀ np, light np = ((s.holders np).erase upi).card) :
    PagersOk (PagerState.freeUpi { s with light := light } upi) := by
  refine ⟨?_, ?_, Finset.erase_subset_erase upi h.cleared⟩
  · intro np
    rw [holders_freeUpi]
    exact hlight np
  · intro np other hother
    obtain ⟨hholds, hnot⟩ := h.fileinfo (show s.fileinfo np = some other from hother)
    have hne : other ≠ upi := fun heq => hnot (heq ▸ hcleared)
    rw [holders_freeUpi]
    exact ⟨Finset.mem_erase.mpr ⟨hne, hholds⟩, fun hmem => hnot (Finset.mem_of_mem_erase hmem)⟩

theorem PagersOk.releaseUpi (h : PagersOk s) (hcleared : upi ∈ s.cleared) :
    PagersOk (releaseUpi upi s) := by
  unfold JfsReader.releaseUpi
  split
  next hfile =>
    apply h.freeUpi hcleared
    intro np
    by_cases heq : np = (s.info upi).np
    · have hmem : upi ∈ s.holders np :=
        mem_holders.mpr ⟨h.cleared hcleared, hfile, heq.symm⟩
      rw [← heq, Function.update_self, Finset.card_erase_of_mem hmem, h.light]
    · have hnot : upi ∉ s.holders np := fun hmem => heq (mem_holders.mp hmem).2.2.symm
      rw [Function.update_of_ne heq, Finset.erase_eq_of_notMem hnot, h.light]
  next hdisk =>
    apply h.freeUpi hcleared
    intro np
    have hnot : upi ∉ s.holders np := fun hmem => hdisk (mem_holders.mp hmem).2.1
    rw [Finset.erase_eq_of_notMem hnot, h.light]

theorem fileinfo_clearFileinfo (h : PagersOk s) (upi : UpiId) (np : NodeId) :
    (clearFileinfo upi s).fileinfo np =
      if s.fileinfo np = some upi then none else s.fileinfo np := by
  unfold clearFileinfo
  by_cases hpoints : s.fileinfo np = some upi
  · obtain ⟨-, hfile, hnp⟩ := mem_holders.mp (h.fileinfo hpoints).1
    have hcond : (s.info upi).type = .fileData ∧ s.fileinfo (s.info upi).np = some upi :=
      ⟨hfile, hnp ▸ hpoints⟩
    rw [if_pos hpoints, if_pos hcond, ← hnp, setFileinfo_self]
  · rw [if_neg hpoints]
    split
    next hcond =>
      have hne : np ≠ (s.info upi).np := fun heq => hpoints (heq ▸ hcond.2)
      rw [setFileinfo_of_ne hne]
      rfl
    next => rfl

theorem PagersOk.clearFileinfo (h : PagersOk s) (hupi : upi ∈ s.upis) :
    PagersOk (clearFileinfo upi s) := by
  have hframe : (JfsReader.clearFileinfo upi s).light = s.light ∧
      (JfsReader.clearFileinfo upi s).info = s.info ∧
      (JfsReader.clearFileinfo upi s).upis = s.upis ∧
      (JfsReader.clearFileinfo upi s).cleared = insert upi s.cleared := by
    unfold JfsReader.clearFileinfo
    split <;> exact ⟨rfl, rfl, rfl, rfl⟩
  obtain ⟨hlight, hinfo, hupis, hcleared⟩ := hframe
  have hholders : ∀ np, (JfsReader.clearFileinfo upi s).holders np = s.holders np := by
    intro np
    unfold PagerState.holders
    rw [hinfo, hupis]
  refine ⟨?_, ?_, ?_⟩
  · intro np
    rw [hlight, hholders, h.light]
  · intro np other hother
    rw [fileinfo_clearFileinfo h] at hother
    split at hother
    next => cases hother
    next hne =>
      obtain ⟨hholds, hnot⟩ := h.fileinfo hother
      rw [hholders, hcleared]
      refine ⟨hholds, ?_⟩
      rw [Finset.mem_insert, not_or]
      exact ⟨fun heq => hne (heq ▸ hother), hnot⟩
  · rw [hcleared, hupis]
    exact Finset.insert_subset hupi h.cleared

theorem PagersOk.createDiskPager (h : PagersOk s) (hfresh : upi ∉ s.upis) (p : Option ℕ) :
    PagersOk (createDiskPager upi p s) := by
  have hholders : ∀ np, (JfsReader.createDiskPager upi p s).holders np = s.holders np := by
    intro np
    unfold JfsReader.createDiskPager
    rw [holders_newUpi hfresh, if_neg (by simp)]
  refine ⟨?_, ?_, fun other hother => Finset.mem_insert_of_mem (h.cleared hother)⟩
  · intro np
    rw [hholders]
    exact h.light np
  · intro np other hother
    rw [hholders]
    exact h.fileinfo hother

/-! ## Runs -/

/-- A state that differs in freed memory only. -/
structure SameLive (s s' : PagerState) : Prop where
  cache : s'.cache = s.cache
  light : s'.light = s.light
  upis : s'.upis = s.upis
  cleared : s'.cleared = s.cleared
  info : ∀ upi ∈ s.upis, s'.info upi = s.info upi

theorem PagersOk.sameLive (h : PagersOk s) (hsame : SameLive s s') : PagersOk s' := by
  have hholders : ∀ np, s'.holders np = s.holders np := by
    intro np
    unfold PagerState.holders
    rw [hsame.upis]
    apply Finset.filter_congr
    intro upi hupi
    rw [hsame.info upi hupi]
  refine ⟨?_, ?_, ?_⟩
  · intro np
    rw [hsame.light, hholders, h.light]
  · intro np upi hupi
    unfold PagerState.fileinfo at hupi
    rw [hsame.cache] at hupi
    rw [hholders, hsame.cleared]
    exact h.fileinfo hupi
  · rw [hsame.cleared, hsame.upis]
    exact h.cleared

theorem filemapStep_of_failure (h : PagersOk s) (hmalloc : ∀ used, env.malloc used ∉ used)
    (hnone : s.fileinfo np = none) {round : ℕ} (hfail : env.pagerCreate round = none) :
    ∃ s', filemapStep np env (s, round) = .inr (s', none) ∧ SameLive s s' := by
  have hstep : filemapStep np env (s, round) =
      .inr ((((s.newUpi (env.malloc s.upis) ⟨.fileData, np, none⟩).diskfsNrefLight
        np).diskfsNreleLight np).freeUpi (env.malloc s.upis), none) := by
    simp only [filemapStep, hnone, hfail]
  refine ⟨_, hstep, rfl, ?_, Finset.erase_insert (hmalloc s.upis), ?_, ?_⟩
  · simp [PagerState.freeUpi, PagerState.diskfsNreleLight, PagerState.diskfsNrefLight,
      PagerState.newUpi]
  · exact Finset.erase_eq_of_notMem fun hmem => hmalloc s.upis (h.cleared hmem)
  · intro upi hupi
    have hne : upi ≠ env.malloc s.upis := fun heq => hmalloc s.upis (heq ▸ hupi)
    exact Function.update_of_ne hne _ _

theorem PagersOk.created (h : PagersOk s) (hfresh : upi ∉ s.upis) (np : NodeId)
    (p : Option ℕ) :
    PagersOk (((s.newUpi upi ⟨.fileData, np, p⟩).diskfsNrefLight np).setFileinfo np
      (some upi)) := by
  apply (h.newUpi hfresh p).setFileinfo
  · change upi ∈ (s.newUpi upi ⟨.fileData, np, p⟩).holders np
    rw [holders_newUpi hfresh, if_pos ⟨rfl, rfl⟩]
    exact Finset.mem_insert_self _ _
  · exact fun hmem => hfresh (h.cleared hmem)

theorem PagersOk.filemapStep (h : PagersOk s) (hmalloc : ∀ used, env.malloc used ∉ used)
    (np : NodeId) (round : ℕ) :
    Sum.elim (fun st => PagersOk st.1) (fun r => PagersOk r.1)
      (filemapStep np env (s, round)) := by
  cases hinfo : s.fileinfo np with
  | none =>
      cases hcreate : env.pagerCreate round with
      | none =>
          obtain ⟨s', hstep, hsame⟩ := filemapStep_of_failure h hmalloc hinfo hcreate
          rw [hstep]
          exact h.sameLive hsame
      | some p =>
          have hok := h.created (hmalloc s.upis) np (some p)
          simp only [JfsReader.filemapStep, hinfo, hcreate, filemapRight]
          split
          · exact hok
          · exact hok
  | some upi =>
      simp only [JfsReader.filemapStep, hinfo]
      cases env.pagerGetPort round (s.info upi).p with
      | none => exact h.setFileinfo_none np
      | some right => exact h

theorem PagersOk.inside (h : PagersOk s) (hmalloc : ∀ used, env.malloc used ∉ used)
    {n : ℕ} {st : PagerState × ℕ} (hrun : run (JfsReader.filemapStep np env) n (s, 0) = .inl st) :
    PagersOk st.1 := by
  refine run_invariant (P := fun st => PagersOk st.1) ?_ h hrun
  intro st st' hok hstep
  have hpost := hok.filemapStep hmalloc np st.2
  rw [show (st.1, st.2) = st from rfl, hstep] at hpost
  exact hpost

theorem PagersOk.getFilemap (h : PagersOk s) (hmalloc : ∀ used, env.malloc used ∉ used)
    {fuel : ℕ} {right : Option MachPort}
    (hcall : diskfsGetFilemap fuel np env s = some (s', right)) : PagersOk s' := by
  unfold diskfsGetFilemap at hcall
  cases hrun : run (JfsReader.filemapStep np env) fuel (s, 0) with
  | inl st => simp [hrun] at hcall
  | inr r =>
      obtain rfl : r = (s', right) := by simpa [hrun] using hcall
      obtain ⟨k, st, hinside, hlast⟩ := exists_last_step hrun
      have hpost := (h.inside hmalloc hinside).filemapStep hmalloc np st.2
      rw [show (st.1, st.2) = st from rfl, hlast] at hpost
      exact hpost

theorem PagerRun.pagersOk (h : PagerRun s) : PagersOk s := by
  induction h with
  | init hnone =>
      refine ⟨fun np => by simp [PagerState.holders], ?_, Finset.empty_subset _⟩
      intro np upi hupi
      unfold PagerState.fileinfo at hupi
      rw [hnone np] at hupi
      cases hupi
  | disk _ hfresh ih => exact ih.createDiskPager hfresh _
  | getFilemap _ hmalloc hcall ih => exact ih.getFilemap hmalloc hcall
  | clear _ hupi _ ih => exact ih.clearFileinfo hupi
  | release _ hcleared ih => exact ih.releaseUpi hcleared

/-- The light references of a node are those of its pagers, `fileinfo` points to
one of them that is not being taken down, and the assertion in
`diskfs_node_norefs` holds of every node without light references. -/
theorem pagerReferences_never_dangle (h : PagerRun s) :
    (∀ np, s.light np = (s.holders np).card) ∧
      (∀ np upi, s.fileinfo np = some upi → upi ∈ s.holders np ∧ upi ∉ s.cleared) ∧
      (∀ np upi newer, newer ≠ upi → s.fileinfo np = some newer →
        (clearFileinfo upi s).fileinfo np = some newer) ∧
      (∀ np env, (∀ used, env.malloc used ∉ used) → ∀ n s₁ round,
        run (filemapStep np env) n (s, 0) = .inl (s₁, round) → s₁.fileinfo np = none →
        env.pagerCreate round = none →
        ∃ s₂, diskfsGetFilemap (n + 1) np env s = some (s₂, none) ∧
          s₂.fileinfo np = none ∧ s₂.light = s₁.light) ∧
      ∀ np, s.light np = 0 →
        s.fileinfo np = none ∧ ∃ c', diskfsNodeNorefs np s.cache = some c' := by
  have hok := h.pagersOk
  refine ⟨hok.light, fun np upi => hok.fileinfo, ?_, ?_, ?_⟩
  · intro np upi newer hne hnewer
    rw [fileinfo_clearFileinfo hok, hnewer, if_neg]
    exact fun heq => hne (Option.some.inj heq)
  · intro np env hmalloc n s₁ round hinside hnone hfail
    obtain ⟨s₂, hstep, hsame⟩ :=
      filemapStep_of_failure (hok.inside hmalloc hinside) hmalloc hnone hfail
    refine ⟨s₂, ?_, ?_, hsame.light⟩
    · unfold diskfsGetFilemap
      rw [run_add_of_inl hinside, run_succ_of_inr hstep]
      rfl
    · unfold PagerState.fileinfo at hnone ⊢
      rw [hsame.cache]
      exact hnone
  · intro np hlight
    have hempty : s.holders np = ∅ := by
      rw [← Finset.card_eq_zero, ← hok.light, hlight]
    have hnone : s.fileinfo np = none := by
      cases hinfo : s.fileinfo np with
      | none => rfl
      | some upi =>
          have hmem := (hok.fileinfo hinfo).1
          rw [hempty] at hmem
          cases hmem
    exact ⟨hnone, _, if_pos hnone⟩

/-! The pager of node 7 is nearly gone, and is replaced before it is cleared. -/

/-- The first rounds of the loop find no right. -/
def filemapEnvAfter (rounds : ℕ) : FilemapEnv where
  malloc used := used.sup id + 1
  pagerCreate _ := some 0
  pagerGetPort round _ := if round < rounds then none else some 9

theorem filemapEnvAfter_malloc (rounds : ℕ) (used : Finset UpiId) :
    (filemapEnvAfter rounds).malloc used ∉ used := by
  intro hmem
  have hle : used.sup id + 1 ≤ used.sup id := Finset.le_sup (f := id) hmem
  exact Nat.not_succ_le_self _ hle

theorem pagerReferences_replaced :
    ∃ s, PagerRun s ∧ s.cleared = {1} ∧ s.fileinfo 7 = some 2 ∧ s.light 7 = 2 ∧
      s.light 7 = (s.holders 7).card := by
  have hinit := @PagerRun.init blankCache (fun _ => ⟨.disk, 0, none⟩) (fun _ => rfl)
  have hfirst := @PagerRun.getFilemap _ _ 1 7 _ _ hinit (filemapEnvAfter_malloc 0) rfl
  have hsecond := @PagerRun.getFilemap _ _ 2 7 _ _ hfirst (filemapEnvAfter_malloc 1) rfl
  have hcleared := @PagerRun.clear _ 1 hsecond (by decide) (by decide)
  exact ⟨_, hcleared, by decide, rfl, rfl, (pagerReferences_never_dangle hcleared).1 7⟩

end JfsReader
