import JfsReader.DiskLayout
import JfsReader.LinkedBuckets

/-!
# The node cache

`nodehash` with its chains through the `disknode`s, as `diskfs_cached_lookup`
and `diskfs_node_norefs` update it.  A node and its `disknode` are allocated
and freed together and are one record here.  What libdiskfs and the allocator
answer is an argument of the operations; `diskfs_make_node` hands out a node
that is not in use, with one reference.
-/

namespace JfsReader

open LinkedBuckets

def inohsz : ℕ := 512

theorem and_inohsz_lt (ino : ℕ) : ino &&& (inohsz - 1) < inohsz :=
  lt_of_le_of_lt Nat.and_le_right (by decide)

def inohash (ino : ℕ) : Fin inohsz := ⟨ino &&& (inohsz - 1), and_inohsz_lt ino⟩

inductive ErrorT
  | success
  | enoent
  | enomem
  | erofs
  | eagain
  | code (n : ℕ)
deriving DecidableEq

abbrev NodeId := ℕ

/-- A node; `dnStat` is the inode its `dn_stat` was filled from, if it was. -/
structure Node where
  cacheId : ℕ
  references : ℕ
  fileinfo : Option ℕ
  dnStat : Option Dinode

structure NodeCache where
  links : Links (Fin inohsz) NodeId
  node : NodeId → Node

/-- The answers of `malloc`, `diskfs_make_node` and `read_node`. -/
structure LookupEnv where
  malloc : Bool
  makeNode : Option NodeId
  readNode : Except ℕ Dinode

/-- The return value, `*npp`, the node that was created, and the cache. -/
structure LookupEnd where
  err : ErrorT
  npp : Option NodeId
  created : Option NodeId
  cache : NodeCache

namespace NodeCache

def setNode (c : NodeCache) (np : NodeId) (n : Node) : NodeCache :=
  { c with node := Function.update c.node np n }

def setReferences (c : NodeCache) (np : NodeId) (n : ℕ) : NodeCache :=
  c.setNode np { c.node np with references := n }

def addReference (c : NodeCache) (np : NodeId) : NodeCache :=
  c.setReferences np ((c.node np).references + 1)

def insertNode (c : NodeCache) (inum : ℕ) (np : NodeId) : NodeCache :=
  -- `diskfs_make_node` has given the node its first reference
  let c := c.setNode np ⟨inum, 1, none, none⟩
  { c with links := c.links.pushFront (inohash inum) np }

/-- The effect of `read_node` on the node. -/
def fillStat (c : NodeCache) (np : NodeId) (r : Except ℕ Dinode) : NodeCache :=
  match r with
  | .ok di => c.setNode np { c.node np with dnStat := some di }
  | .error _ => c

end NodeCache

def readNodeErr : Except ℕ Dinode → ErrorT
  | .ok _ => .success
  | .error n => .code n

def inodeInit (c : NodeCache) : NodeCache :=
  { c with links := { c.links with head := fun _ => none } }

/-- `diskfs_cached_lookup`, cut off after `fuel` nodes of a chain. -/
def diskfsCachedLookup (fuel inum : ℕ) (env : LookupEnv) (c : NodeCache) :
    Option LookupEnd :=
  match c.links.search (fun np => (c.node np).cacheId == inum) fuel
      (c.links.head (inohash inum)) with
  | none => none
  | some (some np) => some ⟨.success, some np, none, c.addReference np⟩
  | some none =>
      if env.malloc then
        match env.makeNode with
        | none => some ⟨.enomem, none, none, c⟩
        | some np =>
            -- an inode that cannot be read leaves its node in the table
            let c := (c.insertNode inum np).fillStat np env.readNode
            some ⟨readNodeErr env.readNode, some np, some np, c.addReference np⟩
      else some ⟨.enomem, none, none, c⟩

/-- `none` when the assertion fails, which it does with the node already
unlinked. -/
def diskfsNodeNorefs (np : NodeId) (c : NodeCache) : Option NodeCache :=
  let c := { c with links := c.links.unlink np }
  if (c.node np).fileinfo = none then some c else none

/-! ## The invariant -/

structure TableOk (c : NodeCache) (rows : Fin inohsz → List NodeId)
    (live : Finset NodeId) : Prop where
  chains : c.links.Represents rows
  hash : ∀ {b np}, np ∈ rows b → inohash (c.node np).cacheId = b
  unique : ∀ {np np'}, np ∈ live → np' ∈ live →
    (c.node np).cacheId = (c.node np').cacheId → np = np'
  mem_iff : ∀ {np}, np ∈ live ↔ ∃ b, np ∈ rows b
  fileinfo : ∀ {np}, np ∈ live → (c.node np).fileinfo = none

def LookupEnd.liveAfter (out : LookupEnd) (live : Finset NodeId) : Finset NodeId :=
  out.created.elim live fun np => insert np live

/-- The states a run can reach, with the nodes inserted and not yet removed. -/
inductive CacheRun : NodeCache → Finset NodeId → Prop
  | init (c : NodeCache) : CacheRun (inodeInit c) ∅
  | lookup {c : NodeCache} {live : Finset NodeId} {fuel inum : ℕ} {env : LookupEnv}
      {out : LookupEnd} : CacheRun c live → (∀ np, env.makeNode = some np → np ∉ live) →
      diskfsCachedLookup fuel inum env c = some out →
      CacheRun out.cache (out.liveAfter live)
  | norefs {c c' : NodeCache} {live : Finset NodeId} {np : NodeId} : CacheRun c live →
      np ∈ live → diskfsNodeNorefs np c = some c' → CacheRun c' (live.erase np)

variable {c : NodeCache} {rows : Fin inohsz → List NodeId} {live : Finset NodeId}
  {fuel inum : ℕ} {env : LookupEnv} {out : LookupEnd} {np : NodeId}

theorem TableOk.init (c : NodeCache) : TableOk (inodeInit c) (fun _ => []) ∅ := by
  refine ⟨⟨fun b => rfl, by simp, by simp⟩, by simp, by simp, by simp, by simp⟩

theorem TableOk.mem_row (h : TableOk c rows live) (hnp : np ∈ live) :
    np ∈ rows (inohash (c.node np).cacheId) := by
  obtain ⟨b, hb⟩ := h.mem_iff.mp hnp
  rw [h.hash hb]
  exact hb

theorem TableOk.find? (h : TableOk c rows live) (hnp : np ∈ live) :
    (rows (inohash (c.node np).cacheId)).find?
      (fun np' => (c.node np').cacheId == (c.node np).cacheId) = some np := by
  cases hfind : (rows (inohash (c.node np).cacheId)).find?
      fun np' => (c.node np').cacheId == (c.node np).cacheId with
  | none =>
      have := List.find?_eq_none.mp hfind np (h.mem_row hnp)
      simp at this
  | some np' =>
      have heq : (c.node np').cacheId = (c.node np).cacheId := by
        simpa using List.find?_some hfind
      rw [h.unique (h.mem_iff.mpr ⟨_, List.mem_of_find?_eq_some hfind⟩) hnp heq]

theorem TableOk.find?_none (h : TableOk c rows live)
    (hnone : ∀ np ∈ live, (c.node np).cacheId ≠ inum) :
    (rows (inohash inum)).find? (fun np => (c.node np).cacheId == inum) = none := by
  rw [List.find?_eq_none]
  intro np hnp
  simpa using hnone np (h.mem_iff.mpr ⟨_, hnp⟩)

/-! ## The operations on the table -/

/-- A field that the new record of a node agrees on is unchanged in every node. -/
theorem setNode_keeps {β : Type*} (field : Node → β) {n : Node}
    (hkeep : field n = field (c.node np)) (np' : NodeId) :
    field ((c.setNode np n).node np') = field (c.node np') := by
  change field (Function.update c.node np n np') = _
  by_cases heq : np' = np
  · subst heq
    rw [Function.update_self, hkeep]
  · rw [Function.update_of_ne heq]

theorem setReferences_keeps {β : Type*} (field : Node → β)
    (hkeep : ∀ n count, field { n with references := count } = field n) (n : ℕ) (np' : NodeId) :
    field ((c.setReferences np n).node np') = field (c.node np') :=
  setNode_keeps field (hkeep _ _) np'

theorem fillStat_keeps {β : Type*} (field : Node → β)
    (hkeep : ∀ n st, field { n with dnStat := st } = field n) (r : Except ℕ Dinode)
    (np' : NodeId) : field ((c.fillStat np r).node np') = field (c.node np') := by
  cases r with
  | error err => rfl
  | ok di => exact setNode_keeps field (hkeep _ _) np'

@[simp] theorem setReferences_cacheId (n : ℕ) (np' : NodeId) :
    ((c.setReferences np n).node np').cacheId = (c.node np').cacheId :=
  setReferences_keeps Node.cacheId (fun _ _ => rfl) n np'

@[simp] theorem setReferences_fileinfo (n : ℕ) (np' : NodeId) :
    ((c.setReferences np n).node np').fileinfo = (c.node np').fileinfo :=
  setReferences_keeps Node.fileinfo (fun _ _ => rfl) n np'

@[simp] theorem fillStat_links (r : Except ℕ Dinode) : (c.fillStat np r).links = c.links := by
  cases r <;> rfl

@[simp] theorem fillStat_cacheId (r : Except ℕ Dinode) (np' : NodeId) :
    ((c.fillStat np r).node np').cacheId = (c.node np').cacheId :=
  fillStat_keeps Node.cacheId (fun _ _ => rfl) r np'

@[simp] theorem fillStat_fileinfo (r : Except ℕ Dinode) (np' : NodeId) :
    ((c.fillStat np r).node np').fileinfo = (c.node np').fileinfo :=
  fillStat_keeps Node.fileinfo (fun _ _ => rfl) r np'

theorem TableOk.congr {c' : NodeCache} (h : TableOk c rows live) (hlinks : c'.links = c.links)
    (hid : ∀ np, (c'.node np).cacheId = (c.node np).cacheId)
    (hfile : ∀ np, (c'.node np).fileinfo = (c.node np).fileinfo) : TableOk c' rows live := by
  refine ⟨hlinks ▸ h.chains, ?_, ?_, h.mem_iff, ?_⟩
  · intro b np hnp
    rw [hid]
    exact h.hash hnp
  · intro np np' hnp hnp' heq
    rw [hid, hid] at heq
    exact h.unique hnp hnp' heq
  · intro np hnp
    rw [hfile]
    exact h.fileinfo hnp

theorem TableOk.setReferences (h : TableOk c rows live) (np : NodeId) (n : ℕ) :
    TableOk (c.setReferences np n) rows live :=
  h.congr rfl (setReferences_cacheId n) (setReferences_fileinfo n)

theorem TableOk.fillStat (h : TableOk c rows live) (np : NodeId) (r : Except ℕ Dinode) :
    TableOk (c.fillStat np r) rows live :=
  h.congr (fillStat_links r) (fillStat_cacheId r) (fillStat_fileinfo r)

theorem insertNode_node_self : (c.insertNode inum np).node np = ⟨inum, 1, none, none⟩ := by
  simp [NodeCache.insertNode, NodeCache.setNode]

theorem insertNode_node_of_ne {np' : NodeId} (hne : np' ≠ np) :
    (c.insertNode inum np).node np' = c.node np' := by
  simp [NodeCache.insertNode, NodeCache.setNode, hne]

theorem TableOk.insertNode (h : TableOk c rows live) (hfresh : np ∉ live)
    (hnone : ∀ np ∈ live, (c.node np).cacheId ≠ inum) :
    TableOk (c.insertNode inum np)
      (Function.update rows (inohash inum) (np :: rows (inohash inum))) (insert np live) := by
  have hnew : ∀ b, np ∉ rows b := fun b hb => hfresh (h.mem_iff.mpr ⟨b, hb⟩)
  have hne : ∀ {np'}, np' ∈ live → np' ≠ np := fun hnp' heq => hfresh (heq ▸ hnp')
  refine ⟨h.chains.pushFront hnew, ?_, ?_, ?_, ?_⟩
  · intro b np' hnp'
    rcases Links.mem_update_cons.mp hnp' with ⟨rfl, rfl⟩ | hold
    · rw [insertNode_node_self]
    · rw [insertNode_node_of_ne (hne (h.mem_iff.mpr ⟨b, hold⟩))]
      exact h.hash hold
  · intro np₁ np₂ h₁ h₂ heq
    rcases Finset.mem_insert.mp h₁ with hnew₁ | hold₁
    · rcases Finset.mem_insert.mp h₂ with hnew₂ | hold₂
      · rw [hnew₁, hnew₂]
      · rw [hnew₁, insertNode_node_self, insertNode_node_of_ne (hne hold₂)] at heq
        exact absurd heq.symm (hnone _ hold₂)
    · rcases Finset.mem_insert.mp h₂ with hnew₂ | hold₂
      · rw [hnew₂, insertNode_node_self, insertNode_node_of_ne (hne hold₁)] at heq
        exact absurd heq (hnone _ hold₁)
      · rw [insertNode_node_of_ne (hne hold₁), insertNode_node_of_ne (hne hold₂)] at heq
        exact h.unique hold₁ hold₂ heq
  · intro np'
    rw [Finset.mem_insert, h.mem_iff]
    constructor
    · rintro (rfl | ⟨b, hb⟩)
      · exact ⟨inohash inum, Links.mem_update_cons.mpr (.inl ⟨rfl, rfl⟩)⟩
      · exact ⟨b, Links.mem_update_cons.mpr (.inr hb)⟩
    · rintro ⟨b, hb⟩
      rcases Links.mem_update_cons.mp hb with ⟨rfl, -⟩ | hold
      · exact .inl rfl
      · exact .inr ⟨b, hold⟩
  · intro np' hnp'
    rcases Finset.mem_insert.mp hnp' with rfl | hold
    · rw [insertNode_node_self]
    · rw [insertNode_node_of_ne (hne hold)]
      exact h.fileinfo hold

theorem TableOk.unlink (h : TableOk c rows live) (hnp : np ∈ live) :
    TableOk { c with links := c.links.unlink np }
      (Function.update rows (inohash (c.node np).cacheId)
        ((rows (inohash (c.node np).cacheId)).erase np)) (live.erase np) := by
  have hrow := h.mem_row hnp
  have hiff : ∀ {b np'}, np' ∈ Function.update rows (inohash (c.node np).cacheId)
      ((rows (inohash (c.node np).cacheId)).erase np) b ↔ np' ≠ np ∧ np' ∈ rows b := by
    intro b np'
    by_cases hb : b = inohash (c.node np).cacheId
    · rw [hb, Function.update_self, (h.chains.nodup _).mem_erase_iff]
    · rw [Function.update_of_ne hb]
      constructor
      · intro hmem
        refine ⟨?_, hmem⟩
        rintro rfl
        exact hb (h.hash hmem).symm
      · exact fun hmem => hmem.2
  refine ⟨h.chains.unlink hrow, ?_, ?_, ?_, ?_⟩
  · intro b np' hnp'
    exact h.hash (hiff.mp hnp').2
  · intro np₁ np₂ h₁ h₂ heq
    exact h.unique (Finset.mem_of_mem_erase h₁) (Finset.mem_of_mem_erase h₂) heq
  · intro np'
    rw [Finset.mem_erase, h.mem_iff]
    constructor
    · rintro ⟨hne, b, hb⟩
      exact ⟨b, hiff.mpr ⟨hne, hb⟩⟩
    · rintro ⟨b, hb⟩
      exact ⟨(hiff.mp hb).1, b, (hiff.mp hb).2⟩
  · intro np' hnp'
    exact h.fileinfo (Finset.mem_of_mem_erase hnp')

/-! ## Runs -/

def missEnd (c : NodeCache) (inum : ℕ) (env : LookupEnv) : LookupEnd :=
  match env.malloc, env.makeNode with
  | true, some np => ⟨readNodeErr env.readNode, some np, some np,
      ((c.insertNode inum np).fillStat np env.readNode).addReference np⟩
  | _, _ => ⟨.enomem, none, none, c⟩

def lookupEnd (c : NodeCache) (inum : ℕ) (env : LookupEnv) : Option NodeId → LookupEnd
  | some np => ⟨.success, some np, none, c.addReference np⟩
  | none => missEnd c inum env

theorem diskfsCachedLookup_eq (fuel inum : ℕ) (env : LookupEnv) (c : NodeCache) :
    diskfsCachedLookup fuel inum env c =
      (c.links.search (fun np => (c.node np).cacheId == inum) fuel
        (c.links.deref (.head (inohash inum)))).map (lookupEnd c inum env) := by
  unfold diskfsCachedLookup
  change _ = (c.links.search _ fuel (c.links.head (inohash inum))).map _
  cases c.links.search (fun np => (c.node np).cacheId == inum) fuel
      (c.links.head (inohash inum)) with
  | none => rfl
  | some r =>
      cases r with
      | some np => rfl
      | none =>
          unfold lookupEnd missEnd
          cases env.malloc <;> cases env.makeNode <;> rfl

def TableHas (c : NodeCache) (live : Finset NodeId) (inum : ℕ) : Option NodeId → Prop
  | some np => np ∈ live ∧ (c.node np).cacheId = inum
  | none => ∀ np ∈ live, (c.node np).cacheId ≠ inum

theorem TableOk.find?_eq (h : TableOk c rows live) {r : Option NodeId}
    (hr : TableHas c live inum r) :
    (rows (inohash inum)).find? (fun np => (c.node np).cacheId == inum) = r := by
  cases r with
  | none => exact h.find?_none hr
  | some np =>
      obtain ⟨hnp, rfl⟩ := hr
      exact h.find? hnp

theorem TableOk.exists_has (c : NodeCache) (live : Finset NodeId) (inum : ℕ) :
    ∃ r, TableHas c live inum r := by
  by_cases hmem : ∃ np ∈ live, (c.node np).cacheId = inum
  · obtain ⟨np, hnp, hid⟩ := hmem
    exact ⟨some np, hnp, hid⟩
  · exact ⟨none, fun np hnp hid => hmem ⟨np, hnp, hid⟩⟩

theorem TableOk.lookup (h : TableOk c rows live) {r : Option NodeId}
    (hr : TableHas c live inum r) (hfuel : (rows (inohash inum)).length < fuel)
    (env : LookupEnv) :
    diskfsCachedLookup fuel inum env c = some (lookupEnd c inum env r) := by
  rw [diskfsCachedLookup_eq, (h.chains.chain (inohash inum)).search _ hfuel, h.find?_eq hr]
  rfl

theorem TableOk.lookup_eq (h : TableOk c rows live) {r : Option NodeId}
    (hr : TableHas c live inum r) (hout : diskfsCachedLookup fuel inum env c = some out) :
    out = lookupEnd c inum env r := by
  rw [diskfsCachedLookup_eq, Option.map_eq_some_iff] at hout
  obtain ⟨r', hsearch, rfl⟩ := hout
  rw [(h.chains.chain (inohash inum)).search_eq hsearch, h.find?_eq hr]

theorem TableOk.lookupEnd (h : TableOk c rows live) {r : Option NodeId}
    (hr : TableHas c live inum r) (hfresh : ∀ np, env.makeNode = some np → np ∉ live) :
    ∃ rows', TableOk (lookupEnd c inum env r).cache rows'
      ((lookupEnd c inum env r).liveAfter live) := by
  cases r with
  | some np => exact ⟨rows, h.setReferences np _⟩
  | none =>
      unfold JfsReader.lookupEnd missEnd
      cases hmalloc : env.malloc with
      | false => exact ⟨rows, h⟩
      | true =>
          cases hmake : env.makeNode with
          | none => exact ⟨rows, h⟩
          | some np =>
              exact ⟨_, ((h.insertNode (hfresh np hmake) hr).fillStat np _).setReferences np _⟩

theorem TableOk.norefs (h : TableOk c rows live) (hnp : np ∈ live) :
    ∃ c' rows', diskfsNodeNorefs np c = some c' ∧ TableOk c' rows' (live.erase np) :=
  ⟨_, _, if_pos (h.fileinfo hnp), h.unlink hnp⟩

theorem CacheRun.tableOk (h : CacheRun c live) : ∃ rows, TableOk c rows live := by
  induction h with
  | init c => exact ⟨_, .init c⟩
  | @lookup c live fuel inum env out _ hfresh hout ih =>
      obtain ⟨rows, hok⟩ := ih
      obtain ⟨r, hr⟩ := TableOk.exists_has c live inum
      obtain rfl := hok.lookup_eq hr hout
      exact hok.lookupEnd hr hfresh
  | norefs _ hnp hnorefs ih =>
      obtain ⟨rows, hok⟩ := ih
      obtain ⟨c', rows', heq, hok'⟩ := hok.norefs hnp
      obtain rfl := Option.some.inj (heq.symm.trans hnorefs)
      exact ⟨rows', hok'⟩

/-- The representation invariant of the node cache, and what each operation
does to it, in every state a run reaches. -/
theorem nodeCache_invariant (h : CacheRun c live) :
    ∃ rows, TableOk c rows live ∧
      (∀ inum env np, np ∈ live → (c.node np).cacheId = inum →
        ∃ n, ∀ fuel, n ≤ fuel → diskfsCachedLookup fuel inum env c =
          some ⟨.success, some np, none, c.addReference np⟩) ∧
      (∀ inum env, (∀ np ∈ live, (c.node np).cacheId ≠ inum) →
        (∀ np, env.makeNode = some np → np ∉ live) →
        ∃ n out rows', (∀ fuel, n ≤ fuel → diskfsCachedLookup fuel inum env c = some out) ∧
          (∀ np, env.malloc = true → env.makeNode = some np →
            out.npp = some np ∧ (out.cache.node np).cacheId = inum ∧
              TableOk out.cache rows' (insert np live)) ∧
          (env.malloc = false ∨ env.makeNode = none →
            out = ⟨.enomem, none, none, c⟩)) ∧
      (∀ np ∈ live, ∃ c' rows', diskfsNodeNorefs np c = some c' ∧
        TableOk c' rows' (live.erase np)) := by
  obtain ⟨rows, hok⟩ := h.tableOk
  refine ⟨rows, hok, ?_, ?_, fun np hnp => hok.norefs hnp⟩
  · intro inum env np hnp hid
    refine ⟨(rows (inohash inum)).length + 1, fun fuel hfuel => ?_⟩
    exact hok.lookup (r := some np) ⟨hnp, hid⟩ hfuel env
  · intro inum env hnone hfresh
    have hr : TableHas c live inum none := hnone
    obtain ⟨rows', hok'⟩ := hok.lookupEnd hr hfresh
    refine ⟨(rows (inohash inum)).length + 1, _, rows', fun fuel hfuel =>
      hok.lookup hr hfuel env, ?_, ?_⟩
    · intro np hmalloc hmake
      unfold lookupEnd missEnd LookupEnd.liveAfter at hok'
      rw [hmalloc, hmake] at hok'
      unfold lookupEnd missEnd
      rw [hmalloc, hmake]
      refine ⟨rfl, ?_, hok'⟩
      simp [NodeCache.addReference, insertNode_node_self]
    · rintro (hmalloc | hmake)
      · unfold lookupEnd missEnd
        rw [hmalloc]
      · unfold lookupEnd missEnd
        rw [hmake]
        cases env.malloc <;> rfl

/-! Two nodes in one bucket, of which the first one in is removed. -/

def blankCache : NodeCache :=
  ⟨⟨fun _ => none, fun _ => none, fun _ => .head (inohash 0)⟩, fun _ => ⟨0, 0, none, none⟩⟩

def goodEnv (np : NodeId) : LookupEnv := ⟨true, some np, .ok ⟨Bytes.sparse []⟩⟩

theorem nodeCache_invariant_twoNodes :
    ∃ c rows, CacheRun c {2} ∧ TableOk c rows {2} ∧ (c.node 2).cacheId = 517 := by
  have hinit := CacheRun.init blankCache
  have hfirst := @CacheRun.lookup _ _ 1 5 (goodEnv 1) _ hinit (by simp) rfl
  have hsecond := @CacheRun.lookup _ _ 2 517 (goodEnv 2) _ hfirst (by decide) rfl
  have hremoved := @CacheRun.norefs _ _ _ 1 hsecond (by decide) rfl
  obtain ⟨rows, hok, -⟩ := nodeCache_invariant hremoved
  exact ⟨_, rows, hremoved, hok, rfl⟩

end JfsReader
