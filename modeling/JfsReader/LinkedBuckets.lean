import Mathlib.Tactic

/-!
# Buckets of intrusive chains with back pointers to cells

Every element of a chain carries the link to the next element and a pointer to
the cell that points at the element: the head cell of its bucket or the `next`
cell of its predecessor.  Such chains are pushed at the front and unlinked
anywhere without a search.  `Represents` reads a table as one list for each
bucket, and the two updates are shown to be the two list operations.
-/

namespace LinkedBuckets

inductive Cell (ι α : Type*)
  | head (i : ι)
  | next (a : α)
deriving DecidableEq

structure Links (ι α : Type*) where
  head : ι → Option α
  next : α → Option α
  prevp : α → Cell ι α

namespace Links

variable {ι α : Type*} {l l' : Links ι α} {cell cell' : Cell ι α} {a b : α}
  {as bs : List α} {i j : ι} {v : Option α}

def deref (l : Links ι α) : Cell ι α → Option α
  | .head i => l.head i
  | .next a => l.next a

/-- Follow the links from `v` to the first element that satisfies `p`; `none`
when cut off. -/
def search (l : Links ι α) (p : α → Bool) : ℕ → Option α → Option (Option α)
  | 0, _ => none
  | _ + 1, none => some none
  | fuel + 1, some a => if p a then some (some a) else l.search p fuel (l.next a)

/-! ## Chains -/

/-- From `cell` on the links spell `as`, and every back pointer points at the
cell that points at its element. -/
def ChainFrom (l : Links ι α) : Cell ι α → List α → Prop
  | cell, [] => l.deref cell = none
  | cell, a :: as => l.deref cell = some a ∧ l.prevp a = cell ∧ l.ChainFrom (.next a) as

namespace ChainFrom

theorem deref (h : l.ChainFrom cell as) : l.deref cell = as.head? := by
  cases as with
  | nil => exact h
  | cons a as => exact h.1

theorem frame (h : l.ChainFrom cell as) (hcell : l'.deref cell = l.deref cell)
    (hnext : ∀ a ∈ as, l'.deref (.next a) = l.deref (.next a))
    (hprevp : ∀ a ∈ as, l'.prevp a = l.prevp a) : l'.ChainFrom cell as := by
  induction as generalizing cell with
  | nil => exact hcell.trans h
  | cons a as ih =>
      refine ⟨hcell.trans h.1, (hprevp a (by simp)).trans h.2.1, ?_⟩
      apply ih h.2.2 (hnext a (by simp))
      · exact fun b hb => hnext b (by simp [hb])
      · exact fun b hb => hprevp b (by simp [hb])

theorem search (h : l.ChainFrom cell as) (p : α → Bool) {fuel : ℕ}
    (hfuel : as.length < fuel) : l.search p fuel (l.deref cell) = some (as.find? p) := by
  induction as generalizing cell fuel with
  | nil =>
      obtain ⟨fuel, rfl⟩ := Nat.exists_eq_succ_of_ne_zero (Nat.ne_of_gt hfuel)
      rw [h.deref]
      rfl
  | cons a as ih =>
      rw [List.length_cons] at hfuel
      obtain ⟨fuel, rfl⟩ := Nat.exists_eq_succ_of_ne_zero (show fuel ≠ 0 by omega)
      rw [h.1, Links.search, List.find?_cons]
      cases hp : p a with
      | true => simp
      | false =>
          simp only [Bool.false_eq_true, if_false]
          exact ih h.2.2 (by omega)

theorem search_eq (h : l.ChainFrom cell as) {p : α → Bool} {fuel : ℕ} {r : Option α}
    (hsearch : l.search p fuel (l.deref cell) = some r) : r = as.find? p := by
  induction as generalizing cell fuel with
  | nil =>
      cases fuel with
      | zero => simp [Links.search] at hsearch
      | succ fuel =>
          rw [h.deref] at hsearch
          simpa [Links.search] using hsearch.symm
  | cons a as ih =>
      cases fuel with
      | zero => simp [Links.search] at hsearch
      | succ fuel =>
          rw [h.1, Links.search] at hsearch
          rw [List.find?_cons]
          cases hp : p a with
          | true => simpa [hp] using hsearch.symm
          | false =>
              simp only [hp, Bool.false_eq_true, if_false] at hsearch
              exact ih h.2.2 hsearch

theorem next_eq (h : l.ChainFrom cell (as ++ a :: bs)) : l.deref (.next a) = bs.head? := by
  induction as generalizing cell with
  | nil => exact h.2.2.deref
  | cons c as ih => exact ih h.2.2

theorem prevp_eq (h : l.ChainFrom cell (as ++ a :: bs)) :
    l.prevp a = cell ∨ ∃ c ∈ as, l.prevp a = .next c := by
  induction as generalizing cell with
  | nil => exact .inl h.2.1
  | cons c as ih =>
      right
      rcases ih h.2.2 with hhere | ⟨d, hd, hlater⟩
      · exact ⟨c, by simp, hhere⟩
      · exact ⟨d, by simp [hd], hlater⟩

theorem prevp_ne_self (h : l.ChainFrom cell (as ++ a :: bs)) (hnodup : (as ++ a :: bs).Nodup)
    (hcell : cell ≠ .next a) : l.prevp a ≠ .next a := by
  rcases h.prevp_eq with heq | ⟨c, hc, heq⟩
  · rwa [heq]
  · rw [heq]
    intro hca
    obtain rfl : c = a := by simpa using hca
    exact (List.nodup_append.mp hnodup).2.2 c hc c (by simp) rfl

end ChainFrom

/-- One list for each bucket, and no element in two places. -/
structure Represents (l : Links ι α) (rows : ι → List α) : Prop where
  chain : ∀ i, l.ChainFrom (.head i) (rows i)
  nodup : ∀ i, (rows i).Nodup
  disjoint : ∀ {i j a}, a ∈ rows i → a ∈ rows j → i = j

variable {rows : ι → List α}

theorem Represents.prevp_cases (h : l.Represents rows) (ha : a ∈ rows i) :
    l.prevp a = .head i ∨ ∃ c ∈ rows i, l.prevp a = .next c := by
  obtain ⟨before, after, hrow⟩ := List.append_of_mem ha
  have hchain := h.chain i
  rw [hrow] at hchain
  rcases hchain.prevp_eq with heq | ⟨c, hc, heq⟩
  · exact .inl heq
  · exact .inr ⟨c, by simp [hrow, hc], heq⟩

theorem Represents.next_mem (h : l.Represents rows) (ha : a ∈ rows i)
    (hnext : l.deref (.next a) = some b) : b ∈ rows i := by
  obtain ⟨before, after, hrow⟩ := List.append_of_mem ha
  have hchain := h.chain i
  rw [hrow] at hchain
  rw [hchain.next_eq] at hnext
  simp [hrow, List.mem_of_head? hnext]

/-! ## Updates -/

variable [DecidableEq ι] [DecidableEq α]

def assign (l : Links ι α) (cell : Cell ι α) (v : Option α) : Links ι α :=
  match cell with
  | .head i => { l with head := Function.update l.head i v }
  | .next a => { l with next := Function.update l.next a v }

def backlink (l : Links ι α) (v : Option α) (cell : Cell ι α) : Links ι α :=
  match v with
  | none => l
  | some b => { l with prevp := Function.update l.prevp b cell }

def pushFront (l : Links ι α) (i : ι) (a : α) : Links ι α :=
  let l := l.assign (.next a) (l.head i)
  let l := l.backlink (l.next a) (.next a)
  let l := l.backlink (some a) (.head i)
  l.assign (.head i) (some a)

def unlink (l : Links ι α) (a : α) : Links ι α :=
  let l := l.assign (l.prevp a) (l.next a)
  l.backlink (l.next a) (l.prevp a)

theorem deref_assign_self : (l.assign cell v).deref cell = v := by
  cases cell <;> simp [assign, deref]

theorem deref_assign_of_ne (h : cell' ≠ cell) :
    (l.assign cell v).deref cell' = l.deref cell' := by
  cases cell with
  | head i =>
      cases cell' with
      | head j =>
          have hij : j ≠ i := fun hij => h (by rw [hij])
          simp [assign, deref, hij]
      | next b => rfl
  | next a =>
      cases cell' with
      | head j => rfl
      | next b =>
          have hab : b ≠ a := fun hab => h (by rw [hab])
          simp [assign, deref, hab]

@[simp] theorem prevp_assign : (l.assign cell v).prevp = l.prevp := by
  cases cell <;> rfl

omit [DecidableEq ι] in
@[simp] theorem deref_backlink : (l.backlink v cell).deref = l.deref := by
  funext c
  cases v <;> cases c <;> rfl

omit [DecidableEq ι] in
theorem prevp_backlink_self : (l.backlink (some b) cell).prevp b = cell := by
  simp [backlink]

omit [DecidableEq ι] in
theorem prevp_backlink_of_ne (h : v ≠ some b) : (l.backlink v cell).prevp b = l.prevp b := by
  cases v with
  | none => rfl
  | some c =>
      have hbc : b ≠ c := fun hbc => h (by rw [hbc])
      simp [backlink, hbc]

/-! ## Pushing at the front -/

theorem deref_pushFront_head : (l.pushFront i a).deref (.head i) = some a := by
  unfold pushFront
  exact deref_assign_self

theorem deref_pushFront_next : (l.pushFront i a).deref (.next a) = l.deref (.head i) := by
  unfold pushFront
  dsimp only
  rw [deref_assign_of_ne (by simp), deref_backlink, deref_backlink, deref_assign_self]
  rfl

theorem deref_pushFront_of_ne (hhead : cell ≠ .head i) (hnext : cell ≠ .next a) :
    (l.pushFront i a).deref cell = l.deref cell := by
  unfold pushFront
  dsimp only
  rw [deref_assign_of_ne hhead, deref_backlink, deref_backlink, deref_assign_of_ne hnext]

theorem prevp_pushFront_self : (l.pushFront i a).prevp a = .head i := by
  unfold pushFront
  dsimp only
  rw [prevp_assign, prevp_backlink_self]

theorem prevp_pushFront_old (hne : b ≠ a) (h : l.deref (.head i) = some b) :
    (l.pushFront i a).prevp b = .next a := by
  have hnext : (l.assign (.next a) (l.head i)).next a = some b :=
    (@deref_assign_self _ _ l (.next a) _ _ _).trans h
  unfold pushFront
  dsimp only
  rw [prevp_assign, prevp_backlink_of_ne (by simpa using Ne.symm hne), hnext,
    prevp_backlink_self]

theorem prevp_pushFront_of_ne (hne : b ≠ a) (h : l.deref (.head i) ≠ some b) :
    (l.pushFront i a).prevp b = l.prevp b := by
  have hnext : (l.assign (.next a) (l.head i)).next a = l.head i :=
    @deref_assign_self _ _ l (.next a) _ _ _
  change l.head i ≠ some b at h
  unfold pushFront
  dsimp only
  rw [prevp_assign, prevp_backlink_of_ne (by simpa using Ne.symm hne), hnext,
    prevp_backlink_of_ne h, prevp_assign]

theorem ChainFrom.pushFront_of_ne (h : l.ChainFrom cell as) (hcell : cell ≠ .head i)
    (hnext : cell ≠ .next a) (hnew : a ∉ as) (hhead : ∀ b ∈ as, l.deref (.head i) ≠ some b) :
    (l.pushFront i a).ChainFrom cell as := by
  have hne : ∀ c ∈ as, c ≠ a := fun c hc hca => hnew (hca ▸ hc)
  apply h.frame (deref_pushFront_of_ne hcell hnext)
  · exact fun c hc => deref_pushFront_of_ne (by simp) (by simpa using hne c hc)
  · exact fun c hc => prevp_pushFront_of_ne (hne c hc) (hhead c hc)

theorem ChainFrom.pushFront (h : l.ChainFrom (.head i) as) (hnodup : as.Nodup) (hnew : a ∉ as) :
    (l.pushFront i a).ChainFrom (.head i) (a :: as) := by
  refine ⟨deref_pushFront_head, prevp_pushFront_self, ?_⟩
  cases as with
  | nil => exact deref_pushFront_next.trans h
  | cons b as =>
      obtain ⟨hhead, -, hrest⟩ := h
      obtain ⟨hne, hnew⟩ := List.ne_and_not_mem_of_not_mem_cons hnew
      refine ⟨deref_pushFront_next.trans hhead, prevp_pushFront_old (Ne.symm hne) hhead, ?_⟩
      apply hrest.pushFront_of_ne (by simp) (by simpa using Ne.symm hne) hnew
      intro c hc
      rw [hhead]
      rintro ⟨rfl⟩
      exact (List.nodup_cons.mp hnodup).1 hc

omit [DecidableEq α] in
theorem mem_update_cons :
    b ∈ Function.update rows i (a :: rows i) j ↔ (b = a ∧ j = i) ∨ b ∈ rows j := by
  by_cases hij : j = i
  · subst hij
    simp
  · simp [hij]

theorem Represents.pushFront (h : l.Represents rows) (hnew : ∀ j, a ∉ rows j) :
    (l.pushFront i a).Represents (Function.update rows i (a :: rows i)) := by
  constructor
  · intro j
    by_cases hij : j = i
    · subst hij
      rw [Function.update_self]
      exact (h.chain j).pushFront (h.nodup j) (hnew j)
    · rw [Function.update_of_ne hij]
      apply (h.chain j).pushFront_of_ne (by simpa using hij) (by simp) (hnew j)
      intro b hb hhead
      rw [(h.chain i).deref] at hhead
      exact hij (h.disjoint hb (List.mem_of_head? hhead))
  · intro j
    by_cases hij : j = i
    · subst hij
      rw [Function.update_self]
      exact List.nodup_cons.mpr ⟨hnew j, h.nodup j⟩
    · rw [Function.update_of_ne hij]
      exact h.nodup j
  · intro j k b hj hk
    rcases mem_update_cons.mp hj with ⟨rfl, rfl⟩ | holdj
    · rcases mem_update_cons.mp hk with ⟨-, rfl⟩ | holdk
      · rfl
      · exact absurd holdk (hnew k)
    · rcases mem_update_cons.mp hk with ⟨rfl, -⟩ | holdk
      · exact absurd holdj (hnew j)
      · exact h.disjoint holdj holdk

/-! ## Unlinking -/

theorem deref_unlink_of_ne (h : cell ≠ l.prevp a) :
    (l.unlink a).deref cell = l.deref cell := by
  unfold unlink
  rw [deref_backlink]
  exact deref_assign_of_ne h

theorem deref_unlink_prevp : (l.unlink a).deref (l.prevp a) = l.deref (.next a) := by
  unfold unlink
  rw [deref_backlink]
  exact deref_assign_self

theorem prevp_unlink_of_ne (hself : l.prevp a ≠ .next a) (h : l.deref (.next a) ≠ some b) :
    (l.unlink a).prevp b = l.prevp b := by
  have hnext : (l.assign (l.prevp a) (l.next a)).next a = l.next a :=
    @deref_assign_of_ne _ _ l _ (.next a) _ _ _ (Ne.symm hself)
  unfold unlink
  dsimp only
  rw [prevp_backlink_of_ne (by rw [hnext]; exact h), prevp_assign]

theorem prevp_unlink_next (hself : l.prevp a ≠ .next a) (h : l.deref (.next a) = some b) :
    (l.unlink a).prevp b = l.prevp a := by
  have hnext : (l.assign (l.prevp a) (l.next a)).next a = some b :=
    (@deref_assign_of_ne _ _ l _ (.next a) _ _ _ (Ne.symm hself)).trans h
  unfold unlink
  dsimp only
  rw [hnext, prevp_assign, prevp_backlink_self]

theorem ChainFrom.unlink_of_ne (h : l.ChainFrom cell as) (hself : l.prevp a ≠ .next a)
    (hcell : cell ≠ l.prevp a) (hcells : ∀ b ∈ as, .next b ≠ l.prevp a)
    (hnext : ∀ b ∈ as, l.deref (.next a) ≠ some b) : (l.unlink a).ChainFrom cell as := by
  apply h.frame (deref_unlink_of_ne hcell)
  · intro b hb
    exact deref_unlink_of_ne (hcells b hb)
  · intro b hb
    exact prevp_unlink_of_ne hself (hnext b hb)

theorem ChainFrom.unlink_first (h : l.ChainFrom cell (a :: bs)) (hnodup : bs.Nodup)
    (hself : l.prevp a ≠ .next a) (hcell : ∀ c ∈ bs, cell ≠ .next c) :
    (l.unlink a).ChainFrom cell bs := by
  obtain ⟨-, hprevp, hrest⟩ := h
  cases bs with
  | nil =>
      change (l.unlink a).deref cell = none
      rw [← hprevp, deref_unlink_prevp]
      exact hrest
  | cons b bs =>
      obtain ⟨hnext, -, hrest⟩ := hrest
      have hkeep : ∀ c ∈ b :: bs, .next c ≠ l.prevp a := by
        intro c hc
        rw [hprevp]
        exact Ne.symm (hcell c hc)
      refine ⟨?_, ?_, ?_⟩
      · rw [← hprevp, deref_unlink_prevp]
        exact hnext
      · rw [prevp_unlink_next hself hnext, hprevp]
      · -- behind `b` neither a link nor a back pointer has changed
        apply hrest.unlink_of_ne hself (hkeep b (by simp))
        · exact fun c hc => hkeep c (by simp [hc])
        · intro c hc
          rw [hnext]
          rintro ⟨rfl⟩
          exact (List.nodup_cons.mp hnodup).1 hc

theorem ChainFrom.unlink (h : l.ChainFrom cell (as ++ a :: bs)) (hnodup : (as ++ a :: bs).Nodup)
    (hcell : ∀ c ∈ as ++ a :: bs, cell ≠ .next c) :
    (l.unlink a).ChainFrom cell (as ++ bs) := by
  have hself := h.prevp_ne_self hnodup (hcell a (by simp))
  -- on the elements before `a`: the cell that `a` hangs on is reached last
  induction as generalizing cell with
  | nil =>
      apply h.unlink_first (List.nodup_cons.mp hnodup).2 hself
      intro c hc
      exact hcell c (by simp [hc])
  | cons c as ih =>
      obtain ⟨hhead, hprevp, hrest⟩ := h
      obtain ⟨hc, hnodup⟩ := List.nodup_cons.mp hnodup
      have hkeep : cell ≠ l.prevp a := by
        rcases hrest.prevp_eq with heq | ⟨d, hd, heq⟩
        · rw [heq]
          exact hcell c (by simp)
        · rw [heq]
          exact hcell d (by simp [hd])
      have hbehind : l.deref (.next a) ≠ some c := by
        rw [hrest.next_eq]
        intro hbs
        exact hc (List.mem_append_right _ (List.mem_cons_of_mem _ (List.mem_of_head? hbs)))
      refine ⟨?_, ?_, ?_⟩
      · rw [deref_unlink_of_ne hkeep]
        exact hhead
      · rw [prevp_unlink_of_ne hself hbehind]
        exact hprevp
      · apply ih hrest hnodup
        intro d hd
        rintro ⟨rfl⟩
        exact hc hd

/-- Another bucket shares no cell with the one unlinked from. -/
theorem Represents.unlink_of_ne (h : l.Represents rows) (ha : a ∈ rows i)
    (hself : l.prevp a ≠ .next a) (hij : j ≠ i) :
    (l.unlink a).ChainFrom (.head j) (rows j) := by
  apply (h.chain j).unlink_of_ne hself
  · rcases h.prevp_cases ha with heq | ⟨c, -, heq⟩
    · rw [heq]
      simpa using hij
    · rw [heq]
      simp
  · intro b hb
    rcases h.prevp_cases ha with heq | ⟨c, hc, heq⟩
    · rw [heq]
      simp
    · rw [heq]
      intro hbc
      obtain rfl : b = c := by simpa using hbc
      exact hij (h.disjoint hb hc)
  · intro b hb hnext
    exact hij (h.disjoint hb (h.next_mem ha hnext))

theorem Represents.unlink (h : l.Represents rows) (ha : a ∈ rows i) :
    (l.unlink a).Represents (Function.update rows i ((rows i).erase a)) := by
  obtain ⟨before, after, -, hrow, herase⟩ := List.exists_erase_eq ha
  have hchain := h.chain i
  have hnodup := h.nodup i
  rw [hrow] at hchain hnodup
  have hself := hchain.prevp_ne_self hnodup (by simp)
  have hsub : ∀ {j b}, b ∈ Function.update rows i ((rows i).erase a) j → b ∈ rows j := by
    intro j b hb
    by_cases hij : j = i
    · subst hij
      rw [Function.update_self] at hb
      exact List.mem_of_mem_erase hb
    · rwa [Function.update_of_ne hij] at hb
  constructor
  · intro j
    by_cases hij : j = i
    · subst hij
      rw [Function.update_self, herase]
      exact hchain.unlink hnodup (by simp)
    · rw [Function.update_of_ne hij]
      exact h.unlink_of_ne ha hself hij
  · intro j
    by_cases hij : j = i
    · subst hij
      rw [Function.update_self]
      exact (h.nodup j).erase a
    · rw [Function.update_of_ne hij]
      exact h.nodup j
  · exact fun hj hk => h.disjoint (hsub hj) (hsub hk)

end Links

end LinkedBuckets
