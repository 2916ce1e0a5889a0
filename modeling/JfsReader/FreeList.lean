import Mathlib.Tactic

/-!
# Lists linked through their own elements

A list is given by its head and a `next` link in every element, and ends with
a null link.  Pushing and popping touch the head and one link; everything else
about the list is carried over by the frame rule.
-/

namespace FreeList

variable {α : Type*} {next next' : α → Option α} {head : Option α} {a : α} {as : List α}

/-- From `head` on the links spell `as`, and the last one is null. -/
def Spells (next : α → Option α) : Option α → List α → Prop
  | head, [] => head = none
  | head, a :: as => head = some a ∧ Spells next (next a) as

theorem Spells.frame (h : Spells next head as) (hnext : ∀ a ∈ as, next' a = next a) :
    Spells next' head as := by
  induction as generalizing head with
  | nil => exact h
  | cons a as ih =>
      obtain ⟨hhead, hrest⟩ := h
      refine ⟨hhead, ?_⟩
      rw [hnext a (by simp)]
      exact ih hrest fun b hb => hnext b (by simp [hb])

theorem Spells.push [DecidableEq α] (h : Spells next head as) (hnew : a ∉ as) :
    Spells (Function.update next a head) (some a) (a :: as) := by
  refine ⟨rfl, ?_⟩
  rw [Function.update_self]
  apply h.frame
  intro b hb
  have hne : b ≠ a := fun hba => hnew (hba ▸ hb)
  exact Function.update_of_ne hne _ _

theorem Spells.pop (h : Spells next (some a) as) :
    ∃ rest, as = a :: rest ∧ Spells next (next a) rest := by
  cases as with
  | nil => cases h
  | cons b rest =>
      obtain ⟨hhead, hrest⟩ := h
      obtain rfl : a = b := Option.some.inj hhead
      exact ⟨rest, rfl, hrest⟩

theorem Spells.pop_of_head (h : Spells next head as) (hhead : head = some a) :
    ∃ rest, as = a :: rest ∧ Spells next (next a) rest := by
  subst hhead
  exact h.pop

theorem Spells.unique {bs : List α} (h : Spells next head as) (h' : Spells next head bs) :
    as = bs := by
  induction as generalizing head bs with
  | nil =>
      obtain rfl : head = none := h
      cases bs with
      | nil => rfl
      | cons b bs => cases h'.1
  | cons a as ih =>
      obtain ⟨rfl, hrest⟩ := h
      obtain ⟨bs, rfl, hrest'⟩ := h'.pop
      rw [ih hrest hrest']

theorem Spells.eq_nil_iff (h : Spells next head as) : head = none ↔ as = [] := by
  cases as with
  | nil => simpa [Spells] using h
  | cons b rest =>
      rw [h.1]
      simp

/-- An element linked to itself is on no list. -/
theorem Spells.next_ne_self (h : Spells next (some a) as) : next a ≠ some a := by
  intro hself
  induction as with
  | nil => cases h
  | cons b rest ih =>
      obtain ⟨hhead, hrest⟩ := h
      obtain rfl : a = b := Option.some.inj hhead
      rw [hself] at hrest
      exact ih hrest

end FreeList
