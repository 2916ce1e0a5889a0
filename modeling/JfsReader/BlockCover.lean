import Mathlib.Order.Interval.Set.Basic
import Mathlib.Tactic

/-!
# Covers by whole blocks

Positions are grouped into blocks of `b`.  The run of blocks from the first
position of a range to its last is the least one that covers the range.
-/

namespace BlockCover

variable {b i j lo hi n : ℕ}

def roundDown (b n : ℕ) : ℕ := n / b * b

def roundUp (b n : ℕ) : ℕ := (n + b - 1) / b * b

/-- The runs of whole blocks that cover the set. -/
def covers (b : ℕ) (s : Set ℕ) : Set (Set ℕ) :=
  {t | s ⊆ t ∧ ∃ i j, t = Set.Ico (i * b) (j * b)}

theorem roundDown_le (b n : ℕ) : roundDown b n ≤ n := Nat.div_mul_le_self n b

theorem roundDown_eq (b n : ℕ) : roundDown b n = n - n % b := by
  have hsum := Nat.div_add_mod' n b
  unfold roundDown
  omega

theorem le_roundDown (hb : 0 < b) (h : i * b ≤ n) : i * b ≤ roundDown b n :=
  Nat.mul_le_mul_right b ((Nat.le_div_iff_mul_le hb).mpr h)

theorem le_roundUp (hb : 0 < b) (n : ℕ) : n ≤ roundUp b n := by
  have hsum := Nat.div_add_mod' (n + b - 1) b
  have hlt := Nat.mod_lt (n + b - 1) hb
  unfold roundUp
  omega

theorem roundUp_le (hb : 0 < b) (h : n ≤ j * b) : roundUp b n ≤ j * b := by
  apply Nat.mul_le_mul_right
  apply Nat.le_of_lt_succ
  rw [Nat.div_lt_iff_lt_mul hb, Nat.succ_mul]
  omega

theorem roundDown_add_roundUp (hb : 0 < b) (n k : ℕ) :
    roundDown b n + roundUp b (n % b + k) = roundUp b (n + k) := by
  have hsum := Nat.div_add_mod' n b
  unfold roundDown roundUp
  rw [← Nat.add_mul, show n + k + b - 1 = (n % b + k + b - 1) + n / b * b by omega,
    Nat.add_mul_div_right _ _ hb, Nat.add_comm]

theorem isLeast_covers (hb : 0 < b) (hlt : lo < hi) :
    IsLeast (covers b (Set.Ico lo hi)) (Set.Ico (roundDown b lo) (roundUp b hi)) := by
  constructor
  · exact ⟨Set.Ico_subset_Ico (roundDown_le b lo) (le_roundUp hb hi), _, _, rfl⟩
  · rintro t ⟨hcovers, i, j, rfl⟩
    have hfirst : lo ∈ Set.Ico (i * b) (j * b) := hcovers ⟨le_rfl, hlt⟩
    have hlast : hi - 1 ∈ Set.Ico (i * b) (j * b) := hcovers ⟨by omega, by omega⟩
    have hend : hi ≤ j * b := by
      have := hlast.2
      omega
    exact Set.Ico_subset_Ico (le_roundDown hb hfirst.1) (roundUp_le hb hend)

/-- A range within a whole number of blocks is covered within it. -/
theorem roundUp_le_of_dvd (hb : 0 < b) (hdvd : b ∣ n) (hle : hi ≤ n) : roundUp b hi ≤ n := by
  obtain ⟨j, rfl⟩ := hdvd
  rw [Nat.mul_comm] at hle ⊢
  exact roundUp_le hb hle

end BlockCover
