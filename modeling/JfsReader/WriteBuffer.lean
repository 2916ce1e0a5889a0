import Mathlib.Tactic

/-!
# Buffers that remember where they were written

A buffer is the content of every cell together with the list of the indices
written so far, so that a program's output and the extent of its writes can be
read off the same object.  A loop that fills a buffer is described by one list,
the values it writes from a starting index on.
-/

namespace WriteBuffer

structure Buffer (α : Type*) where
  cells : ℕ → α
  written : List ℕ

namespace Buffer

variable {α : Type*}

def fresh (cells : ℕ → α) : Buffer α := ⟨cells, []⟩

def write (b : Buffer α) (i : ℕ) (a : α) : Buffer α :=
  ⟨fun k => if k = i then a else b.cells k, i :: b.written⟩

def writeFrom (b : Buffer α) (i : ℕ) : List α → Buffer α
  | [] => b
  | a :: as => (b.write i a).writeFrom (i + 1) as

def read (b : Buffer α) (i n : ℕ) : List α :=
  (List.range n).map fun k => b.cells (i + k)

variable {b : Buffer α} {i j k n : ℕ} {a : α} {as bs : List α}

@[simp] theorem cells_write_self : (b.write i a).cells i = a := by
  simp [write]

theorem cells_write_of_ne (h : k ≠ i) : (b.write i a).cells k = b.cells k := by
  simp [write, h]

@[simp] theorem writeFrom_nil : b.writeFrom i [] = b := rfl

@[simp] theorem writeFrom_cons :
    b.writeFrom i (a :: as) = (b.write i a).writeFrom (i + 1) as := rfl

theorem writeFrom_append :
    b.writeFrom i (as ++ bs) = (b.writeFrom i as).writeFrom (i + as.length) bs := by
  induction as generalizing b i with
  | nil => simp
  | cons a as ih =>
      rw [List.cons_append, writeFrom_cons, writeFrom_cons, ih, List.length_cons,
        show i + 1 + as.length = i + (as.length + 1) by omega]

theorem cells_writeFrom_of_not_mem (h : k < i ∨ i + as.length ≤ k) :
    (b.writeFrom i as).cells k = b.cells k := by
  induction as generalizing b i with
  | nil => rfl
  | cons a as ih =>
      rw [List.length_cons] at h
      rw [writeFrom_cons, ih (by omega), cells_write_of_ne (by omega)]

theorem cells_writeFrom (h : k < as.length) :
    (b.writeFrom i as).cells (i + k) = as[k] := by
  induction as generalizing b i k with
  | nil => simp at h
  | cons a as ih =>
      rw [writeFrom_cons]
      cases k with
      | zero =>
          rw [cells_writeFrom_of_not_mem (.inl (by omega))]
          simp
      | succ k =>
          rw [show i + (k + 1) = i + 1 + k by omega, ih (by simpa using h)]
          simp

theorem cells_writeFrom_zero (h : k < as.length) : (b.writeFrom 0 as).cells k = as[k] := by
  have hcell := cells_writeFrom (b := b) (i := 0) h
  rwa [Nat.zero_add] at hcell

theorem mem_written_writeFrom :
    k ∈ (b.writeFrom i as).written ↔
      k ∈ b.written ∨ (i ≤ k ∧ k < i + as.length) := by
  induction as generalizing b i with
  | nil =>
      simp only [writeFrom_nil, List.length_nil]
      constructor
      · exact .inl
      · rintro (h | h)
        · exact h
        · omega
  | cons a as ih =>
      rw [writeFrom_cons, ih, List.length_cons]
      simp only [write, List.mem_cons]
      constructor
      · rintro ((rfl | h) | h)
        · right
          omega
        · exact .inl h
        · right
          omega
      · rintro (h | h)
        · exact .inl (.inr h)
        · by_cases hk : k = i
          · exact .inl (.inl hk)
          · right
            omega

theorem written_writeFrom :
    (b.writeFrom i as).written = (List.range' i as.length).reverse ++ b.written := by
  induction as generalizing b i with
  | nil => rfl
  | cons a as ih =>
      rw [writeFrom_cons, ih, List.length_cons, List.range'_succ, List.reverse_cons,
        List.append_assoc]
      rfl

@[simp] theorem length_read : (b.read i n).length = n := by
  simp [read]

@[simp] theorem getElem_read (h : k < (b.read i n).length) :
    (b.read i n)[k] = b.cells (i + k) := by
  simp [read]

theorem read_congr {c : Buffer α} (h : ∀ k, k < n → b.cells (i + k) = c.cells (i + k)) :
    b.read i n = c.read i n := by
  unfold read
  apply List.map_congr_left
  intro k hk
  exact h k (List.mem_range.mp hk)

theorem read_writeFrom (h : as.length = n) : (b.writeFrom i as).read i n = as := by
  apply List.ext_getElem (by simp [h])
  intro k _ hk
  rw [getElem_read, cells_writeFrom hk]

theorem read_writeFrom_of_disjoint (h : j + n ≤ i ∨ i + as.length ≤ j) :
    (b.writeFrom i as).read j n = b.read j n := by
  apply read_congr
  intro k hk
  apply cells_writeFrom_of_not_mem
  omega

theorem read_write_of_not_mem (h : j + n ≤ i ∨ i < j) :
    (b.write i a).read j n = b.read j n :=
  read_congr fun _ _ => cells_write_of_ne (by omega)

end Buffer

end WriteBuffer
