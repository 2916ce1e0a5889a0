import JfsReader.LookupSuccess

/-!
# The search of one page

The loop over `base` and `lim` in `xt_Lookup`, and its copy in `find_iag`.  It
ends and stays among the entries of the page in any order of theirs; where their
ranges increase it stops at the entry that holds the key, or behind the last
one that does not begin after it.
-/

namespace JfsReader

open StepMachine HalvingSearch

/-- The loop is left for the entry it has found, or at its end. -/
def LoopStops (p : XtPage) (k : ℤ) (q : State) : Prop :=
  q.lim = 0 ∨ (q.lim ≠ 0 ∧ xtCmp k (p.xad q.probe) = 0)

/-- The indices that stand behind the key: of an entry with a greater offset, or
the one behind all entries. -/
def XtPage.indicesBehind (p : XtPage) (k : ℤ) : Set ℤ :=
  {i | xtEntryStart ≤ i ∧ (i = p.nextindex ∨ (i < p.nextindex ∧ k < offsetXAD (p.xad i)))}

/-- Where the loop stops on a page in order. -/
structure StopsRight (p : XtPage) (k : ℤ) (q : State) : Prop where
  hit : ∀ i, xtEntryStart ≤ i → i < p.nextindex → (p.xad i).Covers k →
    q.lim ≠ 0 ∧ q.probe = i
  miss : (∀ i, xtEntryStart ≤ i → i < p.nextindex → ¬ (p.xad i).Covers k) →
    q.lim = 0 ∧ IsLeast (p.indicesBehind k) q.base

def ProbesInside (p : XtPage) (q : State) : Prop :=
  q.lim ≠ 0 → xtEntryStart ≤ q.probe ∧ q.probe < p.nextindex

/-- The loop over the page `p`, in a machine whose states `at q` are those inside
the loop. -/
def PageLoop {τ κ : Type} (outer : τ → τ ⊕ κ) (loopAt : State → τ) (p : XtPage) (k : ℤ)
    (start : State) : Prop :=
  ∃ n last, run outer n (loopAt start) = .inl (loopAt last) ∧ LoopStops p k last ∧
    (p.Sorted xtPageMaxSlot → StopsRight p k last) ∧
    ∀ j, j ≤ n → ∃ q, run outer j (loopAt start) = .inl (loopAt q) ∧ ProbesInside p q

variable {p : XtPage} {k : ℤ} {q : State}

/-- All entries before `base` lie before the key, and those from `base + lim` on
behind it. -/
structure Brackets (p : XtPage) (k : ℤ) (q : State) : Prop
    extends q.Within xtEntryStart p.nextindex where
  before : ∀ i, xtEntryStart ≤ i → i < q.base → 0 < xtCmp k (p.xad i)
  behind : ∀ i, q.base + q.lim ≤ i → i < p.nextindex → xtCmp k (p.xad i) < 0

theorem Brackets.start (hcount : xtEntryStart ≤ p.nextindex) (k cmp : ℤ) :
    Brackets p k ⟨xtEntryStart, p.nextindex - xtEntryStart, cmp⟩ := by
  refine ⟨.start hcount cmp, ?_, ?_⟩
  · intro i hlo hhi
    dsimp only at hhi
    omega
  · intro i hlo hhi
    dsimp only at hlo
    omega

theorem Brackets.step (h : Brackets p k q)
    (hordered : Ordered (fun i => xtCmp k (p.xad i)) xtEntryStart p.nextindex) {next : State}
    (hstep : HalvingSearch.step (fun i => xtCmp k (p.xad i)) q = .inl next) :
    Brackets p k next := by
  have hinv : q.Invariant (fun i => xtCmp k (p.xad i)) xtEntryStart p.nextindex :=
    ⟨h.toWithin, h.before, h.behind, .inr (step_inl hstep).1⟩
  have hnext := step_invariant hordered hinv hstep
  exact ⟨hnext.toWithin, hnext.left_of_base, hnext.right_of_end⟩

theorem Brackets.isLeast (h : Brackets p k q) (hend : q.lim = 0) :
    IsLeast (p.indicesBehind k) q.base := by
  have hle := h.end_le
  constructor
  · refine ⟨h.base_ge, ?_⟩
    rcases Int.lt_or_eq_of_le (show q.base ≤ p.nextindex by omega) with hlt | heq
    · exact .inr ⟨hlt, (xtCmp_neg_iff k _).mp (h.behind q.base (by omega) hlt)⟩
    · exact .inl heq
  · rintro i ⟨hlo, rfl | ⟨-, hbehind⟩⟩
    · omega
    · by_contra hlt
      have hpos := (xtCmp_pos_iff k _).mp (h.before i hlo (by omega))
      omega

theorem Brackets.stopsRight (h : Brackets p k q) (hstops : LoopStops p k q)
    (hsorted : p.Sorted xtPageMaxSlot) : StopsRight p k q := by
  constructor
  · intro i hlo hhi hcovers
    have hzero := (xtCmp_eq_zero_iff k (p.xad i)).mpr hcovers
    rcases hstops with hend | ⟨hlim, hprobe⟩
    · rcases lt_or_ge i q.base with hlt | hge
      · exact absurd hzero (h.before i hlo hlt).ne'
      · exact absurd hzero (h.behind i (by omega) hhi).ne
    · obtain ⟨hplo, hphi⟩ := h.toWithin.probe_mem hlim
      exact ⟨hlim, hsorted.covers_unique hplo hphi hlo hhi
        ((xtCmp_eq_zero_iff k _).mp hprobe) hcovers⟩
  · intro hnone
    have hend : q.lim = 0 := by
      rcases hstops with hend | ⟨hlim, hprobe⟩
      · exact hend
      · obtain ⟨hplo, hphi⟩ := h.toWithin.probe_mem hlim
        exact absurd ((xtCmp_eq_zero_iff k _).mp hprobe) (hnone q.probe hplo hphi)
    exact ⟨hend, h.isLeast hend⟩

/-- A machine that takes the rounds of the search runs the loop. -/
theorem pageLoop_of_embed {τ κ : Type} {outer : τ → τ ⊕ κ} {loopAt : State → τ}
    (hembed : ∀ q q', HalvingSearch.step (fun i => xtCmp k (p.xad i)) q = .inl q' →
      outer (loopAt q) = .inl (loopAt q'))
    (hcount : xtEntryStart ≤ p.nextindex) (cmp : ℤ) :
    PageLoop outer loopAt p k ⟨xtEntryStart, p.nextindex - xtEntryStart, cmp⟩ := by
  have hstart := Brackets.start hcount k cmp
  have hreturns := returns_outcome (fun i => xtCmp k (p.xad i)) hstart.lim_nonneg
  generalize (⟨xtEntryStart, p.nextindex - xtEntryStart, cmp⟩ : State) = start at hstart hreturns ⊢
  obtain ⟨rounds, hrun⟩ := hreturns
  obtain ⟨n, last, hreach, hlast⟩ := exists_last_step hrun
  have hstops : LoopStops p k last := by
    rcases step_inr hlast with ⟨hend, -⟩ | ⟨hlim, hzero, -⟩
    · exact .inl hend
    · exact .inr ⟨hlim, hzero⟩
  refine ⟨n, last, run_embed loopAt hembed hreach, hstops, ?_, ?_⟩
  · intro hsorted
    have hlastBrackets : Brackets p k last :=
      run_invariant (fun _ _ h hstep => h.step (hsorted.ordered k) hstep) hstart hreach
    exact hlastBrackets.stopsRight hstops hsorted
  · intro j hj
    obtain ⟨q, hq⟩ := exists_run_inl_of_le hreach hj
    have hwithin : q.Within xtEntryStart p.nextindex :=
      run_invariant (fun _ _ h hstep => (step_within h hstep).1) hstart.toWithin hq
    exact ⟨q, run_embed loopAt hembed hq, fun hlim => hwithin.probe_mem hlim⟩

/-- Both searches of a page, from the header of the loop on. -/
theorem page_search_correct (m : Mount) :
    (∀ (read : ℕ → ℕ → Bytes → Option Bytes) (call : XtCall) (ptr : PagePtr) (bp : Option ℕ)
      (cmp : ℤ) (pool : BufPool) (p : XtPage) (s : XtState),
      s = xtSearchPage call ptr bp cmp pool → s.page call = p → p.Counted xtPageMaxSlot →
        PageLoop (xtStep m read call) s.withSearch p call.xoff ⟨s.base, s.lim, s.cmp⟩) ∧
    ∀ (call : IagCall) (ptr : IagPtr) (buffer : Bytes) (p : XtPage) (s : IagState),
      s = iagSearchPage call ptr buffer → s.current call = p → p.Counted xtPageMaxSlot →
        PageLoop (iagStep m call) s.withSearch p call.iagblock ⟨s.base, s.lim, 1⟩ := by
  constructor
  · rintro read call ptr bp cmp pool p s rfl rfl hcount
    refine pageLoop_of_embed ?_ hcount.1 cmp
    intro q q' hstep
    rw [xtStep_withSearch, hstep]
  · rintro call ptr buffer p s rfl rfl hcount
    have hstart : xtEntryStart = 2 := rfl
    have hge := hcount.1
    have hlim : (iagSearchPage call ptr buffer).lim =
        ((iagSearchPage call ptr buffer).current call).nextindex - xtEntryStart := by
      rw [← XtPage.nextindexLe16_eq (by omega)]
      rfl
    rw [hlim]
    refine pageLoop_of_embed ?_ hcount.1 1
    intro q q' hstep
    rw [iagStep_withSearch, hstep]

/-! A page that maps the blocks 0-1, 5-7, 10 and 20-23. -/

def fourEntryPage : XtPage :=
  ⟨Bytes.sparse [(16, 2), (18, 6), (40, 2), (52, 5), (56, 3), (68, 10), (72, 1),
    (84, 20), (88, 4)]⟩

theorem fourEntryPage_entries {i : ℤ} (hlo : xtEntryStart ≤ i)
    (hhi : i < fourEntryPage.nextindex) :
    (i = 2 ∧ offsetXAD (fourEntryPage.xad i) = 0 ∧ lengthXAD (fourEntryPage.xad i) = 2) ∨
      (i = 3 ∧ offsetXAD (fourEntryPage.xad i) = 5 ∧ lengthXAD (fourEntryPage.xad i) = 3) ∨
      (i = 4 ∧ offsetXAD (fourEntryPage.xad i) = 10 ∧ lengthXAD (fourEntryPage.xad i) = 1) ∨
      (i = 5 ∧ offsetXAD (fourEntryPage.xad i) = 20 ∧ lengthXAD (fourEntryPage.xad i) = 4) := by
  have hstart : xtEntryStart = 2 := rfl
  have hnext : fourEntryPage.nextindex = 6 := by decide
  obtain rfl | rfl | rfl | rfl : i = 2 ∨ i = 3 ∨ i = 4 ∨ i = 5 := by omega
  · decide
  · decide
  · decide
  · decide

theorem fourEntryPage_sorted : fourEntryPage.Sorted xtPageMaxSlot := by
  refine ⟨by decide, by decide, ?_⟩
  intro i j hlo hij hhi
  have hi := fourEntryPage_entries hlo (by omega)
  have hj := fourEntryPage_entries (by omega) hhi
  omega

theorem fourEntryPage_behind {k i : ℤ} (hi : i = 4 ∧ k = 9 ∨ i = 5 ∧ k = 12) :
    IsLeast (fourEntryPage.indicesBehind k) i := by
  have hstart : xtEntryStart = 2 := rfl
  have hnext : fourEntryPage.nextindex = 6 := by decide
  constructor
  · have hentry := @fourEntryPage_entries i (by omega) (by omega)
    exact ⟨by omega, .inr ⟨by omega, by omega⟩⟩
  · rintro j ⟨hlo, rfl | ⟨hhi, hbehind⟩⟩
    · omega
    · have hentry := fourEntryPage_entries hlo hhi
      omega

/-- Either loop, for a key that an entry holds and for one between two entries. -/
theorem page_search_correct_fourEntries :
    (∃ n last, run (xtStep twoLevelMount (fun _ _ _ => none) ⟨fourEntryPage, 6, 0, 100⟩) n
        (xtStart ⟨fourEntryPage, 6, 0, 100⟩ emptyPool) =
          .inl ((xtStart ⟨fourEntryPage, 6, 0, 100⟩ emptyPool).withSearch last) ∧
      last.lim ≠ 0 ∧ last.probe = 3) ∧
    (∃ n last, run (xtStep twoLevelMount (fun _ _ _ => none) ⟨fourEntryPage, 12, 0, 100⟩) n
        (xtStart ⟨fourEntryPage, 12, 0, 100⟩ emptyPool) =
          .inl ((xtStart ⟨fourEntryPage, 12, 0, 100⟩ emptyPool).withSearch last) ∧
      last.lim = 0 ∧ last.base = 5) ∧
    (∃ n last, run (iagStep twoLevelMount ⟨fourEntryPage, 21⟩) n
        (iagStart twoLevelMount ⟨fourEntryPage, 21⟩) =
          .inl ((iagStart twoLevelMount ⟨fourEntryPage, 21⟩).withSearch last) ∧
      last.lim ≠ 0 ∧ last.probe = 5) ∧
    ∃ n last, run (iagStep twoLevelMount ⟨fourEntryPage, 9⟩) n
        (iagStart twoLevelMount ⟨fourEntryPage, 9⟩) =
          .inl ((iagStart twoLevelMount ⟨fourEntryPage, 9⟩).withSearch last) ∧
      last.lim = 0 ∧ last.base = 4 := by
  have hcounted : fourEntryPage.Counted xtPageMaxSlot := ⟨by decide, by decide⟩
  have hnone : ∀ k : ℤ, k = 9 ∨ k = 12 → ∀ i, xtEntryStart ≤ i → i < fourEntryPage.nextindex →
      ¬ (fourEntryPage.xad i).Covers k := by
    rintro k hk i hlo hhi ⟨hge, hlt⟩
    have hentry := fourEntryPage_entries hlo hhi
    omega
  refine ⟨?_, ?_, ?_, ?_⟩
  · obtain ⟨n, last, hrun, -, hright, -⟩ := (page_search_correct twoLevelMount).1
      (fun _ _ _ => none) ⟨fourEntryPage, 6, 0, 100⟩ .root none 1 emptyPool _ _ rfl rfl hcounted
    exact ⟨n, last, hrun, (hright fourEntryPage_sorted).hit 3 (by decide) (by decide)
      ⟨by decide, by decide⟩⟩
  · obtain ⟨n, last, hrun, -, hright, -⟩ := (page_search_correct twoLevelMount).1
      (fun _ _ _ => none) ⟨fourEntryPage, 12, 0, 100⟩ .root none 1 emptyPool _ _ rfl rfl hcounted
    obtain ⟨hlim, hbase⟩ := (hright fourEntryPage_sorted).miss (hnone 12 (.inr rfl))
    exact ⟨n, last, hrun, hlim, hbase.unique (fourEntryPage_behind (.inr ⟨rfl, rfl⟩))⟩
  · obtain ⟨n, last, hrun, -, hright, -⟩ := (page_search_correct twoLevelMount).2
      ⟨fourEntryPage, 21⟩ .root (twoLevelMount.stack .buffer) _ _ rfl rfl hcounted
    exact ⟨n, last, hrun, (hright fourEntryPage_sorted).hit 5 (by decide) (by decide)
      ⟨by decide, by decide⟩⟩
  · obtain ⟨n, last, hrun, -, hright, -⟩ := (page_search_correct twoLevelMount).2
      ⟨fourEntryPage, 9⟩ .root (twoLevelMount.stack .buffer) _ _ rfl rfl hcounted
    obtain ⟨hlim, hbase⟩ := (hright fourEntryPage_sorted).miss (hnone 9 (.inl rfl))
    exact ⟨n, last, hrun, hlim, hbase.unique (fourEntryPage_behind (.inl ⟨rfl, rfl⟩))⟩

end JfsReader
