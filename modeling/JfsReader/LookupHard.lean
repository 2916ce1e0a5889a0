import JfsReader.DirectoryScan
import JfsReader.NodeCache

/-!
# `dirscan` and `diskfs_lookup_hard`

The lookup as libdiskfs calls it.  The node table and the locks are behind the
operations of `LookupOps`, so that a statement for all such operations says
which of them are not reached.
-/

namespace JfsReader

/-- `enum lookup_type`, with `SPEC_DOTDOT` or'ed in or not. -/
inductive LookupKind
  | lookup
  | create
  | remove
  | rename
deriving DecidableEq

structure LookupType where
  kind : LookupKind
  specDotdot : Bool
deriving DecidableEq

/-- `SPEC_DOTDOT` is `0x10000000`. -/
def LookupType.andSpecDotdot (type : LookupType) : ℕ :=
  if type.specDotdot then 0x10000000 else 0

structure LookupOps (S : Type) where
  cachedLookup : ℕ → S → ErrorT × Option NodeId × S
  nref : NodeId → S → S
  nput : NodeId → S → S
  lock : NodeId → S → S
  unlock : NodeId → S → S

/-- The return value, `*npp` unless `npp` is null, and the state; or an abort. -/
inductive LookupHardEnd (S : Type)
  | returned (err : ErrorT) (npp : Option (Option NodeId)) (s : S)
  | faulted

def dirscan (m : Mount) (fuel dinum : ℕ) (name : List UInt8) (namelen gotinum : ℕ) :
    Option (ErrorT × ℕ) :=
  match directory m fuel dinum name namelen gotinum with
  | none => none
  | some gotinum =>
      -- `strncmp (name, ".", 1)` looks at the first character only
      if name.getD 0 0 = 46 then some (.success, gotinum)
      else if gotinum = noInum then some (.enoent, gotinum)
      else some (.success, gotinum)

section LookupHard

variable {S : Type}

def callCachedLookup (ops : LookupOps S) (gotinum : ℕ) (npp : Option (Option NodeId))
    (s : S) (k : ErrorT → S → ErrorT × S) : LookupHardEnd S :=
  match npp with
  | none => .faulted
  | some _ =>
      let out := ops.cachedLookup gotinum s
      let next := k out.1 out.2.2
      .returned next.1 (some out.2.1) next.2

def loadInode (ops : LookupOps S) (rootNode dp : NodeId) (name : List UInt8)
    (type : LookupType) (gotinum : ℕ) (npp : Option (Option NodeId)) (s : S) :
    LookupHardEnd S :=
  -- both are stored in a `uint8_t`
  let namelen := name.length % 2 ^ 8
  let specDotdot := type.andSpecDotdot % 2 ^ 8
  if namelen = 2 ∧ name.getD 0 0 = 46 ∧ name.getD 1 0 = 46 then
    if dp = rootNode then .returned .eagain npp s
    else if specDotdot ≠ 0 then
      if type.kind = .lookup then
        callCachedLookup ops gotinum npp (ops.nput dp s) fun _ s => (.success, s)
      else .faulted
    else
      callCachedLookup ops gotinum npp (ops.unlock dp s) fun _ s => (.success, ops.lock dp s)
  else if namelen = 1 ∧ name.getD 0 0 = 46 then
    match npp with
    | none => .faulted
    | some _ => .returned .success (some (some dp)) (ops.nref dp s)
  else callCachedLookup ops gotinum npp s fun err s => (err, s)

/-- `gotinum` is the content of the local variable before the call of
`dirscan`. -/
def diskfsLookupHard (ops : LookupOps S) (m : Mount) (fuel : ℕ) (rootNode dp : NodeId)
    (cacheId : ℕ) (name : List UInt8) (type : LookupType) (npp : Option (Option NodeId))
    (gotinum : ℕ) (s : S) : Option (LookupHardEnd S) :=
  if type = ⟨.remove, false⟩ ∨ type = ⟨.rename, false⟩ then
    if npp.isNone then some .faulted else some (.returned .erofs npp s)
  else
    let npp := npp.map fun _ => none
    if type.kind = .rename then some (.returned .erofs npp s)
    else
      match dirscan m fuel cacheId name name.length gotinum with
      | none => none
      | some (.success, gotinum) => some (loadInode ops rootNode dp name type gotinum npp s)
      | some (err, _) => some (.returned err npp s)

end LookupHard

variable {m : Mount} {inum : ℕ} {entries : List DirEntry} {name : List UInt8} {gotinum : ℕ}

/-- When a name is taken for none of the entries, and the walk over them
leaves its mark. -/
def NotAnswered (entries : List DirEntry) (name : List UInt8) (gotinum : ℕ) : Prop :=
  (∀ e ∈ entries, ¬ ((∀ b ∈ name, b < 128) ∧ name <+: e.listed)) ∧
    (entries = [] → gotinum = noInum)

theorem lookupResult_eq_noInum_iff (hname : ∀ b ∈ name, b ≠ 0)
    (hinum : ∀ e ∈ entries, e.inumber ≠ noInum) :
    lookupResult entries name gotinum = noInum ↔ NotAnswered entries name gotinum := by
  unfold lookupResult NotAnswered
  cases hfind : entries.find? (·.answers name) with
  | some e =>
      have hmem := List.mem_of_find?_eq_some hfind
      have hanswers : e.answers name = true := by simpa using List.find?_some hfind
      constructor
      · exact fun heq => absurd heq (hinum e hmem)
      · exact fun hnone => absurd ((answers_iff hname).mp hanswers) (hnone.1 e hmem)
  | none =>
      have hnone : ∀ e ∈ entries, ¬ ((∀ b ∈ name, b < 128) ∧ name <+: e.listed) := by
        intro e he hmatch
        exact List.find?_eq_none.mp hfind e he ((answers_iff hname).mpr hmatch)
      by_cases hempty : entries = []
      · simp [hempty]
      · rw [if_neg hempty]
        exact ⟨fun _ => ⟨hnone, fun h => absurd h hempty⟩, fun _ => rfl⟩

theorem IsDirectory.dirscan (h : IsDirectory m inum entries) (hmem : m.HasMemory) :
    ∃ n, ∀ fuel, n ≤ fuel → ∀ name gotinum,
      JfsReader.dirscan m fuel inum name name.length gotinum =
        some (if name.getD 0 0 ≠ 46 ∧ lookupResult entries name gotinum = noInum then .enoent
          else .success, lookupResult entries name gotinum) := by
  obtain ⟨n, hn⟩ := h.directory hmem
  refine ⟨n, fun fuel hfuel name gotinum => ?_⟩
  unfold JfsReader.dirscan
  rw [hn fuel hfuel]
  by_cases hdot : name.getD 0 0 = 46
  · simp only [hdot, if_true, ne_eq, not_true_eq_false, false_and, if_false]
  · by_cases hnone : lookupResult entries name gotinum = noInum
    · simp only [hdot, hnone, if_true, if_false, ne_eq, not_false_eq_true, and_self]
    · simp only [hdot, hnone, if_false, and_false]

/-- What a failed lookup ought to show: `dirscan` refuses the name, and
`diskfs_lookup_hard` passes that on without touching the state, whatever the
operations on it do. -/
def FailureReported (m : Mount) (fuel inum : ℕ) (name : List UInt8) (gotinum : ℕ) : Prop :=
  (∃ g, dirscan m fuel inum name name.length gotinum = some (.enoent, g)) ∧
    ∀ (S : Type) (ops : LookupOps S) (rootNode dp : NodeId) (type : LookupType)
      (npp : Option (Option NodeId)) (s : S), type.kind = .lookup ∨ type.kind = .create →
      diskfsLookupHard ops m fuel rootNode dp inum name type npp gotinum s =
        some (.returned .enoent (npp.map fun _ => none) s)

theorem failureReported_of_dirscan {fuel g : ℕ}
    (hscan : dirscan m fuel inum name name.length gotinum = some (.enoent, g)) :
    FailureReported m fuel inum name gotinum := by
  refine ⟨⟨g, hscan⟩, ?_⟩
  intro S ops rootNode dp type npp s hkind
  have hnotRemove : ¬ (type = ⟨.remove, false⟩ ∨ type = ⟨.rename, false⟩) := by
    rintro (rfl | rfl) <;> simp at hkind
  have hnotRename : type.kind ≠ .rename := by
    intro hrename
    simp [hrename] at hkind
  unfold diskfsLookupHard
  simp only [hnotRemove, hnotRename, if_false, hscan]

/-- A failed lookup is reported exactly when the name does not begin with a
dot, no converted name begins with it, and the walk over the entries had one
to leave its mark on. -/
theorem failureReported_iff (hmem : m.HasMemory) (h : IsDirectory m inum entries) :
    ∃ n, ∀ fuel, n ≤ fuel → ∀ name : List UInt8, (∀ b ∈ name, b ≠ 0) → ∀ gotinum,
      (FailureReported m fuel inum name gotinum ↔
        name.getD 0 0 ≠ 46 ∧ NotAnswered entries name gotinum) := by
  obtain ⟨n, hn⟩ := h.dirscan hmem
  have hinum : ∀ e ∈ entries, e.inumber ≠ noInum := by
    intro e he
    exact (h.storable he).inumber_ne
  refine ⟨n, ?_⟩
  intro fuel hfuel name hname gotinum
  have hscan := hn fuel hfuel name gotinum
  rw [← lookupResult_eq_noInum_iff hname hinum]
  constructor
  · rintro ⟨⟨g, henoent⟩, -⟩
    rw [henoent] at hscan
    by_contra hnot
    rw [if_neg hnot] at hscan
    simp at hscan
  · intro hcond
    rw [if_pos hcond] at hscan
    exact failureReported_of_dirscan hscan

theorem failureReported_twoLeaf :
    IsDirectory twoLeafMount 2 twoLeafEntries.flatten ∧
      ∃ n, ∀ fuel, n ≤ fuel → FailureReported twoLeafMount fuel 2 [120] 0 := by
  obtain ⟨n, hn⟩ := failureReported_iff (fun _ => rfl) twoLeafMount_isDirectory
  refine ⟨twoLeafMount_isDirectory, n, fun fuel hfuel => ?_⟩
  have hnone : ∀ e ∈ twoLeafEntries.flatten, ¬ [120] <+: e.listed := by decide
  exact (hn fuel hfuel [120] (by simp) 0).mpr
    ⟨by decide, fun e he hmatch => hnone e he hmatch.2, by decide⟩

theorem dotted_name_not_reported :
    IsDirectory twoLeafMount 2 twoLeafEntries.flatten ∧
      (∀ e ∈ twoLeafEntries.flatten, ¬ [46, 120] <+: e.units.flatMap utf8Encode) ∧
      ∃ n, ∀ fuel, n ≤ fuel → ∀ gotinum,
        dirscan twoLeafMount fuel 2 [46, 120] 2 gotinum = some (.success, noInum) ∧
        ∀ (S : Type) (ops : LookupOps S) (rootNode dp : NodeId) (s : S),
          diskfsLookupHard ops twoLeafMount fuel rootNode dp 2 [46, 120] ⟨.lookup, false⟩
              (some none) gotinum s =
            some (.returned (ops.cachedLookup noInum s).1
              (some (ops.cachedLookup noInum s).2.1) (ops.cachedLookup noInum s).2.2) := by
  obtain ⟨n, hn⟩ := twoLeafMount_isDirectory.dirscan fun _ => rfl
  refine ⟨twoLeafMount_isDirectory, by decide, n, fun fuel hfuel gotinum => ?_⟩
  have hscan : dirscan twoLeafMount fuel 2 [46, 120] 2 gotinum = some (.success, noInum) :=
    hn fuel hfuel [46, 120] gotinum
  refine ⟨hscan, fun S ops rootNode dp s => ?_⟩
  unfold diskfsLookupHard
  have hlen : ([46, 120] : List UInt8).length = 2 := rfl
  rw [hlen, hscan]
  rfl

end JfsReader
