import JfsReader.DirectoryPaging

/-!
# `directory`

The lookup by name walks over the entries like the listing does and takes the
first one whose converted name begins with the name wanted.  On a directory
sorted by name that is the entry itself whenever there is one; on a name that
is no entry but begins one, it is the wrong entry.
-/

namespace JfsReader

open StepMachine WriteBuffer

/-- The body of the loop over the entries; the loop's variable is
`*gotinum`. -/
def directoryVisit (m : Mount) (fuel : ℕ) (name : List UInt8) (namelen : ℕ)
    (slot : Bytes) (headIndex gotinum : ℕ) : Option (ℕ ⊕ ℕ) :=
  match printDirentry m fuel slot headIndex name namelen gotinum with
  | none => none
  | some (rc, gotinum) => if rc = 0 then some (.inr gotinum) else some (.inl gotinum)

/-- `*gotinum` at the end. -/
def directory (m : Mount) (fuel inum : ℕ) (name : List UInt8) (namelen gotinum : ℕ) :
    Option ℕ :=
  match walkDirectory m fuel inum (directoryVisit m fuel name namelen) gotinum with
  | none => none
  | some (.inl gotinum) => some gotinum
  | some (.inr gotinum) => some gotinum

def DirEntry.answers (e : DirEntry) (name : List UInt8) : Bool :=
  namesMatch e.converted.cells name name.length

def directoryAct (name : List UInt8) (e : DirEntry) (_ : ℕ) : Option (ℕ ⊕ ℕ) :=
  if e.answers name then some (.inr e.inumber) else some (.inl noInum)

def lookupResult (entries : List DirEntry) (name : List UInt8) (gotinum : ℕ) : ℕ :=
  match entries.find? (·.answers name) with
  | some e => e.inumber
  | none => if entries = [] then gotinum else noInum

variable {m : Mount} {fuel inum : ℕ} {entries : List DirEntry} {name : List UInt8}
  {e : DirEntry}

/-! ## The comparison -/

theorem charToInt_eq_iff (c b : UInt8) : (b.toNat : ℤ) = charToInt c ↔ c < 128 ∧ b = c := by
  have hc := c.toNat_lt
  have hlt : c < 128 ↔ c.toNat < 128 := Iff.rfl
  rw [hlt, ← UInt8.toNat_inj]
  unfold charToInt
  split_ifs <;> omega

theorem answers_eq_true_iff :
    e.answers name = true ↔
      ∀ i (hi : i < name.length), name[i] < 128 ∧ e.converted.cells i = name[i] := by
  unfold DirEntry.answers namesMatch
  simp only [List.all_eq_true, List.mem_range, decide_eq_true_eq]
  constructor
  · intro h i hi
    have hchar := h i hi
    rwa [List.getD_eq_getElem?_getD, List.getElem?_eq_getElem hi, Option.getD_some,
      charToInt_eq_iff] at hchar
  · intro h i hi
    rw [List.getD_eq_getElem?_getD, List.getElem?_eq_getElem hi, Option.getD_some,
      charToInt_eq_iff]
    exact h i hi

theorem answers_iff (hname : ∀ b ∈ name, b ≠ 0) :
    e.answers name = true ↔ (∀ b ∈ name, b < 128) ∧ name <+: e.listed := by
  rw [answers_eq_true_iff]
  constructor
  · intro h
    have hlt : ∀ i (hi : i < name.length), i < e.listed.length := by
      intro i hi
      by_contra hge
      have hcell := (h i hi).2
      rw [DirEntry.converted_of_ge (by omega)] at hcell
      exact hname _ (List.getElem_mem hi) hcell.symm
    constructor
    · intro b hb
      obtain ⟨i, hi, rfl⟩ := List.getElem_of_mem hb
      exact (h i hi).1
    · rw [List.prefix_iff_getElem]
      have hlen : name.length ≤ e.listed.length := by
        by_contra hgt
        have := hlt e.listed.length (by omega)
        omega
      refine ⟨hlen, fun i hi => ?_⟩
      rw [← (h i hi).2, DirEntry.converted_of_lt (hlt i hi)]
  · rintro ⟨hascii, hprefix⟩ i hi
    obtain ⟨hlen, hchars⟩ := List.prefix_iff_getElem.mp hprefix
    refine ⟨hascii _ (List.getElem_mem hi), ?_⟩
    rw [DirEntry.converted_of_lt (by omega), hchars i hi]

/-! ## The walk -/

theorem directoryVisit_acts (hmem : m.HasMemory) (hfuel : dtPageMaxSlot < fuel) :
    VisitActs (directoryVisit m fuel name name.length) (directoryAct name) := by
  intro slot count headIndex e gotinum hcount hentry
  unfold directoryVisit directoryAct DirEntry.answers
  rw [hentry.printDirentry hmem (by omega)]
  by_cases hmatch : namesMatch e.converted.cells name name.length = true
  · simp [hmatch]
  · simp [hmatch]

theorem scan_directoryAct (gotinum : ℕ) :
    scan (directoryAct name) entries gotinum =
      match entries.find? (·.answers name) with
      | some e => some (.inr e.inumber)
      | none => some (.inl (if entries = [] then gotinum else noInum)) := by
  induction entries generalizing gotinum with
  | nil => rfl
  | cons e entries ih =>
      rw [scan, List.find?_cons]
      cases hmatch : e.answers name with
      | true => simp [directoryAct, hmatch]
      | false =>
          simp only [directoryAct, hmatch, Bool.false_eq_true, if_false]
          rw [show scan (directoryAct name) entries noInum = _ from ih noInum]
          cases entries.find? (·.answers name) <;> simp

theorem IsDirectory.directory (h : IsDirectory m inum entries) (hmem : m.HasMemory) :
    ∃ n, ∀ fuel, n ≤ fuel → ∀ name gotinum,
      JfsReader.directory m fuel inum name name.length gotinum =
        some (lookupResult entries name gotinum) := by
  obtain ⟨n, hn, hwalk⟩ := h.walk
  refine ⟨n, ?_⟩
  intro fuel hfuel name gotinum
  have hlist : walkDirectory m fuel inum (directoryVisit m fuel name name.length) gotinum =
      scan (directoryAct name) entries gotinum :=
    hwalk fuel hfuel (directoryVisit_acts hmem (Nat.lt_of_lt_of_le hn hfuel)) gotinum
  rw [scan_directoryAct] at hlist
  unfold JfsReader.directory lookupResult
  rw [hlist]
  cases entries.find? (·.answers name) <;> rfl

/-! ## ASCII directories -/

def AsciiNames (entries : List DirEntry) : Prop :=
  ∀ e ∈ entries, ∀ u ∈ e.units, u ≤ 0x7f

def DirEntry.asciiName (e : DirEntry) : List UInt8 := e.units.map UInt16.toUInt8

/-- Strictly sorted by name, a proper prefix before the longer name. -/
def SortedByName (entries : List DirEntry) : Prop :=
  entries.Pairwise fun d e => d.units < e.units

theorem toUInt8_lt {u : UniChar} (hu : u ≤ 0x7f) : u.toUInt8 < 128 := by
  have hle : u.toNat ≤ 0x7f := hu
  change u.toUInt8.toNat < 128
  rw [UInt16.toNat_toUInt8]
  omega

theorem toUInt8_inj {u v : UniChar} (hu : u ≤ 0x7f) (hv : v ≤ 0x7f)
    (h : u.toUInt8 = v.toUInt8) : u = v := by
  have hule : u.toNat ≤ 0x7f := hu
  have hvle : v.toNat ≤ 0x7f := hv
  have hnat := congrArg UInt8.toNat h
  rw [UInt16.toNat_toUInt8, UInt16.toNat_toUInt8] at hnat
  apply UInt16.toNat_inj.mp
  omega

theorem units_prefix_of_asciiName {d e : DirEntry} (hd : ∀ u ∈ d.units, u ≤ 0x7f)
    (he : ∀ u ∈ e.units, u ≤ 0x7f) (h : e.asciiName <+: d.asciiName) :
    e.units <+: d.units := by
  unfold DirEntry.asciiName at h
  rw [List.prefix_iff_getElem] at h ⊢
  simp only [List.length_map, List.getElem_map] at h
  obtain ⟨hlen, hchars⟩ := h
  refine ⟨hlen, fun i hi => ?_⟩
  exact toUInt8_inj (he _ (List.getElem_mem hi)) (hd _ (List.getElem_mem _)) (hchars i hi)

theorem answers_ascii (he : ∀ u ∈ e.units, u ≤ 0x7f) (hname : ∀ b ∈ name, b ≠ 0) :
    e.answers name = true ↔ name <+: e.asciiName := by
  rw [answers_iff hname, DirEntry.listed_ascii he]
  constructor
  · exact fun h => h.2
  · intro h
    refine ⟨fun b hb => ?_, h⟩
    obtain ⟨u, hu, rfl⟩ := List.mem_map.mp (h.subset hb)
    exact toUInt8_lt (he u hu)

theorem find?_asciiName (hascii : AsciiNames entries) (hsorted : SortedByName entries)
    (hnonzero : ∀ e ∈ entries, ∀ u ∈ e.units, u ≠ 0) (he : e ∈ entries) :
    entries.find? (·.answers e.asciiName) = some e := by
  have hname : ∀ b ∈ e.asciiName, b ≠ 0 := by
    have := DirEntry.listed_nonzero (hnonzero e he)
    rwa [DirEntry.listed_ascii (hascii e he)] at this
  have hanswers : ∀ d ∈ entries, (d.answers e.asciiName = true ↔ e.asciiName <+: d.asciiName) :=
    fun d hd => answers_ascii (hascii d hd) hname
  obtain ⟨before, after, rfl⟩ := List.append_of_mem he
  rw [List.find?_append, List.find?_cons]
  have hself : e.answers e.asciiName = true := (hanswers e he).mpr (List.prefix_refl _)
  have hnone : before.find? (·.answers e.asciiName) = none := by
    rw [List.find?_eq_none]
    intro d hd hmatch
    have hdmem : d ∈ before ++ e :: after := List.mem_append_left _ hd
    have hprefix := units_prefix_of_asciiName (hascii d hdmem) (hascii e he)
      ((hanswers d hdmem).mp hmatch)
    have hlt := (List.pairwise_append.mp hsorted).2.2 d hd e (by simp)
    exact hprefix.le hlt
  rw [hnone, hself]
  rfl

/-- Every name that is listed is found. -/
theorem directory_finds_listed (hmem : m.HasMemory) (h : IsDirectory m inum entries)
    (hascii : AsciiNames entries) (hsorted : SortedByName entries) :
    ∃ n, ∀ fuel, n ≤ fuel → ∀ (pos : ℤ) (name2 : Buffer UInt8) (rino1 : ℕ) (out : ReadndirEnd),
      readndir m fuel inum pos name2 rino1 = some out → out.rc = 0 →
      ∃ namelen, strlen fuel out.name.cells = some namelen ∧
        ∀ gotinum, directory m fuel inum (out.name.read 0 namelen) namelen gotinum =
          some out.rino := by
  have hnonzero : ∀ e ∈ entries, ∀ u ∈ e.units, u ≠ 0 := by
    intro e he
    exact (h.storable he).nonzero
  obtain ⟨k, hreads⟩ := h.readsEntries hmem
  obtain ⟨l, hlookup⟩ := h.directory hmem
  refine ⟨max (max k l) 256, ?_⟩
  intro fuel hfuel pos name2 rino1 out hout hrc
  have hreads := hreads fuel (by omega)
  by_cases hpos : 0 ≤ pos ∧ pos < entries.length
  · obtain ⟨i, rfl⟩ := Int.eq_ofNat_of_zero_le hpos.1
    have hi : i < entries.length := by omega
    have he : entries[i] ∈ entries := List.getElem_mem hi
    have hentry := hreads.entry i entries[i] name2 rino1 (List.getElem?_eq_getElem hi)
    obtain rfl : _ = out := Option.some.inj (hentry.symm.trans hout)
    have hstring := DirEntry.listInto_holds (hnonzero _ he) name2
    have hlen := entries[i].listed_length_le
    have hlt := (h.storable he).namlen_lt
    refine ⟨_, hstring.strlen (by omega), fun gotinum => ?_⟩
    dsimp only
    rw [hstring.read, hlookup fuel (by omega)]
    unfold lookupResult
    rw [DirEntry.listed_ascii (hascii _ he)]
    have hfind := find?_asciiName hascii hsorted hnonzero he
    unfold DirEntry.asciiName at hfind
    rw [hfind]
  · have hrefused := hreads.refused pos name2 rino1 (by omega)
    obtain rfl : _ = out := Option.some.inj (hrefused.symm.trans hout)
    exact absurd hrc one_ne_zero

theorem twoLeafEntries_ascii : AsciiNames twoLeafEntries.flatten := by
  unfold AsciiNames twoLeafEntries
  simp

theorem directory_finds_listed_twoLeaf :
    AsciiNames twoLeafEntries.flatten ∧ SortedByName twoLeafEntries.flatten ∧
      ∃ n, ∀ fuel, n ≤ fuel →
        ∃ out namelen, readndir twoLeafMount fuel 2 0 (.fresh fun _ => 1) 0 = some out ∧
          strlen fuel out.name.cells = some namelen ∧
          directory twoLeafMount fuel 2 (out.name.read 0 namelen) namelen 9 = some 5 := by
  have hsorted : SortedByName twoLeafEntries.flatten := by
    unfold SortedByName
    decide
  obtain ⟨n, hn⟩ := directory_finds_listed (fun _ => rfl) twoLeafMount_isDirectory
    twoLeafEntries_ascii hsorted
  obtain ⟨k, hk⟩ := twoLeafMount_isDirectory.readsEntries fun _ => rfl
  refine ⟨twoLeafEntries_ascii, hsorted, max n k, ?_⟩
  intro fuel hfuel
  have hout := (hk fuel (by omega)).entry 0 ⟨[97], 5⟩ (.fresh fun _ => 1) 0 rfl
  obtain ⟨namelen, hlen, hfound⟩ := hn fuel (by omega) 0 _ 0 _ hout rfl
  exact ⟨_, namelen, hout, hlen, hfound 9⟩

/-! ## Names that only begin an entry -/

theorem find?_answers_ascii (hascii : AsciiNames entries) (hname : ∀ b ∈ name, b ≠ 0) :
    entries.find? (·.answers name) = entries.find? fun e => name.isPrefixOf e.asciiName := by
  apply List.find?_congr
  intro e he
  rw [Bool.eq_iff_iff, answers_ascii (hascii e he) hname, List.isPrefixOf_iff_prefix]

/-- The result of a lookup belongs to an entry of the name wanted exactly when
the first entry that begins with this name shares its inode with one. -/
theorem directory_exact_iff (hmem : m.HasMemory) (h : IsDirectory m inum entries)
    (hne : entries ≠ []) (hascii : AsciiNames entries) :
    ∃ n, ∀ fuel, n ≤ fuel → ∀ name : List UInt8, (∀ b ∈ name, b ≠ 0) → ∀ gotinum,
      ∃ g, directory m fuel inum name name.length gotinum = some g ∧
        ((g ≠ noInum → ∃ e ∈ entries, e.asciiName = name ∧ e.inumber = g) ↔
          ∀ first, entries.find? (fun e => name.isPrefixOf e.asciiName) = some first →
            ∃ e ∈ entries, e.asciiName = name ∧ e.inumber = first.inumber) := by
  obtain ⟨n, hlookup⟩ := h.directory hmem
  refine ⟨n, ?_⟩
  intro fuel hfuel name hname gotinum
  refine ⟨_, hlookup fuel hfuel name gotinum, ?_⟩
  unfold lookupResult
  rw [find?_answers_ascii hascii hname]
  cases hfind : entries.find? fun e => name.isPrefixOf e.asciiName with
  | none => simp [hne]
  | some first =>
      have hnot := (h.storable (List.mem_of_find?_eq_some hfind)).inumber_ne
      simp [hnot]

theorem directory_exact_twoLeaf :
    AsciiNames twoLeafEntries.flatten ∧
      ∃ n, ∀ fuel, n ≤ fuel →
        ∃ g, directory twoLeafMount fuel 2 [97] 1 0 = some g ∧
          (g ≠ noInum → ∃ e ∈ twoLeafEntries.flatten, e.asciiName = [97] ∧ e.inumber = g) := by
  obtain ⟨n, hn⟩ := directory_exact_iff (fun _ => rfl) twoLeafMount_isDirectory (by decide)
    twoLeafEntries_ascii
  refine ⟨twoLeafEntries_ascii, n, fun fuel hfuel => ?_⟩
  obtain ⟨g, hg, hiff⟩ := hn fuel hfuel [97] (by simp) 0
  refine ⟨g, hg, hiff.mpr ?_⟩
  intro first hfirst
  obtain rfl : (⟨[97], 5⟩ : DirEntry) = first :=
    Option.some.inj ((by decide : _ = _).trans hfirst)
  decide

theorem directory_takes_longer_name :
    IsDirectory twoLeafMount 2 twoLeafEntries.flatten ∧
      AsciiNames twoLeafEntries.flatten ∧
      twoLeafEntries.flatten.Pairwise (fun d e => d.units ≠ e.units) ∧
      (∀ e ∈ twoLeafEntries.flatten, e.units ≠ []) ∧
      ∃ n, ∀ fuel, n ≤ fuel →
        directory twoLeafMount fuel 2 [98] 1 0 = some 7 ∧ 7 ≠ noInum ∧
          ¬ ∃ e ∈ twoLeafEntries.flatten, e.asciiName = [98] ∧ e.inumber = 7 := by
  obtain ⟨n, hn⟩ := twoLeafMount_isDirectory.directory fun _ => rfl
  refine ⟨twoLeafMount_isDirectory, twoLeafEntries_ascii, by decide, by decide, n, ?_⟩
  intro fuel hfuel
  exact ⟨(hn fuel hfuel [98] 0).trans (by decide), by decide, by decide⟩

end JfsReader
