import JfsReader.DirectoryTree
import JfsReader.NameListing

/-!
# `readndir`

The `pos`-th entry of a directory, found by counting through all of them from
the first leaf on.  Its name is cut short unless it is ASCII.
-/

namespace JfsReader

open StepMachine WriteBuffer

structure ReadndirEnd where
  rc : ℕ
  name : Buffer UInt8
  rino : ℕ

def readndirVisit (m : Mount) (fuel : ℕ) (pos : ℤ) (name2 : Buffer UInt8) (rino1 : ℕ)
    (slot : Bytes) (headIndex : ℕ) (cpos : ℤ) : Option (ℤ ⊕ Buffer UInt8 × ℕ) :=
  if cpos = pos then (nameInum m fuel slot headIndex name2 rino1).map .inr
  else some (.inl (cpos + 1))

/-- The buffer of 100 bytes is allocated and not used. -/
def readndir (m : Mount) (fuel cacheId : ℕ) (pos : ℤ) (name2 : Buffer UInt8) (rino1 : ℕ) :
    Option ReadndirEnd :=
  match m.malloc 100 with
  | none => some ⟨1, name2, rino1⟩
  | some _ =>
      match walkDirectory m fuel cacheId (readndirVisit m fuel pos name2 rino1) 0 with
      | none => none
      | some (.inl _) => some ⟨1, name2, rino1⟩
      | some (.inr (name, rino)) => some ⟨0, name, rino⟩

/-- A client that asks for one position after the other until it is refused. -/
def readAll (m : Mount) (fuel cacheId : ℕ) (name2 : Buffer UInt8) (rino1 : ℕ) :
    ℕ → ℤ → Option (List ReadndirEnd)
  | 0, _ => none
  | rounds + 1, pos =>
      match readndir m fuel cacheId pos name2 rino1 with
      | none => none
      | some out =>
          if out.rc ≠ 0 then some []
          else (readAll m fuel cacheId name2 rino1 rounds (pos + 1)).map (out :: ·)

def readndirAct (pos : ℤ) (name2 : Buffer UInt8) (e : DirEntry) (cpos : ℤ) :
    Option (ℤ ⊕ Buffer UInt8 × ℕ) :=
  if cpos = pos then some (.inr (e.listInto name2, e.inumber)) else some (.inl (cpos + 1))

variable {m : Mount} {cacheId fuel : ℕ} {entries : List DirEntry} {pos : ℤ}
  {name2 : Buffer UInt8} {rino1 : ℕ}

theorem readndirVisit_acts (hmem : m.HasMemory) (hfuel : dtPageMaxSlot < fuel) :
    VisitActs (readndirVisit m fuel pos name2 rino1) (readndirAct pos name2) := by
  intro slot count headIndex e cpos hcount hentry
  unfold readndirVisit readndirAct
  rw [hentry.nameInum hmem (by omega)]
  rfl

theorem readndirAct_eq_countTo (pos : ℤ) (name2 : Buffer UInt8) :
    readndirAct pos name2 = countTo pos fun e => some (e.listInto name2, e.inumber) := rfl

structure ReadsEntries (m : Mount) (fuel cacheId : ℕ) (entries : List DirEntry) : Prop where
  entry : ∀ (k : ℕ) e name2 rino1, entries[k]? = some e →
    readndir m fuel cacheId k name2 rino1 = some ⟨0, e.listInto name2, e.inumber⟩
  refused : ∀ (pos : ℤ) name2 rino1, pos < 0 ∨ entries.length ≤ pos →
    readndir m fuel cacheId pos name2 rino1 = some ⟨1, name2, rino1⟩

theorem IsDirectory.readsEntries (h : IsDirectory m cacheId entries) (hmem : m.HasMemory) :
    ∃ n, ∀ fuel, n ≤ fuel → ReadsEntries m fuel cacheId entries := by
  obtain ⟨n, hn, hwalk⟩ := h.walk
  obtain ⟨scratch, hscratch⟩ := hmem.exists_malloc 100
  refine ⟨n, ?_⟩
  intro fuel hfuel
  have hlist : ∀ pos name2 rino1,
      walkDirectory m fuel cacheId (readndirVisit m fuel pos name2 rino1) 0 =
        scan (readndirAct pos name2) entries 0 :=
    fun pos name2 rino1 =>
      hwalk fuel hfuel (readndirVisit_acts hmem (Nat.lt_of_lt_of_le hn hfuel)) 0
  constructor
  · intro k e name2 rino1 he
    have hscan : scan (readndirAct k name2) entries 0 =
        some (.inr (e.listInto name2, e.inumber)) := by
      rw [readndirAct_eq_countTo, scan_countTo_of_lt (zero_add (k : ℤ)).symm he]
      rfl
    simp [readndir, hscratch, hlist, hscan]
  · intro pos name2 rino1 hpos
    have hscan : scan (readndirAct pos name2) entries 0 = some (.inl (0 + entries.length)) := by
      rw [readndirAct_eq_countTo, scan_countTo_of_not_mem (by omega)]
    simp [readndir, hscratch, hlist, hscan]

theorem ReadsEntries.readAll (h : ReadsEntries m fuel cacheId entries) {rounds k : ℕ}
    (hle : k ≤ entries.length) (hrounds : entries.length < k + rounds)
    (name2 : Buffer UInt8) (rino1 : ℕ) :
    JfsReader.readAll m fuel cacheId name2 rino1 rounds k =
      some ((entries.drop k).map fun e => ⟨0, e.listInto name2, e.inumber⟩) := by
  induction rounds generalizing k with
  | zero => omega
  | succ rounds ih =>
      rw [JfsReader.readAll]
      by_cases hk : k < entries.length
      · have hnext : ((k : ℤ) + 1) = ((k + 1 : ℕ) : ℤ) := by omega
        rw [h.entry k entries[k] name2 rino1 (List.getElem?_eq_getElem hk), hnext]
        simp only [ne_eq, not_true_eq_false, if_false]
        rw [ih (by omega) (by omega), List.drop_eq_getElem_cons hk]
        rfl
      · rw [h.refused k name2 rino1 (by omega), List.drop_eq_nil_of_le (by omega)]
        rfl

/-! ## Names -/

/-- The call yields the entry: its inode number, and its name in UTF-8. -/
structure Yields (out : ReadndirEnd) (e : DirEntry) : Prop where
  rc : out.rc = 0
  rino : out.rino = e.inumber
  name : ∃ chars : List Char, List.Forall₂ (fun c u => c.toNat = u.toNat) chars e.units ∧
    HoldsString out.name.cells (chars.flatMap String.utf8EncodeChar)

theorem exists_chars {units : List UniChar} (hascii : ∀ u ∈ units, u ≤ 0x7f) :
    ∃ chars : List Char, List.Forall₂ (fun c u => c.toNat = u.toNat) chars units := by
  induction units with
  | nil => exact ⟨[], .nil⟩
  | cons u units ih =>
      obtain ⟨chars, hchars⟩ := ih fun v hv => hascii v (List.mem_cons_of_mem u hv)
      have hle : u.toNat ≤ 0x7f := hascii u List.mem_cons_self
      have hvalid : u.toUInt32.toNat < 0xd800 := by
        rw [UInt16.toNat_toUInt32]
        omega
      exact ⟨⟨u.toUInt32, .inl hvalid⟩ :: chars, .cons (UInt16.toNat_toUInt32 u) hchars⟩

/-- A name beyond ASCII is not listed whole. -/
theorem yields_listInto_iff {e : DirEntry} (hstore : e.Storable) :
    Yields ⟨0, e.listInto name2, e.inumber⟩ e ↔ ∀ u ∈ e.units, u ≤ 0x7f := by
  have hholds := DirEntry.listInto_holds hstore.nonzero name2
  rw [← DirEntry.listed_eq_encoding_iff]
  constructor
  · rintro ⟨-, -, chars, hchars, hname⟩
    rw [flatMap_utf8EncodeChar hchars] at hname
    exact hholds.unique hname
  · intro hlisted
    obtain ⟨chars, hchars⟩ := exists_chars (DirEntry.listed_eq_encoding_iff.mp hlisted)
    refine ⟨rfl, rfl, chars, hchars, ?_⟩
    rw [flatMap_utf8EncodeChar hchars, ← hlisted]
    exact hholds

/-- Each position yields its entry, any other one is refused, and a client that
asks for one position after the other is given all entries in their order. -/
structure Enumerates (m : Mount) (fuel cacheId : ℕ) (name2 : Buffer UInt8) (rino1 : ℕ)
    (entries : List DirEntry) : Prop where
  entry : ∀ (pos : ℕ) e, entries[pos]? = some e →
    ∃ out, readndir m fuel cacheId pos name2 rino1 = some out ∧ Yields out e
  refused : ∀ pos : ℤ, pos < 0 ∨ entries.length ≤ pos →
    ∃ out, readndir m fuel cacheId pos name2 rino1 = some out ∧ out.rc ≠ 0
  all : ∀ rounds, entries.length < rounds →
    ∃ outs, readAll m fuel cacheId name2 rino1 rounds 0 = some outs ∧
      List.Forall₂ Yields outs entries

theorem ReadsEntries.enumerates_iff (h : ReadsEntries m fuel cacheId entries)
    (hstore : ∀ e ∈ entries, e.Storable) :
    Enumerates m fuel cacheId name2 rino1 entries ↔ ∀ e ∈ entries, ∀ u ∈ e.units, u ≤ 0x7f := by
  constructor
  · intro henum e he
    obtain ⟨pos, hpos⟩ := List.mem_iff_getElem?.mp he
    obtain ⟨out, hout, hyields⟩ := henum.entry pos e hpos
    cases (h.entry pos e name2 rino1 hpos).symm.trans hout
    exact (yields_listInto_iff (hstore e he)).mp hyields
  · intro hascii
    have hyields : ∀ e ∈ entries, Yields ⟨0, e.listInto name2, e.inumber⟩ e :=
      fun e he => (yields_listInto_iff (hstore e he)).mpr (hascii e he)
    refine ⟨fun pos e he => ?_, fun pos hpos => ?_, fun rounds hrounds => ?_⟩
    · exact ⟨_, h.entry pos e name2 rino1 he, hyields e (List.mem_of_getElem? he)⟩
    · exact ⟨_, h.refused pos name2 rino1 hpos, one_ne_zero⟩
    · refine ⟨_, h.readAll (k := 0) (by omega) (by omega) name2 rino1, ?_⟩
      rw [List.drop_zero, List.forall₂_map_left_iff, List.forall₂_same]
      exact hyields

/-- The inode numbers, the order and the refusals are always right; the names
are, exactly if all of them are ASCII. -/
theorem readndir_enumerates_iff (hmem : m.HasMemory) (h : IsDirectory m cacheId entries) :
    ∃ n, ∀ fuel, n ≤ fuel → ∀ (name2 : Buffer UInt8) (rino1 : ℕ),
      (Enumerates m fuel cacheId name2 rino1 entries ↔
        ∀ e ∈ entries, ∀ u ∈ e.units, u ≤ 0x7f) ∧
      (∀ (pos : ℕ) e, entries[pos]? = some e →
        ∃ name, readndir m fuel cacheId pos name2 rino1 = some ⟨0, name, e.inumber⟩ ∧
          HoldsString name.cells e.listed ∧
          (Yields ⟨0, name, e.inumber⟩ e ↔ ∀ u ∈ e.units, u ≤ 0x7f)) ∧
      (∀ pos : ℤ, pos < 0 ∨ entries.length ≤ pos →
        ∃ out, readndir m fuel cacheId pos name2 rino1 = some out ∧ out.rc ≠ 0) ∧
      ∀ rounds, entries.length < rounds →
        ∃ outs, readAll m fuel cacheId name2 rino1 rounds 0 = some outs ∧
          outs.map ReadndirEnd.rino = entries.map DirEntry.inumber := by
  obtain ⟨n, hn⟩ := h.readsEntries hmem
  have hstore : ∀ e ∈ entries, e.Storable := fun e he => h.storable he
  refine ⟨n, fun fuel hfuel name2 rino1 => ?_⟩
  have hreads := hn fuel hfuel
  refine ⟨hreads.enumerates_iff hstore, fun pos e he => ?_, fun pos hpos => ?_,
    fun rounds hrounds => ?_⟩
  · have hstored := hstore e (List.mem_of_getElem? he)
    exact ⟨_, hreads.entry pos e name2 rino1 he, DirEntry.listInto_holds hstored.nonzero name2,
      yields_listInto_iff hstored⟩
  · exact ⟨_, hreads.refused pos name2 rino1 hpos, one_ne_zero⟩
  · refine ⟨_, hreads.readAll (k := 0) (by omega) (by omega) name2 rino1, ?_⟩
    rw [List.drop_zero, List.map_map]
    rfl

/-! A directory of two leaves, with the entries `a`, `ab` and `bc`; the root
leads to blocks 40 and 41. -/

def twoLeafMount : Mount where
  image := Bytes.sparse [(53488, 2), (53490, 3), (53512, 2), (53516, 20),
    (89088, 4), (89092, 30),
    (123957, 0x40), (124144, 4), (124145, 2), (124152, 1), (124153, 2),
    (124164, 40), (124196, 41),
    (163840, 41), (163856, 2), (163857, 2), (163861, 1), (163872, 2), (163873, 3),
    (163904, 5), (163908, 0xFF), (163909, 1), (163910, 97),
    (163936, 6), (163940, 0xFF), (163941, 2), (163942, 97), (163944, 98),
    (167952, 2), (167953, 1), (167957, 1), (167968, 2),
    (168000, 7), (168004, 0xFF), (168005, 2), (168006, 98), (168008, 99)]
  l2bsize := 12
  l2bsize_ge := Mount.pageBlocks_ge
  l2bsize_le := Mount.pageBlocks_le
  malloc := fun _ => some (Bytes.sparse [])

def twoLeafEntries : List (List DirEntry) := [[⟨[97], 5⟩, ⟨[97, 98], 6⟩], [⟨[98, 99], 7⟩]]

theorem twoLeafMount_findInode :
    findInode twoLeafMount 3 (2 % 2 ^ 32) filesystemI = some (some 123904) := by
  rfl

theorem twoLeafMount_tree :
    DtTree twoLeafMount ⟨(twoLeafMount.inodeAt 123904).diBtroot⟩ twoLeafEntries.flatten := by
  have hroot : (DtRoot.mk (twoLeafMount.inodeAt 123904).diBtroot).nextindex = 2 := by decide
  apply @DtTree.paged _ _ fun i => [40 + i]
  · decide
  · constructor
    · decide
    · decide
  · decide
  · rw [hroot]
    intro i hi
    have hchild : ∀ i < 2, (DtRoot.mk (twoLeafMount.inodeAt 123904).diBtroot).child i = 40 + i ∧
      (twoLeafMount.dtpage (40 + i)).isLeaf = true := by decide
    rw [(hchild i hi).1]
    exact .leaf (hchild i hi).2
  · rw [hroot]
    have hlast : (twoLeafMount.dtpage 41).next = 0 := by decide
    exact ⟨⟨by decide, by decide⟩, hlast⟩
  · rw [hroot]
    refine .cons ⟨⟨by decide, by decide⟩, ?_⟩ (.cons ⟨⟨by decide, by decide⟩, ?_⟩ .nil)
    · refine .cons ?_ (.cons ?_ .nil)
      · exact ⟨by decide, by decide, by decide, ⟨[], .done (by decide), by decide⟩, by simp⟩
      · exact ⟨by decide, by decide, by decide, ⟨[], .done (by decide), by decide⟩, by simp⟩
    · refine .cons ?_ .nil
      exact ⟨by decide, by decide, by decide, ⟨[], .done (by decide), by decide⟩, by simp⟩

theorem twoLeafMount_isDirectory :
    IsDirectory twoLeafMount 2 twoLeafEntries.flatten :=
  .of_inodeAt (fun _ => rfl) twoLeafMount_findInode (by decide) twoLeafMount_tree

theorem readndir_enumerates_iff_twoLeaf :
    IsDirectory twoLeafMount 2 twoLeafEntries.flatten ∧
      ∃ n, ∀ fuel, n ≤ fuel →
        Enumerates twoLeafMount fuel 2 (.fresh fun _ => 1) 0 twoLeafEntries.flatten := by
  refine ⟨twoLeafMount_isDirectory, ?_⟩
  obtain ⟨n, hn⟩ := readndir_enumerates_iff (fun _ => rfl) twoLeafMount_isDirectory
  have hascii : ∀ e ∈ twoLeafEntries.flatten, ∀ u ∈ e.units, u ≤ 0x7f := by
    simp [twoLeafEntries]
  exact ⟨n, fun fuel hfuel => (hn fuel hfuel _ 0).1.mpr hascii⟩

/-! A directory with the entries "aé" and "aü". -/

def accentMount : Mount where
  image := Bytes.sparse [(53488, 2), (53490, 3), (53512, 2), (53516, 20), (89088, 4), (89092, 30),
    (123957, 0x40), (124144, 2), (124145, 2), (124148, 2), (124152, 1), (124153, 2),
    (124160, 5), (124164, 0xFF), (124165, 2), (124166, 0x61), (124168, 0xE9),
    (124192, 6), (124196, 0xFF), (124197, 2), (124198, 0x61), (124200, 0xFC)]
  l2bsize := 12
  l2bsize_ge := Mount.pageBlocks_ge
  l2bsize_le := Mount.pageBlocks_le
  malloc := fun _ => some (Bytes.sparse [])

def accentEntries : List DirEntry := [⟨[0x61, 0xE9], 5⟩, ⟨[0x61, 0xFC], 6⟩]

theorem accentMount_isDirectory : IsDirectory accentMount 2 accentEntries := by
  have hfind : findInode accentMount 3 (2 % 2 ^ 32) filesystemI = some (some 123904) := rfl
  have hheads : (DtRoot.mk (accentMount.inodeAt 123904).diBtroot).headIndices = [1, 2] := rfl
  have hfirst : HoldsEntry (accentMount.inodeAt 123904).diBtroot dtRootMaxSlot 1
      ⟨[0x61, 0xE9], 5⟩ :=
    ⟨by decide, by decide, by decide, ⟨[], .done (by decide), by decide⟩, by simp⟩
  have hsecond : HoldsEntry (accentMount.inodeAt 123904).diBtroot dtRootMaxSlot 2
      ⟨[0x61, 0xFC], 6⟩ :=
    ⟨by decide, by decide, by decide, ⟨[], .done (by decide), by decide⟩, by simp⟩
  refine .of_inodeAt (fun _ => rfl) hfind (by decide) ?_
  exact .inline (by decide) ⟨by decide, by decide⟩ (hheads ▸ .cons hfirst (.cons hsecond .nil))

/-- Both entries are listed as "a". -/
theorem readndir_loses_characters :
    IsDirectory accentMount 2 accentEntries ∧
      ∃ n, ∀ fuel, n ≤ fuel →
        (∃ name name', readndir accentMount fuel 2 0 (.fresh fun _ => 1) 0 = some ⟨0, name, 5⟩ ∧
          readndir accentMount fuel 2 1 (.fresh fun _ => 1) 0 = some ⟨0, name', 6⟩ ∧
          HoldsString name.cells [0x61] ∧ HoldsString name'.cells [0x61]) ∧
        ¬ Enumerates accentMount fuel 2 (.fresh fun _ => 1) 0 accentEntries := by
  obtain ⟨n, hn⟩ := accentMount_isDirectory.readsEntries fun _ => rfl
  have hstore : ∀ e ∈ accentEntries, e.Storable :=
    fun e he => accentMount_isDirectory.storable he
  have hfirst := (hstore ⟨[0x61, 0xE9], 5⟩ (by simp [accentEntries])).nonzero
  have hsecond := (hstore ⟨[0x61, 0xFC], 6⟩ (by simp [accentEntries])).nonzero
  refine ⟨accentMount_isDirectory, n, fun fuel hfuel => ⟨?_, ?_⟩⟩
  · exact ⟨_, _, (hn fuel hfuel).entry 0 _ _ 0 rfl, (hn fuel hfuel).entry 1 _ _ 0 rfl,
      DirEntry.listInto_holds hfirst _, DirEntry.listInto_holds hsecond _⟩
  · rw [(hn fuel hfuel).enumerates_iff hstore]
    simp [accentEntries]

end JfsReader
