import JfsReader.DirectoryPaging

/-!
# The records of one call

What `diskfs_get_directs` packs is what `readndir` yields, position after
position, and no record reaches back into an earlier one.  Neither of the two
limits its caller passes is looked at, and the 100 bytes that a name is listed
into are less than a name of the file system may take.
-/

namespace JfsReader

open StepMachine WriteBuffer

variable {m : Mount} {d : Dirent} {fuel cacheId : ℕ} {entries : List DirEntry}
  {data name : Buffer UInt8} {e : DirEntry}

theorem writeDirent_written {userp namelen gotinum : ℕ} :
    ∃ new, (writeDirent d data userp namelen gotinum name).written = new ++ data.written ∧
      ∀ i, i ∈ new ↔ userp ≤ i ∧ i ≤ userp + d.dName + namelen := by
  refine ⟨(List.range' (userp + d.dIno) d.inoSize).reverse ++
    ((userp + d.dName + namelen) :: ((List.range' (userp + d.dName) namelen).reverse ++
      ((userp + d.dNamlen) :: ((List.range' (userp + d.dReclen) 2).reverse ++
        [userp + d.dType])))), ?_, ?_⟩
  · unfold writeDirent
    simp [Buffer.written_writeFrom, Buffer.write, leBytes_length]
  · intro i
    simp only [List.mem_append, List.mem_cons, List.mem_reverse, List.mem_range'_1,
      List.not_mem_nil, or_false]
    unfold Dirent.dIno Dirent.dName Dirent.dNamlen Dirent.dType Dirent.dReclen
    omega

section Packing

variable {es : List DirEntry} {s : DirectsState}

theorem pack_written_iff {i : ℕ} :
    i ∈ (s.pack d e).data.written ↔
      i ∈ s.data.written ∨ (s.datap ≤ i ∧ i ≤ s.datap + d.dName + e.listed.length) := by
  obtain ⟨new, hwritten, hnew⟩ := @writeDirent_written d s.data (e.listInto s.name) s.datap
    e.listed.length e.inumber
  change i ∈ (writeDirent d s.data s.datap e.listed.length e.inumber _).written ↔ _
  rw [hwritten, List.mem_append, hnew]
  exact or_comm

theorem pack_datap :
    (es.foldl (DirectsState.pack d) s).datap =
      s.datap + (es.map fun e => d.reclen e.listed.length).sum := by
  induction es generalizing s with
  | nil => rfl
  | cons e es ih =>
      rw [List.foldl_cons, ih, List.map_cons, List.sum_cons]
      simp only [DirectsState.pack]
      omega

theorem pack_written_lt {i : ℕ} (hi : i ∈ (es.foldl (DirectsState.pack d) s).data.written) :
    i ∈ s.data.written ∨ i < (es.foldl (DirectsState.pack d) s).datap := by
  induction es generalizing s with
  | nil => exact .inl hi
  | cons e es ih =>
      rcases ih hi with hfirst | hlater
      · rcases pack_written_iff.mp hfirst with hbefore | hown
        · exact .inl hbefore
        · right
          have hle := d.le_reclen e.listed.length
          have hsize := d.name_lt
          rw [pack_datap, List.map_cons, List.sum_cons]
          unfold Dirent.dName at hown
          omega
      · exact .inr hlater

theorem mem_written_listInto {i : ℕ} :
    i ∈ (e.listInto name).written ↔ i ∈ name.written ∨ i ≤ e.units.length := by
  unfold DirEntry.listInto
  simp only [Buffer.write, List.mem_cons, Buffer.mem_written_writeFrom, Buffer.length_read]
  constructor
  · rintro (rfl | hbefore | hcopied)
    · exact .inr le_rfl
    · exact .inl hbefore
    · exact .inr (by omega)
  · rintro (hbefore | hle)
    · exact .inr (.inl hbefore)
    · rcases Nat.lt_or_eq_of_le hle with hlt | rfl
      · exact .inr (.inr (by omega))
      · exact .inl rfl

theorem pack_name_written {i : ℕ} (hi : i ∈ (es.foldl (DirectsState.pack d) s).name.written) :
    i ∈ s.name.written ∨ ∃ e ∈ es, i ≤ e.units.length := by
  induction es generalizing s with
  | nil => exact .inl hi
  | cons e es ih =>
      rcases ih hi with hfirst | ⟨e', he', hle⟩
      · rcases mem_written_listInto.mp hfirst with hbefore | hown
        · exact .inl hbefore
        · exact .inr ⟨e, by simp, hown⟩
      · exact .inr ⟨e', by simp [he'], hle⟩

end Packing

/-! ## The records -/

/-- The output buffer after a round. -/
def dataAfter : DirectsState ⊕ Option DirectsEnd → Option (Buffer UInt8)
  | .inl s => some s.data
  | .inr out => out.map DirectsEnd.data

/-- A round that starts in `s` writes nothing into the records before its own. -/
def WritesBehind (m : Mount) (d : Dirent) (fuel cacheId : ℕ) (s : DirectsState) : Prop :=
  ∃ data new, dataAfter (directsStep m d fuel cacheId s) = some data ∧
    data.written = new ++ s.data.written ∧ ∀ i ∈ new, s.datap ≤ i

-- every state before the end is one of those that `run_directsStep` describes
theorem directs_reached (hreads : ReadsEntries m fuel cacheId entries) (hfuel : 256 ≤ fuel)
    (hstore : ∀ e ∈ entries, e.Storable) {k rounds : ℕ} {scratch : Bytes} {s : DirectsState}
    (hrun : run (directsStep m d fuel cacheId) rounds (directsStart k data scratch) = .inl s) :
    rounds ≤ 29 ∧ rounds ≤ entries.length - k ∧
      s = ((entries.drop k).take rounds).foldl (DirectsState.pack d)
        (directsStart k data scratch) := by
  have hle : rounds ≤ min 29 (entries.length - k) := by
    by_contra hlt
    rw [run_of_le (run_directsStep_end hreads hfuel hstore k data scratch) (by omega)] at hrun
    cases hrun
  refine ⟨by omega, by omega, ?_⟩
  rw [run_directsStep hreads hfuel hstore rfl (show 0 + rounds < 30 by omega) (by omega)] at hrun
  exact (Sum.inl.inj hrun).symm

theorem writesBehind_of_reads (hreads : ReadsEntries m fuel cacheId entries)
    (hfuel : 256 ≤ fuel) (hstore : ∀ e ∈ entries, e.Storable) {s : DirectsState} {k : ℕ}
    (hpos : s.pos = k) : WritesBehind m d fuel cacheId s := by
  by_cases hk : k < entries.length
  · have hstep := directsStep_entry (d := d) hreads hfuel (List.getElem?_eq_getElem hk)
      (hstore _ (List.getElem_mem hk)) hpos
    obtain ⟨new, hwritten, hnew⟩ := @writeDirent_written d s.data (entries[k].listInto s.name)
      s.datap entries[k].listed.length entries[k].inumber
    refine ⟨(s.pack d entries[k]).data, new, ?_, hwritten, fun i hi => ((hnew i).mp hi).1⟩
    rw [hstep]
    split_ifs <;> rfl
  · have hstep := directsStep_refused (d := d) (hreads.refused s.pos s.name s.gotinum
      (.inr (by omega)))
    exact ⟨s.data, [], by rw [hstep]; rfl, rfl, by simp⟩

/-- The bytes up to `*datacnt` are the records of the entries from `entry` on,
as `readndir` yields them. -/
theorem directs_decode (hmem : m.HasMemory) (h : IsDirectory m cacheId entries) (d : Dirent) :
    ∃ k, ∀ fuel, k ≤ fuel → ∀ (entry : ℕ) (n : ℤ) (data : Buffer UInt8) (bufsiz : ℕ),
      (∃ out records, diskfsGetDirects m d fuel cacheId entry n data bufsiz = some out ∧
        HoldsRecords d out.data records 0 out.datacnt ∧
        out.records d = some records ∧
        records.length = min 29 (entries.length - entry) ∧
        ∀ i r, records[i]? = some r → ∀ name2 rino1, ∃ name,
          readndir m fuel cacheId ((entry + i : ℕ) : ℤ) name2 rino1 = some ⟨0, name, r.ino⟩ ∧
          HoldsString name.cells r.name) ∧
      (∀ scratch rounds s, m.malloc 100 = some scratch →
        run (directsStep m d fuel cacheId) rounds (directsStart entry data scratch) = .inl s →
        WritesBehind m d fuel cacheId s) := by
  obtain ⟨k, hk⟩ := h.readsEntries hmem
  have hstore : ∀ e ∈ entries, e.Storable := fun e he => h.storable he
  refine ⟨max k 256, ?_⟩
  intro fuel hfuel entry n data bufsiz
  have hreads := hk fuel (by omega)
  constructor
  · obtain ⟨scratch, -, hout⟩ :=
      diskfsGetDirects_eq (d := d) hmem hreads (by omega) hstore entry n data bufsiz
    have hheld := packedEnd_holds (d := d) (k := entry) hstore data scratch
    refine ⟨_, _, hout, hheld, DirectsEnd.records_eq hheld, ?_, ?_⟩
    · rw [List.length_map, List.length_take, List.length_drop]
    · intro i r hr name2 rino1
      rw [List.getElem?_map, Option.map_eq_some_iff] at hr
      obtain ⟨e, he, rfl⟩ := hr
      have hentry : entries[entry + i]? = some e := by
        rw [List.getElem?_take, List.getElem?_drop] at he
        split_ifs at he
        exact he
      exact ⟨_, hreads.entry _ e name2 rino1 hentry,
        DirEntry.listInto_holds (hstore e (List.mem_of_getElem? hentry)).nonzero name2⟩
  · intro scratch rounds s _ hrun
    obtain ⟨-, hle, rfl⟩ := directs_reached hreads (by omega) hstore hrun
    exact writesBehind_of_reads hreads (by omega) hstore (reached_pos hle)

theorem directs_decode_twoLeaf :
    IsDirectory twoLeafMount 2 twoLeafEntries.flatten ∧
      ∃ k, ∀ fuel, k ≤ fuel →
        ∃ out records, diskfsGetDirects twoLeafMount hurdDirent fuel 2 1 (-1)
            (.fresh fun _ => 0) 0 = some out ∧
          out.records hurdDirent = some records ∧ records.length = 2 := by
  refine ⟨twoLeafMount_isDirectory, ?_⟩
  obtain ⟨k, hk⟩ := directs_decode (fun _ => rfl) twoLeafMount_isDirectory hurdDirent
  refine ⟨k, fun fuel hfuel => ?_⟩
  obtain ⟨⟨out, records, hout, -, hrecords, hlen, -⟩, -⟩ :=
    hk fuel hfuel 1 (-1) (.fresh fun _ => 0) 0
  exact ⟨out, records, hout, hrecords, hlen.trans (by decide)⟩

/-! ## The limits -/

/-- The entries from the position `entry` on. -/
def entriesFrom (entries : List DirEntry) (entry : ℤ) : List DirEntry :=
  if entry < 0 then [] else entries.drop entry.toNat

theorem mem_entriesFrom {entry : ℤ} (h : e ∈ entriesFrom entries entry) : e ∈ entries := by
  unfold entriesFrom at h
  split_ifs at h
  · cases h
  · exact List.mem_of_mem_drop h

/-- The bytes that the records of `rest` take, where the thirtieth is the last
and is not counted beyond its name. -/
def Dirent.batchBytes (d : Dirent) (rest : List DirEntry) : ℕ :=
  ((rest.take 29).map fun e => d.reclen e.listed.length).sum +
    match rest[29]? with
    | none => 0
    | some e => d.dName + e.listed.length + 1

theorem packedEnd_written_lt_iff {s : DirectsState} {bufsiz : ℕ} (hfresh : s.data.written = [])
    (hstart : s.datap = 0) (rest : List DirEntry) :
    ((∀ i ∈ (packedEnd d s rest).data.written, i < bufsiz) ∧
      (packedEnd d s rest).datacnt ≤ bufsiz) ↔ d.batchBytes rest ≤ bufsiz := by
  have hdatap := @pack_datap d (rest.take 29) s
  have hbefore : ∀ i ∈ ((rest.take 29).foldl (DirectsState.pack d) s).data.written,
      i < ((rest.take 29).foldl (DirectsState.pack d) s).datap := by
    intro i hi
    rcases pack_written_lt hi with hnone | hlt
    · rw [hfresh] at hnone
      cases hnone
    · exact hlt
  rw [hstart, Nat.zero_add] at hdatap
  unfold Dirent.batchBytes packedEnd
  rw [List.take_add_one (i := 29), List.foldl_append, ← hdatap]
  generalize (rest.take 29).foldl (DirectsState.pack d) s = t at hbefore ⊢
  cases rest[29]? with
  | none =>
      constructor
      · exact fun h => h.2
      · intro hle
        exact ⟨fun i hi => Nat.lt_of_lt_of_le (hbefore i hi) hle, hle⟩
  | some e =>
      have hlast : ∀ i, i ∈ (t.pack d e).data.written ↔ i ∈ t.data.written ∨
          (t.datap ≤ i ∧ i ≤ t.datap + d.dName + e.listed.length) := fun i => pack_written_iff
      constructor
      · rintro ⟨hall, -⟩
        have := hall (t.datap + d.dName + e.listed.length) ((hlast _).mpr (.inr (by omega)))
        change t.datap + (d.dName + e.listed.length + 1) ≤ bufsiz
        omega
      · intro hle
        change t.datap + (d.dName + e.listed.length + 1) ≤ bufsiz at hle
        refine ⟨?_, show t.datap ≤ bufsiz by omega⟩
        intro i hi
        rcases (hlast i).mp hi with hearlier | hown
        · have := hbefore i hearlier
          omega
        · omega

/-- The limits are kept exactly when the directory happens to have so little
left from `entry` on that the whole batch is within them. -/
theorem directs_limits_iff (hmem : m.HasMemory) (h : IsDirectory m cacheId entries)
    (d : Dirent) :
    ∃ k, ∀ fuel, k ≤ fuel → ∀ (entry n : ℤ) (cells : ℕ → UInt8) (bufsiz : ℕ),
      0 ≤ n → 0 < bufsiz →
      ∃ out, diskfsGetDirects m d fuel cacheId entry n (.fresh cells) bufsiz = some out ∧
        ((out.amt ≤ n ∧ (∀ i ∈ out.data.written, i < bufsiz) ∧ out.datacnt ≤ bufsiz) ↔
          min 30 (entriesFrom entries entry).length ≤ n ∧
            d.batchBytes (entriesFrom entries entry) ≤ bufsiz) := by
  obtain ⟨k, hk⟩ := h.readsEntries hmem
  have hstore : ∀ e ∈ entries, e.Storable := fun e he => h.storable he
  refine ⟨max k 256, ?_⟩
  intro fuel hfuel entry n cells bufsiz hn hbufsiz
  have hreads := hk fuel (by omega)
  by_cases hneg : entry < 0
  · refine ⟨_, diskfsGetDirects_of_neg hmem hreads (by omega) hneg n _ bufsiz, ?_⟩
    simp [entriesFrom, hneg, Dirent.batchBytes, Buffer.fresh, hn]
  · obtain ⟨i, rfl⟩ := Int.eq_ofNat_of_zero_le (show 0 ≤ entry by omega)
    obtain ⟨scratch, -, hout⟩ :=
      diskfsGetDirects_eq (d := d) hmem hreads (by omega) hstore i n (.fresh cells) bufsiz
    have hfrom : entriesFrom entries (i : ℤ) = entries.drop i := by
      simp [entriesFrom]
    refine ⟨_, hout, ?_⟩
    rw [packedEnd_written_lt_iff rfl rfl, hfrom, packedEnd_amt]

theorem directs_limits_iff_twoLeaf :
    ∃ k, ∀ fuel, k ≤ fuel →
      ∃ out, diskfsGetDirects twoLeafMount hurdDirent fuel 2 0 3 (.fresh fun _ => 0) 48 =
          some out ∧
        out.amt ≤ (3 : ℤ) ∧ (∀ i ∈ out.data.written, i < 48) ∧ out.datacnt ≤ 48 := by
  obtain ⟨k, hk⟩ := directs_limits_iff (fun _ => rfl) twoLeafMount_isDirectory hurdDirent
  refine ⟨k, fun fuel hfuel => ?_⟩
  obtain ⟨out, hout, hiff⟩ :=
    hk fuel hfuel 0 3 (fun _ => 0) 48 (by decide) (by decide)
  exact ⟨out, hout, hiff.mpr ⟨by decide, by decide⟩⟩

/-- One entry and one byte are asked for, and three entries come back. -/
theorem directs_exceed_limits :
    IsDirectory twoLeafMount 2 twoLeafEntries.flatten ∧
      ∃ k, ∀ fuel, k ≤ fuel →
        ∃ out, diskfsGetDirects twoLeafMount hurdDirent fuel 2 0 1 (.fresh fun _ => 0) 1 =
            some out ∧
          out.amt = 3 ∧ out.datacnt = 48 ∧ ∃ i ∈ out.data.written, ¬ i < 1 := by
  obtain ⟨k, hk⟩ := twoLeafMount_isDirectory.readsEntries fun _ => rfl
  refine ⟨twoLeafMount_isDirectory, max k 256, fun fuel hfuel => ?_⟩
  obtain ⟨scratch, -, hout⟩ := diskfsGetDirects_eq (d := hurdDirent) (fun _ => rfl)
    (hk fuel (by omega)) (by omega) (fun e he => twoLeafMount_isDirectory.storable he) 0 1
    (.fresh fun _ => 0) 1
  refine ⟨_, hout, rfl, rfl, 40, ?_, by decide⟩
  change 40 ∈ (DirectsState.pack hurdDirent _ ⟨[98, 99], 7⟩).data.written
  rw [pack_written_iff]
  exact .inr ⟨show 32 ≤ 40 by decide, show 40 ≤ 32 + 8 + 2 by decide⟩

/-! ## The scratch buffer -/

/-- Every index of the 100 bytes allocated for a name that the calls of
`readndir` write lies inside them. -/
def ScratchWithin (m : Mount) (d : Dirent) (fuel cacheId : ℕ) (entry : ℤ)
    (data : Buffer UInt8) : Prop :=
  ∀ scratch rounds s out, m.malloc 100 = some scratch →
    run (directsStep m d fuel cacheId) rounds (directsStart entry data scratch) = .inl s →
    readndir m fuel cacheId s.pos s.name s.gotinum = some out →
    ∀ i ∈ out.name.written, i < 100

theorem ReadsEntries.written (hreads : ReadsEntries m fuel cacheId entries) {k i rino1 : ℕ}
    {out : ReadndirEnd} (hout : readndir m fuel cacheId k name rino1 = some out) :
    i ∈ out.name.written ↔
      i ∈ name.written ∨ ∃ e, entries[k]? = some e ∧ i ≤ e.units.length := by
  by_cases hk : k < entries.length
  · have he := List.getElem?_eq_getElem hk
    rw [hreads.entry k _ name rino1 he, Option.some.injEq] at hout
    rw [← hout, mem_written_listInto]
    simp [he]
  · rw [hreads.refused k name rino1 (.inr (by omega)), Option.some.injEq] at hout
    rw [← hout]
    simp [List.getElem?_eq_none (by omega : entries.length ≤ k)]

theorem mem_take_drop_iff {k count : ℕ} :
    e ∈ (entries.drop k).take count ↔ ∃ j < count, entries[k + j]? = some e := by
  rw [List.mem_iff_getElem?]
  constructor
  · rintro ⟨j, hj⟩
    rw [List.getElem?_take, List.getElem?_drop] at hj
    split_ifs at hj with hlt
    exact ⟨j, hlt, hj⟩
  · rintro ⟨j, hlt, hj⟩
    refine ⟨j, ?_⟩
    rw [List.getElem?_take, if_pos hlt, List.getElem?_drop]
    exact hj

theorem scratchWithin_iff_of_reads (hmem : m.HasMemory)
    (hreads : ReadsEntries m fuel cacheId entries) (hfuel : 256 ≤ fuel)
    (hstore : ∀ e ∈ entries, e.Storable) (k : ℕ) (data : Buffer UInt8) :
    ScratchWithin m d fuel cacheId k data ↔
      ∀ e ∈ (entries.drop k).take 30, e.units.length < 100 := by
  constructor
  · intro hwithin e he
    obtain ⟨j, hj, hentry⟩ := mem_take_drop_iff.mp he
    have hlt := (List.getElem?_eq_some_iff.mp hentry).1
    obtain ⟨scratch, hscratch⟩ := hmem.exists_malloc 100
    have hrun := run_directsStep (d := d) (s := directsStart k data scratch) (j := j) hreads
      hfuel hstore rfl (show 0 + j < 30 by omega) (by omega)
    have hpos := @reached_pos d entries data k j scratch (by omega)
    generalize ((entries.drop k).take j).foldl (DirectsState.pack d)
      (directsStart k data scratch) = s at hrun hpos
    have hout := hreads.entry (k + j) e s.name s.gotinum hentry
    rw [← hpos] at hout
    exact hwithin scratch j s _ hscratch hrun hout e.units.length
      (mem_written_listInto.mpr (.inr le_rfl))
  · intro hshort scratch rounds s out hscratch hrun hout i hi
    obtain ⟨hlt, hle, rfl⟩ := directs_reached hreads hfuel hstore hrun
    rw [reached_pos hle] at hout
    rcases (hreads.written hout).mp hi with hearlier | ⟨e, he, hlen⟩
    · rcases pack_name_written hearlier with hnone | ⟨e, he, hlen⟩
      · cases hnone
      · have := hshort e (List.take_subset_take_left _ (by omega) he)
        omega
    · have := hshort e (mem_take_drop_iff.mpr ⟨rounds, by omega, he⟩)
      omega

theorem scratchWithin_of_neg (hreads : ReadsEntries m fuel cacheId entries) {entry : ℤ}
    (hneg : entry < 0) (data : Buffer UInt8) : ScratchWithin m d fuel cacheId entry data := by
  intro scratch rounds s out _ hrun hout i hi
  have hrefused := directsStep_refused (d := d) (s := directsStart entry data scratch)
    (hreads.refused entry _ _ (.inl hneg))
  cases rounds with
  | zero =>
      rw [run_zero, Sum.inl.injEq] at hrun
      subst s
      have hnone := hreads.refused entry (.fresh fun k => scratch k) 0 (.inl hneg)
      obtain rfl := Option.some.inj (hnone.symm.trans hout)
      cases hi
  | succ rounds =>
      rw [run_succ_of_inr hrefused] at hrun
      cases hrun

theorem scratchWithin_iff (hmem : m.HasMemory) (hreads : ReadsEntries m fuel cacheId entries)
    (hfuel : 256 ≤ fuel) (hstore : ∀ e ∈ entries, e.Storable) (entry : ℤ)
    (data : Buffer UInt8) :
    ScratchWithin m d fuel cacheId entry data ↔
      ∀ e ∈ (entriesFrom entries entry).take 30, e.units.length < 100 := by
  unfold entriesFrom
  split_ifs with hneg
  · simp [scratchWithin_of_neg (d := d) hreads hneg data]
  · obtain ⟨i, rfl⟩ := Int.eq_ofNat_of_zero_le (show 0 ≤ entry by omega)
    exact scratchWithin_iff_of_reads hmem hreads hfuel hstore i data

/-- No name of a hundred or more characters is among the entries that the call
comes to. -/
theorem directs_scratch_iff (hmem : m.HasMemory) (h : IsDirectory m cacheId entries)
    (d : Dirent) :
    ∃ k, ∀ fuel, k ≤ fuel → ∀ (entry : ℤ) (data : Buffer UInt8),
      ScratchWithin m d fuel cacheId entry data ↔
        ∀ e ∈ (entriesFrom entries entry).take 30, e.units.length < 100 := by
  obtain ⟨k, hk⟩ := h.readsEntries hmem
  refine ⟨max k 256, ?_⟩
  intro fuel hfuel entry data
  exact scratchWithin_iff hmem (hk fuel (by omega)) (by omega) (fun e he => h.storable he) entry
    data

theorem directs_scratch_iff_twoLeaf :
    ∃ k, ∀ fuel, k ≤ fuel →
      ScratchWithin twoLeafMount hurdDirent fuel 2 0 (.fresh fun _ => 0) := by
  obtain ⟨k, hk⟩ := directs_scratch_iff (fun _ => rfl) twoLeafMount_isDirectory hurdDirent
  exact ⟨k, fun fuel hfuel => (hk fuel hfuel 0 _).mpr (by decide)⟩

/-! A directory of one entry, whose name of a hundred characters goes on from
slot 2 over the slots 3 to 8. -/

def longNameLeaf (o : ℕ) : UInt8 :=
  let s := o / 32
  if o = 16 then 2
  else if o = 17 ∨ o = 21 then 1
  else if o = 32 then 2
  else if o = 64 then 5
  else if o = 68 then 3
  else if o = 69 then 100
  else if 70 ≤ o ∧ o < 96 ∧ o % 2 = 0 then 0x61
  else if 3 ≤ s ∧ s ≤ 8 ∧ o % 2 = 0 then
    if o % 32 = 0 then (if s = 8 then 0xFF else .ofNat (s + 1)) else 0x61
  else 0

def longNameMount : Mount where
  image := fun i =>
    if 163840 ≤ i ∧ i < 167936 then longNameLeaf (i - 163840).toNat
    else Bytes.sparse [(53488, 2), (53490, 3), (53512, 2), (53516, 20), (89088, 4), (89092, 30),
      (123957, 0x40), (124144, 4), (124145, 1), (124152, 1), (124164, 40)] i
  l2bsize := 12
  l2bsize_ge := Mount.pageBlocks_ge
  l2bsize_le := Mount.pageBlocks_le
  malloc := fun _ => some (Bytes.sparse [])

def longNameEntry : DirEntry := ⟨List.replicate 100 0x61, 5⟩

theorem longNameMount_chain :
    SlotChain (longNameMount.dtpage 40).bytes dtPageMaxSlot 3 [3, 4, 5, 6, 7, 8] :=
  .link (i := 3) (by decide) (.link (i := 4) (by decide) (.link (i := 5) (by decide)
    (.link (i := 6) (by decide) (.link (i := 7) (by decide) (.link (i := 8) (by decide)
      (.done (by decide)))))))

theorem longNameMount_holds :
    HoldsEntry (longNameMount.dtpage 40).bytes dtPageMaxSlot 2 longNameEntry :=
  ⟨by decide, by decide, by decide, ⟨_, longNameMount_chain, by decide⟩,
    by simp [longNameEntry]⟩

theorem longNameMount_isDirectory : IsDirectory longNameMount 2 [longNameEntry] := by
  have hfind : findInode longNameMount 3 (2 % 2 ^ 32) filesystemI = some (some 123904) := by
    rfl
  exact .of_inodeAt (fun _ => rfl) hfind (by decide) (.of_oneLeaf (b := 40) (by decide)
    ⟨by decide, by decide⟩ (by decide) (by decide) (by decide) (by decide)
    ⟨⟨by decide, by decide⟩, .cons longNameMount_holds .nil⟩)

/-- The null behind the hundred bytes of the name is written behind the buffer. -/
theorem directs_exceed_scratch :
    IsDirectory longNameMount 2 [longNameEntry] ∧
      ∃ k, ∀ fuel, k ≤ fuel →
        ¬ ScratchWithin longNameMount hurdDirent fuel 2 0 (.fresh fun _ => 0) := by
  obtain ⟨k, hk⟩ := longNameMount_isDirectory.readsEntries fun _ => rfl
  refine ⟨longNameMount_isDirectory, k, fun fuel hfuel hwithin => ?_⟩
  have hout := (hk fuel hfuel).entry 0 longNameEntry (.fresh fun k => Bytes.sparse [] k) 0 rfl
  have hlt := hwithin (Bytes.sparse []) 0 _ _ rfl rfl hout 100
    (mem_written_listInto.mpr (.inr (by decide)))
  omega

end JfsReader
