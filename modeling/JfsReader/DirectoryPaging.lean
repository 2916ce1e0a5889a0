import JfsReader.DirectoryListing

/-!
# Paging through a directory

`diskfs_get_directs` packs the entries from a given position on as records, at
most thirty a call, and a client decodes them and asks again behind the last
one.  On the exit taken at the thirtieth record the byte count is computed
before the record is counted in, so that a full batch shows its client one
record less than it reports.
-/

namespace JfsReader

open StepMachine WriteBuffer

/-- `struct dirent` of the Hurd: `d_ino`, two bytes of `d_reclen`, `d_type`,
`d_namlen` and `d_name`, padded at the end. -/
structure Dirent where
  inoSize : ℕ
  sizeof : ℕ
  inoSize_ge : 4 ≤ inoSize
  name_lt : inoSize + 4 < sizeof
  sizeof_le : sizeof ≤ 2 ^ 15

namespace Dirent

def dIno (_ : Dirent) : ℕ := 0
def dReclen (d : Dirent) : ℕ := d.inoSize
def dType (d : Dirent) : ℕ := d.inoSize + 2
def dNamlen (d : Dirent) : ℕ := d.inoSize + 3
def dName (d : Dirent) : ℕ := d.inoSize + 4

/-- `reclen`, with the rounding `(reclen + 3) & ~3`. -/
def reclen (d : Dirent) (namelen : ℕ) : ℕ := (d.sizeof + namelen + 3) / 4 * 4

end Dirent

def leBytes : ℕ → ℕ → List UInt8
  | 0, _ => []
  | n + 1, v => .ofNat v :: leBytes n (v / 256)

def leValue : List UInt8 → ℕ
  | [] => 0
  | b :: bs => b.toNat + 256 * leValue bs

def dtUnknown : UInt8 := 0

def writeDirent (d : Dirent) (data : Buffer UInt8) (userp namelen gotinum : ℕ)
    (name : Buffer UInt8) : Buffer UInt8 :=
  let data := data.write (userp + d.dType) dtUnknown
  let data := data.writeFrom (userp + d.dReclen) (leBytes 2 (d.reclen namelen))
  let data := data.write (userp + d.dNamlen) (.ofNat namelen)
  let data := data.writeFrom (userp + d.dName) (name.read 0 namelen)
  let data := data.write (userp + d.dName + namelen) 0
  data.writeFrom (userp + d.dIno) (leBytes d.inoSize gotinum)

/-- The offset of the first null, looked for in `limit` bytes. -/
def strlen (limit : ℕ) (cells : ℕ → UInt8) : Option ℕ :=
  (List.range limit).find? fun k => cells k == 0

structure DirectsEnd where
  data : Buffer UInt8
  datacnt : ℕ
  amt : ℕ

/-- The variables of the loop; `datap` is an offset from `*data`. -/
structure DirectsState where
  pos : ℤ
  datap : ℕ
  amt : ℕ
  data : Buffer UInt8
  name : Buffer UInt8
  gotinum : ℕ

/-- One round; `.inr none` when a call was cut off. -/
def directsStep (m : Mount) (d : Dirent) (fuel cacheId : ℕ) (s : DirectsState) :
    DirectsState ⊕ Option DirectsEnd :=
  match readndir m fuel cacheId s.pos s.name s.gotinum with
  | none => .inr none
  | some out =>
      if out.rc = 0 then
        match strlen fuel out.name.cells with
        | none => .inr none
        | some namelen =>
            let data := writeDirent d s.data s.datap namelen out.rino out.name
            let amt := s.amt + 1
            -- this return stands before `datap = datap + reclen`
            if amt ≥ 30 then .inr (some ⟨data, s.datap, amt⟩)
            else .inl ⟨s.pos + 1, s.datap + d.reclen namelen, amt, data, out.name, out.rino⟩
      else .inr (some ⟨s.data, s.datap, s.amt⟩)

/-- The limits `n` and `bufsiz` are not looked at.  When the first allocation
is refused the one in `readndir` is refused as well. -/
def diskfsGetDirects (m : Mount) (d : Dirent) (fuel cacheId : ℕ) (entry _n : ℤ)
    (data : Buffer UInt8) (_bufsiz : ℕ) : Option DirectsEnd :=
  match m.malloc 100 with
  | none => some ⟨data, 0, 0⟩
  | some name =>
      match run (directsStep m d fuel cacheId) fuel
          ⟨entry, 0, 0, data, .fresh fun k => name k, 0⟩ with
      | .inl _ => none
      | .inr out => out

/-! ## The client -/

structure Record where
  ino : ℕ
  name : List UInt8
deriving DecidableEq

def decodeDirent (d : Dirent) (data : Buffer UInt8) (o : ℕ) : Record where
  ino := leValue (data.read (o + d.dIno) d.inoSize)
  name := data.read (o + d.dName) (data.cells (o + d.dNamlen)).toNat

/-- The records in the first `datacnt` bytes, walked by `d_reclen`. -/
def decodeDirents (d : Dirent) (data : Buffer UInt8) (datacnt : ℕ) :
    ℕ → ℕ → Option (List Record)
  | 0, _ => none
  | rounds + 1, o =>
      if o < datacnt then
        (decodeDirents d data datacnt rounds (o + leValue (data.read (o + d.dReclen) 2))).map
          (decodeDirent d data o :: ·)
      else some []

def DirectsEnd.records (out : DirectsEnd) (d : Dirent) : Option (List Record) :=
  decodeDirents d out.data out.datacnt (out.datacnt + 1) 0

/-- Call after call, each time behind the entries already returned. -/
def pageThrough (m : Mount) (d : Dirent) (fuel cacheId : ℕ) (n : ℤ) (data : Buffer UInt8)
    (bufsiz : ℕ) : ℕ → ℤ → Option (List Record)
  | 0, _ => none
  | rounds + 1, entry =>
      match diskfsGetDirects m d fuel cacheId entry n data bufsiz with
      | none => none
      | some out =>
          match out.records d with
          | none => none
          | some records =>
              if out.amt = 0 then some []
              else
                (pageThrough m d fuel cacheId n data bufsiz rounds (entry + out.amt)).map
                  (records ++ ·)

/-! ## Records in a buffer -/

def DirEntry.record (e : DirEntry) : Record := ⟨e.inumber, e.listed⟩

theorem leBytes_length (n v : ℕ) : (leBytes n v).length = n := by
  induction n generalizing v with
  | zero => rfl
  | succ n ih => simp [leBytes, ih]

theorem leValue_leBytes {n v : ℕ} (hv : v < 256 ^ n) : leValue (leBytes n v) = v := by
  induction n generalizing v with
  | zero =>
      simp only [pow_zero] at hv
      simp only [leBytes, leValue]
      omega
  | succ n ih =>
      rw [pow_succ] at hv
      rw [leBytes, leValue, ih (by omega), UInt8.toNat_ofNat']
      omega

structure RecordAt (d : Dirent) (data : Buffer UInt8) (o : ℕ) (r : Record) : Prop where
  decoded : decodeDirent d data o = r
  reclen : leValue (data.read (o + d.dReclen) 2) = d.reclen r.name.length
  ends : data.cells (o + d.dName + r.name.length) = 0

def HoldsRecords (d : Dirent) (data : Buffer UInt8) : List Record → ℕ → ℕ → Prop
  | [], o, stop => o = stop
  | r :: rs, o, stop =>
      RecordAt d data o r ∧ HoldsRecords d data rs (o + d.reclen r.name.length) stop

variable {d : Dirent} {data data' name : Buffer UInt8} {o stop : ℕ} {r : Record}
  {rs : List Record} {e : DirEntry}

theorem Dirent.le_reclen (d : Dirent) (namelen : ℕ) :
    d.sizeof + namelen ≤ d.reclen namelen := by
  unfold Dirent.reclen
  omega

theorem Dirent.reclen_lt (d : Dirent) {namelen : ℕ} (hlen : namelen < 256) :
    d.reclen namelen < 256 ^ 2 := by
  have hsize := d.sizeof_le
  unfold Dirent.reclen
  omega

theorem HoldsString.read {cells : Buffer UInt8} {s : List UInt8}
    (h : HoldsString cells.cells s) : cells.read 0 s.length = s := by
  apply List.ext_getElem (by simp)
  intro k _ hk
  rw [Buffer.getElem_read, Nat.zero_add, h.chars k hk]

theorem HoldsString.strlen {cells : ℕ → UInt8} {s : List UInt8} (h : HoldsString cells s)
    {limit : ℕ} (hlimit : s.length < limit) : JfsReader.strlen limit cells = some s.length := by
  unfold JfsReader.strlen
  rw [List.find?_range_eq_some]
  refine ⟨by simp [h.ends], by simpa using hlimit, ?_⟩
  intro k hk
  have hne := h.nonzero s[k] (List.getElem_mem hk)
  simp [h.chars k hk, hne]

theorem writeDirent_cells_of_lt {userp namelen gotinum k : ℕ} (hk : k < userp) :
    (writeDirent d data userp namelen gotinum name).cells k = data.cells k := by
  unfold writeDirent Dirent.dIno Dirent.dName Dirent.dNamlen Dirent.dType Dirent.dReclen
  dsimp only
  rw [Buffer.cells_writeFrom_of_not_mem (.inl (by omega)),
    Buffer.cells_write_of_ne (by omega),
    Buffer.cells_writeFrom_of_not_mem (.inl (by omega)),
    Buffer.cells_write_of_ne (by omega),
    Buffer.cells_writeFrom_of_not_mem (.inl (by omega)),
    Buffer.cells_write_of_ne (by omega)]

section Fields

variable {userp namelen gotinum : ℕ}

theorem writeDirent_ino :
    (writeDirent d data userp namelen gotinum name).read (userp + d.dIno) d.inoSize =
      leBytes d.inoSize gotinum :=
  Buffer.read_writeFrom (leBytes_length _ _)

theorem writeDirent_reclen :
    (writeDirent d data userp namelen gotinum name).read (userp + d.dReclen) 2 =
      leBytes 2 (d.reclen namelen) := by
  have hbytes := leBytes_length d.inoSize gotinum
  have htwo := leBytes_length 2 (d.reclen namelen)
  unfold writeDirent Dirent.dIno Dirent.dName Dirent.dNamlen Dirent.dType Dirent.dReclen
  dsimp only
  rw [Buffer.read_writeFrom_of_disjoint (.inr (by omega)),
    Buffer.read_write_of_not_mem (.inl (by omega)),
    Buffer.read_writeFrom_of_disjoint (.inl (by omega)),
    Buffer.read_write_of_not_mem (.inl (by omega)), Buffer.read_writeFrom htwo]

theorem writeDirent_namlen :
    (writeDirent d data userp namelen gotinum name).cells (userp + d.dNamlen) =
      .ofNat namelen := by
  have hbytes := leBytes_length d.inoSize gotinum
  unfold writeDirent Dirent.dIno Dirent.dName Dirent.dNamlen Dirent.dType Dirent.dReclen
  dsimp only
  rw [Buffer.cells_writeFrom_of_not_mem (.inr (by omega)),
    Buffer.cells_write_of_ne (by omega),
    Buffer.cells_writeFrom_of_not_mem (.inl (by omega)),
    Buffer.cells_write_self]

theorem writeDirent_name :
    (writeDirent d data userp namelen gotinum name).read (userp + d.dName) namelen =
      name.read 0 namelen := by
  have hbytes := leBytes_length d.inoSize gotinum
  unfold writeDirent Dirent.dIno Dirent.dName Dirent.dNamlen Dirent.dType Dirent.dReclen
  dsimp only
  rw [Buffer.read_writeFrom_of_disjoint (.inr (by omega)),
    Buffer.read_write_of_not_mem (.inl (by omega)), Buffer.read_writeFrom Buffer.length_read]

theorem writeDirent_ends :
    (writeDirent d data userp namelen gotinum name).cells (userp + d.dName + namelen) = 0 := by
  have hbytes := leBytes_length d.inoSize gotinum
  unfold writeDirent Dirent.dIno Dirent.dName Dirent.dNamlen Dirent.dType Dirent.dReclen
  dsimp only
  rw [Buffer.cells_writeFrom_of_not_mem (.inr (by omega)), Buffer.cells_write_self]

end Fields

theorem recordAt_writeDirent (hname : HoldsString name.cells e.listed)
    (hlen : e.listed.length < 256) (hino : e.inumber < 2 ^ 32) :
    RecordAt d (writeDirent d data o e.listed.length e.inumber name) o e.record := by
  have hino' : e.inumber < 256 ^ d.inoSize :=
    calc
      e.inumber < 256 ^ 4 := hino
      _ ≤ 256 ^ d.inoSize := Nat.pow_le_pow_right (by decide) d.inoSize_ge
  refine ⟨?_, ?_, writeDirent_ends⟩
  · unfold decodeDirent DirEntry.record
    rw [writeDirent_ino, leValue_leBytes hino', writeDirent_namlen, UInt8.toNat_ofNat',
      Nat.mod_eq_of_lt hlen, writeDirent_name, hname.read]
  · rw [writeDirent_reclen, leValue_leBytes (d.reclen_lt hlen)]
    rfl

theorem RecordAt.namlen (h : RecordAt d data o r) :
    (data.cells (o + d.dNamlen)).toNat = r.name.length := by
  rw [← h.decoded]
  simp [decodeDirent]

theorem RecordAt.congr (h : RecordAt d data o r)
    (hsame : ∀ k, k < o + d.reclen r.name.length → data'.cells k = data.cells k) :
    RecordAt d data' o r := by
  have hle := d.le_reclen r.name.length
  have hsize := d.name_lt
  have hnamlen : data'.cells (o + d.dNamlen) = data.cells (o + d.dNamlen) := by
    apply hsame
    unfold Dirent.dNamlen
    omega
  have hread : ∀ i n, i + n ≤ o + d.reclen r.name.length → data'.read i n = data.read i n := by
    intro i n hin
    exact Buffer.read_congr fun k hk => hsame (i + k) (by omega)
  refine ⟨?_, ?_, ?_⟩
  · have hdecoded := h.decoded
    unfold decodeDirent at hdecoded ⊢
    rw [hnamlen, hread _ _ (by unfold Dirent.dIno; omega),
      hread _ _ (by rw [h.namlen]; unfold Dirent.dName; omega)]
    exact hdecoded
  · rw [hread _ _ (by unfold Dirent.dReclen; omega)]
    exact h.reclen
  · rw [hsame _ (by unfold Dirent.dName; omega)]
    exact h.ends

namespace HoldsRecords

theorem length_le (h : HoldsRecords d data rs o stop) : o + rs.length ≤ stop := by
  induction rs generalizing o with
  | nil => exact (le_of_eq h)
  | cons r rs ih =>
      have hrest := ih h.2
      have hle := d.le_reclen r.name.length
      have hsize := d.name_lt
      rw [List.length_cons]
      omega

theorem congr (h : HoldsRecords d data rs o stop)
    (hsame : ∀ k, k < stop → data'.cells k = data.cells k) :
    HoldsRecords d data' rs o stop := by
  induction rs generalizing o with
  | nil => exact h
  | cons r rs ih =>
      have hrest := length_le h.2
      exact ⟨h.1.congr fun k hk => hsame k (by omega), ih h.2⟩

theorem snoc (h : HoldsRecords d data rs o stop) (hrecord : RecordAt d data stop r) :
    HoldsRecords d data (rs ++ [r]) o (stop + d.reclen r.name.length) := by
  induction rs generalizing o with
  | nil =>
      obtain rfl : o = stop := h
      exact ⟨hrecord, rfl⟩
  | cons q rs ih => exact ⟨h.1, ih h.2⟩

theorem decodeDirents (h : HoldsRecords d data rs o stop) {rounds : ℕ}
    (hrounds : rs.length < rounds) :
    JfsReader.decodeDirents d data stop rounds o = some rs := by
  induction rs generalizing o rounds with
  | nil =>
      obtain rfl : o = stop := h
      obtain ⟨rounds, rfl⟩ := Nat.exists_eq_succ_of_ne_zero (Nat.ne_of_gt hrounds)
      simp [JfsReader.decodeDirents]
  | cons r rs ih =>
      have hlt := h.length_le
      rw [List.length_cons] at hrounds hlt
      obtain ⟨rounds, rfl⟩ := Nat.exists_eq_succ_of_ne_zero (show rounds ≠ 0 by omega)
      rw [JfsReader.decodeDirents, if_pos (by omega), h.1.reclen, ih h.2 (by omega),
        h.1.decoded]
      rfl

end HoldsRecords

theorem DirectsEnd.records_eq {out : DirectsEnd}
    (h : HoldsRecords d out.data rs 0 out.datacnt) : out.records d = some rs := by
  have hle := h.length_le
  exact h.decodeDirents (by omega)

/-! ## One call -/

structure DirEntry.Listable (e : DirEntry) : Prop extends e.Storable where
  short : e.units.length < 100

/-- What a call that starts at entry `k` returns: the count of the entries left
and their records, or thirty and the records of the first twenty-nine. -/
structure Batch (d : Dirent) (entries : List DirEntry) (k : ℕ) (out : DirectsEnd) : Prop where
  rest : entries.length < k + 30 → out.amt = entries.length - k ∧
    HoldsRecords d out.data ((entries.drop k).map DirEntry.record) 0 out.datacnt
  full : k + 30 ≤ entries.length → out.amt = 30 ∧
    HoldsRecords d out.data (((entries.drop k).take 29).map DirEntry.record) 0 out.datacnt

variable {m : Mount} {fuel cacheId : ℕ} {entries : List DirEntry}

/-- The variables after a round that packs the entry `e`. -/
def DirectsState.pack (d : Dirent) (s : DirectsState) (e : DirEntry) : DirectsState where
  pos := s.pos + 1
  datap := s.datap + d.reclen e.listed.length
  amt := s.amt + 1
  data := writeDirent d s.data s.datap e.listed.length e.inumber (e.listInto s.name)
  name := e.listInto s.name
  gotinum := e.inumber

theorem directsStep_entry (hreads : ReadsEntries m fuel cacheId entries) (hfuel : 256 ≤ fuel)
    {k : ℕ} (he : entries[k]? = some e) (hstore : e.Storable) {s : DirectsState}
    (hpos : s.pos = k) :
    directsStep m d fuel cacheId s =
      if s.amt + 1 ≥ 30 then .inr (some ⟨(s.pack d e).data, s.datap, s.amt + 1⟩)
      else .inl (s.pack d e) := by
  have hlen := e.listed_length_le
  have hlt := hstore.namlen_lt
  have hstring : strlen fuel (e.listInto s.name).cells = some e.listed.length :=
    (DirEntry.listInto_holds hstore.nonzero s.name).strlen (by omega)
  unfold directsStep
  rw [hpos, hreads.entry k e _ _ he]
  simp only [if_true, hstring]
  rw [← hpos]
  rfl

theorem directsStep_refused {s : DirectsState}
    (hrefused : readndir m fuel cacheId s.pos s.name s.gotinum = some ⟨1, s.name, s.gotinum⟩) :
    directsStep m d fuel cacheId s = .inr (some ⟨s.data, s.datap, s.amt⟩) := by
  unfold directsStep
  rw [hrefused]
  rfl

section Packing

variable {es : List DirEntry} {s : DirectsState}

theorem pack_pos : (es.foldl (DirectsState.pack d) s).pos = s.pos + es.length := by
  induction es generalizing s with
  | nil => simp
  | cons e es ih =>
      rw [List.foldl_cons, ih, List.length_cons]
      simp only [DirectsState.pack]
      omega

theorem pack_amt : (es.foldl (DirectsState.pack d) s).amt = s.amt + es.length := by
  induction es generalizing s with
  | nil => rfl
  | cons e es ih =>
      rw [List.foldl_cons, ih, List.length_cons]
      simp only [DirectsState.pack]
      omega

theorem pack_holds (hstore : ∀ e ∈ es, e.Storable) (hheld : HoldsRecords d s.data rs 0 s.datap) :
    HoldsRecords d (es.foldl (DirectsState.pack d) s).data (rs ++ es.map DirEntry.record) 0
      (es.foldl (DirectsState.pack d) s).datap := by
  induction es generalizing s rs with
  | nil => simpa using hheld
  | cons e es ih =>
      have he := hstore e (by simp)
      have hlen := e.listed_length_le
      have hlt := he.namlen_lt
      have hkept : HoldsRecords d (s.pack d e).data rs 0 s.datap :=
        hheld.congr fun i hi => writeDirent_cells_of_lt hi
      have hrecord : RecordAt d (s.pack d e).data s.datap e.record :=
        recordAt_writeDirent (DirEntry.listInto_holds he.nonzero s.name) (by omega) he.inumber_lt
      have hrest := @ih (rs ++ [e.record]) (s.pack d e) (fun e he => hstore e (by simp [he]))
        (hkept.snoc hrecord)
      rwa [List.append_assoc] at hrest

theorem pack_cells {i : ℕ} (hi : i < s.datap) :
    (es.foldl (DirectsState.pack d) s).data.cells i = s.data.cells i := by
  induction es generalizing s with
  | nil => rfl
  | cons e es ih =>
      have hlater : i < (s.pack d e).datap := by
        simp only [DirectsState.pack]
        omega
      rw [List.foldl_cons, ih hlater]
      exact writeDirent_cells_of_lt hi

/-- Any number of rounds short of the thirtieth record. -/
theorem run_directsStep (hreads : ReadsEntries m fuel cacheId entries) (hfuel : 256 ≤ fuel)
    (hstore : ∀ e ∈ entries, e.Storable) {k j : ℕ} (hpos : s.pos = k) (hamt : s.amt + j < 30)
    (hkj : j ≤ entries.length - k) :
    run (directsStep m d fuel cacheId) j s =
      .inl (((entries.drop k).take j).foldl (DirectsState.pack d) s) := by
  induction j generalizing k s with
  | zero => rfl
  | succ j ih =>
      have hk : k < entries.length := by omega
      have he : entries[k]? = some entries[k] := List.getElem?_eq_getElem hk
      have hstep := directsStep_entry (d := d) hreads hfuel he
        (hstore _ (List.getElem_mem hk)) hpos
      rw [if_neg (by omega)] at hstep
      rw [run_succ_of_inl hstep, List.drop_eq_getElem_cons hk, List.take_succ_cons,
        List.foldl_cons]
      refine ih (k := k + 1) ?_ ?_ (by omega)
      · simp only [DirectsState.pack, hpos]
        omega
      · simp only [DirectsState.pack]
        omega

end Packing

/-- The thirtieth record is written, but the byte count stops before it. -/
def packedEnd (d : Dirent) (s : DirectsState) (rest : List DirEntry) : DirectsEnd where
  data := ((rest.take 30).foldl (DirectsState.pack d) s).data
  datacnt := ((rest.take 29).foldl (DirectsState.pack d) s).datap
  amt := s.amt + (rest.take 30).length

def directsStart (entry : ℤ) (data : Buffer UInt8) (name : Bytes) : DirectsState :=
  ⟨entry, 0, 0, data, .fresh fun k => name k, 0⟩

theorem reached_pos {data : Buffer UInt8} {k rounds : ℕ} {name : Bytes}
    (hle : rounds ≤ entries.length - k) :
    (((entries.drop k).take rounds).foldl (DirectsState.pack d)
      (directsStart k data name)).pos = ((k + rounds : ℕ) : ℤ) := by
  rw [pack_pos, List.length_take, List.length_drop, Nat.min_eq_left hle]
  rfl

theorem run_directsStep_full (hreads : ReadsEntries m fuel cacheId entries) (hfuel : 256 ≤ fuel)
    (hstore : ∀ e ∈ entries, e.Storable) {k : ℕ} (hfull : k + 30 ≤ entries.length)
    (data : Buffer UInt8) (name : Bytes) :
    run (directsStep m d fuel cacheId) (29 + 1) (directsStart k data name) =
      .inr (some (packedEnd d (directsStart k data name) (entries.drop k))) := by
  have hk : k + 29 < entries.length := by omega
  have he : entries[k + 29]? = some entries[k + 29] := List.getElem?_eq_getElem hk
  have hlen : ((entries.drop k).take 29).length = 29 := by
    rw [List.length_take, List.length_drop]
    omega
  have htake : (entries.drop k).take 30 = (entries.drop k).take 29 ++ [entries[k + 29]] := by
    rw [List.take_add_one, List.getElem?_drop, he]
    rfl
  have hbefore : run (directsStep m d fuel cacheId) 29 (directsStart k data name) = _ :=
    run_directsStep hreads hfuel hstore rfl (show 0 + 29 < 30 by omega) (by omega)
  have hlast := directsStep_entry (d := d) hreads hfuel he (hstore _ (List.getElem_mem hk))
    (@reached_pos d entries data k 29 name (by omega))
  rw [pack_amt, hlen, if_pos (show (directsStart k data name).amt + 29 + 1 ≥ 30 by omega)]
    at hlast
  rw [run_add_of_inl hbefore, run_succ_of_inr hlast]
  unfold packedEnd
  rw [htake, List.foldl_append, List.length_append, hlen]
  rfl

theorem run_directsStep_rest (hreads : ReadsEntries m fuel cacheId entries) (hfuel : 256 ≤ fuel)
    (hstore : ∀ e ∈ entries, e.Storable) {k : ℕ} (hrest : entries.length < k + 30)
    (data : Buffer UInt8) (name : Bytes) :
    run (directsStep m d fuel cacheId) (entries.length - k + 1) (directsStart k data name) =
      .inr (some (packedEnd d (directsStart k data name) (entries.drop k))) := by
  have hall : ∀ i, entries.length - k ≤ i → (entries.drop k).take i = entries.drop k := by
    intro i hi
    exact List.take_of_length_le (by rw [List.length_drop]; exact hi)
  have hbefore := run_directsStep (d := d) (j := entries.length - k) hreads hfuel hstore
    (s := directsStart k data name) rfl (show 0 + (entries.length - k) < 30 by omega) le_rfl
  have hpos := @reached_pos d entries data k _ name le_rfl
  have hamt := @pack_amt d (entries.drop k) (directsStart k data name)
  rw [List.length_drop] at hamt
  rw [hall _ le_rfl] at hbefore hpos
  generalize hs : (entries.drop k).foldl (DirectsState.pack d) (directsStart k data name) = s
    at hbefore hpos hamt
  have hrefused := directsStep_refused (d := d) (hreads.refused s.pos s.name s.gotinum
    (.inr (by rw [hpos]; omega)))
  rw [run_add_of_inl hbefore, run_succ_of_inr hrefused]
  unfold packedEnd
  rw [hall 30 (by omega), hall 29 (by omega), hs, hamt, List.length_drop]

theorem run_directsStep_end (hreads : ReadsEntries m fuel cacheId entries) (hfuel : 256 ≤ fuel)
    (hstore : ∀ e ∈ entries, e.Storable) (k : ℕ) (data : Buffer UInt8) (name : Bytes) :
    run (directsStep m d fuel cacheId) (min 29 (entries.length - k) + 1)
        (directsStart k data name) =
      .inr (some (packedEnd d (directsStart k data name) (entries.drop k))) := by
  by_cases hfull : k + 30 ≤ entries.length
  · rw [Nat.min_eq_left (by omega)]
    exact run_directsStep_full hreads hfuel hstore hfull data name
  · rw [Nat.min_eq_right (by omega)]
    exact run_directsStep_rest hreads hfuel hstore (by omega) data name

theorem diskfsGetDirects_eq (hmem : m.HasMemory)
    (hreads : ReadsEntries m fuel cacheId entries) (hfuel : 256 ≤ fuel)
    (hstore : ∀ e ∈ entries, e.Storable) (k : ℕ) (n : ℤ) (data : Buffer UInt8) (bufsiz : ℕ) :
    ∃ name, m.malloc 100 = some name ∧
      diskfsGetDirects m d fuel cacheId k n data bufsiz =
        some (packedEnd d (directsStart k data name) (entries.drop k)) := by
  obtain ⟨name, hname⟩ := hmem.exists_malloc 100
  have hrun := run_of_le (run_directsStep_end (d := d) hreads hfuel hstore k data name)
    (show _ ≤ fuel by omega)
  refine ⟨name, hname, ?_⟩
  unfold directsStart at hrun ⊢
  simp only [diskfsGetDirects, hname, hrun]

theorem packedEnd_holds {k : ℕ} (hstore : ∀ e ∈ entries, e.Storable) (data : Buffer UInt8)
    (name : Bytes) :
    HoldsRecords d (packedEnd d (directsStart k data name) (entries.drop k)).data
      (((entries.drop k).take 29).map DirEntry.record) 0
      (packedEnd d (directsStart k data name) (entries.drop k)).datacnt := by
  have hstore' : ∀ e ∈ (entries.drop k).take 29, e.Storable :=
    fun e he => hstore e (List.mem_of_mem_drop (List.mem_of_mem_take he))
  have hheld := @pack_holds d [] _ (directsStart k data name) hstore' rfl
  rw [List.nil_append] at hheld
  -- the thirtieth record is written behind the others
  refine hheld.congr fun i hi => ?_
  unfold packedEnd
  rw [show 30 = 29 + 1 from rfl, List.take_add, List.foldl_append]
  exact pack_cells hi

theorem packedEnd_amt (k : ℕ) (data : Buffer UInt8) (name : Bytes) (rest : List DirEntry) :
    (packedEnd d (directsStart k data name) rest).amt = min 30 rest.length := by
  unfold packedEnd directsStart
  rw [List.length_take]
  exact Nat.zero_add _

theorem packedEnd_batch (hstore : ∀ e ∈ entries, e.Storable) (k : ℕ) (data : Buffer UInt8)
    (name : Bytes) :
    Batch d entries k (packedEnd d (directsStart k data name) (entries.drop k)) := by
  have hheld := packedEnd_holds (d := d) (k := k) hstore data name
  have hamt := packedEnd_amt (d := d) k data name (entries.drop k)
  rw [List.length_drop] at hamt
  refine ⟨?_, ?_⟩
  · intro hlt
    rw [List.take_of_length_le (by rw [List.length_drop]; omega)] at hheld
    exact ⟨by omega, hheld⟩
  · intro hle
    exact ⟨by omega, hheld⟩

theorem diskfsGetDirects_batch (hmem : m.HasMemory)
    (hreads : ReadsEntries m fuel cacheId entries) (hfuel : 256 ≤ fuel)
    (hstore : ∀ e ∈ entries, e.Storable) (k : ℕ) (n : ℤ) (data : Buffer UInt8) (bufsiz : ℕ) :
    ∃ out, diskfsGetDirects m d fuel cacheId k n data bufsiz = some out ∧
      Batch d entries k out := by
  obtain ⟨name, -, hout⟩ :=
    diskfsGetDirects_eq (d := d) hmem hreads hfuel hstore k n data bufsiz
  exact ⟨_, hout, packedEnd_batch hstore k data name⟩

theorem diskfsGetDirects_of_neg (hmem : m.HasMemory)
    (hreads : ReadsEntries m fuel cacheId entries) (hfuel : 100 ≤ fuel) {entry : ℤ}
    (hentry : entry < 0) (n : ℤ) (data : Buffer UInt8) (bufsiz : ℕ) :
    diskfsGetDirects m d fuel cacheId entry n data bufsiz = some ⟨data, 0, 0⟩ := by
  obtain ⟨name, hname⟩ := hmem.exists_malloc 100
  obtain ⟨fuel, rfl⟩ := Nat.exists_eq_succ_of_ne_zero (show fuel ≠ 0 by omega)
  have hstep := directsStep_refused (d := d)
    (s := ⟨entry, 0, 0, data, .fresh fun k => name k, 0⟩)
    (hreads.refused entry _ _ (.inl hentry))
  simp only [diskfsGetDirects, hname, run_succ_of_inr hstep]

/-! ## The client's run -/

theorem Batch.records {k : ℕ} {out : DirectsEnd} (h : Batch d entries k out) :
    ∃ records, out.records d = some records ∧
      (records.length = out.amt ↔ entries.length < k + 30) ∧
      (entries.length < k + 30 → records = (entries.drop k).map DirEntry.record) ∧
      (k + 30 ≤ entries.length → records.length = 29) := by
  by_cases hlt : entries.length < k + 30
  · obtain ⟨hamt, hheld⟩ := h.rest hlt
    refine ⟨_, DirectsEnd.records_eq hheld, ?_, fun _ => rfl, fun hle => by omega⟩
    simp [hamt, hlt]
  · obtain ⟨hamt, hheld⟩ := h.full (by omega)
    have hlen : (((entries.drop k).take 29).map DirEntry.record).length = 29 := by
      rw [List.length_map, List.length_take, List.length_drop]
      omega
    refine ⟨_, DirectsEnd.records_eq hheld, ?_, fun hle => absurd hle hlt, fun _ => hlen⟩
    rw [hlen, hamt]
    omega

theorem pageThrough_records (hmem : m.HasMemory)
    (hreads : ReadsEntries m fuel cacheId entries) (hfuel : 256 ≤ fuel)
    (hlist : ∀ e ∈ entries, e.Listable) (n : ℤ) (data : Buffer UInt8) (bufsiz : ℕ)
    {rounds k : ℕ} (hk : k ≤ entries.length) (hrounds : entries.length < k + rounds) :
    ∃ records, pageThrough m d fuel cacheId n data bufsiz rounds k = some records ∧
      records.length ≤ entries.length - k ∧
      (entries.length < k + 30 → records = (entries.drop k).map DirEntry.record) ∧
      (k + 30 ≤ entries.length → records.length < entries.length - k) := by
  induction rounds generalizing k with
  | zero => omega
  | succ rounds ih =>
      obtain ⟨out, hout, hbatch⟩ :=
        diskfsGetDirects_batch (d := d) hmem hreads hfuel (fun e he => (hlist e he).toStorable) k
          n data bufsiz
      obtain ⟨records, hrecords, -, hrest, hfull⟩ := hbatch.records
      rw [pageThrough, hout]
      dsimp only
      rw [hrecords]
      dsimp only
      by_cases hlt : entries.length < k + 30
      · have hamt := (hbatch.rest hlt).1
        by_cases hzero : out.amt = 0
        · rw [if_pos hzero]
          refine ⟨[], rfl, by simp, fun _ => ?_, fun hle => by omega⟩
          rw [List.drop_eq_nil_of_le (by omega)]
          rfl
        · rw [if_neg hzero]
          obtain ⟨later, hlater, -, hnone, -⟩ := ih (k := k + out.amt) (by omega) (by omega)
          rw [show (k : ℤ) + out.amt = ((k + out.amt : ℕ) : ℤ) by omega, hlater]
          have hnil : later = [] := by
            rw [hnone (by omega), List.drop_eq_nil_of_le (by omega)]
            rfl
          refine ⟨records, by rw [hnil]; simp, ?_, hrest, fun hle => by omega⟩
          rw [hrest hlt, List.length_map, List.length_drop]
      · have hamt := (hbatch.full (by omega)).1
        have hlen := hfull (by omega)
        rw [if_neg (by omega)]
        obtain ⟨later, hlater, hlaterLe, -, -⟩ := ih (k := k + out.amt) (by omega) (by omega)
        rw [show (k : ℤ) + out.amt = ((k + out.amt : ℕ) : ℤ) by omega, hlater]
        refine ⟨records ++ later, rfl, ?_, fun hle => absurd hle hlt, fun _ => ?_⟩
        · rw [List.length_append]
          omega
        · rw [List.length_append]
          omega

/-- Paging through a directory: one call shows as many records as it reports,
and the client obtains every entry once and in order, exactly when fewer than
thirty entries are left. -/
theorem paging_complete_iff (hmem : m.HasMemory) (h : IsDirectory m cacheId entries)
    (hshort : ∀ e ∈ entries, e.units.length < 100) (d : Dirent) :
    ∃ k, ∀ fuel, k ≤ fuel → ∀ (n : ℤ) (data : Buffer UInt8) (bufsiz : ℕ),
      (∀ entry : ℤ, ∃ out records,
        diskfsGetDirects m d fuel cacheId entry n data bufsiz = some out ∧
        out.records d = some records ∧
        (records.length = out.amt ↔ entry < 0 ∨ entries.length < entry + 30)) ∧
      (∀ rounds, entries.length < rounds →
        ∃ records, pageThrough m d fuel cacheId n data bufsiz rounds 0 = some records ∧
          (records = entries.map DirEntry.record ↔ entries.length < 30)) := by
  obtain ⟨k, hk⟩ := h.readsEntries hmem
  have hlist : ∀ e ∈ entries, e.Listable := by
    intro e he
    exact ⟨h.storable he, hshort e he⟩
  refine ⟨max k 256, ?_⟩
  intro fuel hfuel n data bufsiz
  have hreads := hk fuel (by omega)
  constructor
  · intro entry
    by_cases hneg : entry < 0
    · refine ⟨_, [], diskfsGetDirects_of_neg hmem hreads (by omega) hneg n data bufsiz, ?_, ?_⟩
      · rfl
      · simp [hneg]
    · obtain ⟨i, rfl⟩ := Int.eq_ofNat_of_zero_le (show 0 ≤ entry by omega)
      obtain ⟨out, hout, hbatch⟩ :=
        diskfsGetDirects_batch (d := d) hmem hreads (by omega) (fun e he => h.storable he) i n
          data bufsiz
      obtain ⟨records, hrecords, hiff, -, -⟩ := hbatch.records
      refine ⟨out, records, hout, hrecords, hiff.trans ?_⟩
      omega
  · intro rounds hrounds
    obtain ⟨records, hpaged, hle, hrest, hfull⟩ := pageThrough_records (d := d) (k := 0)
      hmem hreads (by omega) hlist n data bufsiz (by omega) (by omega : _ < 0 + rounds)
    refine ⟨records, hpaged, ?_⟩
    constructor
    · intro heq
      by_contra hlt
      have hless := hfull (by omega)
      rw [heq, List.length_map] at hless
      omega
    · intro hlt
      simpa using hrest (by omega)

def hurdDirent : Dirent := ⟨4, 12, by decide, by decide, by decide⟩

theorem paging_complete_twoLeaf :
    ∃ k, ∀ fuel, k ≤ fuel →
      ∃ records, pageThrough twoLeafMount hurdDirent fuel 2 0 (.fresh fun _ => 0) 0 4 0 =
          some records ∧
        records = [⟨5, [97]⟩, ⟨6, [97, 98]⟩, ⟨7, [98, 99]⟩] := by
  obtain ⟨k, hk⟩ := paging_complete_iff (fun _ => rfl) twoLeafMount_isDirectory (by decide)
    hurdDirent
  refine ⟨k, fun fuel hfuel => ?_⟩
  obtain ⟨records, hpaged, hiff⟩ := (hk fuel hfuel 0 (.fresh fun _ => 0) 0).2 4 (by decide)
  exact ⟨records, hpaged, (hiff.mpr (by decide)).trans (by decide)⟩

/-! A directory of thirty entries, in one leaf. -/

def thirtyLeaf (o : ℕ) : UInt8 :=
  let s := o / 32
  if o = 16 then 2
  else if o = 17 then 30
  else if o = 21 then 1
  else if s = 1 ∧ o < 62 then .ofNat (o - 30)
  else if 2 ≤ s ∧ s < 32 then
    match o % 32 with
    | 0 => .ofNat s
    | 4 => 0xFF
    | 5 => 1
    | 6 => .ofNat (63 + s)
    | _ => 0
  else 0

def thirtyMount : Mount where
  image := fun i =>
    if 163840 ≤ i ∧ i < 167936 then thirtyLeaf (i - 163840).toNat
    else Bytes.sparse [(53488, 2), (53490, 3), (53512, 2), (53516, 20), (89088, 4), (89092, 30),
      (123957, 0x40), (124144, 4), (124145, 1), (124152, 1), (124164, 40)] i
  l2bsize := 12
  l2bsize_ge := Mount.pageBlocks_ge
  l2bsize_le := Mount.pageBlocks_le
  malloc := fun _ => some (Bytes.sparse [])

def thirtyEntries : List DirEntry := (List.range 30).map fun k => ⟨[.ofNat (65 + k)], 2 + k⟩

theorem thirtyMount_leafHolds : (thirtyMount.dtpage 40).LeafHolds thirtyEntries := by
  have hslots : ∀ k < 30,
      (thirtyMount.dtpage 40).stbl k < dtPageMaxSlot ∧
      (ldtentry (thirtyMount.dtpage 40).bytes ((thirtyMount.dtpage 40).stbl k)).inumber = 2 + k ∧
      (ldtentry (thirtyMount.dtpage 40).bytes ((thirtyMount.dtpage 40).stbl k)).namlen = 1 ∧
      (ldtentry (thirtyMount.dtpage 40).bytes ((thirtyMount.dtpage 40).stbl k)).next < 0 ∧
      [UInt16.ofNat (65 + k)] <+:
        (ldtentry (thirtyMount.dtpage 40).bytes ((thirtyMount.dtpage 40).stbl k)).units ∧
      UInt16.ofNat (65 + k) ≠ 0 := by
    decide
  have hcount : (thirtyMount.dtpage 40).nextindex = 30 := by decide
  constructor
  · constructor
    · decide
    · rw [hcount]
      exact fun k hk => (hslots k hk).1
  · unfold DtPage.headIndices thirtyEntries
    rw [hcount, List.forall₂_map_left_iff, List.forall₂_map_right_iff, List.forall₂_same]
    intro k hk
    obtain ⟨hlt, hinumber, hnamlen, hnext, hunits, hne⟩ := hslots k (List.mem_range.mp hk)
    refine ⟨hlt, hinumber, hnamlen, ⟨[], .done hnext, by simpa using hunits⟩, by simpa using hne⟩

theorem thirtyMount_isDirectory : IsDirectory thirtyMount 2 thirtyEntries := by
  have hfind : findInode thirtyMount 3 (2 % 2 ^ 32) filesystemI = some (some 123904) := by
    rfl
  exact .of_inodeAt (fun _ => rfl) hfind (by decide) (.of_oneLeaf (b := 40) (by decide)
    ⟨by decide, by decide⟩ (by decide) (by decide) (by decide) (by decide)
    thirtyMount_leafHolds)

/-- The thirtieth entry is counted and not shown. -/
theorem paging_loses_thirtieth :
    IsDirectory thirtyMount 2 thirtyEntries ∧
      (∀ e ∈ thirtyEntries, e.units.length < 100) ∧
      ∃ k, ∀ fuel, k ≤ fuel →
        (∃ out records,
          diskfsGetDirects thirtyMount hurdDirent fuel 2 0 (-1) (.fresh fun _ => 0) 0 =
            some out ∧
          out.records hurdDirent = some records ∧ out.amt = 30 ∧ records.length = 29) ∧
        ∃ records,
          pageThrough thirtyMount hurdDirent fuel 2 (-1) (.fresh fun _ => 0) 0 31 0 =
            some records ∧ records ≠ thirtyEntries.map DirEntry.record := by
  have hlen : thirtyEntries.length = 30 := by decide
  have hlist : ∀ e ∈ thirtyEntries, e.Listable := by
    intro e he
    refine ⟨thirtyMount_isDirectory.storable he, ?_⟩
    obtain ⟨k, -, rfl⟩ := List.mem_map.mp he
    simp
  obtain ⟨k, hk⟩ := thirtyMount_isDirectory.readsEntries fun _ => rfl
  refine ⟨thirtyMount_isDirectory, fun e he => (hlist e he).short, max k 256, ?_⟩
  intro fuel hfuel
  have hreads := hk fuel (by omega)
  constructor
  · obtain ⟨out, hout, hbatch⟩ := diskfsGetDirects_batch (d := hurdDirent) (fun _ => rfl) hreads
      (by omega) (fun e he => (hlist e he).toStorable) 0 (-1) (.fresh fun _ => 0) 0
    obtain ⟨records, hrecords, -, -, hfull⟩ := hbatch.records
    exact ⟨out, records, hout, hrecords, (hbatch.full (by omega)).1, hfull (by omega)⟩
  · obtain ⟨records, hpaged, -, -, hfull⟩ := pageThrough_records (d := hurdDirent) (k := 0)
      (fun _ => rfl) hreads (by omega) hlist (-1) (.fresh fun _ => 0) 0 (by omega)
      (show thirtyEntries.length < 0 + 31 by omega)
    refine ⟨records, hpaged, ?_⟩
    intro heq
    have hless := hfull (by omega)
    rw [heq, List.length_map] at hless
    omega

end JfsReader
