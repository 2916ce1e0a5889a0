import JfsReader.Translator

/-!
# The translator serves the file system on the disk

Each call is traced to its end, first for the state of the node table, then for
what the abstract service says.  The calls end in one way only, so that it is
enough to find one end that the service allows.
-/

namespace JfsReader

open RequestServer FileService WriteBuffer

variable {m : Mount} {store : Store} {w : WordSize} {d : Dirent}
  {fs : FileSystem ℕ (List UInt8) Stat UInt8} {s s' s'' : TranslatorState}
  {t : Handles NodeId ℕ} {call : Call} {reply reply' : Reply} {np dp rootNode : NodeId}
  {inum : ℕ} {name : List UInt8}

/-! ## The calls are determined -/

theorem TranslatorStep.unique (hwithin : call.Within m d s)
    (h : TranslatorStep m store w d s call reply s')
    (h' : TranslatorStep m store w d s call reply' s'') : reply = reply' ∧ s' = s'' := by
  cases h with
  | overrun hnot => exact absurd hwithin hnot
  | lookup hends =>
      cases h' with
      | overrun hnot => exact absurd hwithin hnot
      | lookup hends' =>
          cases hends.unique hends'
          exact ⟨rfl, rfl⟩
  | directs _ hends hrecords =>
      cases h' with
      | overrun hnot => exact absurd hwithin hnot
      | directs _ hends' hrecords' =>
          cases hends.unique hends'
          cases hrecords.symm.trans hrecords'
          exact ⟨rfl, rfl⟩
  | page hstat hreads =>
      cases h' with
      | overrun hnot => exact absurd hwithin hnot
      | page hstat' hreads' =>
          cases hstat.symm.trans hstat'
          cases hreads.unique hreads'
          exact ⟨rfl, rfl⟩
  | stat hstat =>
      cases h' with
      | overrun hnot => exact absurd hwithin hnot
      | stat hstat' =>
          cases hstat.symm.trans hstat'
          exact ⟨rfl, rfl⟩
  | release hrelease =>
      cases h' with
      | overrun hnot => exact absurd hwithin hnot
      | release hrelease' =>
          cases hrelease.symm.trans hrelease'
          exact ⟨rfl, rfl⟩

/-! ## The node table -/

namespace ShowsTable

variable {c : NodeCache} {live : Finset NodeId}

theorem mem_live (h : ShowsTable m fs c live t) (hobject : t.object np = some inum) :
    np ∈ live :=
  (h.object.mp hobject).1

theorem cacheId (h : ShowsTable m fs c live t) (hobject : t.object np = some inum) :
    (c.node np).cacheId = inum :=
  (h.object.mp hobject).2

theorem not_mem_live (h : ShowsTable m fs c live t) (hnone : t.object np = none) :
    np ∉ live := by
  intro hlive
  rw [h.object.mpr ⟨hlive, rfl⟩] at hnone
  cases hnone

theorem tableHas_none (h : ShowsTable m fs c live t) (hnone : ∀ np, t.object np ≠ some inum) :
    TableHas c live inum none :=
  fun np hnp hid => hnone np (h.object.mpr ⟨hnp, hid⟩)

theorem stat (h : ShowsTable m fs c live t) (hfs : Represents m store w fs)
    (hobject : t.object np = some inum) :
    (c.node np).stat = some (fs.attributes inum) := by
  obtain ⟨hlive, rfl⟩ := h.object.mp hobject
  obtain ⟨o, ho⟩ := h.exists_object hlive
  obtain ⟨di, hread, hstat⟩ := h.filled.stat hlive
  obtain ⟨di', hread', hattributes⟩ := hfs.inode ho
  obtain rfl := hread.unique hread'
  rw [hstat, hattributes]

theorem init (c : NodeCache) :
    ShowsTable m fs (inodeInit c) ∅ (Handles.empty : Handles NodeId ℕ) :=
  ⟨⟨_, .init c, by simp, fun _ _ => rfl⟩, by simp [AllFilled], by simp [Handles.empty], by simp⟩

/-- The reference that a lookup adds, on a node that is in the table. -/
theorem addReference (h : ShowsTable m fs c live t) (hobject : t.object np = some inum) :
    ShowsTable m fs (c.addReference np) live (t.hold np inum (.inl hobject)) := by
  obtain ⟨hlive, hid⟩ := h.object.mp hobject
  obtain ⟨rows, hok⟩ := h.handles
  refine ⟨⟨rows, ?_⟩, h.filled.addReference np, ?_, ?_⟩
  · exact hok.setReferences hlive (by rw [hok.references np hlive])
  · intro np' inum'
    change Function.update t.object np (some inum) np' = some inum' ↔ _
    rw [addReference_cacheId, ← h.object]
    by_cases heq : np' = np
    · rw [heq, Function.update_self, hobject]
    · rw [Function.update_of_ne heq]
  · intro np' hnp'
    rw [addReference_cacheId]
    exact h.exists_object hnp'

/-- The node that a lookup makes, fills and puts into the table. -/
theorem insertNode (h : ShowsTable m fs c live t) {di : Dinode} (hread : ReadsInode m inum di)
    {o : FileObject ℕ (List UInt8) UInt8} (ho : fs.object inum = some o)
    (hnew : t.Unbound np inum) :
    ShowsTable m fs (((c.insertNode inum np).fillStat np (.ok di)).addReference np)
      (insert np live) (t.hold np inum (.inr hnew)) := by
  have hfresh := h.not_mem_live hnew.1
  obtain ⟨rows, hok⟩ := h.handles
  have hid : ∀ np', ((((c.insertNode inum np).fillStat np (.ok di)).addReference np).node
      np').cacheId = if np' = np then inum else (c.node np').cacheId := by
    intro np'
    rw [addReference_cacheId, fillStat_cacheId]
    split
    next heq => rw [heq, insertNode_node_self]
    next hne => rw [insertNode_node_of_ne hne]
  refine ⟨⟨_, hok.miss hfresh (h.tableHas_none hnew.2) (.ok di)⟩,
    (h.filled.insertNode hfresh hread).addReference np, ?_, ?_⟩
  · intro np' inum'
    change Function.update t.object np (some inum) np' = some inum' ↔ _
    rw [hid, Finset.mem_insert]
    by_cases heq : np' = np
    · simp [heq]
    · rw [Function.update_of_ne heq, if_neg heq, h.object]
      simp [heq]
  · intro np' hnp'
    rw [hid]
    split
    next => exact ⟨o, ho⟩
    next hne => exact h.exists_object (Finset.mem_of_mem_insert_of_ne hnp' hne)

theorem release (h : ShowsTable m fs c live t) (hheld : t.Holds np inum) :
    ∃ c', releaseHandle np c = some c' ∧
      ShowsTable m fs c' (liveAfterRelease np c live) (t.drop np) := by
  obtain ⟨rows, hok⟩ := h.handles
  obtain ⟨hlive, hsame, c', hrelease, hok'⟩ := hok.release hheld.1
  have hne : (c.node np).references - 1 ≠ 0 := by
    have hcount := hok.references np hlive
    have hpos := hheld.1
    omega
  obtain rfl : c.setReferences np ((c.node np).references - 1) = c' := by
    unfold releaseHandle at hrelease
    simpa [hne] using hrelease
  refine ⟨_, hrelease, ?_⟩
  rw [hsame]
  refine ⟨⟨rows, hok'⟩, ?_, ?_, ?_⟩
  · intro np' hnp'
    rw [setReferences_cacheId, setReferences_keeps Node.dnStat (fun _ _ => rfl)]
    exact h.filled np' hnp'
  · intro np' inum'
    rw [setReferences_cacheId]
    exact h.object
  · intro np' hnp'
    rw [setReferences_cacheId]
    exact h.exists_object hnp'

end ShowsTable

/-! ## Lookups -/

theorem TableOk.diskLookup_ends {c : NodeCache} {rows : Fin inohsz → List NodeId}
    {live : Finset NodeId} (hok : TableOk c rows live) {r : Option NodeId}
    (hr : TableHas c live inum r) {k : ℕ} {found : Option Dinode}
    (hread : m.readInode k inum = some found) (env : LibdiskfsEnv) :
    Ends (fun fuel => diskLookup m fuel inum env c)
      (JfsReader.lookupEnd c inum
        ⟨env.malloc, env.makeNode, readNode env.catchException found⟩ r) := by
  refine ⟨max k ((rows (inohash inum)).length + 1), fun fuel hfuel => ?_⟩
  change (JfsReader.lookupSection fuel inum env c).bind (finishLookup m fuel env c) = _
  rw [hok.lookupSection hr (by omega), Option.bind_some]
  unfold sectionEnd JfsReader.lookupEnd missEnd
  cases r with
  | some np => rfl
  | none =>
      cases env.malloc with
      | false => rfl
      | true =>
          cases env.makeNode with
          | none => rfl
          | some np =>
              simp only [finishLookup, insertNode_node_self,
                readInode_of_le hread (show k ≤ fuel by omega), Option.map_some]

/-- A name with a dot in front that is neither of the two special names. -/
def OrdinaryName (name : List UInt8) : Prop :=
  name.getD 0 0 = 46 → name.length < 256 ∧ name ≠ [46] ∧ name ≠ dotdot

/-- What `loadInode` does with a name. -/
inductive NameBranch
  | again
  | parent
  | self
  | entry
deriving DecidableEq

def nameBranch (rootNode dp : NodeId) (name : List UInt8) : NameBranch :=
  let namelen := name.length % 2 ^ 8
  if namelen = 2 ∧ name.getD 0 0 = 46 ∧ name.getD 1 0 = 46 then
    if dp = rootNode then .again else .parent
  else if namelen = 1 ∧ name.getD 0 0 = 46 then .self
  else .entry

theorem loadInode_eq {S : Type} (ops : LookupOps S) (rootNode dp : NodeId) (name : List UInt8)
    (type : LookupType) (inum : ℕ) (s : S) :
    loadInode ops rootNode dp name type inum (some none) s =
      match nameBranch rootNode dp name with
      | .again => .returned .eagain (some none) s
      | .parent => callCachedLookup ops inum (some none) (ops.unlock dp s)
          fun _ s => (.success, ops.lock dp s)
      | .self => .returned .success (some (some dp)) (ops.nref dp s)
      | .entry => callCachedLookup ops inum (some none) s fun err s => (err, s) := by
  -- `SPEC_DOTDOT` does not fit into the `uint8_t` it is kept in
  have hspec : type.andSpecDotdot % 2 ^ 8 = 0 := by
    unfold LookupType.andSpecDotdot
    cases type.specDotdot <;> rfl
  unfold loadInode nameBranch
  simp only [hspec, ne_eq, not_true_eq_false, if_false]
  split <;> split <;> rfl

theorem nameBranch_ordinary {rootNode : NodeId} (hname : OrdinaryName name) :
    nameBranch rootNode dp name = .entry := by
  unfold nameBranch
  dsimp only
  rw [if_neg, if_neg]
  · rintro ⟨hlen, hdot⟩
    obtain ⟨hshort, hne, -⟩ := hname hdot
    have hmod : name.length % 2 ^ 8 = name.length := Nat.mod_eq_of_lt hshort
    rw [hmod, List.length_eq_one_iff] at hlen
    obtain ⟨b, rfl⟩ := hlen
    exact hne (congrArg (fun b => [b]) hdot)
  · rintro ⟨hlen, hdot, hdot'⟩
    obtain ⟨hshort, -, hne⟩ := hname hdot
    have hmod : name.length % 2 ^ 8 = name.length := Nat.mod_eq_of_lt hshort
    rw [hmod, List.length_eq_two] at hlen
    obtain ⟨a, b, rfl⟩ := hlen
    exact hne (congrArg₂ (fun a b => [a, b]) hdot hdot')

theorem nameBranch_dotdot {rootNode : NodeId} (hdp : dp ≠ rootNode) :
    nameBranch rootNode dp dotdot = .parent :=
  if_neg hdp

theorem loadInode_ordinary {S : Type} (ops : LookupOps S) {rootNode : NodeId}
    (hname : OrdinaryName name) (type : LookupType) (gotinum : ℕ) (s : S) :
    loadInode ops rootNode dp name type gotinum (some none) s =
      callCachedLookup ops gotinum (some none) s fun err s => (err, s) := by
  rw [loadInode_eq, nameBranch_ordinary hname]

section LookupHard

variable {rootNode : NodeId} {cacheId gotinum : ℕ} {type : LookupType} {env : LibdiskfsEnv}
  {nput : NodeId → Option NodeCache → Option NodeCache} {c : NodeCache} {out : LookupEnd}

theorem LookupType.of_refused (htype : type.refused = true) :
    type = ⟨.remove, false⟩ ∨ type.kind = .rename := by
  simpa [LookupType.refused] using htype

theorem LookupType.of_not_refused (htype : type.refused = false) :
    ¬ (type = ⟨.remove, false⟩ ∨ type = ⟨.rename, false⟩) ∧ type.kind ≠ .rename := by
  have hnot : ¬ (type = ⟨.remove, false⟩ ∨ type.kind = .rename) := by
    simpa [LookupType.refused] using htype
  constructor
  · rintro (rfl | rfl)
    · exact hnot (.inl rfl)
    · exact hnot (.inr rfl)
  · exact fun hkind => hnot (.inr hkind)

theorem diskfsLookupHard_refused (htype : type.refused = true) :
    Ends (fun fuel => diskfsLookupHard (diskOps m fuel env nput) m fuel rootNode dp cacheId name
      type (some none) gotinum (some c)) (.returned .erofs (some none) (some c)) := by
  refine ⟨0, fun fuel _ => ?_⟩
  unfold diskfsLookupHard
  rcases LookupType.of_refused htype with rfl | hkind
  · rfl
  · simp [hkind]

theorem diskfsLookupHard_of_found {S : Type} (ops : LookupOps S) (htype : type.refused = false)
    {fuel : ℕ} (hscan : dirscan m fuel cacheId name name.length gotinum = some (.success, inum))
    (s : S) :
    diskfsLookupHard ops m fuel rootNode dp cacheId name type (some none) gotinum s =
      some (loadInode ops rootNode dp name type inum (some none) s) := by
  obtain ⟨hnot, hkind⟩ := LookupType.of_not_refused htype
  unfold diskfsLookupHard
  simp only [hnot, hkind, if_false, hscan, Option.map_some]

theorem diskfsLookupHard_of_missing {S : Type} (ops : LookupOps S)
    (htype : type.refused = false) {fuel : ℕ}
    (hscan : dirscan m fuel cacheId name name.length gotinum = some (.enoent, inum)) (s : S) :
    diskfsLookupHard ops m fuel rootNode dp cacheId name type (some none) gotinum s =
      some (.returned .enoent (some none) s) := by
  obtain ⟨hnot, hkind⟩ := LookupType.of_not_refused htype
  unfold diskfsLookupHard
  simp only [hnot, hkind, if_false, hscan, Option.map_some]

theorem diskfsLookupHard_ordinary (htype : type.refused = false) (hname : OrdinaryName name)
    (hscan : Ends (fun fuel => dirscan m fuel cacheId name name.length gotinum) (.success, inum))
    (hlookup : Ends (fun fuel => diskLookup m fuel inum env c) out) :
    Ends (fun fuel => diskfsLookupHard (diskOps m fuel env nput) m fuel rootNode dp cacheId name
      type (some none) gotinum (some c)) (.returned out.err (some out.npp) (some out.cache)) := by
  obtain ⟨n, hn⟩ := hscan
  obtain ⟨k, hk⟩ := hlookup
  refine ⟨max n k, fun fuel hfuel => ?_⟩
  dsimp only at hn hk ⊢
  rw [diskfsLookupHard_of_found _ htype (hn fuel (by omega)), loadInode_ordinary _ hname]
  unfold callCachedLookup diskOps
  simp only [Option.bind_some, hk fuel (show k ≤ fuel by omega)]

theorem diskfsLookupHard_missing (htype : type.refused = false)
    (hscan : Ends (fun fuel => dirscan m fuel cacheId name name.length gotinum) (.enoent, inum)) :
    Ends (fun fuel => diskfsLookupHard (diskOps m fuel env nput) m fuel rootNode dp cacheId name
      type (some none) gotinum (some c)) (.returned .enoent (some none) (some c)) := by
  obtain ⟨n, hn⟩ := hscan
  refine ⟨n, fun fuel hfuel => ?_⟩
  exact diskfsLookupHard_of_missing _ htype (hn fuel hfuel) _

theorem diskfsLookupHard_self (htype : type.refused = false)
    (hscan : Ends (fun fuel => dirscan m fuel cacheId [46] 1 gotinum) (.success, inum)) :
    Ends (fun fuel => diskfsLookupHard (diskOps m fuel env nput) m fuel rootNode dp cacheId [46]
      type (some none) gotinum (some c))
      (.returned .success (some (some dp)) (some (c.addReference dp))) := by
  obtain ⟨n, hn⟩ := hscan
  refine ⟨n, fun fuel hfuel => ?_⟩
  exact diskfsLookupHard_of_found _ htype (hn fuel hfuel) _

theorem diskfsLookupHard_again (htype : type.refused = false)
    (hscan : Ends (fun fuel => dirscan m fuel cacheId dotdot dotdot.length gotinum)
      (.success, inum)) :
    Ends (fun fuel => diskfsLookupHard (diskOps m fuel env nput) m fuel rootNode rootNode cacheId
      dotdot type (some none) gotinum (some c)) (.returned .eagain (some none) (some c)) := by
  obtain ⟨n, hn⟩ := hscan
  refine ⟨n, fun fuel hfuel => ?_⟩
  have hload : loadInode (diskOps m fuel env nput) rootNode rootNode dotdot type inum (some none)
      (some c) = .returned .eagain (some none) (some c) := by
    simp [loadInode, dotdot]
  rw [← hload]
  exact diskfsLookupHard_of_found _ htype (hn fuel hfuel) _

end LookupHard

/-! ## Names in a directory -/

theorem jfsNaming_answers {e : DirEntry} (hname : ∀ b ∈ name, b ≠ 0) :
    jfsNaming.answers e.pair.1 name = e.answers name := by
  rw [Bool.eq_iff_iff, answers_iff hname]
  simp [jfsNaming, DirEntry.pair]

theorem find?_pair {es : List DirEntry} (hname : ∀ b ∈ name, b ≠ 0) :
    (es.map DirEntry.pair).find? (fun e => jfsNaming.answers e.1 name) =
      (es.find? (·.answers name)).map DirEntry.pair := by
  rw [List.find?_map]
  congr 1
  apply List.find?_congr
  intro e _
  exact jfsNaming_answers hname

theorem DirEntry.ordinaryName {e : DirEntry} (hstore : e.Storable) (hname : ∀ b ∈ name, b ≠ 0)
    (hself : name ≠ [46]) (hparent : name ≠ dotdot) (hanswers : e.answers name = true) :
    OrdinaryName name := by
  intro _
  have hprefix := ((answers_iff hname).mp hanswers).2.length_le
  have hlisted := e.listed_length_le
  have hlt := hstore.namlen_lt
  exact ⟨by omega, hself, hparent⟩

theorem IsDirectory.dirscan_ends {es : List DirEntry} (h : IsDirectory m inum es)
    (hmem : m.HasMemory) (name : List UInt8) (gotinum : ℕ) :
    Ends (fun fuel => JfsReader.dirscan m fuel inum name name.length gotinum)
      (if name.getD 0 0 ≠ 46 ∧ lookupResult es name gotinum = noInum then .enoent else .success,
        lookupResult es name gotinum) := by
  obtain ⟨n, hn⟩ := h.dirscan hmem
  exact ⟨n, fun fuel hfuel => hn fuel hfuel name gotinum⟩

theorem IsDirectory.dirscan_dotted {es : List DirEntry} (h : IsDirectory m inum es)
    (hmem : m.HasMemory) (hdot : name.getD 0 0 = 46) (gotinum : ℕ) :
    ∃ g, Ends (fun fuel => JfsReader.dirscan m fuel inum name name.length gotinum)
      (.success, g) := by
  have hends := h.dirscan_ends hmem name gotinum
  rw [if_neg fun hcond => hcond.1 hdot] at hends
  exact ⟨_, hends⟩

/-- The entry that a name leads to is what `dirscan` comes to. -/
theorem Represents.dirscan_leads (hfs : Represents m store w fs) {i j : ℕ}
    (hleads : fs.Leads jfsNaming i name j) (hself : name ≠ [46]) (gotinum : ℕ) :
    OrdinaryName name ∧
      Ends (fun fuel => dirscan m fuel i name name.length gotinum) (.success, j) ∧
      ∃ o, fs.object j = some o := by
  cases hleads with
  | self => exact absurd rfl hself
  | @entry _ entries e hdir hname _ hparent hfind =>
      obtain ⟨es, hes, hlist, rfl⟩ := hfs.directory hdir
      have hvalid : ∀ b ∈ name, b ≠ 0 := hname
      rw [find?_pair hvalid, Option.map_eq_some_iff] at hfind
      obtain ⟨e', hfind, rfl⟩ := hfind
      have hmem := List.mem_of_find?_eq_some hfind
      have hstore := (hlist e' hmem).toStorable
      have hresult : lookupResult es name gotinum = e'.inumber := by
        unfold lookupResult
        rw [hfind]
      have hends := hes.dirscan_ends hfs.memory name gotinum
      rw [hresult, if_neg fun hcond => hstore.inumber_ne hcond.2] at hends
      have hanswers : e'.answers name = true := by simpa using List.find?_some hfind
      exact ⟨DirEntry.ordinaryName hstore hvalid hself hparent hanswers, hends,
        fs.closed hdir (List.mem_map_of_mem hmem)⟩

theorem Represents.dirscan_misses (hfs : Represents m store w fs) {i : ℕ}
    (hmisses : fs.Misses jfsNaming i name) (gotinum : ℕ) :
    Ends (fun fuel => dirscan m fuel i name name.length gotinum) (.enoent, noInum) := by
  obtain ⟨entries, hdir, hname, hhidden, hne, hfind⟩ := hmisses
  obtain ⟨es, hes, -, rfl⟩ := hfs.directory hdir
  have hvalid : ∀ b ∈ name, b ≠ 0 := hname
  have hnot : name.getD 0 0 ≠ 46 := hhidden
  rw [find?_pair hvalid, Option.map_eq_none_iff] at hfind
  have hresult : lookupResult es name gotinum = noInum := by
    unfold lookupResult
    rw [hfind]
    exact if_neg fun hempty => hne (by rw [hempty]; rfl)
  have hends := hes.dirscan_ends hfs.memory name gotinum
  rwa [hresult, if_pos ⟨hnot, rfl⟩] at hends

/-! ## What is served -/

/-- The call has an end that the service allows, and the states after it agree
again. -/
def Served (m : Mount) (store : Store) (w : WordSize) (d : Dirent)
    (fs : FileSystem ℕ (List UInt8) Stat UInt8) (s : TranslatorState) (t : Handles NodeId ℕ)
    (call : Call) : Prop :=
  ∃ reply s' t', TranslatorStep m store w d s call reply s' ∧
    Step fs jfsNaming t call.toRequest reply.toAnswer t' ∧ Presents m fs s' t'

section Served

variable {type : LookupType} {malloc : Bool} {makeNode : Option NodeId} {gotinum i j : ℕ}

theorem Presents.lookup_ends (h : Presents m fs s t) (hfs : Represents m store w fs)
    (hheld : t.Holds dp i) (hleads : fs.Leads jfsNaming i name j) (hself : name ≠ [46])
    (htype : type.refused = false) {r : Option NodeId}
    (hr : TableHas s.cache s.live j r) (malloc : Bool) (makeNode : Option NodeId) (gotinum : ℕ) :
    ∃ di o out, ReadsInode m j di ∧ fs.object j = some o ∧
      out = lookupEnd s.cache j ⟨malloc, makeNode, .ok di⟩ r ∧
      TranslatorStep m store w d s (.diskfsLookupHard dp name type malloc makeNode gotinum)
        (.lookup out.err out.npp)
        { s with cache := out.cache, live := liveAfterLookup out.npp s.live } := by
  obtain ⟨hname, hscan, o, ho⟩ := hfs.dirscan_leads hleads hself gotinum
  obtain ⟨rows, hok⟩ := h.handles
  obtain ⟨di, hreads, -⟩ := hfs.inode ho
  obtain ⟨k, hread⟩ := hreads
  have hlookup := hok.table.diskLookup_ends hr hread ⟨malloc, makeNode, 0⟩
  rw [← h.cacheId hheld.2] at hscan
  exact ⟨di, o, _, ⟨k, hread⟩, ho, rfl,
    .lookup (diskfsLookupHard_ordinary htype hname hscan hlookup)⟩

theorem Presents.served_known (h : Presents m fs s t) (hfs : Represents m store w fs)
    (hheld : t.Holds dp i) (hleads : fs.Leads jfsNaming i name j) (hself : name ≠ [46])
    (hknown : t.object np = some j) (htype : type.refused = false) :
    Served m store w d fs s t (.diskfsLookupHard dp name type malloc makeNode gotinum) := by
  have hlive := h.mem_live hknown
  obtain ⟨di, o, out, -, -, rfl, hstep⟩ := h.lookup_ends (d := d) (r := some np) hfs hheld hleads
    hself htype ⟨hlive, h.cacheId hknown⟩ malloc makeNode gotinum
  have htable := h.addReference hknown
  rw [← Finset.insert_eq_of_mem hlive] at htable
  refine ⟨_, _, _, hstep, ?_, htable, Handles.hold_object_of_some _ h.root⟩
  simp only [Call.toRequest, htype]
  exact .known hheld hleads hself hknown

theorem Presents.opened_step (h : Presents m fs s t) (hfs : Represents m store w fs)
    (hheld : t.Holds dp i) (hleads : fs.Leads jfsNaming i name j) (hself : name ≠ [46])
    (hnew : t.Unbound np j) (htype : type.refused = false) (gotinum : ℕ) :
    ∃ s', TranslatorStep m store w d s
        (.diskfsLookupHard dp name type true (some np) gotinum) (.lookup .success (some np)) s' ∧
      Presents m fs s' (t.hold np j (.inr hnew)) := by
  obtain ⟨di, o, out, hread, ho, rfl, hstep⟩ := h.lookup_ends (d := d) hfs hheld hleads hself htype
    (h.tableHas_none hnew.2) true (some np) gotinum
  exact ⟨_, hstep, h.insertNode hread ho hnew, Handles.hold_object_of_some _ h.root⟩

theorem Presents.served_opened (h : Presents m fs s t) (hfs : Represents m store w fs)
    (hheld : t.Holds dp i) (hleads : fs.Leads jfsNaming i name j) (hself : name ≠ [46])
    (hnew : t.Unbound np j) (hoffered : offered malloc makeNode = some np)
    (htype : type.refused = false) :
    Served m store w d fs s t (.diskfsLookupHard dp name type malloc makeNode gotinum) := by
  obtain ⟨rfl, rfl⟩ : malloc = true ∧ makeNode = some np := by
    cases malloc with
    | false => cases hoffered
    | true => exact ⟨rfl, hoffered⟩
  obtain ⟨s', hstep, hs'⟩ := h.opened_step (d := d) hfs hheld hleads hself hnew htype gotinum
  refine ⟨_, _, _, hstep, ?_, hs'⟩
  simp only [Call.toRequest, htype]
  exact .opened hheld hleads hself hnew

theorem Presents.served_noMemory (h : Presents m fs s t) (hfs : Represents m store w fs)
    (hheld : t.Holds dp i) (hleads : fs.Leads jfsNaming i name j) (hself : name ≠ [46])
    (hnone : ∀ np, t.object np ≠ some j) (hoffered : offered malloc makeNode = none)
    (htype : type.refused = false) :
    Served m store w d fs s t (.diskfsLookupHard dp name type malloc makeNode gotinum) := by
  obtain ⟨di, o, out, -, -, rfl, hstep⟩ := h.lookup_ends (d := d) hfs hheld hleads hself htype
    (h.tableHas_none hnone) malloc makeNode gotinum
  have hend : lookupEnd s.cache j ⟨malloc, makeNode, .ok di⟩ none =
      ⟨.enomem, none, none, s.cache⟩ := by
    unfold lookupEnd missEnd
    cases malloc with
    | false => rfl
    | true =>
        cases makeNode with
        | none => rfl
        | some np => cases hoffered
  rw [hend] at hstep
  refine ⟨_, _, _, hstep, ?_, h⟩
  simp only [Call.toRequest, htype, hoffered]
  exact .noMemory hheld hleads hself hnone

theorem Presents.served_self (h : Presents m fs s t) (hfs : Represents m store w fs)
    {entries : List (List UInt8 × ℕ)} (hheld : t.Holds dp i)
    (hdir : fs.object i = some (.directory entries)) (htype : type.refused = false) :
    Served m store w d fs s t (.diskfsLookupHard dp [46] type malloc makeNode gotinum) := by
  obtain ⟨es, hes, -, -⟩ := hfs.directory hdir
  obtain ⟨g, hscan⟩ := hes.dirscan_dotted hfs.memory dot_hidden gotinum
  rw [← h.cacheId hheld.2] at hscan
  have htable := h.addReference hheld.2
  rw [← Finset.insert_eq_of_mem (h.mem_live hheld.2)] at htable
  refine ⟨_, _, _, .lookup (diskfsLookupHard_self htype hscan), ?_, htable,
    Handles.hold_object_of_some _ h.root⟩
  simp only [Call.toRequest, htype]
  exact .self hheld hdir

theorem Presents.served_again (h : Presents m fs s t) (hfs : Represents m store w fs)
    (hheld : t.Holds dp fs.root) (htype : type.refused = false) :
    Served m store w d fs s t (.diskfsLookupHard dp dotdot type malloc makeNode gotinum) := by
  obtain rfl : dp = s.diskfsRootNode := t.injective hheld.2 h.root
  obtain ⟨entries, hdir⟩ := fs.root_directory
  obtain ⟨es, hes, -, -⟩ := hfs.directory hdir
  obtain ⟨g, hscan⟩ := hes.dirscan_dotted hfs.memory
    (show dotdot.getD 0 0 = 46 from rfl) gotinum
  rw [← h.cacheId hheld.2] at hscan
  refine ⟨_, _, _, .lookup (diskfsLookupHard_again htype hscan), ?_, h⟩
  simp only [Call.toRequest, htype]
  exact .again hheld

theorem Presents.served_notFound (h : Presents m fs s t) (hfs : Represents m store w fs)
    (hheld : t.Holds dp i) (hmisses : fs.Misses jfsNaming i name)
    (htype : type.refused = false) :
    Served m store w d fs s t (.diskfsLookupHard dp name type malloc makeNode gotinum) := by
  have hscan := hfs.dirscan_misses hmisses gotinum
  rw [← h.cacheId hheld.2] at hscan
  refine ⟨_, _, _, .lookup (diskfsLookupHard_missing htype hscan), ?_, h⟩
  simp only [Call.toRequest, htype]
  exact .notFound hheld hmisses

theorem Presents.served_readOnly (h : Presents m fs s t) (hheld : t.Holds dp i)
    (htype : type.refused = true) :
    Served m store w d fs s t (.diskfsLookupHard dp name type malloc makeNode gotinum) := by
  refine ⟨_, _, _, .lookup (diskfsLookupHard_refused htype), ?_, h⟩
  simp only [Call.toRequest, htype]
  exact .readOnly hheld

/-! ### Entries and pages -/

theorem Batch.listing {entries : List DirEntry} {k : ℕ} {out : DirectsEnd}
    (h : Batch d entries k out) :
    ∃ records, out.records d = some records ∧
      (out.amt, records.map Record.pair) =
        FileService.listing 30 (entries.map DirEntry.pair) k := by
  have hpairs : ∀ es : List DirEntry,
      (es.map DirEntry.record).map Record.pair = es.map DirEntry.pair := by
    intro es
    rw [List.map_map]
    rfl
  unfold FileService.listing
  rw [if_neg (by omega), Int.toNat_natCast]
  simp only [List.length_drop, List.length_map, ← List.map_drop]
  by_cases hlt : entries.length < k + 30
  · obtain ⟨hamt, hheld⟩ := h.rest hlt
    refine ⟨_, DirectsEnd.records_eq hheld, ?_⟩
    rw [hpairs, hamt, if_pos (by omega)]
  · obtain ⟨hamt, hheld⟩ := h.full (by omega)
    refine ⟨_, DirectsEnd.records_eq hheld, ?_⟩
    rw [hpairs, hamt, if_neg (by omega), List.map_take]

theorem IsDirectory.directs_ends {es : List DirEntry} (h : IsDirectory m inum es)
    (hmem : m.HasMemory) (entry n : ℤ) (data : Buffer UInt8) (bufsiz : ℕ) :
    ∃ out records, Ends (fun fuel => diskfsGetDirects m d fuel inum entry n data bufsiz) out ∧
      out.records d = some records ∧
      (out.amt, records.map Record.pair) =
        FileService.listing 30 (es.map DirEntry.pair) entry := by
  obtain ⟨k, hreads⟩ := h.readsEntries hmem
  have hstore : ∀ e ∈ es, e.Storable := fun e he => h.storable he
  by_cases hneg : entry < 0
  · refine ⟨⟨data, 0, 0⟩, [], ⟨max k 100, fun fuel hfuel => ?_⟩, rfl, ?_⟩
    · exact diskfsGetDirects_of_neg hmem (hreads fuel (by omega)) (by omega) hneg n data bufsiz
    · unfold FileService.listing
      rw [if_pos hneg]
      rfl
  · obtain ⟨i, rfl⟩ := Int.eq_ofNat_of_zero_le (show 0 ≤ entry by omega)
    obtain ⟨name, hname⟩ := hmem.exists_malloc 100
    obtain ⟨records, hrecords, hlisting⟩ := (packedEnd_batch (d := d) hstore i data name).listing
    refine ⟨_, records, ⟨max k 256, fun fuel hfuel => ?_⟩, hrecords, hlisting⟩
    obtain ⟨name', hname', hout⟩ := diskfsGetDirects_eq (d := d) hmem (hreads fuel (by omega))
      (by omega) hstore i n data bufsiz
    obtain rfl := Option.some.inj (hname'.symm.trans hname)
    exact hout

theorem IsDirectory.scratchWithin {es : List DirEntry} (h : IsDirectory m inum es)
    (hmem : m.HasMemory) (hlist : ∀ e ∈ es, e.Listable) (entry : ℤ) (data : Buffer UInt8) :
    ∃ n, ∀ fuel, n ≤ fuel → ScratchWithin m d fuel inum entry data := by
  obtain ⟨k, hk⟩ := h.readsEntries hmem
  refine ⟨max k 256, fun fuel hfuel => ?_⟩
  rw [scratchWithin_iff hmem (hk fuel (by omega)) (by omega) (fun e he => h.storable he)]
  intro e he
  exact (hlist e (mem_entriesFrom (List.mem_of_mem_take he))).short

theorem Presents.directs_within (h : Presents m fs s t) (hfs : Represents m store w fs)
    {entries : List (List UInt8 × ℕ)} (hheld : t.Holds dp i)
    (hdir : fs.object i = some (.directory entries)) (entry n : ℤ) (data : Buffer UInt8)
    (bufsiz : ℕ) : (Call.diskfsGetDirects dp entry n data bufsiz).Within m d s := by
  obtain ⟨es, hes, hlist, -⟩ := hfs.directory hdir
  rw [← h.cacheId hheld.2] at hes
  exact hes.scratchWithin hfs.memory hlist entry data

theorem Presents.within (h : Presents m fs s t) (hfs : Represents m store w fs)
    (haccepts : (server fs jfsNaming rootNode).Accepts t call.toRequest) :
    call.Within m d s := by
  obtain ⟨answer, t', hstep⟩ := haccepts
  cases call with
  | diskfsGetDirects dp entry n data bufsiz =>
      cases hstep with
      | list hheld hdir => exact h.directs_within hfs hheld hdir entry n data bufsiz
  | _ => trivial

theorem Presents.directs_step (h : Presents m fs s t) (hfs : Represents m store w fs)
    {entries : List (List UInt8 × ℕ)} (hheld : t.Holds dp i)
    (hdir : fs.object i = some (.directory entries)) (entry n : ℤ) (data : Buffer UInt8)
    (bufsiz : ℕ) :
    ∃ amt records, TranslatorStep m store w d s (.diskfsGetDirects dp entry n data bufsiz)
        (.directs amt records) s ∧
      (amt, records.map Record.pair) = FileService.listing fs.batch entries entry := by
  have hwithin := h.directs_within (d := d) hfs hheld hdir entry n data bufsiz
  obtain ⟨es, hes, -, rfl⟩ := hfs.directory hdir
  obtain ⟨out, records, hends, hrecords, hlisting⟩ :=
    hes.directs_ends (d := d) hfs.memory entry n data bufsiz
  rw [← h.cacheId hheld.2] at hends
  rw [hfs.batch]
  exact ⟨_, _, .directs hwithin hends hrecords, hlisting⟩

theorem Presents.served_list (h : Presents m fs s t) (hfs : Represents m store w fs)
    {entries : List (List UInt8 × ℕ)} (hheld : t.Holds dp i)
    (hdir : fs.object i = some (.directory entries)) (entry n : ℤ) (data : Buffer UInt8)
    (bufsiz : ℕ) : Served m store w d fs s t (.diskfsGetDirects dp entry n data bufsiz) := by
  obtain ⟨amt, records, hstep, hlisting⟩ :=
    h.directs_step (d := d) hfs hheld hdir entry n data bufsiz
  have hspec : Step fs jfsNaming t (.list dp entry) _ t := .list hheld hdir
  rw [← hlisting] at hspec
  exact ⟨_, _, _, hstep, hspec, h⟩

theorem pageBytes_zeroPage : pageBytes zeroPage = List.replicate 4096 0 := by
  rw [List.eq_replicate_iff]
  constructor
  · rw [pageBytes, List.length_map, List.length_range]
    rfl
  · intro b hb
    obtain ⟨k, -, rfl⟩ := List.mem_map.mp hb
    rfl

section Stores

variable {inode : Dinode} {k : ℕ} {content : ℕ → UInt8} {e : Xad}

theorem bsize_eq (hblocks : m.l2bsize = 12) : m.bsize = 4096 := by
  unfold Mount.bsize
  rw [hblocks]
  rfl

theorem StoresBlock.store_block (h : StoresBlock m store inode k content e)
    (hblocks : m.l2bsize = 12) : blockPosition e k / 2 ^ store.log2BlockSize < 2 ^ 31 := by
  have hposition := h.position
  rwa [hblocks, Nat.shiftLeft_eq, Nat.shiftRight_eq_div_pow] at hposition

theorem StoresBlock.byte (h : StoresBlock m store inode k content e)
    (hblocks : m.l2bsize = 12) (htree : XtTree m ⟨inode.diBtroot⟩) {i : ℕ} (hi : i < 4096) :
    content i = m.image (blockPosition e k + i) := by
  obtain ⟨e', he', hcovers, hbyte⟩ := h.bytes i (by rwa [bsize_eq hblocks])
  have hdiv : (k * 4096 + i) / 4096 = k := by omega
  have hmod : (k * 4096 + i) % 4096 = i := by omega
  rw [bsize_eq hblocks, hdiv] at hcovers
  obtain rfl := h.maps.unique htree ⟨he', hcovers⟩
  rw [hbyte, bsize_eq hblocks, hblocks, hdiv, hmod, Nat.shiftLeft_eq]
  rfl

end Stores

/-- What `pager_read_page` returns for a page below the limit. -/
theorem StoresFile.reads {size : ℕ} {block : ℕ → Option (ℕ → UInt8)} {inode : Dinode}
    (h : StoresFile m store inum size block inode) (hblocks : m.l2bsize = 12)
    (hmem : m.HasMemory)
    (hstore : StoreReads m store) {page : ℕ} (haligned : 4096 ∣ page)
    (hlimit : page + 4096 < 2 ^ w.bits) (xaddr : ℤ) (pool : BufPool) :
    ∃ err buf pool', PageReads m store w inum size page xaddr pool (.returned err buf pool') ∧
      (Reply.page err (buf.map pageBytes)).toAnswer =
        match pageOf 4096 size block page with
        | some content => .page content
        | none => .refused .unreadable := by
  have hlt : (size : ℤ) < 2 ^ 63 := by exact_mod_cast h.size_lt
  by_cases hpast : size ≤ page
  · obtain ⟨pool', hreads⟩ := h.file.page_past_end hmem (Int.natCast_nonneg size) hlt
      (by exact_mod_cast hpast) store w xaddr pool
    refine ⟨_, _, _, hreads, ?_⟩
    unfold pageOf
    rw [if_pos hpast, Option.map_some, pageBytes_zeroPage]
    rfl
  · have hbefore : (page : ℤ) < size := by exact_mod_cast Nat.lt_of_not_le hpast
    unfold pageOf
    rw [if_neg hpast]
    cases hblock : block (page / 4096) with
    | none =>
        obtain ⟨pool', hreads⟩ := h.file.hole_refused hmem hlt hbefore (h.hole _ hblock) store w
          xaddr pool
        exact ⟨_, _, _, hreads, rfl⟩
    | some content =>
        obtain ⟨e, he⟩ := h.block _ _ hblock
        obtain ⟨buf, pool', hreads, hbytes⟩ := h.file.mapped_page hmem hstore hlt hbefore
          he.maps (he.store_block hblocks) w xaddr pool
        refine ⟨_, _, _, hreads, ?_⟩
        rw [Option.map_some]
        refine congrArg Answer.page (List.map_congr_left fun k hk => ?_)
        have hk : k < 4096 := List.mem_range.mp hk
        have hpage : page < 2 ^ w.bits := by omega
        have hoverrun := overrunOf_eq hlt (Nat.mod_eq_zero_of_dvd haligned) hpage hbefore
        rw [if_neg (show page + 4096 ≠ 2 ^ w.bits by omega)] at hoverrun
        rw [hbytes k hk, hoverrun, he.byte hblocks h.file.tree hk]
        exact if_congr (by omega) rfl rfl

theorem Presents.page_step (h : Presents m fs s t) (hfs : Represents m store w fs) {size : ℕ}
    {block : ℕ → Option (ℕ → UInt8)} (hheld : t.Holds np i)
    (hfile : fs.object i = some (.file size block)) {page : ℕ} (haligned : fs.pageSize ∣ page)
    (hlimit : page + fs.pageSize < fs.limit) (xaddr : ℤ) :
    ∃ err buf pool, TranslatorStep m store w d s (.pagerReadPage np page xaddr) (.page err buf)
        { s with pool := pool } ∧
      (Reply.page err buf).toAnswer = match pageOf fs.pageSize size block page with
        | some content => .page content
        | none => .refused .unreadable := by
  obtain rfl := h.cacheId hheld.2
  obtain ⟨inode, hstores⟩ := hfs.file hfile
  obtain ⟨di, hread, hattributes⟩ := hfs.inode hfile
  obtain rfl := hread.unique hstores.file.reads
  have hsize : (fs.attributes (s.cache.node np).cacheId).stSize = size := by
    have hmode := hstores.file.mode
    rw [hattributes, ← hstores.diSize]
    unfold readStat
    exact if_neg (by rw [hmode]; decide)
  have haligned' : 4096 ∣ page := hfs.pageSize ▸ haligned
  have hlimit' : page + 4096 < 2 ^ w.bits := hfs.pageSize ▸ hfs.limit ▸ hlimit
  obtain ⟨err, buf, pool', hreads, hanswer⟩ :=
    hstores.reads hfs.blocks hfs.memory hfs.reads haligned' hlimit' xaddr s.pool
  rw [← hsize] at hreads
  rw [hfs.pageSize]
  exact ⟨_, _, _, .page (h.stat hfs hheld.2) hreads, hanswer⟩

theorem Presents.served_page (h : Presents m fs s t) (hfs : Represents m store w fs) {size : ℕ}
    {block : ℕ → Option (ℕ → UInt8)} (hheld : t.Holds np i)
    (hfile : fs.object i = some (.file size block)) {page : ℕ} (haligned : fs.pageSize ∣ page)
    (hlimit : page + fs.pageSize < fs.limit) (xaddr : ℤ) :
    Served m store w d fs s t (.pagerReadPage np page xaddr) := by
  obtain ⟨err, buf, pool, hstep, hanswer⟩ :=
    h.page_step (d := d) hfs hheld hfile haligned hlimit xaddr
  refine ⟨_, _, _, hstep, ?_, ⟨h.toShowsTable, h.root⟩⟩
  rw [hanswer]
  cases hpage : pageOf fs.pageSize size block page with
  | some content => exact .page hheld hfile haligned hlimit hpage
  | none => exact .unreadable hheld hfile haligned hlimit hpage

theorem Presents.served_attributes (h : Presents m fs s t) (hfs : Represents m store w fs)
    (hheld : t.Holds np i) : Served m store w d fs s t (.dnStat np) :=
  ⟨_, _, _, .stat (h.stat hfs hheld.2), .attributes hheld, h⟩

theorem Presents.served_release (h : Presents m fs s t) (hheld : t.Holds np i) :
    Served m store w d fs s t (.diskfsNput np) := by
  obtain ⟨c, hrelease, htable⟩ := h.release hheld
  exact ⟨_, _, _, .release hrelease, .release hheld, htable, h.root⟩

end Served

/-- Whatever the service accepts is served. -/
theorem Presents.served (h : Presents m fs s t) (hfs : Represents m store w fs)
    (haccepts : (server fs jfsNaming rootNode).Accepts t call.toRequest) :
    Served m store w d fs s t call := by
  obtain ⟨answer, t', hstep⟩ := haccepts
  cases call with
  | diskfsLookupHard dp name type malloc makeNode gotinum =>
      cases htype : type.refused with
      | true =>
          simp only [Call.toRequest, htype] at hstep
          cases hstep with
          | readOnly hheld => exact h.served_readOnly hheld htype
      | false =>
          generalize hrequest : (Call.diskfsLookupHard dp name type malloc makeNode
            gotinum).toRequest = request at hstep
          simp only [Call.toRequest, htype] at hrequest
          generalize hoffered : offered malloc makeNode = fresh at hrequest
          cases hrequest
          cases hstep with
          | again hheld => exact h.served_again hfs hheld htype
          | self hheld hdir => exact h.served_self hfs hheld hdir htype
          | known hheld hleads hself hknown =>
              exact h.served_known hfs hheld hleads hself hknown htype
          | opened hheld hleads hself hnew =>
              exact h.served_opened hfs hheld hleads hself hnew hoffered htype
          | noMemory hheld hleads hself hnone =>
              exact h.served_noMemory hfs hheld hleads hself hnone hoffered htype
          | notFound hheld hmisses => exact h.served_notFound hfs hheld hmisses htype
  | diskfsGetDirects dp entry n data bufsiz =>
      cases hstep with
      | list hheld hdir => exact h.served_list hfs hheld hdir entry n data bufsiz
  | pagerReadPage np page xaddr =>
      cases hstep with
      | page hheld hfile haligned hlimit _ =>
          exact h.served_page hfs hheld hfile haligned hlimit xaddr
      | unreadable hheld hfile haligned hlimit _ =>
          exact h.served_page hfs hheld hfile haligned hlimit xaddr
  | dnStat np =>
      cases hstep with
      | attributes hheld => exact h.served_attributes hfs hheld
  | diskfsNput np =>
      cases hstep with
      | release hheld => exact h.served_release hheld

theorem TranslatorStarted.presents (hstarted : TranslatorStarted m rootNode s)
    (hfs : Represents m store w fs) : Presents m fs s (started fs rootNode) := by
  obtain ⟨c, out, hends, hcache, hlive, hroot⟩ := hstarted
  obtain ⟨entries, hdir⟩ := fs.root_directory
  obtain ⟨di, hread, -⟩ := hfs.inode hdir
  have hnew := Handles.unbound_empty (η := NodeId) rootNode fs.root
  have hinit : ShowsTable m fs (inodeInit c) ∅ Handles.empty := .init c
  have htable := hinit.insertNode hread hdir hnew
  obtain ⟨k, hk⟩ := hread
  have hout := (TableOk.init c).diskLookup_ends (r := none) (fun np hnp => nomatch hnp) hk
    ⟨true, some rootNode, 0⟩
  rw [← hfs.root] at hends
  obtain rfl := hends.unique hout
  refine ⟨?_, ?_⟩
  · rw [hcache, hlive]
    exact htable
  · rw [hroot]
    exact Handles.hold_object_self (.inr hnew)

/-- The translator is the abstract service for the file system on its disk. -/
theorem translator_implements (hfs : Represents m store w fs) (d : Dirent)
    (rootNode : NodeId) :
    Implements (translator m store w d rootNode) (server fs jfsNaming rootNode) Call.toRequest
      Reply.toAnswer (Presents m fs) :=
  .of_served (fun h haccepts => TranslatorStep.unique (h.within hfs haccepts))
    (fun hstarted => ⟨_, rfl, hstarted.presents hfs⟩)
    fun h haccepts => h.served hfs haccepts

theorem translator_starts (hfs : Represents m store w fs) (d : Dirent) (rootNode : NodeId) :
    ∃ s, (translator m store w d rootNode).Session [] s ∧
      Presents m fs s (started fs rootNode) := by
  obtain ⟨entries, hdir⟩ := fs.root_directory
  obtain ⟨di, ⟨k, hk⟩, -⟩ := hfs.inode hdir
  have hends := (TableOk.init blankCache).diskLookup_ends (r := none) (fun np hnp => nomatch hnp) hk
    ⟨true, some rootNode, 0⟩
  rw [hfs.root] at hends
  have hstarted : TranslatorStarted m rootNode ⟨_, emptyPool, {rootNode}, rootNode⟩ :=
    ⟨blankCache, _, hends, rfl, rfl, rfl⟩
  exact ⟨_, ⟨_, hstarted, .nil⟩, hstarted.presents hfs⟩

/-! A root directory with the entries "a", for a file of six bytes in block 50, and "b", for a
directory with the one entry "c". -/

def smallTreeMount : Mount where
  image := Bytes.sparse [(53488, 2), (53490, 3), (53512, 2), (53516, 20), (89088, 4), (89092, 30),
    (123957, 0x40), (124144, 2), (124145, 2), (124148, 2), (124152, 1), (124153, 2),
    (124160, 3), (124164, 0xFF), (124165, 1), (124166, 97),
    (124192, 4), (124196, 0xFF), (124197, 1), (124198, 98),
    (124440, 6), (124469, 0x80), (124656, 2), (124658, 3), (124680, 1), (124684, 50),
    (124981, 0x40), (125168, 2), (125169, 1), (125172, 2), (125176, 1),
    (125184, 5), (125188, 0xFF), (125189, 1), (125190, 99), (125493, 0x10),
    (204800, 104), (204801, 105)]
  l2bsize := 12
  l2bsize_ge := Mount.pageBlocks_ge
  l2bsize_le := Mount.pageBlocks_le
  malloc := fun _ => some (Bytes.sparse [])

def smallTreeBlock (k : ℕ) : Option (ℕ → UInt8) :=
  if k = 0 then some fun i => smallTreeMount.image (204800 + i) else none

def smallTreeEntries : ℕ → List DirEntry
  | 2 => [⟨[97], 3⟩, ⟨[98], 4⟩]
  | 4 => [⟨[99], 5⟩]
  | _ => []

def smallTreeObject : ℕ → Option (FileObject ℕ (List UInt8) UInt8)
  | 2 => some (.directory [([97], 3), ([98], 4)])
  | 3 => some (.file 6 smallTreeBlock)
  | 4 => some (.directory [([99], 5)])
  | 5 => some .special
  | _ => none

def smallTreeInode (inum : ℕ) : Dinode := smallTreeMount.inodeAt (122880 + 512 * inum)

theorem smallTreeObject_directory {inum : ℕ} {entries : List (List UInt8 × ℕ)}
    (h : smallTreeObject inum = some (.directory entries)) :
    (inum = 2 ∨ inum = 4) ∧ entries = (smallTreeEntries inum).map DirEntry.pair := by
  unfold smallTreeObject at h
  split at h <;> cases h
  · exact ⟨.inl rfl, rfl⟩
  · exact ⟨.inr rfl, rfl⟩

theorem smallTreeObject_file {inum size : ℕ} {block : ℕ → Option (ℕ → UInt8)}
    (h : smallTreeObject inum = some (.file size block)) :
    inum = 3 ∧ size = 6 ∧ block = smallTreeBlock := by
  unfold smallTreeObject at h
  split at h <;> cases h
  exact ⟨rfl, rfl, rfl⟩

theorem smallTreeEntries_closed {inum : ℕ} {e : DirEntry} (hinum : inum = 2 ∨ inum = 4)
    (he : e ∈ smallTreeEntries inum) :
    e.units.length < 100 ∧ inum < e.inumber ∧ ∃ o, smallTreeObject e.inumber = some o := by
  rcases hinum with rfl | rfl
  · rcases List.mem_cons.mp he with rfl | he
    · exact ⟨by decide, by decide, _, rfl⟩
    · rcases List.mem_singleton.mp he with rfl
      exact ⟨by decide, by decide, _, rfl⟩
  · rcases List.mem_singleton.mp he with rfl
    exact ⟨by decide, by decide, _, rfl⟩

theorem smallTreeEntries_ascii {inum : ℕ} {e : DirEntry} (hinum : inum = 2 ∨ inum = 4)
    (he : e ∈ smallTreeEntries inum) : ∀ b ∈ e.listed, b < 128 := by
  have hlisted : ∀ e ∈ smallTreeEntries 2 ++ smallTreeEntries 4,
      e.listed.all (· < 128) = true := by decide
  have hmem : e ∈ smallTreeEntries 2 ++ smallTreeEntries 4 := by
    rcases hinum with rfl | rfl
    · exact List.mem_append_left _ he
    · exact List.mem_append_right _ he
  simpa using hlisted e hmem

theorem smallTreeEntries_ordinary {inum : ℕ} {e : DirEntry} (hinum : inum = 2 ∨ inum = 4)
    (he : e ∈ smallTreeEntries inum) : e.listed ≠ [46] ∧ e.listed ≠ dotdot := by
  rcases hinum with rfl | rfl <;> revert e <;> decide

theorem smallTreeObject_closed {inum : ℕ} {entries : List (List UInt8 × ℕ)}
    {e : List UInt8 × ℕ} (h : smallTreeObject inum = some (.directory entries))
    (he : e ∈ entries) : ∃ o, smallTreeObject e.2 = some o := by
  obtain ⟨hinum, rfl⟩ := smallTreeObject_directory h
  obtain ⟨e, he', rfl⟩ := List.mem_map.mp he
  exact (smallTreeEntries_closed hinum he').2.2

theorem smallTreeObject_root : ∃ entries, smallTreeObject 2 = some (.directory entries) :=
  ⟨_, rfl⟩

def smallTree : FileSystem ℕ (List UInt8) Stat UInt8 where
  root := 2
  object := smallTreeObject
  attributes := fun inum => readStat inum (smallTreeInode inum)
  pageSize := 4096
  limit := 2 ^ 64
  batch := 30
  root_directory := smallTreeObject_root
  closed := smallTreeObject_closed

theorem smallTree_leads_file : smallTree.Leads jfsNaming 2 [97] 3 := by
  have hdir : smallTree.object 2 = some (.directory [([97], 3), ([98], 4)]) := rfl
  exact .entry (e := ([97], 3)) hdir (by simp [jfsNaming]) (by decide) (by decide) (by decide)

theorem smallTree_leads_directory : smallTree.Leads jfsNaming 2 [98] 4 := by
  have hdir : smallTree.object 2 = some (.directory [([97], 3), ([98], 4)]) := rfl
  exact .entry (e := ([98], 4)) hdir (by simp [jfsNaming]) (by decide) (by decide) (by decide)

theorem smallTree_leads_below : smallTree.Leads jfsNaming 4 [99] 5 := by
  have hdir : smallTree.object 4 = some (.directory [([99], 5)]) := rfl
  exact .entry (e := ([99], 5)) hdir (by simp [jfsNaming]) (by decide) (by decide) (by decide)

theorem smallTree_reads {inum : ℕ} (hinum : inum ∈ [2, 3, 4, 5]) :
    ReadsInode smallTreeMount inum (smallTreeInode inum) := by
  have hfind : findInode smallTreeMount 3 (inum % 2 ^ 32) filesystemI =
      some (some (122880 + 512 * inum : ℕ)) := by
    fin_cases hinum <;> rfl
  exact .of_findInode (fun _ => rfl) hfind

theorem smallTree_isRoot : IsDirectory smallTreeMount 2 (smallTreeEntries 2) := by
  have hfind : findInode smallTreeMount 3 (2 % 2 ^ 32) filesystemI = some (some 123904) := rfl
  have hheads : (DtRoot.mk (smallTreeInode 2).diBtroot).headIndices = [1, 2] := rfl
  have hfirst : HoldsEntry (smallTreeInode 2).diBtroot dtRootMaxSlot 1 ⟨[97], 3⟩ :=
    ⟨by decide, by decide, by decide, ⟨[], .done (by decide), by decide⟩, by simp⟩
  have hsecond : HoldsEntry (smallTreeInode 2).diBtroot dtRootMaxSlot 2 ⟨[98], 4⟩ :=
    ⟨by decide, by decide, by decide, ⟨[], .done (by decide), by decide⟩, by simp⟩
  refine .of_inodeAt (fun _ => rfl) hfind (by decide) ?_
  exact .inline (by decide) ⟨by decide, by decide⟩ (hheads ▸ .cons hfirst (.cons hsecond .nil))

theorem smallTree_isSubdirectory : IsDirectory smallTreeMount 4 (smallTreeEntries 4) := by
  have hfind : findInode smallTreeMount 3 (4 % 2 ^ 32) filesystemI = some (some 124928) := rfl
  have hheads : (DtRoot.mk (smallTreeInode 4).diBtroot).headIndices = [1] := rfl
  have hholds : HoldsEntry (smallTreeInode 4).diBtroot dtRootMaxSlot 1 ⟨[99], 5⟩ :=
    ⟨by decide, by decide, by decide, ⟨[], .done (by decide), by decide⟩, by simp⟩
  refine .of_inodeAt (fun _ => rfl) hfind (by decide) ?_
  exact .inline (by decide) ⟨by decide, by decide⟩ (hheads ▸ .cons hholds .nil)

theorem smallTree_isRegularFile : IsRegularFile smallTreeMount 3 (smallTreeInode 3) := by
  refine ⟨smallTree_reads (by decide), by decide, ?_, ?_⟩
  · refine .leaf (by decide) (by decide) ⟨by decide, by decide, ?_⟩
    have hnext : (XtPage.mk (smallTreeInode 3).diBtroot).nextindex = 3 := by decide
    intro i j hlo hij hhi
    have hstart : xtEntryStart = 2 := rfl
    omega
  · intro hinternal
    exact absurd hinternal (by decide)

theorem smallTree_maps_iff (k : ℕ) (e : Xad) :
    MapsBlock smallTreeMount (smallTreeInode 3) k e ↔
      k = 0 ∧ e = (XtPage.mk (smallTreeInode 3).diBtroot).xad 2 := by
  have hoffset : offsetXAD ((XtPage.mk (smallTreeInode 3).diBtroot).xad 2) = 0 := by decide
  have hlength : lengthXAD ((XtPage.mk (smallTreeInode 3).diBtroot).xad 2) = 1 := by decide
  have hnext : (XtPage.mk (smallTreeInode 3).diBtroot).nextindex = 3 := by decide
  constructor
  · rintro ⟨hextent, hlo, hhi⟩
    cases hextent with
    | child hleaf => exact absurd hleaf (by decide)
    | @leaf _ i _ hfirst hlast =>
        rw [hnext] at hlast
        have hstart : xtEntryStart = 2 := rfl
        obtain rfl : i = 2 := by omega
        rw [hoffset, hlength] at hhi
        exact ⟨by omega, rfl⟩
  · rintro ⟨rfl, rfl⟩
    exact ⟨.leaf (by decide) (by decide) (by decide), by rw [hoffset],
      by rw [hoffset, hlength]; decide⟩

theorem smallTree_storesFile :
    StoresFile smallTreeMount (imageStore smallTreeMount.image 9) 3 6 smallTreeBlock
      (smallTreeInode 3) where
  file := smallTree_isRegularFile
  diSize := by decide
  size_lt := by decide
  hole := by
    intro k hk e hmaps
    obtain ⟨rfl, -⟩ := (smallTree_maps_iff k e).mp hmaps
    cases hk
  block := by
    intro k content hk
    have haddress : addressXAD ((XtPage.mk (smallTreeInode 3).diBtroot).xad 2) = 50 := by decide
    have hoffset : offsetXAD ((XtPage.mk (smallTreeInode 3).diBtroot).xad 2) = 0 := by decide
    by_cases hzero : k = 0
    · subst hzero
      cases hk
      have hmaps := (smallTree_maps_iff 0 _).mpr ⟨rfl, rfl⟩
      refine ⟨_, hmaps, ?_, fun i hi => ⟨_, hmaps.1, ?_, ?_⟩⟩
      · rw [haddress, hoffset]
        decide
      all_goals
        rw [bsize_eq rfl] at hi
        rw [bsize_eq rfl, show (0 * 4096 + i) / 4096 = 0 by omega]
      · exact hmaps.2
      · rw [haddress, hoffset, show (0 * 4096 + i) % 4096 = i by omega]
        rfl
    · rw [smallTreeBlock, if_neg hzero] at hk
      cases hk

theorem smallTree_represents :
    Represents smallTreeMount (imageStore smallTreeMount.image 9) .w64 smallTree where
  memory := fun _ => rfl
  reads := imageStore_reads (by decide) (by decide)
  blocks := rfl
  root := rfl
  pageSize := rfl
  limit := rfl
  batch := rfl
  inode := by
    intro inum o ho
    change smallTreeObject inum = some o at ho
    refine ⟨_, smallTree_reads ?_, rfl⟩
    unfold smallTreeObject at ho
    split at ho <;> first | decide | cases ho
  directory := by
    intro inum entries hdir
    obtain ⟨hinum, rfl⟩ := smallTreeObject_directory hdir
    have hisDirectory : IsDirectory smallTreeMount inum (smallTreeEntries inum) := by
      rcases hinum with rfl | rfl
      · exact smallTree_isRoot
      · exact smallTree_isSubdirectory
    exact ⟨_, hisDirectory, fun e he => ⟨hisDirectory.storable he,
      (smallTreeEntries_closed hinum he).1⟩, rfl⟩
  file := by
    intro inum size block hfile
    obtain ⟨rfl, rfl, rfl⟩ := smallTreeObject_file hfile
    exact ⟨_, smallTree_storesFile⟩

end JfsReader
