import JfsReader.FileClients
import JfsReader.TranslatorRefinement

/-!
# Sessions with the translator

What holds in every session whose client keeps to the contract of the abstract
service, with any number of clients whose calls follow one another in any order.
-/

namespace JfsReader

open RequestServer FileService WriteBuffer

/-- The log as the abstract service reads it. -/
def exchanges (log : List (Call × Reply)) :
    List (Request NodeId (List UInt8) × Answer NodeId ℕ (List UInt8) Stat UInt8) :=
  log.map (Prod.map Call.toRequest Reply.toAnswer)

/-- No call has come that the abstract service would not accept. -/
def KeepsContract (fs : FileSystem ℕ (List UInt8) Stat UInt8) (rootNode : NodeId)
    (log : List (Call × Reply)) : Prop :=
  ¬ BreaksContract (server fs jfsNaming rootNode) Call.toRequest Reply.toAnswer log

/-- The directories are strictly sorted by ASCII names, and "." and ".." are not
among them. -/
structure OrderedDirectories (fs : FileSystem ℕ (List UInt8) Stat UInt8) : Prop where
  sorted : ∀ {inum entries}, fs.object inum = some (.directory entries) →
    entries.Pairwise fun d e => d.1 < e.1
  ascii : ∀ {inum entries e}, fs.object inum = some (.directory entries) → e ∈ entries →
    ∀ b ∈ e.1, b < 128
  ordinary : ∀ {inum entries e}, fs.object inum = some (.directory entries) → e ∈ entries →
    e.1 ≠ [46] ∧ e.1 ≠ dotdot

/-- The node is in the table, and a client has a reference to it. -/
def TranslatorState.Held (s : TranslatorState) (np : NodeId) : Prop :=
  np ∈ s.live ∧ 1 < (s.cache.node np).references

variable {m : Mount} {store : Store} {w : WordSize} {d : Dirent} {rootNode : NodeId}
  {fs : FileSystem ℕ (List UInt8) Stat UInt8} {s : TranslatorState} {t : Handles NodeId ℕ}
  {log : List (Call × Reply)} {np : NodeId} {inum : ℕ}

theorem exchanges_append (log log' : List (Call × Reply)) :
    exchanges (log ++ log') = exchanges log ++ exchanges log' :=
  List.map_append

theorem keepsContract_of_session
    (hlog : (server fs jfsNaming rootNode).Session (exchanges log) t) :
    KeepsContract fs rootNode log :=
  (server_determined rootNode).keepsContract hlog

theorem Represents.presents (hfs : Represents m store w fs)
    (hsession : (translator m store w d rootNode).Session log s)
    (hkeeps : KeepsContract fs rootNode log) :
    ∃ t, (server fs jfsNaming rootNode).Session (exchanges log) t ∧ Presents m fs s t :=
  ((translator_implements hfs d rootNode).session hsession).resolve_right hkeeps

theorem Presents.holds (h : Presents m fs s t) (hheld : s.Held np) :
    t.Holds np (s.cache.node np).cacheId := by
  obtain ⟨rows, hok⟩ := h.handles
  refine ⟨?_, h.object.mpr ⟨hheld.1, rfl⟩⟩
  have hcount := hok.references np hheld.1
  have hreferences := hheld.2
  omega

theorem Presents.held (h : Presents m fs s t) (hheld : t.Holds np inum) : s.Held np := by
  obtain ⟨rows, hok⟩ := h.handles
  have hlive := h.mem_live hheld.2
  refine ⟨hlive, ?_⟩
  rw [hok.references np hlive]
  exact Nat.succ_lt_succ hheld.1

/-- A node that is free for the next lookup. -/
theorem Presents.exists_free (h : Presents m fs s t) : ∃ np, t.object np = none := by
  obtain ⟨np, hnp⟩ := Infinite.exists_notMem_finset s.live
  refine ⟨np, ?_⟩
  cases hobject : t.object np with
  | none => rfl
  | some inum => exact absurd (h.mem_live hobject) hnp

/-- Every session with the translator is one with the abstract service of the
file system on the disk, after which every call that the service accepts is
served, exactly as long as no call comes that the service does not accept. -/
theorem translator_sessions (hfs : Represents m store w fs)
    (hsession : (translator m store w d rootNode).Session log s) :
    KeepsContract fs rootNode log ↔
      ∃ t, (server fs jfsNaming rootNode).Session (exchanges log) t ∧ Presents m fs s t ∧
        ∀ call, (server fs jfsNaming rootNode).Accepts t call.toRequest →
          Served m store w d fs s t call := by
  constructor
  · intro hkeeps
    obtain ⟨t, hlog, hpresents⟩ := hfs.presents hsession hkeeps
    exact ⟨t, hlog, hpresents, fun call haccepts => hpresents.served hfs haccepts⟩
  · rintro ⟨t, hlog, -⟩
    exact keepsContract_of_session hlog

theorem smallTree_ordered : OrderedDirectories smallTree := by
  refine ⟨?_, ?_, ?_⟩
  · intro inum entries hdir
    obtain ⟨hinum, rfl⟩ := smallTreeObject_directory hdir
    rcases hinum with rfl | rfl
    · exact List.pairwise_pair.mpr (by decide)
    · exact List.pairwise_singleton _ _
  · intro inum entries e hdir he b hb
    obtain ⟨hinum, rfl⟩ := smallTreeObject_directory hdir
    obtain ⟨e, he', rfl⟩ := List.mem_map.mp he
    exact smallTreeEntries_ascii hinum he' b hb
  · intro inum entries e hdir he
    obtain ⟨hinum, rfl⟩ := smallTreeObject_directory hdir
    obtain ⟨e, he', rfl⟩ := List.mem_map.mp he
    exact smallTreeEntries_ordinary hinum he'

abbrev smallTranslator : Server TranslatorState Call Reply :=
  translator smallTreeMount (imageStore smallTreeMount.image 9) .w64 hurdDirent 0

/-- "b" and "b/c" are looked up, between a listing of the root and a lookup of
"a", and the page of "a" is read. -/
def smallTreeLog (page : List UInt8) : List (Call × Reply) :=
  [(.diskfsLookupHard 0 [98] ⟨.lookup, false⟩ true (some 6) 9, .lookup .success (some 6)),
    (.diskfsGetDirects 0 0 0 (.fresh fun _ => 0) 0, .directs 2 [⟨3, [97]⟩, ⟨4, [98]⟩]),
    (.diskfsLookupHard 0 [97] ⟨.lookup, false⟩ true (some 5) 9, .lookup .success (some 5)),
    (.diskfsLookupHard 6 [99] ⟨.lookup, false⟩ true (some 7) 9, .lookup .success (some 7)),
    (.pagerReadPage 5 0 0, .page .success (some page))]

theorem smallTree_session :
    ∃ page s t, smallTranslator.Session (smallTreeLog page) s ∧
      (server smallTree jfsNaming 0).Session (exchanges (smallTreeLog page)) t ∧
      Presents smallTreeMount smallTree s t ∧ t.Holds 0 2 ∧ t.Holds 5 3 ∧ t.Holds 6 4 := by
  have htype : LookupType.refused ⟨.lookup, false⟩ = false := rfl
  obtain ⟨s, hsession, hs⟩ := translator_starts smallTree_represents hurdDirent 0
  have hroot : (started smallTree 0).Holds 0 2 := Handles.hold_holds _
  have hnew : (started smallTree 0).Unbound 6 4 := started_unbound (by decide) (by decide)
  have hnew₁ := (started_unbound (show 5 ≠ 0 by decide) (show 3 ≠ smallTree.root by decide)).hold
    (show 5 ≠ 6 by decide) (show 3 ≠ 4 by decide) (.inr hnew)
  have hnew₂ := ((started_unbound (show 7 ≠ 0 by decide)
    (show 5 ≠ smallTree.root by decide)).hold (show 7 ≠ 6 by decide) (show 5 ≠ 4 by decide)
    (.inr hnew)).hold (show 7 ≠ 5 by decide) (show 5 ≠ 3 by decide) (.inr hnew₁)
  obtain ⟨s₁, hopens, hs₁⟩ := hs.opened_step (d := hurdDirent) smallTree_represents hroot
    smallTree_leads_directory (by decide) hnew htype 9
  have hroot₁ := hroot.hold (.inr hnew)
  have hdirectory := Handles.hold_holds (.inr hnew)
  have hdir : smallTree.object 2 = some (.directory [([97], 3), ([98], 4)]) := rfl
  obtain ⟨amt, records, hlists, hlisting⟩ := hs₁.directs_step (d := hurdDirent)
    smallTree_represents hroot₁ hdir 0 0 (.fresh fun _ => 0) 0
  obtain ⟨hamt, hrecords⟩ := Prod.mk.inj hlisting
  obtain rfl : amt = 2 := hamt
  obtain rfl : records = [⟨3, [97]⟩, ⟨4, [98]⟩] :=
    Record.pair_injective.list_map hrecords
  obtain ⟨s₂, hopens₁, hs₂⟩ := hs₁.opened_step (d := hurdDirent) smallTree_represents hroot₁
    smallTree_leads_file (by decide) hnew₁ htype 9
  have hfile := Handles.hold_holds (.inr hnew₁)
  obtain ⟨s₃, hopens₂, hs₃⟩ := hs₂.opened_step (d := hurdDirent) smallTree_represents
    (hdirectory.hold (.inr hnew₁)) smallTree_leads_below (by decide) hnew₂ htype 9
  have hcontent : smallTree.object 3 = some (.file 6 smallTreeBlock) := rfl
  have haligned : smallTree.pageSize ∣ 0 := Nat.dvd_zero _
  obtain ⟨err, buf, pool, hreads, hanswer⟩ := hs₃.page_step (d := hurdDirent)
    smallTree_represents (hfile.hold (.inr hnew₂)) hcontent haligned (by decide) 0
  obtain ⟨page, hpage⟩ : ∃ page, pageOf smallTree.pageSize 6 smallTreeBlock 0 = some page := by
    unfold pageOf
    rw [if_neg (by decide), Nat.zero_div]
    exact ⟨_, rfl⟩
  rw [hpage] at hanswer
  obtain ⟨rfl, rfl⟩ : err = .success ∧ buf = some page := by
    cases buf <;> cases err <;> cases hanswer
    exact ⟨rfl, rfl⟩
  have hruns : smallTranslator.Runs s (smallTreeLog page) _ :=
    .cons hopens (.cons hlists (.cons hopens₁ (.cons hopens₂ (.cons hreads .nil))))
  refine ⟨page, _, _, hsession.append hruns, ⟨_, rfl, ?_⟩, ⟨hs₃.toShowsTable, hs₃.root⟩,
    (hroot₁.hold _).hold _, hfile.hold _, (hdirectory.hold _).hold _⟩
  exact .cons (.opened hroot smallTree_leads_directory (by decide) hnew)
    (.cons (.list hroot₁ hdir)
    (.cons (.opened hroot₁ smallTree_leads_file (by decide) hnew₁)
    (.cons (.opened (hdirectory.hold _) smallTree_leads_below (by decide) hnew₂)
    (.cons (.page (hfile.hold _) hcontent haligned (by decide) hpage) .nil))))

theorem translator_sessions_smallTree :
    ∃ page s t, smallTranslator.Session (smallTreeLog page) s ∧
      (server smallTree jfsNaming 0).Session (exchanges (smallTreeLog page)) t ∧
      ∀ call, (server smallTree jfsNaming 0).Accepts t call.toRequest →
        Served smallTreeMount (imageStore smallTreeMount.image 9) .w64 hurdDirent smallTree s t
          call := by
  obtain ⟨page, s, t, hsession, hlog, -⟩ := smallTree_session
  obtain ⟨t', hlog', -, hserved⟩ := (translator_sessions smallTree_represents hsession).mp
    (keepsContract_of_session hlog)
  exact ⟨page, s, t', hsession, hlog', hserved⟩

/-! ## Paths -/

theorem OrderedDirectories.exact (h : OrderedDirectories fs) (hfs : Represents m store w fs) :
    fs.Exact jfsNaming := by
  intro inum entries hdir e he
  obtain ⟨hself, hparent⟩ := h.ordinary hdir he
  have hvalid : jfsNaming.valid e.1 := by
    obtain ⟨es, -, hlist, rfl⟩ := hfs.directory hdir
    obtain ⟨e', he', rfl⟩ := List.mem_map.mp he
    exact DirEntry.listed_nonzero (hlist e' he').nonzero
  have hascii := h.ascii hdir he
  have hanswers : ∀ d : List UInt8 × ℕ, jfsNaming.answers d.1 e.1 = true ↔ e.1 <+: d.1 := by
    intro d
    simp only [jfsNaming, Bool.and_eq_true, List.all_eq_true, decide_eq_true_eq,
      List.isPrefixOf_iff_prefix]
    exact and_iff_right hascii
  refine ⟨hvalid, hself, hparent, ?_⟩
  have hsorted := h.sorted hdir
  obtain ⟨before, after, rfl⟩ := List.append_of_mem he
  -- an entry in front of it begins with the name only if it comes after it
  have hnone : before.find? (fun d => jfsNaming.answers d.1 e.1) = none := by
    rw [List.find?_eq_none]
    intro d hd hmatch
    have hlt := (List.pairwise_append.mp hsorted).2.2 d hd e (by simp)
    exact ((hanswers d).mp hmatch).le hlt
  rw [List.find?_append, hnone, List.find?_cons, (hanswers e).mpr (List.prefix_refl _)]
  rfl

theorem lookup_supply {s : TranslatorState} {t : Handles NodeId ℕ} (np : NodeId)
    (name : List UInt8) (h : Presents m fs s t) :
    ∃ call g, Call.toRequest call = .lookup np name false (some g) ∧ t.object g = none := by
  obtain ⟨g, hg⟩ := h.exists_free
  exact ⟨.diskfsLookupHard np name ⟨.lookup, false⟩ true (some g) 0, g, rfl, hg⟩

/-- Whatever has been asked for before, every path in the tree can be opened
from a node that is held, and leads to the node of its inode. -/
theorem translator_opens_path (hfs : Represents m store w fs) (hdirs : OrderedDirectories fs)
    (hsession : (translator m store w d rootNode).Session log s)
    (hkeeps : KeepsContract fs rootNode log) (hheld : s.Held np) {names : List (List UInt8)}
    (hpath : fs.Path (s.cache.node np).cacheId names inum) :
    ∃ log' s' np', (translator m store w d rootNode).Session (log ++ log') s' ∧
      KeepsContract fs rootNode (log ++ log') ∧ Opens (exchanges log') np names np' ∧
      s'.Held np' ∧ (s'.cache.node np').cacheId = inum ∧
      (s'.cache.node np').stat = some (fs.attributes inum) := by
  obtain ⟨t, hlog, hpresents⟩ := hfs.presents hsession hkeeps
  obtain ⟨log', s', t', np', hruns, hruns', hpresents', hopens, hheld'⟩ :=
    opens_path (translator_implements hfs d rootNode) lookup_supply
      (hpath.walk (hdirs.exact hfs)) hpresents (hpresents.holds hheld)
  refine ⟨log', s', np', hsession.append hruns, ?_, hopens, hpresents'.held hheld',
    hpresents'.cacheId hheld'.2, hpresents'.stat hfs hheld'.2⟩
  refine keepsContract_of_session (t := t') ?_
  rw [exchanges_append]
  exact hlog.append hruns'

theorem smallTree_path : smallTree.Path 2 [[98], [99]] 5 := by
  have hroot : smallTree.object 2 = some (.directory [([97], 3), ([98], 4)]) := rfl
  have hbelow : smallTree.object 4 = some (.directory [([99], 5)]) := rfl
  exact .cons (e := ([98], 4)) hroot (by simp) (.cons (e := ([99], 5)) hbelow (by simp) .nil)

theorem translator_opens_path_smallTree :
    ∃ log s np, smallTranslator.Session log s ∧ Opens (exchanges log) 0 [[98], [99]] np ∧
      (s.cache.node np).cacheId = 5 := by
  obtain ⟨page, s, t, hsession, hlog, hs, hroot, -⟩ := smallTree_session
  have hpath : smallTree.Path (s.cache.node 0).cacheId [[98], [99]] 5 := by
    rw [hs.cacheId hroot.2]
    exact smallTree_path
  obtain ⟨log', s', np, hsession', -, hopens, -, hid, -⟩ := translator_opens_path
    smallTree_represents smallTree_ordered hsession (keepsContract_of_session hlog)
    (hs.held hroot) hpath
  refine ⟨_, s', np, hsession', hopens.mono ?_, hid⟩
  rw [exchanges_append]
  exact List.subset_append_right _ _

/-- The lookups of a path may be spread over the log in any way, between the
calls of other clients: the last node is the one of the path's inode. -/
theorem translator_opened_path (hfs : Represents m store w fs)
    (hdirs : OrderedDirectories fs)
    (hsession : (translator m store w d rootNode).Session log s)
    (hkeeps : KeepsContract fs rootNode log) (hlive : np ∈ s.live) {names : List (List UInt8)}
    (hpath : fs.Path (s.cache.node np).cacheId names inum) {np' : NodeId}
    (hopens : Opens (exchanges log) np names np') :
    np' ∈ s.live ∧ (s.cache.node np').cacheId = inum ∧
      (s.cache.node np').stat = some (fs.attributes inum) := by
  obtain ⟨t, ⟨v, -, hruns⟩, hpresents⟩ := hfs.presents hsession hkeeps
  obtain ⟨j, hj, hwalk⟩ := hopens.walk hruns (hpresents.object.mpr ⟨hlive, rfl⟩)
  obtain rfl := hwalk.unique (hpath.walk (hdirs.exact hfs))
  exact ⟨hpresents.mem_live hj, hpresents.cacheId hj, hpresents.stat hfs hj⟩

theorem translator_opened_path_smallTree :
    ∃ page s, smallTranslator.Session (smallTreeLog page) s ∧
      Opens (exchanges (smallTreeLog page)) 0 [[98], [99]] 7 ∧
      (s.cache.node 7).cacheId = 5 := by
  obtain ⟨page, s, t, hsession, hlog, hs, hroot, -⟩ := smallTree_session
  have hpath : smallTree.Path (s.cache.node 0).cacheId [[98], [99]] 5 := by
    rw [hs.cacheId hroot.2]
    exact smallTree_path
  have hfirst : (.lookup 0 [98] false (some 6), .found 6) ∈ exchanges (smallTreeLog page) :=
    .head _
  have hsecond : (.lookup 6 [99] false (some 7), .found 7) ∈ exchanges (smallTreeLog page) :=
    .tail _ (.tail _ (.tail _ (.head _)))
  have hopens : Opens (exchanges (smallTreeLog page)) 0 [[98], [99]] 7 :=
    .cons hfirst (.cons hsecond .nil)
  obtain ⟨-, hid, -⟩ := translator_opened_path smallTree_represents smallTree_ordered hsession
    (keepsContract_of_session hlog) (hs.mem_live hroot.2) hpath hopens
  exact ⟨page, s, hsession, hopens, hid⟩

/-! ## Listings -/

/-- What a directory lists under a name is what the name is looked up to, in
whatever order this is asked for: the name is never reported as missing, and
`d_ino` is the `st_ino` of the node. -/
theorem translator_lists_inodes (hfs : Represents m store w fs)
    (hdirs : OrderedDirectories fs)
    (hsession : (translator m store w d rootNode).Session log s)
    (hkeeps : KeepsContract fs rootNode log) {entry n : ℤ} {data : Buffer UInt8} {bufsiz amt : ℕ}
    {records : List Record} {r : Record}
    (hlist : (.diskfsGetDirects np entry n data bufsiz, .directs amt records) ∈ log)
    (hr : r ∈ records) {type : LookupType} {malloc : Bool} {makeNode : Option NodeId}
    {gotinum : ℕ} {err : ErrorT} {npp : Option NodeId}
    (hlookup : (.diskfsLookupHard np r.name type malloc makeNode gotinum, .lookup err npp) ∈ log) :
    err ≠ .enoent ∧ ∀ np', err = .success → npp = some np' →
      ∃ st, (s.cache.node np').stat = some st ∧ st.stIno = r.ino := by
  obtain ⟨t, ⟨v, -, hruns⟩, hpresents⟩ := hfs.presents hsession hkeeps
  have hlist' := List.mem_map_of_mem (f := Prod.map Call.toRequest Reply.toAnswer) hlist
  have hlookup' := List.mem_map_of_mem (f := Prod.map Call.toRequest Reply.toAnswer) hlookup
  obtain ⟨hfound, hleads⟩ := listed_leads (hdirs.exact hfs) hruns hlist'
    (List.mem_map_of_mem hr) hlookup'
  constructor
  · rintro rfl
    exact hfound rfl
  · rintro np' rfl rfl
    have hobject := hleads np' rfl
    refine ⟨_, hpresents.stat hfs hobject, ?_⟩
    obtain ⟨hlive, hid⟩ := hpresents.object.mp hobject
    obtain ⟨o, ho⟩ := hpresents.exists_object hlive
    rw [hid] at ho
    obtain ⟨di, -, hattributes⟩ := hfs.inode ho
    rw [hattributes]
    rfl

theorem translator_lists_inodes_smallTree :
    ∃ page s st, smallTranslator.Session (smallTreeLog page) s ∧
      (s.cache.node 5).stat = some st ∧ st.stIno = 3 := by
  obtain ⟨page, s, t, hsession, hlog, -⟩ := smallTree_session
  have hlist : (.diskfsGetDirects 0 0 0 (.fresh fun _ => 0) 0,
      .directs 2 [⟨3, [97]⟩, ⟨4, [98]⟩]) ∈ smallTreeLog page := .tail _ (.head _)
  have hlookup : (.diskfsLookupHard 0 [97] ⟨.lookup, false⟩ true (some 5) 9,
      .lookup .success (some 5)) ∈ smallTreeLog page := .tail _ (.tail _ (.head _))
  obtain ⟨-, hfound⟩ := translator_lists_inodes (r := ⟨3, [97]⟩) smallTree_represents
    smallTree_ordered hsession (keepsContract_of_session hlog) hlist List.mem_cons_self hlookup
  obtain ⟨st, hstat, hino⟩ := hfound 5 rfl rfl
  exact ⟨page, s, st, hsession, hstat, hino⟩

theorem list_supply (np : NodeId) (position : ℤ) :
    ∃ call, Call.toRequest call = .list np position :=
  ⟨.diskfsGetDirects np position (-1) (.fresh fun _ => 0) 0, rfl⟩

theorem Represents.shown (hfs : Represents m store w fs) {entries all : List (List UInt8 × ℕ)}
    (hdir : fs.object inum = some (.directory entries))
    (hall : all = shownFrom fs.batch 0 entries) :
    ∃ es, IsDirectory m inum es ∧ all = shownFrom 30 0 (es.map DirEntry.pair) ∧
      (all = es.map DirEntry.pair ↔ es.length < 30) := by
  obtain ⟨es, hes, -, rfl⟩ := hfs.directory hdir
  rw [hfs.batch] at hall
  refine ⟨es, hes, hall, ?_⟩
  rw [hall, shownFrom_eq_self_iff (by decide), List.length_map]

/-- A client that reads a directory from its beginning, each time from where the
answer before left off and between the calls of other clients, is shown all its
entries but every thirtieth one, in their order. -/
theorem translator_directory_read (hfs : Represents m store w fs)
    (hsession : (translator m store w d rootNode).Session log s)
    (hkeeps : KeepsContract fs rootNode log) (hlive : np ∈ s.live)
    {entries all : List (List UInt8 × ℕ)}
    (hdir : fs.object (s.cache.node np).cacheId = some (.directory entries))
    (hreads : ReadsDirectory (exchanges log) np 0 all) :
    ∃ es, IsDirectory m (s.cache.node np).cacheId es ∧
      all = shownFrom 30 0 (es.map DirEntry.pair) ∧
      (all = es.map DirEntry.pair ↔ es.length < 30) := by
  obtain ⟨t, ⟨v, -, hruns⟩, hpresents⟩ := hfs.presents hsession hkeeps
  have hbatch : 0 < fs.batch := hfs.batch ▸ (by decide : 0 < 30)
  have hobject := hpresents.object.mpr ⟨hlive, rfl⟩
  exact hfs.shown hdir
    (hreads.shown hruns hobject hdir hbatch Nat.cast_zero.symm (.inl (Nat.dvd_zero _)))

theorem translator_directory_read_smallTree :
    ∃ log s all es, smallTranslator.Session log s ∧ ReadsDirectory (exchanges log) 0 0 all ∧
      IsDirectory smallTreeMount 2 es ∧ all = shownFrom 30 0 (es.map DirEntry.pair) := by
  obtain ⟨page, s, t, hsession, hlog, hs, hroot, -⟩ := smallTree_session
  have hdir : smallTree.object 2 = some (.directory [([97], 3), ([98], 4)]) := rfl
  obtain ⟨log', s', all, hruns, hs', hruns', hreads⟩ := reads_directory
    (translator_implements smallTree_represents hurdDirent 0) list_supply hdir (by decide) hs
    hroot 0
  have hkeeps : KeepsContract smallTree 0 (smallTreeLog page ++ log') := by
    refine keepsContract_of_session (t := t) ?_
    rw [exchanges_append]
    exact hlog.append hruns'
  have hreads' : ReadsDirectory (exchanges (smallTreeLog page ++ log')) 0 0 all := by
    rw [exchanges_append]
    exact hreads.mono (List.subset_append_right _ _)
  have hid := hs'.cacheId hroot.2
  obtain ⟨es, hes, hall, -⟩ := translator_directory_read smallTree_represents
    (hsession.append hruns) hkeeps (hs'.mem_live hroot.2) (hid ▸ hdir) hreads'
  rw [hid] at hes
  exact ⟨_, s', all, es, hsession.append hruns, hreads', hes, hall⟩

/-- Whatever has been asked for before, a directory can be read to its end. -/
theorem translator_reads_directory (hfs : Represents m store w fs)
    (hsession : (translator m store w d rootNode).Session log s)
    (hkeeps : KeepsContract fs rootNode log) (hheld : s.Held np)
    {entries : List (List UInt8 × ℕ)}
    (hdir : fs.object (s.cache.node np).cacheId = some (.directory entries)) :
    ∃ log' s' es, (translator m store w d rootNode).Session (log ++ log') s' ∧
      KeepsContract fs rootNode (log ++ log') ∧ IsDirectory m (s.cache.node np).cacheId es ∧
      ReadsDirectory (exchanges log') np 0 (shownFrom 30 0 (es.map DirEntry.pair)) := by
  obtain ⟨t, hlog, hpresents⟩ := hfs.presents hsession hkeeps
  have hbatch : 0 < fs.batch := hfs.batch ▸ (by decide : 0 < 30)
  have hheld' := hpresents.holds hheld
  obtain ⟨log', s', all, hruns, -, hruns', hreads⟩ := reads_directory
    (translator_implements hfs d rootNode) list_supply hdir hbatch hpresents hheld' 0
  obtain ⟨es, hes, hall, -⟩ := hfs.shown hdir
    (hreads.shown hruns' hheld'.2 hdir hbatch Nat.cast_zero.symm (.inl (Nat.dvd_zero _)))
  refine ⟨log', s', es, hsession.append hruns, ?_, hes, hall ▸ hreads⟩
  refine keepsContract_of_session (t := t) ?_
  rw [exchanges_append]
  exact hlog.append hruns'

theorem translator_reads_directory_smallTree :
    ∃ log s es, smallTranslator.Session log s ∧ IsDirectory smallTreeMount 4 es ∧
      ReadsDirectory (exchanges log) 6 0 (shownFrom 30 0 (es.map DirEntry.pair)) := by
  obtain ⟨page, s, t, hsession, hlog, hs, -, -, hheld⟩ := smallTree_session
  have hid := hs.cacheId hheld.2
  have hdir : smallTree.object (s.cache.node 6).cacheId = some (.directory [([99], 5)]) := by
    rw [hid]
    rfl
  obtain ⟨log', s', es, hsession', -, hes, hreads⟩ := translator_reads_directory
    smallTree_represents hsession (keepsContract_of_session hlog) (hs.held hheld) hdir
  rw [hid] at hes
  refine ⟨_, s', es, hsession', hes, hreads.mono ?_⟩
  rw [exchanges_append]
  exact List.subset_append_right _ _

/-! ## Files -/

/-- The pages of the file from the first one on, by calls anywhere in the log. -/
def PagesRead (log : List (Call × Reply)) (np : NodeId) (n : ℕ) (pages : ℕ → List UInt8) :
    Prop :=
  ∀ k, k < n → ∃ xaddr,
    (.pagerReadPage np (k * 4096) xaddr, .page .success (some (pages k))) ∈ log

/-- The bytes of the file as its extents give them. -/
def FileBytes (m : Mount) (inode : Dinode) (size : ℕ) (bytes : List UInt8) : Prop :=
  bytes.length = size ∧ ∀ k (hk : k < bytes.length), FileByte m ⟨inode.diBtroot⟩ k bytes[k]

theorem StoresFile.fileBytes {size : ℕ} {block : ℕ → Option (ℕ → UInt8)} {inode : Dinode}
    (h : StoresFile m store inum size block inode) (hblocks : m.l2bsize = 12)
    (hdense : ∀ k, k * 4096 < size → ∃ content, block k = some content) :
    FileBytes m inode size ((List.range size).map (contentAt 4096 block)) := by
  refine ⟨by simp, fun k hk => ?_⟩
  have hlt : k < size := by simpa using hk
  obtain ⟨content, hcontent⟩ := hdense (k / 4096) (by omega)
  obtain ⟨e, he⟩ := h.block _ _ hcontent
  have hbyte := he.bytes (k % 4096) (by rw [bsize_eq hblocks]; omega)
  rw [bsize_eq hblocks, Nat.mul_comm, Nat.div_add_mod] at hbyte
  rw [List.getElem_map, List.getElem_range, contentAt, hcontent]
  exact hbyte

theorem PagesRead.dense {n size : ℕ} {pages : ℕ → List UInt8}
    {block : ℕ → Option (ℕ → UInt8)} {v : Handles NodeId ℕ}
    (h : ReadsPages (exchanges log) np fs.pageSize n pages)
    (hruns : (server fs jfsNaming rootNode).Runs v (exchanges log) t)
    (hobject : t.object np = some inum) (hfile : fs.object inum = some (.file size block))
    (hsize : 0 < fs.pageSize) (hall : size ≤ n * fs.pageSize) {k : ℕ}
    (hk : k * fs.pageSize < size) : ∃ content, block k = some content := by
  have hlt : k < n := Nat.lt_of_mul_lt_mul_right (lt_of_lt_of_le hk hall)
  obtain ⟨i, size', block', hi, hfile', hpage⟩ :=
    (server_remembers rootNode).of_mem hruns (h k hlt)
  cases hobject.symm.trans hi
  cases hfile.symm.trans hfile'
  unfold pageOf at hpage
  rw [if_neg (by omega), Nat.mul_div_cancel k hsize, Option.map_eq_some_iff] at hpage
  obtain ⟨content, hcontent, -⟩ := hpage
  exact ⟨content, hcontent⟩

/-- When all the pages of a file have been read, by calls in any order and
between the calls of other clients, then they are the bytes of the file, cut at
its size. -/
theorem translator_pages_are_file (hfs : Represents m store w fs)
    (hsession : (translator m store w d rootNode).Session log s)
    (hkeeps : KeepsContract fs rootNode log) (hlive : np ∈ s.live) {size n : ℕ}
    {block : ℕ → Option (ℕ → UInt8)}
    (hfile : fs.object (s.cache.node np).cacheId = some (.file size block))
    {pages : ℕ → List UInt8} (hreads : PagesRead log np n pages) (hall : size ≤ n * 4096) :
    ∃ inode, IsRegularFile m (s.cache.node np).cacheId inode ∧
      FileBytes m inode size (((List.range n).flatMap pages).take size) := by
  obtain ⟨t, ⟨v, -, hruns⟩, hpresents⟩ := hfs.presents hsession hkeeps
  obtain ⟨inode, hstores⟩ := hfs.file hfile
  have hobject := hpresents.object.mpr ⟨hlive, rfl⟩
  have hreads' : ReadsPages (exchanges log) np fs.pageSize n pages := by
    intro k hk
    obtain ⟨xaddr, hmem⟩ := hreads k hk
    rw [hfs.pageSize]
    exact List.mem_map_of_mem (f := Prod.map Call.toRequest Reply.toAnswer) hmem
  have hpos : 0 < fs.pageSize := hfs.pageSize ▸ (by decide : 0 < 4096)
  have hall' : size ≤ n * fs.pageSize := hfs.pageSize.symm ▸ hall
  refine ⟨inode, hstores.file, ?_⟩
  rw [hreads'.content hruns hobject hfile hpos hall', hfs.pageSize]
  refine hstores.fileBytes hfs.blocks fun k hk => ?_
  exact PagesRead.dense hreads' hruns hobject hfile hpos hall' (by rwa [hfs.pageSize])

theorem translator_pages_are_file_smallTree :
    ∃ page s inode, smallTranslator.Session (smallTreeLog page) s ∧
      PagesRead (smallTreeLog page) 5 1 (fun _ => page) ∧
      IsRegularFile smallTreeMount 3 inode ∧
      FileBytes smallTreeMount inode 6 (((List.range 1).flatMap fun _ => page).take 6) := by
  obtain ⟨page, s, t, hsession, hlog, hs, -, hheld, -⟩ := smallTree_session
  have hid := hs.cacheId hheld.2
  have hreads : PagesRead (smallTreeLog page) 5 1 fun _ => page := by
    intro k hk
    obtain rfl : k = 0 := by omega
    exact ⟨0, .tail _ (.tail _ (.tail _ (.tail _ (.head _))))⟩
  have hfile : smallTree.object (s.cache.node 5).cacheId =
      some (.file 6 smallTreeBlock) := by
    rw [hid]
    rfl
  obtain ⟨inode, hregular, hbytes⟩ := translator_pages_are_file smallTree_represents hsession
    (keepsContract_of_session hlog) (hs.mem_live hheld.2) hfile hreads (by decide)
  rw [hid] at hregular
  exact ⟨page, s, inode, hsession, hreads, hregular, hbytes⟩

end JfsReader
