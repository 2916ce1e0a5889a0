import JfsReader.FileService
import JfsReader.NodeReferences
import JfsReader.DirectoryRecords
import JfsReader.ParentLookup
import JfsReader.InodeLocation
import JfsReader.PageRead
import Mathlib.Data.UInt

/-!
# The translator as a server

The calls that libdiskfs and the pager make, on the state they share: the node
cache, the page buffers of `xt_Lookup` and the root node that `main` looks up.
A call that goes to the disk is cut off nowhere.
-/

namespace JfsReader

open RequestServer FileService WriteBuffer

/-- A call that has ended with enough fuel. -/
def Ends {α : Type*} (f : ℕ → Option α) (out : α) : Prop :=
  ∃ n, ∀ fuel, n ≤ fuel → f fuel = some out

theorem Ends.unique {α : Type*} {f : ℕ → Option α} {out out' : α} (h : Ends f out)
    (h' : Ends f out') : out = out' := by
  obtain ⟨n, hn⟩ := h
  obtain ⟨n', hn'⟩ := h'
  have hleft := hn (max n n') (Nat.le_max_left _ _)
  have hright := hn' (max n n') (Nat.le_max_right _ _)
  exact Option.some.inj (hleft.symm.trans hright)

/-- `live` are the nodes that libdiskfs has handed out and that are not freed. -/
structure TranslatorState where
  cache : NodeCache
  pool : BufPool
  live : Finset NodeId
  diskfsRootNode : NodeId

/-- The calls, with what the allocator answers in them and what the local
variables hold that are not set. -/
inductive Call
  | diskfsLookupHard (dp : NodeId) (name : List UInt8) (type : LookupType) (malloc : Bool)
      (makeNode : Option NodeId) (gotinum : ℕ)
  | diskfsGetDirects (dp : NodeId) (entry n : ℤ) (data : Buffer UInt8) (bufsiz : ℕ)
  | pagerReadPage (np : NodeId) (page : ℕ) (xaddr : ℤ)
  | dnStat (np : NodeId)
  | diskfsNput (np : NodeId)

/-- The names that the call lists stay in the 100 bytes allocated for them. -/
def Call.Within (m : Mount) (d : Dirent) (s : TranslatorState) : Call → Prop
  | .diskfsGetDirects dp entry _ data _ =>
      ∃ n, ∀ fuel, n ≤ fuel → ScratchWithin m d fuel (s.cache.node dp).cacheId entry data
  | _ => True

/-- What the caller sees: the client of `diskfs_get_directs` decodes the
records. -/
inductive Reply
  | lookup (err : ErrorT) (npp : Option NodeId)
  | directs (amt : ℕ) (records : List Record)
  | page (err : ErrorT) (buf : Option (List UInt8))
  | stat (st : Stat)
  | released

def pageBytes (buf : Bytes) : List UInt8 := (List.range vmPageSize).map fun i : ℕ => buf i

/-- The new nodes of a lookup are its result, if it has one. -/
def liveAfterLookup (npp : Option NodeId) (live : Finset NodeId) : Finset NodeId :=
  npp.elim live fun np => insert np live

/-- `diskfs_catch_exception` answers 0, `npp` is not null, and the caller of
`diskfs_get_directs` has room for the records. -/
inductive TranslatorStep (m : Mount) (store : Store) (w : WordSize) (d : Dirent) :
    TranslatorState → Call → Reply → TranslatorState → Prop
  | lookup {s : TranslatorState} {dp : NodeId} {name : List UInt8} {type : LookupType}
      {malloc : Bool} {makeNode : Option NodeId} {gotinum : ℕ} {err : ErrorT}
      {npp : Option NodeId} {c : NodeCache} :
      Ends (fun fuel => diskfsLookupHard
          (diskOps m fuel ⟨malloc, makeNode, 0⟩ fun np s => s.bind (releaseHandle np)) m fuel
          s.diskfsRootNode dp (s.cache.node dp).cacheId name type (some none) gotinum
          (some s.cache))
        (.returned err (some npp) (some c)) →
      TranslatorStep m store w d s (.diskfsLookupHard dp name type malloc makeNode gotinum)
        (.lookup err npp) { s with cache := c, live := liveAfterLookup npp s.live }
  | directs {s : TranslatorState} {dp : NodeId} {entry n : ℤ} {data : Buffer UInt8}
      {bufsiz : ℕ} {out : DirectsEnd} {records : List Record} :
      (Call.diskfsGetDirects dp entry n data bufsiz).Within m d s →
      Ends (fun fuel => diskfsGetDirects m d fuel (s.cache.node dp).cacheId entry n data bufsiz)
        out →
      out.records d = some records →
      TranslatorStep m store w d s (.diskfsGetDirects dp entry n data bufsiz)
        (.directs out.amt records) s
  -- behind the 100 bytes lies whatever else is on the heap
  | overrun {s s' : TranslatorState} {call : Call} {reply : Reply} : ¬ call.Within m d s →
      TranslatorStep m store w d s call reply s'
  | page {s : TranslatorState} {np : NodeId} {page : ℕ} {xaddr : ℤ} {st : Stat}
      {err : ErrorT} {buf : Option Bytes} {pool : BufPool} :
      (s.cache.node np).stat = some st →
      PageReads m store w (s.cache.node np).cacheId st.stSize page xaddr s.pool
        (.returned err buf pool) →
      TranslatorStep m store w d s (.pagerReadPage np page xaddr)
        (.page err (buf.map pageBytes)) { s with pool := pool }
  | stat {s : TranslatorState} {np : NodeId} {st : Stat} :
      (s.cache.node np).stat = some st → TranslatorStep m store w d s (.dnStat np) (.stat st) s
  | release {s : TranslatorState} {np : NodeId} {c : NodeCache} :
      releaseHandle np s.cache = some c →
      TranslatorStep m store w d s (.diskfsNput np) .released
        { s with cache := c, live := liveAfterRelease np s.cache s.live }

/-- `main` looks the root up in the empty table, and is given the node
`rootNode` for it. -/
def TranslatorStarted (m : Mount) (rootNode : NodeId) (s : TranslatorState) : Prop :=
  ∃ c out, Ends (fun fuel => diskLookup m fuel 2 ⟨true, some rootNode, 0⟩ (inodeInit c)) out ∧
    s.cache = out.cache ∧ s.live = {rootNode} ∧ s.diskfsRootNode = rootNode

def translator (m : Mount) (store : Store) (w : WordSize) (d : Dirent) (rootNode : NodeId) :
    Server TranslatorState Call Reply where
  start := TranslatorStarted m rootNode
  step := TranslatorStep m store w d

/-! ## The file system on the disk -/

def LookupType.refused (type : LookupType) : Bool :=
  decide (type = ⟨.remove, false⟩ ∨ type.kind = .rename)

/-- The node that a lookup can make. -/
def offered (malloc : Bool) (makeNode : Option NodeId) : Option NodeId :=
  if malloc then makeNode else none

def Call.toRequest : Call → Request NodeId (List UInt8)
  | .diskfsLookupHard dp name type malloc makeNode _ =>
      .lookup dp name type.refused (offered malloc makeNode)
  | .diskfsGetDirects dp entry _ _ _ => .list dp entry
  | .pagerReadPage np page _ => .read np page
  | .dnStat np => .attributes np
  | .diskfsNput np => .release np

def ErrorT.refusal : ErrorT → Refusal
  | .enoent => .notFound
  | .enomem => .noMemory
  | .erofs => .readOnly
  | .eagain => .again
  | _ => .unreadable

def Record.pair (r : Record) : List UInt8 × ℕ := (r.name, r.ino)

theorem Record.pair_injective : Function.Injective Record.pair := by
  rintro ⟨ino, name⟩ ⟨ino', name'⟩ h
  cases h
  rfl

def Reply.toAnswer : Reply → Answer NodeId ℕ (List UInt8) Stat UInt8
  | .lookup .success (some np) => .found np
  | .lookup err _ => .refused err.refusal
  | .directs amt records => .listed amt (records.map Record.pair)
  | .page .success (some bytes) => .page bytes
  | .page err _ => .refused err.refusal
  | .stat st => .attributes st
  | .released => .released

theorem dot_ne_dotdot : ([46] : List UInt8) ≠ dotdot := by decide

theorem dot_hidden : ([46] : List UInt8).getD 0 0 = 46 := rfl

/-- Names as `dirscan` uses them: bytes before the null, compared as signed
characters with the beginning of what is listed. -/
def jfsNaming : Naming (List UInt8) where
  self := [46]
  parent := dotdot
  valid := fun name => ∀ b ∈ name, b ≠ 0
  hidden := fun name => name.getD 0 0 = 46
  answers := fun listed name => name.all (· < 128) && name.isPrefixOf listed
  self_ne_parent := dot_ne_dotdot
  self_hidden := dot_hidden

def DirEntry.pair (e : DirEntry) : List UInt8 × ℕ := (e.listed, e.inumber)

/-- The block is stored in the extent, where the store can address it. -/
structure StoresBlock (m : Mount) (store : Store) (inode : Dinode) (block : ℕ)
    (content : ℕ → UInt8) (e : Xad) : Prop where
  maps : MapsBlock m inode block e
  position : ((addressXAD e + (block - offsetXAD e)) <<< m.l2bsize) >>>
    store.log2BlockSize < 2 ^ 31
  bytes : ∀ i, i < m.bsize → FileByte m ⟨inode.diBtroot⟩ (block * m.bsize + i) (content i)

structure StoresFile (m : Mount) (store : Store) (inum size : ℕ)
    (block : ℕ → Option (ℕ → UInt8)) (inode : Dinode) : Prop where
  file : IsRegularFile m inum inode
  diSize : inode.diSize = size
  size_lt : size < 2 ^ 63
  hole : ∀ k, block k = none → ∀ e, ¬ MapsBlock m inode k e
  block : ∀ k content, block k = some content → ∃ e, StoresBlock m store inode k content e

/-- The disk holds the file system, in blocks of 4096 bytes. -/
structure Represents (m : Mount) (store : Store) (w : WordSize)
    (fs : FileSystem ℕ (List UInt8) Stat UInt8) : Prop where
  memory : m.HasMemory
  reads : StoreReads m store
  blocks : m.l2bsize = 12
  root : fs.root = 2
  pageSize : fs.pageSize = 4096
  limit : fs.limit = 2 ^ w.bits
  batch : fs.batch = 30
  inode : ∀ {inum o}, fs.object inum = some o →
    ∃ di, ReadsInode m inum di ∧ fs.attributes inum = readStat inum di
  directory : ∀ {inum entries}, fs.object inum = some (.directory entries) →
    ∃ es, IsDirectory m inum es ∧ (∀ e ∈ es, e.Listable) ∧ entries = es.map DirEntry.pair
  file : ∀ {inum size block}, fs.object inum = some (.file size block) →
    ∃ inode, StoresFile m store inum size block inode

/-- The node table in terms of the handles given out: its nodes stand for the
inodes they were made for and are filled from them. -/
structure ShowsTable (m : Mount) (fs : FileSystem ℕ (List UInt8) Stat UInt8) (c : NodeCache)
    (live : Finset NodeId) (t : Handles NodeId ℕ) : Prop where
  handles : ∃ rows, HandlesOk c rows live t.count
  filled : AllFilled m c live
  object : ∀ {np inum}, t.object np = some inum ↔ np ∈ live ∧ (c.node np).cacheId = inum
  exists_object : ∀ {np}, np ∈ live → ∃ o, fs.object (c.node np).cacheId = some o

structure Presents (m : Mount) (fs : FileSystem ℕ (List UInt8) Stat UInt8)
    (s : TranslatorState) (t : Handles NodeId ℕ) : Prop
    extends ShowsTable m fs s.cache s.live t where
  root : t.object s.diskfsRootNode = some fs.root

end JfsReader
