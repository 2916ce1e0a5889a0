import JfsReader.FileService
import Mathlib.Data.List.Range
import Mathlib.Tactic.Ring

/-!
# Clients of a read-only file system

What clients get by more than one request, whatever other clients ask for in
between: a path is opened component by component, a file is read page by page,
and what a directory lists is what its names lead to.
-/

namespace FileService

open RequestServer

variable {η ι ν α β : Type*} {fs : FileSystem ι ν α β} {N : Naming ν} {i j k : ι}
  {name : ν} {names : List ν}

/-! ## Names and paths -/

inductive FileSystem.Walk (fs : FileSystem ι ν α β) (N : Naming ν) : ι → List ν → ι → Prop
  | nil {i : ι} : FileSystem.Walk fs N i [] i
  | cons {i j k : ι} {name : ν} {names : List ν} : fs.Leads N i name j →
      FileSystem.Walk fs N j names k → FileSystem.Walk fs N i (name :: names) k

theorem FileSystem.Walk.unique (h : fs.Walk N i names j) (h' : fs.Walk N i names k) : j = k := by
  induction h with
  | nil =>
      cases h'
      rfl
  | cons hleads _ ih =>
      cases h' with
      | cons hleads' hwalk' =>
          obtain rfl := hleads.unique hleads'
          exact ih hwalk'

/-- The entries are found under their own names. -/
def Exact (N : Naming ν) (entries : List (ν × ι)) : Prop :=
  ∀ e ∈ entries, N.valid e.1 ∧ e.1 ≠ N.self ∧ e.1 ≠ N.parent ∧
    entries.find? (fun d => N.answers d.1 e.1) = some e

def FileSystem.Exact (fs : FileSystem ι ν α β) (N : Naming ν) : Prop :=
  ∀ i entries, fs.object i = some (.directory entries) → FileService.Exact N entries

/-- A path in the tree, by its entries. -/
inductive FileSystem.Path (fs : FileSystem ι ν α β) : ι → List ν → ι → Prop
  | nil {i : ι} : FileSystem.Path fs i [] i
  | cons {i k : ι} {entries : List (ν × ι)} {e : ν × ι} {names : List ν} :
      fs.object i = some (.directory entries) → e ∈ entries → FileSystem.Path fs e.2 names k →
      FileSystem.Path fs i (e.1 :: names) k

theorem Exact.leads {entries : List (ν × ι)} {e : ν × ι} (hexact : Exact N entries)
    (hdir : fs.object i = some (.directory entries)) (he : e ∈ entries) :
    fs.Leads N i e.1 e.2 := by
  obtain ⟨hvalid, hself, hparent, hfind⟩ := hexact e he
  exact .entry hdir hvalid hself hparent hfind

theorem FileSystem.Path.walk (hexact : fs.Exact N) (h : fs.Path i names j) :
    fs.Walk N i names j := by
  induction h with
  | nil => exact .nil
  | cons hdir he _ ih => exact .cons ((hexact _ _ hdir).leads hdir he) ih

/-! ## The content of a file -/

section Content

variable [Zero β] {pageSize size n : ℕ} {block : ℕ → Option (ℕ → β)}

def contentAt (pageSize : ℕ) (block : ℕ → Option (ℕ → β)) (position : ℕ) : β :=
  match block (position / pageSize) with
  | some content => content (position % pageSize)
  | none => 0

theorem pageOf_eq (hsize : 0 < pageSize) {content : List β}
    (h : pageOf pageSize size block (n * pageSize) = some content) :
    content = (List.range pageSize).map fun k =>
      if n * pageSize + k < size then contentAt pageSize block (n * pageSize + k) else 0 := by
  unfold pageOf at h
  by_cases hpast : size ≤ n * pageSize
  · rw [if_pos hpast, Option.some.injEq] at h
    rw [← h, eq_comm, List.eq_replicate_iff]
    refine ⟨by simp, fun b hb => ?_⟩
    obtain ⟨k, -, rfl⟩ := List.mem_map.mp hb
    exact if_neg (by omega)
  · rw [if_neg hpast, Nat.mul_div_cancel n hsize, Option.map_eq_some_iff] at h
    obtain ⟨stored, hblock, rfl⟩ := h
    apply List.map_congr_left
    intro k hk
    have hk : k < pageSize := List.mem_range.mp hk
    have hdiv : (n * pageSize + k) / pageSize = n := by
      rw [Nat.mul_comm, Nat.mul_add_div hsize, Nat.div_eq_of_lt hk, Nat.add_zero]
    have hmod : (n * pageSize + k) % pageSize = k := by
      rw [Nat.mul_comm, Nat.mul_add_mod, Nat.mod_eq_of_lt hk]
    unfold contentAt
    rw [hdiv, hmod, hblock]

theorem flatMap_pages (hsize : 0 < pageSize) {pages : ℕ → List β}
    (hpages : ∀ k, k < n → pageOf pageSize size block (k * pageSize) = some (pages k)) :
    (List.range n).flatMap pages = (List.range (n * pageSize)).map fun k =>
      if k < size then contentAt pageSize block k else 0 := by
  induction n with
  | zero => simp
  | succ n ih =>
      have hlast := pageOf_eq hsize (hpages n (Nat.lt_succ_self n))
      rw [List.range_succ, List.flatMap_append, ih fun k hk => hpages k (by omega),
        Nat.succ_mul, List.range_add, List.map_append, List.map_map, List.flatMap_singleton, hlast]
      rfl

/-- Put together and cut at the size, the pages are the file. -/
theorem take_flatMap_pages (hsize : 0 < pageSize) {pages : ℕ → List β}
    (hpages : ∀ k, k < n → pageOf pageSize size block (k * pageSize) = some (pages k))
    (hall : size ≤ n * pageSize) :
    ((List.range n).flatMap pages).take size =
      (List.range size).map (contentAt pageSize block) := by
  rw [flatMap_pages hsize hpages, ← List.map_take, List.take_range, Nat.min_eq_left hall]
  apply List.map_congr_left
  intro k hk
  exact if_pos (List.mem_range.mp hk)

end Content

/-! ## The entries of a directory -/

section Entries

variable {batch p : ℕ} {entries l l' : List (ν × ι)}

/-- The entries, from position `p` on, without the last one of each batch. -/
def shownFrom (batch : ℕ) : ℕ → List (ν × ι) → List (ν × ι)
  | _, [] => []
  | p, e :: entries =>
      if p % batch = batch - 1 then shownFrom batch (p + 1) entries
      else e :: shownFrom batch (p + 1) entries

theorem shownFrom_append :
    shownFrom batch p (l ++ l') = shownFrom batch p l ++ shownFrom batch (p + l.length) l' := by
  induction l generalizing p with
  | nil => rfl
  | cons e l ih =>
      have hlength : p + (e :: l).length = p + 1 + l.length := by
        rw [List.length_cons]
        omega
      rw [hlength, List.cons_append, shownFrom, shownFrom, ih]
      split <;> rfl

theorem shownFrom_within (h : p % batch + l.length < batch) : shownFrom batch p l = l := by
  induction l generalizing p with
  | nil => rfl
  | cons e l ih =>
      rw [List.length_cons] at h
      have hnext : (p + 1) % batch = p % batch + 1 := by
        rw [Nat.add_mod, Nat.mod_eq_of_lt (show 1 < batch by omega)]
        exact Nat.mod_eq_of_lt (by omega)
      rw [shownFrom, if_neg (by omega), ih (by omega)]

theorem shownFrom_batch (hbatch : 0 < batch) (hp : batch ∣ p) (hl : l.length = batch) :
    shownFrom batch p l = l.take (batch - 1) := by
  have hmod : p % batch = 0 := Nat.mod_eq_zero_of_dvd hp
  obtain ⟨e, he⟩ : ∃ e, l.drop (batch - 1) = [e] := by
    rw [← List.length_eq_one_iff, List.length_drop]
    omega
  have hlength : (l.take (batch - 1)).length = batch - 1 := List.length_take_of_le (by omega)
  have hlast : (p + (batch - 1)) % batch = batch - 1 := by
    rw [Nat.add_mod, hmod, Nat.zero_add, Nat.mod_mod]
    exact Nat.mod_eq_of_lt (by omega)
  conv_lhs => rw [← List.take_append_drop (batch - 1) l, he]
  rw [shownFrom_append, hlength, shownFrom_within (by omega), shownFrom, if_pos hlast, shownFrom,
    List.append_nil]

theorem length_shownFrom_le : (shownFrom batch p l).length ≤ l.length := by
  induction l generalizing p with
  | nil => exact le_rfl
  | cons e l ih =>
      rw [shownFrom]
      split
      · exact ih.trans (Nat.le_succ _)
      · exact Nat.succ_le_succ ih

/-- All of a directory is shown exactly if it is shorter than a batch. -/
theorem shownFrom_eq_self_iff (hbatch : 0 < batch) :
    shownFrom batch 0 entries = entries ↔ entries.length < batch := by
  constructor
  · intro heq
    by_contra hlong
    have hlength : (entries.take batch).length = batch := List.length_take_of_le (by omega)
    have hlost : (shownFrom batch 0 entries).length < entries.length := by
      have hrest : (shownFrom batch batch (entries.drop batch)).length ≤
          (entries.drop batch).length := length_shownFrom_le
      conv_lhs => rw [← List.take_append_drop batch entries]
      rw [shownFrom_append, hlength, shownFrom_batch hbatch (Nat.dvd_zero _) hlength, Nat.zero_add,
        List.length_append, List.length_take, List.length_take]
      rw [List.length_drop] at hrest
      omega
    rw [heq] at hlost
    exact lt_irrefl _ hlost
  · intro hshort
    exact shownFrom_within (by rwa [Nat.zero_mod, Nat.zero_add])

theorem listing_of_short (h : (entries.drop p).length < batch) :
    listing batch entries p = ((entries.drop p).length, entries.drop p) := by
  unfold listing
  rw [if_neg (by omega), Int.toNat_natCast]
  exact if_pos h

theorem listing_of_long (h : batch ≤ (entries.drop p).length) :
    listing batch entries p = (batch, (entries.drop p).take (batch - 1)) := by
  unfold listing
  rw [if_neg (by omega), Int.toNat_natCast]
  exact if_neg (by omega)

end Entries

/-! ## What the log of a session says -/

section Logs

variable {s t t' : Handles η ι} {h h' g root : η} {log log' : List (Request η ν × Answer η ι ν α β)}
  {a : Answer η ι ν α β}

/-- The lookups that open the path are in the log, in any order and among any
other exchanges. -/
inductive Opens (log : List (Request η ν × Answer η ι ν α β)) : η → List ν → η → Prop
  | nil {h : η} : Opens log h [] h
  | cons {h h' h'' : η} {name : ν} {names : List ν} {write : Bool} {fresh : Option η} :
      (.lookup h name write fresh, .found h') ∈ log → Opens log h' names h'' →
      Opens log h (name :: names) h''

theorem Opens.mono (hopens : Opens log h names h') (hsub : log ⊆ log') :
    Opens log' h names h' := by
  induction hopens with
  | nil => exact .nil
  | cons hmem _ ih => exact .cons (hsub hmem) ih

/-- The listings of a directory are in the log, each from where the one before
left off, until there is nothing more. -/
inductive ReadsDirectory (log : List (Request η ν × Answer η ι ν α β)) (h : η) :
    ℤ → List (ν × ι) → Prop
  | done {position : ℤ} {entries : List (ν × ι)} :
      (.list h position, .listed 0 entries) ∈ log → ReadsDirectory log h position entries
  | next {position : ℤ} {amount : ℕ} {entries all : List (ν × ι)} :
      (.list h position, .listed amount entries) ∈ log → 0 < amount →
      ReadsDirectory log h (position + amount) all →
      ReadsDirectory log h position (entries ++ all)

theorem ReadsDirectory.mono {position : ℤ} {all : List (ν × ι)}
    (hreads : ReadsDirectory log h position all) (hsub : log ⊆ log') :
    ReadsDirectory log' h position all := by
  induction hreads with
  | done hmem => exact .done (hsub hmem)
  | next hmem hpos _ ih => exact .next (hsub hmem) hpos ih

variable [DecidableEq η] [Zero β]

theorem Opens.walk (hopens : Opens log h names h') (hruns : (server fs N root).Runs s log t)
    (hobject : t.object h = some i) : ∃ j, t.object h' = some j ∧ fs.Walk N i names j := by
  induction hopens generalizing i with
  | nil => exact ⟨i, hobject, .nil⟩
  | cons hmem _ ih =>
      obtain ⟨i', j, hi', hj, hleads⟩ := (server_remembers root).of_mem hruns hmem
      cases hobject.symm.trans hi'
      obtain ⟨k, hk, hwalk⟩ := ih hj
      exact ⟨k, hk, .cons hleads hwalk⟩

/-- All pages of the file behind the handle are in the log. -/
def ReadsPages (log : List (Request η ν × Answer η ι ν α β)) (h : η) (pageSize n : ℕ)
    (pages : ℕ → List β) : Prop :=
  ∀ k, k < n → (.read h (k * pageSize), .page (pages k)) ∈ log

theorem ReadsPages.content {n size : ℕ} {pages : ℕ → List β} {block : ℕ → Option (ℕ → β)}
    (hreads : ReadsPages log h fs.pageSize n pages) (hruns : (server fs N root).Runs s log t)
    (hobject : t.object h = some i) (hfile : fs.object i = some (.file size block))
    (hsize : 0 < fs.pageSize) (hall : size ≤ n * fs.pageSize) :
    ((List.range n).flatMap pages).take size =
      (List.range size).map (contentAt fs.pageSize block) := by
  refine take_flatMap_pages hsize (fun k hk => ?_) hall
  obtain ⟨i', size', block', hi', hfile', hpage⟩ :=
    (server_remembers root).of_mem hruns (hreads k hk)
  cases hobject.symm.trans hi'
  cases hfile.symm.trans hfile'
  exact hpage

theorem ReadsDirectory.shown {entries all : List (ν × ι)} {position : ℤ} {p : ℕ}
    (hreads : ReadsDirectory log h position all) (hruns : (server fs N root).Runs s log t)
    (hobject : t.object h = some i) (hdir : fs.object i = some (.directory entries))
    (hbatch : 0 < fs.batch) (hposition : position = p)
    (hp : fs.batch ∣ p ∨ entries.length ≤ p) : all = shownFrom fs.batch p (entries.drop p) := by
  have hlists : ∀ {position amount shown},
      (.list h position, .listed amount shown) ∈ log →
        (amount, shown) = listing fs.batch entries position := by
    intro position amount shown hmem
    obtain ⟨i', entries', hi', hdir', hlisting⟩ := (server_remembers root).of_mem hruns hmem
    cases hobject.symm.trans hi'
    cases hdir.symm.trans hdir'
    exact hlisting
  induction hreads generalizing p with
  | done hmem =>
      have hlisting := hlists hmem
      rw [hposition] at hlisting
      rcases Nat.lt_or_ge (entries.drop p).length fs.batch with hshort | hlong
      · rw [listing_of_short hshort] at hlisting
        obtain ⟨hzero, rfl⟩ := Prod.mk.inj hlisting
        rw [List.length_eq_zero_iff.mp hzero.symm]
        rfl
      · rw [listing_of_long hlong] at hlisting
        obtain ⟨hzero, -⟩ := Prod.mk.inj hlisting
        omega
  | @next position amount shown all hmem hpos _ ih =>
      have hlisting := hlists hmem
      rw [hposition] at hlisting
      rcases Nat.lt_or_ge (entries.drop p).length fs.batch with hshort | hlong
      · -- the last batch: the next one is empty
        rw [listing_of_short hshort] at hlisting
        obtain ⟨hamount, rfl⟩ := Prod.mk.inj hlisting
        have hlength : (entries.drop p).length = entries.length - p := List.length_drop
        have hmod : p % fs.batch = 0 := Nat.mod_eq_zero_of_dvd (hp.resolve_right (by omega))
        have hend : entries.length ≤ p + amount := by omega
        rw [ih (by rw [hposition]; push_cast; rfl) (.inr hend), List.drop_of_length_le hend]
        change entries.drop p ++ [] = _
        rw [List.append_nil, shownFrom_within (by omega)]
      · rw [listing_of_long hlong] at hlisting
        obtain ⟨rfl, rfl⟩ := Prod.mk.inj hlisting
        have hlength : (entries.drop p).length = entries.length - p := List.length_drop
        have hdvd : fs.batch ∣ p := hp.resolve_right (by omega)
        have hfull : ((entries.drop p).take fs.batch).length = fs.batch :=
          List.length_take_of_le hlong
        have htake : ((entries.drop p).take fs.batch).take (fs.batch - 1) =
            (entries.drop p).take (fs.batch - 1) := by
          rw [List.take_take, Nat.min_eq_left (Nat.sub_le _ _)]
        rw [ih (by rw [hposition]; push_cast; rfl) (.inl (Nat.dvd_add hdvd (dvd_refl _)))]
        conv_rhs => rw [← List.take_append_drop fs.batch (entries.drop p)]
        rw [shownFrom_append, hfull, shownFrom_batch hbatch hdvd hfull, htake, List.drop_drop]

/-- A listed name leads to the object it is listed with, before and after. -/
theorem listed_leads {position : ℤ} {amount : ℕ} {entries : List (ν × ι)} {e : ν × ι}
    (hexact : fs.Exact N) (hruns : (server fs N root).Runs s log t)
    (hlist : (.list h position, .listed amount entries) ∈ log) (he : e ∈ entries)
    {write : Bool} {fresh : Option η} (hlookup : (.lookup h e.1 write fresh, a) ∈ log) :
    a ≠ .refused .notFound ∧ ∀ h', a = .found h' → t.object h' = some e.2 := by
  obtain ⟨i, all, hi, hdir, hlisting⟩ := (server_remembers root).of_mem hruns hlist
  have hall : e ∈ all := by
    unfold listing at hlisting
    split at hlisting
    · cases hlisting
      cases he
    · dsimp only at hlisting
      split at hlisting
      · cases hlisting
        exact List.mem_of_mem_drop he
      · cases hlisting
        exact List.mem_of_mem_drop (List.mem_of_mem_take he)
  have hleads := (hexact i all hdir).leads hdir hall
  have htold := (server_remembers root).of_mem hruns hlookup
  constructor
  · rintro rfl
    obtain ⟨i', hi', hmisses⟩ := htold
    cases hi.symm.trans hi'
    exact hleads.not_misses hmisses
  · rintro h' rfl
    obtain ⟨i', j, hi', hj, hleads'⟩ := htold
    cases hi.symm.trans hi'
    rw [hj, hleads.unique hleads']

/-! ## Single requests -/

theorem accepts_lookup (hheld : t.Holds h i) (hleads : fs.Leads N i name j)
    (hfree : t.object g = none) :
    (server fs N root : Server (Handles η ι) (Request η ν) (Answer η ι ν α β)).Accepts t
      (.lookup h name false (some g)) := by
  by_cases hself : name = N.self
  · subst hself
    cases hleads with
    | self hdir => exact ⟨_, _, .self hheld hdir⟩
    | entry _ _ hself => exact absurd rfl hself
  · by_cases hknown : ∃ h', t.object h' = some j
    · obtain ⟨h', hh'⟩ := hknown
      exact ⟨_, _, .known hheld hleads hself hh'⟩
    · have hnew : t.Unbound g j := ⟨hfree, fun h' hh' => hknown ⟨h', hh'⟩⟩
      exact ⟨_, _, .opened hheld hleads hself hnew⟩

theorem Step.lookup_found (hstep : Step fs N t (.lookup h name false (some g)) a t')
    (hheld : t.Holds h i) (hleads : fs.Leads N i name j) :
    ∃ h', a = .found h' ∧ t'.Holds h' j := by
  cases hstep with
  | again => exact absurd rfl hleads.ne_parent
  | self hheld' hdir =>
      cases hheld.2.symm.trans hheld'.2
      obtain rfl := hleads.unique (.self hdir)
      exact ⟨h, rfl, Handles.hold_holds _⟩
  | known hheld' hleads' _ hknown =>
      cases hheld.2.symm.trans hheld'.2
      obtain rfl := hleads.unique hleads'
      exact ⟨_, rfl, Handles.hold_holds _⟩
  | opened hheld' hleads' _ hnew =>
      cases hheld.2.symm.trans hheld'.2
      obtain rfl := hleads.unique hleads'
      exact ⟨_, rfl, Handles.hold_holds _⟩
  | notFound hheld' hmisses =>
      cases hheld.2.symm.trans hheld'.2
      exact absurd hmisses hleads.not_misses

theorem Step.read_page {size offset : ℕ} {block : ℕ → Option (ℕ → β)} {content : List β}
    (hstep : Step fs N t (.read h offset) a t') (hheld : t.Holds h i)
    (hfile : fs.object i = some (.file size block))
    (hpage : pageOf fs.pageSize size block offset = some content) :
    a = .page content ∧ t' = t := by
  cases hstep with
  | page hheld' hfile' _ _ hpage' =>
      cases hheld.2.symm.trans hheld'.2
      cases hfile.symm.trans hfile'
      cases hpage.symm.trans hpage'
      exact ⟨rfl, rfl⟩
  | unreadable hheld' hfile' _ _ hpage' =>
      cases hheld.2.symm.trans hheld'.2
      cases hfile.symm.trans hfile'
      cases hpage.symm.trans hpage'

theorem Step.list_directory {entries : List (ν × ι)} {position : ℤ}
    (hstep : Step fs N t (.list h position) a t') (hheld : t.Holds h i)
    (hdir : fs.object i = some (.directory entries)) :
    a = .listed (listing fs.batch entries position).1 (listing fs.batch entries position).2 ∧
      t' = t := by
  cases hstep with
  | list hheld' hdir' =>
      cases hheld.2.symm.trans hheld'.2
      cases hdir.symm.trans hdir'
      exact ⟨rfl, rfl⟩

end Logs

/-! ## Clients of an implementation -/

section Implementation

variable [DecidableEq η] [Zero β] {σ Q A : Type*} {C : Server σ Q A} {request : Q → Request η ν}
  {answer : A → Answer η ι ν α β} {R : σ → Handles η ι → Prop} {s : σ} {t : Handles η ι}
  {h root : η}

/-- Every path is opened, from any state on, as long as there are handles. -/
theorem opens_path (himp : Implements C (server fs N root) request answer R)
    (hsupply : ∀ {s t} h name, R s t →
      ∃ q g, request q = .lookup h name false (some g) ∧ t.object g = none)
    (hwalk : fs.Walk N i names j) (hs : R s t) (hheld : t.Holds h i) :
    ∃ log s' t' h', C.Runs s log s' ∧
      (server fs N root).Runs t (log.map (Prod.map request answer)) t' ∧ R s' t' ∧
      Opens (log.map (Prod.map request answer)) h names h' ∧ t'.Holds h' j := by
  induction hwalk generalizing s t h with
  | nil => exact ⟨[], s, t, h, .nil, .nil, hs, .nil, hheld⟩
  | @cons i j k name names hleads _ ih =>
      obtain ⟨q, g, hq, hfree⟩ := hsupply h name hs
      obtain ⟨a, s₁, t₁, hstep, hspec, hs₁⟩ := himp.answers (q := q) hs
        (hq ▸ accepts_lookup hheld hleads hfree)
      have hfound := hspec
      rw [hq] at hfound
      obtain ⟨h₁, ha, hheld₁⟩ := Step.lookup_found hfound hheld hleads
      obtain ⟨log, s', t', h', hruns, hruns', hs', hopens, hheld'⟩ := ih hs₁ hheld₁
      refine ⟨(q, a) :: log, s', t', h', .cons hstep hruns, .cons hspec hruns', hs', ?_,
        hheld'⟩
      rw [List.map_cons, Prod.map_apply, hq, ha]
      exact .cons List.mem_cons_self (hopens.mono (List.subset_cons_self _ _))

theorem lists_directory (himp : Implements C (server fs N root) request answer R)
    (hsupply : ∀ h position, ∃ q, request q = .list h position) {entries : List (ν × ι)}
    (hdir : fs.object i = some (.directory entries)) (position : ℤ) (hs : R s t)
    (hheld : t.Holds h i) :
    ∃ q a s', C.step s q a s' ∧ (server fs N root).step t (request q) (answer a) t ∧ R s' t ∧
      request q = .list h position ∧
      answer a = .listed (listing fs.batch entries position).1
        (listing fs.batch entries position).2 := by
  obtain ⟨q, hq⟩ := hsupply h position
  have haccepts : (server fs N root).Accepts t (request q) := by
    rw [hq]
    exact ⟨_, _, .list hheld hdir⟩
  obtain ⟨a, s', t', hstep, hspec, hs'⟩ := himp.answers hs haccepts
  have hlisted := hspec
  rw [hq] at hlisted
  obtain ⟨ha, rfl⟩ := Step.list_directory hlisted hheld hdir
  exact ⟨q, a, s', hstep, hspec, hs', hq, ha⟩

/-- Every directory is read to its end, from any state on. -/
theorem reads_directory (himp : Implements C (server fs N root) request answer R)
    (hsupply : ∀ h position, ∃ q, request q = .list h position) {entries : List (ν × ι)}
    (hdir : fs.object i = some (.directory entries)) (hbatch : 0 < fs.batch) (hs : R s t)
    (hheld : t.Holds h i) (p : ℕ) :
    ∃ log s' all, C.Runs s log s' ∧ R s' t ∧
      (server fs N root).Runs t (log.map (Prod.map request answer)) t ∧
      ReadsDirectory (log.map (Prod.map request answer)) h p all := by
  induction hrest : entries.length - p using Nat.strong_induction_on generalizing s p with
  | h rest ih =>
      obtain ⟨q, a, s₁, hstep, hspec, hs₁, hq, ha⟩ := lists_directory himp hsupply hdir p hs hheld
      have hmem : (.list h p, .listed (listing fs.batch entries p).1
          (listing fs.batch entries p).2) ∈ [Prod.map request answer (q, a)] := by
        rw [Prod.map_apply, hq, ha]
        exact List.mem_singleton_self _
      by_cases hdone : (listing fs.batch entries p).1 = 0
      · rw [hdone] at hmem
        exact ⟨[(q, a)], s₁, _, .cons hstep .nil, hs₁, .cons hspec .nil, .done hmem⟩
      · have hlt : p < entries.length := by
          by_contra hpast
          have hnone : entries.drop p = [] := List.drop_of_length_le (by omega)
          rw [listing_of_short (by rw [hnone]; exact hbatch), hnone] at hdone
          exact hdone rfl
        obtain ⟨log, s', all, hruns, hs', hruns', hreads⟩ :=
          ih (entries.length - (p + (listing fs.batch entries p).1)) (by omega) hs₁
            (p + (listing fs.batch entries p).1) rfl
        rw [Nat.cast_add] at hreads
        refine ⟨(q, a) :: log, s', (listing fs.batch entries p).2 ++ all, .cons hstep hruns, hs',
          .cons hspec hruns', ?_⟩
        exact .next (List.mem_append_left _ hmem) (Nat.pos_of_ne_zero hdone)
          (hreads.mono (List.subset_cons_self _ _))

end Implementation

end FileService
