import JfsReader.RequestServer
import Mathlib.Logic.Function.Basic
import Mathlib.Data.Int.Basic

/-!
# A read-only file system and its service

What a translator for a read-only file system is for, in general: a tree of
objects, and a server that hands out handles for them.  Two handles never stand
for one object, and a handle stands for the same object for good.  An object is
looked up by name in a directory, as the first entry that answers to the name.
-/

namespace FileService

open RequestServer

/-- A block that no data is stored for has no content. -/
inductive FileObject (ι ν β : Type*)
  | directory (entries : List (ν × ι))
  | file (size : ℕ) (block : ℕ → Option (ℕ → β))
  | special

/-- How names are used: `answers` takes the name of an entry and the name
wanted, and a hidden name is not reported as missing. -/
structure Naming (ν : Type*) where
  self : ν
  parent : ν
  valid : ν → Prop
  hidden : ν → Prop
  answers : ν → ν → Bool
  self_ne_parent : self ≠ parent
  self_hidden : hidden self

structure FileSystem (ι ν α β : Type*) where
  root : ι
  object : ι → Option (FileObject ι ν β)
  attributes : ι → α
  pageSize : ℕ
  limit : ℕ
  batch : ℕ
  root_directory : ∃ entries, object root = some (.directory entries)
  closed : ∀ {i entries e}, object i = some (.directory entries) → e ∈ entries →
    ∃ o, object e.2 = some o

/-- The handles given out, with the number of times each is held. -/
structure Handles (η ι : Type*) where
  object : η → Option ι
  count : η → ℕ
  injective : ∀ {h h' i}, object h = some i → object h' = some i → h = h'
  known : ∀ {h}, 0 < count h → ∃ i, object h = some i

/-- `fresh` is the handle that the environment has for an object without one. -/
inductive Request (η ν : Type*)
  | lookup (dir : η) (name : ν) (write : Bool) (fresh : Option η)
  | list (dir : η) (position : ℤ)
  | read (file : η) (offset : ℕ)
  | attributes (h : η)
  | release (h : η)

inductive Refusal
  | notFound
  | noMemory
  | readOnly
  | again
  | unreadable

inductive Answer (η ι ν α β : Type*)
  | found (h : η)
  | refused (r : Refusal)
  | listed (amount : ℕ) (entries : List (ν × ι))
  | page (content : List β)
  | attributes (a : α)
  | released

variable {η ι ν α β : Type*}

/-- A full batch counts one entry that it does not show. -/
def listing (batch : ℕ) (entries : List (ν × ι)) (position : ℤ) : ℕ × List (ν × ι) :=
  if position < 0 then (0, [])
  else
    let rest := entries.drop position.toNat
    if rest.length < batch then (rest.length, rest) else (batch, rest.take (batch - 1))

def pageOf [Zero β] (pageSize size : ℕ) (block : ℕ → Option (ℕ → β)) (offset : ℕ) :
    Option (List β) :=
  if size ≤ offset then some (List.replicate pageSize 0)
  else (block (offset / pageSize)).map fun content =>
    (List.range pageSize).map fun k => if offset + k < size then content k else 0

namespace Handles

variable {t : Handles η ι} {h h' : η} {i j : ι}

def Holds (t : Handles η ι) (h : η) (i : ι) : Prop := 0 < t.count h ∧ t.object h = some i

/-- No handle stands for the object, and the handle for none. -/
def Unbound (t : Handles η ι) (h : η) (i : ι) : Prop :=
  t.object h = none ∧ ∀ h', t.object h' ≠ some i

def empty : Handles η ι where
  object := fun _ => none
  count := fun _ => 0
  injective := fun h => nomatch h
  known := fun h => absurd h (lt_irrefl 0)

theorem unbound_empty (h : η) (i : ι) : (empty : Handles η ι).Unbound h i :=
  ⟨rfl, fun _ hobject => nomatch hobject⟩

variable [DecidableEq η]

theorem update_injective (hnew : t.object h = some i ∨ t.Unbound h i) {g g' : η}
    (hg : Function.update t.object h (some i) g = some j)
    (hg' : Function.update t.object h (some i) g' = some j) : g = g' := by
  have hself : ∀ k, k ≠ h → t.object k ≠ some i := by
    intro k hk hobject
    rcases hnew with hbound | ⟨-, hunused⟩
    · exact hk (t.injective hobject hbound)
    · exact hunused k hobject
  by_cases heq : g = h
  · subst heq
    rw [Function.update_self, Option.some.injEq] at hg
    subst hg
    by_contra hne
    rw [Function.update_of_ne (Ne.symm hne)] at hg'
    exact hself g' (Ne.symm hne) hg'
  · rw [Function.update_of_ne heq] at hg
    by_cases heq' : g' = h
    · subst heq'
      rw [Function.update_self, Option.some.injEq] at hg'
      subst hg'
      exact absurd hg (hself g heq)
    · rw [Function.update_of_ne heq'] at hg'
      exact t.injective hg hg'

theorem update_known (t : Handles η ι) (n : ℕ) {g : η}
    (hg : 0 < Function.update t.count h n g) :
    ∃ j, Function.update t.object h (some i) g = some j := by
  by_cases heq : g = h
  · exact ⟨i, by rw [heq, Function.update_self]⟩
  · rw [Function.update_of_ne heq] at hg ⊢
    exact t.known hg

/-- One more hold on the handle, which stands for the object from now on. -/
def hold (t : Handles η ι) (h : η) (i : ι) (hnew : t.object h = some i ∨ t.Unbound h i) :
    Handles η ι where
  object := Function.update t.object h (some i)
  count := Function.update t.count h (t.count h + 1)
  injective := update_injective hnew
  known := update_known t _

theorem drop_known (t : Handles η ι) (h : η) {g : η}
    (hg : 0 < Function.update t.count h (t.count h - 1) g) : ∃ j, t.object g = some j := by
  by_cases heq : g = h
  · subst heq
    rw [Function.update_self] at hg
    exact t.known (by omega)
  · rw [Function.update_of_ne heq] at hg
    exact t.known hg

def drop (t : Handles η ι) (h : η) : Handles η ι where
  object := t.object
  count := Function.update t.count h (t.count h - 1)
  injective := t.injective
  known := drop_known t h

theorem hold_object_self (hnew : t.object h = some i ∨ t.Unbound h i) :
    (t.hold h i hnew).object h = some i :=
  Function.update_self ..

theorem hold_holds (hnew : t.object h = some i ∨ t.Unbound h i) : (t.hold h i hnew).Holds h i := by
  refine ⟨?_, hold_object_self hnew⟩
  change 0 < Function.update t.count h (t.count h + 1) h
  rw [Function.update_self]
  exact Nat.succ_pos _

theorem hold_object_of_some (hnew : t.object h = some i ∨ t.Unbound h i)
    (hobject : t.object h' = some j) : (t.hold h i hnew).object h' = some j := by
  change Function.update t.object h (some i) h' = some j
  by_cases heq : h' = h
  · subst heq
    rcases hnew with hbound | ⟨hnone, -⟩
    · rwa [Function.update_self, ← hbound]
    · rw [hnone] at hobject
      cases hobject
  · rwa [Function.update_of_ne heq]

theorem Holds.hold (hheld : t.Holds h' j) (hnew : t.object h = some i ∨ t.Unbound h i) :
    (t.hold h i hnew).Holds h' j := by
  refine ⟨?_, hold_object_of_some hnew hheld.2⟩
  change 0 < Function.update t.count h (t.count h + 1) h'
  by_cases heq : h' = h
  · rw [heq, Function.update_self]
    exact Nat.succ_pos _
  · rw [Function.update_of_ne heq]
    exact hheld.1

theorem Unbound.hold {g : η} (hfree : t.Unbound h i) (hh : h ≠ g) (hi : i ≠ j)
    (hnew : t.object g = some j ∨ t.Unbound g j) : (t.hold g j hnew).Unbound h i := by
  refine ⟨?_, fun h' => ?_⟩
  · change Function.update t.object g (some j) h = none
    rw [Function.update_of_ne hh]
    exact hfree.1
  · change Function.update t.object g (some j) h' ≠ some i
    by_cases heq : h' = g
    · rw [heq, Function.update_self]
      exact fun hji => hi (Option.some.inj hji).symm
    · rw [Function.update_of_ne heq]
      exact hfree.2 h'

end Handles

section Service

variable (fs : FileSystem ι ν α β) (N : Naming ν)

/-- What a name leads to in a directory. -/
inductive FileSystem.Leads : ι → ν → ι → Prop
  | self {i : ι} {entries : List (ν × ι)} : fs.object i = some (.directory entries) →
      FileSystem.Leads i N.self i
  | entry {i : ι} {name : ν} {entries : List (ν × ι)} {e : ν × ι} :
      fs.object i = some (.directory entries) → N.valid name → name ≠ N.self →
      name ≠ N.parent → entries.find? (fun e => N.answers e.1 name) = some e →
      FileSystem.Leads i name e.2

/-- Names that are reported as missing. -/
def FileSystem.Misses (i : ι) (name : ν) : Prop :=
  ∃ entries, fs.object i = some (.directory entries) ∧ N.valid name ∧ ¬ N.hidden name ∧
    entries ≠ [] ∧ entries.find? (fun e => N.answers e.1 name) = none

variable [DecidableEq η]

/-- At the start there is one handle, for the root. -/
def started (root : η) : Handles η ι :=
  Handles.empty.hold root fs.root (.inr (Handles.unbound_empty root fs.root))

variable {fs} in
theorem started_unbound {root h : η} {i : ι} (hh : h ≠ root) (hi : i ≠ fs.root) :
    (started fs root).Unbound h i :=
  Handles.Unbound.hold (Handles.unbound_empty h i) hh hi _

variable [Zero β]

/-- The answers to a request.  A hidden name without an entry, a name in an
empty directory, and a page that is not aligned or ends above the limit are not
accepted. -/
inductive Step : Handles η ι → Request η ν → Answer η ι ν α β → Handles η ι → Prop
  | readOnly {t : Handles η ι} {h : η} {i : ι} {name : ν} {fresh : Option η} : t.Holds h i →
      Step t (.lookup h name true fresh) (.refused .readOnly) t
  | again {t : Handles η ι} {h : η} {fresh : Option η} : t.Holds h fs.root →
      Step t (.lookup h N.parent false fresh) (.refused .again) t
  | self {t : Handles η ι} {h : η} {i : ι} {entries : List (ν × ι)} {fresh : Option η}
      (hheld : t.Holds h i) : fs.object i = some (.directory entries) →
      Step t (.lookup h N.self false fresh) (.found h) (t.hold h i (.inl hheld.2))
  | known {t : Handles η ι} {h h' : η} {i j : ι} {name : ν} {fresh : Option η} :
      t.Holds h i → fs.Leads N i name j → name ≠ N.self → (hknown : t.object h' = some j) →
      Step t (.lookup h name false fresh) (.found h') (t.hold h' j (.inl hknown))
  | opened {t : Handles η ι} {h h' : η} {i j : ι} {name : ν} :
      t.Holds h i → fs.Leads N i name j → name ≠ N.self → (hnew : t.Unbound h' j) →
      Step t (.lookup h name false (some h')) (.found h') (t.hold h' j (.inr hnew))
  | noMemory {t : Handles η ι} {h : η} {i j : ι} {name : ν} :
      t.Holds h i → fs.Leads N i name j → name ≠ N.self → (∀ h', t.object h' ≠ some j) →
      Step t (.lookup h name false none) (.refused .noMemory) t
  | notFound {t : Handles η ι} {h : η} {i : ι} {name : ν} {fresh : Option η} :
      t.Holds h i → fs.Misses N i name →
      Step t (.lookup h name false fresh) (.refused .notFound) t
  | list {t : Handles η ι} {h : η} {i : ι} {entries : List (ν × ι)} {position : ℤ} :
      t.Holds h i → fs.object i = some (.directory entries) →
      Step t (.list h position)
        (.listed (listing fs.batch entries position).1 (listing fs.batch entries position).2) t
  | page {t : Handles η ι} {h : η} {i : ι} {size : ℕ} {block : ℕ → Option (ℕ → β)}
      {offset : ℕ} {content : List β} : t.Holds h i → fs.object i = some (.file size block) →
      fs.pageSize ∣ offset → offset + fs.pageSize < fs.limit →
      pageOf fs.pageSize size block offset = some content →
      Step t (.read h offset) (.page content) t
  | unreadable {t : Handles η ι} {h : η} {i : ι} {size : ℕ} {block : ℕ → Option (ℕ → β)}
      {offset : ℕ} : t.Holds h i → fs.object i = some (.file size block) →
      fs.pageSize ∣ offset → offset + fs.pageSize < fs.limit →
      pageOf fs.pageSize size block offset = none →
      Step t (.read h offset) (.refused .unreadable) t
  | attributes {t : Handles η ι} {h : η} {i : ι} : t.Holds h i →
      Step t (.attributes h) (.attributes (fs.attributes i)) t
  | release {t : Handles η ι} {h : η} {i : ι} : t.Holds h i →
      Step t (.release h) .released (t.drop h)

def server (root : η) : Server (Handles η ι) (Request η ν) (Answer η ι ν α β) where
  start := fun t => t = started fs root
  step := Step fs N

end Service

/-! ## Names -/

section Names

variable {fs : FileSystem ι ν α β} {N : Naming ν} {i j k : ι} {name : ν}

theorem FileSystem.Leads.unique (h : fs.Leads N i name j) (h' : fs.Leads N i name k) : j = k := by
  cases h with
  | self =>
      cases h' with
      | self => rfl
      | entry _ _ hself => exact absurd rfl hself
  | entry hdir _ hself _ hfind =>
      cases h' with
      | self => exact absurd rfl hself
      | entry hdir' _ _ _ hfind' =>
          cases hdir.symm.trans hdir'
          cases hfind.symm.trans hfind'
          rfl

theorem FileSystem.Leads.not_misses (h : fs.Leads N i name j) : ¬ fs.Misses N i name := by
  rintro ⟨entries, hdir, -, hhidden, -, hnone⟩
  cases h with
  | self => exact hhidden N.self_hidden
  | entry hdir' _ _ _ hfind =>
      cases hdir.symm.trans hdir'
      rw [hnone] at hfind
      cases hfind

theorem FileSystem.Leads.ne_parent (h : fs.Leads N i name j) : name ≠ N.parent := by
  cases h with
  | self => exact N.self_ne_parent
  | entry _ _ _ hparent => exact hparent

end Names

/-! ## What is said stays true -/

section Truth

variable [Zero β] {fs : FileSystem ι ν α β} {N : Naming ν} {t t' : Handles η ι}
  {q : Request η ν} {a : Answer η ι ν α β} {h h' : η} {i j : ι}

/-- What an answer says about the file system. -/
def Told (fs : FileSystem ι ν α β) (N : Naming ν) (q : Request η ν) (a : Answer η ι ν α β)
    (t : Handles η ι) : Prop :=
  match q, a with
  | .lookup h name _ _, .found h' =>
      ∃ i j, t.object h = some i ∧ t.object h' = some j ∧ fs.Leads N i name j
  | .lookup h name _ _, .refused .notFound => ∃ i, t.object h = some i ∧ fs.Misses N i name
  | .list h position, .listed amount entries =>
      ∃ i all, t.object h = some i ∧ fs.object i = some (.directory all) ∧
        (amount, entries) = listing fs.batch all position
  | .read h offset, .page content =>
      ∃ i size block, t.object h = some i ∧ fs.object i = some (.file size block) ∧
        pageOf fs.pageSize size block offset = some content
  | .read h offset, .refused .unreadable =>
      ∃ i size block, t.object h = some i ∧ fs.object i = some (.file size block) ∧
        pageOf fs.pageSize size block offset = none
  | .attributes h, .attributes a => ∃ i, t.object h = some i ∧ a = fs.attributes i
  | _, _ => True

theorem Told.mono (htold : Told fs N q a t)
    (hkeep : ∀ {h i}, t.object h = some i → t'.object h = some i) : Told fs N q a t' := by
  unfold Told at htold ⊢
  split at htold
  · obtain ⟨i, j, hi, hj, hleads⟩ := htold
    exact ⟨i, j, hkeep hi, hkeep hj, hleads⟩
  · obtain ⟨i, hi, hmisses⟩ := htold
    exact ⟨i, hkeep hi, hmisses⟩
  · obtain ⟨i, all, hi, hlist⟩ := htold
    exact ⟨i, all, hkeep hi, hlist⟩
  · obtain ⟨i, size, block, hi, hpage⟩ := htold
    exact ⟨i, size, block, hkeep hi, hpage⟩
  · obtain ⟨i, size, block, hi, hpage⟩ := htold
    exact ⟨i, size, block, hkeep hi, hpage⟩
  · obtain ⟨i, hi, hattributes⟩ := htold
    exact ⟨i, hkeep hi, hattributes⟩
  · trivial

variable [DecidableEq η]

theorem Step.object_eq (hstep : Step fs N t q a t') (hobject : t.object h = some i) :
    t'.object h = some i := by
  cases hstep with
  | self hheld => exact Handles.hold_object_of_some _ hobject
  | known _ _ _ hknown => exact Handles.hold_object_of_some _ hobject
  | opened _ _ _ hnew => exact Handles.hold_object_of_some _ hobject
  | _ => exact hobject

theorem Step.told (hstep : Step fs N t q a t') : Told fs N q a t' := by
  cases hstep with
  | readOnly => trivial
  | again => trivial
  | noMemory => trivial
  | release => trivial
  | @self h i entries _ hheld hdir =>
      exact ⟨i, i, Handles.hold_object_self _, Handles.hold_object_self _, .self hdir⟩
  | @known h h' i j name _ hheld hleads _ hknown =>
      exact ⟨i, j, Handles.hold_object_of_some _ hheld.2, Handles.hold_object_self _, hleads⟩
  | @opened h h' i j name hheld hleads _ hnew =>
      exact ⟨i, j, Handles.hold_object_of_some _ hheld.2, Handles.hold_object_self _, hleads⟩
  | notFound hheld hmisses => exact ⟨_, hheld.2, hmisses⟩
  | list hheld hdir => exact ⟨_, _, hheld.2, hdir, rfl⟩
  | page hheld hfile _ _ hpage => exact ⟨_, _, _, hheld.2, hfile, hpage⟩
  | unreadable hheld hfile _ _ hpage => exact ⟨_, _, _, hheld.2, hfile, hpage⟩
  | attributes hheld => exact ⟨_, hheld.2, rfl⟩

theorem Step.after_found {write : Bool} {fresh : Option η} {name : ν}
    (hstep : Step fs N t (.lookup h name write fresh) (.found h') t') :
    ∃ i j hnew, t.Holds h i ∧ fs.Leads N i name j ∧ t' = t.hold h' j hnew := by
  cases hstep with
  | self hheld hdir => exact ⟨_, _, _, hheld, .self hdir, rfl⟩
  | known hheld hleads => exact ⟨_, _, _, hheld, hleads, rfl⟩
  | opened hheld hleads => exact ⟨_, _, _, hheld, hleads, rfl⟩

def Handles.afterOther (t : Handles η ι) : Request η ν → Handles η ι
  | .release h => t.drop h
  | _ => t

theorem Step.after_other (hstep : Step fs N t q a t') (hnot : ∀ h', a ≠ .found h') :
    t' = t.afterOther q := by
  cases hstep with
  | self => exact absurd rfl (hnot _)
  | known => exact absurd rfl (hnot _)
  | opened => exact absurd rfl (hnot _)
  | _ => rfl

/-- The answer to a request determines the handles after it. -/
theorem Step.unique {u : Handles η ι} (hstep : Step fs N t q a t') (hstep' : Step fs N t q a u) :
    t' = u := by
  by_cases hfound : ∃ h', a = .found h'
  · obtain ⟨h', rfl⟩ := hfound
    cases q with
    | lookup h name write fresh =>
        obtain ⟨i, j, hnew, hheld, hleads, rfl⟩ := hstep.after_found
        obtain ⟨i', j', hnew', hheld', hleads', rfl⟩ := hstep'.after_found
        cases hheld.2.symm.trans hheld'.2
        obtain rfl := hleads.unique hleads'
        rfl
    | _ => cases hstep
  · have hnot : ∀ h', a ≠ .found h' := fun h' heq => hfound ⟨h', heq⟩
    rw [hstep.after_other hnot, hstep'.after_other hnot]

theorem server_determined (root : η) :
    (server fs N root : Server (Handles η ι) (Request η ν) (Answer η ι ν α β)).Determined where
  start := fun hs ht => hs.trans ht.symm
  step := Step.unique

theorem server_remembers (root : η) :
    (server fs N root : Server (Handles η ι) (Request η ν) (Answer η ι ν α β)).Remembers
      (Told fs N) where
  learns := fun hstep => hstep.told
  keeps := fun htold hstep => htold.mono hstep.object_eq

end Truth

end FileService
