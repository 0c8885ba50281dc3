import LibreServ.PurgeLifts
import LibreServ.TrashAccess

/-! What a turn spares. An item of someone else keeps its files wherever it is lifted to, but for those that lie in an
item of the person whose items are deleted. A path that has been dealt with stays so: every folder above it stands, and
a lift goes to a name at which nothing stands. -/

namespace LibreServ.Files

open FileTree Drive List Table

variable {user : Text} {s s' s₀ : Drive} {entry : Entry (List UInt8)} {p q x r : Path}

/-! ### What is promised -/

/-- What a trash entry is called: the second of the deletion and a dash come first. -/
structure EntryName (entry : Text) : Prop where
  lead : ∃ lead rest, lead ≠ [] ∧ lead.all Char.isDigit = true ∧ entry = lead ++ '-' :: rest
  slash : '/' ∉ entry
  backslash : '\\' ∉ entry

theorem EntryName.head {entry : Text} (h : EntryName entry) : entry.head? ≠ some '.' := by
  obtain ⟨lead, rest, hne, hdigits, rfl⟩ := h.lead
  cases lead with
  | nil => exact absurd rfl hne
  | cons ch lead =>
    intro hdot
    obtain rfl := Option.some.inj hdot
    cases hdigits

namespace Drive

/-- No item of the user has its name on disk among the segments. -/
def ClearOf (s : Drive) (user : Text) (r : Path) : Prop :=
  ∀ p item, s.items.get? p = some item → item.owner = user → s.layout.diskName item.id ∉ r

/-- The files of an item, from `p` to `p'`. All that lies in it is still there, but for what lies in an item of the user;
and of the files that are in it and in no item inside it, none is new. -/
structure SameFiles (user : Text) (s s' : Drive) (p p' : Path) : Prop where
  kept : ∀ r entry, s.ClearOf user r → s.disk.get? (r ++ s.diskIn p) = some entry →
    s'.disk.get? (r ++ s'.diskIn p') = some entry
  own : ∀ r entry, s.layout.Unsealed r → s'.disk.get? (r ++ s'.diskIn p') = some entry →
    s.disk.get? (r ++ s.diskIn p) = some entry

/-- Every item of everyone else is still there, with its files. -/
structure Spared (user : Text) (s s' : Drive) : Prop where
  layout : s'.layout = s.layout
  rows : ∀ p' item, s'.items.get? p' = some item → ∃ p, s.items.get? p = some item
  others : ∀ p item, s.items.get? p = some item → item.owner ≠ user →
    ∃ p', s'.items.get? p' = some item ∧ SameFiles user s s' p p'

/-- An item of the user, or a trash entry recorded as theirs. -/
def Owned (s : Drive) (user : Text) (p : Path) : Prop :=
  (∃ item, s.items.get? p = some item ∧ item.owner = user) ∨
    ∃ entry found, p = [entry, s.layout.trashName] ∧ s.trashMeta.get? entry = some found ∧ found.privateOwner = user

def EntriesNamed (s : Drive) : Prop := ∀ entry found, s.trashMeta.get? entry = some found → EntryName entry

/-- No walk to what is lifted or deleted meets a link. -/
structure NoLinks (s : Drive) (user : Text) : Prop where
  items : ∀ p item, s.items.get? p = some item → s.disk.get? (s.diskIn p) ≠ some .link
  trash : s.disk.get? [s.layout.trashName] = none ∨ s.disk.get? [s.layout.trashName] = some .dir
  entries : ∀ entry found, s.trashMeta.get? entry = some found → found.privateOwner = user →
    s.disk.get? [entry, s.layout.trashName] ≠ some .link

theorem ClearOf.of_rows (h : s.ClearOf user r) (hl : s'.layout = s.layout)
    (hrows : ∀ p' item, s'.items.get? p' = some item → ∃ p, s.items.get? p = some item) : s'.ClearOf user r := by
  intro p' item hp' howner
  obtain ⟨p, hp⟩ := hrows p' item hp'
  rw [hl]
  exact h p item hp howner

theorem SameFiles.trans {s₁ s₂ s₃ : Drive} {p₁ p₂ p₃ : Path} (h : SameFiles user s₁ s₂ p₁ p₂)
    (h' : SameFiles user s₂ s₃ p₂ p₃) (hspared : Spared user s₁ s₂) : SameFiles user s₁ s₃ p₁ p₃ := by
  constructor
  · intro r entry hclear hentry
    exact h'.kept r entry (hclear.of_rows hspared.layout hspared.rows) (h.kept r entry hclear hentry)
  · intro r entry hr hentry
    exact h.own r entry hr (h'.own r entry (hspared.layout ▸ hr) hentry)

theorem Spared.trans {s₁ s₂ s₃ : Drive} (h : Spared user s₁ s₂) (h' : Spared user s₂ s₃) : Spared user s₁ s₃ := by
  refine ⟨h'.layout.trans h.layout, fun p item hp => ?_, fun p item hp howner => ?_⟩
  · obtain ⟨p₂, hp₂⟩ := h'.rows p item hp
    exact h.rows p₂ item hp₂
  · obtain ⟨p₂, hp₂, hfiles⟩ := h.others p item hp howner
    obtain ⟨p₃, hp₃, hfiles'⟩ := h'.others p₂ item hp₂ howner
    exact ⟨p₃, hp₃, hfiles.trans hfiles' h⟩

/-- Nothing has changed but what the trash remembers. -/
theorem Spared.of_same (hl : s'.layout = s.layout) (hd : s'.disk = s.disk) (hi : s'.items = s.items) :
    Spared user s s' := by
  have hin : ∀ p, s'.diskIn p = s.diskIn p := fun p => diskIn_congr s s' hl fun q _ => by rw [hi]
  refine ⟨hl, fun p item hp => ⟨p, by rwa [← hi]⟩, fun p item hp _ => ⟨p, by rwa [hi], ?_⟩⟩
  constructor
  · intro r entry _ hentry
    rwa [hd, hin]
  · intro r entry _ hentry
    rwa [hd, hin] at hentry

/-! ### An item that is in the way -/

/-- A folder that lies above `r ++ x` and not above `x` has its name in `r`. -/
theorem mem_of_suffix_append {a : Text} {d : Path} (h : a :: d <:+ r ++ x) (hout : ¬ a :: d <:+ x) : a ∈ r := by
  obtain ⟨t, ht⟩ := h
  rcases append_eq_append_iff.mp ht with ⟨c, hr, hx⟩ | ⟨c, ht, hx⟩
  · cases c with
    | nil => exact absurd ⟨[], hx⟩ hout
    | cons b c =>
      rw [hr, (cons.inj hx).1]
      exact mem_append_right t mem_cons_self
  · exact absurd ⟨c, hx.symm⟩ hout

theorem Owned.unsealed (h : Owned s user p) (ht : Tidy s) (hnamed : s.EntriesNamed) : s.layout.Unsealed p := by
  rcases h with ⟨item, hp, -⟩ | ⟨entry, found, rfl, hfound, -⟩
  · exact ht.unsealed hp
  · have hluna : isLunaName entry = false := isLunaName_of_head (hnamed entry found hfound).head
    exact (proper_trash hluna).unsealed

/-- Whatever lies in an item and not in one of the user's inside it, lies in none of the user's. -/
theorem Owned.not_above {item : Item} (h : Owned s user p) (ht : Tidy s) (hnamed : s.EntriesNamed)
    (hq : s.items.get? q = some item) (hpq : ¬ p <:+ q) (hr : s.ClearOf user r) : ¬ s.diskIn p <:+ r ++ s.diskIn q := by
  intro hsuf
  have hout : ¬ s.diskIn p <:+ s.diskIn q := fun hin =>
    hpq (ht.suffix_of_diskIn (h.unsealed ht hnamed) (ht.unsealed hq) hin)
  rcases h with ⟨mine, hp, howner⟩ | ⟨entry, found, rfl, hfound, howner⟩
  · cases p with
    | nil =>
      rw [ht.root_not_item] at hp
      cases hp
    | cons n d =>
      rw [diskIn_cons_some hp] at hsuf hout
      exact hr _ mine hp howner (mem_of_suffix_append hsuf hout)
  · -- An item above a trash entry would be the trash itself.
    have hunsealed : s.layout.Unsealed [entry, s.layout.trashName] :=
      Owned.unsealed (.inr ⟨entry, found, rfl, hfound, howner⟩) ht hnamed
    rcases suffix_or_suffix_of_suffix hsuf (suffix_append r _) with hin | hin
    · exact hout hin
    have habove : q <:+ [entry, s.layout.trashName] := ht.suffix_of_diskIn (ht.unsealed hq) hunsealed hin
    rcases suffix_cons_iff.mp habove with rfl | habove
    · exact hpq (suffix_refl _)
    · rcases suffix_cons_iff.mp habove with rfl | habove
      · rw [ht.trash_not_item] at hq
        cases hq
      · rw [suffix_nil.mp habove, ht.root_not_item] at hq
        cases hq

/-! ### A lift -/

section Lift

variable {n m : Text} {dp dt : Path} {item : Item}

variable (h : Movable s n dp m dt)

include h

/-- What lies in the branch that moves goes along. -/
theorem Movable.files_within (ht : Tidy s) (q r : Path) :
    (s.moved (n :: dp) m dt).disk.get? (r ++ (s.moved (n :: dp) m dt).diskIn (q ++ m :: dt)) =
      s.disk.get? (r ++ s.diskIn (q ++ n :: dp)) := by
  obtain ⟨r', hold, hnew⟩ := h.diskIn_moved ht q
  rw [hold, hnew, ← append_assoc, ← append_assoc, h.disk_moved]

/-- What does not lie in the branch stays where it is. -/
theorem Movable.stays
    (hx : s.disk.get? x = some entry) (hout : ¬ s.diskIn (n :: dp) <:+ x) :
    (s.moved (n :: dp) m dt).disk.get? x = some entry :=
  (get?_relocate_some h.vacant).mpr (.inl ⟨hx, hout⟩)

/-- What an item outside the branch has of its own was its own before. -/
theorem Movable.own_before (ht : Tidy s) (hlift : Liftable s n dp dt item)
    {other : Item} (hq : s.items.get? q = some other) (hout : ¬ n :: dp <:+ q)
    (hr : s.layout.Unsealed r)
    (hentry : (s.moved (n :: dp) m dt).disk.get? (r ++ (s.moved (n :: dp) m dt).diskIn q) = some entry) :
    s.disk.get? (r ++ s.diskIn q) = some entry := by
  obtain ⟨standing, hstanding⟩ := ht.leads q other hq
  rw [h.diskIn_other ht hout (h.not_above ht hstanding)] at hentry
  rcases (get?_relocate_some h.vacant).mp hentry with ⟨hentry, -⟩ | ⟨t, ht', -⟩
  · exact hentry
  -- The lifted item would lie in it, and its name is one of Luna's.
  have hland : s.layout.diskName item.id :: s.diskIn dt <:+ r ++ s.diskIn q := by
    have heq : (s.diskLeaf (n :: dp)).getD m :: s.diskIn dt = s.layout.diskName item.id :: s.diskIn dt :=
      hlift.landing_eq m
    exact ⟨t, by rw [← heq]; exact ht'.symm⟩
  have hfree : ¬ s.layout.diskName item.id :: s.diskIn dt <:+ s.diskIn q := by
    intro hsuf
    obtain ⟨entry', hentry'⟩ := ht.grown.taken_above hstanding hsuf (cons_ne_nil _ _)
    rw [hlift.landing_free ht] at hentry'
    cases hentry'
  have hmem := hr _ (mem_of_suffix_append hland hfree)
  rw [Layout.isDiskName_diskName] at hmem
  cases hmem

/-- The outermost of someone else's items in `p` is lifted out. -/
theorem Movable.spared (ht : Tidy s) (hlift : Liftable s n dp dt item)
    (hp : Owned s user p) (hnamed : s.EntriesNamed) (hin : p <:+ n :: dp)
    (houter : ∀ q other, s.items.get? q = some other → other.owner ≠ user → p <:+ q → q <:+ n :: dp → q = n :: dp) :
    Spared user s (s.moved (n :: dp) m dt) := by
  refine ⟨rfl, fun q other hq => ?_, fun q other hq howner => ?_⟩
  · rcases h.row_cases ht hq with ⟨hq, -, -⟩ | ⟨q', -, hq⟩
    · exact ⟨q, hq⟩
    · exact ⟨_, hq⟩
  · by_cases hwithin : n :: dp <:+ q
    · obtain ⟨q', rfl⟩ := hwithin
      refine ⟨q' ++ m :: dt, (get?_relocate_moved (h.rows_vacant ht) q').trans hq, ⟨?_, ?_⟩⟩
      · intro r entry _ hentry
        rwa [h.files_within ht]
      · intro r entry _ hentry
        rwa [h.files_within ht] at hentry
    · obtain ⟨standing, hstanding⟩ := ht.leads q other hq
      have hfree := h.not_above ht hstanding
      refine ⟨q, (get?_relocate_other (h.rows_vacant ht) hwithin hfree).trans hq, ⟨?_, ?_⟩⟩
      · intro r entry hclear hentry
        rw [h.diskIn_other ht hwithin hfree]
        apply h.stays hentry
        intro hsuf
        by_cases hpq : p <:+ q
        · rcases suffix_or_suffix_of_suffix hsuf (suffix_append r _) with hsuf | hsuf
          · exact hwithin (ht.suffix_of_diskIn h.source (ht.unsealed hq) hsuf)
          · have hsame := houter q other hq howner hpq (ht.suffix_of_diskIn (ht.unsealed hq) h.source hsuf)
            exact hwithin (hsame ▸ suffix_refl _)
        · exact hp.not_above ht hnamed hq hpq hclear ((diskIn_suffix hin).trans hsuf)
      · intro r entry hr hentry
        exact h.own_before ht hlift hq hwithin hr hentry

end Lift

/-! ### A deletion -/

/-- The branch at `p`, on disk and among the rows. -/
def pruned (s : Drive) (p : Path) : Drive :=
  { s with disk := s.disk.prune (s.diskIn p), items := s.items.prune p }

theorem get?_pruned {item : Item} (h : (s.pruned p).items.get? q = some item) :
    s.items.get? q = some item ∧ ¬ p <:+ q := by
  rw [show (s.pruned p).items.get? q = _ from get?_prune p s.items q] at h
  split at h
  · cases h
  · exact ⟨h, ‹_›⟩

theorem diskIn_pruned (h : ¬ p <:+ q) : (s.pruned p).diskIn q = s.diskIn q := by
  refine diskIn_congr s (s.pruned p) rfl fun r hr => ?_
  show (s.items.prune p).get? r = _
  rw [get?_prune, if_neg fun hsuf => h (hsuf.trans hr)]

theorem disk_pruned (h : ¬ s.diskIn p <:+ x) : (s.pruned p).disk.get? x = s.disk.get? x := by
  show (s.disk.prune (s.diskIn p)).get? x = _
  rw [get?_prune, if_neg h]

theorem disk_of_pruned (h : (s.pruned p).disk.get? x = some entry) :
    s.disk.get? x = some entry := by
  rw [show (s.pruned p).disk.get? x = _ from get?_prune _ _ _] at h
  split at h
  · cases h
  · exact h

/-- Once nothing of anyone else lies in it, what is owned may go. -/
theorem Owned.spared (h : Owned s user p) (ht : Tidy s) (hnamed : s.EntriesNamed)
    (hmine : ∀ q item, s.items.get? q = some item → p <:+ q → item.owner = user) : Spared user s (s.pruned p) := by
  refine ⟨rfl, fun q item hq => ⟨q, (get?_pruned hq).1⟩, fun q item hq howner => ?_⟩
  have hout : ¬ p <:+ q := fun hsuf => howner (hmine q item hq hsuf)
  refine ⟨q, ?_, ⟨?_, ?_⟩⟩
  · show (s.items.prune p).get? q = _
    rw [get?_prune, if_neg hout, hq]
  · intro r entry hclear hentry
    rw [diskIn_pruned hout, disk_pruned (h.not_above ht hnamed hq hout hclear)]
    exact hentry
  · intro r entry _ hentry
    rw [diskIn_pruned hout] at hentry
    exact disk_of_pruned hentry

/-! ### What has been dealt with -/

/-- Nothing above the path is missing, and nothing there is the user's. -/
structure Above (user : Text) (s : Drive) (q : Path) : Prop where
  stands : ∀ x, x <:+ q → x ≠ q → x ≠ [] → ∃ entry, s.disk.get? (s.diskIn x) = some entry
  others : ∀ x item, x <:+ q → x ≠ q → s.items.get? x = some item → item.owner ≠ user

def InTrash (s : Drive) (q : Path) : Prop := q.getLast? = some s.layout.trashName

/-- Nothing of the user's is at the path, nor will be. -/
structure Settled (user : Text) (s : Drive) (q : Path) : Prop where
  unsealed : s.layout.Unsealed q
  trash : s.InTrash q → s.NoneWithin q
  above : ¬ s.InTrash q → Above user s q
  row : ∀ item, s.items.get? q = some item → item.owner ≠ user

section Lift

variable {n m : Text} {dp dt : Path} {item : Item}

/-- A lift goes to no path above one whose folders stand. -/
theorem Above.not_above (h : Above user s q) (hmove : Movable s n dp m dt) (ht : Tidy s) (hne : m :: dt ≠ q) :
    ¬ m :: dt <:+ q := by
  intro hsuf
  obtain ⟨entry, hentry⟩ := h.stands _ hsuf hne (cons_ne_nil m dt)
  exact hmove.not_above ht hentry (suffix_refl _)

theorem Above.moved (h : Above user s q) (hmove : Movable s n dp m dt) (ht : Tidy s)
    (hq : s.layout.Unsealed q) (hout : ∀ x, x <:+ q → x ≠ q → ¬ n :: dp <:+ x) :
    Above user (s.moved (n :: dp) m dt) q := by
  constructor
  · intro x hx hne hnil
    obtain ⟨entry, hentry⟩ := h.stands x hx hne hnil
    refine ⟨entry, ?_⟩
    rw [hmove.diskIn_other ht (hout x hx hne) (hmove.not_above ht hentry)]
    exact hmove.stays hentry fun hsuf => hout x hx hne (ht.suffix_of_diskIn hmove.source (hq.of_suffix hx) hsuf)
  · intro x other hx hne hrow
    rcases hmove.row_cases ht hrow with ⟨hrow, -, -⟩ | ⟨r, rfl, -⟩
    · exact h.others x other hx hne hrow
    · have hnew : m :: dt <:+ q := (suffix_append r _).trans hx
      have hne' : m :: dt ≠ q := by
        rintro rfl
        exact hne (hx.eq_of_length_le (by rw [length_append]; omega))
      exact absurd hnew (h.not_above hmove ht hne')

theorem Settled.moved (h : Settled user s q) (hmove : Movable s n dp m dt) (ht : Tidy s)
    (hitem : s.items.get? (n :: dp) = some item) (howner : item.owner ≠ user) (hland : ¬ s.InTrash (m :: dt))
    (hout : ¬ s.InTrash q → ¬ n :: dp <:+ q) : Settled user (s.moved (n :: dp) m dt) q := by
  have hinto : s.InTrash q → ∀ r : Path, ¬ q <:+ r ++ m :: dt := by
    intro htrash r hsuf
    by_cases hnil : q = []
    · rw [hnil] at htrash
      cases htrash
    · apply hland
      rw [InTrash, ← getLast?_append_of_ne_nil r (cons_ne_nil m dt), ← getLast?_of_suffix hsuf hnil]
      exact htrash
  refine ⟨h.unsealed, fun htrash x other hx hsuf => ?_, fun htrash => ?_, fun other hother => ?_⟩
  · rcases hmove.row_cases ht hx with ⟨hx, -, -⟩ | ⟨r, rfl, -⟩
    · exact h.trash htrash x other hx hsuf
    · exact hinto htrash r hsuf
  · exact (h.above htrash).moved hmove ht h.unsealed fun x hx _ hsuf => hout htrash (hsuf.trans hx)
  · rcases hmove.row_cases ht hother with ⟨hother, -, -⟩ | ⟨r, hq, hother⟩
    · exact h.row other hother
    cases r with
    | nil =>
      rw [nil_append, hitem] at hother
      rwa [← Option.some.inj hother]
    | cons a r =>
      -- The lifted item lies above the path, where a folder stood.
      have hsuf : m :: dt <:+ q := ⟨a :: r, hq.symm⟩
      by_cases htrash : s.InTrash q
      · exact absurd (hq ▸ suffix_refl _) (hinto htrash (a :: r))
      · refine absurd hsuf ((h.above htrash).not_above hmove ht ?_)
        rintro rfl
        have hlen := congrArg length hq
        rw [length_append, length_cons, length_cons] at hlen
        omega

end Lift

theorem Above.pruned (h : Above user s q) (ht : Tidy s) (hp : s.layout.Unsealed p)
    (hq : s.layout.Unsealed q) (hout : ∀ x, x <:+ q → x ≠ q → ¬ p <:+ x) : Above user (s.pruned p) q := by
  constructor
  · intro x hx hne hnil
    obtain ⟨entry, hentry⟩ := h.stands x hx hne hnil
    refine ⟨entry, ?_⟩
    rw [diskIn_pruned (hout x hx hne),
      disk_pruned fun hsuf => hout x hx hne (ht.suffix_of_diskIn hp (hq.of_suffix hx) hsuf)]
    exact hentry
  · intro x item hx hne hrow
    exact h.others x item hx hne (get?_pruned hrow).1

theorem Settled.pruned (h : Settled user s q) (ht : Tidy s) (hp : s.layout.Unsealed p)
    (hout : ¬ s.InTrash q → ¬ p <:+ q) : Settled user (s.pruned p) q := by
  refine ⟨h.unsealed, fun htrash x item hx => ?_, fun htrash => ?_, fun item hitem => ?_⟩
  · exact h.trash htrash x item (get?_pruned hx).1
  · exact (h.above htrash).pruned ht hp h.unsealed fun x hx _ hsuf => hout htrash (hsuf.trans hx)
  · exact h.row item (get?_pruned hitem).1

/-- Where nothing is left of the branch, its path is settled. -/
theorem Above.settled (h : ¬ s.InTrash p → Above user s p) (ht : Tidy s) (hp : s.layout.Unsealed p) :
    Settled user (s.pruned p) p := by
  refine ⟨hp, fun _ x item hx hsuf => (get?_pruned hx).2 hsuf, fun htrash => ?_, fun item hitem => ?_⟩
  · refine (h htrash).pruned ht hp hp fun x hx hne hsuf => hne (hx.eq_of_length_le hsuf.length_le)
  · exact absurd (suffix_refl p) (get?_pruned hitem).2

/-- Only the disk and the rows matter. -/
theorem Settled.congr (h : Settled user s q) (hl : s'.layout = s.layout) (hd : s'.disk = s.disk)
    (hi : s'.items = s.items) : Settled user s' q := by
  have hin : ∀ p, s'.diskIn p = s.diskIn p := fun p => diskIn_congr s s' hl fun q _ => by rw [hi]
  refine ⟨hl ▸ h.unsealed, fun htrash x item hx => ?_, fun htrash => ⟨fun x hx hne hnil => ?_, fun x item hx hne hrow => ?_⟩,
    fun item hitem => ?_⟩
  · rw [hi] at hx
    rw [InTrash, hl] at htrash
    exact h.trash htrash x item hx
  · rw [InTrash, hl] at htrash
    rw [hin, hd]
    exact (h.above htrash).stands x hx hne hnil
  · rw [InTrash, hl] at htrash
    rw [hi] at hrow
    exact (h.above htrash).others x item hx hne hrow
  · rw [hi] at hitem
    exact h.row item hitem

/-- What is owned lies above no path that is settled. -/
theorem Settled.not_beneath (h : Settled user s q) (hp : Owned s user p) (htrash : ¬ s.InTrash q) :
    ¬ p <:+ q := by
  intro hsuf
  rcases hp with ⟨item, hp, howner⟩ | ⟨entry, found, rfl, -, -⟩
  · by_cases hsame : p = q
    · exact h.row item (hsame ▸ hp) howner
    · exact (h.above htrash).others p item hsuf hsame hp howner
  · apply htrash
    rw [InTrash, ← getLast?_of_suffix hsuf (cons_ne_nil _ _)]
    rfl

/-! ### Links -/

/-- What has no private item above it is not moved by a lift. -/
theorem Movable.get?_plain {n m : Text} {dp dt : Path} {item : Item} (h : Movable s n dp m dt)
    (hlift : Liftable s n dp dt item) (hx : s.layout.Unsealed x) :
    (s.moved (n :: dp) m dt).disk.get? x = s.disk.get? x := by
  have hout : ∀ d : Path, ¬ s.layout.diskName item.id :: d <:+ x := by
    intro d hsuf
    have hname := hx _ (hsuf.subset mem_cons_self)
    rw [Layout.isDiskName_diskName] at hname
    cases hname
  refine get?_relocate_other h.vacant ?_ ?_
  · rw [diskIn_cons_some hlift.row]
    exact hout _
  · rw [landing, diskLeaf_some hlift.row]
    exact hout _

theorem NoLinks.moved {n m : Text} {dp dt : Path} {item : Item} (h : NoLinks s user) (hmove : Movable s n dp m dt)
    (ht : Tidy s) (hlift : Liftable s n dp dt item) (hnamed : s.EntriesNamed) :
    NoLinks (s.moved (n :: dp) m dt) user := by
  refine ⟨fun p other hp hlink => ?_, ?_, fun entry found hfound howner hlink => ?_⟩
  · rcases hmove.row_cases ht hp with ⟨hold, hout, -⟩ | ⟨q, rfl, hold⟩
    · exact h.items p other hold (hmove.own_before ht hlift hold hout Layout.unsealed_nil (r := []) hlink)
    · have hsame := hmove.files_within ht q []
      rw [nil_append, hlink] at hsame
      exact h.items _ other hold hsame.symm
  · have hplain : (s.moved (n :: dp) m dt).disk.get? [s.layout.trashName] = s.disk.get? [s.layout.trashName] :=
      hmove.get?_plain hlift (.cons Layout.isDiskName_trashName Layout.unsealed_nil)
    show (s.moved (n :: dp) m dt).disk.get? [s.layout.trashName] = none ∨
      (s.moved (n :: dp) m dt).disk.get? [s.layout.trashName] = some .dir
    rw [hplain]
    exact h.trash
  · have hplain : (s.moved (n :: dp) m dt).disk.get? [entry, s.layout.trashName] = s.disk.get? [entry, s.layout.trashName] :=
      hmove.get?_plain hlift (Owned.unsealed (.inr ⟨entry, found, rfl, hfound, howner⟩) ht hnamed)
    exact h.entries entry found hfound howner (hplain.symm.trans hlink)

theorem NoLinks.pruned (h : NoLinks s user) : NoLinks (s.pruned p) user := by
  refine ⟨fun q item hq hlink => ?_, ?_, fun entry found hfound howner hlink => ?_⟩
  · obtain ⟨hq, hout⟩ := get?_pruned hq
    rw [diskIn_pruned hout] at hlink
    exact h.items q item hq (disk_of_pruned hlink)
  · cases hget : (s.pruned p).disk.get? [s.layout.trashName] with
    | none => exact .inl hget
    | some entry =>
      have hbefore := disk_of_pruned hget
      rcases h.trash with hnone | hdir
      · rw [hnone] at hbefore
        cases hbefore
      · rw [hdir] at hbefore
        exact .inr (hget.trans hbefore.symm)
  · exact h.entries entry found hfound howner (disk_of_pruned hlink)

end Drive

end LibreServ.Files
