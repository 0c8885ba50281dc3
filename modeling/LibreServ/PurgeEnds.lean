import LibreServ.PurgeRounds

/-! A deletion from beginning to end. With each turn the user has an item less, or a trash entry less that has not been
tried, so the turns come to an end. What is left then is the origin of each trash entry whose name ends in white space. -/

namespace LibreServ.Files

open FileTree Drive List Table

variable {e : Steps} {order : RowOrder} {driveId user : Text} {s s' s₀ : Drive} {w : Stores}

/-! ### A turn -/

/-- Paths of items in the trash are spelled as one spells them, and the alias of the trash is in no path. -/
def Drive.Distinct (s : Drive) : Prop :=
  (∀ p item, s.items.get? p = some item → s.InTrash p → Folded p) ∧ s.AliasApart

/-- Before each turn, in a run that began at `s₀`. -/
structure Drive.Purging (user : Text) (s₀ : Drive) (attempted : List Path) (s : Drive) : Prop where
  tidy : Tidy s
  links : NoLinks s user
  named : s.EntriesNamed
  settled : ∀ q ∈ attempted, Settled user s q
  spared : Spared user s₀ s
  known : ∀ entry found, s.trashMeta.get? entry = some found → s₀.trashMeta.get? entry = some found
  tried : ∀ entry found, s.trashMeta.get? entry = some found → EndsPlain entry → [entry, s.layout.trashName] ∉ attempted
  remembered : s₀.Distinct → ∀ entry found, s₀.trashMeta.get? entry = some found → found.privateOwner = user →
    ¬ EndsPlain entry → s.trashMeta.get? entry = some found
  inTrash : ∀ q item, s.items.get? q = some item → s.InTrash q → s₀.items.get? q = some item
  apart : s₀.AliasApart → s.AliasApart

/-- How much there is to delete: the user's items, and the trash entries that have not been tried. -/
def userIds (user : Text) (s : Drive) : Finset ItemId :=
  ((s.items.select fun _ item => item.owner = user).map fun r => r.2.id).toFinset

def untriedEntries (user : Text) (attempted : List Path) (s : Drive) : Finset Text :=
  ((s.trashMeta.select fun entry found => found.privateOwner = user ∧ [entry, s.layout.trashName] ∉ attempted).map
    Prod.fst).toFinset

def leftToDelete (user : Text) (attempted : List Path) (s : Drive) : Nat :=
  (userIds user s).card + (untriedEntries user attempted s).card

theorem mem_userIds {id : ItemId} : id ∈ userIds user s ↔
    ∃ p item, s.items.get? p = some item ∧ item.owner = user ∧ item.id = id := by
  rw [userIds, mem_toFinset, mem_map]
  constructor
  · rintro ⟨⟨p, item⟩, hmem, hid⟩
    obtain ⟨hp, howner⟩ := mem_select.mp hmem
    exact ⟨p, item, hp, of_decide_eq_true howner, hid⟩
  · rintro ⟨p, item, hp, howner, hid⟩
    exact ⟨(p, item), mem_select.mpr ⟨hp, decide_eq_true howner⟩, hid⟩

theorem mem_untriedEntries {attempted : List Path} {entry : Text} : entry ∈ untriedEntries user attempted s ↔
    ∃ found, s.trashMeta.get? entry = some found ∧ found.privateOwner = user ∧
      [entry, s.layout.trashName] ∉ attempted := by
  rw [untriedEntries, mem_toFinset, mem_map]
  constructor
  · rintro ⟨⟨entry', found⟩, hmem, rfl⟩
    obtain ⟨hfound, hboth⟩ := mem_select.mp hmem
    exact ⟨found, hfound, of_decide_eq_true hboth⟩
  · rintro ⟨found, hfound, hboth⟩
    exact ⟨(entry, found), mem_select.mpr ⟨hfound, decide_eq_true hboth⟩, rfl⟩

section Turn

variable {attempted : List Path} {p : Path}

theorem Drive.Purging.lifting (h : Purging user s₀ attempted s) (hnext : Next user attempted s p) :
    Lifting user attempted p s s :=
  ⟨h.tidy, h.links, h.named, hnext.owned, hnext.above h.tidy h.settled, h.settled, Spared.of_same rfl rfl rfl, rfl,
    fun _ _ hq _ => hq, id⟩

theorem apiPath_outside (h : ¬ s.InTrash p) : s.apiPath p = p := by
  rw [apiPath, if_neg fun hboth => h hboth.2]

theorem apiPath_inTrash (q : Path) (entry : Text) :
    s.apiPath (q ++ [entry, s.layout.trashName]) = q ++ [entry, trashApiAlias] := by
  have hboth : q ++ [entry, s.layout.trashName] ≠ [s.layout.trashName] ∧
      (q ++ [entry, s.layout.trashName]).getLast? = some s.layout.trashName := by
    constructor
    · intro hone
      have hlen := congrArg length hone
      rw [length_append, length_cons] at hlen
      omega
    · rw [getLast?_append_of_ne_nil _ (cons_ne_nil _ _)]
      rfl
  rw [apiPath, if_pos hboth, dropLast_append_of_ne_nil (cons_ne_nil _ _), append_assoc]
  rfl

theorem exists_of_inTrash (h : s.InTrash p) (hlen : 2 ≤ p.length) :
    ∃ q entry, p = q ++ [entry, s.layout.trashName] := by
  obtain ⟨front, rfl⟩ := getLast?_eq_some_iff.mp h
  rw [length_append, length_singleton] at hlen
  obtain rfl | ⟨q, entry, rfl⟩ := eq_nil_or_concat front
  · rw [length_nil] at hlen
    omega
  · exact ⟨q, entry, by rw [concat_eq_append, append_assoc]; rfl⟩

/-- The name of an entry is a name. -/
theorem EntryName.kept {entry : Text} (h : EntryName entry) : kept entry = true ∧ entry ≠ ['.', '.'] := by
  have hdot := h.head
  constructor
  · rw [Files.kept, Bool.and_eq_true, decide_eq_true_eq, decide_eq_true_eq]
    constructor
    · rintro rfl
      obtain ⟨lead, rest, hne, -, hnil⟩ := h.lead
      exact hne (append_eq_nil_iff.mp hnil.symm).1
    · rintro rfl
      exact hdot rfl
  · rintro rfl
    exact hdot rfl

/-- A name that ends in white space is not forgotten. -/
theorem Drive.Purging.not_forgotten (h : Purging user s₀ attempted s) (hnext : Next user attempted s p)
    (hdistinct : s₀.Distinct) {entry : Text} {found : TrashMeta} (hfound : s.trashMeta.get? entry = some found)
    (howner : found.privateOwner = user) (hplain : ¬ EndsPlain entry) :
    canonicalPath (spelled (s.apiPath p)) ≠ .ok [entry, trashApiAlias] := by
  intro hcanonical
  by_cases htrash : s.InTrash p
  · obtain ⟨q, name, rfl⟩ := exists_of_inTrash htrash (hnext.owned.length_of_inTrash h.tidy htrash)
    rw [apiPath_inTrash] at hcanonical
    have hfolded : Folded (q ++ [name, trashApiAlias]) := by
      have halias : kept trashApiAlias = true ∧ '/' ∉ trashApiAlias := ⟨by decide, by decide⟩
      rcases hnext.owned with ⟨item, hp, -⟩ | ⟨entry', found', heq, hfound', -⟩
      · have hp₀ := hdistinct.1 _ item (h.inTrash _ item hp htrash)
          (show s₀.InTrash _ by rw [InTrash, ← h.spared.layout]; exact htrash)
        intro seg hseg
        rcases mem_append.mp hseg with hseg | hseg
        · exact hp₀ seg (mem_append_left _ hseg)
        · rcases mem_cons.mp hseg with rfl | hseg
          · exact hp₀ seg (mem_append_right _ mem_cons_self)
          · rw [mem_singleton.mp hseg]
            exact halias
      · obtain ⟨rfl, htail⟩ := append_inj' (show q ++ [name, s.layout.trashName] = [] ++ [entry', s.layout.trashName] from heq) rfl
        have hname := h.named entry' found' hfound'
        intro seg hseg
        rcases mem_cons.mp hseg with rfl | hseg
        · rw [(cons.inj htail).1]
          exact ⟨hname.kept.1, hname.slash⟩
        · rw [mem_singleton.mp hseg]
          exact halias
    rcases canonicalPath_alias hfolded hcanonical with ⟨-, hends⟩ | ⟨hne, rfl⟩
    · exact hplain hends
    -- The entry itself has been tried, and no item is left in it.
    have hlong : 1 ≤ q.length := length_pos_iff.mpr hne
    have htried := hnext.outermost [entry, s.layout.trashName] (.inr ⟨entry, found, rfl, hfound, howner⟩) (by simp; omega)
    rcases hnext.owned with ⟨item, hp, -⟩ | ⟨entry', -, heq, -⟩
    · exact (h.settled _ htried).trash rfl _ item hp (suffix_append _ _)
    · have hlen := congrArg length heq
      rw [length_append] at hlen
      simp only [length_cons] at hlen
      omega
  · rw [apiPath_outside htrash] at hcanonical
    obtain ⟨item, hp, -⟩ := hnext.owned.row htrash
    obtain ⟨seg, hseg, hin⟩ := alias_infix_of_isTrashApi hcanonical (isTrashApi_alias [] entry)
    exact h.apart hdistinct.2 p item hp seg hseg hin

/-- After the turn, with the entry forgotten. -/
theorem Drive.Purging.after (h : Purging user s₀ attempted s) (hnext : Next user attempted s p) {s₁ s₃ : Drive}
    (hlifting : Lifting user attempted p s s₁) (hmine : ∀ q item, s₁.items.get? q = some item → p <:+ q → item.owner = user)
    (hs₃ : s₃ = forgotten (s.apiPath p) (s₁.pruned p)) :
    Purging user s₀ (p :: attempted) s₃ ∧ leftToDelete user (p :: attempted) s₃ < leftToDelete user attempted s := by
  obtain ⟨hl, hd, hi⟩ := forgotten_rows (s.apiPath p) (s₁.pruned p)
  rw [← hs₃] at hl hd hi
  have hlayout : s₃.layout = s.layout := hl.trans hlifting.spared.layout
  have hunsealed := hlifting.owned.unsealed hlifting.tidy hlifting.named
  have hrow : ∀ q item, s₃.items.get? q = some item → s₁.items.get? q = some item ∧ ¬ p <:+ q := by
    intro q item hq
    rw [hi] at hq
    exact get?_pruned hq
  have hmeta : ∀ entry found, s₃.trashMeta.get? entry = some found → s.trashMeta.get? entry = some found := by
    intro entry found hfound
    rw [← hlifting.origins]
    rcases forgotten_cases (s.apiPath p) (s₁.pruned p) with hsame | ⟨name, -, herased⟩
    · rwa [hs₃, hsame] at hfound
    · rw [hs₃, herased, get?_erase] at hfound
      split at hfound
      · cases hfound
      · exact hfound
  constructor
  · refine ⟨(hlifting.tidy.prune hunsealed).congr hl (fun _ => by rw [hd]; rfl) (fun _ => by rw [hi]; rfl), ?_, ?_, ?_, ?_,
      fun entry found hfound => h.known entry found (hmeta entry found hfound), ?_, ?_, ?_, ?_⟩
    · have hlinks : NoLinks (s₁.pruned p) user := hlifting.links.pruned
      have hin : ∀ q, s₃.diskIn q = (s₁.pruned p).diskIn q := fun q => diskIn_congr _ s₃ hl fun _ _ => by rw [hi]
      refine ⟨fun q item hq => ?_, ?_, fun entry found hfound howner => ?_⟩
      · rw [hi] at hq
        rw [hin, hd]
        exact hlinks.items q item hq
      · rw [hd, hl]
        exact hlinks.trash
      · rw [hd, hl]
        refine hlinks.entries entry found ?_ howner
        exact (congrArg (Table.get? · entry) hlifting.origins).trans (hmeta entry found hfound)
    · exact fun entry found hfound => h.named entry found (hmeta entry found hfound)
    · intro q hq
      refine Settled.congr ?_ hl hd hi
      rcases mem_cons.mp hq with rfl | hq
      · exact Above.settled hlifting.above hlifting.tidy hunsealed
      · refine (hlifting.settled q hq).pruned hlifting.tidy hunsealed fun htrash => ?_
        exact (hlifting.settled q hq).not_beneath hlifting.owned htrash
    · have hpruned := hlifting.owned.spared hlifting.tidy hlifting.named hmine
      exact ((h.spared.trans hlifting.spared).trans hpruned).trans (Spared.of_same hl hd hi)
    · intro entry found hfound hplain hmem
      rw [hlayout] at hmem
      rcases mem_cons.mp hmem with hp | hmem
      · -- This turn has forgotten the entry.
        have hname := h.named entry found (hmeta entry found hfound)
        have hapi : s.apiPath p = [entry, trashApiAlias] := by
          rw [← hp]
          exact apiPath_inTrash [] entry
        rw [hs₃, hapi, forgotten_entry (canonicalPath_entry hname.kept.1 hname.kept.2 hname.slash hname.backslash hplain), get?_erase, if_pos rfl] at hfound
        cases hfound
      · exact h.tried entry found (hmeta entry found hfound) hplain hmem
    · intro hdistinct entry found hfound howner hplain
      have hthere := h.remembered hdistinct entry found hfound howner hplain
      rcases forgotten_cases (s.apiPath p) (s₁.pruned p) with hsame | ⟨name, hname, herased⟩
      · rw [hs₃, hsame]
        exact (congrArg (Table.get? · entry) hlifting.origins).trans hthere
      · rw [hs₃, herased, get?_erase, if_neg]
        · exact (congrArg (Table.get? · entry) hlifting.origins).trans hthere
        · rintro rfl
          exact h.not_forgotten hnext hdistinct hthere howner hplain hname
    · intro q item hq htrash
      rw [InTrash, hlayout] at htrash
      have hq₁ := (hrow q item hq).1
      refine h.inTrash q item (hlifting.inTrash q item hq₁ ?_) htrash
      rw [InTrash, hlifting.spared.layout]
      exact htrash
    · intro hapart q item hq
      exact hlifting.apart (h.apart hapart) q item (hrow q item hq).1
  · have hids : userIds user s₃ ⊆ userIds user s := by
      intro id hid
      obtain ⟨q, item, hq, howner, rfl⟩ := mem_userIds.mp hid
      obtain ⟨q', hq'⟩ := hlifting.spared.rows q item (hrow q item hq).1
      exact mem_userIds.mpr ⟨q', item, hq', howner, rfl⟩
    have hentries : untriedEntries user (p :: attempted) s₃ ⊆ untriedEntries user attempted s := by
      intro entry hentry
      obtain ⟨found, hfound, howner, huntried⟩ := mem_untriedEntries.mp hentry
      rw [hlayout] at huntried
      exact mem_untriedEntries.mpr ⟨found, hmeta entry found hfound, howner, fun hmem => huntried (mem_cons_of_mem p hmem)⟩
    rcases hlifting.owned with ⟨item, hp, howner⟩ | ⟨entry, found, hp, hfound, howner⟩
    · have hgone : item.id ∉ userIds user s₃ := by
        intro hid
        obtain ⟨q, item', hq, -, hsame⟩ := mem_userIds.mp hid
        obtain ⟨hq, hout⟩ := hrow q item' hq
        exact hout (hlifting.tidy.ids _ _ _ _ hp hq hsame.symm ▸ suffix_refl _)
      obtain ⟨p', hp'⟩ := hlifting.spared.rows p item hp
      have hfewer : (userIds user s₃).card < (userIds user s).card := Finset.card_lt_card
        (Finset.ssubset_iff_subset_ne.mpr ⟨hids, fun heq => hgone (heq ▸ mem_userIds.mpr ⟨p', item, hp', howner, rfl⟩)⟩)
      have hle := Finset.card_le_card hentries
      rw [leftToDelete, leftToDelete]
      omega
    · have hgone : entry ∉ untriedEntries user (p :: attempted) s₃ := by
        intro hentry
        obtain ⟨-, -, -, huntried⟩ := mem_untriedEntries.mp hentry
        rw [hlayout, ← hlifting.spared.layout, ← hp] at huntried
        exact huntried mem_cons_self
      have hthere : entry ∈ untriedEntries user attempted s := by
        refine mem_untriedEntries.mpr ⟨found, hlifting.origins ▸ hfound, howner, ?_⟩
        rw [← hlifting.spared.layout, ← hp]
        exact hnext.untried
      have hfewer : (untriedEntries user (p :: attempted) s₃).card < (untriedEntries user attempted s).card :=
        Finset.card_lt_card (Finset.ssubset_iff_subset_ne.mpr ⟨hentries, fun heq => hgone (heq ▸ hthere)⟩)
      have hle := Finset.card_le_card hids
      rw [leftToDelete, leftToDelete]
      omega

/-- **One turn of the loop**, and there is less to delete. -/
theorem purgeRounds_turn (he : e.Unfailing) (order : RowOrder) (driveId : Text) (h : Purging user s₀ attempted w.drive)
    (hfind : (ownedPaths e user w.drive).find? (· ∉ attempted) = some p) (n : Nat) (failed : Bool) :
    ∃ w', purgeRounds e order driveId user (n + 1) attempted failed w =
        purgeRounds e order driveId user n (p :: attempted) failed w' ∧
      Purging user s₀ (p :: attempted) w'.drive ∧
      leftToDelete user (p :: attempted) w'.drive < leftToDelete user attempted w.drive := by
  have hnext : Next user attempted w.drive p := next_of_find? he.toCalm hfind
  obtain ⟨w₁, s₁, hpurge, hpruned, hlifting, hmine⟩ := (h.lifting hnext).purges he order driveId
  have hapi : w₁.drive.apiPath p = w.drive.apiPath p := by
    rw [apiPath, apiPath, hpruned, show (s₁.pruned p).layout = w.drive.layout from hlifting.spared.layout]
  have hforget := forgetTrashEntry_calm he.toCalm (w₁.drive.apiPath p) w₁
  obtain ⟨_, w', hdrop, hdrive⟩ := (dropSubjectsUnder_aside e driveId (spelled (w₁.drive.apiPath p))
    { w₁ with drive := forgotten (w₁.drive.apiPath p) w₁.drive }).ok (.inr fun table => he.tableGoes _ _ table)
  have hs₃ : w'.drive = forgotten (w.drive.apiPath p) (s₁.pruned p) := by
    rw [hdrive, hapi, hpruned]
  refine ⟨w', ?_, h.after hnext hlifting hmine hs₃⟩
  have hget : ∀ w : Stores, (get : Act Stores) w = .ok w w := fun _ => rfl
  have hsucceeds : succeeds (purgeOwnedPath e order driveId user p) w = .ok true w₁ := by
    rw [succeeds, hpurge]
  rw [purgeRounds, run_of_ok (hget w), hfind]
  dsimp only
  rw [run_of_ok hsucceeds, if_pos rfl, run_of_ok (hget w₁), run_of_ok hforget, run_of_ok hdrop]

/-- When no turn is left. -/
structure Drive.Ended (user : Text) (s s' : Drive) : Prop where
  exists_purging : ∃ attempted, Purging user s attempted s' ∧ ∀ p, Owned s' user p → p ∈ attempted

/-- **The turns come to an end**, and none of them has failed. -/
theorem purgeRounds_ends (he : e.Unfailing) (order : RowOrder) (driveId : Text) (n : Nat)
    (h : Purging user s₀ attempted w.drive) (hfuel : leftToDelete user attempted w.drive < n) :
    ∃ w', purgeRounds e order driveId user n attempted false w = .ok (some false) w' ∧ Ended user s₀ w'.drive := by
  induction n generalizing w attempted with
  | zero => omega
  | succ n ih =>
    cases hfind : (ownedPaths e user w.drive).find? (· ∉ attempted) with
    | none =>
      refine ⟨w, ?_, ⟨attempted, h, fun p hp => ?_⟩⟩
      · rw [purgeRounds, run_of_ok (rfl : (get : Act Stores) w = .ok w w), hfind]
        rfl
      · have hmem := (mem_ownedPaths he.toCalm).mpr hp
        simpa using find?_eq_none.mp hfind p hmem
    | some p =>
      obtain ⟨w₁, hturn, hpurging, hless⟩ := purgeRounds_turn he order driveId h hfind n false
      rw [hturn]
      exact ih hpurging (by omega)

end Turn

/-! ### One drive -/

/-- A drive as Luna keeps it, on which no link is in the way. -/
structure Drive.Sound (user : Text) (s : Drive) : Prop where
  wellFormed : s.WellFormed
  inStep : s.InStep
  named : s.EntriesNamed
  links : s.NoLinks user

/-- Nothing of the user's is left, and everything of anyone else is there. -/
structure Drive.Purged (user : Text) (s s' : Drive) : Prop where
  inStep : s'.InStep
  rows : ∀ p item, s'.items.get? p = some item → item.owner ≠ user
  entries : ∀ entry found, s'.trashMeta.get? entry = some found → found.privateOwner ≠ user
  spared : Spared user s s'

/-- No trash entry recorded for the user has a name that ends in white space. -/
def Drive.EntriesEndPlain (user : Text) (s : Drive) : Prop :=
  ∀ entry found, s.trashMeta.get? entry = some found → found.privateOwner = user → EndsPlain entry

theorem Drive.Sound.purging (h : Sound user s) : Purging user s [] s :=
  ⟨h.inStep.tidy h.wellFormed, h.links, h.named, fun _ hq => absurd hq not_mem_nil, Spared.of_same rfl rfl rfl,
    fun _ _ hfound => hfound, fun _ _ _ _ => not_mem_nil, fun _ _ _ hfound _ _ => hfound, fun _ _ hq _ => hq, id⟩

theorem Drive.Ended.purged (h : Ended user s s') (hplain : s.EntriesEndPlain user) : Purged user s s' := by
  obtain ⟨attempted, hpurging, hall⟩ := h.exists_purging
  refine ⟨hpurging.tidy.inStep, fun p item hp howner => ?_, fun entry found hfound howner => ?_, hpurging.spared⟩
  · exact (hpurging.settled p (hall p (.inl ⟨item, hp, howner⟩))).row item hp howner
  · have hends := hplain entry found (hpurging.known entry found hfound) howner
    exact hpurging.tried entry found hfound hends (hall _ (.inr ⟨entry, found, rfl, hfound, howner⟩))

theorem Drive.Ended.plain (h : Ended user s s') (hdistinct : s.Distinct) (hpurged : Purged user s s') :
    s.EntriesEndPlain user := by
  intro entry found hfound howner
  by_contra hplain
  obtain ⟨attempted, hpurging, -⟩ := h.exists_purging
  exact hpurged.entries entry found (hpurging.remembered hdistinct entry found hfound howner hplain) howner

/-! ### All drives -/

/-- The drives that a deletion writes on. -/
def DriveRow.Writable (d : DriveRow) : Prop := d.mounted = true ∧ d.state = .asIs

/-- What has become of each drive. -/
def DriveRow.After (P : Drive → Drive → Prop) (d d' : DriveRow) : Prop :=
  (d.Writable → P d.drive d'.drive) ∧ (¬ d.Writable → d' = d)

theorem purgeOrphan_ends (he : e.Unfailing) (order : RowOrder) (user : Text) (drives : List DriveRow)
    (hsound : ∀ d ∈ drives, d.Writable → d.drive.Sound user) :
    ∃ n, ∀ fuel, n ≤ fuel → ∀ subjects report, ∃ cleaned report',
      purgeOrphan e order user fuel drives subjects report = some cleaned ∧ cleaned.outcome = .ok report' ∧
      report'.failedDrives = report.failedDrives ∧ List.Forall₂ (DriveRow.After (Ended user)) drives cleaned.drives := by
  induction drives with
  | nil => exact ⟨0, fun fuel _ subjects report => ⟨_, report, rfl, rfl, rfl, .nil⟩⟩
  | cons d rest ih =>
    obtain ⟨n, hrest⟩ := ih fun d' hd' => hsound d' (mem_cons_of_mem d hd')
    refine ⟨max n (leftToDelete user [] d.drive + 1), fun fuel hfuel subjects report => ?_⟩
    have hn : n ≤ fuel := (Nat.le_max_left _ _).trans hfuel
    have hleft : leftToDelete user [] d.drive < fuel := (Nat.le_max_right _ _).trans hfuel
    rw [purgeOrphan]
    by_cases hoffline : d.mounted = false ∨ d.state = .other
    · have hnot : ¬ d.Writable := by
        rintro ⟨hmounted, hstate⟩
        rw [hmounted, hstate] at hoffline
        rcases hoffline with h | h <;> cases h
      obtain ⟨cleaned, report', hrun, hout, hfailed, hdrives⟩ := hrest fuel hn subjects
        { report with offlineDrives := report.offlineDrives ++ [d.label] }
      rw [if_pos hoffline, hrun]
      exact ⟨_, report', rfl, hout, hfailed, .cons ⟨fun h => absurd h hnot, fun _ => rfl⟩ hdrives⟩
    · rw [if_neg hoffline]
      by_cases hreadonly : d.state = .readonly
      · have hnot : ¬ d.Writable := by
          rintro ⟨-, hstate⟩
          rw [hstate] at hreadonly
          cases hreadonly
        rw [if_pos hreadonly]
        obtain ⟨cleaned, report', hrun, hout, hfailed, hdrives⟩ := hrest fuel hn subjects
          { report with
            skippedReadonly := report.skippedReadonly ++ if ownedPaths e user d.drive = [] then [] else [d.label] }
        dsimp only
        rw [hrun]
        exact ⟨_, report', rfl, hout, hfailed, .cons ⟨fun h => absurd h hnot, fun _ => rfl⟩ hdrives⟩
      · rw [if_neg hreadonly]
        have hwritable : d.Writable := by
          rw [not_or, Bool.not_eq_false] at hoffline
          refine ⟨hoffline.1, ?_⟩
          cases hstate : d.state with
          | asIs => rfl
          | readonly => exact absurd hstate hreadonly
          | other => exact absurd hstate hoffline.2
        have hpurging := (hsound d mem_cons_self hwritable).purging
        obtain ⟨w', hrounds, hended⟩ := purgeRounds_ends (w := ⟨d.drive, subjects⟩) he order d.id fuel hpurging hleft
        obtain ⟨cleaned, report', hrun, hout, hfailed, hdrives⟩ := hrest fuel hn w'.subjects
          { report with failedDrives := report.failedDrives ++ [] }
        rw [hrounds]
        dsimp only
        rw [if_neg Bool.false_ne_true, hrun]
        refine ⟨_, report', rfl, hout, ?_, .cons ⟨fun _ => hended, fun h => absurd hwritable h⟩ hdrives⟩
        rw [hfailed, append_nil]

/-- The deletion ends and reports no failure, and on every drive it may write on nothing of the user's is left and all
the rest is spared. -/
def Purges (e : Steps) (order : RowOrder) (user : Text) (drives : List DriveRow)
    (subjects : SubjectTable → Table Text Subject) : Prop :=
  ∃ n, ∀ fuel, n ≤ fuel → ∃ cleaned report, purgeOrphan e order user fuel drives subjects ⟨[], [], []⟩ = some cleaned ∧
    cleaned.outcome = .ok report ∧ report.failedDrives = [] ∧
    List.Forall₂ (DriveRow.After (Purged user)) drives cleaned.drives

/-- If no such name ends in white space, all of it goes. -/
theorem purges_of_plain (he : e.Unfailing) (order : RowOrder) {user : Text} {drives : List DriveRow}
    (subjects : SubjectTable → Table Text Subject) (hsound : ∀ d ∈ drives, d.Writable → d.drive.Sound user)
    (hplain : ∀ d ∈ drives, d.Writable → d.drive.EntriesEndPlain user) : Purges e order user drives subjects := by
  obtain ⟨n, hends⟩ := purgeOrphan_ends he order user drives hsound
  refine ⟨n, fun fuel hfuel => ?_⟩
  obtain ⟨cleaned, report, hrun, hout, hfailed, hdrives⟩ := hends fuel hfuel subjects ⟨[], [], []⟩
  refine ⟨cleaned, report, hrun, hout, hfailed, forall₂_iff_zip.mpr ⟨hdrives.length_eq, fun {d d'} hmem => ?_⟩⟩
  obtain ⟨hwritten, hother⟩ := (forall₂_iff_zip.mp hdrives).2 hmem
  exact ⟨fun hd => (hwritten hd).purged (hplain d (of_mem_zip hmem).1 hd), hother⟩

theorem plain_of_purges (he : e.Unfailing) {order : RowOrder} {user : Text} {drives : List DriveRow}
    {subjects : SubjectTable → Table Text Subject} (hsound : ∀ d ∈ drives, d.Writable → d.drive.Sound user)
    (hdistinct : ∀ d ∈ drives, d.Writable → d.drive.Distinct) (h : Purges e order user drives subjects) :
    ∀ d ∈ drives, d.Writable → d.drive.EntriesEndPlain user := by
  intro d hd hwritable
  obtain ⟨n, hends⟩ := purgeOrphan_ends he order user drives hsound
  obtain ⟨m, hpurges⟩ := h
  obtain ⟨cleaned, report, hrun, -, -, hdrives⟩ := hends (max n m) (Nat.le_max_left _ _) subjects ⟨[], [], []⟩
  obtain ⟨cleaned', _, hrun', -, -, hpurged⟩ := hpurges (max n m) (Nat.le_max_right _ _)
  rw [hrun] at hrun'
  obtain rfl := Option.some.inj hrun'
  obtain ⟨i, hi, rfl⟩ := mem_iff_getElem.mp hd
  have hi' : i < cleaned.drives.length := hdrives.length_eq ▸ hi
  have hmem : (drives[i], cleaned.drives[i]) ∈ drives.zip cleaned.drives := by
    rw [← getElem_zip (h := by rw [length_zip]; omega)]
    exact getElem_mem _
  have hended := ((forall₂_iff_zip.mp hdrives).2 hmem).1 hwritable
  exact hended.plain (hdistinct _ hd hwritable) (((forall₂_iff_zip.mp hpurged).2 hmem).1 hwritable)

/-- **Where no file operation fails, a deletion takes everything of the user's and spares the rest**, if no trash entry
recorded for the user has a name that ends in white space; and, where the paths are distinct, only then. -/
theorem purges_iff_entriesEndPlain (he : e.Unfailing) (order : RowOrder) (user : Text) (drives : List DriveRow)
    (subjects : SubjectTable → Table Text Subject) (hsound : ∀ d ∈ drives, d.Writable → d.drive.Sound user) :
    ((∀ d ∈ drives, d.Writable → d.drive.EntriesEndPlain user) → Purges e order user drives subjects) ∧
      ((∀ d ∈ drives, d.Writable → d.drive.Distinct) → Purges e order user drives subjects →
        ∀ d ∈ drives, d.Writable → d.drive.EntriesEndPlain user) :=
  ⟨purges_of_plain he order subjects hsound, plain_of_purges he hsound⟩

/-! ### A drive with private items of three people -/

def calmSteps : Steps := ⟨calmEnv.os, true, true, true, true, true, fun _ => true, fun _ _ => true⟩

theorem calmSteps_unfailing : calmSteps.Unfailing :=
  ⟨⟨rfl, rfl, rfl, rfl, rfl, fun _ => rfl, fun _ _ => rfl, fun _ => rfl⟩, fun _ _ => rfl, fun _ => rfl⟩

def asStored : RowOrder := ⟨id, fun l => List.Perm.refl l⟩

def withId (id : ItemId) : Env := { calmEnv with newId := id }

/-- Ann's folder holds one of Bob's, which holds one of Ann's again, and so on; what is deleted last is in the trash. -/
def nestedCalls (deleted : Text) : List (Env × Call) :=
  [(withId ⟨"aaaaaaaaaaaaaaaaaaaaaaaaaa".toList, by decide⟩, .mkdirAs "P".toList (some "ann".toList)),
    (calmEnv, .create "P/diary".toList),
    (withId ⟨"bbbbbbbbbbbbbbbbbbbbbbbbbb".toList, by decide⟩, .mkdirAs "P/B".toList (some "bob".toList)),
    (withId ⟨"cccccccccccccccccccccccccc".toList, by decide⟩, .mkdirAs "P/B/A".toList (some "ann".toList)),
    (withId ⟨"dddddddddddddddddddddddddd".toList, by decide⟩, .mkdirAs "P/B/A/C".toList (some "cat".toList)),
    (calmEnv, .create "P/B/A/C/list".toList),
    (calmEnv, .mkdirAs deleted none), (calmEnv, .deleteToTrash deleted)]

def nestedDrive (deleted : Text) : Drive := (runCalls (fun _ => []) (nestedCalls deleted) freshDrive).toOption.getD freshDrive

/-- What is asked of a drive but for its invariants, row by row. -/
def Drive.rowsSound (user : Text) (s : Drive) : Bool :=
  s.items.rows.all (fun r => s.disk.get? (s.diskIn r.1) ≠ some .link &&
      r.1.all fun seg => kept seg && '/' ∉ seg && decide (¬ trashApiAlias <:+: seg)) &&
    (s.disk.get? [s.layout.trashName] = none || s.disk.get? [s.layout.trashName] = some .dir) &&
    s.trashMeta.rows.all fun r => r.2.privateOwner ≠ user || s.disk.get? [r.1, s.layout.trashName] ≠ some .link

theorem nestedDrive_sound {deleted user : Text}
    (h : (runCalls (fun _ => []) (nestedCalls deleted) freshDrive).isOk = true ∧
      CleanRun (fun _ => []) (nestedCalls deleted) freshDrive ∧ (nestedDrive deleted).rowsSound user = true) :
    (nestedDrive deleted).Sound user ∧ (nestedDrive deleted).Distinct := by
  obtain ⟨hok, hclean, hrows⟩ := h
  have hrun : runCalls (fun _ => []) (nestedCalls deleted) freshDrive = .ok (nestedDrive deleted) :=
    eq_ok_of_isOk freshDrive hok
  have hfresh := freshDrive_inStep.tidy freshDrive_wellFormed
  have htidy := runCalls_tidy hfresh hclean hrun
  have hnamed := runCalls_named hfresh (fun _ _ hfound => (nomatch hfound)) hclean hrun
  rw [rowsSound, Bool.and_eq_true, Bool.and_eq_true, all_eq_true, all_eq_true, Bool.or_eq_true] at hrows
  obtain ⟨⟨hitems, htrash⟩, hentries⟩ := hrows
  have hitem : ∀ p item, (nestedDrive deleted).items.get? p = some item →
      (nestedDrive deleted).disk.get? ((nestedDrive deleted).diskIn p) ≠ some .link ∧
        ∀ seg ∈ p, (kept seg = true ∧ '/' ∉ seg) ∧ ¬ trashApiAlias <:+: seg := by
    intro p item hp
    have hboth := hitems (p, item) (mem_rows.mpr hp)
    rw [Bool.and_eq_true, decide_eq_true_eq, all_eq_true] at hboth
    refine ⟨hboth.1, fun seg hseg => ?_⟩
    have hall := hboth.2 seg hseg
    rw [Bool.and_eq_true, Bool.and_eq_true, decide_eq_true_eq, decide_eq_true_eq] at hall
    exact hall
  constructor
  · refine ⟨htidy.toWellFormed, htidy.inStep, hnamed, ⟨fun p item hp => (hitem p item hp).1,
      htrash.imp of_decide_eq_true of_decide_eq_true, fun entry found hfound howner => ?_⟩⟩
    have hboth := hentries (entry, found) (mem_rows.mpr hfound)
    rw [Bool.or_eq_true] at hboth
    exact of_decide_eq_true (hboth.resolve_left fun hne => of_decide_eq_true hne howner)
  · exact ⟨fun p item hp _ seg hseg => ((hitem p item hp).2 seg hseg).1, fun p item hp seg hseg => ((hitem p item hp).2 seg hseg).2⟩

def writableDrive (s : Drive) : DriveRow := ⟨"d".toList, "Disk".toList, true, .asIs, s⟩

theorem nested_purged : Purges calmSteps asStored "ann".toList [writableDrive (nestedDrive "P/a".toList)]
      (fun _ => Table.empty) ∧
    (nestedDrive "P/a".toList).EntriesEndPlain "ann".toList := by
  obtain ⟨hsound, hdistinct⟩ : (nestedDrive "P/a".toList).Sound "ann".toList ∧ (nestedDrive "P/a".toList).Distinct :=
    nestedDrive_sound (by decide +kernel)
  have hrows : (nestedDrive "P/a".toList).trashMeta.rows.all (fun r => decide (EndsPlain r.1)) = true := by decide +kernel
  have hplain : (nestedDrive "P/a".toList).EntriesEndPlain "ann".toList := by
    intro entry found hfound _
    exact of_decide_eq_true (all_eq_true.mp hrows (entry, found) (mem_rows.mpr hfound))
  obtain ⟨hif, honly⟩ := purges_iff_entriesEndPlain calmSteps_unfailing asStored "ann".toList
    [writableDrive (nestedDrive "P/a".toList)] (fun _ => Table.empty)
    fun d hd _ => by rw [mem_singleton.mp hd]; exact hsound
  have hpurges := hif fun d hd _ => by rw [mem_singleton.mp hd]; exact hplain
  refine ⟨hpurges, honly (fun d hd _ => ?_) hpurges _ (mem_singleton_self _) ⟨rfl, rfl⟩⟩
  rw [mem_singleton.mp hd]
  exact hdistinct

/-- The folder `a ` was deleted from Ann's, and the trash remembers it for ever. -/
theorem blank_entry_not_purged : (nestedDrive "P/a /".toList).Sound "ann".toList ∧
    (nestedDrive "P/a /".toList).Distinct ∧
    ¬ Purges calmSteps asStored "ann".toList [writableDrive (nestedDrive "P/a /".toList)] fun _ => Table.empty := by
  obtain ⟨hsound, hdistinct⟩ : (nestedDrive "P/a /".toList).Sound "ann".toList ∧ (nestedDrive "P/a /".toList).Distinct :=
    nestedDrive_sound (by decide +kernel)
  have hmeta : ((nestedDrive "P/a /".toList).trashMeta.get? "5-a ".toList).map TrashMeta.privateOwner =
      some "ann".toList := by decide +kernel
  refine ⟨hsound, hdistinct, fun hpurges => ?_⟩
  obtain ⟨found, hfound, howner⟩ := Option.map_eq_some_iff.mp hmeta
  have hplain := plain_of_purges calmSteps_unfailing (fun d hd _ => by rw [mem_singleton.mp hd]; exact hsound)
    (fun d hd _ => by rw [mem_singleton.mp hd]; exact hdistinct) hpurges _ (mem_singleton_self _) ⟨rfl, rfl⟩
    "5-a ".toList found hfound howner
  exact absurd hplain (by decide)

end LibreServ.Files
