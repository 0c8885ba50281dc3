import LibreServ.PurgeNames

/-! A turn of a deletion. It lifts what belongs to others out of the outermost path that has not been tried, one item
after the other, and deletes the rest; the paths tried before stay settled. -/

namespace LibreServ.Files

open FileTree Drive List Table

variable {e : Steps} {order : RowOrder} {driveId user : Text} {s s' s₀ : Drive} {w : Stores}

/-! ### What is left to delete -/

theorem pairwise_insertionSort_le {α : Type} (f : α → Nat) (l : List α) :
    (l.insertionSort fun a b => f a ≤ f b).Pairwise fun a b => f a ≤ f b := by
  have htotal : Std.Total fun a b : α => f a ≤ f b := ⟨fun a b => Nat.le_total (f a) (f b)⟩
  have htrans : IsTrans α fun a b => f a ≤ f b := ⟨fun _ _ _ hab hbc => Nat.le_trans hab hbc⟩
  exact pairwise_insertionSort _ _

theorem mem_ownedPaths (he : e.Calm) {p : Path} : p ∈ ownedPaths e user s ↔ s.Owned user p := by
  rw [ownedPaths, mem_insertionSort, mem_insertionSort, mem_dedup, if_pos he.readsMeta, mem_append, mem_map, mem_map]
  constructor
  · rintro (⟨⟨q, item⟩, hmem, rfl⟩ | ⟨⟨entry, found⟩, hmem, rfl⟩)
    · obtain ⟨hq, howner⟩ := mem_select.mp hmem
      exact .inl ⟨item, hq, of_decide_eq_true howner⟩
    · obtain ⟨hfound, howner⟩ := mem_select.mp hmem
      exact .inr ⟨entry, found, rfl, hfound, of_decide_eq_true howner⟩
  · rintro (⟨item, hp, howner⟩ | ⟨entry, found, rfl, hfound, howner⟩)
    · exact .inl ⟨(p, item), mem_select.mpr ⟨hp, decide_eq_true howner⟩, rfl⟩
    · exact .inr ⟨(entry, found), mem_select.mpr ⟨hfound, decide_eq_true howner⟩, rfl⟩

/-- The path that is tried next: everything owned that has a shorter path has been tried. -/
structure Next (user : Text) (attempted : List Path) (s : Drive) (p : Path) : Prop where
  owned : s.Owned user p
  untried : p ∉ attempted
  outermost : ∀ q, s.Owned user q → q.length < p.length → q ∈ attempted

theorem next_of_find? (he : e.Calm) {attempted : List Path} {p : Path}
    (h : (ownedPaths e user s).find? (· ∉ attempted) = some p) : Next user attempted s p := by
  obtain ⟨huntried, before, after, hlist, hbefore⟩ := find?_eq_some_iff_append.mp h
  refine ⟨(mem_ownedPaths he).mp (mem_of_find?_eq_some h), of_decide_eq_true huntried, fun q hq hshort => ?_⟩
  have hmem : q ∈ ownedPaths e user s := (mem_ownedPaths he).mpr hq
  have hsorted : (ownedPaths e user s).Pairwise fun a b => a.length ≤ b.length := pairwise_insertionSort_le _ _
  rw [hlist] at hmem hsorted
  rcases mem_append.mp hmem with hmem | hmem
  · simpa using hbefore q hmem
  · rcases mem_cons.mp hmem with rfl | hmem
    · omega
    · have hle := (pairwise_cons.mp (pairwise_append.mp hsorted).2.1).1 q hmem
      omega

/-! ### Where the items inside go -/

theorem isTrashRel_iff_of_row {p : Path} {item : Item} (ht : Tidy s) (hp : s.items.get? p = some item) :
    isTrashRel p = true ↔ s.InTrash p := by
  refine ⟨fun h => ?_, isTrashRel_of_getLast?⟩
  obtain ⟨-, q, r, rfl, hq, hr⟩ := ht.proper p item hp
  rcases hr with rfl | ⟨rfl, -⟩
  · rw [append_nil, isTrashRel] at h
    cases hlast : q.getLast? with
    | none =>
      rw [hlast] at h
      cases h
    | some first =>
      -- The outermost name is not one of Luna's.
      have hluna := hq first (mem_of_getLast? hlast)
      rw [isLunaName, Option.isSome_eq_false_iff, Option.isNone_iff_eq_none] at hluna
      rw [hlast, Option.any_some, hluna] at h
      cases h
  · rw [InTrash, getLast?_append_of_ne_nil _ (cons_ne_nil _ _)]
    rfl

section

variable {p : Path} (h : Owned s user p)
include h

theorem Drive.Owned.isTrashRel_iff (ht : Tidy s) : isTrashRel p = true ↔ s.InTrash p := by
  rcases h with ⟨item, hp, -⟩ | ⟨entry, found, rfl, -, -⟩
  · exact isTrashRel_iff_of_row ht hp
  · exact ⟨fun _ => rfl, isTrashRel_of_getLast?⟩

/-- Outside the trash only items are owned. -/
theorem Drive.Owned.row (htrash : ¬ s.InTrash p) : ∃ item, s.items.get? p = some item ∧ item.owner = user := by
  rcases h with hrow | ⟨entry, found, rfl, -, -⟩
  · exact hrow
  · exact absurd rfl htrash

variable (ht : Tidy s)

include ht

theorem liftDir_inTrash (htrash : s.InTrash p) : liftDir p = [] := by
  rw [liftDir, if_pos ((h.isTrashRel_iff ht).mpr htrash)]

theorem liftDir_outside (htrash : ¬ s.InTrash p) : liftDir p = p.tail := by
  rw [liftDir, if_neg fun htrue => htrash ((h.isTrashRel_iff ht).mp htrue)]

/-- In the trash an item lies in an entry or is one. -/
theorem Drive.Owned.length_of_inTrash (htrash : s.InTrash p) : 2 ≤ p.length := by
  rcases h with ⟨item, hp, -⟩ | ⟨entry, found, rfl, -, -⟩
  · match p, hp, htrash with
    | [n], hp, htrash =>
      rw [InTrash, getLast?_singleton, Option.some.injEq] at htrash
      rw [htrash, ht.trash_not_item] at hp
      cases hp
    | _ :: _ :: _, _, _ => simp
  · simp

/-- Where an item goes that is lifted: not into the trash, and to a shorter path or one as long. -/
theorem Drive.Owned.lifts {m : Text} (hm : isLunaName m = false) :
    s.layout.Proper (m :: liftDir p) ∧ ¬ s.InTrash (m :: liftDir p) ∧ (liftDir p).length < p.length ∧
      (s.InTrash p → liftDir p = [] ∧ 2 ≤ p.length) ∧ (s.diskIn (liftDir p) = [] ∨ s.disk.get? (s.diskIn (liftDir p)) = some .dir) := by
  by_cases htrash : s.InTrash p
  · have hlen := h.length_of_inTrash ht htrash
    rw [liftDir_inTrash h ht htrash]
    refine ⟨proper_of_not_luna (cons_ne_nil _ _) (by simpa using hm), fun hname => ?_, ?_, fun _ => ⟨rfl, hlen⟩, .inl rfl⟩
    · rw [InTrash, getLast?_singleton, Option.some.injEq] at hname
      rw [hname, Layout.trashName, s.layout.isLunaName_pfx] at hm
      cases hm
    · rw [length_nil]
      omega
  · obtain ⟨item, hp, -⟩ := h.row htrash
    rw [liftDir_outside h ht htrash]
    cases p with
    | nil =>
      rw [ht.root_not_item] at hp
      cases hp
    | cons n d =>
      obtain ⟨entry, hentry⟩ := ht.leads _ item hp
      refine ⟨(ht.proper _ item hp).renamed (q := []) hm, fun hname => ?_, by simp, fun h => absurd h htrash,
        ht.grown _ _ entry trivial hentry⟩
      rw [tail_cons] at hname
      cases d with
      | nil =>
        rw [InTrash, getLast?_singleton, Option.some.injEq] at hname
        rw [hname, Layout.trashName, s.layout.isLunaName_pfx] at hm
        cases hm
      | cons n' d =>
        exact htrash hname

end

/-! ### A lift and the next -/

/-- No path of an item has the name in it that the API calls the trash by. -/
def Drive.AliasApart (s : Drive) : Prop := ∀ p item, s.items.get? p = some item → ∀ seg ∈ p, ¬ trashApiAlias <:+: seg

theorem not_infix_liftName {name : Text} (h : ¬ trashApiAlias <:+: name) (k : Nat) : ¬ trashApiAlias <:+: liftName name k := by
  unfold liftName
  split
  · exact h
  intro hin
  rw [append_assoc] at hin
  rcases infix_of_infix_append_cons (by decide) hin with hin | hin
  · exact h hin
  -- A number has no dot.
  have hdot : '.' ∈ '(' :: (Nat.toDigits 10 k ++ [')']) := hin.subset (by decide)
  rcases mem_cons.mp hdot with hdot | hdot
  · exact absurd hdot (by decide)
  · rcases mem_append.mp hdot with hdot | hdot
    · exact absurd (Nat.isDigit_of_mem_toDigits (by decide) (by decide) hdot) (by decide)
    · exact absurd hdot (by decide)

/-- Between two lifts out of `p`, since the turn began at `s₀`. -/
structure Drive.Lifting (user : Text) (attempted : List Path) (p : Path) (s₀ s : Drive) : Prop where
  tidy : Tidy s
  links : NoLinks s user
  named : s.EntriesNamed
  owned : Owned s user p
  above : ¬ s.InTrash p → Above user s p
  settled : ∀ q ∈ attempted, Settled user s q
  spared : Spared user s₀ s
  origins : s.trashMeta = s₀.trashMeta
  inTrash : ∀ q item, s.items.get? q = some item → s.InTrash q → s₀.items.get? q = some item
  apart : s₀.AliasApart → s.AliasApart

section Lifting

variable {attempted : List Path} {p dp : Path} {n : Text} {item : Item}

section

variable (h : Lifting user attempted p s₀ s)

include h

/-- Someone else's item in `p` can be lifted out of it. -/
theorem Drive.Lifting.liftable (hrow : s.items.get? (n :: dp) = some item)
    (howner : item.owner ≠ user) (hin : p <:+ n :: dp) : Liftable s n dp (liftDir p) item := by
  have hlen := hin.length_le
  obtain ⟨hproper, -, hshort, htrash, hfolder⟩ := h.owned.lifts h.tidy (m := n) (h.tidy.proper _ item hrow).head
  refine ⟨hrow, h.links.items _ item hrow, hfolder, hproper.unsealed.tail, fun hdir => ?_, fun hsuf => ?_,
    fun m hm => (h.owned.lifts h.tidy hm).1⟩
  · by_cases hp : s.InTrash p
    · obtain ⟨hroot, hlong⟩ := htrash hp
      rw [← hdir, hroot, length_singleton] at hlen
      omega
    -- The item is not the one it lies in.
    rw [hdir] at hshort
    have hsame : p = n :: dp := hin.eq_of_length_le (by rw [length_cons]; omega)
    obtain ⟨mine, hmine, howner'⟩ := h.owned.row hp
    rw [hsame, hrow] at hmine
    rw [Option.some.inj hmine] at howner
    exact howner howner'
  · have hle := hsuf.length_le
    omega

/-- What is lifted leaves `p`. -/
theorem Drive.Lifting.leaves {m : Text} (hmove : Movable s n dp m (liftDir p))
    (hm : isLunaName m = false) (r : Path) : ¬ p <:+ r ++ m :: liftDir p := by
  intro hsuf
  obtain ⟨-, hland, -, htrash, -⟩ := h.owned.lifts h.tidy hm
  by_cases hp : s.InTrash p
  · apply hland
    have hne : p ≠ [] := by
      rintro rfl
      cases hp
    rw [InTrash, ← getLast?_append_of_ne_nil r (cons_ne_nil m (liftDir p)), ← getLast?_of_suffix hsuf hne]
    exact hp
  · obtain ⟨mine, hmine, -⟩ := h.owned.row hp
    obtain ⟨standing, hstanding⟩ := h.tidy.leads p mine hmine
    have hfree := hmove.not_above h.tidy hstanding
    rw [liftDir_outside h.owned h.tidy hp] at hsuf hfree
    rcases suffix_or_suffix_of_suffix hsuf (suffix_append r _) with hin | hin
    · -- Of the same length, the two would be one.
      cases p with
      | nil =>
        rw [h.tidy.root_not_item] at hmine
        cases hmine
      | cons a d => exact hfree (hin.eq_of_length (by simp) ▸ suffix_refl _)
    · exact hfree hin

theorem Drive.Lifting.moved (hrow : s.items.get? (n :: dp) = some item)
    (howner : item.owner ≠ user) (hin : p <:+ n :: dp) {k : Nat}
    (hmove : Movable s n dp (liftName n k) (liftDir p))
    (houter : ∀ q other, s.items.get? q = some other → other.owner ≠ user → p <:+ q → q <:+ n :: dp → q = n :: dp) :
    Lifting user attempted p s₀ (s.moved (n :: dp) (liftName n k) (liftDir p)) := by
  have hlift := h.liftable hrow howner hin
  have hm := isLunaName_liftName (h.tidy.proper _ item hrow).head k
  have hland := (h.owned.lifts h.tidy hm).2.1
  refine ⟨hmove.tidy h.tidy, h.links.moved hmove h.tidy hlift h.named, h.named, ?_, fun htrash => ?_, fun q hq => ?_,
    h.spared.trans (hmove.spared h.tidy hlift h.owned h.named hin houter), h.origins, fun q other hq htrash => ?_,
    fun hapart q other hq seg hseg => ?_⟩
  · rcases h.owned with ⟨mine, hp, howner'⟩ | ⟨entry, found, rfl, hfound, howner'⟩
    · obtain ⟨standing, hstanding⟩ := h.tidy.leads p mine hp
      refine .inl ⟨mine, ?_, howner'⟩
      refine (get?_relocate_other (hmove.rows_vacant h.tidy) (fun hsuf => ?_) (hmove.not_above h.tidy hstanding)).trans hp
      have hsame : p = n :: dp := hin.eq_of_length_le hsuf.length_le
      rw [hsame, hrow] at hp
      rw [Option.some.inj hp] at howner
      exact howner howner'
    · exact .inr ⟨entry, found, rfl, hfound, howner'⟩
  · refine (h.above htrash).moved hmove h.tidy (h.owned.unsealed h.tidy h.named) fun x hx hne hsuf => hne ?_
    exact hx.eq_of_length_le (hin.trans hsuf).length_le
  · refine (h.settled q hq).moved hmove h.tidy hrow howner hland fun htrash hsuf => ?_
    exact (h.settled q hq).not_beneath h.owned htrash (hin.trans hsuf)
  · rcases hmove.row_cases h.tidy hq with ⟨hq, -, -⟩ | ⟨r, rfl, -⟩
    · exact h.inTrash q other hq htrash
    · rw [InTrash, getLast?_append_of_ne_nil r (cons_ne_nil _ _)] at htrash
      exact absurd htrash hland
  · rcases hmove.row_cases h.tidy hq with ⟨hold, -, -⟩ | ⟨r, rfl, hold⟩
    · exact h.apart hapart q other hold seg hseg
    rcases mem_append.mp hseg with hseg | hseg
    · exact h.apart hapart _ other hold seg (mem_append_left _ hseg)
    rcases mem_cons.mp hseg with rfl | hseg
    · exact not_infix_liftName (h.apart hapart _ item hrow n mem_cons_self) k
    by_cases htrash : s.InTrash p
    · rw [liftDir_inTrash h.owned h.tidy htrash] at hseg
      cases hseg
    · obtain ⟨mine, hmine, -⟩ := h.owned.row htrash
      rw [liftDir_outside h.owned h.tidy htrash] at hseg
      exact h.apart hapart p mine hmine seg (mem_of_mem_tail hseg)

end

/-- **One item after the other, everything of anyone else is lifted out.** -/
theorem liftEach_lifts (he : e.Unfailing) (driveId : Text) {rest lifted : List Path} (h : Lifting user attempted p s₀ w.drive)
    (hsorted : rest.Pairwise fun a b => a.length ≤ b.length)
    (hrest : ∀ f ∈ rest, (∃ l ∈ lifted, l <:+ f) ∨
      ∃ item, w.drive.items.get? f = some item ∧ item.owner ≠ user ∧ p <:+ f)
    (hall : ∀ q item, w.drive.items.get? q = some item → item.owner ≠ user → p <:+ q →
      q ∈ rest ∧ ∀ l ∈ lifted, ¬ l <:+ q) :
    ∃ w', liftEach e driveId (liftDir p) rest lifted w = .ok () w' ∧ Lifting user attempted p s₀ w'.drive ∧
      ∀ q item, w'.drive.items.get? q = some item → p <:+ q → item.owner = user := by
  induction rest generalizing w lifted with
  | nil =>
    refine ⟨w, rfl, h, fun q item hq hsuf => ?_⟩
    by_contra howner
    exact absurd (hall q item hq howner hsuf).1 not_mem_nil
  | cons f rest ih =>
    obtain ⟨hfirst, hrestSorted⟩ := pairwise_cons.mp hsorted
    rw [liftEach]
    by_cases hgone : lifted.any (·.isSuffixOf f) = true
    · -- The row went along with an item that was lifted before.
      rw [if_pos hgone]
      obtain ⟨l, hl, hlf⟩ := any_eq_true.mp hgone
      refine ih h hrestSorted (fun g hg => hrest g (mem_cons_of_mem f hg)) fun q item hq howner hsuf => ?_
      obtain ⟨hmem, hout⟩ := hall q item hq howner hsuf
      refine ⟨(mem_cons.mp hmem).resolve_left ?_, hout⟩
      rintro rfl
      exact hout l hl (isSuffixOf_iff_suffix.mp hlf)
    · rw [if_neg hgone]
      have hnone : ¬ ∃ l ∈ lifted, l <:+ f := by
        rintro ⟨l, hl, hlf⟩
        exact hgone (any_eq_true.mpr ⟨l, hl, isSuffixOf_iff_suffix.mpr hlf⟩)
      obtain ⟨item, hrow, howner, hin⟩ := (hrest f mem_cons_self).resolve_left hnone
      cases f with
      | nil =>
        rw [h.tidy.root_not_item] at hrow
        cases hrow
      | cons n dp =>
        obtain ⟨k, w₁, hmove, hrun, hdrive⟩ := liftOut_lifts he driveId h.tidy (h.liftable hrow howner hin)
        have hm := isLunaName_liftName (h.tidy.proper _ item hrow).head k
        have houter : ∀ q other, w.drive.items.get? q = some other → other.owner ≠ user → p <:+ q → q <:+ n :: dp →
            q = n :: dp := by
          intro q other hq hother hpq hsuf
          rcases mem_cons.mp (hall q other hq hother hpq).1 with heq | hmem
          · exact heq
          · exact hsuf.eq_of_length_le (hfirst q hmem)
        have hmoved := h.moved hrow howner hin hmove houter
        rw [← hdrive] at hmoved
        have hrest' : ∀ g ∈ rest, (∃ l ∈ (n :: dp) :: lifted, l <:+ g) ∨
            ∃ other, w₁.drive.items.get? g = some other ∧ other.owner ≠ user ∧ p <:+ g := by
          intro g hg
          rcases hrest g (mem_cons_of_mem _ hg) with ⟨l, hl, hlg⟩ | ⟨other, hg, hother, hpg⟩
          · exact .inl ⟨l, mem_cons_of_mem _ hl, hlg⟩
          by_cases hwithin : n :: dp <:+ g
          · exact .inl ⟨n :: dp, mem_cons_self, hwithin⟩
          · have hfree := h.tidy.no_row_beneath hmove.unused hmove.free hg
            refine .inr ⟨other, ?_, hother, hpg⟩
            rw [hdrive]
            exact (get?_relocate_other (hmove.rows_vacant h.tidy) hwithin hfree).trans hg
        have hall' : ∀ q other, w₁.drive.items.get? q = some other → other.owner ≠ user → p <:+ q →
            q ∈ rest ∧ ∀ l ∈ (n :: dp) :: lifted, ¬ l <:+ q := by
          intro q other hq hother hsuf
          rw [hdrive] at hq
          rcases hmove.row_cases h.tidy hq with ⟨hq, hout, -⟩ | ⟨r, rfl, -⟩
          · obtain ⟨hmem, hlifted⟩ := hall q other hq hother hsuf
            refine ⟨(mem_cons.mp hmem).resolve_left ?_, ?_⟩
            · rintro rfl
              exact hout (suffix_refl _)
            · intro l hl
              rcases mem_cons.mp hl with rfl | hl
              · exact hout
              · exact hlifted l hl
          · exact absurd hsuf (h.leaves hmove hm r)
        obtain ⟨w', hrun', hlifting, hmine⟩ := ih hmoved hrestSorted hrest' hall'
        exact ⟨w', by rw [run_of_ok hrun]; exact hrun', hlifting, hmine⟩

/-- Nothing is missing above what is tried next, and nothing there is the user's any more. -/
theorem Next.above (h : Next user attempted s p) (ht : Tidy s) (hsettled : ∀ q ∈ attempted, Settled user s q)
    (htrash : ¬ s.InTrash p) : Above user s p := by
  obtain ⟨mine, hmine, -⟩ := h.owned.row htrash
  obtain ⟨standing, hstanding⟩ := ht.leads p mine hmine
  refine ⟨fun x hx hne hnil => ?_, fun x item hx hne hrow howner => ?_⟩
  · refine ht.grown.taken_above hstanding (diskIn_suffix hx) fun hroot => ?_
    have hlen := congrArg length hroot
    rw [length_diskIn] at hlen
    exact hnil (eq_nil_of_length_eq_zero hlen)
  · have hshort : x.length < p.length := by
      have hle := hx.length_le
      have hneq : x.length ≠ p.length := fun heq => hne (hx.eq_of_length heq)
      omega
    exact (hsettled x (h.outermost x (.inl ⟨item, hrow, howner⟩) hshort)).row item hrow howner

/-! ### The turn of a path -/

theorem othersWithin_spec {q : Path} : q ∈ othersWithin order user p s ↔
    ∃ item, s.items.get? q = some item ∧ item.owner ≠ user ∧ p <:+ q := by
  rw [othersWithin, mem_map]
  constructor
  · rintro ⟨⟨q', item⟩, hmem, rfl⟩
    obtain ⟨hmem, hkeep⟩ := mem_filter.mp ((mem_insertionSort _).mp hmem)
    rw [Bool.and_eq_true, isSuffixOf_iff_suffix, decide_eq_true_eq] at hkeep
    exact ⟨item, mem_rows.mp ((order.perm _).mem_iff.mp hmem), hkeep.2, hkeep.1⟩
  · rintro ⟨item, hq, howner, hsuf⟩
    refine ⟨(q, item), (mem_insertionSort _).mpr (mem_filter.mpr ⟨?_, ?_⟩), rfl⟩
    · exact (order.perm _).mem_iff.mpr (mem_rows.mpr hq)
    · rw [Bool.and_eq_true, isSuffixOf_iff_suffix, decide_eq_true_eq]
      exact ⟨hsuf, howner⟩

theorem othersWithin_sorted : (othersWithin order user p s).Pairwise fun a b => a.length ≤ b.length := by
  rw [othersWithin, pairwise_map]
  exact pairwise_insertionSort_le (fun r : Path × Item => r.1.length) _

/-- What is left of the path goes, if anything stands there at all. -/
theorem Drive.Lifting.removes (he : e.Unfailing) (h : Lifting user attempted p s₀ s)
    (hmine : ∀ q item, s.items.get? q = some item → p <:+ q → item.owner = user) :
    removeOwned e p s = .ok (s.pruned p) := by
  have hwalk : ∃ there, s.walkNofollow true (s.diskIn p) = .ok there := by
    cases hrow : s.items.get? p with
    | some item =>
      obtain ⟨entry, hentry⟩ := h.tidy.leads p item hrow
      refine ⟨true, walkNofollow_stands h.tidy.grown hentry ?_ true⟩
      rintro rfl
      exact h.links.items p item hrow hentry
    | none =>
      rcases h.owned with ⟨item, hp, -⟩ | ⟨entry, found, rfl, hfound, howner⟩
      · rw [hrow] at hp
        cases hp
      -- A trash entry without a row, which may be gone.
      have htrash : s.diskIn [s.layout.trashName] = [s.layout.trashName] := diskIn_cons_none h.tidy.trash_not_item
      rw [diskIn_cons_none hrow, htrash]
      cases hget : s.disk.get? [entry, s.layout.trashName] with
      | some there =>
        refine ⟨true, walkNofollow_stands h.tidy.grown hget ?_ true⟩
        rintro rfl
        exact h.links.entries entry found hfound howner hget
      | none =>
        rw [walkNofollow]
        rcases h.links.trash with hnone | hdir
        · have hroot : s.walkNofollow true [s.layout.trashName] = .ok false := by
            rw [walkNofollow, walkNofollow]
            simp only [hnone]
            rfl
          rw [hroot]
          exact ⟨false, rfl⟩
        · have hisDir : s.isDir [s.layout.trashName] = true := isDir_iff.mpr (.inr hdir)
          rw [walkNofollow_dir h.tidy.grown (.inr hdir)]
          simp only [hget, hisDir]
          exact ⟨false, rfl⟩
  obtain ⟨there, hwalk⟩ := hwalk
  rw [removeOwned, resolveNofollow_of_walk hwalk, ok_bind]
  by_cases hnone : s.disk.get? (s.diskIn p) = none
  · rw [if_pos hnone]
    have hp : s.diskIn p ≠ [] := by
      intro hroot
      have hlen := congrArg length hroot
      rw [length_diskIn] at hlen
      obtain rfl := eq_nil_of_length_eq_zero hlen
      rcases h.owned with ⟨item, hp, -⟩ | ⟨entry, found, hnil, -, -⟩
      · rw [h.tidy.root_not_item] at hp
        cases hp
      · cases hnil
    have hsame : s.disk.prune (s.diskIn p) = s.disk := by
      apply prune_eq_self
      intro x entry hx hsuf
      obtain ⟨entry', hentry'⟩ := h.tidy.grown.taken_above hx hsuf hp
      rw [hnone] at hentry'
      cases hentry'
    show Except.ok (removeUnder p s) = _
    rw [removeUnder, pruned, hsame]
  · rw [if_neg hnone, if_pos (he.removes _)]
    rfl

/-- **A turn lifts what is not the user's out of the path, and deletes the path.** -/
theorem Drive.Lifting.purges (he : e.Unfailing) (order : RowOrder) (driveId : Text)
    (h : Lifting user attempted p w.drive w.drive) :
    ∃ w' s₁, purgeOwnedPath e order driveId user p w = .ok () w' ∧ w'.drive = s₁.pruned p ∧
      Lifting user attempted p w.drive s₁ ∧ ∀ q item, s₁.items.get? q = some item → p <:+ q → item.owner = user := by
  have hrest : ∀ f ∈ othersWithin order user p w.drive, (∃ l ∈ ([] : List Path), l <:+ f) ∨
      ∃ item, w.drive.items.get? f = some item ∧ item.owner ≠ user ∧ p <:+ f :=
    fun f hf => .inr (othersWithin_spec.mp hf)
  obtain ⟨w₁, hrun, hlifting, hmine⟩ := liftEach_lifts he driveId h othersWithin_sorted hrest
    fun q item hq howner hsuf =>
      ⟨othersWithin_spec.mpr ⟨item, hq, howner, hsuf⟩, fun l hl => absurd hl not_mem_nil⟩
  refine ⟨{ w₁ with drive := w₁.drive.pruned p }, w₁.drive, ?_, rfl, hlifting, hmine⟩
  have hget : (get : Act Stores) w = .ok w w := rfl
  rw [purgeOwnedPath, run_of_ok hget, run_of_ok hrun, onDrive, hlifting.removes he hmine]

end Lifting

end LibreServ.Files
