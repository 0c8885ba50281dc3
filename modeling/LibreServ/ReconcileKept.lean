import LibreServ.PrivateTrash
import LibreServ.ReconcilePasses

/-! When putting the rows of a drive back in step with it loses nothing: no row has two entries, and if any entry is not
where its row says, every entry that is there is reached, lies outside the trash and not too deep, and has a real path
that no other row has or says it has. -/

namespace LibreServ.Files.Reconcile

open FileTree List Option Table

variable {s : Drive} {sight : Sight} {ord : Orders} {found : Table ItemId Path} {resolved stored : Table Path Item}
  {item : Item} {p d : Path} {l pending kept : List (Path × Item)}

/-! ### Passes that lose nothing -/

/-- Every row is still pending or has its real path. -/
structure Settling (s : Drive) (st : List (Path × Item) × Table Path Item) : Prop where
  rows : ∀ r ∈ st.1, s.items.get? r.1 = some r.2
  real : ∀ q item, st.2.get? q = some item → (∃ p, s.items.get? p = some item) ∧
    ∃ d, stands s item.id d = true ∧ q = realPath s (s.layout.diskName item.id :: d)
  split : ∀ p item, s.items.get? p = some item → (p, item) ∈ st.1 ∨ ∃ q, st.2.get? q = some item
  disjoint : ∀ r ∈ st.1, ∀ q, st.2.get? q ≠ some r.2
  nodup : st.1.Nodup

/-- All entries beneath fewer than `k` private folders are resolved. -/
def Upto (s : Drive) (k : Nat) (resolved : Table Path Item) : Prop :=
  ∀ p item d, s.items.get? p = some item → stands s item.id d = true → nesting s d < k → ∃ q, resolved.get? q = some item

section Settles

variable (hk : Known s) (hn : Noted s sight found)
  (hsingle : ∀ p item d d', s.items.get? p = some item → stands s item.id d = true → stands s item.id d' = true → d' = d)
  (hsettles : ∀ p item d, s.items.get? p = some item → stands s item.id d = true → Settles s sight item d)

include hn hsingle hsettles in
theorem found_iff (h : s.items.get? p = some item) :
    found.get? item.id = some d ↔ stands s item.id d = true := by
  constructor
  · exact fun hget => (hn.seen _ _ hget).2.2.2
  · intro hstands
    obtain ⟨hwalked, hlists, hstats⟩ := (hsettles p item d h hstands).reached
    obtain ⟨d', hd'⟩ := isSome_iff_exists.mp (hn.complete p item d h ⟨hwalked, hlists, hstats, hstands⟩)
    rw [hd', hsingle p item d d' h hstands (hn.seen _ _ hd').2.2.2]

include hn hsingle hsettles in
theorem resolves {k : Nat} (hupto : Upto s k resolved)
    (h : s.items.get? p = some item) (hstands : stands s item.id d = true) (hshallow : nesting s d < k + 1) :
    ∃ path, resolveOne s found resolved (p, item) = some path := by
  have hsettle := hsettles p item d h hstands
  have habove : ∀ name ∈ d, s.layout.lead.isPrefixOf name = true →
      ∃ q item, resolved.get? q = some item ∧ s.layout.diskName item.id = name := by
    intro name hname hlead
    obtain ⟨p', item', d', hrow, hdisk, -, hseen, hlt⟩ := folder_on_way hsettle.reached.1 hsettle.untrashed hname hlead
    obtain ⟨q, hq⟩ := hupto p' item' d' hrow hseen.2.2.2 (by omega)
    exact ⟨q, item', hq, hdisk⟩
  obtain ⟨parent, hparent⟩ := parentOf_isSome habove
  refine ⟨p.head?.getD [] :: parent, ?_⟩
  show (found.get? item.id).bind _ = _
  rw [(found_iff hn hsingle hsettles h).mpr hstands, bind_some, hparent]
  rfl

include hk hn hsingle in
theorem resolveOne_real
    (hreal : ∀ q item, resolved.get? q = some item → (∃ p, s.items.get? p = some item) ∧
      ∃ d, stands s item.id d = true ∧ q = realPath s (s.layout.diskName item.id :: d))
    {path : Path} (h : s.items.get? p = some item) (hone : resolveOne s found resolved (p, item) = some path) :
    ∃ d, stands s item.id d = true ∧ path = realPath s (s.layout.diskName item.id :: d) := by
  obtain ⟨d, parent, hd, hparent, rfl⟩ := resolveOne_some hone
  obtain ⟨hwalked, -, -, hstands⟩ := hn.seen _ _ hd
  refine ⟨d, hstands, ?_⟩
  have hplaces : ∀ q item, resolved.get? q = some item → ∀ d, stands s item.id d = true →
      q = realPath s (s.layout.diskName item.id :: d) := by
    intro q item hget d hd
    obtain ⟨⟨p, hp⟩, d', hd', rfl⟩ := hreal q item hget
    rw [hsingle p item d d' hp hd hd']
  have habove : ∀ name d', name :: d' <:+ d → (s.disk.get? (name :: d')).isSome = true := by
    intro name d' hsuf
    rw [(walked_suffix hwalked hsuf).2.2.2.2]
    rfl
  rw [parentOf_real hplaces habove hparent, realPath, realPath, map_cons, Drive.realName, rowOf_diskName hk h]
  cases p with
  | nil => exact absurd rfl (hk.named [] item h)
  | cons name p => rfl

include hk hn hsingle hsettles in
/-- One row: it stays, or it gets its real path, which no other row has. -/
theorem Settling.retain {r : Path × Item}
    (h : Settling s (kept ++ r :: l, resolved)) : ∃ kept' resolved', Reconcile.retain s found (kept, resolved) r = (kept', resolved') ∧
      Settling s (kept' ++ l, resolved') ∧ (∀ q item, resolved.get? q = some item → resolved'.get? q = some item) ∧
      ((∃ path, resolveOne s found resolved r = some path) → ∃ q, resolved'.get? q = some r.2) := by
  have hr : r ∈ kept ++ r :: l := mem_append_right _ mem_cons_self
  have hrow : s.items.get? r.1 = some r.2 := h.rows r hr
  rw [Reconcile.retain]
  cases hone : resolveOne s found resolved r with
  | none =>
    refine ⟨kept ++ [r], resolved, rfl, ?_, fun _ _ hget => hget, by rintro ⟨path, ⟨⟩⟩⟩
    rwa [append_assoc, singleton_append]
  | some path =>
    obtain ⟨d, hstands, rfl⟩ := resolveOne_real hk hn hsingle h.real hrow hone
    have hfree : resolved.get? (realPath s (s.layout.diskName r.2.id :: d)) = none := by
      cases hget : resolved.get? (realPath s (s.layout.diskName r.2.id :: d)) with
      | none => rfl
      | some other =>
        obtain ⟨⟨q, hq⟩, d', hd', heq⟩ := h.real _ other hget
        by_cases hid : other.id = r.2.id
        · have hpath := hk.ids _ _ _ _ hq hrow hid
          rw [hpath, hrow] at hq
          rw [← some.inj hq] at hget
          exact absurd hget (h.disjoint r hr _)
        · exact absurd heq.symm ((hsettles _ _ _ hrow hstands).apart q other d' hq hid hd').1
    have hgrows : ∀ q item, resolved.get? q = some item →
        (resolved.put (realPath s (s.layout.diskName r.2.id :: d)) r.2).get? q = some item := by
      intro q item hget
      rw [get?_put_of_ne, hget]
      rintro rfl
      rw [hfree] at hget
      cases hget
    have hsub : (kept ++ l).Sublist (kept ++ r :: l) := (sublist_cons_self r l).append_left kept
    have hout : ∀ r' ∈ kept ++ l, r' ≠ r := by
      intro r' hr' heq
      have hperm : (kept ++ r :: l).Perm (r :: (kept ++ l)) := perm_middle
      have hnodup := hperm.nodup_iff.mp h.nodup
      exact (nodup_cons.mp hnodup).1 (heq ▸ hr')
    refine ⟨kept, _, rfl, ⟨fun r' hr' => h.rows r' (hsub.subset hr'), ?_, ?_, ?_, h.nodup.sublist hsub⟩, hgrows,
      fun _ => ⟨_, get?_put_self _ _ _⟩⟩
    · intro q item hget
      rcases get?_put_some.mp hget with ⟨hq, rfl⟩ | ⟨-, hget⟩
      · exact ⟨⟨r.1, hrow⟩, d, hstands, hq⟩
      · exact h.real q item hget
    · intro p item hp
      rcases h.split p item hp with hmem | ⟨q, hq⟩
      · rcases mem_append.mp hmem with hmem | hmem
        · exact .inl (mem_append_left _ hmem)
        · rcases mem_cons.mp hmem with rfl | hmem
          · exact .inr ⟨_, get?_put_self _ _ _⟩
          · exact .inl (mem_append_right _ hmem)
      · exact .inr ⟨q, hgrows q item hq⟩
    · intro r' hr' q hget
      rw [get?_put] at hget
      split at hget
      · have hsame : r.2 = r'.2 := some.inj hget
        have hpath := hk.ids _ _ _ _ hrow (h.rows r' (hsub.subset hr')) (by rw [hsame])
        exact hout r' hr' (Prod.ext hpath.symm hsame.symm)
      · exact h.disjoint r' (hsub.subset hr') q hget

include hk hn hsingle hsettles in
theorem Settling.foldl {k : Nat}
    (h : Settling s (kept ++ l, resolved)) (hupto : Upto s k resolved) :
    Settling s (l.foldl (Reconcile.retain s found) (kept, resolved)) ∧
      (∀ q item, resolved.get? q = some item → (l.foldl (Reconcile.retain s found) (kept, resolved)).2.get? q = some item) ∧
      ∀ r ∈ l, ∀ d, stands s r.2.id d = true → nesting s d < k + 1 →
        ∃ q, (l.foldl (Reconcile.retain s found) (kept, resolved)).2.get? q = some r.2 := by
  induction l generalizing kept resolved with
  | nil =>
    rw [append_nil] at h
    exact ⟨h, fun _ _ hget => hget, fun r hr => (nomatch hr)⟩
  | cons r l ih =>
    have hrow : s.items.get? r.1 = some r.2 := h.rows r (mem_append_right _ mem_cons_self)
    obtain ⟨kept', resolved', heq, hnext, hgrows, hone⟩ := h.retain hk hn hsingle hsettles
    rw [foldl_cons, heq]
    obtain ⟨hend, hstays, hrest⟩ := ih hnext fun p item d hp hd hlt =>
      (hupto p item d hp hd hlt).imp fun q hq => hgrows q item hq
    refine ⟨hend, fun q item hget => hstays q item (hgrows q item hget), fun r' hr' d hd hlt => ?_⟩
    rcases mem_cons.mp hr' with rfl | hr'
    · obtain ⟨q, hq⟩ := hone (resolves hn hsingle hsettles hupto hrow hd hlt)
      exact ⟨q, hstays q _ hq⟩
    · exact hrest r' hr' d hd hlt

include hk hn hsingle hsettles in
theorem Settling.pass {k : Nat} {st : List (Path × Item) × Table Path Item} (h : Settling s st) (hupto : Upto s k st.2) :
    Settling s (Reconcile.pass s found st) ∧ Upto s (k + 1) (Reconcile.pass s found st).2 := by
  have hstart : Settling s ([] ++ st.1, st.2) := h
  obtain ⟨hend, hstays, hdone⟩ := hstart.foldl hk hn hsingle hsettles hupto
  refine ⟨hend, fun p item d hp hd hlt => ?_⟩
  rcases h.split p item hp with hmem | ⟨q, hq⟩
  · exact hdone (p, item) hmem d hd hlt
  · exact ⟨q, hstays q item hq⟩

include hk hn hsingle hsettles in
/-- After all passes, what is still pending has no entry. -/
theorem resolveAll_settled (hperm : pending.Perm s.items.rows) :
    Settling s (resolveAll s found pending) ∧
      ∀ p item d, s.items.get? p = some item → stands s item.id d = true → ∃ q, (resolveAll s found pending).2.get? q = some item := by
  have hstart : Settling s (pending, Table.empty) := by
    refine ⟨fun r hr => mem_rows.mp (hperm.mem_iff.mp hr), fun q item hget => (nomatch hget),
      fun p item hp => .inl (hperm.mem_iff.mpr (mem_rows.mpr hp)), fun r _ q hget => (nomatch hget), ?_⟩
    exact hperm.nodup_iff.mpr s.items.nodup.of_map
  have hupto : Upto s 0 (Table.empty : Table Path Item) := fun _ _ d _ _ hlt => absurd hlt (Nat.not_lt_zero _)
  have hstages : Settling s (resolveAll s found pending) ∧ Upto s (0 + 64) (resolveAll s found pending).2 :=
    Loops.rounds_reach (fun k st => Settling s st ∧ Upto s k st.2)
      (fun k st hst => hst.1.pass hk hn hsingle hsettles hst.2) pass_still ⟨hstart, hupto⟩ 64
  obtain ⟨hend, hdone⟩ := hstages
  exact ⟨hend, fun p item d hp hd => hdone p item d hp hd (by have := (hsettles p item d hp hd).shallow; omega)⟩

end Settles

/-! ### The database follows -/

theorem get?_foldl_deleteRow (pending : List (Path × Item)) (stored : Table Path Item) {q : Path} :
    (pending.foldl deleteRow stored).get? q = some item ↔ stored.get? q = some item ∧ ∀ r ∈ pending, item.id ≠ r.2.id := by
  induction pending generalizing stored with
  | nil => simp
  | cons r pending ih =>
    rw [foldl_cons, ih, deleteRow, Table.get?_keep, filter_eq_some_iff, decide_eq_true_eq, forall_mem_cons, and_assoc]

/-- The rows of the database while the updates run: each has its real path, or its old one and its turn is yet to come. -/
structure Updating (s : Drive) (resolved : Table Path Item) (todo : List (Path × Item)) (stored : Table Path Item) : Prop where
  rows : ∀ q item, stored.get? q = some item →
    resolved.get? q = some item ∨ (s.items.get? q = some item ∧ ∃ t, (t, item) ∈ todo)
  all : ∀ t item, resolved.get? t = some item → ∃ q, stored.get? q = some item
  ids : ∀ q q' a b, stored.get? q = some a → stored.get? q' = some b → a.id = b.id → q = q'

theorem find_id {q : Path} (h : stored.get? q = some item)
    (hids : ∀ q q' a b, stored.get? q = some a → stored.get? q' = some b → a.id = b.id → q = q') :
    stored.rows.find? (fun row => row.2.id = item.id) = some (q, item) := by
  cases hfind : stored.rows.find? (fun row => row.2.id = item.id) with
  | none => exact absurd (decide_eq_true rfl) (find?_eq_none.mp hfind _ (mem_rows.mpr h))
  | some row =>
    have hget : stored.get? row.1 = some row.2 := mem_rows.mp (mem_of_find?_eq_some hfind)
    have hid := find?_some hfind
    rw [decide_eq_true_eq] at hid
    have hpath := hids _ _ _ _ hget h hid
    rw [hpath, h] at hget
    exact congrArg some (Prod.ext hpath (some.inj hget).symm)

section

variable (hfree : ∀ t a q b, resolved.get? t = some a → s.items.get? q = some b → (∃ t', resolved.get? t' = some b) → b.id ≠ a.id → q ≠ t)

include hfree

theorem Updating.step {todo : List (Path × Item)} {r : Path × Item}
    (htodo : ∀ r' ∈ r :: todo, resolved.get? r'.1 = some r'.2) (h : Updating s resolved (r :: todo) stored) :
    Updating s resolved todo (updateRow stored r) := by
  have hr := htodo r mem_cons_self
  obtain ⟨q, hq⟩ := h.all r.1 r.2 hr
  rw [updateRow, find_id hq h.ids]
  dsimp only
  split
  · -- The row has its path already: nobody else can.
    rename_i hcase
    have hhas : stored.get? r.1 = some r.2 := by
      rcases hcase with rfl | hsome
      · exact hq
      obtain ⟨other, hother⟩ := isSome_iff_exists.mp hsome
      by_cases hid : other.id = r.2.id
      · rw [h.ids _ _ _ _ hother hq hid, hq]
      · rcases h.rows _ _ hother with hres | ⟨hold, t, ht⟩
        · rw [hr] at hres
          exact absurd (congrArg Item.id (some.inj hres).symm) hid
        · exact absurd rfl (hfree _ _ _ _ hr hold ⟨t, htodo _ ht⟩ hid)
    refine ⟨fun q' item hget => ?_, h.all, h.ids⟩
    rcases h.rows q' item hget with hres | ⟨hold, t, ht⟩
    · exact .inl hres
    · rcases mem_cons.mp ht with heq | ht
      · have hitem : item = r.2 := congrArg Prod.snd heq
        rw [hitem] at hget ⊢
        exact .inl (h.ids _ _ _ _ hget hhas rfl ▸ hr)
      · exact .inr ⟨hold, t, ht⟩
  · rename_i hcase
    rw [not_or] at hcase
    have hnew : ∀ q' item, ((stored.erase q).put r.1 r.2).get? q' = some item ↔
        (q' = r.1 ∧ r.2 = item) ∨ (q' ≠ r.1 ∧ q' ≠ q ∧ stored.get? q' = some item) := by
      intro q' item
      rw [get?_put]
      by_cases hq' : q' = r.1
      · simp [hq']
      · by_cases hqq : q' = q <;> simp [hq']
    refine ⟨fun q' item hget => ?_, fun t item ht => ?_, fun q₁ q₂ a b ha hb hid => ?_⟩
    · rcases (hnew q' item).mp hget with ⟨rfl, rfl⟩ | ⟨-, hne, hget⟩
      · exact .inl hr
      rcases h.rows q' item hget with hres | ⟨hold, t, ht⟩
      · exact .inl hres
      · rcases mem_cons.mp ht with heq | ht
        · have hitem : item = r.2 := congrArg Prod.snd heq
          exact absurd (h.ids _ _ _ _ hget hq (by rw [hitem])) hne
        · exact .inr ⟨hold, t, ht⟩
    · obtain ⟨q', hq'⟩ := h.all t item ht
      by_cases hqq : q' = q
      · rw [hqq, hq] at hq'
        exact ⟨r.1, (hnew _ _).mpr (.inl ⟨rfl, some.inj hq'⟩)⟩
      · refine ⟨q', (hnew _ _).mpr (.inr ⟨?_, hqq, hq'⟩)⟩
        rintro rfl
        exact hcase.2 (by rw [hq']; rfl)
    · rcases (hnew q₁ a).mp ha with ⟨rfl, rfl⟩ | ⟨hne₁, hq₁, ha⟩ <;> rcases (hnew q₂ b).mp hb with ⟨rfl, rfl⟩ | ⟨hne₂, hq₂, hb⟩
      · rfl
      · exact absurd (h.ids _ _ _ _ hb hq hid.symm) hq₂
      · exact absurd (h.ids _ _ _ _ ha hq hid) hq₁
      · exact h.ids _ _ _ _ ha hb hid

theorem Updating.run {todo : List (Path × Item)}
    (htodo : ∀ r ∈ todo, resolved.get? r.1 = some r.2) (h : Updating s resolved todo stored) :
    Updating s resolved [] (todo.foldl updateRow stored) := by
  induction todo generalizing stored with
  | nil => exact h
  | cons r todo ih => exact ih (fun r' hr' => htodo r' (mem_cons_of_mem r hr')) (h.step hfree htodo)

end

/-! ### Where nothing is lost -/

theorem realPath_diskIn (hk : Known s) (hp : s.layout.Unsealed p) : realPath s (s.diskIn p) = p := by
  induction p with
  | nil => rfl
  | cons n d ih =>
    cases hget : s.items.get? (n :: d) with
    | none =>
      rw [Drive.diskIn_cons_none hget, realPath, map_cons,
        realName_of_rowOf_none (Drive.rowOf_of_not_diskName (hp n mem_cons_self))]
      exact congrArg _ (ih hp.tail)
    | some item =>
      rw [Drive.diskIn_cons_some hget, realPath, map_cons, Drive.realName, rowOf_diskName hk hget]
      exact congrArg _ (ih hp.tail)

/-- Rows that are all where they say are sound as they are. -/
theorem sound_of_not_lost (hk : Known s)
    (hsingle : ∀ p item d d', s.items.get? p = some item → stands s item.id d = true → stands s item.id d' = true → d' = d)
    (hlost : lost s sight = false) : Sound s s.items := by
  refine ⟨fun p item _ hp _ => ⟨p, hp⟩, fun p item hp => ?_⟩
  have hthere : (s.disk.get? (s.diskIn p)).isSome = true := by
    by_contra hnot
    have hany : lost s sight = true := by
      rw [lost, any_iff]
      refine ⟨p, item, hp, ?_⟩
      rw [Bool.not_eq_true] at hnot
      rw [hnot, Bool.and_false]
      rfl
    rw [hlost] at hany
    cases hany
  cases p with
  | nil => exact absurd rfl (hk.named [] item hp)
  | cons n d =>
    have hdisk := Drive.diskIn_cons_some hp
    rw [hdisk] at hthere
    refine ⟨s.diskIn d, fun d' => ⟨fun hd' => hsingle _ item _ _ hp hthere hd', fun heq => heq ▸ hthere⟩, ?_⟩
    rw [← hdisk, realPath_diskIn hk (hk.unsealed _ item hp)]

theorem reconcile_lost (hk : Known s) (hlost : lost s sight = true) (ord : Orders) : ∃ found, Noted s sight found ∧
    reconcile s sight ord = some ⟨(resolveAll s found (ord.rows s.items.rows)).2,
      (ord.updates (resolveAll s found (ord.rows s.items.rows)).2.rows).foldl updateRow
        ((resolveAll s found (ord.rows s.items.rows)).1.foldl deleteRow s.items)⟩ := by
  obtain ⟨found, hsearch, hn⟩ := search_noted sight ord hk
  have hrows : ¬ (s.items.rows = [] ∨ lost s sight = false) := by
    rintro (hnil | hfalse)
    · rw [lost, Table.any, hnil] at hlost
      cases hlost
    · rw [hfalse] at hlost
      cases hlost
  refine ⟨found, hn, ?_⟩
  rw [reconcile, if_neg hrows, hsearch]
  rfl

theorem losesNothing_of_reconcilable (hk : Known s) (h : Reconcilable s sight) : LosesNothing s sight := by
  intro ord
  cases hlost : lost s sight with
  | false =>
    have hsound := sound_of_not_lost hk h.single hlost
    exact ⟨⟨s.items, s.items⟩, by rw [reconcile, if_pos (.inr hlost)], hsound, hsound⟩
  | true =>
    have hsettles := h.settles hlost
    obtain ⟨found, hn, hrun⟩ := reconcile_lost hk hlost ord
    obtain ⟨hend, hdone⟩ := resolveAll_settled hk hn h.single hsettles (ord.rows_perm s.items.rows)
    revert hrun hend hdone
    generalize resolveAll s found (ord.rows s.items.rows) = st
    intro hrun hend hdone
    have hmemory : Sound s st.2 := by
      refine ⟨fun p item d hp hd => hdone p item d hp hd, fun q item hget => ?_⟩
      obtain ⟨⟨p, hp⟩, d, hd, hq⟩ := hend.real q item hget
      exact ⟨d, fun d' => ⟨fun hd' => h.single p item d d' hp hd hd', fun heq => heq ▸ hd⟩, hq⟩
    have hfree : ∀ t a q b, st.2.get? t = some a → s.items.get? q = some b → (∃ t', st.2.get? t' = some b) →
        b.id ≠ a.id → q ≠ t := by
      intro t a q b ht hq ⟨t', ht'⟩ hid
      obtain ⟨⟨p, hp⟩, d, hd, rfl⟩ := hend.real t a ht
      obtain ⟨-, d', hd', -⟩ := hend.real t' b ht'
      exact ((hsettles p a d hp hd).apart q b d' hq hid hd').2
    have htodo : ∀ r ∈ ord.updates st.2.rows, st.2.get? r.1 = some r.2 :=
      fun r hr => mem_rows.mp ((ord.updates_perm _).mem_iff.mp hr)
    have hstart : Updating s st.2 (ord.updates st.2.rows) (st.1.foldl deleteRow s.items) := by
      refine ⟨fun q item hget => ?_, fun t item ht => ?_, fun q q' a b ha hb hid => ?_⟩
      · obtain ⟨hold, hnot⟩ := (get?_foldl_deleteRow _ _).mp hget
        rcases hend.split q item hold with hmem | ⟨t, ht⟩
        · exact absurd rfl (hnot _ hmem)
        · exact .inr ⟨hold, t, (ord.updates_perm _).mem_iff.mpr (mem_rows.mpr ht)⟩
      · obtain ⟨⟨p, hp⟩, -⟩ := hend.real t item ht
        refine ⟨p, (get?_foldl_deleteRow _ _).mpr ⟨hp, fun r hr hid => ?_⟩⟩
        have hrow := hend.rows r hr
        have hpath := hk.ids _ _ _ _ hp hrow hid
        rw [hpath, hrow] at hp
        exact hend.disjoint r hr t (some.inj hp ▸ ht)
      · exact hk.ids _ _ _ _ ((get?_foldl_deleteRow _ _).mp ha).1 ((get?_foldl_deleteRow _ _).mp hb).1 hid
    have hstop := hstart.run hfree htodo
    have hstored : Sound s ((ord.updates st.2.rows).foldl updateRow (st.1.foldl deleteRow s.items)) := by
      refine ⟨fun p item d hp hd => ?_, fun q item hget => ?_⟩
      · obtain ⟨t, ht⟩ := hmemory.kept p item d hp hd
        exact hstop.all t item ht
      · rcases hstop.rows q item hget with hres | ⟨-, t, ht⟩
        · exact hmemory.placed q item hres
        · cases ht
    exact ⟨_, hrun, hmemory, hstored⟩

/-! ### Where something is lost -/

/-- Everything comes in the order it stands in. -/
def plain : Orders where
  names := fun _ l => l
  rows := id
  updates := id
  names_perm := fun _ _ => .refl _
  rows_perm := fun _ => .refl _
  updates_perm := fun _ => .refl _

theorem Sound.single {rows : Table Path Item} (h : Sound s rows) {d' : Path} (hp : s.items.get? p = some item)
    (hd : stands s item.id d = true) (hd' : stands s item.id d' = true) : d' = d := by
  obtain ⟨q, hq⟩ := h.kept p item d hp hd
  obtain ⟨d₀, hone, -⟩ := h.placed q item hq
  rw [(hone d).mp hd, (hone d').mp hd']

/-- In sound rows an item with an entry has its real path, and no other. -/
theorem Sound.at_real {rows : Table Path Item} (h : Sound s rows) (hp : s.items.get? p = some item)
    (hd : stands s item.id d = true) : rows.get? (realPath s (s.layout.diskName item.id :: d)) = some item := by
  obtain ⟨q, hq⟩ := h.kept p item d hp hd
  obtain ⟨d₀, hone, rfl⟩ := h.placed q item hq
  rwa [(hone d).mp hd]

/-- In sound memory every row with an entry was resolved, so the search came upon it outside the trash. -/
theorem seen_of_sound (hn : Noted s sight found)
    (hperm : pending.Perm s.items.rows) (h : Sound s (resolveAll s found pending).2)
    (hp : s.items.get? p = some item) (hd : stands s item.id d = true) : Seen s sight item.id d ∧ s.layout.trashName ∉ d := by
  have hrows : ∀ r ∈ pending, s.items.get? r.1 = some r.2 := fun r hr => mem_rows.mp (hperm.mem_iff.mp hr)
  obtain ⟨-, d', hd', htrash⟩ := resolved_found hrows _ item (h.at_real hp hd)
  have hseen := hn.seen _ _ hd'
  have hsame := h.single hp hd hseen.2.2.2
  rw [hsame] at hseen htrash
  exact ⟨hseen, htrash⟩

/-- The innermost private folder on the way. -/
theorem exists_innermost (h : nesting s d ≠ 0) : ∃ name d', name :: d' <:+ d ∧ (s.rowOf name).isSome = true ∧
    nesting s d = nesting s d' + 1 := by
  induction d with
  | nil => exact absurd rfl h
  | cons name d ih =>
    cases hrow : (s.rowOf name).isSome with
    | true => exact ⟨name, d, suffix_refl _, hrow, countP_cons_of_pos hrow⟩
    | false =>
      have hsame : nesting s (name :: d) = nesting s d := countP_cons_of_neg (by rw [hrow]; exact Bool.false_ne_true)
      rw [hsame] at h ⊢
      obtain ⟨name', d', hsuf, hrow', heq⟩ := ih h
      exact ⟨name', d', hsuf.trans (suffix_cons name d), hrow', heq⟩

/-- After `k` passes the rows that are left still come deepest first, and none deeper has been resolved. -/
def Shallow (s : Drive) (rank : Item → Nat) (k : Nat) (st : List (Path × Item) × Table Path Item) : Prop :=
  (st.1.Pairwise fun a b => rank b.2 ≤ rank a.2) ∧ (∀ r ∈ st.1, s.items.get? r.1 = some r.2) ∧
    ∀ q item, st.2.get? q = some item → (∃ p, s.items.get? p = some item) ∧ rank item < k

section Ranks

variable {rank : Item → Nat} (hk : Known s) (hn : Noted s sight found)
  (hsingle : ∀ p item d d', s.items.get? p = some item → stands s item.id d = true → stands s item.id d' = true → d' = d)
  (hrank : ∀ p item d, s.items.get? p = some item → found.get? item.id = some d → rank item = nesting s d)

include hk hn hsingle hrank in
/-- Where the deepest rows come first, a pass gets no deeper than one folder further. -/
theorem foldl_rank {k : Nat}
    (hl : l.Pairwise fun a b => rank b.2 ≤ rank a.2) (hrows : ∀ r ∈ l, s.items.get? r.1 = some r.2)
    (h : ∀ q item, resolved.get? q = some item → (∃ p, s.items.get? p = some item) ∧
      (rank item < k ∨ (rank item ≤ k ∧ ∀ r ∈ l, rank r.2 ≤ rank item))) :
    ∀ q item, (l.foldl (retain s found) (kept, resolved)).2.get? q = some item →
      (∃ p, s.items.get? p = some item) ∧ rank item < k + 1 := by
  induction l generalizing kept resolved with
  | nil =>
    intro q item hget
    obtain ⟨hrow, hlt | ⟨hle, -⟩⟩ := h q item hget
    · exact ⟨hrow, by omega⟩
    · exact ⟨hrow, by omega⟩
  | cons r l ih =>
    obtain ⟨hfirst, hrest⟩ := pairwise_cons.mp hl
    have hrow := hrows r mem_cons_self
    have hrows' : ∀ r' ∈ l, s.items.get? r'.1 = some r'.2 := fun r' hr' => hrows r' (mem_cons_of_mem r hr')
    have hold : ∀ q item, resolved.get? q = some item → (∃ p, s.items.get? p = some item) ∧
        (rank item < k ∨ (rank item ≤ k ∧ ∀ r ∈ l, rank r.2 ≤ rank item)) := by
      intro q item hget
      obtain ⟨hp, hcase⟩ := h q item hget
      exact ⟨hp, hcase.imp id fun ⟨hle, hall⟩ => ⟨hle, fun r' hr' => hall r' (mem_cons_of_mem r hr')⟩⟩
    rw [foldl_cons, retain]
    cases hone : resolveOne s found resolved r with
    | none => exact ih hrest hrows' hold
    | some path =>
      have hdepth : rank r.2 ≤ k := by
        obtain ⟨d, parent, hd, hparent, -⟩ := resolveOne_some hone
        rw [hrank r.1 r.2 d hrow hd]
        by_cases hzero : nesting s d = 0
        · omega
        obtain ⟨name, d', hsuf, hup, heq⟩ := exists_innermost hzero
        obtain ⟨up, hup⟩ := isSome_iff_exists.mp hup
        obtain ⟨hupget, hname⟩ := Drive.mem_of_rowOf hup
        obtain ⟨hwalked, hlists, hstats, -, hdir⟩ := walked_suffix (hn.seen _ _ hd).1 hsuf
        have hseen : Seen s sight up.2.id d' := by
          refine ⟨hwalked, hlists, ?_, ?_⟩
          · rw [hname]
            exact hstats
          · rw [stands, hname, hdir]
            rfl
        obtain ⟨d'', hd''⟩ := isSome_iff_exists.mp (hn.complete _ _ _ hupget hseen)
        have hplace := hsingle _ _ _ _ hupget hseen.2.2.2 (hn.seen _ _ hd'').2.2.2
        rw [hplace] at hd''
        -- The folder above was resolved before, by an earlier pass: in this one its turn comes later.
        obtain ⟨q, item, hget, hid⟩ := resolved_of_parentOf hparent (hname ▸ hsuf.subset mem_cons_self)
        obtain ⟨⟨p, hp⟩, hcase⟩ := h q item hget
        have hpath := hk.ids _ _ _ _ hp hupget hid
        rw [hpath, hupget] at hp
        have hrankup := hrank _ _ _ hupget hd''
        rw [some.inj hp] at hrankup
        have hrankr := hrank r.1 r.2 d hrow hd
        rcases hcase with hlt | ⟨-, hall⟩
        · omega
        · have := hall r mem_cons_self
          omega
      refine ih hrest hrows' fun q item hget => ?_
      rcases get?_put_some.mp hget with ⟨-, rfl⟩ | ⟨-, hget⟩
      · exact ⟨⟨r.1, hrow⟩, .inr ⟨hdepth, fun r' hr' => hfirst r' hr'⟩⟩
      · exact hold q item hget

include hk hn hsingle hrank in
theorem resolveAll_rank (hsorted : pending.Pairwise fun a b => rank b.2 ≤ rank a.2)
    (hrows : ∀ r ∈ pending, s.items.get? r.1 = some r.2) :
    ∀ q item, (resolveAll s found pending).2.get? q = some item → rank item < 64 := by
  have hstart : Shallow s rank 0 (pending, Table.empty) := ⟨hsorted, hrows, fun q item hget => (nomatch hget)⟩
  have hstep : ∀ k st, Shallow s rank k st → Shallow s rank (k + 1) (pass s found st) := by
    rintro k st ⟨hl, hrows, hres⟩
    refine ⟨hl.sublist (pass_sublist st), fun r hr => hrows r ((pass_sublist st).subset hr), ?_⟩
    exact foldl_rank hk hn hsingle hrank hl hrows fun q item hget => ⟨(hres q item hget).1, .inl (hres q item hget).2⟩
  have hend : Shallow s rank (0 + 64) (resolveAll s found pending) :=
    Loops.rounds_reach (Shallow s rank) hstep pass_still hstart 64
  intro q item hget
  have := (hend.2.2 q item hget).2
  omega

end Ranks

/-- The rows beneath the most private folders come first. -/
def deepestFirst (rank : Item → Nat) : Orders where
  names := fun _ l => l
  rows := fun l => l.mergeSort fun a b => decide (rank b.2 ≤ rank a.2)
  updates := id
  names_perm := fun _ _ => .refl _
  rows_perm := fun l => List.mergeSort_perm l _
  updates_perm := fun _ => .refl _

/-- One row is updated before all others. -/
def updatedFirst (r : Path × Item) : Orders where
  names := fun _ l => l
  rows := id
  updates := fun l => if r ∈ l then r :: l.erase r else l
  names_perm := fun _ _ => .refl _
  rows_perm := fun _ => .refl _
  updates_perm := fun l => by
    split
    · exact (List.perm_cons_erase ‹_›).symm
    · exact .refl _

/-- A row whose new path another row has keeps its old one, as no later update is about it. -/
theorem get?_foldl_updateRow
    (h : stored.get? p = some item) (hl : ∀ r ∈ l, r.2.id ≠ item.id) : (l.foldl updateRow stored).get? p = some item := by
  induction l generalizing stored with
  | nil => exact h
  | cons r l ih =>
    refine ih ?_ fun r' hr' => hl r' (mem_cons_of_mem r hr')
    rw [updateRow]
    cases hfind : stored.rows.find? (fun row => row.2.id = r.2.id) with
    | none => exact h
    | some row =>
      dsimp only
      split
      · exact h
      rename_i hcase
      rw [not_or] at hcase
      have hget : stored.get? row.1 = some row.2 := mem_rows.mp (mem_of_find?_eq_some hfind)
      have hid := find?_some hfind
      rw [decide_eq_true_eq] at hid
      have hrow : p ≠ row.1 := by
        rintro rfl
        rw [h] at hget
        exact hl r mem_cons_self (by rw [← hid, some.inj hget])
      have hnew : p ≠ r.1 := by
        rintro rfl
        exact hcase.2 (by rw [h]; rfl)
      rw [get?_put_of_ne _ _ hnew, get?_erase, if_neg hrow]
      exact h

theorem exists_of_foldl_updateRow
    (h : (l.foldl updateRow stored).get? p = some item) : ∃ q, stored.get? q = some item := by
  induction l generalizing stored with
  | nil => exact ⟨p, h⟩
  | cons r l ih =>
    obtain ⟨q, hq⟩ := ih h
    rw [updateRow] at hq
    cases hfind : stored.rows.find? (fun row => row.2.id = r.2.id) with
    | none =>
      rw [hfind] at hq
      exact ⟨q, hq⟩
    | some row =>
      rw [hfind] at hq
      dsimp only at hq
      split at hq
      · exact ⟨q, hq⟩
      rw [get?_put, get?_erase] at hq
      split at hq
      · rw [← some.inj hq]
        exact ⟨row.1, mem_rows.mp (mem_of_find?_eq_some hfind)⟩
      · split at hq
        · cases hq
        · exact ⟨q, hq⟩

theorem stands_found (hn : Noted s sight found)
    (hsingle : ∀ p item d d', s.items.get? p = some item → stands s item.id d = true → stands s item.id d' = true → d' = d)
    (hp : s.items.get? p = some item) (hseen : Seen s sight item.id d) : found.get? item.id = some d := by
  obtain ⟨d', hd'⟩ := isSome_iff_exists.mp (hn.complete p item d hp hseen)
  rw [hd', hsingle p item d d' hp hseen.2.2.2 (hn.seen _ _ hd').2.2.2]

/-- In the worst order as many passes are needed as there are private folders one beneath the other. -/
theorem shallow_of_losesNothing (hk : Known s) (h : LosesNothing s sight) (hlost : lost s sight = true)
    (hsingle : ∀ p item d d', s.items.get? p = some item → stands s item.id d = true → stands s item.id d' = true → d' = d)
    (hp : s.items.get? p = some item) (hd : stands s item.id d = true) : nesting s d < 64 := by
  obtain ⟨found, -, hn⟩ := search_noted sight plain hk
  have hrank : ∀ found', Noted s sight found' → ∀ p item d, s.items.get? p = some item → found'.get? item.id = some d →
      ((found.get? item.id).map (nesting s)).getD 0 = nesting s d := by
    intro found' hn' p item d hp hd
    rw [stands_found hn hsingle hp (hn'.seen _ _ hd)]
    rfl
  obtain ⟨found', hn', hrun⟩ := reconcile_lost hk hlost (deepestFirst fun item => ((found.get? item.id).map (nesting s)).getD 0)
  obtain ⟨r, hr, hmemory, -⟩ := h (deepestFirst fun item => ((found.get? item.id).map (nesting s)).getD 0)
  obtain rfl := some.inj (hrun.symm.trans hr)
  have hperm := (deepestFirst fun item => ((found.get? item.id).map (nesting s)).getD 0).rows_perm s.items.rows
  obtain ⟨hseen, -⟩ := seen_of_sound hn' hperm hmemory hp hd
  rw [← hrank found' hn' p item d hp (stands_found hn' hsingle hp hseen)]
  refine resolveAll_rank hk hn' hsingle (hrank found' hn') ?_ (fun r hr => mem_rows.mp (hperm.mem_iff.mp hr)) _ item
    (hmemory.at_real hp hd)
  refine (pairwise_mergeSort ?_ ?_ s.items.rows).imp fun hle => of_decide_eq_true hle
  · intro a b c hab hbc
    rw [decide_eq_true_eq] at hab hbc ⊢
    omega
  · intro a b
    rw [Bool.or_eq_true, decide_eq_true_eq, decide_eq_true_eq]
    omega

/-- Updated first, a row does not get a path that another row still has. -/
theorem not_taken_of_losesNothing (hk : Known s) (h : LosesNothing s sight) (hlost : lost s sight = true) {q d' : Path}
    {other : Item} (hp : s.items.get? p = some item) (hd : stands s item.id d = true) (hq : s.items.get? q = some other)
    (hd' : stands s other.id d' = true) (hid : other.id ≠ item.id) : q ≠ realPath s (s.layout.diskName item.id :: d) := by
  intro heq
  obtain ⟨found, hn, hrun⟩ := reconcile_lost hk hlost (updatedFirst (q, item))
  obtain ⟨r, hr, hmemory, hstored⟩ := h (updatedFirst (q, item))
  obtain rfl := some.inj (hrun.symm.trans hr)
  have hreal : (resolveAll s found s.items.rows).2.get? q = some item := heq ▸ hmemory.at_real hp hd
  have hfirst : (updatedFirst (q, item)).updates (resolveAll s found s.items.rows).2.rows =
      (q, item) :: (resolveAll s found s.items.rows).2.rows.erase (q, item) := if_pos (mem_rows.mpr hreal)
  have hstored : Sound s (((q, item) :: (resolveAll s found s.items.rows).2.rows.erase (q, item)).foldl updateRow
      ((resolveAll s found s.items.rows).1.foldl deleteRow s.items)) := hfirst ▸ hstored
  have hkept : ∀ {p d item}, s.items.get? p = some item → stands s item.id d = true →
      ((resolveAll s found s.items.rows).1.foldl deleteRow s.items).get? p = some item := by
    intro p d item hp hd
    obtain ⟨q', hq'⟩ := exists_of_foldl_updateRow (hstored.at_real hp hd)
    have hold := ((get?_foldl_deleteRow _ _).mp hq').1
    rw [hk.ids _ _ _ _ hp hold rfl]
    exact hq'
  have hids : ∀ q q' a b, ((resolveAll s found s.items.rows).1.foldl deleteRow s.items).get? q = some a →
      ((resolveAll s found s.items.rows).1.foldl deleteRow s.items).get? q' = some b → a.id = b.id → q = q' :=
    fun _ _ _ _ ha hb => hk.ids _ _ _ _ ((get?_foldl_deleteRow _ _).mp ha).1 ((get?_foldl_deleteRow _ _).mp hb).1
  have hrefused : updateRow ((resolveAll s found s.items.rows).1.foldl deleteRow s.items) (q, item) =
      (resolveAll s found s.items.rows).1.foldl deleteRow s.items := by
    rw [updateRow, find_id (hkept hp hd) hids]
    exact if_pos (.inr (by rw [hkept hq hd']; rfl))
  have hnodup : (resolveAll s found s.items.rows).2.rows.Nodup := (resolveAll s found s.items.rows).2.nodup.of_map
  have hothers : ∀ r ∈ (resolveAll s found s.items.rows).2.rows.erase (q, item), r.2.id ≠ item.id := by
    intro r hr hsame
    rw [hnodup.mem_erase_iff] at hr
    have hget := mem_rows.mp hr.2
    obtain ⟨d₀, hone, hpath⟩ := hmemory.placed r.1 r.2 hget
    rw [hsame] at hone hpath
    rw [← (hone d).mp hd, ← heq] at hpath
    rw [hpath, hreal] at hget
    exact hr.1 (Prod.ext hpath (some.inj hget).symm)
  rw [foldl_cons, hrefused] at hstored
  obtain ⟨d₀, hone, hpath⟩ := hstored.placed p item (get?_foldl_updateRow (hkept hp hd) hothers)
  rw [← (hone d).mp hd, ← heq] at hpath
  rw [hpath, hq] at hp
  exact hid (congrArg Item.id (some.inj hp))

theorem reconcilable_of_losesNothing (hk : Known s) (h : LosesNothing s sight) : Reconcilable s sight := by
  have hsingle : ∀ p item d d', s.items.get? p = some item → stands s item.id d = true → stands s item.id d' = true → d' = d := by
    intro p item d d' hp hd hd'
    obtain ⟨r, -, hmemory, -⟩ := h plain
    exact hmemory.single hp hd hd'
  refine ⟨hsingle, fun hlost p item d hp hd => ?_⟩
  obtain ⟨found, hn, hrun⟩ := reconcile_lost hk hlost plain
  obtain ⟨r, hr, hmemory, -⟩ := h plain
  obtain rfl := some.inj (hrun.symm.trans hr)
  obtain ⟨⟨hwalked, hlists, hstats, -⟩, htrash⟩ := seen_of_sound hn (.refl _) hmemory hp hd
  refine ⟨⟨hwalked, hlists, hstats⟩, htrash, shallow_of_losesNothing hk h hlost hsingle hp hd,
    fun q other d' hq hid hd' => ⟨fun heq => ?_, not_taken_of_losesNothing hk h hlost hp hd hq hd' hid⟩⟩
  have hboth := hmemory.at_real hq hd'
  rw [heq, hmemory.at_real hp hd] at hboth
  exact hid (congrArg Item.id (some.inj hboth)).symm

/-- **Putting rows back in step loses nothing exactly if** every row has one entry at most and, once any is lost, the
entries that are there settle. -/
theorem losesNothing_iff (hk : Known s) : LosesNothing s sight ↔ Reconcilable s sight :=
  ⟨reconcilable_of_losesNothing hk, losesNothing_of_reconcilable hk⟩

/-! ### A drive edited elsewhere -/

def itemNamed (ch : Char) (h : isDiskId (List.replicate 26 ch) = true) : Item := ⟨⟨List.replicate 26 ch, h⟩, "u-ann".toList⟩

def secret : Item := itemNamed 'a' (Eq.refl true)

def tax : Item := itemNamed 'b' (Eq.refl true)

/-- A file system that answers everything. -/
def clearSight : Sight := ⟨fun _ => true, fun _ => true⟩

/-- A private folder with another one in it, moved into `work` from the top of the drive. -/
def movedInto : Drive where
  layout := freshLayout
  disk := ((Table.empty.put ["work".toList] .dir).put [freshLayout.diskName secret.id, "work".toList] .dir).put
    [freshLayout.diskName tax.id, freshLayout.diskName secret.id, "work".toList] (.file [])
  items := (Table.empty.put ["secret".toList] secret).put ["tax".toList, "secret".toList] tax
  trashMeta := Table.empty

theorem movedInto_loses_nothing : lost movedInto clearSight = true ∧ LosesNothing movedInto clearSight :=
  ⟨by decide +kernel, (losesNothing_iff (by decide +kernel)).mpr (by decide +kernel)⟩

/-- The same folder moved, and another private file in the trash, as the calls leave it there. -/
def movedBesideTrash : Drive where
  layout := freshLayout
  disk := (((Table.empty.put ["work".toList] .dir).put [freshLayout.diskName secret.id, "work".toList] .dir).put
    [freshLayout.trashName] .dir).put [freshLayout.diskName tax.id, freshLayout.trashName] (.file [])
  items := (Table.empty.put ["secret".toList] secret).put ["5-tax".toList, freshLayout.trashName] tax
  trashMeta := Table.empty

/-- The entry in the trash is there, where its row says, and its row is gone. -/
theorem trashed_row_lost : Known movedBesideTrash ∧ movedBesideTrash.items.get? ["5-tax".toList, freshLayout.trashName] = some tax ∧
    movedBesideTrash.disk.get? (movedBesideTrash.diskIn ["5-tax".toList, freshLayout.trashName]) = some (.file []) ∧
    (∃ r, reconcile movedBesideTrash clearSight plain = some r ∧ (∀ p, r.stored.get? p ≠ some tax)) ∧
    ¬ LosesNothing movedBesideTrash clearSight := by
  have hrun : (reconcile movedBesideTrash clearSight plain).map (fun r => (r.memory.rows.all fun row => row.2 ≠ tax,
      r.stored.rows.all fun row => row.2 ≠ tax)) = some (true, true) := by decide +kernel
  obtain ⟨r, hr, hall⟩ := map_eq_some_iff.mp hrun
  obtain ⟨hmemory, hstored⟩ := Prod.mk.inj hall
  have hgone : ∀ {t : Table Path Item}, (t.rows.all fun row => row.2 ≠ tax) = true → ∀ p, t.get? p ≠ some tax := by
    intro t hall p hget
    exact absurd rfl (of_decide_eq_true (List.all_eq_true.mp hall _ (mem_rows.mpr hget)))
  refine ⟨by decide +kernel, by decide +kernel, by decide +kernel, ⟨r, hr, hgone hstored⟩, fun h => ?_⟩
  obtain ⟨r', hr', hsound, -⟩ := h plain
  obtain rfl := some.inj (hr.symm.trans hr')
  obtain ⟨p, hp⟩ := hsound.kept ["5-tax".toList, freshLayout.trashName] tax [freshLayout.trashName] (by decide +kernel) (by decide +kernel)
  exact hgone hmemory p hp

end LibreServ.Files.Reconcile
