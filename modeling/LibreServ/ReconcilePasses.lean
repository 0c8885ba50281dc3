import LibreServ.Reconcile

/-! What the search for the entries comes upon, and what the passes over the rows do with it. -/

namespace LibreServ.Files.Reconcile

open FileTree List Option Table

variable {s : Drive} {sight : Sight} {ord : Orders}

/-! ### The search visits every folder it may -/

section Search

variable (s sight ord)

def names (d : Path) : List Text := if sight.lists d then ord.names d ((s.disk.children d).map Prod.fst) else []

def enters (d : Path) (name : Text) : Bool :=
  sight.stats (name :: d) && passable s name && s.disk.get? (name :: d) = some .dir

def kids (d : Path) : List Path := (((names s sight ord d).filter (enters s sight d)).map (· :: d)).reverse

def note (d : Path) (found : Table ItemId Path) (name : Text) : Table ItemId Path :=
  if sight.stats (name :: d) then
    match s.rowOf name with
    | some r => found.put r.2.id d
    | none => found
  else found

def visit (d : Path) (found : Table ItemId Path) : Table ItemId Path := (names s sight ord d).foldl (note s sight d) found

end Search

theorem look_eq (d : Path) (stack : List Path) (found : Table ItemId Path) (name : Text) :
    look s sight d (stack, found) name =
      ((if enters s sight d name then [name :: d] else []) ++ stack, note s sight d found name) := by
  rw [look, enters, note, passable]
  cases hstats : sight.stats (name :: d) with
  | false => rfl
  | true =>
    cases hrow : s.rowOf name with
    | some r => by_cases hdir : s.disk.get? (name :: d) = some .dir <;> simp [hdir]
    | none =>
      by_cases htrash : name = s.layout.trashName
      · subst htrash
        by_cases hdir : s.disk.get? (s.layout.trashName :: d) = some .dir <;> simp [hdir]
      · cases hluna : isLunaName name <;> by_cases hdir : s.disk.get? (name :: d) = some .dir <;> simp [htrash, hdir]

theorem foldl_look (d : Path) (l : List Text) (stack : List Path) (found : Table ItemId Path) :
    l.foldl (look s sight d) (stack, found) =
      (((l.filter (enters s sight d)).map (· :: d)).reverse ++ stack, l.foldl (note s sight d) found) := by
  induction l generalizing stack found with
  | nil => rfl
  | cons name l ih =>
    rw [foldl_cons, look_eq, ih]
    cases hname : enters s sight d name with
    | true => rw [filter_cons_of_pos hname, map_cons, reverse_cons, append_assoc]; rfl
    | false => rw [filter_cons_of_neg (by rw [hname]; exact Bool.false_ne_true)]; rfl

theorem readDir_eq (d : Path) (stack : List Path) (found : Table ItemId Path) :
    readDir s sight ord d (stack, found) = (kids s sight ord d ++ stack, visit s sight ord d found) := by
  rw [readDir, kids, visit, names]
  split
  · exact foldl_look d _ stack found
  · rfl

theorem search_eq (n : Nat) (stack : List Path) (found : Table ItemId Path) :
    search s sight ord n (stack, found) = Walk.walk (kids s sight ord) (visit s sight ord) n stack found := by
  induction n generalizing stack found with
  | zero => cases stack <;> rfl
  | succ n ih =>
    cases stack with
    | nil => rfl
    | cons d stack => rw [search, readDir_eq, ih, Walk.walk]

variable {d : Path} {name : Text}

theorem mem_names :
    name ∈ names s sight ord d ↔ sight.lists d = true ∧ (s.disk.get? (name :: d)).isSome = true := by
  rw [names]
  split
  · rename_i hlists
    rw [(ord.names_perm d _).mem_iff, List.mem_map, isSome_iff_exists]
    constructor
    · rintro ⟨⟨n, e⟩, hmem, rfl⟩
      exact ⟨hlists, e, Tree.mem_children.mp hmem⟩
    · rintro ⟨-, e, he⟩
      exact ⟨(name, e), Tree.mem_children.mpr he, rfl⟩
  · rename_i hlists
    simp [hlists]

theorem mem_kids {d k : Path} :
    k ∈ kids s sight ord d ↔ ∃ name, k = name :: d ∧ sight.lists d = true ∧ enters s sight d name = true := by
  rw [kids, mem_reverse, List.mem_map]
  constructor
  · rintro ⟨name, hmem, rfl⟩
    rw [mem_filter] at hmem
    exact ⟨name, rfl, (mem_names.mp hmem.1).1, hmem.2⟩
  · rintro ⟨name, rfl, hlists, henters⟩
    refine ⟨name, mem_filter.mpr ⟨mem_names.mpr ⟨hlists, ?_⟩, henters⟩, rfl⟩
    rw [enters, Bool.and_eq_true, decide_eq_true_eq] at henters
    rw [henters.2]
    rfl

theorem nodup_children (t : Tree Text (List UInt8)) (d : Path) : ((t.children d).map Prod.fst).Nodup := by
  have hsub : (((t.children d).map Prod.fst).map (· :: d)).Sublist (t.rows.map Prod.fst) := by
    rw [Tree.children]
    generalize t.rows = rows
    induction rows with
    | nil => exact List.Sublist.refl _
    | cons r rows ih =>
      obtain ⟨p, e⟩ := r
      cases p with
      | nil => exact ih.cons _
      | cons n d' =>
        by_cases hd : d' = d
        · rw [filterMap_cons]
          simp only [hd]
          exact ih.cons_cons _
        · rw [filterMap_cons]
          simp only [hd]
          exact ih.cons _
  exact List.Nodup.of_map _ (t.nodup.sublist hsub)

theorem rooted : Walk.Rooted (kids s sight ord) [] ([] :: s.disk.keys) where
  root_mem := mem_cons_self
  kids_mem := by
    intro d _ k hk
    obtain ⟨name, rfl, -, henters⟩ := mem_kids.mp hk
    rw [enters, Bool.and_eq_true, decide_eq_true_eq] at henters
    exact mem_cons_of_mem _ (Table.mem_keys.mpr ⟨_, henters.2⟩)
  nodup := by
    intro d
    rw [kids, nodup_reverse]
    have hnames : (names s sight ord d).Nodup := by
      rw [names]
      split
      · exact (ord.names_perm d _).nodup_iff.mpr (nodup_children s.disk d)
      · exact nodup_nil
    exact (hnames.filter _).map fun a b hab => (cons.inj hab).1
  parent := by
    intro d d' k hk hk'
    obtain ⟨name, rfl, -⟩ := mem_kids.mp hk
    obtain ⟨name', heq, -⟩ := mem_kids.mp hk'
    exact (cons.inj heq).2
  top := by
    intro d hd
    obtain ⟨name, heq, -⟩ := mem_kids.mp hd
    cases heq

theorem reach_iff : Walk.Reach (kids s sight ord) [] d ↔ walked s sight d = true := by
  constructor
  · intro hd
    induction hd with
    | root => rfl
    | kid d k _ hk ih =>
      obtain ⟨name, rfl, hlists, henters⟩ := mem_kids.mp hk
      rw [enters, Bool.and_eq_true, Bool.and_eq_true] at henters
      rw [walked, ih, hlists, henters.1.1, henters.1.2, henters.2]
      rfl
  · induction d with
    | nil => exact fun _ => .root
    | cons name d ih =>
      intro hd
      rw [walked, Bool.and_eq_true, Bool.and_eq_true, Bool.and_eq_true, Bool.and_eq_true] at hd
      obtain ⟨⟨⟨⟨hwalked, hlists⟩, hstats⟩, hpass⟩, hdir⟩ := hd
      refine .kid d _ (ih hwalked) (mem_kids.mpr ⟨name, rfl, hlists, ?_⟩)
      rw [enters, hstats, hpass, hdir]
      rfl

/-- The search comes upon the entry. -/
def Seen (s : Drive) (sight : Sight) (id : ItemId) (d : Path) : Prop :=
  walked s sight d = true ∧ sight.lists d = true ∧ sight.stats (s.layout.diskName id :: d) = true ∧ stands s id d = true

/-- What the search has noted down. -/
structure Noted (s : Drive) (sight : Sight) (found : Table ItemId Path) : Prop where
  seen : ∀ id d, found.get? id = some d → Seen s sight id d
  complete : ∀ p item d, s.items.get? p = some item → Seen s sight item.id d → (found.get? item.id).isSome = true

theorem rowOf_diskName (hk : Known s) {p : Path} {item : Item} (h : s.items.get? p = some item) :
    s.rowOf (s.layout.diskName item.id) = some (p, item) := hk.ids.rowOf h

theorem foldl_note_seen (hd : walked s sight d = true ∧ sight.lists d = true) {l : List Text}
    (hl : ∀ name ∈ l, (s.disk.get? (name :: d)).isSome = true) {found : Table ItemId Path}
    (h : ∀ id d, found.get? id = some d → Seen s sight id d) :
    ∀ id d', (l.foldl (note s sight d) found).get? id = some d' → Seen s sight id d' := by
  apply Loops.foldl_keeps (P := fun found : Table ItemId Path => ∀ id d', found.get? id = some d' → Seen s sight id d') ?_ h
  intro name hname found hfound id d' hget
  rw [note] at hget
  split at hget
  · rename_i hstats
    cases hrow : s.rowOf name with
    | none =>
      rw [hrow] at hget
      exact hfound id d' hget
    | some r =>
      rw [hrow] at hget
      rcases get?_put_some.mp hget with ⟨hid, rfl⟩ | ⟨-, hget⟩
      · obtain ⟨-, hdisk⟩ := Drive.mem_of_rowOf hrow
        rw [Seen, stands, hid, hdisk]
        exact ⟨hd.1, hd.2, hstats, hl name hname⟩
      · exact hfound id d' hget
  · exact hfound id d' hget

theorem note_isSome {found : Table ItemId Path} {id : ItemId} (h : (found.get? id).isSome = true) (name : Text) :
    ((note s sight d found name).get? id).isSome = true := by
  rw [note]
  split
  · cases s.rowOf name with
    | none => exact h
    | some r =>
      rw [get?_put]
      split
      · rfl
      · exact h
  · exact h

theorem foldl_note_isSome {found : Table ItemId Path} {id : ItemId} (h : (found.get? id).isSome = true)
    (l : List Text) : ((l.foldl (note s sight d) found).get? id).isSome = true :=
  Loops.foldl_keeps (P := fun found : Table ItemId Path => (found.get? id).isSome = true)
    (fun name _ _ hfound => note_isSome hfound name) h

theorem search_noted (sight : Sight) (ord : Orders) (hk : Known s) : ∃ found, search s sight ord (s.disk.rows.length + 1) ([[]], Table.empty) = some found ∧
    Noted s sight found := by
  obtain ⟨done, hrun, -, hdone⟩ := Walk.walk_visits (visit s sight ord) rooted (Table.empty : Table ItemId Path)
  have hlen : ([] :: s.disk.keys).length = s.disk.rows.length + 1 := by
    rw [length_cons, Table.keys, length_map]
  rw [hlen] at hrun
  refine ⟨_, (search_eq _ _ _).trans hrun, ?_, ?_⟩
  · apply Loops.foldl_keeps (P := fun found : Table ItemId Path => ∀ id d, found.get? id = some d → Seen s sight id d)
    · intro d hd found hfound
      rw [visit]
      by_cases hlists : sight.lists d = true
      · exact foldl_note_seen ⟨reach_iff.mp ((hdone d).mp hd), hlists⟩ (fun name hname => (mem_names.mp hname).2) hfound
      · have hnone : names s sight ord d = [] := by rw [names, if_neg hlists]
        rw [hnone]
        exact hfound
    · intro id d hget
      cases hget
  · intro p item d hitem hseen
    obtain ⟨hwalked, hlists, hstats, hstands⟩ := hseen
    have hname : s.layout.diskName item.id ∈ names s sight ord d := mem_names.mpr ⟨hlists, hstands⟩
    have hnoted := Loops.foldl_each (f := fun found d => visit s sight ord d found) (P := fun _ => True)
      (Q := fun d found => s.layout.diskName item.id ∈ names s sight ord d →
        sight.stats (s.layout.diskName item.id :: d) = true → (found.get? item.id).isSome = true)
      (fun _ _ _ _ => trivial) ?_ ?_ (s := Table.empty) trivial d ((hdone d).mpr (reach_iff.mpr hwalked)) hname hstats
    · exact hnoted
    · intro d _ found _ hmem hstats
      refine Loops.foldl_each (f := note s sight d) (P := fun _ => True) (Q := fun name found =>
        name = s.layout.diskName item.id → (found.get? item.id).isSome = true) (fun _ _ _ _ => trivial) ?_ ?_ trivial _ hmem rfl
      · rintro name _ found _ rfl
        rw [note, if_pos hstats, rowOf_diskName hk hitem]
        rw [get?_put_self]
        rfl
      · intro name _ _ found _ hfound heq
        exact note_isSome (hfound heq) name
    · intro d' _ _ found _ hfound hmem hstats
      exact foldl_note_isSome (hfound hmem hstats) _

/-! ### Real paths -/

theorem lead_diskName (id : Text) : s.layout.lead.isPrefixOf (s.layout.diskName id) = true :=
  isPrefixOf_iff_prefix.mpr (prefix_append _ _)

theorem luna_of_lead (h : s.layout.lead.isPrefixOf name = true) : isLunaName name = true := by
  obtain ⟨rest, rfl⟩ := isPrefixOf_iff_prefix.mp h
  rw [Layout.lead, append_assoc]
  exact s.layout.isLunaName_pfx _

/-- The trash is no private folder, and it keeps what lies in it from being resolved. -/
theorem parentOf_trash (resolved : Table Path Item) {d : Path} (h : s.layout.trashName ∈ d) : parentOf s resolved d = none := by
  induction d with
  | nil => cases h
  | cons name d ih =>
    rw [parentOf]
    cases hparent : parentOf s resolved d with
    | none => rfl
    | some parent =>
      rcases mem_cons.mp h with rfl | hmem
      · have hnone : resolved.rows.find? (fun r => s.layout.diskName r.2.id = s.layout.trashName) = none := by
          rw [find?_eq_none]
          intro r _ hr
          have hdisk := s.layout.isDiskName_diskName r.2.id
          rw [of_decide_eq_true hr, Layout.isDiskName_trashName] at hdisk
          cases hdisk
        have hlead : s.layout.lead.isPrefixOf s.layout.trashName = true := by
          rw [List.isPrefixOf_iff_prefix, Layout.lead]
          exact ⟨"trash".toList, by rw [append_assoc]; rfl⟩
        rw [hnone]
        exact if_pos hlead
      · rw [ih hmem] at hparent
        cases hparent

variable {resolved : Table Path Item}

/-- Every private folder on the way has to be resolved first. -/
theorem resolved_of_parentOf {d parent : Path} (h : parentOf s resolved d = some parent)
    {id : ItemId} (hmem : s.layout.diskName id ∈ d) : ∃ q item, resolved.get? q = some item ∧ item.id = id := by
  induction d generalizing parent with
  | nil => cases hmem
  | cons name d ih =>
    rw [parentOf] at h
    cases hparent : parentOf s resolved d with
    | none =>
      rw [hparent] at h
      cases h
    | some parent' =>
      rcases mem_cons.mp hmem with rfl | hmem
      · rw [hparent] at h
        cases hfind : resolved.rows.find? (fun r => s.layout.diskName r.2.id = s.layout.diskName id) with
        | none =>
          rw [hfind] at h
          dsimp only at h
          rw [if_pos (lead_diskName _)] at h
          cases h
        | some up =>
          have hget : resolved.get? up.1 = some up.2 := mem_rows.mp (mem_of_find?_eq_some hfind)
          have hname := find?_some hfind
          rw [decide_eq_true_eq] at hname
          exact ⟨up.1, up.2, hget, Subtype.ext (Layout.diskName_inj hname)⟩
      · exact ih hparent hmem

/-- Where they all are, the folder is resolved too. -/
theorem parentOf_isSome
    (hlead : ∀ name ∈ d, s.layout.lead.isPrefixOf name = true → ∃ q item, resolved.get? q = some item ∧ s.layout.diskName item.id = name) :
    ∃ parent, parentOf s resolved d = some parent := by
  induction d with
  | nil => exact ⟨[], rfl⟩
  | cons name d ih =>
    obtain ⟨parent, hparent⟩ := ih fun name' hname' => hlead name' (mem_cons_of_mem name hname')
    rw [parentOf, hparent]
    cases hfind : resolved.rows.find? (fun r => s.layout.diskName r.2.id = name) with
    | some up => exact ⟨up.1, rfl⟩
    | none =>
      refine ⟨name :: parent, if_neg fun hpre => ?_⟩
      obtain ⟨q, item, hget, hname⟩ := hlead name mem_cons_self hpre
      exact find?_eq_none.mp hfind _ (mem_rows.mpr hget) (decide_eq_true hname)

theorem realName_of_rowOf_none (h : s.rowOf name = none) : s.realName name = name := by
  rw [Drive.realName, h]
  rfl

theorem rowOf_none_of_lead (h : ¬ s.layout.lead.isPrefixOf name = true) : s.rowOf name = none := by
  cases hrow : s.rowOf name with
  | none => rfl
  | some r =>
    obtain ⟨-, hname⟩ := Drive.mem_of_rowOf hrow
    rw [← hname, lead_diskName] at h
    exact absurd rfl h

/-- A folder is given its real path if those above it have theirs. -/
theorem parentOf_real
    (hreal : ∀ q item, resolved.get? q = some item → ∀ d, stands s item.id d = true → q = realPath s (s.layout.diskName item.id :: d))
    {d parent : Path} (habove : ∀ name d', name :: d' <:+ d → (s.disk.get? (name :: d')).isSome = true)
    (h : parentOf s resolved d = some parent) : parent = realPath s d := by
  induction d generalizing parent with
  | nil => exact (some.inj h).symm
  | cons name d ih =>
    rw [parentOf] at h
    cases hparent : parentOf s resolved d with
    | none =>
      rw [hparent] at h
      cases h
    | some parent' =>
      have hrest := ih (fun name' d' hsuf => habove name' d' (hsuf.trans (suffix_cons name d))) hparent
      rw [hparent] at h
      cases hfind : resolved.rows.find? (fun r => s.layout.diskName r.2.id = name) with
      | some up =>
        rw [hfind] at h
        have hget : resolved.get? up.1 = some up.2 := mem_rows.mp (mem_of_find?_eq_some hfind)
        have hname := find?_some hfind
        rw [decide_eq_true_eq] at hname
        have hstands : stands s up.2.id d = true := by
          rw [stands, hname]
          exact habove name d (suffix_refl _)
        rw [← some.inj h, hreal _ _ hget d hstands, hname]
      | none =>
        rw [hfind] at h
        dsimp only at h
        split at h
        · cases h
        · rename_i hlead
          rw [← some.inj h, hrest, realPath, realPath, map_cons, realName_of_rowOf_none (rowOf_none_of_lead hlead)]

/-! ### What a pass does -/

variable {found : Table ItemId Path}

/-- A pass takes rows off the list, and leaves everything as it is if it takes none. -/
theorem foldl_retain (s : Drive) (found : Table ItemId Path) (l kept : List (Path × Item)) (resolved : Table Path Item) :
    ∃ l', (l.foldl (retain s found) (kept, resolved)).1 = kept ++ l' ∧ l'.Sublist l ∧
      (l'.length = l.length → l.foldl (retain s found) (kept, resolved) = (kept ++ l, resolved)) := by
  induction l generalizing kept resolved with
  | nil => exact ⟨[], (append_nil _).symm, List.Sublist.refl _, fun _ => by rw [foldl_nil, append_nil]⟩
  | cons r l ih =>
    rw [foldl_cons, retain]
    cases hone : resolveOne s found resolved r with
    | none =>
      obtain ⟨l', heq, hsub, hstill⟩ := ih (kept ++ [r]) resolved
      rw [append_assoc] at heq
      refine ⟨r :: l', heq, hsub.cons_cons r, fun hlen => ?_⟩
      rw [length_cons, length_cons, Nat.add_right_cancel_iff] at hlen
      have hsame := hstill hlen
      rwa [append_assoc, singleton_append] at hsame
    | some path =>
      obtain ⟨l', heq, hsub, -⟩ := ih kept (resolved.put path r.2)
      refine ⟨l', heq, hsub.cons r, fun hlen => ?_⟩
      have hle := hsub.length_le
      rw [length_cons] at hlen
      omega

theorem pass_still (st : List (Path × Item) × Table Path Item) (h : (pass s found st).1.length = st.1.length) :
    pass s found st = st := by
  obtain ⟨l', heq, -, hstill⟩ := foldl_retain s found st.1 [] st.2
  have hlen : l'.length = st.1.length := by
    rw [← h, pass, heq, nil_append]
  exact hstill hlen

theorem pass_sublist (st : List (Path × Item) × Table Path Item) : (pass s found st).1.Sublist st.1 := by
  obtain ⟨l', heq, hsub, -⟩ := foldl_retain s found st.1 [] st.2
  rw [pass, heq]
  exact hsub

/-- What any number of passes keeps. -/
theorem resolveAll_keeps {P : List (Path × Item) × Table Path Item → Prop} (hpass : ∀ st, P st → P (pass s found st))
    {pending : List (Path × Item)} (h : P (pending, Table.empty)) : P (resolveAll s found pending) :=
  Loops.rounds_reach (fun _ => P) (fun _ => hpass) pass_still (k := 0) h 64

theorem resolveOne_some {r : Path × Item} {path : Path}
    (h : resolveOne s found resolved r = some path) : ∃ d parent, found.get? r.2.id = some d ∧
      parentOf s resolved d = some parent ∧ path = r.1.head?.getD [] :: parent := by
  obtain ⟨d, hd, h⟩ := bind_eq_some_iff.mp h
  obtain ⟨parent, hparent, h⟩ := bind_eq_some_iff.mp h
  exact ⟨d, parent, hd, hparent, (some.inj h).symm⟩

/-- A row is resolved only if its entry was found, and not in the trash. -/
def OutsideTrash (s : Drive) (found : Table ItemId Path) (resolved : Table Path Item) : Prop :=
  ∀ q item, resolved.get? q = some item → (∃ p, s.items.get? p = some item) ∧
    ∃ d, found.get? item.id = some d ∧ s.layout.trashName ∉ d

theorem OutsideTrash.retain {st : List (Path × Item) × Table Path Item} {r : Path × Item} (h : OutsideTrash s found st.2)
    (hr : s.items.get? r.1 = some r.2) : OutsideTrash s found (Reconcile.retain s found st r).2 := by
  intro q item hget
  rw [Reconcile.retain] at hget
  cases hone : resolveOne s found st.2 r with
  | none =>
    rw [hone] at hget
    exact h q item hget
  | some path =>
    obtain ⟨d, parent, hd, hparent, -⟩ := resolveOne_some hone
    rw [hone] at hget
    rcases get?_put_some.mp hget with ⟨-, rfl⟩ | ⟨-, hget⟩
    · refine ⟨⟨r.1, hr⟩, d, hd, fun htrash => ?_⟩
      rw [parentOf_trash _ htrash] at hparent
      cases hparent
    · exact h q item hget

theorem resolved_found {pending : List (Path × Item)} (hpending : ∀ r ∈ pending, s.items.get? r.1 = some r.2) :
    OutsideTrash s found (resolveAll s found pending).2 := by
  have hstep : ∀ st : List (Path × Item) × Table Path Item,
      (∀ r ∈ st.1, s.items.get? r.1 = some r.2) ∧ OutsideTrash s found st.2 →
      (∀ r ∈ (pass s found st).1, s.items.get? r.1 = some r.2) ∧ OutsideTrash s found (pass s found st).2 := by
    rintro ⟨pending, resolved⟩ ⟨hrows, hres⟩
    refine ⟨fun r hr => hrows r ((pass_sublist _).subset hr), ?_⟩
    exact Loops.foldl_keeps (P := fun st : List (Path × Item) × Table Path Item => OutsideTrash s found st.2)
      (fun r hr st hst => hst.retain (hrows r hr)) hres
  exact (resolveAll_keeps hstep ⟨hpending, fun q item hget => (nomatch hget)⟩).2

/-! ### On the way to an entry -/

theorem walked_suffix (h : walked s sight d = true) {name : Text} {d' : Path} (hsuf : name :: d' <:+ d) :
    walked s sight d' = true ∧ sight.lists d' = true ∧ sight.stats (name :: d') = true ∧ passable s name = true ∧
      s.disk.get? (name :: d') = some .dir := by
  induction d with
  | nil => exact absurd hsuf.length_le (by simp)
  | cons name' d ih =>
    rw [walked, Bool.and_eq_true, Bool.and_eq_true, Bool.and_eq_true, Bool.and_eq_true, decide_eq_true_eq] at h
    obtain ⟨⟨⟨⟨hwalked, hlists⟩, hstats⟩, hpass⟩, hdir⟩ := h
    rcases suffix_cons_iff.mp hsuf with heq | hsuf
    · obtain ⟨rfl, rfl⟩ := cons.inj heq
      exact ⟨hwalked, hlists, hstats, hpass, hdir⟩
    · exact ih hwalked hsuf

theorem nesting_lt {d d' : Path} (hsuf : name :: d' <:+ d) (hrow : (s.rowOf name).isSome = true) :
    nesting s d' < nesting s d := by
  have hle : nesting s (name :: d') ≤ nesting s d := hsuf.sublist.countP_le
  have hcount : nesting s (name :: d') = nesting s d' + 1 := countP_cons_of_pos hrow
  omega

/-- Outside the trash, a name on the way that looks like Luna's is a private folder's, and that folder's entry is seen. -/
theorem folder_on_way (h : walked s sight d = true) (htrash : s.layout.trashName ∉ d) {name : Text}
    (hmem : name ∈ d) (hlead : s.layout.lead.isPrefixOf name = true) : ∃ p item d', s.items.get? p = some item ∧
      s.layout.diskName item.id = name ∧ name :: d' <:+ d ∧ Seen s sight item.id d' ∧ nesting s d' < nesting s d := by
  obtain ⟨q, d', rfl⟩ := append_of_mem hmem
  have hsuf : name :: d' <:+ q ++ name :: d' := suffix_append _ _
  obtain ⟨hwalked, hlists, hstats, hpass, hdir⟩ := walked_suffix h hsuf
  cases hrow : s.rowOf name with
  | none =>
    rw [passable, hrow, luna_of_lead hlead] at hpass
    have heq : name = s.layout.trashName := by simpa using hpass
    exact absurd (heq ▸ hmem) htrash
  | some r =>
    obtain ⟨hget, hname⟩ := Drive.mem_of_rowOf hrow
    refine ⟨r.1, r.2, d', hget, hname, hsuf, ⟨hwalked, hlists, ?_, ?_⟩, nesting_lt hsuf (by rw [hrow]; rfl)⟩
    · rw [hname]
      exact hstats
    · rw [stands, hname, hdir]
      rfl

end LibreServ.Files.Reconcile
