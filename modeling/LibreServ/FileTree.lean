import LibreServ.Table

/-! File trees. A path is the list of its names, innermost first: the folder a path lies in is its
tail, and the folders above it are its suffixes. A tree is a table of entries by path; its root `[]` is a
folder that has no entry of its own. Nothing here depends on what a file holds. -/

namespace Table

open List

variable {κ ν : Type} [DecidableEq κ] {l : List (κ × ν)}

/-- The table after inserting the pairs one by one: of two pairs with one key the later stays. -/
def ofList (l : List (κ × ν)) : Table κ ν := l.foldl (fun t r => t.put r.1 r.2) empty

theorem ofList_concat (l : List (κ × ν)) (r : κ × ν) : ofList (l ++ [r]) = (ofList l).put r.1 r.2 := by
  rw [ofList, List.foldl_append]
  rfl

theorem mem_of_get?_ofList {k : κ} {v : ν} (h : (ofList l).get? k = some v) :
    (k, v) ∈ l := by
  induction l using List.reverseRecOn with
  | nil => cases h
  | append_singleton l r ih =>
    rw [ofList_concat, get?_put] at h
    by_cases hk : k = r.1
    · rw [if_pos hk] at h
      have hr : (k, v) = r := Prod.ext hk (Option.some.inj h).symm
      rw [hr]
      exact mem_append_right l (List.mem_singleton.mpr rfl)
    · rw [if_neg hk] at h
      exact mem_append_left _ (ih h)

theorem get?_ofList_ne_none {k : κ} {v : ν} (h : (k, v) ∈ l) :
    (ofList l).get? k ≠ none := by
  induction l using List.reverseRecOn with
  | nil => cases h
  | append_singleton l r ih =>
    rw [ofList_concat, get?_put]
    by_cases hk : k = r.1
    · rw [if_pos hk]
      exact Option.some_ne_none _
    · rw [if_neg hk]
      rcases mem_append.mp h with h | h
      · exact ih h
      · rw [List.mem_singleton] at h
        exact absurd (congrArg Prod.fst h) hk

/-- Where no key has two values, the table holds exactly the pairs. -/
theorem get?_ofList (huniq : ∀ k v v', (k, v) ∈ l → (k, v') ∈ l → v = v') {k : κ}
    {v : ν} : (ofList l).get? k = some v ↔ (k, v) ∈ l := by
  refine ⟨mem_of_get?_ofList, fun h => ?_⟩
  obtain ⟨v', hv'⟩ := Option.ne_none_iff_exists'.mp (get?_ofList_ne_none h)
  rw [hv', huniq k v v' h (mem_of_get?_ofList hv')]

end Table

namespace FileTree

/-- What stands at a path. A link leads out of the tree. -/
inductive Entry (φ : Type) where
  | file (f : φ)
  | dir
  | link
  deriving DecidableEq

abbrev Tree (ν φ : Type) := Table (List ν) (Entry φ)

variable {ν φ ε β : Type} [DecidableEq ν] {f : φ} {q : List ν}

namespace Tree

variable (t : Tree ν φ)

def file? (p : List ν) : Option φ :=
  match t.get? p with
  | some (.file f) => some f
  | _ => none

/-- The path exists. -/
def taken (p : List ν) : Bool := p = [] || (t.get? p).isSome

/-- `create_dir_all`: the folder `p` and every folder above it; a file in the way is an error. -/
def mkdirs : List ν → Tree ν φ → Option (Tree ν φ)
  | [], t => some t
  | n :: d, t =>
    (mkdirs d t).bind fun t =>
      match t.get? (n :: d) with
      | none => some (t.put (n :: d) .dir)
      | some (.file _) => none
      | some _ => some t

/-- `rename` of a file: whatever stood at the target is replaced. -/
def moveFile (source target : List ν) : Tree ν φ :=
  match t.get? source with
  | some e => (t.erase source).put target e
  | none => t

/-- The entries of the folder `d`, with their names. -/
def children (d : List ν) : List (ν × Entry φ) :=
  t.rows.filterMap fun r =>
    match r.1 with
    | n :: d' => if d' = d then some (n, r.2) else none
    | [] => none

/-- No path is longer. -/
def depth : Nat := (t.rows.map fun r => r.1.length).foldr max 0

variable {t}

variable {p : List ν}

theorem file?_eq_some : t.file? p = some f ↔ t.get? p = some (.file f) := by
  unfold file?
  split
  · next g hg => rw [hg, Option.some.injEq, Option.some.injEq, Entry.file.injEq]
  · next hne =>
      constructor
      · intro h
        cases h
      · exact fun h => absurd h (hne f)

theorem taken_of_file (h : t.file? p = some f) : t.taken p = true := by
  rw [taken, file?_eq_some.mp h]
  simp

theorem get?_of_not_taken (h : t.taken p = false) : t.get? p = none := by
  simp only [taken, Bool.or_eq_false_iff] at h
  exact Option.isNone_iff_eq_none.mp (by simpa using h.2)

theorem file?_congr {t' : Tree ν φ} (h : t'.get? p = t.get? p) : t'.file? p = t.file? p := by
  rw [file?, file?, h]

theorem file?_put_self (p : List ν) (f : φ) : Tree.file? (t.put p (.file f)) p = some f := by
  rw [file?, Table.get?_put_self]

theorem file?_put_of_ne {p : List ν} (e : Entry φ) (h : q ≠ p) :
    Tree.file? (t.put p e) q = t.file? q := file?_congr (Table.get?_put_of_ne t e h)

theorem file?_erase_of_ne {p : List ν} (h : q ≠ p) : Tree.file? (t.erase p) q = t.file? q :=
  file?_congr (by rw [Table.get?_erase, if_neg h])

theorem not_file_of_not_taken (h : t.taken p = false) : t.file? p = none := by
  rw [file?, get?_of_not_taken h]

theorem file?_moveFile_target {source : List ν} (h : t.file? source = some f) (target : List ν) :
    (t.moveFile source target).file? target = some f := by
  rw [moveFile, file?_eq_some.mp h]
  exact file?_put_self target f

theorem file?_moveFile_of_ne {source target p : List ν} (hs : p ≠ source) (ht : p ≠ target) :
    (t.moveFile source target).file? p = t.file? p := by
  rw [moveFile]
  split
  · rw [file?_put_of_ne _ ht, file?_erase_of_ne hs]
  · rfl

variable {d : List ν}

theorem mem_children {n : ν} {e : Entry φ} :
    (n, e) ∈ t.children d ↔ t.get? (n :: d) = some e := by
  rw [children, List.mem_filterMap, ← Table.mem_rows]
  constructor
  · rintro ⟨⟨p, e'⟩, hr, h⟩
    cases p with
    | nil => cases h
    | cons m d' =>
      by_cases hd : d' = d
      · simp only [hd, if_true, Option.some.injEq, Prod.mk.injEq] at h
        rw [← h.1, ← h.2, ← hd]
        exact hr
      · simp [hd] at h
  · intro h
    exact ⟨(n :: d, e), h, by simp⟩

theorem length_le_depth {e : Entry φ} (h : t.get? p = some e) : p.length ≤ t.depth := by
  have hmem : p.length ∈ t.rows.map fun r => r.1.length :=
    List.mem_map.mpr ⟨(p, e), Table.mem_rows.mpr h, rfl⟩
  rw [depth]
  generalize t.rows.map (fun r => r.1.length) = ls at hmem
  induction ls with
  | nil => cases hmem
  | cons l ls ih =>
    rcases List.mem_cons.mp hmem with rfl | hmem
    · exact Nat.le_max_left _ _
    · exact (ih hmem).trans (Nat.le_max_right _ _)

theorem mkdirs_cons {n : ν} {t t' : Tree ν φ} (h : mkdirs (n :: d) t = some t') : ∃ u, mkdirs d t = some u ∧
      (u.get? (n :: d) = none ∧ t' = u.put (n :: d) .dir ∨
        (u.get? (n :: d) = some .dir ∨ u.get? (n :: d) = some .link) ∧ t' = u) := by
  obtain ⟨u, hu, hstep⟩ := Option.bind_eq_some_iff.mp h
  refine ⟨u, hu, ?_⟩
  cases hn : u.get? (n :: d) with
  | none =>
    simp only [hn, Option.some.injEq] at hstep
    exact .inl ⟨rfl, hstep.symm⟩
  | some e =>
    cases e with
    | file f => simp [hn] at hstep
    | dir =>
      simp only [hn, Option.some.injEq] at hstep
      exact .inr ⟨.inl rfl, hstep.symm⟩
    | link =>
      simp only [hn, Option.some.injEq] at hstep
      exact .inr ⟨.inr rfl, hstep.symm⟩

section

variable {t t' : Tree ν φ} (h : mkdirs d t = some t')
include h

/-- `create_dir_all` adds folders at free paths and changes nothing else. -/
theorem get?_mkdirs (p : List ν) : t'.get? p = t.get? p ∨ t.get? p = none ∧ t'.get? p = some .dir ∧ p <:+ d := by
  induction d generalizing t' with
  | nil => exact .inl (by rw [← Option.some.inj h])
  | cons n d ih =>
    obtain ⟨u, hu, hstep⟩ := mkdirs_cons h
    have hup : u.get? p = t.get? p ∨ t.get? p = none ∧ u.get? p = some .dir ∧ p <:+ n :: d :=
      (ih hu).imp_right fun ⟨hp, hd, hs⟩ => ⟨hp, hd, hs.trans (List.suffix_cons n d)⟩
    rcases hstep with ⟨hnone, rfl⟩ | ⟨-, rfl⟩
    · by_cases hp : p = n :: d
      · subst hp
        rw [Table.get?_put_self]
        rcases hup with hup | ⟨-, hdir, -⟩
        · exact .inr ⟨hup ▸ hnone, rfl, List.suffix_refl _⟩
        · rw [hnone] at hdir
          cases hdir
      · rw [Table.get?_put_of_ne u _ hp]
        exact hup
    · exact hup

theorem mkdirs_root : t'.get? [] = t.get? [] := by
  induction d generalizing t' with
  | nil => rw [← Option.some.inj h]
  | cons n d ih =>
    obtain ⟨u, hu, ⟨-, rfl⟩ | ⟨-, rfl⟩⟩ := mkdirs_cons h
    · rw [Table.get?_put_of_ne u _ (List.cons_ne_nil n d).symm, ih hu]
    · exact ih hu

theorem file?_mkdirs (p : List ν) : t'.file? p = t.file? p := by
  rcases get?_mkdirs h p with hp | ⟨hnone, hdir, -⟩
  · exact file?_congr hp
  · rw [file?, file?, hnone, hdir]

/-- After `create_dir_all` no folder on the way is missing or a file. -/
theorem mkdirs_made {p : List ν} (hp : p <:+ d) (hne : p ≠ []) : t'.get? p = some .dir ∨ t'.get? p = some .link := by
  induction d generalizing t' with
  | nil => exact absurd (List.suffix_nil.mp hp) hne
  | cons n d ih =>
    obtain ⟨u, hu, hstep⟩ := mkdirs_cons h
    rcases List.suffix_cons_iff.mp hp with rfl | hp
    · rcases hstep with ⟨-, rfl⟩ | ⟨hmade, rfl⟩
      · exact .inl (Table.get?_put_self u _ _)
      · exact hmade
    have hlt : p ≠ n :: d := by
      rintro rfl
      exact absurd hp.length_le (by simp)
    rcases hstep with ⟨-, rfl⟩ | ⟨-, rfl⟩
    · rw [Table.get?_put_of_ne u _ hlt]
      exact ih hu hp
    · exact ih hu hp

end

end Tree

/-! ### Trees in which every entry lies in a folder -/

/-- Every entry at a path that counts lies in a folder. -/
def Rooted (P : List ν → Prop) (t : Tree ν φ) : Prop :=
  ∀ n d e, P (n :: d) → t.get? (n :: d) = some e → d = [] ∨ t.get? d = some .dir

section Rooted

variable {P : List ν → Prop} {t t' : Tree ν φ}

theorem Rooted.congr (h : Rooted P t) (hP : ∀ n d, P (n :: d) → P d)
    (hsame : ∀ p, P p → t'.get? p = t.get? p) : Rooted P t' := by
  intro n d e hp he
  rw [hsame _ hp] at he
  rw [hsame _ (hP n d hp)]
  exact h n d e hp he

/-- With no link on the way, `create_dir_all` leaves folders all along it. -/
theorem mkdirs_dirs {d : List ν} (hm : Tree.mkdirs d t = some t')
    (hlink : ∀ q, q <:+ d → t.get? q ≠ some .link) (hq : q <:+ d) (hne : q ≠ []) :
    t'.get? q = some .dir := by
  rcases Tree.mkdirs_made hm hq hne with hdir | hl
  · exact hdir
  · rcases Tree.get?_mkdirs hm q with hsame | ⟨-, hdir, -⟩
    · exact absurd (hsame.symm.trans hl) (hlink q hq)
    · exact hdir

variable (h : Rooted P t)

include h

theorem Rooted.mkdirs {d : List ν} (hm : Tree.mkdirs d t = some t')
    (hlink : ∀ q, q <:+ d → t.get? q ≠ some .link) : Rooted P t' := by
  intro n p e hp he
  by_cases hpn : p = []
  · exact .inl hpn
  refine .inr ?_
  rcases Tree.get?_mkdirs hm (n :: p) with hsame | ⟨-, -, hsuffix⟩
  · rw [hsame] at he
    rcases h n p e hp he with hnil | hdir
    · exact absurd hnil hpn
    · rcases Tree.get?_mkdirs hm p with hsame' | ⟨-, hdir', -⟩
      · rw [hsame', hdir]
      · exact hdir'
  · exact mkdirs_dirs hm hlink ((List.suffix_cons n p).trans hsuffix) hpn

theorem Rooted.put_file {n : ν} {d : List ν} (hd : d = [] ∨ t.get? d = some .dir)
    (hdir : t.get? (n :: d) ≠ some .dir) (f : φ) : Rooted P (t.put (n :: d) (.file f)) := by
  intro m p e hp he
  have hkeep : ∀ q, t.get? q = some .dir → (t.put (n :: d) (.file f)).get? q = some .dir := by
    intro q hq
    have hne : q ≠ n :: d := by
      rintro rfl
      exact hdir hq
    rw [Table.get?_put_of_ne _ _ hne, hq]
  by_cases hmp : m :: p = n :: d
  · obtain ⟨-, rfl⟩ := List.cons.inj hmp
    exact hd.imp id (hkeep p)
  · rw [Table.get?_put_of_ne _ _ hmp] at he
    exact (h m p e hp he).imp id (hkeep p)

theorem Rooted.erase (hq : t.get? q ≠ some .dir) : Rooted P (t.erase q) := by
  intro m p e hp he
  obtain ⟨-, he⟩ := Table.get?_erase_some.mp he
  refine (h m p e hp he).imp id fun hdir => ?_
  have hne : p ≠ q := by
    rintro rfl
    exact hq hdir
  rw [Table.get?_erase, if_neg hne, hdir]

end Rooted

/-! ### Walks -/

section Walk

variable (t : Tree ν φ) (enter take : List ν → Except ε Bool)

/-- Every result, in order; the first error ends it. -/
def collect {α β : Type} (f : α → Except ε (List β)) : List α → Except ε (List β)
  | [] => .ok []
  | a :: as => do
    let b ← f a
    let bs ← collect f as
    return b ++ bs

/-- The files in the folder `d` and below. `enter` reads a folder: an error ends the whole walk, `false`
leaves the folder out. `take` looks at an entry before it is used. -/
def walkRec : Nat → List ν → Except ε (List (List ν × φ))
  | 0, _ => .ok []
  | k + 1, d => do
    if ← enter d then
      collect (fun entry => do
        if ← take (entry.1 :: d) then
          match entry.2 with
          | .dir => walkRec k (entry.1 :: d)
          | .file f => return [(entry.1 :: d, f)]
          | .link => return []
        else return []) (t.children d)
    else return []

def walk : Except ε (List (List ν × φ)) := walkRec t enter take (t.depth + 1) []

/-- The walk comes to the folder and reads it. -/
def Opened : List ν → Prop
  | [] => enter [] = .ok true
  | n :: d =>
    Opened d ∧ take (n :: d) = .ok true ∧ t.get? (n :: d) = some .dir ∧ enter (n :: d) = .ok true

/-- The walk comes to the file. -/
def Seen (p : List ν) (f : φ) : Prop :=
  ∃ n d, p = n :: d ∧ Opened t enter take d ∧ take p = .ok true ∧ t.get? p = some (.file f)

variable {t enter take} {d : List ν}

omit [DecidableEq ν] in
theorem mem_collect {α : Type} {f : α → Except ε (List β)} {as : List α} {l : List β}
    (h : collect f as = .ok l) {b : β} : b ∈ l ↔ ∃ a ∈ as, ∃ bs, f a = .ok bs ∧ b ∈ bs := by
  induction as generalizing l with
  | nil =>
    obtain rfl := Except.ok.inj h
    simp
  | cons a as ih =>
    cases ha : f a with
    | error e => simp [collect, ha, bind, Except.bind] at h
    | ok bs =>
      cases has : collect f as with
      | error e => simp [collect, ha, has, bind, Except.bind] at h
      | ok l' =>
        simp only [collect, ha, has, bind, Except.bind, pure, Except.pure, Except.ok.injEq] at h
        rw [← h, List.mem_append, ih has]
        simp [ha]

omit [DecidableEq ν] in
theorem collect_ok {α : Type} {f : α → Except ε (List β)} {as : List α} {l : List β}
    (h : collect f as = .ok l) {a : α} (ha : a ∈ as) : ∃ bs, f a = .ok bs := by
  induction as generalizing l with
  | nil => cases ha
  | cons a' as ih =>
    cases ha' : f a' with
    | error e => simp [collect, ha', bind, Except.bind] at h
    | ok bs =>
      cases has : collect f as with
      | error e => simp [collect, ha', has, bind, Except.bind] at h
      | ok l' =>
        rcases List.mem_cons.mp ha with rfl | ha
        · exact ⟨bs, ha'⟩
        · exact ih has ha

omit [DecidableEq ν] in
theorem collect_isOk {α : Type} {f : α → Except ε (List β)} {as : List α}
    (h : ∀ a ∈ as, ∃ bs, f a = .ok bs) : ∃ l, collect f as = .ok l := by
  induction as with
  | nil => exact ⟨[], rfl⟩
  | cons a as ih =>
    obtain ⟨bs, hbs⟩ := h a List.mem_cons_self
    obtain ⟨l, hl⟩ := ih fun b hb => h b (List.mem_cons_of_mem a hb)
    exact ⟨bs ++ l, by simp [collect, hbs, hl, bind, Except.bind, pure, Except.pure]⟩

theorem Opened.of_suffix (h : Opened t enter take d) (hq : q <:+ d) :
    Opened t enter take q := by
  induction d with
  | nil => exact (List.suffix_nil.mp hq) ▸ h
  | cons n d ih =>
    rcases List.suffix_cons_iff.mp hq with rfl | hq
    · exact h
    · exact ih h.1 hq

/-- The walk comes to the folder. -/
def Came (t : Tree ν φ) (enter take : List ν → Except ε Bool) : List ν → Prop
  | [] => True
  | n :: d => Opened t enter take d ∧ take (n :: d) = .ok true ∧ t.get? (n :: d) = some .dir

theorem Came.opened {d : List ν} (h : Came t enter take d) (he : enter d = .ok true) :
    Opened t enter take d := by
  cases d with
  | nil => exact he
  | cons n d => exact ⟨h.1, h.2.1, h.2.2, he⟩

variable {l : List (List ν × φ)} {p : List ν}

/-- A step of the walk that succeeds: the folder is left out, or each of its entries is looked at. -/
theorem walkRec_succ {k : Nat} (h : walkRec t enter take (k + 1) d = .ok l) : enter d = .ok false ∧ l = [] ∨
      enter d = .ok true ∧ ∃ f : ν × Entry φ → Except ε (List (List ν × φ)), collect f (t.children d) = .ok l ∧
        ∀ n e bs, f (n, e) = .ok bs → take (n :: d) = .ok false ∧ bs = [] ∨ take (n :: d) = .ok true ∧
              (e = .dir ∧ walkRec t enter take k (n :: d) = .ok bs ∨
                (∃ g, e = .file g ∧ bs = [(n :: d, g)]) ∨ e = .link ∧ bs = []) := by
  rw [walkRec] at h
  cases he : enter d with
  | error e => simp [he, bind, Except.bind] at h
  | ok entered =>
    cases entered with
    | false =>
      simp only [he, bind, Except.bind, Bool.false_eq_true, if_false, pure, Except.pure, Except.ok.injEq] at h
      exact .inl ⟨rfl, h.symm⟩
    | true =>
      simp only [he, bind, Except.bind] at h
      refine .inr ⟨rfl, _, h, ?_⟩
      intro n e bs hbs
      cases ht : take (n :: d) with
      | error err => simp [ht] at hbs
      | ok took =>
        cases took with
        | false =>
          simp only [ht, Bool.false_eq_true, if_false, pure, Except.pure, Except.ok.injEq] at hbs
          exact .inl ⟨rfl, hbs.symm⟩
        | true =>
          simp only [ht, if_true] at hbs
          refine .inr ⟨rfl, ?_⟩
          cases e with
          | dir => exact .inl ⟨rfl, hbs⟩
          | file g =>
            simp only [pure, Except.pure, Except.ok.injEq] at hbs
            exact .inr (.inl ⟨g, rfl, hbs.symm⟩)
          | link =>
            simp only [pure, Except.pure, Except.ok.injEq] at hbs
            exact .inr (.inr ⟨rfl, hbs.symm⟩)

theorem seen_of_mem_walkRec {k : Nat} (h : walkRec t enter take k d = .ok l) (hd : Came t enter take d)
    (hp : (p, f) ∈ l) : Seen t enter take p f := by
  induction k generalizing d l with
  | zero =>
    obtain rfl := Except.ok.inj h
    cases hp
  | succ k ih =>
    rcases walkRec_succ h with ⟨-, rfl⟩ | ⟨he, g, hl, hg⟩
    · cases hp
    obtain ⟨⟨n, e⟩, hn, bs, hbs, hpb⟩ := (mem_collect hl).mp hp
    rw [Tree.mem_children] at hn
    rcases hg n e bs hbs with ⟨-, rfl⟩ | ⟨ht, ⟨rfl, hw⟩ | ⟨f', rfl, rfl⟩ | ⟨-, rfl⟩⟩
    · cases hpb
    · exact ih hw ⟨hd.opened he, ht, hn⟩ hpb
    · rw [List.mem_singleton] at hpb
      obtain ⟨rfl, rfl⟩ := hpb
      exact ⟨n, d, rfl, hd.opened he, ht, hn⟩
    · cases hpb

/-- The folder just below `d` on the way to `p`. -/
theorem exists_cons_suffix (h : d <:+ p) (hne : d ≠ p) : ∃ n, n :: d <:+ p := by
  induction p with
  | nil => exact absurd (List.suffix_nil.mp h) hne
  | cons m p ih =>
    rcases List.suffix_cons_iff.mp h with rfl | h
    · exact absurd rfl hne
    · by_cases hdp : d = p
      · exact ⟨m, hdp ▸ List.suffix_refl _⟩
      · obtain ⟨n, hn⟩ := ih h hdp
        exact ⟨n, hn.trans (List.suffix_cons m p)⟩

theorem mem_walkRec_of_seen {k : Nat} (h : walkRec t enter take k d = .ok l) (hs : Seen t enter take p f)
    (hd : d <:+ p) (hne : d ≠ p) (hk : p.length ≤ d.length + k) : (p, f) ∈ l := by
  obtain ⟨m, q, rfl, hq, htp, hp⟩ := hs
  induction k generalizing d l with
  | zero => exact absurd (hd.eq_of_length_le hk) hne
  | succ k ih =>
    obtain ⟨n, hn⟩ := exists_cons_suffix hd hne
    have hopen : Opened t enter take d := by
      rcases List.suffix_cons_iff.mp hd with hdp | hdq
      · exact absurd hdp hne
      · exact hq.of_suffix hdq
    have hent : enter d = .ok true := by
      cases d with
      | nil => exact hopen
      | cons _ _ => exact hopen.2.2.2
    rcases walkRec_succ h with ⟨he, -⟩ | ⟨-, g, hl, hg⟩
    · rw [he] at hent
      cases hent
    rw [mem_collect hl]
    by_cases hlast : n :: d = m :: q
    · -- the file itself stands in `d`
      obtain ⟨rfl, rfl⟩ := List.cons.inj hlast
      have hmem : (n, Entry.file f) ∈ t.children d := Tree.mem_children.mpr hp
      obtain ⟨bs, hbs⟩ := collect_ok hl hmem
      refine ⟨_, hmem, bs, hbs, ?_⟩
      rcases hg n _ bs hbs with ⟨ht, -⟩ | ⟨-, ⟨he, -⟩ | ⟨f', he, rfl⟩ | ⟨he, -⟩⟩
      · rw [htp] at ht
        cases ht
      · cases he
      · cases he
        exact List.mem_singleton.mpr rfl
      · cases he
    · -- the way leads on into the folder `n`
      have hn' : n :: d <:+ q := by
        rcases List.suffix_cons_iff.mp hn with hnp | hnq
        · exact absurd hnp hlast
        · exact hnq
      obtain ⟨-, ht, hdir, -⟩ := hq.of_suffix hn'
      have hmem : (n, Entry.dir) ∈ t.children d := Tree.mem_children.mpr hdir
      obtain ⟨bs, hbs⟩ := collect_ok hl hmem
      refine ⟨_, hmem, bs, hbs, ?_⟩
      rcases hg n _ bs hbs with ⟨ht', -⟩ | ⟨-, ⟨-, hw⟩ | ⟨f', he, -⟩ | ⟨he, -⟩⟩
      · rw [ht] at ht'
        cases ht'
      · refine ih hw hn hlast ?_
        rw [List.length_cons] at hk ⊢
        rw [List.length_cons]
        omega
      · cases he
      · cases he

/-- A walk that succeeds finds exactly the files it comes to. -/
theorem mem_walk (h : walk t enter take = .ok l) :
    (p, f) ∈ l ↔ Seen t enter take p f := by
  refine ⟨seen_of_mem_walkRec h trivial, fun hs => ?_⟩
  refine mem_walkRec_of_seen h hs (List.nil_suffix) ?_ ?_
  · obtain ⟨n, d, rfl, -⟩ := hs
    exact (List.cons_ne_nil n d).symm
  · obtain ⟨n, d, rfl, -, -, hf⟩ := hs
    have hlen := Tree.length_le_depth hf
    omega

/-- Without errors from `enter` and `take` there is none from the walk. -/
theorem walk_isOk (he : ∀ d, ∃ b, enter d = .ok b) (ht : ∀ p, ∃ b, take p = .ok b) :
    ∃ l, walk t enter take = .ok l := by
  suffices ∀ k d, ∃ l, walkRec t enter take k d = .ok l from this _ _
  intro k
  induction k with
  | zero => exact fun d => ⟨[], rfl⟩
  | succ k ih =>
    intro d
    obtain ⟨b, hb⟩ := he d
    cases b with
    | false => exact ⟨[], by simp [walkRec, hb, bind, Except.bind, pure, Except.pure]⟩
    | true =>
      simp only [walkRec, hb, bind, Except.bind]
      refine collect_isOk ?_
      rintro ⟨n, e⟩ -
      obtain ⟨took, htook⟩ := ht (n :: d)
      cases took with
      | false => exact ⟨[], by simp [htook, pure, Except.pure]⟩
      | true =>
        simp only [htook]
        cases e with
        | dir => exact ih _
        | file f | link => exact ⟨_, rfl⟩

/-- Every entry on the way to a file was looked at and taken. -/
theorem Seen.take_suffix (h : Seen t enter take p f) (hq : q <:+ p) (hne : q ≠ []) :
    take q = .ok true := by
  obtain ⟨n, d, rfl, hd, htake, -⟩ := h
  rcases List.suffix_cons_iff.mp hq with rfl | hq
  · exact htake
  · have hopen := hd.of_suffix hq
    cases q with
    | nil => exact absurd rfl hne
    | cons m q => exact hopen.2.1

theorem Seen.file? (h : Seen t enter take p f) : t.file? p = some f := by
  obtain ⟨n, d, -, -, -, hf⟩ := h
  exact Tree.file?_eq_some.mpr hf

/-- In a tree whose entries lie in folders a walk that reads every folder sees each file that it takes the
names of. -/
theorem seen_iff_of_rooted {P : List ν → Prop} (h : Rooted P t) (hP : ∀ n d, P (n :: d) → P d)
    (htake : ∀ p, P p ↔ ∀ q, q <:+ p → q ≠ [] → take q = .ok true) (henter : ∀ d, enter d = .ok true)
    : Seen t enter take p f ↔ p ≠ [] ∧ P p ∧ t.file? p = some f := by
  constructor
  · intro hs
    refine ⟨?_, (htake p).mpr fun q hq hne => hs.take_suffix hq hne, hs.file?⟩
    obtain ⟨n, d, rfl, -⟩ := hs
    exact List.cons_ne_nil n d
  · rintro ⟨hne, hp, hf⟩
    have hopen : ∀ d, P d → (d = [] ∨ t.get? d = some .dir) → Opened t enter take d := by
      intro d
      induction d with
      | nil => exact fun _ _ => henter []
      | cons n d ih =>
        intro hd hdir
        have hdir' := hdir.resolve_left (List.cons_ne_nil n d)
        refine ⟨ih (hP n d hd) (h n d .dir hd hdir'), ?_, hdir', henter _⟩
        exact (htake _).mp hd _ (List.suffix_refl _) (List.cons_ne_nil n d)
    cases p with
    | nil => exact absurd rfl hne
    | cons n d =>
      have hget := Tree.file?_eq_some.mp hf
      refine ⟨n, d, rfl, hopen d (hP n d hp) (h n d _ hp hget), ?_, hget⟩
      exact (htake _).mp hp _ (List.suffix_refl _) hne

/-- A walk that reads and takes at least as much finds at least as much. -/
theorem Seen.mono {enter' take' : List ν → Except ε Bool} (he : ∀ d, enter d = .ok true → enter' d = .ok true)
    (ht : ∀ p, take p = .ok true → take' p = .ok true)
    (h : Seen t enter take p f) : Seen t enter' take' p f := by
  have hopen : ∀ d, Opened t enter take d → Opened t enter' take' d := by
    intro d
    induction d with
    | nil => exact he []
    | cons n d ih => exact fun hd => ⟨ih hd.1, ht _ hd.2.1, hd.2.2.1, he _ hd.2.2.2⟩
  obtain ⟨n, d, hp, hd, htake, hf⟩ := h
  exact ⟨n, d, hp, hopen d hd, ht p htake, hf⟩

omit [DecidableEq ν] in
theorem collect_congr {α : Type} {f f' : α → Except ε (List β)} (hf : ∀ a bs, f a = .ok bs → f' a = .ok bs)
    {as : List α} {l : List β} (h : collect f as = .ok l) : collect f' as = .ok l := by
  induction as generalizing l with
  | nil => exact h
  | cons a as ih =>
    cases ha : f a with
    | error e => simp [collect, ha, bind, Except.bind] at h
    | ok bs =>
      cases has : collect f as with
      | error e => simp [collect, ha, has, bind, Except.bind] at h
      | ok l' =>
        simp only [collect, ha, has, bind] at h
        simp only [collect, hf a bs ha, ih has, bind]
        exact h

/-- Fewer errors from `enter` leave a walk that succeeded as it was. -/
theorem walk_of_fewer_errors {enter' : List ν → Except ε Bool}
    (he : ∀ d b, enter d = .ok b → enter' d = .ok b) {l : List (List ν × φ)}
    (h : walk t enter take = .ok l) : walk t enter' take = .ok l := by
  suffices ∀ k d l, walkRec t enter take k d = .ok l → walkRec t enter' take k d = .ok l from
    this _ _ _ h
  intro k
  induction k with
  | zero => exact fun d l hl => hl
  | succ k ih =>
    intro d l hl
    rw [walkRec] at hl ⊢
    cases hd : enter d with
    | error e => simp [hd, bind, Except.bind] at hl
    | ok b =>
      rw [he d b hd]
      rw [hd] at hl
      cases b with
      | false => exact hl
      | true =>
        refine collect_congr ?_ hl
        rintro ⟨n, e⟩ bs hbs
        cases ht : take (n :: d) with
        | error err => simp [ht, bind, Except.bind] at hbs
        | ok took =>
          simp only [ht, bind] at hbs ⊢
          cases took with
          | false => exact hbs
          | true =>
            cases e with
            | dir => exact ih _ _ hbs
            | file f | link => exact hbs

end Walk

/-! ### Free names -/

section Free

variable {α : Type} (taken : α → Bool) (name : Nat → α)

/-- The first of `name n`, `name (n + 1)`, … that is not taken, looking at `k + 1` of them at most. -/
def firstFree : Nat → Nat → α
  | 0, n => name n
  | k + 1, n => if taken (name n) then firstFree k (n + 1) else name n

variable {taken name}

theorem exists_firstFree (k n : Nat) : ∃ j, firstFree taken name k n = name j := by
  induction k generalizing n with
  | zero => exact ⟨n, rfl⟩
  | succ k ih =>
    rw [firstFree]
    by_cases h : taken (name n) = true
    · rw [if_pos h]
      exact ih (n + 1)
    · rw [if_neg h]
      exact ⟨n, rfl⟩

theorem taken_of_firstFree {k n : Nat} (h : taken (firstFree taken name k n) = true) {j : Nat}
    (hj : j ≤ k) : taken (name (n + j)) = true := by
  induction k generalizing n j with
  | zero => exact (Nat.le_zero.mp hj) ▸ h
  | succ k ih =>
    rw [firstFree] at h
    by_cases hn : taken (name n) = true
    · rw [if_pos hn] at h
      cases j with
      | zero => exact hn
      | succ j =>
        have hnext := ih h (Nat.le_of_succ_le_succ hj)
        rwa [Nat.add_assoc, Nat.add_comm 1 j] at hnext
    · rw [if_neg hn] at h
      exact absurd h hn

/-- Only finitely many names are taken, so looking at one more than that finds a free one. -/
theorem firstFree_free (hinj : Function.Injective name) {used : List α}
    (hused : ∀ a, taken a = true → a ∈ used) (n : Nat) :
    taken (firstFree taken name used.length n) = false := by
  by_contra h
  rw [Bool.not_eq_false] at h
  have hnodup : ((List.range (used.length + 1)).map fun j => name (n + j)).Nodup :=
    List.nodup_range.map fun i j hij => Nat.add_left_cancel (hinj hij)
  have hsub : ((List.range (used.length + 1)).map fun j => name (n + j)) ⊆ used := by
    intro a ha
    obtain ⟨j, hj, rfl⟩ := List.mem_map.mp ha
    exact hused _ (taken_of_firstFree h (Nat.lt_succ_iff.mp (List.mem_range.mp hj)))
  have hlen := (hnodup.subperm hsub).length_le
  rw [List.length_map, List.length_range] at hlen
  omega

end Free

end FileTree
