import LibreServ.RestoreApp

/-! A restore is all or nothing, whatever fails, exactly if the backed-up folder is the first one in the restored tree that
is called like the target's, and no file whose id is rewritten holds the old one. -/

namespace LibreServ.RestoreApp

open List Option

variable {content : Dir}

/-- `rewriteInstanceID` names this file. -/
def isNamed : Path → Bool
  | [name] => name = ".sol.yaml" || name = "docker-compose.yml"
  | [dir, name] => dir = "app-compose" && isYaml name
  | _ => false

/-- The id is rewritten. -/
def Rewrites (oldID newID : String) : Prop := oldID ≠ "" ∧ newID ≠ "" ∧ oldID ≠ newID

instance (oldID newID : String) : Decidable (Rewrites oldID newID) := inferInstanceAs (Decidable (_ ∧ _))

/-- A file of the snapshot, as it should be in the target's folder. -/
def rewritten (oldID newID : String) (r : Path × Content) : Path × Content :=
  if Rewrites oldID newID ∧ isNamed r.1 = true then (r.1, Replace.replaceAll oldID.toList newID.toList r.2) else r

/-- The backed-up folder is called like the target's, none of the folders above it is, and the target's path does not lead
into it. -/
structure Located (root : Path) (appPath : AppPath) (snapshot : Snapshot) : Prop where
  here : endsLike root appPath snapshot.appPath.names = true
  above : ∀ path tail, snapshot.appPath.names = path ++ tail → tail ≠ [] → endsLike root appPath path = false
  below : ∀ tail, tail ≠ [] → appPath.names = snapshot.appPath.names ++ tail → snapshot.content.sub tail = none

variable {faults : Faults} {root path : Path} {appPath : AppPath} {oldID newID : String} {dir dir' : Dir}

/-! ### Moving -/

theorem moveEntries_some (h : moveEntries faults path dir = some dir') : dir' = dir := by
  induction dir generalizing path dir' with
  | nil => exact (some.inj h).symm
  | file name content rest ih =>
    rw [moveEntries] at h
    split at h
    · cases h
    · obtain ⟨rest', hrest, rfl⟩ := map_eq_some_iff.mp h
      rw [ih hrest]
  | folder name inside rest ihin ih =>
    obtain ⟨inside', hinside, h⟩ := bind_eq_some_iff.mp h
    obtain ⟨rest', hrest, rfl⟩ := map_eq_some_iff.mp h
    rw [ih hrest]
    split at hinside
    · rw [← some.inj hinside]
    · split at hinside
      · cases hinside
      · rw [ihin hinside]

/-- What is moved arrives as it was. -/
theorem secureMove_some (h : secureMove faults dir = some dir') : dir' = dir := by
  induction dir generalizing dir' with
  | nil => exact (some.inj h).symm
  | file name content rest ih =>
    rw [secureMove] at h
    split at h
    · cases h
    · obtain ⟨rest', hrest, rfl⟩ := map_eq_some_iff.mp h
      rw [ih hrest]
  | folder name inside rest _ ih =>
    obtain ⟨inside', hinside, h⟩ := bind_eq_some_iff.mp h
    obtain ⟨rest', hrest, rfl⟩ := map_eq_some_iff.mp h
    rw [ih hrest]
    split at hinside
    · rw [← some.inj hinside]
    · rw [moveDirContents] at hinside
      split at hinside
      · cases hinside
      · rw [moveEntries_some hinside]

theorem secureMove_of_renames (hrename : ∀ path, faults.fails (.rename path) = false) (dir : Dir) :
    secureMove faults dir = some dir := by
  induction dir with
  | nil => rfl
  | file name content rest ih =>
    rw [secureMove, if_neg (by simp [hrename]), ih]
    rfl
  | folder name inside rest _ ih =>
    rw [secureMove, ih]
    simp [hrename]

/-! ### Rewriting -/

/-- No file that is rewritten holds the old id. -/
def Unnamed (oldID newID : String) (dir : Dir) : Prop :=
  Rewrites oldID newID → ∀ r ∈ dir.files, isNamed r.1 = true → ¬ oldID.toList <:+: r.2

theorem rewriteFile_eq {content : Content} (h : ¬ oldID.toList <:+: content) :
    (rewriteFileInstanceID faults oldID newID path content).2 = content := by
  rw [rewriteFileInstanceID]
  split
  · rfl
  · rfl

theorem rewriteNamed_some {target : String} (hnamed : isNamed [target] = true)
    (hfree : ∀ r ∈ dir.files, isNamed r.1 = true → ¬ oldID.toList <:+: r.2)
    (h : rewriteNamed faults oldID newID target dir = some dir') : dir' = dir := by
  induction dir generalizing dir' with
  | nil => exact (some.inj h).symm
  | file name content rest ih =>
    rw [rewriteNamed] at h
    split at h
    · next heq =>
        have hcontent : (rewriteFileInstanceID faults oldID newID [name] content).2 = content :=
          rewriteFile_eq (hfree ([name], content) mem_cons_self (heq.1 ▸ hnamed))
        cases hfile : rewriteFileInstanceID faults oldID newID [name] content with
        | mk ok content' =>
          rw [hfile] at h hcontent
          cases ok with
          | true => rw [← some.inj h, show content' = content from hcontent]
          | false => cases h
    · obtain ⟨rest', hrest, rfl⟩ := map_eq_some_iff.mp h
      rw [ih (fun r hr => hfree r (mem_cons_of_mem _ hr)) hrest]
  | folder name inside rest _ ih =>
    rw [rewriteNamed] at h
    split at h
    · cases h
    · obtain ⟨rest', hrest, rfl⟩ := map_eq_some_iff.mp h
      rw [ih (fun r hr => hfree r (mem_append_right _ hr)) hrest]

theorem rewriteYaml_eq (hfree : ∀ r ∈ dir.files, isNamed ("app-compose" :: r.1) = true → ¬ oldID.toList <:+: r.2) :
    rewriteYaml faults oldID newID dir = dir := by
  induction dir with
  | nil => rfl
  | file name content rest ih =>
    rw [rewriteYaml, ih fun r hr => hfree r (mem_cons_of_mem _ hr)]
    split
    · next hyaml => rw [rewriteFile_eq (hfree ([name], content) mem_cons_self (by simp [isNamed, hyaml]))]
    · rfl
  | folder name inside rest _ ih => rw [rewriteYaml, ih fun r hr => hfree r (mem_append_right _ hr)]

theorem rewriteCompose_eq (hfree : ∀ r ∈ dir.files, isNamed r.1 = true → ¬ oldID.toList <:+: r.2) :
    rewriteCompose faults oldID newID dir = dir := by
  induction dir with
  | nil => rfl
  | file name content rest ih => rw [rewriteCompose, ih fun r hr => hfree r (mem_cons_of_mem _ hr)]
  | folder name inside rest _ ih =>
    rw [rewriteCompose]
    split
    · next heq =>
        rw [rewriteYaml_eq fun r hr hnamed => ?_]
        refine hfree (name :: r.1, r.2) (mem_append_left _ (mem_map_of_mem hr)) ?_
        rw [heq.1]
        exact hnamed
    · rw [ih fun r hr => hfree r (mem_append_right _ hr)]

theorem rewriteInstanceID_some (hfree : Unnamed oldID newID dir) (h : rewriteInstanceID faults oldID newID dir = some dir') :
    dir' = dir := by
  rw [rewriteInstanceID] at h
  split at h
  · exact (some.inj h).symm
  next hids =>
    rw [not_or, not_or] at hids
    have hfree := hfree hids
    obtain ⟨mid', hmid', rfl⟩ := map_eq_some_iff.mp h
    obtain ⟨mid, hmid, hcompose⟩ := bind_eq_some_iff.mp hmid'
    obtain rfl : mid = dir := rewriteNamed_some rfl hfree hmid
    obtain rfl : mid' = mid := rewriteNamed_some rfl hfree hcompose
    exact rewriteCompose_eq hfree

/-- Where nothing is found to be rewritten, nothing is. -/
theorem rewriteInstanceID_of_skip (hstat : ∀ name, faults.fails (.stat name) = true)
    (hcompose : faults.fails .readCompose = true) (dir : Dir) : rewriteInstanceID faults oldID newID dir = some dir := by
  have hnamed : ∀ (target : String) (dir : Dir), rewriteNamed faults oldID newID target dir = some dir := by
    intro target dir
    induction dir with
    | nil => rfl
    | file name content rest ih | folder name inside rest _ ih =>
      rw [rewriteNamed, if_neg (by simp [hstat]), ih]
      rfl
  have hyaml : ∀ dir : Dir, rewriteCompose faults oldID newID dir = dir := by
    intro dir
    induction dir with
    | nil => rfl
    | file name content rest ih => rw [rewriteCompose, ih]
    | folder name inside rest _ ih => rw [rewriteCompose, if_neg (by simp [hcompose]), ih]
  rw [rewriteInstanceID]
  split
  · rfl
  · rw [hnamed, bind_some, hnamed, map_some, hyaml]

/-- The files stay as they are where none of them has anything to rewrite, and only there. -/
theorem rewritten_eq (hfree : Unnamed oldID newID dir) {r : Path × Content} (hr : r ∈ dir.files) :
    rewritten oldID newID r = r := by
  rw [rewritten]
  split
  · next h => rw [Replace.replaceAll_eq_self (hfree h.1 r hr h.2)]
  · rfl

theorem map_rewritten (hfree : Unnamed oldID newID dir) : dir.files.map (rewritten oldID newID) = dir.files := by
  conv => rhs; rw [← List.map_id dir.files]
  exact map_congr_left fun r hr => rewritten_eq hfree hr

theorem rewritten_fst (r : Path × Content) : (rewritten oldID newID r).1 = r.1 := by
  rw [rewritten]
  split
  · rfl
  · rfl

/-! ### Finding the folder -/

/-- This folder does not lie where the other one does: the files of one of them are, further down, files of the other. -/
def Apart (found content : Dir) : Prop :=
  ∃ tail, tail ≠ [] ∧ ((∀ r ∈ content.files, (tail ++ r.1, r.2) ∈ found.files) ∨
    ∀ r ∈ found.files, (tail ++ r.1, r.2) ∈ content.files)

theorem apart_under {tail : Path} (htail : tail ≠ []) (content : Dir) : Apart (content.under tail) content := by
  refine ⟨tail, htail, .inl fun r hr => ?_⟩
  rw [Folder.files_under]
  exact mem_map.mpr ⟨r, hr, rfl⟩

theorem apart_sub {found : Dir} {tail : Path} (htail : tail ≠ []) (h : content.sub tail = some found) :
    Apart found content :=
  ⟨tail, htail, .inr fun _ hr => Folder.mem_files_of_sub h hr⟩

/-- Folders that lie apart do not have the same paths, unless there is no file. -/
theorem Apart.not_whole {found : Dir} (h : Apart found content) (hfiles : content.files ≠ []) :
    ¬ ∀ r, r ∈ found.files ↔ r ∈ content.files.map (rewritten oldID newID) := by
  intro hwhole
  obtain ⟨tail, htail, hbelow⟩ := h
  have hto : ∀ r ∈ content.files, ∃ r' ∈ found.files, r'.1 = r.1 := by
    intro r hr
    exact ⟨_, (hwhole _).mpr (mem_map_of_mem hr), rewritten_fst r⟩
  have hback : ∀ r ∈ found.files, ∃ r' ∈ content.files, r'.1 = r.1 := by
    intro r hr
    obtain ⟨r', hr', heq⟩ := mem_map.mp ((hwhole r).mp hr)
    refine ⟨r', hr', ?_⟩
    rw [← heq]
    exact (rewritten_fst r').symm
  refine Folder.not_below_itself htail hfiles fun r hr => ?_
  rcases hbelow with hbelow | hbelow
  · exact hback _ (hbelow r hr)
  · obtain ⟨r', hr', heq⟩ := hto r hr
    refine ⟨_, hbelow r' hr', ?_⟩
    rw [heq]

/-- The walk finds a folder below. -/
theorem walkIn_below {found : Dir} {failed : Bool} (h : walkIn faults root appPath path dir = (some found, failed)) :
    ∃ tail, tail ≠ [] ∧ ∀ r ∈ found.files, (tail ++ r.1, r.2) ∈ dir.files := by
  suffices hin : ∃ name tail, ∀ r ∈ found.files, (name :: tail ++ r.1, r.2) ∈ dir.files by
    obtain ⟨name, tail, hin⟩ := hin
    exact ⟨name :: tail, cons_ne_nil _ _, hin⟩
  induction dir generalizing path failed with
  | nil => cases h
  | file name content rest ih =>
    have hrest : walkIn faults root appPath path rest = (some found, (walkIn faults root appPath path rest).2) := by
      exact Prod.ext (Prod.mk.inj h).1 rfl
    obtain ⟨name', tail, hin⟩ := ih hrest
    exact ⟨name', tail, fun r hr => mem_cons_of_mem _ (hin r hr)⟩
  | folder name inside rest ihin ih =>
    rw [walkIn] at h
    split at h
    · next here hhere =>
        obtain rfl : here = found := some.inj (Prod.mk.inj h).1
        split at hhere
        · cases hhere
        split at hhere
        · obtain rfl : inside = here := some.inj hhere
          exact ⟨name, [], fun r hr => mem_append_left _ (mem_map_of_mem hr)⟩
        · obtain ⟨name', tail, hin⟩ := ihin (Prod.ext hhere rfl)
          refine ⟨name, name' :: tail, fun r hr => mem_append_left _ ?_⟩
          exact mem_map.mpr ⟨_, hin r hr, rfl⟩
    · have hrest : walkIn faults root appPath path rest = (some found, (walkIn faults root appPath path rest).2) :=
        Prod.ext (Prod.mk.inj h).1 rfl
      obtain ⟨name', tail, hin⟩ := ih hrest
      exact ⟨name', tail, fun r hr => mem_append_right _ (hin r hr)⟩

theorem walk_under_cons {name : String} {names : Path} (hfails : faults.fails (.walk path) = false)
    (hlike : endsLike root appPath path = false) :
    walk faults root appPath path (content.under (name :: names)) =
      walk faults root appPath (path ++ [name]) (content.under names) := by
  rw [walk, if_neg (by simp [hfails]), if_neg (by simp [hlike]), Folder.under]
  cases hfound : walk faults root appPath (path ++ [name]) (content.under names) with
  | mk found failed =>
    rw [walk] at hfound
    simp only [walkIn, hfound]
    cases found with
    | some found => rfl
    | none =>
      rw [Bool.or_false]

/-- The walk finds the folder itself, if it is the first one called like the target's, or one that lies apart. -/
theorem walk_found {names : Path} {found : Dir} {failed : Bool}
    (h : walk faults root appPath path (content.under names) = (some found, failed)) :
    (found = content ∧ endsLike root appPath (path ++ names) = true ∧
      ∀ path' tail, names = path' ++ tail → tail ≠ [] → endsLike root appPath (path ++ path') = false) ∨
      Apart found content := by
  induction names generalizing path with
  | nil =>
    rw [walk] at h
    split at h
    · cases h
    split at h
    · next hlike =>
        refine .inl ⟨(some.inj (Prod.mk.inj h).1).symm, by rw [append_nil]; exact hlike,
          fun path' tail heq htail => ?_⟩
        exact absurd (append_eq_nil_iff.mp heq.symm).2 htail
    · obtain ⟨tail, htail, hbelow⟩ := walkIn_below h
      exact .inr ⟨tail, htail, .inr hbelow⟩
  | cons name names ih =>
    cases hfails : faults.fails (.walk path) with
    | true =>
      rw [walk, if_pos hfails] at h
      cases h
    | false =>
      cases hlike : endsLike root appPath path with
      | true =>
        rw [walk, if_neg (by simp [hfails]), if_pos hlike] at h
        obtain rfl : content.under (name :: names) = found := some.inj (Prod.mk.inj h).1
        exact .inr (apart_under (cons_ne_nil _ _) content)
      | false =>
        rw [walk_under_cons hfails hlike] at h
        refine (ih h).imp_left fun ⟨hfound, hhere, habove⟩ => ⟨hfound, ?_, fun path' tail heq htail => ?_⟩
        · rw [append_cons]
          exact hhere
        · cases path' with
          | nil =>
            rw [append_nil]
            exact hlike
          | cons name' path' =>
            obtain ⟨rfl, hnames⟩ := cons.inj heq
            rw [append_cons]
            exact habove path' tail hnames htail

theorem walk_of_first {names : Path} (hhere : endsLike root appPath (path ++ names) = true)
    (habove : ∀ path' tail, names = path' ++ tail → tail ≠ [] → endsLike root appPath (path ++ path') = false) :
    walk faults root appPath path (content.under names) = (none, true) ∨
      walk faults root appPath path (content.under names) = (some content, false) := by
  induction names generalizing path with
  | nil =>
    rw [append_nil] at hhere
    rw [walk]
    split
    · exact .inl rfl
    · exact .inr rfl
  | cons name names ih =>
    cases hfails : faults.fails (.walk path) with
    | true =>
      left
      rw [walk, if_pos hfails]
    | false =>
      have hlike : endsLike root appPath path = false := by
        have hnil := habove [] (name :: names) rfl (cons_ne_nil _ _)
        rwa [append_nil] at hnil
      rw [walk_under_cons hfails hlike]
      apply ih
      · rw [← append_cons]
        exact hhere
      · intro path' tail heq htail
        rw [← append_cons]
        refine habove (name :: path') tail ?_ htail
        rw [heq]
        rfl

section

variable (hfails : ∀ path, faults.fails (.walk path) = false)

include hfails

theorem walkIn_failed (path : Path) (dir : Dir) :
    (walkIn faults root appPath path dir).2 = false := by
  induction dir generalizing path with
  | nil => rfl
  | file name content rest ih =>
    show (faults.fails (.walk (path ++ [name])) || _) = false
    rw [hfails, ih]
    rfl
  | folder name inside rest ihin ih =>
    rw [walkIn, if_neg (by simp [hfails])]
    split
    · split
      · rfl
      · exact ihin _
    · rw [ih, Bool.or_false]
      split
      · rfl
      · exact ihin _

theorem walk_failed (path : Path) (dir : Dir) :
    (walk faults root appPath path dir).2 = false := by
  rw [walk, if_neg (by simp [hfails])]
  split
  · rfl
  · exact walkIn_failed hfails path dir

end

/-- The target's own folder is called like itself. -/
theorem endsLike_self (root : Path) {appPath : AppPath} (hparent : appPath.parent ≠ []) :
    endsLike root appPath appPath.names = true := by
  have hnames : root ++ appPath.names = (root ++ appPath.parent) ++ [appPath.base] := (append_assoc ..).symm
  have hlast : (root ++ appPath.parent).getLast? = appPath.parent.getLast? := by
    rw [getLast?_append]
    cases hp : appPath.parent.getLast? with
    | none => exact absurd (getLast?_eq_none_iff.mp hp) hparent
    | some name => rfl
  simp [endsLike, hnames, hlast, hparent]

theorem Located.parent {snapshot : Snapshot} (h : Located root appPath snapshot) : appPath.parent ≠ [] := by
  have hhere := h.here
  simp only [endsLike, Bool.and_eq_true] at hhere
  intro heq
  simp [heq] at hhere

/-- A located folder is found, or there is an error. -/
theorem Located.found {snapshot : Snapshot} (h : Located root appPath snapshot) :
    findRestoredAppDir faults root appPath (snapshot.content.under snapshot.appPath.names) = .failed ∨
      findRestoredAppDir faults root appPath (snapshot.content.under snapshot.appPath.names) = .at snapshot.content := by
  have hwalk : ∀ tmp, tmp = snapshot.content.under snapshot.appPath.names → walked faults root appPath tmp = .failed ∨
      walked faults root appPath tmp = .at snapshot.content := by
    rintro tmp rfl
    have hfirst : walk faults root appPath [] (snapshot.content.under snapshot.appPath.names) = (none, true) ∨
        walk faults root appPath [] (snapshot.content.under snapshot.appPath.names) = (some snapshot.content, false) :=
      walk_of_first h.here h.above
    rw [walked]
    rcases hfirst with heq | heq
    · rw [heq]
      exact .inl rfl
    · rw [heq]
      exact .inr rfl
  rw [findRestoredAppDir]
  split
  · exact hwalk _ rfl
  cases hsub : (snapshot.content.under snapshot.appPath.names).sub appPath.names with
  | none => exact hwalk _ rfl
  | some dir =>
    right
    show Found.at dir = Found.at snapshot.content
    congr 1
    rcases Folder.sub_under hsub with ⟨tail, heq, rfl⟩ | ⟨tail, heq, htail⟩
    · cases tail with
      | nil => rfl
      | cons name tail =>
        have hself := endsLike_self root h.parent
        rw [h.above _ _ heq (cons_ne_nil _ _)] at hself
        cases hself
    · cases tail with
      | nil => exact (some.inj htail).symm
      | cons name tail =>
        rw [h.below _ (cons_ne_nil _ _) heq] at htail
        cases htail

/-- What is found has no file that is not in the restored tree. -/
theorem found_files {tmp : Dir} (h : findRestoredAppDir faults root appPath tmp = .at dir) (hfiles : tmp.files = []) :
    dir.files = [] := by
  have hnone : ∀ {tail : Path}, ¬ ∃ r ∈ dir.files, (tail ++ r.1, r.2) ∈ tmp.files := by
    rintro tail ⟨r, -, hr⟩
    rw [hfiles] at hr
    cases hr
  have hwalk : walked faults root appPath tmp = .at dir → dir.files = [] := by
    intro hat
    rw [walked] at hat
    cases hw : walk faults root appPath [] tmp with
    | mk found failed =>
      rw [hw] at hat
      cases found with
      | none => cases failed <;> cases hat
      | some found =>
        cases hat
        rw [walk] at hw
        split at hw
        · cases hw
        split at hw
        · obtain rfl : tmp = dir := some.inj (Prod.mk.inj hw).1
          exact hfiles
        · obtain ⟨tail, -, hbelow⟩ := walkIn_below hw
          by_contra hne
          obtain ⟨r, hr⟩ := exists_mem_of_ne_nil _ hne
          exact hnone ⟨r, hr, hbelow r hr⟩
  rw [findRestoredAppDir] at h
  split at h
  · exact hwalk h
  split at h
  · next found hsub =>
      cases h
      by_contra hne
      obtain ⟨r, hr⟩ := exists_mem_of_ne_nil _ hne
      exact hnone ⟨r, hr, Folder.mem_files_of_sub hsub hr⟩
  · exact hwalk h

namespace Server

variable {s : Server} {backup : Backup} {target : String}

section

variable (h : s.rebuild faults backup target appPath = some dir')
include h

theorem rebuild_some : ∃ dir, (findRestoredAppDir faults s.root appPath s.tmp = .at dir ∨
      (findRestoredAppDir faults s.root appPath s.tmp = .nowhere ∧ dir = s.tmp)) ∧
      rewriteInstanceID faults backup.appID target dir = some dir' := by
  rw [rebuild] at h
  split at h
  · cases h
  obtain ⟨dir, hmoved, hrewrite⟩ := bind_eq_some_iff.mp h
  refine ⟨dir, ?_, hrewrite⟩
  split at hmoved
  · cases hmoved
  · next hfound => exact .inr ⟨hfound, secureMove_some hmoved⟩
  · next found hfound =>
      split at hmoved
      · cases hmoved
      · rw [secureMove_some hmoved]
        exact .inl hfound

theorem rebuild_files (hfiles : s.snapshot.content.files = []) : dir'.files = [] := by
  obtain ⟨dir, hfound, hrewrite⟩ := rebuild_some h
  have htmp : s.tmp.files = [] := by rw [tmp, Folder.files_under, hfiles, map_nil]
  have hdir : dir.files = [] := by
    rcases hfound with hfound | ⟨-, rfl⟩
    · exact found_files hfound htmp
    · exact htmp
  have hfree : Unnamed backup.appID target dir := by
    intro _ r hr
    rw [hdir] at hr
    cases hr
  rw [rewriteInstanceID_some hfree hrewrite]
  exact hdir

theorem rebuild_located (hlocated : Located s.root appPath s.snapshot)
    (hfree : Unnamed backup.appID target s.snapshot.content) : dir' = s.snapshot.content := by
  obtain ⟨dir, hfound, hrewrite⟩ := rebuild_some h
  have hdir : dir = s.snapshot.content := by
    have hat : findRestoredAppDir faults s.root appPath s.tmp = .failed ∨
        findRestoredAppDir faults s.root appPath s.tmp = .at s.snapshot.content := hlocated.found
    rcases hat with hat | hat
    · rcases hfound with hfound | ⟨hfound, -⟩
      · cases hat.symm.trans hfound
      · cases hat.symm.trans hfound
    · rcases hfound with hfound | ⟨hfound, -⟩
      · cases hat.symm.trans hfound
        rfl
      · cases hat.symm.trans hfound
  subst hdir
  exact rewriteInstanceID_some hfree hrewrite

end

/-- If the call returns no error, the target's folder holds the files of the snapshot, with the ids replaced; if it does
and the rollback succeeds, what it held before. -/
def AllOrNothing (s : Server) (backupID targetAppID : String) (before : Option Dir) : Outcome → Prop
  | .restored app => ∀ request ∈ s.request backupID targetAppID, ∀ r,
      r ∈ app.files ↔ r ∈ s.snapshot.content.files.map (rewritten request.1.appID request.2.1)
  | .error app => app = before
  | .lost => True

/-- Nothing fails but looking up the app's folder below the temporary one, if so, and finding files to rewrite. -/
def unlucky (lookup : Bool) : Faults where
  fails
    | .lstatApp => !lookup
    | .stat _ | .readCompose => true
    | _ => false
  torn _ := none

theorem rebuild_unlucky {lookup : Bool} : s.rebuild (unlucky lookup) backup target appPath =
      match findRestoredAppDir (unlucky lookup) s.root appPath s.tmp with
      | .failed => none
      | .nowhere => some s.tmp
      | .at dir => some dir := by
  have hmove : ∀ dir, secureMove (unlucky lookup) dir = some dir := secureMove_of_renames fun _ => rfl
  have hrewrite : ∀ dir, rewriteInstanceID (unlucky lookup) backup.appID target dir = some dir :=
    rewriteInstanceID_of_skip (fun _ => rfl) rfl
  rw [rebuild]
  cases findRestoredAppDir (unlucky lookup) s.root appPath s.tmp with
  | failed => rfl
  | nowhere => exact (congrArg (Option.bind · _) (hmove s.tmp)).trans (hrewrite _)
  | «at» dir => exact (congrArg (Option.bind · _) (hmove dir)).trans (hrewrite _)

/-- Where every call is all or nothing, the folder is located and has nothing to rewrite. -/
theorem located_of_whole (hfiles : s.snapshot.content.files ≠ [])
    (h : ∀ lookup dir, s.rebuild (unlucky lookup) backup target appPath = some dir →
      ∀ r, r ∈ dir.files ↔ r ∈ s.snapshot.content.files.map (rewritten backup.appID target)) :
    Located s.root appPath s.snapshot ∧ Unnamed backup.appID target s.snapshot.content := by
  have hnames : s.snapshot.appPath.names ≠ [] := append_ne_nil_of_right_ne_nil _ (cons_ne_nil _ _)
  have hapart : ∀ lookup dir, s.rebuild (unlucky lookup) backup target appPath = some dir →
      ¬ Apart dir s.snapshot.content := fun lookup dir hdir happ => happ.not_whole hfiles (h lookup dir hdir)
  have hwalked : findRestoredAppDir (unlucky false) s.root appPath s.tmp = walked (unlucky false) s.root appPath s.tmp := rfl
  have hrebuild : s.rebuild (unlucky false) backup target appPath = some s.snapshot.content ∧
      endsLike s.root appPath s.snapshot.appPath.names = true ∧
      ∀ path tail, s.snapshot.appPath.names = path ++ tail → tail ≠ [] → endsLike s.root appPath path = false := by
    cases hw : walk (unlucky false) s.root appPath [] s.tmp with
    | mk found failed =>
      have hno : ∀ path, (unlucky false).fails (.walk path) = false := fun _ => rfl
      have hfailed : (walk (unlucky false) s.root appPath [] s.tmp).2 = false := walk_failed hno [] s.tmp
      rw [hw] at hfailed
      obtain rfl : failed = false := hfailed
      cases found with
      | none =>
        have hnowhere : s.rebuild (unlucky false) backup target appPath = some s.tmp := by
          rw [rebuild_unlucky, hwalked, walked, hw]
        exact absurd (apart_under hnames _) (hapart false _ hnowhere)
      | some found =>
        have hat : s.rebuild (unlucky false) backup target appPath = some found := by
          rw [rebuild_unlucky, hwalked, walked, hw]
        rcases walk_found hw with ⟨rfl, hhere, habove⟩ | happ
        · exact ⟨hat, hhere, habove⟩
        · exact absurd happ (hapart false _ hat)
  obtain ⟨hrebuild, hhere, habove⟩ := hrebuild
  refine ⟨⟨hhere, habove, fun tail htail heq => ?_⟩, fun hrewrites r hr hnamed hin => ?_⟩
  · by_contra hne
    obtain ⟨dir, hdir⟩ := ne_none_iff_exists'.mp hne
    have hsub : s.tmp.sub appPath.names = some dir := by
      rw [heq, tmp, Folder.sub_append_under]
      exact hdir
    have hat : s.rebuild (unlucky true) backup target appPath = some dir := by
      rw [rebuild_unlucky, findRestoredAppDir, if_neg (by simp [unlucky]), hsub]
    exact hapart true dir hat (apart_sub htail hdir)
  · obtain ⟨r', hr', heq⟩ := mem_map.mp ((h false _ hrebuild r).mp hr)
    have hpath : r'.1 = r.1 := by
      rw [← heq]
      exact (rewritten_fst r').symm
    have hsame : r' = r := by
      refine Prod.ext hpath (s.snapshot.proper.content_unique ?_ hr)
      rw [← hpath]
      exact hr'
    subst hsame
    rw [rewritten, if_pos ⟨hrewrites, hnamed⟩] at heq
    have hold : backup.appID.toList ≠ [] := fun hnil => hrewrites.1 (String.toList_eq_nil_iff.mp hnil)
    have hids : backup.appID.toList ≠ target.toList := fun hids => hrewrites.2.2 (String.toList_inj.mp hids)
    exact Replace.replaceAll_ne hold hids hin (congrArg Prod.snd heq)

/-- Whatever fails, a call is all or nothing; exactly if it is refused, or there is no folder to restore to, or the snapshot
has no file, or its folder is located and nothing has to be rewritten. -/
theorem restore_whole_iff (s : Server) (backupID targetAppID : String) (stopBeforeRestore : Bool) (before : Option Dir) :
    (∀ faults, s.AllOrNothing backupID targetAppID before
      (s.restoreApp faults backupID targetAppID stopBeforeRestore before)) ↔
      ∀ backup target row, s.request backupID targetAppID = some (backup, target, row) → before.isSome = true →
        s.snapshot.content.files = [] ∨
          (Located s.root row.path s.snapshot ∧ Unnamed backup.appID target s.snapshot.content) := by
  constructor
  · intro h backup target row hrequest hbefore
    obtain ⟨old, rfl⟩ := isSome_iff_exists.mp hbefore
    by_cases hfiles : s.snapshot.content.files = []
    · exact .inl hfiles
    refine .inr (located_of_whole hfiles fun lookup dir hdir => ?_)
    have hrun : s.restoreApp (unlucky lookup) backupID targetAppID stopBeforeRestore (some old) = .restored dir := by
      simp only [restoreApp, hrequest, restoreWithRestic, hdir]
      simp [unlucky]
    have hwhole := h (unlucky lookup)
    rw [hrun] at hwhole
    exact hwhole _ hrequest
  · intro h faults
    rw [restoreApp]
    cases hrequest : s.request backupID targetAppID with
    | none => rfl
    | some request =>
      obtain ⟨backup, target, row⟩ := request
      dsimp only
      split
      · rfl
      unfold restoreWithRestic
      split
      · rfl
      cases before with
      | none => rfl
      | some old =>
        cases hnew : s.rebuild faults backup target row.path with
        | none =>
          dsimp only
          split
          · trivial
          · rfl
        | some new =>
          intro request hrequest' r
          obtain rfl : (backup, target, row) = request := some.inj (hrequest.symm.trans hrequest')
          rcases h backup target row hrequest rfl with hfiles | ⟨hlocated, hfree⟩
          · rw [rebuild_files hnew hfiles, hfiles]
            exact Iff.rfl
          · rw [rebuild_located hnew hlocated hfree, map_rewritten hfree]

/-- An app with one file, and a second app next to it. -/
def twoApps : Server where
  useRestic := true
  backups id := if id = "backup" then some ⟨"a1", true, "snap"⟩ else none
  apps id := if id = "a1" then some ⟨⟨["srv", "apps"], "a1"⟩, false⟩
    else if id = "b2" then some ⟨⟨["srv", "apps"], "b2"⟩, false⟩ else none
  root := ["srv", "backups", "full-restore", "backup"]
  snapshot := ⟨⟨["srv", "apps"], "a1"⟩, .file "data.txt" ['x'] .nil, ⟨List.not_mem_nil, trivial⟩⟩

/-- Nothing fails, and the file ends up in the folders of the old path. -/
theorem other_app_not_whole : ¬ twoApps.AllOrNothing "backup" "b2" (some .nil)
    (twoApps.restoreApp ⟨fun _ => false, fun _ => none⟩ "backup" "b2" false (some .nil)) := by
  have hrun : twoApps.restoreApp ⟨fun _ => false, fun _ => none⟩ "backup" "b2" false (some .nil) =
      .restored (.folder "srv" (.folder "apps" (.folder "a1" (.file "data.txt" ['x'] .nil) .nil) .nil) .nil) := by
    decide +kernel
  intro h
  have hfile := (h _ rfl (["srv", "apps", "a1", "data.txt"], ['x'])).mp (by decide)
  revert hfile
  decide

end Server

end LibreServ.RestoreApp
