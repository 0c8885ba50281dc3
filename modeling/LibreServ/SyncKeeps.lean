import LibreServ.SyncListing

/-! What a pass loses. A pass destroys bytes in one place only: a download writes over the file at its
destination and over the one at its temporary name. Everything else moves a file to a free name (a
conflict copy, the local trash), to Luna's trash, or to a path of Luna's that was free when the upload
started. So a pass whose downloads land on nothing but older versions loses nothing, wherever it is
cut. -/

namespace LibreServ.Sync

open FileTree Sections LibreServ.Files List Table Tree Option

variable {re : FileEntry}

/-! ### Free names -/

theorem toDigits_injective : Function.Injective (Nat.toDigits 10) := by
  intro a b h
  have hparsed := congrArg (fun digits => Nat.ofDigitChars 10 digits 0) h
  rwa [Nat.ofDigitChars_toDigits (by decide) (by decide),
    Nat.ofDigitChars_toDigits (by decide) (by decide)] at hparsed

theorem numbered_injective {path : Path} (h : path ≠ []) : Function.Injective (numbered path) := by
  cases path with
  | nil => exact absurd rfl h
  | cons name dir =>
    intro a b hab
    have hname := (cons.inj hab).1
    have hdigits := append_cancel_right hname
    have hcons := append_cancel_left hdigits
    exact toDigits_injective (cons.inj hcons).2

theorem freeSibling_free {disk : Tree Text File} {path : Path} (h : path ≠ []) :
    disk.taken (freeSibling disk path) = false := by
  rw [freeSibling]
  by_cases ht : disk.taken path = true
  · rw [if_pos ht]
    refine firstFree_free (numbered_injective h) (fun p hp => ?_) 2
    rw [taken, Bool.or_eq_true] at hp
    rcases hp with hp | hp
    · exact of_decide_eq_true hp ▸ mem_cons_self
    · exact mem_cons_of_mem _ (Table.mem_keys.mpr (isSome_iff_exists.mp hp))
  · rw [if_neg ht]
    exact Bool.not_eq_true _ ▸ ht

theorem freeSibling_eq (disk : Tree Text File) (path : Path) :
    freeSibling disk path = path ∨ ∃ n, freeSibling disk path = numbered path n := by
  rw [freeSibling]
  by_cases ht : disk.taken path = true
  · rw [if_pos ht]
    exact .inr (exists_firstFree _ _)
  · rw [if_neg ht]
    exact .inl rfl

/-- The names `free_conflict_path` chooses from. -/
def ConflictName (path copy : Path) : Prop :=
  copy = conflictPath path ∨ ∃ n, copy = numbered (conflictPath path) n

/-- In the pair's own trash. -/
def InTrash (path : Path) : Prop := path.getLast? = some ".luna-desktop-trash".toList

theorem inTrash_freeTrashPath {rel : Path} (h : rel ≠ []) (disk : Tree Text File) (stamp : Nat) :
    InTrash (freeTrashPath disk (rel ++ trashDir stamp)) := by
  cases rel with
  | nil => exact absurd rfl h
  | cons name dir =>
    have hlast : InTrash (name :: dir ++ trashDir stamp) := by
      rw [InTrash, getLast?_append]
      rfl
    rcases freeSibling_eq disk (name :: dir ++ trashDir stamp) with heq | ⟨n, heq⟩
    · rw [freeTrashPath, heq]
      exact hlast
    · rw [freeTrashPath, heq]
      cases dir with
      | nil | cons m dir => exact hlast

theorem splitExtension_head? (name : Text) : (splitExtension name).1.head? = name.head? := by
  rw [splitExtension]
  split
  · rfl
  split
  · rfl
  next ext c stem hspan =>
    by_cases hstem : stem = []
    · rw [if_pos hstem]
    rw [if_neg hstem]
    have hname : name.reverse = ext ++ c :: stem := by
      rw [span_eq_takeWhile_dropWhile] at hspan
      rw [← (Prod.mk.inj hspan).1, ← (Prod.mk.inj hspan).2, takeWhile_append_dropWhile]
    have hname' : name = stem.reverse ++ (c :: ext.reverse) := by
      rw [← reverse_reverse name, hname]
      simp
    rw [hname', head?_append_of_ne_nil _ (by simpa using hstem)]

section

variable {failing : List (Path × String)} {remote : Tree Text File} {theirs : Table Path FileEntry}
  (h : walkRemoteFiles failing remote = .ok theirs) {rel : Path}
include h

theorem walkRemote_some (hre : theirs.get? rel = some re) :
    ∃ g, Seen remote (lists failing) takesRemote rel g ∧ re = ⟨g.size, g.mtime⟩ := by
  rw [walkRemoteFiles] at h
  cases hw : walk remote (lists failing) takesRemote with
  | error e => simp [hw, Except.map] at h
  | ok files =>
    rw [hw] at h
    obtain rfl := Except.ok.inj h
    obtain ⟨⟨p, g⟩, hmem, heq⟩ := mem_map.mp (mem_of_get?_ofList hre)
    obtain ⟨rfl, rfl⟩ := heq
    exact ⟨g, (mem_walk hw).mp hmem, rfl⟩

theorem walkRemote_ne_none
    {g : File} (hg : Seen remote (lists failing) takesRemote rel g) : theirs.get? rel ≠ none := by
  rw [walkRemoteFiles] at h
  cases hw : walk remote (lists failing) takesRemote with
  | error e => simp [hw, Except.map] at h
  | ok files =>
    rw [hw] at h
    obtain rfl := Except.ok.inj h
    exact get?_ofList_ne_none (mem_map.mpr ⟨(rel, g), (mem_walk hw).mpr hg, rfl⟩)

end

/-- No listed file lies in the pair's trash, and neither does its temporary file. -/
theorem not_inTrash_of_seen {failing : List (Path × String)} {remote : Tree Text File} {rel : Path}
    {g : File} (h : Seen remote (lists failing) takesRemote rel g) :
    ¬ InTrash rel ∧ ¬ InTrash (tempOf rel) := by
  have htakes : ∀ q, q <:+ rel → q ≠ [] → hidden (q.headD []) = false := by
    intro q hq hne
    have htake := h.take_suffix hq hne
    rw [takesRemote] at htake
    by_cases hhid : hidden (q.headD []) = true
    · rw [if_pos hhid] at htake
      cases htake
    · exact Bool.not_eq_true _ ▸ hhid
  have hlast : ¬ InTrash rel := by
    intro hin
    obtain ⟨front, hfront⟩ := getLast?_eq_some_iff.mp hin
    have hshown := htakes [".luna-desktop-trash".toList] ⟨front, hfront.symm⟩ (cons_ne_nil _ _)
    revert hshown
    decide
  refine ⟨hlast, ?_⟩
  obtain ⟨name, dir, rfl, -⟩ := h
  cases dir with
  | cons m dir => exact hlast
  | nil =>
    intro hin
    have hshown := htakes [name] (suffix_refl _) (cons_ne_nil _ _)
    have htemp : (splitExtension name).1 ++ '.' :: "luna-download-tmp".toList =
        ".luna-desktop-trash".toList := some.inj hin
    have hhead : name.head? = some '.' := by
      rw [← splitExtension_head?]
      cases hstem : (splitExtension name).1 with
      | nil =>
        rw [hstem] at htemp
        revert htemp
        decide
      | cons c stem =>
        rw [hstem] at htemp
        exact congrArg some (cons.inj htemp).1
    rw [hidden, headD_cons, hhead] at hshown
    cases hshown

/-! ### What is kept -/

/-- The bytes are in a local file (a conflict copy or a file in the pair's trash among them), in a file on
Luna or in Luna's trash. -/
def State.Has (t : State) (content : List UInt8) : Prop :=
  (∃ p f, t.disk.file? p = some f ∧ f.content = content) ∨
    (∃ p f, t.remote.file? p = some f ∧ f.content = content) ∨ ∃ f ∈ t.trash, f.content = content

theorem exists_file_iff {tree : Tree Text File} {content : List UInt8} :
    (∃ r ∈ tree.rows, ∃ f, r.2 = .file f ∧ f.content = content) ↔
      ∃ p f, tree.file? p = some f ∧ f.content = content := by
  constructor
  · rintro ⟨⟨p, e⟩, hr, f, rfl, hc⟩
    exact ⟨p, f, file?_eq_some.mpr (mem_rows.mp hr), hc⟩
  · rintro ⟨p, f, hf, hc⟩
    exact ⟨(p, .file f), mem_rows.mpr (file?_eq_some.mp hf), f, rfl, hc⟩

instance decidableExistsFile (content : List UInt8) (e : Entry File) :
    Decidable (∃ f, e = .file f ∧ f.content = content) :=
  match e with
  | .file f => decidable_of_iff (f.content = content) ⟨fun h => ⟨f, rfl, h⟩, fun ⟨_, he, h⟩ => by cases he; exact h⟩
  | .dir => .isFalse nofun
  | .link => .isFalse nofun

instance State.decidableHas (t : State) (content : List UInt8) : Decidable (t.Has content) :=
  decidable_of_iff
    ((∃ r ∈ t.disk.rows, ∃ f, r.2 = .file f ∧ f.content = content) ∨
      (∃ r ∈ t.remote.rows, ∃ f, r.2 = .file f ∧ f.content = content) ∨ ∃ f ∈ t.trash, f.content = content)
    (or_congr exists_file_iff (or_congr exists_file_iff Iff.rfl))

/-- The ledger shows the local file as an unchanged older version, and Luna's side was changed or
deleted. -/
def Superseded (s : State) (path : Path) (f : File) : Prop :=
  ∃ e, s.ledger.get? (relOf path) = some e ∧ f.size = e.size ∧ f.mtime = e.localMtime ∧
    ∀ g, s.remote.file? (relOf path) = some g → g.size ≠ e.size ∨ g.mtime ≠ e.remoteMtime

/-- Everything that was on either side in `s` is somewhere in `t`, older versions apart. -/
def Kept (s t : State) : Prop :=
  (∀ path f, s.disk.file? path = some f → ¬ Superseded s path f → t.Has f.content) ∧
    ∀ rel f, s.remote.file? rel = some f → t.Has f.content

def Arm.downloads : Arm → Bool
  | .conflict _ _ | .download _ => true
  | _ => false

/-- A download writes over nothing that it does not replace: at its path there is no file, or the one
the walk saw there and the ledger knows; at its temporary name there is none; and neither name is one
that a conflict copy may be given. -/
structure Spares (s : State) (unread : List Path) : Prop where
  dest : ∀ rel, (armIn s unread rel).downloads = true → ∀ f, s.disk.file? rel = some f →
    s.ledger.get? rel ≠ none ∧ ∃ m, (walkLocal unread s.disk).get? rel = some m ∧ m.path = rel
  temp : ∀ rel, (armIn s unread rel).downloads = true → tempOf rel ≠ rel → s.disk.file? (tempOf rel) = none
  copy : ∀ rel, (armIn s unread rel).downloads = true → ∀ rel' m o, armIn s unread rel' = .conflict m o →
    ¬ ConflictName m.path rel ∧ ¬ ConflictName m.path (tempOf rel)

/-- A place that no download writes to: that of a file worth keeping, a conflict name, the trash. -/
def Secure (s : State) (unread : List Path) (x : Path) : Prop :=
  (∃ f, s.disk.file? x = some f ∧ ¬ Superseded s x f) ∨ InTrash x ∨
    ∃ rel m o, armIn s unread rel = .conflict m o ∧ ConflictName m.path x

/-- What was in `s` stands in `t` at secure places, none of which is in `avoid`. -/
structure Safe (s : State) (unread : List Path) (avoid : Path → Prop) (t : State) : Prop where
  disk : ∀ p f, s.disk.file? p = some f → ¬ Superseded s p f →
    ∃ x g, t.disk.file? x = some g ∧ g.content = f.content ∧ Secure s unread x ∧ ¬ avoid x
  remote : ∀ p f, s.remote.file? p = some f → t.remote.file? p = some f ∨ f ∈ t.trash

/-- Nowhere. -/
def nowhere (_ : Path) : Prop := False

variable {s t u : State} {unread : List Path} {avoid avoid' : Path → Prop} {root rel : Path}

theorem Safe.start (s : State) (unread : List Path) : Safe s unread nowhere s where
  disk p f hf hnew := ⟨p, f, hf, rfl, .inl ⟨f, hf, hnew⟩, id⟩
  remote _ _ hf := .inl hf

section

variable (h : Safe s unread avoid t)
include h

theorem Safe.kept : Kept s t := by
  constructor
  · intro p f hf hnew
    obtain ⟨x, g, hg, hc, -⟩ := h.disk p f hf hnew
    exact .inl ⟨x, g, hg, hc⟩
  · intro p f hf
    rcases h.remote p f hf with ht | ht
    · exact .inr (.inl ⟨p, f, ht, rfl⟩)
    · exact .inr (.inr ⟨f, ht, rfl⟩)

/-- A step on the disk that takes every secure file to a secure place. -/
theorem Safe.move (hremote : u.remote = t.remote) (htrash : u.trash = t.trash)
    (hdisk : ∀ x g, Secure s unread x → ¬ avoid x → t.disk.file? x = some g →
      ∃ y, u.disk.file? y = some g ∧ Secure s unread y ∧ ¬ avoid' y) : Safe s unread avoid' u where
  disk p f hf hnew := by
    obtain ⟨x, g, hg, hc, hsec, hav⟩ := h.disk p f hf hnew
    obtain ⟨y, hy, hsec', hav'⟩ := hdisk x g hsec hav hg
    exact ⟨y, g, hy, hc, hsec', hav'⟩
  remote p f hf := by
    rw [hremote, htrash]
    exact h.remote p f hf

/-- A step that keeps every file of the disk. -/
theorem Safe.sameDisk (hdisk : ∀ x, u.disk.file? x = t.disk.file? x)
    (hremote : ∀ p f, t.remote.file? p = some f → u.remote.file? p = some f ∨ f ∈ u.trash)
    (htrash : ∀ f ∈ t.trash, f ∈ u.trash) : Safe s unread avoid u where
  disk p f hf hnew := by
    obtain ⟨x, g, hg, hrest⟩ := h.disk p f hf hnew
    exact ⟨x, g, (hdisk x).trans hg, hrest⟩
  remote p f hf := by
    rcases h.remote p f hf with ht | ht
    · exact hremote p f ht
    · exact .inr (htrash f ht)

/-- A file moves to a free secure place. -/
theorem Safe.rename {source target : Path} {f : File}
    (hsource : t.disk.file? source = some f) (hfree : t.disk.taken target = false)
    (hsec : Secure s unread target) : Safe s unread (· = source) (t.rename source target) := by
  have hne : source ≠ target := by
    rintro rfl
    rw [taken_of_file hsource] at hfree
    cases hfree
  refine h.move rfl rfl fun x g hx _ hg => ?_
  by_cases hxs : x = source
  · subst hxs
    rw [hsource] at hg
    cases hg
    exact ⟨target, file?_moveFile_target hsource target, hsec, fun heq => hne heq.symm⟩
  · have hxt : x ≠ target := by
      rintro rfl
      rw [not_file_of_not_taken hfree] at hg
      cases hg
    exact ⟨x, (file?_moveFile_of_ne hxs hxt).trans hg, hx, hxs⟩

theorem Safe.weaken : Safe s unread nowhere t where
  disk p f hf hnew := by
    obtain ⟨x, g, hg, hc, hsec, -⟩ := h.disk p f hf hnew
    exact ⟨x, g, hg, hc, hsec, id⟩
  remote := h.remote

end

/-! ### The arms -/

theorem armOf_conflict {m : Option LocalEntry} {o : Option FileEntry} {p : Option LedgerEntry}
    {mine : LocalEntry} {theirs : FileEntry} (h : armOf m o p = .conflict mine theirs) :
    m = some mine ∧ o = some theirs ∧ ∃ prev, p = some prev ∧ localChanged mine prev = true := by
  cases m <;> cases o <;> cases p <;> simp only [armOf] at h
  all_goals try cases h
  · split at h <;> [skip; split at h] <;> cases h
  · next mine' theirs' prev =>
      split at h
      · next hc =>
          cases h
          rw [Bool.and_eq_true] at hc
          exact ⟨rfl, rfl, prev, rfl, hc.1⟩
      · split at h <;> [skip; split at h] <;> cases h

theorem armOf_download {m : Option LocalEntry} {o : Option FileEntry} {p : Option LedgerEntry}
    {theirs : FileEntry} (h : armOf m o p = .download theirs) :
    o = some theirs ∧ ∀ mine prev, m = some mine → p = some prev →
      localChanged mine prev = false ∧ remoteChanged theirs prev = true := by
  cases m <;> cases o <;> cases p <;> simp only [armOf] at h
  all_goals try cases h
  · exact ⟨rfl, fun _ _ hm => by cases hm⟩
  · split at h <;> [skip; split at h] <;> cases h
    exact ⟨rfl, fun _ _ _ hp => by cases hp⟩
  · next mine' theirs' prev' =>
      split at h
      · cases h
      split at h
      · cases h
      next hl =>
        split at h
        · next hr =>
            cases h
            refine ⟨rfl, fun mine prev hm hp => ?_⟩
            cases hm
            cases hp
            exact ⟨Bool.not_eq_true _ ▸ hl, hr⟩
        · cases h

theorem armIn_of_downloads (h : (armIn s unread rel).downloads = true) :
    ∃ theirs, walkRemoteFiles [] s.remote = .ok theirs ∧
      armIn s unread rel = armAt (walkLocal unread s.disk) theirs s.ledger rel := by
  cases hw : walkRemoteFiles [] s.remote with
  | error e =>
    rw [armIn, hw] at h
    cases h
  | ok theirs => exact ⟨theirs, rfl, by rw [armIn, hw]⟩

/-- A secure place that a download could write to is that of a file of its own path. -/
theorem Spares.at_dest (h : Spares s unread) (hd : (armIn s unread rel).downloads = true) {x : Path}
    (hx : Secure s unread x) (hor : x = rel ∨ x = tempOf rel) :
    x = rel ∧ ∃ f, s.disk.file? rel = some f ∧ ¬ Superseded s rel f := by
  obtain ⟨theirs, htheirs, harm⟩ := armIn_of_downloads hd
  have hseen : ∃ re, theirs.get? rel = some re := by
    rw [harm, armAt] at hd
    cases hc : armOf ((walkLocal unread s.disk).get? rel) (theirs.get? rel) (s.ledger.get? rel) with
    | conflict mine re => exact ⟨re, (armOf_conflict hc).2.1⟩
    | download re => exact ⟨re, (armOf_download hc).1⟩
    | _ => simp [hc, Arm.downloads] at hd
  obtain ⟨re, hre⟩ := hseen
  obtain ⟨g, hg, -⟩ := walkRemote_some htheirs hre
  obtain ⟨hnot, hnot'⟩ := not_inTrash_of_seen hg
  rcases hx with ⟨f, hf, hnew⟩ | hin | ⟨rel', m, o, hconf, hname⟩
  · by_cases htemp : tempOf rel = rel
    · have hxr : x = rel := hor.elim id fun heq => heq.trans htemp
      exact ⟨hxr, f, hxr ▸ hf, hxr ▸ hnew⟩
    · rcases hor with rfl | rfl
      · exact ⟨rfl, f, hf, hnew⟩
      · rw [h.temp rel hd htemp] at hf
        cases hf
  · rcases hor with rfl | rfl
    · exact absurd hin hnot
    · exact absurd hin hnot'
  · obtain ⟨hc, hc'⟩ := h.copy rel hd rel' m o hconf
    rcases hor with rfl | rfl
    · exact absurd hname hc
    · exact absurd hname hc'

/-- A plain download only replaces an older version. -/
theorem Spares.download_apart (h : Spares s unread)
    (harm : armIn s unread rel = .download re) {x : Path} (hx : Secure s unread x) :
    x ≠ rel ∧ x ≠ tempOf rel := by
  rw [← not_or]
  intro hor
  have hd : (armIn s unread rel).downloads = true := by rw [harm]; rfl
  obtain ⟨-, f, hf, hnew⟩ := h.at_dest hd hx hor
  obtain ⟨hledger, m, hm, hpath⟩ := h.dest rel hd f hf
  obtain ⟨prev, hprev⟩ := Option.ne_none_iff_exists'.mp hledger
  obtain ⟨theirs, htheirs, harm'⟩ := armIn_of_downloads hd
  obtain ⟨hre, hchanged⟩ := armOf_download (harm'.symm.trans harm)
  obtain ⟨hsame, hother⟩ := hchanged m prev hm hprev
  obtain ⟨f', hseen, hrel, hsize, hmtime⟩ := walkLocal_some hm
  obtain ⟨g, hg, rfl⟩ := walkRemote_some htheirs hre
  have hff : f' = f := by
    have hfile := Seen.file? hseen
    rw [hpath, hf] at hfile
    exact (some.inj hfile).symm
  subst hff
  rw [hpath] at hrel
  refine hnew ⟨prev, hrel ▸ hprev, ?_, ?_, fun g' hg' => ?_⟩
  · simp only [localChanged, Bool.or_eq_false_iff, decide_eq_false_iff_not, not_not] at hsame
    exact hsize ▸ hsame.1
  · simp only [localChanged, Bool.or_eq_false_iff, decide_eq_false_iff_not, not_not] at hsame
    exact hmtime ▸ hsame.2
  · rw [← hrel, hg.file?] at hg'
    cases hg'
    simpa [remoteChanged] using hother

/-- A download after the local file was set aside replaces nothing that is worth keeping. -/
theorem Spares.conflict_apart (h : Spares s unread) {m : LocalEntry} {o : FileEntry}
    (harm : armIn s unread rel = .conflict m o) {x : Path} (hx : Secure s unread x) (hne : x ≠ m.path) :
    x ≠ rel ∧ x ≠ tempOf rel := by
  rw [← not_or]
  intro hor
  have hd : (armIn s unread rel).downloads = true := by rw [harm]; rfl
  obtain ⟨hxr, f, hf, -⟩ := h.at_dest hd hx hor
  obtain ⟨-, m', hm', hpath⟩ := h.dest rel hd f hf
  obtain ⟨theirs, -, harm'⟩ := armIn_of_downloads hd
  obtain ⟨hm, -⟩ := armOf_conflict (harm'.symm.trans harm)
  rw [hm] at hm'
  cases hm'
  exact hne (hxr.trans hpath.symm)

/-! ### The sections -/

variable {env : Label → Input → State → Prop}

/-- Run from `t`, the job stays safe wherever it is cut, and ends so. -/
def StaysSafe (s : State) (unread : List Path) (env : Label → Input → State → Prop)
    (avoid : Path → Prop) {α : Type} (job : Job α) (t : State) : Prop :=
  job.Holds env (fun _ u => Kept s u) t fun _ u => Safe s unread avoid u

theorem StaysSafe.bind {α β : Type} {job : Job α} {next : α → Job β} (h : StaysSafe s unread env avoid job t)
    (hnext : ∀ a u, Safe s unread avoid u → StaysSafe s unread env avoid' (next a) u)
    (hsub : ∀ u, Safe s unread avoid u → Safe s unread avoid' u) :
    StaysSafe s unread env avoid' (job >>= next) t := by
  refine Prog.holds_bind.mpr (Prog.Holds.mono h ?_)
  rintro (e | a) u hu
  · exact hsub u hu
  · exact hnext a u hu

theorem downloadFile_safe {dest : Path} (h : Safe s unread avoid t)
    (hapart : ∀ x, Secure s unread x → ¬ avoid x → x ≠ dest ∧ x ≠ tempOf dest) :
    StaysSafe s unread env avoid (downloadFile rel dest) t := by
  refine Prog.holds_tryAct.mpr ⟨h.kept, fun i _ => ?_⟩
  rcases download_cases rel dest i t with
    ⟨e, heq⟩ | ⟨disk, hdisk, ⟨e, heq⟩ | ⟨-, ⟨e, part, heq⟩ | ⟨f, -, -, heq⟩⟩⟩
  · rw [heq]
    exact h
  · rw [heq]
    refine h.move rfl rfl fun x g hx hav hg => ⟨x, ?_, hx, hav⟩
    exact (file?_mkdirs hdisk x).trans hg
  · rw [heq]
    refine h.move rfl rfl fun x g hx hav hg => ⟨x, ?_, hx, hav⟩
    exact (file?_put_of_ne _ (hapart x hx hav).2).trans ((file?_mkdirs hdisk x).trans hg)
  · rw [heq]
    refine h.move rfl rfl fun x g hx hav hg => ⟨x, ?_, hx, hav⟩
    have herase : file? (disk.erase (tempOf dest)) x = disk.file? x :=
      file?_erase_of_ne (hapart x hx hav).2
    exact (file?_put_of_ne _ (hapart x hx hav).1).trans
      (herase.trans ((file?_mkdirs hdisk x).trans hg))

/-- The place of an upload stays free while its folder is made. -/
theorem not_taken_mkdirs {place : Path} {remote remote' : Tree Text File}
    (hm : mkdirs place.tail remote = some remote') (h : remote.taken place = false) :
    remote'.taken place = false := by
  have hnone := get?_of_not_taken h
  simp only [taken, Bool.or_eq_false_iff, decide_eq_false_iff_not] at h ⊢
  refine ⟨h.1, ?_⟩
  rcases get?_mkdirs hm place with hsame | ⟨-, -, hsuffix⟩
  · rw [hsame, hnone]
    rfl
  · cases place with
    | nil => exact absurd rfl h.1
    | cons name dir => exact absurd hsuffix.length_le (by simp)

theorem uploadFile_safe (path target : Path) (overwrite : Bool) (h : Safe s unread avoid t) :
    StaysSafe s unread env avoid (uploadFile root path target overwrite) t := by
  have hstart : (Prog.tryAct (.startUpload target) (start root path target) : Job Unit).Holds env
      (fun _ u => Kept s u) t fun r u =>
        match r with
        | .ok _ => Safe s unread avoid u ∧ ∀ place, lunaPath root target = some place →
            u.remote.taken place = false
        | .error _ => Safe s unread avoid u := by
    refine Prog.holds_tryAct.mpr ⟨h.kept, fun i _ => ?_⟩
    rcases start_cases root target path i t with ⟨e, heq⟩ | ⟨place, remote, hplace, hfree, hm, heq⟩
    · rw [heq]
      exact h
    rw [heq]
    refine ⟨h.sameDisk (fun _ => rfl) (fun p f hf => .inl ?_) fun f hf => hf, fun place' hplace' => ?_⟩
    · exact (file?_mkdirs hm p).trans hf
    · rw [hplace] at hplace'
      cases hplace'
      exact not_taken_mkdirs hm hfree
  refine Prog.Holds.bind (fun _ u => Safe s unread avoid u ∧ ∀ place, lunaPath root target = some place →
    u.remote.taken place = false) (hstart.mono ?_) fun _ u hu => ?_
  · rintro (e | a) u hu
    · exact hu
    · exact hu
  · refine Prog.holds_tryAct.mpr ⟨hu.1.kept, fun i _ => ?_⟩
    rcases finish_cases root target path i u overwrite with ⟨e, heq⟩ | ⟨f, place, r, -, hplace, -, heq⟩
    · rw [heq]
      exact hu.1
    rw [heq]
    refine hu.1.sameDisk (fun _ => rfl) (fun p g hg => .inl ?_) fun g hg => hg
    have hne : p ≠ place := by
      rintro rfl
      rw [not_file_of_not_taken (hu.2 p hplace)] at hg
      cases hg
    exact (file?_put_of_ne _ hne).trans hg

/-- Only the ledger changes. -/
theorem Safe.of_ledger (h : Safe s unread avoid t) (ledger : Table Path LedgerEntry) :
    Safe s unread avoid { t with ledger := ledger } := ⟨h.disk, h.remote⟩

theorem record_safe (entry : LedgerEntry) (h : Safe s unread avoid t) :
    StaysSafe s unread env avoid (record rel entry) t := ⟨h.kept, fun _ _ => h.of_ledger _⟩

theorem forget_safe (h : Safe s unread avoid t) : StaysSafe s unread env avoid (forget rel) t :=
  ⟨h.kept, fun _ _ => h.of_ledger _⟩

theorem stat_safe (dest : Path) (h : Safe s unread avoid t) :
    StaysSafe s unread env avoid (stat rel dest) t := ⟨h.kept, fun _ _ => h⟩

theorem localPath_ok {dest : Path} (h : localPath rel = .ok dest) : dest = rel := by
  rw [localPath] at h
  split at h
  · exact (Except.ok.inj h).symm
  · cases h

theorem fetch_safe (hs : Spares s unread) (harm : armIn s unread rel = .download re)
    (h : Safe s unread nowhere t) : StaysSafe s unread env nowhere (fetch rel re) t := by
  rw [fetch]
  cases hdest : localPath rel with
  | error e => exact h
  | ok dest =>
    obtain rfl := localPath_ok hdest
    rw [Prog.ofExcept, Prog.done_bind]
    refine StaysSafe.bind (downloadFile_safe h fun x hx _ => hs.download_apart harm hx) ?_ fun _ => id
    intro _ u hu
    refine StaysSafe.bind (stat_safe dest hu) ?_ fun _ => id
    intro f v hv
    cases f with
    | none => exact hv
    | some f => exact record_safe _ hv

/-- Both versions are kept: the local one leaves its path before the other is written there, and goes back
when that fails. -/
theorem keepBoth_safe (hs : Spares s unread) {m : LocalEntry} {o : FileEntry}
    (harm : armIn s unread rel = .conflict m o) (h : Safe s unread nowhere t) :
    StaysSafe s unread env nowhere (keepBoth root rel m o) t := by
  have hd : (armIn s unread rel).downloads = true := by rw [harm]; rfl
  obtain ⟨theirs, htheirs, harm'⟩ := armIn_of_downloads hd
  obtain ⟨hm, -, prev, hprev, hchanged⟩ := armOf_conflict (harm'.symm.trans harm)
  obtain ⟨f, hseen, hrel, hsize, hmtime⟩ := walkLocal_some hm
  have hpath : m.path ≠ [] := by
    obtain ⟨name, dir, hp, -⟩ := hseen
    exact hp ▸ cons_ne_nil name dir
  have hback : Secure s unread m.path := by
    refine .inl ⟨f, hseen.file?, ?_⟩
    rintro ⟨e, he, hsz, hmt, -⟩
    rw [← hrel, hprev] at he
    cases he
    simp [localChanged, hsize, hmtime, hsz, hmt] at hchanged
  have haside : (setAside rel m.path).Holds env (fun _ u => Kept s u) t fun r u =>
      match r with
      | .ok copy => Safe s unread (· = m.path) u
      | .error _ => Safe s unread nowhere u := by
    refine Prog.holds_tryAct.mpr ⟨h.kept, fun i _ => ?_⟩
    rcases moveAside_cases m.path i t with ⟨e, heq⟩ | ⟨g, hg, heq⟩
    · rw [heq]
      exact h
    rw [heq]
    have hconf : conflictPath m.path ≠ [] := by
      cases hp : m.path with
      | nil => exact absurd hp hpath
      | cons name dir => exact cons_ne_nil _ _
    refine h.rename hg (freeSibling_free hconf) (.inr (.inr ⟨rel, m, o, harm, ?_⟩))
    exact freeSibling_eq t.disk (conflictPath m.path)
  refine Prog.Holds.bind (fun _ u => Safe s unread (· = m.path) u) (haside.mono ?_) fun copy u hu => ?_
  · rintro (e | a) u hu
    · exact hu
    · exact hu
  cases hdest : localPath rel with
  | error e => exact hu.weaken
  | ok dest =>
    obtain rfl := localPath_ok hdest
    rw [Prog.ofExcept, Prog.done_bind]
    have hget : StaysSafe s unread env (· = m.path) (downloadFile dest dest) u :=
      downloadFile_safe hu fun x hx hne => hs.conflict_apart harm hx hne
    refine Prog.Holds.bind (fun _ v => Safe s unread (· = m.path) v) ?_ fun got v hv => ?_
    · exact Prog.holds_attempt.mpr hget
    cases got with
    | error e =>
      -- what stands at the path now is at most a broken download
      refine ⟨hv.kept, fun i _ => ?_⟩
      refine hv.move (by dsimp only; split <;> rfl) (by dsimp only; split <;> rfl) ?_
      intro x g hx hne hg
      dsimp only
      split
      · by_cases hxc : x = copy
        · subst hxc
          exact ⟨m.path, file?_moveFile_target hg m.path, hback, id⟩
        · exact ⟨x, (file?_moveFile_of_ne hxc hne).trans hg, hx, id⟩
      · exact ⟨x, hg, hx, id⟩
    | ok _ =>
      refine StaysSafe.bind (stat_safe dest hv.weaken) ?_ fun _ => id
      intro g w hw
      refine StaysSafe.bind (record_safe _ hw) ?_ fun _ => id
      intro _ w' hw'
      refine Prog.Holds.bind (fun _ v => Safe s unread nowhere v) ?_ fun _ v hv => hv
      exact Prog.holds_attempt.mpr (uploadFile_safe copy _ false hw')

theorem deletePath_safe (h : Safe s unread avoid t) : StaysSafe s unread env avoid (deletePath rel) t := by
  refine Prog.holds_tryAct.mpr ⟨h.kept, fun i _ => ?_⟩
  rcases toTrash_cases rel i t with ⟨e, heq⟩ | ⟨f, r, hf, heq⟩
  · rw [heq]
    exact h
  rw [heq]
  refine h.sameDisk (fun _ => rfl) (fun p g hg => ?_) fun g hg => mem_cons_of_mem f hg
  by_cases hp : p = rel
  · subst hp
    rw [hf] at hg
    cases hg
    exact .inr mem_cons_self
  · exact .inl ((file?_erase_of_ne hp).trans hg)

theorem syncPath_safe (hs : Spares s unread) {arm : Arm} (harm : armIn s unread rel = arm)
    (h : Safe s unread nowhere t) : StaysSafe s unread env nowhere (syncPath root rel arm) t := by
  cases arm with
  | conflict m o => exact keepBoth_safe hs harm h
  | upload m overwrite =>
    exact StaysSafe.bind (uploadFile_safe m.path rel overwrite h) (fun _ u hu => record_safe _ hu) fun _ => id
  | download re => exact fetch_safe hs harm h
  | adopt m o => exact record_safe _ h
  | quarantine m =>
    refine Prog.Holds.bind (fun _ u => Safe s unread nowhere u) ⟨h.kept, fun i _ => ?_⟩ fun moved u hu => ?_
    · dsimp only
      split
      · next u hu =>
          obtain ⟨disk, f, hvalid, hdisk, hf, rfl⟩ := quarantineLocal_ok hu
          have hmade : Safe s unread nowhere { t with disk := disk } :=
            h.sameDisk (file?_mkdirs hdisk) (fun _ _ => .inl) fun _ => id
          have hf' : disk.file? m.path = some f := (file?_mkdirs hdisk m.path).trans hf
          refine (hmade.rename hf' (freeSibling_free ?_) ?_).weaken
          · exact append_ne_nil_of_left_ne_nil hvalid _
          · exact .inr (.inl (inTrash_freeTrashPath hvalid disk i.stamp))
      · exact h
    · cases moved with
      | true => exact forget_safe hu
      | false => exact hu
  | delete =>
    exact StaysSafe.bind (deletePath_safe h) (fun _ u hu => forget_safe hu) fun _ => id
  | forget => exact forget_safe h
  | nothing => exact h

/-- One path after the other; no path changes the ledger's entry for another. -/
theorem syncPaths_safe (hs : Spares s unread) {theirs : Table Path FileEntry}
    (htheirs : walkRemoteFiles [] s.remote = .ok theirs) {rels : List Path} (hnodup : rels.Nodup)
    (h : Safe s unread nowhere t) (hledger : ∀ q ∈ rels, t.ledger.get? q = s.ledger.get? q) :
    StaysSafe s unread env nowhere (syncPaths root (walkLocal unread s.disk) theirs rels) t := by
  induction rels generalizing t with
  | nil => exact h
  | cons rel rest ih =>
    obtain ⟨hrel, hrest⟩ := nodup_cons.mp hnodup
    refine Prog.Holds.bind (fun _ u => u = t) ⟨h.kept, fun _ _ => rfl⟩ ?_
    rintro stopped u rfl
    cases stopped with
    | true => exact h
    | false =>
      refine Prog.Holds.bind (fun prev v => v = u ∧ prev = s.ledger.get? rel)
        ⟨h.kept, fun _ _ => ⟨rfl, hledger rel mem_cons_self⟩⟩ ?_
      rintro prev v ⟨rfl, rfl⟩
      have harm : armIn s unread rel =
          armOf ((walkLocal unread s.disk).get? rel) (theirs.get? rel) (s.ledger.get? rel) := by
        rw [armIn, htheirs]
        rfl
      rw [← harm]
      refine Prog.Holds.bind (fun _ w => Safe s unread nowhere w ∧
        ∀ q, q ≠ rel → w.ledger.get? q = v.ledger.get? q) ?_ ?_
      · refine (Prog.Holds.with_post (syncPath_safe hs rfl h) (syncPath_holds_ledger _ v)).mono ?_
        rintro (e | a) w hw
        · exact hw.1
        · exact hw
      · rintro _ w ⟨hw, hkeeps⟩
        refine ih hrest hw fun q hq => ?_
        have hne : q ≠ rel := fun hqr => hrel (hqr ▸ hq)
        exact (hkeeps q hne).trans (hledger q (mem_cons_of_mem rel hq))

/-- A pass whose downloads land only on older versions loses no content of either side, in any order of
the paths, however it ends and wherever it is cut. -/
theorem sync_keeps_contents (root : Path) {s : State} {unread : List Path} (hs : Spares s unread)
    {order : List Path → List Path} (horder : ∀ l, (order l).Perm l) :
    (syncOnce root order).Holds (Reading unread) (fun _ t => Kept s t) s fun _ t => Kept s t := by
  have h := Safe.start s unread
  refine Prog.Holds.bind (fun theirs t => t = s ∧ walkRemoteFiles [] s.remote = .ok theirs)
    (Prog.holds_tryAct.mpr ⟨h.kept, fun i _ => ?_⟩) ?_
  · cases hw : walkRemoteFiles i.failing s.remote with
    | error e => exact h.kept
    | ok theirs => exact ⟨rfl, walkRemoteFiles_of_failing hw⟩
  rintro theirs t ⟨rfl, htheirs⟩
  refine Prog.Holds.bind (fun mine u => u = t ∧ mine = walkLocal unread t.disk)
    ⟨h.kept, fun i hi => ⟨rfl, congrArg (fun paths => walkLocal paths t.disk) (hi rfl)⟩⟩ ?_
  rintro mine u ⟨rfl, rfl⟩
  refine Prog.Holds.bind (fun _ v => v = u) ⟨h.kept, fun _ _ => rfl⟩ ?_
  rintro ledger v rfl
  have hnodup := (horder (allPaths (walkLocal unread v.disk) theirs ledger)).nodup_iff.mpr (nodup_dedup _)
  exact (syncPaths_safe hs htheirs hnodup h fun _ _ => rfl).mono fun _ _ ht => ht.kept

/-- A note in the pair's folder on both sides. -/
def oneNote (mine theirs : File) (ledger : Table Path LedgerEntry) : State where
  disk := Table.empty.put ["note.txt".toList] (.file mine)
  remote := Table.empty.put ["note.txt".toList] (.file theirs)
  trash := []
  ledger := ledger

/-- The note was changed on both sides since the last pass. -/
def bothChanged : State :=
  oneNote ⟨[1], 50⟩ ⟨[2, 3], 60⟩ (Table.empty.put ["note.txt".toList] ⟨0, 10, 10⟩)

theorem bothChanged_arm {rel : Path} (h : armIn bothChanged [] rel ≠ .nothing) :
    rel = ["note.txt".toList] := by
  by_contra hne
  have hmine : (walkLocal [] bothChanged.disk).keys = [["note.txt".toList]] := by decide +kernel
  have htheirs : (walkRemoteFiles [] bothChanged.remote).toOption.map Table.keys =
      some [["note.txt".toList]] := by decide +kernel
  refine h ?_
  rw [armIn]
  cases hw : walkRemoteFiles [] bothChanged.remote with
  | error e => rfl
  | ok theirs =>
    rw [hw] at htheirs
    have hm : (walkLocal [] bothChanged.disk).get? rel = none := by
      refine get?_eq_none fun hmem => hne ?_
      rwa [hmine, mem_singleton] at hmem
    have ho : theirs.get? rel = none := by
      refine get?_eq_none fun hmem => hne ?_
      rwa [show theirs.keys = _ from some.inj htheirs, mem_singleton] at hmem
    have hp : bothChanged.ledger.get? rel = none := get?_put_of_ne _ _ hne
    simp only [armAt, hm, ho, hp, armOf]

theorem bothChanged_spares : Spares bothChanged [] := by
  have hnote : ∀ rel, (armIn bothChanged [] rel).downloads = true → rel = ["note.txt".toList] := by
    intro rel hd
    refine bothChanged_arm fun hnothing => ?_
    rw [hnothing] at hd
    cases hd
  refine ⟨fun rel hd f hf => ?_, fun rel hd _ => ?_, fun rel hd rel' m o hconf => ?_⟩
  · obtain rfl := hnote rel hd
    exact ⟨by decide +kernel, ⟨["note.txt".toList], 1, 50⟩, by decide +kernel, rfl⟩
  · obtain rfl := hnote rel hd
    decide +kernel
  · obtain rfl := hnote rel hd
    obtain rfl := bothChanged_arm (by rw [hconf]; exact nofun)
    have harm : armIn bothChanged [] ["note.txt".toList] =
        .conflict ⟨["note.txt".toList], 1, 50⟩ ⟨2, 60⟩ := by decide +kernel
    cases hconf
    -- a conflict name goes on with a blank where the two names have a dot
    have hblank : ∀ copy, ConflictName ["note.txt".toList] copy → (copy.headD []).take 5 = "note ".toList := by
      rintro copy (rfl | ⟨n, rfl⟩)
      · decide
      · rfl
    refine ⟨fun hname => ?_, fun hname => ?_⟩
    · exact absurd (hblank _ hname) (by decide)
    · exact absurd (hblank _ hname) (by decide)

theorem bothChanged_kept : Spares bothChanged [] ∧
    (syncOnce [] id).Holds (Reading []) (fun _ t => Kept bothChanged t) bothChanged
      fun _ t => Kept bothChanged t :=
  ⟨bothChanged_spares, sync_keeps_contents [] bothChanged_spares fun l => List.Perm.refl l⟩

/-- The note that is on both sides without a ledger entry, newer on Luna. -/
def notInLedger : State := oneNote ⟨[1], 50⟩ ⟨[2, 3], 60⟩ Table.empty

/-- The pass writes Luna's note over the local one, and nothing keeps its bytes. -/
theorem notInLedger_loses_note : ¬ (syncOnce [] id).Holds (Reading []) (fun _ t => Kept notInLedger t) notInLedger
      fun _ t => Kept notInLedger t := by
  intro h
  have hkept := h.of_traced (Prog.traced_under (i := {}) _ _ fun _ _ _ => rfl)
  have hhas := hkept.1 ["note.txt".toList] ⟨[1], 50⟩ (by decide +kernel) (by rintro ⟨e, he, -⟩; cases he)
  revert hhas
  decide +kernel

end LibreServ.Sync
