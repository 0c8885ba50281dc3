import LibreServ.SyncKeeps

/-! What a second pass does. The ledger entry a branch writes says what the next pass must find on both
sides for it to do nothing. A download reads both back, so it always agrees with the next pass. An upload
writes the local time for Luna's, without asking Luna; a conflict writes no entry for its copy; a file
that could not be moved to the trash keeps its entry. Where none of these happens, the pair has settled
after one pass. -/

namespace LibreServ.Sync

open FileTree Sections LibreServ.Files List Option Table Tree Prog

variable {theirs : Table Path FileEntry} {r : Except String Unit} {re : FileEntry} {overwrite : Bool}
  {rels : List Path}

/-! ### What the walks find in a tree -/

/-- No name on the path starts with a dot. -/
def Shown (p : Path) : Prop := ∀ n ∈ p, hidden n = false

/-- Every name on the path is one that the remote walk accepts. -/
def Listed (p : Path) : Prop := ∀ n ∈ p, hidden n = false ∧ validRemoteName n = true

instance (p : Path) : Decidable (Shown p) := inferInstanceAs (Decidable (∀ n ∈ p, hidden n = false))

instance (p : Path) : Decidable (Listed p) :=
  inferInstanceAs (Decidable (∀ n ∈ p, hidden n = false ∧ validRemoteName n = true))

/-- What the local walk has for a path of a tree without unreadable folders. -/
def localAt (t : State) (rel : Path) : Option LocalEntry :=
  if rel ≠ [] ∧ Shown rel then (t.disk.file? rel).map fun f => ⟨rel, f.size, f.mtime⟩ else none

/-- What the remote walk has for a path. -/
def remoteAt (t : State) (rel : Path) : Option FileEntry :=
  if rel ≠ [] ∧ Listed rel then (t.remote.file? rel).map fun f => ⟨f.size, f.mtime⟩ else none

/-- Both sides are trees, and Luna can list every name of a local file that the walk shows. -/
structure Tidy (t : State) : Prop where
  disk : Rooted Shown t.disk
  remote : Rooted Listed t.remote
  names : ∀ p f, Shown p → t.disk.file? p = some f → Listed p

variable {s t u : State} {root rel : Path} {ls : List Label}

theorem Shown.tail {n : Text} {d : Path} (h : Shown (n :: d)) : Shown d :=
  fun m hm => h m (mem_cons_of_mem n hm)

theorem Listed.tail {n : Text} {d : Path} (h : Listed (n :: d)) : Listed d :=
  fun m hm => h m (mem_cons_of_mem n hm)

theorem forall_mem_iff_suffix {Q : Text → Prop} {p : Path} :
    (∀ n ∈ p, Q n) ↔ ∀ q, q <:+ p → q ≠ [] → Q (q.headD []) := by
  induction p with
  | nil =>
    refine ⟨fun _ q hq hne => absurd (suffix_nil.mp hq) hne, fun _ => ?_⟩
    simp
  | cons n d ih =>
    rw [forall_mem_cons, ih]
    constructor
    · rintro ⟨hn, hd⟩ q hq hne
      rcases suffix_cons_iff.mp hq with rfl | hq
      · exact hn
      · exact hd q hq hne
    · intro h
      refine ⟨h (n :: d) (suffix_refl _) (cons_ne_nil n d), fun q hq hne => ?_⟩
      exact h q (hq.trans (suffix_cons n d)) hne

theorem seenLocal_iff (h : Rooted Shown t.disk) {p : Path} {f : File} :
    SeenLocal [] t.disk p f ↔ p ≠ [] ∧ Shown p ∧ t.disk.file? p = some f := by
  refine seen_iff_of_rooted h (fun _ _ => Shown.tail) (fun p => ?_) fun d => by simp
  rw [Shown, forall_mem_iff_suffix]
  refine forall_congr' fun q => imp_congr_right fun _ => imp_congr_right fun _ => ?_
  simp [takesLocal]

theorem takesRemote_iff {q : Path} :
    takesRemote q = .ok true ↔ hidden (q.headD []) = false ∧ validRemoteName (q.headD []) = true := by
  rw [takesRemote]
  cases hidden (q.headD []) with
  | true => simp
  | false =>
    cases validRemoteName (q.headD []) with
    | true | false => simp

theorem seenRemote_iff (h : Rooted Listed t.remote) {p : Path} {f : File} :
    Seen t.remote (lists []) takesRemote p f ↔ p ≠ [] ∧ Listed p ∧ t.remote.file? p = some f := by
  refine seen_iff_of_rooted h (fun _ _ => Listed.tail) (fun p => ?_) fun d => rfl
  rw [Listed, forall_mem_iff_suffix]
  refine forall_congr' fun q => imp_congr_right fun _ => imp_congr_right fun _ => ?_
  rw [takesRemote_iff]

theorem relOf_eq_self {p : Path} (h : Listed p) : relOf p = p := by
  have hname : ∀ n ∈ p, (n.splitOn '\\').reverse = [n] := by
    intro n hn
    have hvalid := (h n hn).2
    have hback : '\\' ∉ n := by
      intro hmem
      simp [validRemoteName, hmem] at hvalid
    have hsplit : n.splitOn '\\' = [n] := by
      refine splitOnP_eq_singleton fun c hc => ?_
      exact beq_eq_false_iff_ne.mpr fun heq => hback (heq ▸ hc)
    rw [hsplit]
    rfl
  calc p.flatMap (fun n => (n.splitOn '\\').reverse) = p.flatMap (fun n => [n]) := flatMap_congr hname
    _ = p := flatMap_singleton' p

theorem walkLocal_eq (h : Tidy t) (rel : Path) : (walkLocal [] t.disk).get? rel = localAt t rel := by
  have hsound : ∀ m, (walkLocal [] t.disk).get? rel = some m → localAt t rel = some m := by
    intro m hm
    obtain ⟨f, hseen, hrel, hsize, hmtime⟩ := walkLocal_some hm
    obtain ⟨hne, hshown, hf⟩ := (seenLocal_iff h.disk).mp hseen
    rw [relOf_eq_self (h.names _ f hshown hf)] at hrel
    rw [localAt, if_pos (hrel ▸ ⟨hne, hshown⟩), hrel, hf]
    obtain ⟨path, size, mtime⟩ := m
    simp only at hsize hmtime
    rw [hsize, hmtime]
    rfl
  cases hm : (walkLocal [] t.disk).get? rel with
  | some m => exact (hsound m hm).symm
  | none =>
    rw [localAt]
    split
    · next hrel =>
        cases hf : t.disk.file? rel with
        | none => rfl
        | some f =>
          have hseen := (seenLocal_iff h.disk).mpr ⟨hrel.1, hrel.2, hf⟩
          have hsome := walkLocal_ne_none hseen
          rw [relOf_eq_self (h.names rel f hrel.2 hf)] at hsome
          exact absurd hm hsome
    · rfl

theorem walkRemote_eq (h : Rooted Listed t.remote)
    (hw : walkRemoteFiles [] t.remote = .ok theirs) (rel : Path) : theirs.get? rel = remoteAt t rel := by
  have hsound : ∀ re, theirs.get? rel = some re → remoteAt t rel = some re := by
    intro re hre
    obtain ⟨g, hseen, rfl⟩ := walkRemote_some hw hre
    obtain ⟨hne, hlisted, hg⟩ := (seenRemote_iff h).mp hseen
    rw [remoteAt, if_pos ⟨hne, hlisted⟩, hg]
    rfl
  cases hre : theirs.get? rel with
  | some re => exact (hsound re hre).symm
  | none =>
    rw [remoteAt]
    split
    · next hrel =>
        cases hg : t.remote.file? rel with
        | none => rfl
        | some g =>
          have hseen := (seenRemote_iff h).mpr ⟨hrel.1, hrel.2, hg⟩
          exact absurd hre (walkRemote_ne_none hw hseen)
    · rfl

/-! ### One path -/

/-- The arm the next pass would take. -/
def nextArm (t : State) (rel : Path) : Arm := armOf (localAt t rel) (remoteAt t rel) (t.ledger.get? rel)

/-- Every local folder is read, nothing is stopped, what is uploaded gets the local file's time, and what
is moved to the pair's trash gets there. -/
def Faithful (l : Label) (i : Input) (t : State) : Prop :=
  match l with
  | .walkLocal => i.unread = []
  | .poll => i.stop = false
  | .finishUpload rel => ∀ f, t.disk.file? rel = some f → i.mtime = f.mtime
  | .quarantine rel => ∃ u, quarantineLocal rel rel i t = .ok u
  | _ => True

instance decidableForallFile (x : Option File) (mtime : Int) :
    Decidable (∀ f, x = some f → mtime = f.mtime) :=
  match x with
  | none => .isTrue nofun
  | some f => decidable_of_iff (mtime = f.mtime) ⟨fun h _ hf => by cases hf; exact h, fun h => h f rfl⟩

instance decidableExistsOk (x : Except String State) : Decidable (∃ u, x = .ok u) :=
  match x with
  | .ok u => .isTrue ⟨u, rfl⟩
  | .error _ => .isFalse nofun

instance Faithful.decide (l : Label) (i : Input) (t : State) : Decidable (Faithful l i t) := by
  cases l <;> unfold Faithful <;> infer_instance

/-- Handling `rel` takes `t` to `u`: the path has settled, and for every other path both walks find what
they found before. No link is new. -/
structure Settled (rel : Path) (t u : State) : Prop where
  tidy : Tidy u
  localElse : ∀ q, q ≠ rel → localAt u q = localAt t q
  remoteElse : ∀ q, q ≠ rel → remoteAt u q = remoteAt t q
  diskLinks : ∀ q, u.disk.get? q = some .link → t.disk.get? q = some .link
  remoteLinks : ∀ q, u.remote.get? q = some .link → t.remote.get? q = some .link
  noNew : localAt t rel = none → (∀ re, nextArm t rel ≠ .download re) → localAt u rel = none
  nothing : nextArm u rel = .nothing

theorem localAt_some {m : LocalEntry} (h : localAt t rel = some m) :
    ∃ f, rel ≠ [] ∧ Shown rel ∧ t.disk.file? rel = some f ∧ m = ⟨rel, f.size, f.mtime⟩ := by
  rw [localAt] at h
  split at h
  · next hrel =>
      obtain ⟨f, hf, rfl⟩ := map_eq_some_iff.mp h
      exact ⟨f, hrel.1, hrel.2, hf, rfl⟩
  · cases h

theorem remoteAt_some (h : remoteAt t rel = some re) :
    ∃ f, rel ≠ [] ∧ Listed rel ∧ t.remote.file? rel = some f ∧ re = ⟨f.size, f.mtime⟩ := by
  rw [remoteAt] at h
  split at h
  · next hrel =>
      obtain ⟨f, hf, rfl⟩ := map_eq_some_iff.mp h
      exact ⟨f, hrel.1, hrel.2, hf, rfl⟩
  · cases h

theorem Listed.shown {p : Path} (h : Listed p) : Shown p := fun n hn => (h n hn).1

/-- A pass that changes the ledger alone. -/
theorem settled_of_ledger (h : Tidy t) (ledger : Table Path LedgerEntry)
    (hnext : armOf (localAt t rel) (remoteAt t rel) (ledger.get? rel) = .nothing) :
    Settled rel t { t with ledger := ledger } where
  tidy := ⟨h.disk, h.remote, h.names⟩
  localElse _ _ := rfl
  remoteElse _ _ := rfl
  diskLinks _ := id
  remoteLinks _ := id
  noNew hnone _ := hnone
  nothing := hnext

/-- Sizes and times as the ledger has them. -/
theorem armOf_unchanged (path : Path) (size : Nat) (mtime modified : Int) :
    armOf (some ⟨path, size, mtime⟩) (some ⟨size, modified⟩) (some ⟨size, mtime, modified⟩) = .nothing := by
  simp [armOf, localChanged, remoteChanged]

section

variable {m : Option LocalEntry} {o : Option FileEntry} {p : Option LedgerEntry}

theorem armOf_upload
    {mine : LocalEntry} (h : armOf m o p = .upload mine overwrite) : m = some mine := by
  cases m <;> cases o <;> cases p <;> simp only [armOf] at h
  all_goals try cases h
  · rfl
  · split at h <;> [skip; split at h] <;> cases h
    rfl
  · split at h <;> [skip; split at h <;> [skip; split at h]] <;> cases h
    rfl

theorem armOf_adopt {mine : LocalEntry} {theirs : FileEntry} (h : armOf m o p = .adopt mine theirs) :
    m = some mine ∧ o = some theirs ∧ mine.size = theirs.size := by
  cases m <;> cases o <;> cases p <;> simp only [armOf] at h
  all_goals try cases h
  · split at h
    · next hsame =>
        cases h
        exact ⟨rfl, rfl, hsame.1⟩
    · split at h <;> cases h
  · split at h <;> [skip; split at h <;> [skip; split at h]] <;> cases h

theorem armOf_forget (h : armOf m o p = .forget) : m = none ∧ o = none := by
  cases m <;> cases o <;> cases p <;> simp only [armOf] at h
  all_goals try cases h
  · exact ⟨rfl, rfl⟩
  · split at h <;> [skip; split at h] <;> cases h
  · split at h <;> [skip; split at h <;> [skip; split at h]] <;> cases h

end

variable {env : Label → Input → State → Prop}

theorem record_traced {entry : LedgerEntry} (h : (record rel entry).Traced env t ls r u) :
    u = { t with ledger := t.ledger.put rel entry } := by
  obtain ⟨i, -, -, -, hu⟩ := traced_act.mp h
  exact hu

theorem forget_traced
    (h : (forget rel).Traced env t ls r u) : u = { t with ledger := t.ledger.erase rel } := by
  obtain ⟨i, -, -, -, hu⟩ := traced_act.mp h
  exact hu

theorem adopt_settles (ht : Tidy t) {m : LocalEntry} (harm : nextArm t rel = .adopt m re)
    (h : (record rel ⟨m.size, m.mtime, re.modified⟩).Traced Faithful t ls r u) : Settled rel t u := by
  obtain rfl := record_traced h
  obtain ⟨hm, hre, hsize⟩ := armOf_adopt harm
  obtain ⟨f, -, -, -, rfl⟩ := localAt_some hm
  refine settled_of_ledger ht _ ?_
  have hledger : (t.ledger.put rel ⟨f.size, f.mtime, re.modified⟩).get? rel =
      some ⟨f.size, f.mtime, re.modified⟩ := get?_put_self _ _ _
  have hre' : remoteAt t rel = some ⟨f.size, re.modified⟩ := by
    obtain ⟨size, modified⟩ := re
    simp only at hsize
    rw [hre, hsize]
  rw [hm, hre', hledger]
  exact armOf_unchanged _ _ _ _

theorem forget_settles (ht : Tidy t) (harm : nextArm t rel = .forget)
    (h : (forget rel).Traced Faithful t ls r u) : Settled rel t u := by
  obtain rfl := forget_traced h
  obtain ⟨hm, ho⟩ := armOf_forget harm
  refine settled_of_ledger ht _ ?_
  have hledger : (t.ledger.erase rel).get? rel = none := by rw [get?_erase, if_pos rfl]
  rw [hm, ho, hledger]
  rfl

theorem delete_settles (ht : Tidy t) (harm : nextArm t rel = .delete)
    (h : (syncPath root rel .delete).Traced Faithful t ls (.ok ()) u) : Settled rel t u := by
  obtain ⟨hm, ho, -⟩ := armOf_delete.mp harm
  rcases traced_bind h with ⟨e, -, he⟩ | ⟨_, v, ls₁, ls₂, h₁, h₂, -⟩
  · cases he
  obtain ⟨i, -, -, hr, rfl⟩ := traced_tryAct.mp h₁
  obtain rfl := forget_traced h₂
  rcases toTrash_cases rel i t with ⟨e, heq⟩ | ⟨f, r, hf, heq⟩
  · rw [heq] at hr
    cases hr
  have hfile : t.remote.get? rel ≠ some .dir := by
    rw [file?_eq_some.mp hf]
    exact nofun
  rw [heq]
  refine ⟨⟨ht.disk, ht.remote.erase hfile, ht.names⟩, fun _ _ => rfl, fun q hq => ?_, fun _ => id,
    fun q hq => ?_, fun hnone _ => hnone, ?_⟩
  · simp only [remoteAt, file?_erase_of_ne hq]
  · exact (get?_erase_some.mp hq).2
  · have hgone : remoteAt { t with remote := t.remote.erase rel } rel = none := by
      simp [remoteAt, file?]
    have hledger : (t.ledger.erase rel).get? rel = none := by rw [get?_erase, if_pos rfl]
    change armOf (localAt t rel) (remoteAt { t with remote := t.remote.erase rel } rel)
      ((t.ledger.erase rel).get? rel) = .nothing
    rw [hm, hgone, hledger]
    rfl

/-- What the two sections of an upload leave when both succeed. -/
theorem uploadFile_traced {path target : Path}
    (h : (uploadFile root path target overwrite).Traced env t ls (.ok ()) u) :
    ∃ i f place remote, lunaPath root target = some place ∧ t.remote.taken place = false ∧
      mkdirs place.tail t.remote = some remote ∧ t.disk.file? path = some f ∧
      env (.finishUpload target) i { t with remote := remote } ∧
      u = { t with remote := remote.put place (.file ⟨f.content, i.mtime⟩) } := by
  rcases traced_bind h with ⟨e, -, he⟩ | ⟨_, v, ls₁, ls₂, h₁, h₂, -⟩
  · cases he
  obtain ⟨i, -, -, hr, rfl⟩ := traced_tryAct.mp h₁
  obtain ⟨j, hj, -, hr', rfl⟩ := traced_tryAct.mp h₂
  rcases start_cases root target path i t with ⟨e, heq⟩ | ⟨place, remote, hplace, hfree, hm, heq⟩
  · rw [heq] at hr
    cases hr
  rw [heq] at hr' hj ⊢
  rcases finish_cases root target path j { t with remote := remote } overwrite with
    ⟨e, heq'⟩ | ⟨f, place', r, hf, hplace', -, heq'⟩
  · rw [heq'] at hr'
    cases hr'
  · rw [hplace] at hplace'
    cases hplace'
    rw [heq']
    exact ⟨j, f, place, remote, hplace, hfree, hm, hf, hj, rfl⟩

theorem upload_settles (ht : Tidy t) {m : LocalEntry}
    (harm : nextArm t rel = .upload m overwrite) (hplace : lunaPath root rel = some rel)
    (hlink : ∀ q, q <:+ rel.tail → t.remote.get? q ≠ some .link)
    (h : (syncPath root rel (.upload m overwrite)).Traced Faithful t ls (.ok ()) u) : Settled rel t u := by
  obtain ⟨f, hne, hshown, hf, rfl⟩ := localAt_some (armOf_upload harm)
  rcases traced_bind h with ⟨e, -, he⟩ | ⟨_, v, ls₁, ls₂, h₁, h₂, -⟩
  · cases he
  obtain ⟨i, g, place, remote, hplace', hfree, hmk, hg, hi, rfl⟩ := uploadFile_traced h₁
  obtain rfl := record_traced h₂
  rw [hplace] at hplace'
  cases hplace'
  rw [hf] at hg
  cases hg
  have hmtime : i.mtime = f.mtime := hi f hf
  have hlisted : Listed rel := ht.names rel f hshown hf
  have hnotdir : remote.get? rel ≠ some .dir := by
    rw [get?_of_not_taken (not_taken_mkdirs hmk hfree)]
    exact nofun
  obtain ⟨name, dir, rfl⟩ := exists_cons_of_ne_nil hne
  have hparent : dir = [] ∨ remote.get? dir = some .dir := by
    by_cases hd : dir = []
    · exact .inl hd
    · exact .inr (mkdirs_dirs hmk hlink (suffix_refl _) hd)
  refine ⟨⟨ht.disk, (ht.remote.mkdirs hmk hlink).put_file hparent hnotdir _, ht.names⟩, fun _ _ => rfl,
    fun q hq => ?_, fun _ => id, fun q hq => ?_, fun hnone _ => hnone, ?_⟩
  · simp only [remoteAt, file?_put_of_ne _ hq, file?_mkdirs hmk]
  · have hqn : q ≠ name :: dir := by
      rintro rfl
      rw [get?_put_self] at hq
      cases hq
    rw [get?_put_of_ne _ _ hqn] at hq
    rcases get?_mkdirs hmk q with hsame | ⟨-, hdir, -⟩
    · rw [← hsame]
      exact hq
    · rw [hdir] at hq
      cases hq
  · have hremote : remoteAt { t with remote := remote.put (name :: dir) (.file ⟨f.content, i.mtime⟩) }
        (name :: dir) = some ⟨f.size, f.mtime⟩ := by
      rw [remoteAt, if_pos ⟨hne, hlisted⟩, file?_put_self, hmtime]
      rfl
    change armOf (localAt t (name :: dir)) (remoteAt { t with remote := remote.put _ _ } (name :: dir))
      ((t.ledger.put (name :: dir) ⟨f.size, f.mtime, f.mtime⟩).get? (name :: dir)) = .nothing
    rw [armOf_upload harm, hremote, get?_put_self]
    exact armOf_unchanged _ _ _ _

theorem fetch_traced (h : (fetch rel re).Traced env t ls (.ok ()) u) :
    ∃ (i : Input) (disk : Tree Text File) (f : File), mkdirs rel.tail t.disk = some disk ∧ disk.get? (tempOf rel) ≠ some .dir ∧
      disk.get? rel ≠ some .dir ∧ t.remote.file? rel = some f ∧
      u = { t with
        disk := (disk.erase (tempOf rel)).put rel (.file ⟨f.content, i.mtime⟩)
        ledger := t.ledger.put rel ⟨f.size, i.mtime, re.modified⟩ } := by
  rw [fetch] at h
  cases hdest : localPath rel with
  | error e =>
    rw [hdest] at h
    cases h.2.1
  | ok dest =>
    rw [hdest, Prog.ofExcept, Prog.done_bind] at h
    obtain rfl := localPath_ok hdest
    rcases Prog.traced_bind h with ⟨e, -, he⟩ | ⟨_, v, ls₁, ls₂, h₁, h₂, -⟩
    · cases he
    obtain ⟨i, -, -, hr, rfl⟩ := Prog.traced_tryAct.mp h₁
    rcases download_cases dest dest i t with
      ⟨e, heq⟩ | ⟨disk, hdisk, ⟨e, heq⟩ | ⟨htemp, ⟨e, part, heq⟩ | ⟨f, hf, hdir, heq⟩⟩⟩
    · rw [heq] at hr
      cases hr
    · rw [heq] at hr
      cases hr
    · rw [heq] at hr
      cases hr
    · rw [heq] at h₂
      rcases Prog.traced_bind h₂ with ⟨e, -, he⟩ | ⟨g, w, ls₃, ls₄, h₃, h₄, -⟩
      · cases he
      obtain ⟨j, -, -, hg, rfl⟩ := Prog.traced_look.mp h₃
      have hg' : g = some ⟨f.content, i.mtime⟩ := (Except.ok.inj hg).trans (file?_put_self _ _)
      rw [hg'] at h₄
      obtain rfl := record_traced h₄
      exact ⟨i, disk, f, hdisk, htemp, hdir, hf, rfl⟩

theorem download_settles (ht : Tidy t) (harm : nextArm t rel = .download re)
    (htemp : tempOf rel ≠ rel → t.disk.file? (tempOf rel) = none)
    (hlink : ∀ q, q <:+ rel.tail → t.disk.get? q ≠ some .link)
    (h : (syncPath root rel (.download re)).Traced Faithful t ls (.ok ()) u) : Settled rel t u := by
  obtain ⟨hre, -⟩ := armOf_download harm
  obtain ⟨g, hne, hlisted, hg, rfl⟩ := remoteAt_some hre
  obtain ⟨i, disk, f, hmk, htmpdir, hnotdir, hf, rfl⟩ := fetch_traced h
  rw [hg] at hf
  cases hf
  have hfiles : ∀ q, q ≠ rel → file? ((disk.erase (tempOf rel)).put rel (.file ⟨g.content, i.mtime⟩)) q =
      t.disk.file? q := by
    intro q hq
    rw [file?_put_of_ne _ hq]
    by_cases hqt : q = tempOf rel
    · have hgone : t.disk.file? q = none := hqt ▸ htemp fun heq => hq (hqt.trans heq)
      rw [hgone, file?, get?_erase, if_pos hqt]
    · rw [file?_erase_of_ne hqt, file?_mkdirs hmk]
  obtain ⟨name, dir, rfl⟩ := exists_cons_of_ne_nil hne
  have hkept : ∀ q, disk.get? q = some .dir → (disk.erase (tempOf (name :: dir))).get? q = some .dir := by
    intro q hq
    have hqt : q ≠ tempOf (name :: dir) := by
      rintro rfl
      exact htmpdir hq
    rw [get?_erase, if_neg hqt, hq]
  have hparent : dir = [] ∨ (disk.erase (tempOf (name :: dir))).get? dir = some .dir := by
    by_cases hd : dir = []
    · exact .inl hd
    · exact .inr (hkept dir (mkdirs_dirs hmk hlink (suffix_refl _) hd))
  have hplace : (disk.erase (tempOf (name :: dir))).get? (name :: dir) ≠ some .dir := by
    rw [get?_erase]
    split
    · intro h
      cases h
    · exact hnotdir
  refine ⟨⟨((ht.disk.mkdirs hmk hlink).erase htmpdir).put_file hparent hplace _, ht.remote, ?_⟩,
    fun q hq => ?_, fun _ _ => rfl, fun q hq => ?_, fun _ => id, fun _ hno => absurd harm (hno _), ?_⟩
  · intro p f' hp hf'
    by_cases hpr : p = name :: dir
    · exact hpr ▸ hlisted
    · exact ht.names p f' hp ((hfiles p hpr).symm.trans hf')
  · simp only [localAt, hfiles q hq]
  · have hqr : q ≠ name :: dir := by
      rintro rfl
      rw [get?_put_self] at hq
      cases hq
    rw [get?_put_of_ne _ _ hqr] at hq
    obtain ⟨-, hq⟩ := get?_erase_some.mp hq
    rcases get?_mkdirs hmk q with hsame | ⟨-, hdir, -⟩
    · rw [← hsame]
      exact hq
    · rw [hdir] at hq
      cases hq
  · have hlocal : localAt { t with
          disk := (disk.erase (tempOf (name :: dir))).put (name :: dir) (.file ⟨g.content, i.mtime⟩) }
        (name :: dir) = some ⟨name :: dir, g.size, i.mtime⟩ := by
      rw [localAt, if_pos ⟨hne, hlisted.shown⟩, file?_put_self]
      rfl
    change armOf (localAt { t with disk := _ } (name :: dir)) (remoteAt t (name :: dir))
      ((t.ledger.put (name :: dir) ⟨g.size, i.mtime, g.mtime⟩).get? (name :: dir)) = .nothing
    rw [hlocal, hre, get?_put_self]
    exact armOf_unchanged _ _ _ _

/-! What lies in the pair's trash no walk shows. -/

theorem not_shown_of_suffix {p q : Path} (hp : InTrash p) (hq : q <:+ p) (hne : q ≠ []) : ¬ Shown q := by
  intro hshown
  obtain ⟨front, rfl⟩ := hq
  have hlast : q.getLast? = some ".luna-desktop-trash".toList := by
    rw [InTrash, getLast?_append_of_ne_nil _ hne] at hp
    exact hp
  have hhid := hshown _ (mem_of_getLast? hlast)
  revert hhid
  decide

theorem quarantine_settles (ht : Tidy t) {m : LocalEntry} (harm : nextArm t rel = .quarantine m)
    (h : (syncPath root rel (.quarantine m)).Traced Faithful t ls (.ok ()) u) : Settled rel t u := by
  obtain ⟨hm, ho, -⟩ := armOf_quarantine.mp ⟨m, harm⟩
  have hlocal : localAt t rel = some m := by
    rw [nextArm] at harm
    cases hl : localAt t rel with
    | none => exact absurd hl hm
    | some m' =>
      rw [hl, ho] at harm
      cases hp : t.ledger.get? rel with
      | none => simp [hp, armOf] at harm
      | some prev => simpa [hp, armOf] using harm
  obtain ⟨f, hne, hshown, hf, rfl⟩ := localAt_some hlocal
  rcases traced_bind h with ⟨e, -, he⟩ | ⟨moved, v, ls₁, ls₂, h₁, h₂, -⟩
  · cases he
  obtain ⟨i, ⟨w, hw⟩, -, hmoved, rfl⟩ := traced_act.mp h₁
  simp only [hw] at hmoved h₂
  cases hmoved
  obtain rfl := forget_traced h₂
  obtain ⟨disk, g, -, hmk, -, rfl⟩ := quarantineLocal_ok hw
  have htrash : InTrash (rel.tail ++ trashDir i.stamp) := by
    rw [InTrash, getLast?_append]
    rfl
  have htail : (rel ++ trashDir i.stamp).tail = rel.tail ++ trashDir i.stamp :=
    tail_append_of_ne_nil hne
  rw [htail] at hmk
  have hsame : ∀ p, Shown p → disk.get? p = t.disk.get? p := by
    intro p hp
    rcases get?_mkdirs hmk p with heq | ⟨hnone, hdir, hsuffix⟩
    · exact heq
    · by_cases hpn : p = []
      · exact hpn ▸ mkdirs_root hmk
      · exact absurd hp (not_shown_of_suffix htrash hsuffix hpn)
  have hf' : disk.file? rel = some f := (file?_mkdirs hmk rel).trans hf
  obtain ⟨target, htarget⟩ : ∃ target, target = freeTrashPath disk (rel ++ trashDir i.stamp) := ⟨_, rfl⟩
  have hhidden : ¬ Shown target := by
    have hin := inTrash_freeTrashPath hne disk i.stamp
    rw [← htarget] at hin
    refine not_shown_of_suffix hin (suffix_refl _) ?_
    rintro rfl
    cases hin
  have hmove : ∀ p, Shown p → (disk.moveFile rel target).get? p = (t.disk.erase rel).get? p := by
    intro p hp
    have hpt : p ≠ target := by
      rintro rfl
      exact hhidden hp
    rw [moveFile, file?_eq_some.mp hf']
    rw [get?_put_of_ne _ _ hpt, get?_erase, get?_erase, hsame p hp]
  have hfiles : ∀ p, Shown p → p ≠ rel → (disk.moveFile rel target).file? p = t.disk.file? p := by
    intro p hp hpr
    refine (file?_congr (hmove p hp)).trans ?_
    exact file?_erase_of_ne hpr
  have hnotdir : t.disk.get? rel ≠ some .dir := by
    rw [file?_eq_some.mp hf]
    intro h
    cases h
  have hgone : (disk.moveFile rel target).file? rel = none := by
    rw [file?_congr (hmove rel hshown), file?, get?_erase, if_pos rfl]
  rw [← htarget]
  refine ⟨⟨(ht.disk.erase hnotdir).congr (fun _ _ => Shown.tail) hmove, ht.remote, ?_⟩, fun q hq => ?_,
    fun _ _ => rfl, fun q hq => ?_, fun _ => id, fun hnone _ => ?_, ?_⟩
  · intro p g' hp hg'
    by_cases hpr : p = rel
    · subst hpr
      rw [State.rename, hgone] at hg'
      cases hg'
    · exact ht.names p g' hp ((hfiles p hp hpr).symm.trans hg')
  · simp only [localAt]
    split
    · next hshown' => exact congrArg _ (hfiles q hshown'.2 hq)
    · rfl
  · rw [State.rename, moveFile, file?_eq_some.mp hf'] at hq
    rw [get?_put, get?_erase] at hq
    split at hq
    · cases hq
    split at hq
    · cases hq
    · rcases get?_mkdirs hmk q with hkept | ⟨-, hdir, -⟩
      · rw [← hkept]
        exact hq
      · rw [hdir] at hq
        cases hq
  · rw [hlocal] at hnone
    cases hnone
  · have hnone : localAt (State.rename { t with disk := disk } rel target) rel = none := by
      rw [localAt, if_pos ⟨hne, hshown⟩, State.rename, hgone]
      rfl
    change armOf (localAt (State.rename { t with disk := disk } rel target) rel) (remoteAt t rel)
      ((t.ledger.erase rel).get? rel) = .nothing
    rw [hnone, ho, get?_erase, if_pos rfl]
    rfl

/-! ### A pass -/

/-- What a pass needs to find so that its branches agree with the next pass: both sides are trees, with
names that the other side can hold; nothing changed on both sides at once; no download's temporary name
is in use; and no way to a file that is copied leads through a link of the other side. -/
structure Orderly (root : Path) (s : State) : Prop where
  tidy : Tidy s
  noConflict : ∀ rel m o, nextArm s rel ≠ .conflict m o
  place : ∀ rel m overwrite, nextArm s rel = .upload m overwrite → lunaPath root rel = some rel
  temp : ∀ rel re, nextArm s rel = .download re → tempOf rel ≠ rel →
    localAt s (tempOf rel) = none ∧ ∀ re', nextArm s (tempOf rel) ≠ .download re'
  diskLinks : ∀ rel re, nextArm s rel = .download re → ∀ q, q <:+ rel.tail → s.disk.get? q ≠ some .link
  remoteLinks : ∀ rel m overwrite, nextArm s rel = .upload m overwrite →
    ∀ q, q <:+ rel.tail → s.remote.get? q ≠ some .link

/-- Halfway through a pass that began in `s`, with `rels` still to come. -/
structure Midway (s : State) (rels : List Path) (t : State) : Prop where
  tidy : Tidy t
  ahead : ∀ q ∈ rels, localAt t q = localAt s q ∧ remoteAt t q = remoteAt s q ∧
    t.ledger.get? q = s.ledger.get? q
  behind : ∀ q, q ∉ rels → nextArm t q = .nothing
  diskLinks : ∀ q, t.disk.get? q = some .link → s.disk.get? q = some .link
  remoteLinks : ∀ q, t.remote.get? q = some .link → s.remote.get? q = some .link
  noNew : ∀ q, localAt s q = none → (∀ re, nextArm s q ≠ .download re) → localAt t q = none

/-- The temporary name of a shown file is shown. -/
theorem shown_tempOf (hrel : Shown rel) (hne : rel ≠ []) (hname : rel.headD [] ≠ []) :
    Shown (tempOf rel) ∧ tempOf rel ≠ [] := by
  obtain ⟨name, dir, rfl⟩ := exists_cons_of_ne_nil hne
  refine ⟨fun n hn => ?_, cons_ne_nil _ _⟩
  rcases mem_cons.mp hn with rfl | hn
  · have hshown := hrel name mem_cons_self
    have hhead := splitExtension_head? name
    cases hstem : (splitExtension name).1 with
    | nil =>
      rw [hstem] at hhead
      exact absurd (head?_eq_none_iff.mp hhead.symm) hname
    | cons c stem =>
      rw [hstem] at hhead
      rw [hidden, ← hhead] at hshown
      change hidden ((splitExtension name).1 ++ _) = false
      rw [hstem]
      exact hshown
  · exact hrel n (mem_cons_of_mem name hn)

theorem Midway.step (h : Orderly root s) {rest : List Path} (hmid : Midway s (rel :: rest) t) (hrel : rel ∉ rest)
    (htr : (syncPath root rel (nextArm s rel)).Traced Faithful t ls (.ok ()) u) : Midway s rest u := by
  obtain ⟨hl, hr, hp⟩ := hmid.ahead rel mem_cons_self
  have harm : nextArm t rel = nextArm s rel := by rw [nextArm, nextArm, hl, hr, hp]
  have hset : Settled rel t u := by
    cases ha : nextArm s rel with
    | conflict m o => exact absurd ha (h.noConflict rel m o)
    | upload m overwrite =>
      rw [ha] at htr
      refine upload_settles hmid.tidy (harm.trans ha) (h.place rel m overwrite ha) (fun q hq hlink => ?_) htr
      exact h.remoteLinks rel m overwrite ha q hq (hmid.remoteLinks q hlink)
    | download re =>
      rw [ha] at htr
      refine download_settles hmid.tidy (harm.trans ha) (fun hne => ?_) (fun q hq hlink => ?_) htr
      · obtain ⟨hnone, hno⟩ := h.temp rel re ha hne
        obtain ⟨g, hreln, hlisted, -, -⟩ := remoteAt_some (armOf_download ha).1
        have hname : rel.headD [] ≠ [] := by
          obtain ⟨name, dir, rfl⟩ := exists_cons_of_ne_nil hreln
          intro hempty
          have hvalid := (hlisted name mem_cons_self).2
          rw [headD_cons] at hempty
          rw [hempty] at hvalid
          cases hvalid
        have hkept := hmid.noNew _ hnone hno
        obtain ⟨hshown, htne⟩ := shown_tempOf hlisted.shown hreln hname
        rw [localAt, if_pos ⟨htne, hshown⟩] at hkept
        exact map_eq_none_iff.mp hkept
      · exact h.diskLinks rel re ha q hq (hmid.diskLinks q hlink)
    | adopt m o =>
      rw [ha] at htr
      exact adopt_settles hmid.tidy (harm.trans ha) htr
    | quarantine m =>
      rw [ha] at htr
      exact quarantine_settles hmid.tidy (harm.trans ha) htr
    | delete =>
      rw [ha] at htr
      exact delete_settles hmid.tidy (harm.trans ha) htr
    | forget =>
      rw [ha] at htr
      exact forget_settles hmid.tidy (harm.trans ha) htr
    | nothing =>
      rw [ha] at htr
      obtain ⟨-, -, rfl⟩ := htr
      exact settled_of_ledger hmid.tidy u.ledger (harm.trans ha)
  refine ⟨hset.tidy, fun q hq => ?_, fun q hq => ?_, fun q hq => hmid.diskLinks q (hset.diskLinks q hq),
    fun q hq => hmid.remoteLinks q (hset.remoteLinks q hq), fun q hnone hno => ?_⟩
  · have hqr : q ≠ rel := fun heq => hrel (heq ▸ hq)
    obtain ⟨hlq, hrq, hpq⟩ := hmid.ahead q (mem_cons_of_mem rel hq)
    exact ⟨(hset.localElse q hqr).trans hlq, (hset.remoteElse q hqr).trans hrq, (syncPath_ledger htr hqr).trans hpq⟩
  · by_cases hqr : q = rel
    · exact hqr ▸ hset.nothing
    · have hbefore := hmid.behind q (not_mem_cons_of_ne_of_not_mem hqr hq)
      rwa [nextArm, ← hset.localElse q hqr, ← hset.remoteElse q hqr, ← syncPath_ledger htr hqr] at hbefore
  · have hbefore := hmid.noNew q hnone hno
    by_cases hqr : q = rel
    · subst hqr
      exact hset.noNew hbefore fun re hre => hno re (harm.symm.trans hre)
    · exact (hset.localElse q hqr).trans hbefore

theorem armOf_walks (h : Tidy t)
    (hw : walkRemoteFiles [] t.remote = .ok theirs) (rel : Path) :
    armAt (walkLocal [] t.disk) theirs t.ledger rel = nextArm t rel := by
  rw [armAt, nextArm, walkLocal_eq h, walkRemote_eq h.remote hw]

theorem syncPaths_settles (h : Orderly root s)
    (hw : walkRemoteFiles [] s.remote = .ok theirs) (hnodup : rels.Nodup)
    (hmid : Midway s rels t)
    (htr : (syncPaths root (walkLocal [] s.disk) theirs rels).Traced Faithful t ls (.ok ()) u) :
    Midway s [] u := by
  induction rels generalizing t ls with
  | nil =>
    obtain ⟨-, -, rfl⟩ := htr
    exact hmid
  | cons rel rest ih =>
    obtain ⟨hrel, hrest⟩ := nodup_cons.mp hnodup
    obtain ⟨i, hi, ⟨hstop, -⟩ | ⟨-, j, ls', -, -, hpaths⟩⟩ := traced_syncPaths_cons.mp htr
    · rw [show i.stop = false from hi] at hstop
      cases hstop
    have harm : armOf ((walkLocal [] s.disk).get? rel) (theirs.get? rel) (t.ledger.get? rel) =
        nextArm s rel := by
      rw [(hmid.ahead rel mem_cons_self).2.2]
      exact armOf_walks h.tidy hw rel
    rw [syncRest, harm] at hpaths
    rcases traced_bind hpaths with ⟨e, -, he⟩ | ⟨_, v, ls₁, ls₂, h₁, h₂, -⟩
    · cases he
    · exact ih hrest (hmid.step h hrel h₁) h₂

theorem midway_start (h : Tidy s)
    (hw : walkRemoteFiles [] s.remote = .ok theirs)
    (hrels : rels.Perm (allPaths (walkLocal [] s.disk) theirs s.ledger.keys)) : Midway s rels s where
  tidy := h
  ahead _ _ := ⟨rfl, rfl, rfl⟩
  behind q hq := by
    have hall : q ∉ theirs.keys ++ (walkLocal [] s.disk).keys ++ s.ledger.keys := by
      rwa [hrels.mem_iff, allPaths, mem_dedup] at hq
    rw [mem_append, mem_append, not_or, not_or] at hall
    rw [← armOf_walks h hw q, armAt, get?_eq_none hall.1.1, get?_eq_none hall.1.2, get?_eq_none hall.2]
    rfl
  diskLinks _ := id
  remoteLinks _ := id
  noNew _ hnone _ := hnone

/-- Where nothing is left to do, the loop only reads. -/
theorem syncPaths_quiet {mine : Table Path LocalEntry}
    (hnone : ∀ q ∈ rels, armAt mine theirs t.ledger q = .nothing)
    (htr : (syncPaths root mine theirs rels).Traced env t ls r u) :
    u = t ∧ ∀ l ∈ ls, l.quiet = true := by
  induction rels generalizing ls with
  | nil =>
    obtain ⟨rfl, -, rfl⟩ := htr
    exact ⟨rfl, by simp⟩
  | cons rel rest ih =>
    obtain ⟨i, -, ⟨-, rfl, -, rfl⟩ | ⟨-, j, ls', -, rfl, hpaths⟩⟩ := traced_syncPaths_cons.mp htr
    · exact ⟨rfl, by simp [Label.quiet]⟩
    · have harm : armOf (mine.get? rel) (theirs.get? rel) (t.ledger.get? rel) = .nothing :=
        hnone rel mem_cons_self
      rw [syncRest, harm] at hpaths
      obtain ⟨hu, hquiet⟩ := ih (fun q hq => hnone q (mem_cons_of_mem rel hq)) hpaths
      refine ⟨hu, fun l hl => ?_⟩
      rcases mem_cons.mp hl with rfl | hl
      · rfl
      · rcases mem_cons.mp hl with rfl | hl
        · rfl
        · exact hquiet l hl

/-- After a pass that met nothing out of order and went through, the next pass only reads: it uploads,
downloads, deletes, moves and records nothing. -/
theorem second_pass_only_reads (root : Path) {s : State} (h : Orderly root s)
    {order : List Path → List Path} (horder : ∀ l, (order l).Perm l) {ls : List Label} {t : State}
    (hfirst : (syncOnce root order).Traced Faithful s ls (.ok ()) t)
    {order' : List Path → List Path} {ls' : List Label} {r : Except String Unit} {u : State}
    (hsecond : (syncOnce root order').Traced (Reading []) t ls' r u) :
    u = t ∧ ∀ l ∈ ls', l.quiet = true := by
  rcases traced_syncOnce hfirst with ⟨-, -, hbad⟩ | ⟨i, theirs, ls₁, hw, hi, -, hloop⟩
  · exact absurd rfl hbad
  rw [show i.unread = [] from hi] at hloop
  have hperm := horder (allPaths (walkLocal [] s.disk) theirs s.ledger.keys)
  have hend := syncPaths_settles h hw (hperm.nodup_iff.mpr (nodup_dedup _)) (midway_start h.tidy hw hperm) hloop
  rcases traced_syncOnce hsecond with ⟨rfl, hu, -⟩ | ⟨j, theirs', ls₂, hw', hj, rfl, hloop'⟩
  · exact ⟨hu, by simp [Label.quiet]⟩
  rw [show j.unread = [] from hj rfl] at hloop'
  have hnone : ∀ q ∈ order' (allPaths (walkLocal [] t.disk) theirs' t.ledger.keys),
      armAt (walkLocal [] t.disk) theirs' t.ledger q = .nothing := by
    intro q _
    rw [armOf_walks hend.tidy hw']
    exact hend.behind q (not_mem_nil)
  obtain ⟨hu, hquiet⟩ := syncPaths_quiet hnone hloop'
  refine ⟨hu, fun l hl => ?_⟩
  simp only [mem_cons] at hl
  rcases hl with rfl | rfl | rfl | hl
  · rfl
  · rfl
  · rfl
  · exact hquiet l hl

/-- A note that is new on this computer and a photo that is new on Luna. -/
def newOnBoth : State where
  disk := Table.empty.put ["note.txt".toList] (.file ⟨[1, 2, 3], 50⟩)
  remote := Table.empty.put ["photo.jpg".toList] (.file ⟨[4, 5], 60⟩)
  trash := []
  ledger := Table.empty

theorem rooted_put_top {P : Path → Prop} (name : Text) (f : File) :
    Rooted P (Table.empty.put [name] (.file f) : Tree Text File) := by
  intro n d e _ he
  by_cases hp : n :: d = [name]
  · exact .inl (cons.inj hp).2
  · rw [get?_put_of_ne _ _ hp] at he
    cases he

theorem newOnBoth_arm {rel : Path} (hnote : rel ≠ ["note.txt".toList]) (hphoto : rel ≠ ["photo.jpg".toList]) :
    nextArm newOnBoth rel = .nothing := by
  have hl : localAt newOnBoth rel = none := by
    rw [localAt, newOnBoth, file?_put_of_ne _ hnote]
    simp [file?]
  have hr : remoteAt newOnBoth rel = none := by
    rw [remoteAt, newOnBoth, file?_put_of_ne _ hphoto]
    simp [file?]
  rw [nextArm, hl, hr]
  rfl

theorem newOnBoth_orderly : Orderly [] newOnBoth := by
  have hnote : nextArm newOnBoth ["note.txt".toList] = .upload ⟨["note.txt".toList], 3, 50⟩ false := by
    decide +kernel
  have hphoto : nextArm newOnBoth ["photo.jpg".toList] = .download ⟨2, 60⟩ := by decide +kernel
  have hcases : ∀ rel, nextArm newOnBoth rel ≠ .nothing →
      rel = ["note.txt".toList] ∨ rel = ["photo.jpg".toList] := by
    intro rel hrel
    by_contra hno
    rw [not_or] at hno
    exact hrel (newOnBoth_arm hno.1 hno.2)
  have hupload : ∀ rel m overwrite, nextArm newOnBoth rel = .upload m overwrite →
      rel = ["note.txt".toList] := by
    intro rel m overwrite harm
    rcases hcases rel (by rw [harm]; exact nofun) with rfl | rfl
    · rfl
    · cases harm
  have hdownload : ∀ rel re, nextArm newOnBoth rel = .download re → rel = ["photo.jpg".toList] := by
    intro rel re harm
    rcases hcases rel (by rw [harm]; exact nofun) with rfl | rfl
    · cases harm
    · rfl
  constructor
  · refine ⟨rooted_put_top _ _, rooted_put_top _ _, fun p f _ hf => ?_⟩
    by_cases hp : p = ["note.txt".toList]
    · rw [hp]
      decide
    · rw [newOnBoth, file?_put_of_ne _ hp] at hf
      cases hf
  · intro rel m o harm
    rcases hcases rel (by rw [harm]; exact nofun) with rfl | rfl
    · cases harm
    · cases harm
  · intro rel m overwrite harm
    rw [hupload rel m overwrite harm]
    decide +kernel
  · intro rel re harm _
    obtain rfl := hdownload rel re harm
    have htemp : nextArm newOnBoth (tempOf ["photo.jpg".toList]) = .nothing := by decide +kernel
    refine ⟨by decide +kernel, fun re' hre' => ?_⟩
    cases hre'
  · intro rel re harm q hq
    obtain rfl := hdownload rel re harm
    rw [suffix_nil.mp hq]
    decide +kernel
  · intro rel m overwrite harm q hq
    obtain rfl := hupload rel m overwrite harm
    rw [suffix_nil.mp hq]
    decide +kernel

/-- One pass brings the two folders into step, and the next one does nothing. -/
theorem newOnBoth_settles : Orderly [] newOnBoth ∧ ((syncOnce [] id).under { mtime := 50 } newOnBoth).1 = .ok () ∧
      ∀ ls r u, (syncOnce [] id).Traced (Reading []) ((syncOnce [] id).under { mtime := 50 } newOnBoth).2 ls r u →
        u = ((syncOnce [] id).under { mtime := 50 } newOnBoth).2 ∧ ∀ l ∈ ls, l.quiet = true := by
  have hmeets : (syncOnce [] id).MeetsUnder Faithful { mtime := 50 } newOnBoth := by decide +kernel
  have hok : ((syncOnce [] id).under { mtime := 50 } newOnBoth).1 = .ok () := by decide +kernel
  have hfirst := traced_of_meetsUnder hmeets
  refine ⟨newOnBoth_orderly, hok, fun ls r u hsecond => ?_⟩
  exact second_pass_only_reads [] newOnBoth_orderly (fun l => List.Perm.refl l) hfirst hsecond

/-- A note that is new on this computer. -/
def newNote : State := { newOnBoth with remote := Table.empty }

/-- Luna gives the note a time of its own, and the next pass fetches it back. -/
theorem newNote_not_settled : ¬ ∀ ls t, (syncOnce [] id).Traced (Reading []) newNote ls (.ok ()) t →
      ∀ ls' r u, (syncOnce [] id).Traced (Reading []) t ls' r u → u = t ∧ ∀ l ∈ ls', l.quiet = true := by
  intro h
  have hok : ((syncOnce [] id).under { mtime := 100 } newNote).1 = .ok () := by decide +kernel
  have hfirst : (syncOnce [] id).Traced (Reading []) newNote _ _ _ :=
    traced_under (i := { mtime := 100 }) _ _ fun _ _ _ => rfl
  have hsecond := h _ _ hfirst _ _ _ (traced_under (i := { mtime := 100 }) _ _ fun _ _ _ => rfl)
  have hfetch : .download ["note.txt".toList] ∈ (syncOnce [] id).labelsUnder { mtime := 100 }
      ((syncOnce [] id).under { mtime := 100 } newNote).2 := by decide +kernel
  exact absurd (hsecond.2 _ hfetch) (by decide)

end LibreServ.Sync
