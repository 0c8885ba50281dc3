import LibreServ.Sync

/-! What a pass takes for a deletion. The remote walk gives up at the first folder it cannot list, so a
pass that goes on has the whole listing; the local walk leaves a folder it cannot read out, and a path
with a ledger entry that is missing from the walk counts as deleted on this computer. -/

namespace LibreServ.Sync

open FileTree Sections LibreServ.Files List Option Table Prog

variable {root rel : Path} {s t u : State} {ls : List Label} {env : Label → Input → State → Prop}

/-! ### What the walks find -/

/-- The file is on the disk, no name on its way starts with a dot, and all of its way can be read. -/
def SeenLocal (unread : List Path) (disk : Tree Text File) (path : Path) (f : File) : Prop :=
  Seen (ε := Empty) disk (fun d => .ok (!(d ∈ unread))) (fun p => .ok (takesLocal unread p)) path f

variable {unread : List Path} {disk : Tree Text File}

theorem mem_localFiles {path : Path} {f : File} :
    (path, f) ∈ localFiles unread disk ↔ SeenLocal unread disk path f := by
  obtain ⟨files, hfiles⟩ : ∃ files, walk (ε := Empty) disk (fun d => .ok (!(d ∈ unread)))
      (fun p => .ok (takesLocal unread p)) = .ok files := walk_isOk (fun d => ⟨_, rfl⟩) fun p => ⟨_, rfl⟩
  rw [localFiles, hfiles]
  exact mem_walk hfiles

/-- Reading more folders finds no fewer files. -/
theorem SeenLocal.of_unread {path : Path} {f : File}
    (h : SeenLocal unread disk path f) : SeenLocal [] disk path f := by
  refine Seen.mono (fun d _ => by simp) (fun p hp => ?_) h
  have htake : takesLocal unread p = true := Except.ok.inj hp
  rw [takesLocal, Bool.and_eq_true] at htake
  rw [takesLocal, htake.1]
  simp

theorem walkLocal_some {mine : LocalEntry} (h : (walkLocal unread disk).get? rel = some mine) :
    ∃ f, SeenLocal unread disk mine.path f ∧ rel = relOf mine.path ∧ mine.size = f.size ∧
      mine.mtime = f.mtime := by
  obtain ⟨⟨path, f⟩, hmem, heq⟩ := mem_map.mp (mem_of_get?_ofList h)
  obtain ⟨rfl, rfl⟩ := heq
  exact ⟨f, mem_localFiles.mp hmem, rfl, rfl, rfl⟩

theorem walkLocal_ne_none {path : Path} {f : File}
    (h : SeenLocal unread disk path f) : (walkLocal unread disk).get? (relOf path) ≠ none :=
  get?_ofList_ne_none (mem_map.mpr ⟨(path, f), mem_localFiles.mpr h, rfl⟩)

theorem walkLocal_of_unread
    (h : (walkLocal [] disk).get? rel = none) : (walkLocal unread disk).get? rel = none := by
  by_contra hne
  obtain ⟨mine, hmine⟩ := ne_none_iff_exists'.mp hne
  obtain ⟨f, hseen, rfl, -⟩ := walkLocal_some hmine
  exact walkLocal_ne_none hseen.of_unread h

/-- A remote walk that succeeded is the walk of a Luna that lists every folder. -/
theorem walkRemoteFiles_of_failing {failing : List (Path × String)} {remote : Tree Text File}
    {theirs : Table Path FileEntry} (h : walkRemoteFiles failing remote = .ok theirs) :
    walkRemoteFiles [] remote = .ok theirs := by
  rw [walkRemoteFiles] at h ⊢
  cases hw : walk remote (lists failing) takesRemote with
  | error e => simp [hw, Except.map] at h
  | ok files =>
    have hall : walk remote (lists []) takesRemote = .ok files := by
      refine walk_of_fewer_errors (fun d b hd => ?_) hw
      rw [lists] at hd
      split at hd
      · cases hd
      · exact hd
    rw [hw] at h
    rw [hall]
    exact h

/-! ### The sections of a path -/

/-- The label may occur while the pass follows `arm` for `rel`. -/
def Label.Fits (rel : Path) (arm : Arm) : Label → Prop
  | .delete r => r = rel ∧ arm = .delete
  | .quarantine r => r = rel ∧ ∃ mine, arm = .quarantine mine
  | .look _ => False
  | _ => True

/-- A section on the way of `arm` for `rel`: the ledger keeps its other entries. -/
def OnPath (rel : Path) (arm : Arm) (l : Label) (s t : State) : Prop :=
  l.Fits rel arm ∧ ∀ q, q ≠ rel → t.ledger.get? q = s.ledger.get? q

theorem download_ledger (rel dest : Path) (i : Input) (s : State) :
    (download rel dest i s).2.ledger = s.ledger := by
  rcases download_cases rel dest i s with ⟨e, h⟩ | ⟨disk, -, ⟨e, h⟩ | ⟨-, ⟨e, part, h⟩ | ⟨f, -, -, h⟩⟩⟩ <;>
    rw [h]

theorem start_ledger (root path rel : Path) (i : Input) (s : State) :
    (start root path rel i s).2.ledger = s.ledger := by
  rcases start_cases root rel path i s with ⟨e, h⟩ | ⟨place, remote, -, -, -, h⟩ <;> rw [h]

theorem finish_ledger (root path rel : Path) (overwrite : Bool) (i : Input) (s : State) :
    (finish root path rel overwrite i s).2.ledger = s.ledger := by
  rcases finish_cases root rel path i s overwrite with ⟨e, h⟩ | ⟨f, place, r, -, -, -, h⟩ <;> rw [h]

theorem toTrash_ledger (rel : Path) (i : Input) (s : State) : (toTrash rel i s).2.ledger = s.ledger := by
  rcases toTrash_cases rel i s with ⟨e, h⟩ | ⟨f, r, -, h⟩ <;> rw [h]

theorem moveAside_ledger (path : Path) (i : Input) (s : State) :
    (moveAside path i s).2.ledger = s.ledger := by
  rcases moveAside_cases path i s with ⟨e, h⟩ | ⟨f, -, h⟩
  · rw [h]
  · rw [h]
    rfl

theorem onPath_of_ledger {arm : Arm} {l : Label} (hl : l.Fits rel arm) (h : t.ledger = s.ledger) :
    OnPath rel arm l s t := ⟨hl, fun q _ => by rw [h]⟩

theorem uploadFile_onPath (path target : Path) (overwrite : Bool) (arm : Arm) :
    (uploadFile root path target overwrite).Only (OnPath rel arm) := by
  refine Prog.Only.bind (only_tryAct fun i s => ?_) fun _ => only_tryAct fun i s => ?_
  · exact onPath_of_ledger trivial (start_ledger root path target i s)
  · exact onPath_of_ledger trivial (finish_ledger root path target overwrite i s)

theorem downloadFile_onPath (dest : Path) (arm : Arm) : (downloadFile rel dest).Only (OnPath rel arm) :=
  only_tryAct fun i s => onPath_of_ledger trivial (download_ledger rel dest i s)

theorem record_onPath (entry : LedgerEntry) (arm : Arm) : (record rel entry).Only (OnPath rel arm) :=
  only_act fun _ s => ⟨trivial, fun _ hq => get?_put_of_ne s.ledger _ hq⟩

theorem forget_onPath (arm : Arm) : (forget rel).Only (OnPath rel arm) :=
  only_act fun _ s => ⟨trivial, fun q hq => by rw [get?_erase, if_neg hq]⟩

theorem stat_onPath (dest : Path) (arm : Arm) : (stat rel dest).Only (OnPath rel arm) :=
  only_look fun _ => ⟨trivial, fun _ _ => rfl⟩

theorem fetch_onPath (theirs : FileEntry) (arm : Arm) : (fetch rel theirs).Only (OnPath rel arm) := by
  refine Prog.Only.bind (only_ofExcept _) fun dest => ?_
  refine Prog.Only.bind (downloadFile_onPath dest arm) fun _ => ?_
  refine Prog.Only.bind (stat_onPath dest arm) fun f => ?_
  cases f with
  | none => trivial
  | some f => exact record_onPath _ arm

theorem keepBoth_onPath (mine : LocalEntry) (theirs : FileEntry) (arm : Arm) :
    (keepBoth root rel mine theirs).Only (OnPath rel arm) := by
  refine Prog.Only.bind (only_tryAct fun i s => ?_) fun copy => ?_
  · exact onPath_of_ledger trivial (moveAside_ledger mine.path i s)
  refine Prog.Only.bind (only_ofExcept _) fun dest => ?_
  refine Prog.Only.bind (downloadFile_onPath dest arm).attempt fun got => ?_
  cases got with
  | error e =>
    refine Prog.Only.bind (only_act fun i s => ?_) fun _ => trivial
    refine onPath_of_ledger trivial ?_
    split <;> rfl
  | ok _ =>
    refine Prog.Only.bind (stat_onPath dest arm) fun f => ?_
    refine Prog.Only.bind (record_onPath _ arm) fun _ => ?_
    exact Prog.Only.bind (uploadFile_onPath copy _ false arm).attempt fun _ => trivial

theorem syncPath_onPath (rel : Path) (arm : Arm) : (syncPath root rel arm).Only (OnPath rel arm) := by
  cases arm with
  | conflict mine theirs => exact keepBoth_onPath mine theirs _
  | upload mine overwrite =>
    exact Prog.Only.bind (uploadFile_onPath mine.path rel overwrite _) fun _ => record_onPath _ _
  | download theirs => exact fetch_onPath theirs _
  | adopt mine theirs => exact record_onPath _ _
  | quarantine mine =>
    refine Prog.Only.bind (only_act fun i s => ?_) fun moved => ?_
    · refine onPath_of_ledger ⟨rfl, mine, rfl⟩ ?_
      split
      · next t ht =>
          obtain ⟨disk, f, -, -, -, rfl⟩ := quarantineLocal_ok ht
          rfl
      · rfl
    · cases moved with
      | true => exact forget_onPath _
      | false => trivial
  | delete =>
    refine Prog.Only.bind (only_tryAct fun i s => ?_) fun _ => forget_onPath _
    exact onPath_of_ledger ⟨rfl, rfl⟩ (toTrash_ledger rel i s)
  | forget => exact forget_onPath _
  | nothing => trivial

variable {r : Except String Unit}

theorem syncPath_ledger {arm : Arm} (h : (syncPath root rel arm).Traced env s ls r t) {q : Path} (hq : q ≠ rel) :
    t.ledger.get? q = s.ledger.get? q := by
  have hrel : ∀ l s t, OnPath rel arm l s t → t.ledger.get? q = s.ledger.get? q := fun _ _ _ h => h.2 q hq
  exact (syncPath_onPath rel arm).runs hrel (fun _ => rfl) (fun _ _ _ h₁ h₂ => h₂.trans h₁) h.runs

theorem syncPath_holds_ledger (arm : Arm) (t : State) :
    (syncPath root rel arm).Holds env (fun _ _ => True) t fun _ u =>
      ∀ q, q ≠ rel → u.ledger.get? q = t.ledger.get? q := by
  refine (syncPath_onPath rel arm).holds (R := fun s t => ∀ q, q ≠ rel → t.ledger.get? q = s.ledger.get? q)
    (fun _ _ _ h => h.2) (fun _ _ _ => rfl) (fun s t u h₁ h₂ q hq => ?_) fun _ _ _ => trivial
  rw [h₂ q hq, h₁ q hq]

theorem fits_of_syncPath {arm : Arm} (h : (syncPath root rel arm).Traced env s ls r t) : ∀ l ∈ ls, l.Fits rel arm :=
  (syncPath_onPath rel arm).labels (fun _ _ _ h => h.1) h

theorem delete_mem_of_syncPath
    (h : (syncPath root rel .delete).Traced env s ls r t) : .delete rel ∈ ls := by
  rcases traced_bind h with ⟨e, h₁, -⟩ | ⟨a, u, ls₁, ls₂, h₁, -, rfl⟩
  · obtain ⟨i, -, rfl, -⟩ := traced_tryAct.mp h₁
    exact mem_singleton.mpr rfl
  · obtain ⟨i, -, rfl, -⟩ := traced_tryAct.mp h₁
    exact mem_append_left _ (mem_singleton.mpr rfl)

theorem quarantine_mem_of_syncPath {mine : LocalEntry}
    (h : (syncPath root rel (.quarantine mine)).Traced env s ls r t) : .quarantine rel ∈ ls := by
  rcases traced_bind h with ⟨e, h₁, -⟩ | ⟨a, u, ls₁, ls₂, h₁, -, rfl⟩
  · obtain ⟨i, -, rfl, -⟩ := traced_act.mp h₁
    exact mem_singleton.mpr rfl
  · obtain ⟨i, -, rfl, -⟩ := traced_act.mp h₁
    exact mem_append_left _ (mem_singleton.mpr rfl)

/-! ### The sections of a pass -/

/-- What the pass deletes and moves to the trash among the paths it comes to, by the three maps. -/
structure Acts (arms : Path → Arm) (ls : List Label) : Prop where
  delete : ∀ rel, .delete rel ∈ ls ↔ .look rel ∈ ls ∧ arms rel = .delete
  quarantine : ∀ rel, .quarantine rel ∈ ls ↔ .look rel ∈ ls ∧ ∃ mine, arms rel = .quarantine mine

theorem Acts.nil (arms : Path → Arm) : Acts arms [] := ⟨by simp, by simp⟩

/-- A path in front whose own sections are those of its arm. -/
theorem Acts.cons {arms : Path → Arm} {ls₁ ls₂ : List Label} (h₂ : Acts arms ls₂)
    (hfits : ∀ l ∈ ls₁, l.Fits rel (arms rel)) (hdelete : arms rel = .delete → .delete rel ∈ ls₁)
    (hquarantine : ∀ mine, arms rel = .quarantine mine → .quarantine rel ∈ ls₁) :
    Acts arms (.poll :: .look rel :: (ls₁ ++ ls₂)) := by
  have hlook : ∀ q, .look q ∉ ls₁ := fun q hq => hfits _ hq
  constructor
  · intro q
    simp only [mem_cons, reduceCtorEq, false_or, mem_append, hlook q, Label.look.injEq, h₂.delete q]
    constructor
    · rintro (hq | ⟨hq, harm⟩)
      · obtain ⟨rfl, harm⟩ := hfits _ hq
        exact ⟨.inl rfl, harm⟩
      · exact ⟨.inr hq, harm⟩
    · rintro ⟨rfl | hq, harm⟩
      · exact .inl (hdelete harm)
      · exact .inr ⟨hq, harm⟩
  · intro q
    simp only [mem_cons, reduceCtorEq, false_or, mem_append, hlook q, Label.look.injEq, h₂.quarantine q]
    constructor
    · rintro (hq | ⟨hq, harm⟩)
      · obtain ⟨rfl, harm⟩ := hfits _ hq
        exact ⟨.inl rfl, harm⟩
      · exact ⟨.inr hq, harm⟩
    · rintro ⟨rfl | hq, harm⟩
      · obtain ⟨mine, harm⟩ := harm
        exact .inl (hquarantine mine harm)
      · exact .inr ⟨hq, harm⟩

/-- The arm a pass takes for a path, by what it read at its start. -/
def armAt (mine : Table Path LocalEntry) (theirs : Table Path FileEntry) (ledger : Table Path LedgerEntry)
    (rel : Path) : Arm := armOf (mine.get? rel) (theirs.get? rel) (ledger.get? rel)

/-- The arm of a pass whose local walk cannot read some paths and whose remote walk succeeds. -/
def armIn (s : State) (unread : List Path) (rel : Path) : Arm :=
  match walkRemoteFiles [] s.remote with
  | .ok theirs => armAt (walkLocal unread s.disk) theirs s.ledger rel
  | .error _ => .nothing

variable {mine : Table Path LocalEntry} {theirs : Table Path FileEntry} {ledger : Table Path LedgerEntry}

/-- The path and then the rest of the loop. -/
def syncRest (root : Path) (mine : Table Path LocalEntry) (theirs : Table Path FileEntry) (rel : Path)
    (rest : List Path) (prev : Option LedgerEntry) : Job Unit := do
  syncPath root rel (armOf (mine.get? rel) (theirs.get? rel) prev)
  syncPaths root mine theirs rest

theorem traced_syncPaths_cons {rest : List Path} : (syncPaths root mine theirs (rel :: rest)).Traced env s ls r t ↔
      ∃ i, env .poll i s ∧ (i.stop = true ∧ ls = [.poll] ∧ r = .ok () ∧ t = s ∨
          i.stop = false ∧ ∃ j ls', env (.look rel) j s ∧ ls = .poll :: .look rel :: ls' ∧
            (syncRest root mine theirs rel rest (s.ledger.get? rel)).Traced env s ls' r t) := by
  constructor
  · rintro ⟨i, ls₁, hi, rfl, h⟩
    refine ⟨i, hi, ?_⟩
    change Prog.Traced env (bif i.stop then (Prog.done () : Job Unit)
      else sect (.look rel) (fun _ s => s) fun _ s => syncRest root mine theirs rel rest (s.ledger.get? rel)) s ls₁ r t at h
    cases hstop : i.stop with
    | true =>
      rw [hstop] at h
      obtain ⟨rfl, hr, ht⟩ := h
      exact .inl ⟨rfl, rfl, hr, ht⟩
    | false =>
      rw [hstop] at h
      obtain ⟨j, ls', hj, rfl, h⟩ := h
      exact .inr ⟨rfl, j, ls', hj, rfl, h⟩
  · rintro ⟨i, hi, h⟩
    have hsect : ∀ ls₁, Prog.Traced env (bif i.stop then (Prog.done () : Job Unit)
        else sect (.look rel) (fun _ s => s) fun _ s => syncRest root mine theirs rel rest (s.ledger.get? rel)) s ls₁ r t →
        (syncPaths root mine theirs (rel :: rest)).Traced env s (.poll :: ls₁) r t :=
      fun ls₁ h => ⟨i, ls₁, hi, rfl, h⟩
    rcases h with ⟨hstop, rfl, hr, ht⟩ | ⟨hstop, j, ls', hj, rfl, h⟩
    · refine hsect [] ?_
      rw [hstop]
      exact ⟨rfl, hr, ht⟩
    · refine hsect (.look rel :: ls') ?_
      rw [hstop]
      exact ⟨j, ls', hj, rfl, h⟩

/-- The loop reads the ledger as it is by then, but no path changes the entry of another. -/
theorem syncPaths_acts {rels : List Path}
    (h : (syncPaths root mine theirs rels).Traced env s ls r t) (hnodup : rels.Nodup)
    (hledger : ∀ q ∈ rels, s.ledger.get? q = ledger.get? q) : Acts (armAt mine theirs ledger) ls := by
  induction rels generalizing s ls with
  | nil =>
    obtain ⟨rfl, -⟩ := h
    exact Acts.nil _
  | cons rel rest ih =>
    obtain ⟨hrel, hrest⟩ := nodup_cons.mp hnodup
    obtain ⟨i, -, ⟨-, rfl, -, -⟩ | ⟨-, j, ls', -, rfl, hpaths⟩⟩ := traced_syncPaths_cons.mp h
    · exact ⟨by simp, by simp⟩
    have harm : armOf (mine.get? rel) (theirs.get? rel) (s.ledger.get? rel) =
        armAt mine theirs ledger rel := by
      rw [armAt, hledger rel mem_cons_self]
    rw [syncRest, harm] at hpaths
    have hown : ∀ {ls₁ r u}, (syncPath root rel (armAt mine theirs ledger rel)).Traced env s ls₁ r u →
        ∀ {ls₂}, Acts (armAt mine theirs ledger) ls₂ →
        Acts (armAt mine theirs ledger) (.poll :: .look rel :: (ls₁ ++ ls₂)) := by
      intro ls₁ r u hpath ls₂ hacts
      refine hacts.cons (fits_of_syncPath hpath) (fun hd => ?_) fun m hm => ?_
      · rw [hd] at hpath
        exact delete_mem_of_syncPath hpath
      · rw [hm] at hpath
        exact quarantine_mem_of_syncPath hpath
    rcases traced_bind hpaths with ⟨e, hpath, -⟩ | ⟨v, u, ls₁, ls₂, hpath, hloop, rfl⟩
    · have hacts := hown hpath (Acts.nil _)
      rwa [append_nil] at hacts
    · refine hown hpath (ih hloop hrest fun q hq => ?_)
      have hne : q ≠ rel := fun hqr => hrel (hqr ▸ hq)
      rw [syncPath_ledger hpath hne]
      exact hledger q (mem_cons_of_mem rel hq)

/-- A trace of a pass: the remote walk fails and nothing else happens, or the loop runs over the paths
of the three maps. -/
theorem traced_syncOnce {order : List Path → List Path} (h : (syncOnce root order).Traced env s ls r t) :
    ls = [.walkRemote] ∧ t = s ∧ r ≠ .ok () ∨
      ∃ i theirs ls', walkRemoteFiles [] s.remote = .ok theirs ∧ env .walkLocal i s ∧
        ls = .walkRemote :: .walkLocal :: .ledgerKeys :: ls' ∧
        (syncPaths root (walkLocal i.unread s.disk) theirs
          (order (allPaths (walkLocal i.unread s.disk) theirs s.ledger.keys))).Traced env s ls' r t := by
  rcases traced_bind h with ⟨e, h₁, rfl⟩ | ⟨theirs, u, ls₁, ls₂, h₁, h₂, rfl⟩
  · obtain ⟨i, -, rfl, -, rfl⟩ := traced_tryAct.mp h₁
    exact .inl ⟨rfl, rfl, nofun⟩
  · obtain ⟨i, -, rfl, hok, rfl⟩ := traced_tryAct.mp h₁
    obtain ⟨j, ls₃, hj, rfl, k, ls₄, -, rfl, h₃⟩ := h₂
    exact .inr ⟨j, theirs, ls₄, walkRemoteFiles_of_failing hok.symm, hj, rfl, h₃⟩

/-! ### A folder that cannot be read -/

/-- The local walk cannot read these paths; the other inputs are anything, the answers of Luna to the
remote walk among them. -/
def Reading (unread : List Path) (l : Label) (i : Input) (_ : State) : Prop :=
  l = .walkLocal → i.unread = unread

/-- What the pass does about a path when both walks read everything. -/
def armWhenRead (s : State) (rel : Path) : Arm := armIn s [] rel

/-- Every pass with these paths unread deletes and moves to the trash what a pass that reads everything
would, among the paths it comes to. -/
def ActsAsIfRead (root : Path) (s : State) (unread : List Path) : Prop :=
  ∀ order : List Path → List Path, (∀ l, (order l).Perm l) → ∀ ls r t,
    (syncOnce root order).Traced (Reading unread) s ls r t → Acts (armWhenRead s) ls

/-- No path of the ledger is there and missing from the walk. -/
def MissesNoEntry (s : State) (unread : List Path) : Prop :=
  ∀ rel, s.ledger.get? rel ≠ none → (walkLocal [] s.disk).get? rel ≠ none →
    (walkLocal unread s.disk).get? rel ≠ none

theorem armOf_delete {m : Option LocalEntry} {o : Option FileEntry} {p : Option LedgerEntry} :
    armOf m o p = .delete ↔ m = none ∧ o ≠ none ∧ p ≠ none := by
  cases m <;> cases o <;> cases p <;> simp [armOf]
  all_goals repeat' split
  all_goals simp

theorem armOf_quarantine {m : Option LocalEntry} {o : Option FileEntry} {p : Option LedgerEntry} :
    (∃ mine, armOf m o p = .quarantine mine) ↔ m ≠ none ∧ o = none ∧ p ≠ none := by
  cases m <;> cases o <;> cases p <;> simp [armOf]
  all_goals repeat' split
  all_goals simp

theorem Acts.congr {arms arms' : Path → Arm} (h : Acts arms ls)
    (hdelete : ∀ rel, arms rel = .delete ↔ arms' rel = .delete)
    (hquarantine : ∀ rel, (∃ m, arms rel = .quarantine m) ↔ ∃ m, arms' rel = .quarantine m) :
    Acts arms' ls :=
  ⟨fun rel => by rw [h.delete rel, hdelete rel], fun rel => by rw [h.quarantine rel, hquarantine rel]⟩

theorem MissesNoEntry.acts (h : MissesNoEntry s unread) {order : List Path → List Path}
    (horder : ∀ l, (order l).Perm l) {r : Except String Unit}
    (htr : (syncOnce root order).Traced (Reading unread) s ls r t) : Acts (armWhenRead s) ls := by
  rcases traced_syncOnce htr with ⟨rfl, -, -⟩ | ⟨i, theirs, ls', htheirs, hi, rfl, hloop⟩
  · exact ⟨by simp, by simp⟩
  rw [hi rfl] at hloop
  have hnodup : (order (allPaths (walkLocal unread s.disk) theirs s.ledger.keys)).Nodup :=
    (horder _).nodup_iff.mpr (nodup_dedup _)
  have hacts : Acts (armAt (walkLocal unread s.disk) theirs s.ledger) ls' :=
    syncPaths_acts hloop hnodup fun _ _ => rfl
  have hsame : Acts (armWhenRead s) ls' := by
    refine hacts.congr (fun rel => ?_) fun rel => ?_
    · simp only [armWhenRead, armIn, htheirs, armAt, armOf_delete]
      constructor
      · rintro ⟨hm, ho, hp⟩
        exact ⟨by_contra fun hne => h rel hp hne hm, ho, hp⟩
      · rintro ⟨hm, ho, hp⟩
        exact ⟨walkLocal_of_unread hm, ho, hp⟩
    · simp only [armWhenRead, armIn, htheirs, armAt, armOf_quarantine]
      constructor
      · rintro ⟨hm, ho, hp⟩
        exact ⟨fun hnone => hm (walkLocal_of_unread hnone), ho, hp⟩
      · rintro ⟨hm, ho, hp⟩
        exact ⟨h rel hp hm, ho, hp⟩
  constructor
  · intro rel
    simp only [mem_cons, reduceCtorEq, false_or, hsame.delete rel]
  · intro rel
    simp only [mem_cons, reduceCtorEq, false_or, hsame.quarantine rel]

/-- A pass that is stopped before it comes to the next path. -/
theorem exists_stopped (root : Path) (unread : List Path) (rels : List Path) (s : State) :
    ∃ ls, (syncPaths root mine theirs rels).Traced (Reading unread) s ls (.ok ()) s ∧
      ∀ rel, .quarantine rel ∉ ls := by
  cases rels with
  | nil => exact ⟨[], ⟨rfl, rfl, rfl⟩, by simp⟩
  | cons rel rest =>
    refine ⟨[.poll], traced_syncPaths_cons.mpr ⟨{ stop := true }, nofun, ?_⟩, by simp⟩
    exact .inl ⟨rfl, rfl, rfl, rfl⟩

/-- The order that comes to `rel` first. -/
def firstTo (rel : Path) (l : List Path) : List Path := if rel ∈ l then rel :: l.erase rel else l

theorem firstTo_perm (rel : Path) (l : List Path) : (firstTo rel l).Perm l := by
  rw [firstTo]
  split
  · next h => exact (perm_cons_erase h).symm
  · exact List.Perm.refl l

/-- The pass that comes to `rel` first, by the sections that follow. -/
theorem traced_firstTo (root : Path) (unread : List Path) {r : Except String Unit}
    (htheirs : walkRemoteFiles [] s.remote = .ok theirs) (hrel : s.ledger.get? rel ≠ none)
    (h : (syncRest root (walkLocal unread s.disk) theirs rel
      ((allPaths (walkLocal unread s.disk) theirs s.ledger.keys).erase rel) (s.ledger.get? rel)).Traced
      (Reading unread) s ls r t) :
    (syncOnce root (firstTo rel)).Traced (Reading unread) s
      (.walkRemote :: .walkLocal :: .ledgerKeys :: .poll :: .look rel :: ls) r t := by
  have hmem : rel ∈ allPaths (walkLocal unread s.disk) theirs s.ledger.keys := by
    rw [allPaths, mem_dedup]
    exact mem_append_right _ (Table.mem_keys.mpr (ne_none_iff_exists'.mp hrel))
  have hloop : (syncPaths root (walkLocal unread s.disk) theirs
      (firstTo rel (allPaths (walkLocal unread s.disk) theirs s.ledger.keys))).Traced (Reading unread) s
      (.poll :: .look rel :: ls) r t := by
    rw [firstTo, if_pos hmem]
    exact traced_syncPaths_cons.mpr ⟨{}, nofun, .inr ⟨rfl, {}, ls, nofun, rfl, h⟩⟩
  refine ⟨{}, _, nofun, rfl, ?_⟩
  change Prog.Traced _ (ofExcept (walkRemoteFiles [] s.remote) >>= _) s _ r t
  rw [htheirs]
  exact ⟨{ unread := unread }, _, fun _ => rfl, rfl, {}, _, nofun, rfl, hloop⟩

/-- A pass with unreadable paths deletes and moves to the trash what it would with all of them read,
exactly when Luna's listing is refused or no path of the ledger is missed. -/
theorem actsAsIfRead_iff (root : Path) (s : State) (unread : List Path) : ActsAsIfRead root s unread ↔
      (∃ e, walkRemoteFiles [] s.remote = .error e) ∨ MissesNoEntry s unread := by
  constructor
  · intro h
    cases htheirs : walkRemoteFiles [] s.remote with
    | error e => exact .inl ⟨e, rfl⟩
    | ok theirs =>
      refine .inr fun rel hledger hthere hmissed => ?_
      have hread : armWhenRead s rel = armAt (walkLocal [] s.disk) theirs s.ledger rel := by
        rw [armWhenRead, armIn, htheirs]
      cases ho : theirs.get? rel with
      | some found =>
        -- on Luna still: the pass sends the deletion, and it fails here
        have harm : armOf ((walkLocal unread s.disk).get? rel) (theirs.get? rel) (s.ledger.get? rel) =
            .delete := armOf_delete.mpr ⟨hmissed, by simp [ho], hledger⟩
        have hsend : (deletePath rel).Traced (Reading unread) s [.delete rel]
            (toTrash rel { error := some notFound } s).1 (toTrash rel { error := some notFound } s).2 :=
          traced_tryAct.mpr ⟨{ error := some notFound }, nofun, rfl, rfl, rfl⟩
        have hfail : (toTrash rel { error := some notFound } s).1 = .error notFound := by
          rw [toTrash]
          split <;> rfl
        rw [hfail] at hsend
        have hpass := traced_firstTo root unread htheirs hledger (by
          rw [syncRest, harm]
          exact hsend.bind_error.bind_error)
        have hdelete := ((h _ (firstTo_perm rel) _ _ _ hpass).delete rel).mp (by simp)
        rw [hread] at hdelete
        exact hthere (armOf_delete.mp hdelete.2).1
      | none =>
        -- gone from Luna: the pass should have moved the file to the trash, and forgets it
        have harm : armOf ((walkLocal unread s.disk).get? rel) (theirs.get? rel) (s.ledger.get? rel) =
            .forget := by
          obtain ⟨entry, hentry⟩ := ne_none_iff_exists'.mp hledger
          rw [hmissed, ho, hentry]
          rfl
        obtain ⟨ls, hstop, hnot⟩ := exists_stopped root unread _ _
        have hpass := traced_firstTo root unread htheirs hledger (by
          rw [syncRest, harm]
          exact ⟨{}, ls, nofun, rfl, hstop⟩)
        have hmove : ∃ mine, armWhenRead s rel = .quarantine mine := by
          rw [hread]
          exact armOf_quarantine.mpr ⟨hthere, ho, hledger⟩
        have hmoved := ((h _ (firstTo_perm rel) _ _ _ hpass).quarantine rel).mpr ⟨by simp, hmove⟩
        simp [hnot] at hmoved
  · rintro (⟨e, he⟩ | h) order horder ls r t htr
    · rcases traced_syncOnce htr with ⟨rfl, -, -⟩ | ⟨i, theirs, ls', htheirs, -⟩
      · exact ⟨by simp, by simp⟩
      · rw [he] at htheirs
        cases htheirs
    · exact h.acts horder htr

/-- A folder with one file that both sides and the ledger agree on. -/
def inStep : State where
  disk := (Table.empty.put ["docs".toList] .dir).put ["a.txt".toList, "docs".toList] (.file ⟨[1, 2, 3], 50⟩)
  remote := (Table.empty.put ["docs".toList] .dir).put ["a.txt".toList, "docs".toList] (.file ⟨[1, 2, 3], 60⟩)
  trash := []
  ledger := Table.empty.put ["a.txt".toList, "docs".toList] ⟨3, 50, 60⟩

/-- The folder cannot be read once: the file in it is deleted on Luna. -/
theorem unreadFolder_not_asIfRead : ¬ ActsAsIfRead [] inStep [["docs".toList]] := by
  intro h
  have hacts := h id (fun l => List.Perm.refl l) _ _ _
    (traced_under (i := { unread := [["docs".toList]] }) _ _ fun _ _ _ => rfl)
  have hsent : .delete ["a.txt".toList, "docs".toList] ∈
      (syncOnce [] id).labelsUnder { unread := [["docs".toList]] } inStep := by decide +kernel
  have harm : armWhenRead inStep ["a.txt".toList, "docs".toList] ≠ .delete := by decide +kernel
  exact harm ((hacts.delete _).mp hsent).2

end LibreServ.Sync
