import LibreServ.FailedCalls
import LibreServ.PrivateTrash

/-! When a failed call has changed nothing. An item that has moved on disk goes back if its rows do not follow, and
folders made for it are taken away again. No step after that is undone: not the origin of a trash entry, not the
grants, and not the trash itself, which a delete makes first. -/

namespace LibreServ.Files

open FileTree List Option Table Except

variable {rel newName : Text}

theorem Drive.Same.refl (s : Drive) : s.Same s := ⟨fun _ => rfl, fun _ => rfl, fun _ => rfl⟩

theorem Stores.Same.refl (w : Stores) : w.Same w := ⟨Drive.Same.refl w.drive, fun _ _ => rfl⟩

/-- Another tree with the same entries. -/
theorem Stores.Same.of_disk {w : Stores} {t : Tree Text (List UInt8)} (h : ∀ p, t.get? p = w.drive.disk.get? p) :
    Stores.Same { w with drive := { w.drive with disk := t } } w :=
  ⟨⟨h, fun _ => rfl, fun _ => rfl⟩, fun _ _ => rfl⟩

section Runs

variable {α β : Type} {x : Act α} {f : α → Act β} {w w' : Stores} {err : FilesError} {a : α}

theorem run_of_ok (h : x w = .ok a w') : (x >>= f) w = f a w' := by
  show EStateM.bind x f w = f a w'
  rw [EStateM.bind, h]

theorem run_of_error (h : x w = .error err w') : (x >>= f) w = .error err w' := by
  show EStateM.bind x f w = .error err w'
  rw [EStateM.bind, h]

theorem step_of_goes {goes : Bool} (h : goes = true) : step goes w = .ok () w := by
  rw [step, if_pos h]
  rfl

theorem step_of_not_goes {goes : Bool} (h : ¬ goes = true) : step goes w = .error (.io "database error") w := by
  rw [step, if_neg h]
  rfl

/-- If the call fails, the stores are as they were. -/
def Unharmed (x : Act α) (w : Stores) : Prop := ∀ err w', x w = .error err w' → w'.Same w

theorem unharmed_of_ok (h : x w = .ok a w') : Unharmed x w := by
  intro err w'' h'
  rw [h] at h'
  cases h'

theorem unharmed_of_error (h : x w = .error err w') (hs : w'.Same w) : Unharmed x w := by
  intro err' w'' h'
  rw [h] at h'
  obtain ⟨-, rfl⟩ := EStateM.Result.error.inj h'
  exact hs

theorem not_unharmed (h : x w = .error err w') (hs : ¬ w'.Same w) : ¬ Unharmed x w := fun hu => hs (hu err w' h)

theorem reads_of_ok {check : Drive → Except FilesError α} (h : check w.drive = .ok a) : reads check w = .ok a w := by
  rw [reads, h]

/-- What is checked first decides, and then what comes after it. -/
theorem unharmed_reads {check : Drive → Except FilesError α} :
    Unharmed (reads check >>= f) w ↔ ∀ a, check w.drive = .ok a → Unharmed (f a) w := by
  cases hc : check w.drive with
  | error err =>
    have hr : reads check w = .error err w := by rw [reads, hc]
    exact ⟨fun _ _ ha => (nomatch ha), fun _ => unharmed_of_error (run_of_error hr) (Stores.Same.refl w)⟩
  | ok a =>
    have hr : reads check w = .ok a w := reads_of_ok hc
    have hrun : (reads check >>= f) w = f a w := run_of_ok hr
    constructor
    · intro h a' ha'
      cases ha'
      intro err w' hf
      exact h err w' (hrun.trans hf)
    · intro h err w' hf
      exact h a rfl err w' (hrun.symm.trans hf)

end Runs

/-! ### Grants -/

section Grants

variable {e : Steps} {driveId path : Text} {table : SubjectTable}
  (write : Text → Table Text Subject → Table Text Subject)

/-- Whether the statements on one table go through. -/
def TableGoes (e : Steps) (driveId path : Text) (w : Stores) (table : SubjectTable) : Prop :=
  e.selects table = true ∧ ∀ id ∈ matching driveId path (w.subjects table), e.rows table id = true

/-- The drive is not touched, and the step goes through exactly if the condition holds. -/
structure Aside {α : Type} (x : Act α) (w : Stores) (goes : Prop) : Prop where
  ok : goes → ∃ a w', x w = .ok a w' ∧ w'.drive = w.drive
  error : ¬ goes → ∃ err w', x w = .error err w' ∧ w'.drive = w.drive

theorem Aside.bind {α β : Type} {x : Act α} {f : α → Act β} {w : Stores} {p q : Prop} (hx : Aside x w p)
    (hf : ∀ a w', x w = .ok a w' → Aside (f a) w' q) : Aside (x >>= f) w (p ∧ q) := by
  constructor
  · rintro ⟨hp, hq⟩
    obtain ⟨a, w₁, hrun, hdrive⟩ := hx.ok hp
    obtain ⟨b, w₂, hrun', hdrive'⟩ := (hf a w₁ hrun).ok hq
    exact ⟨b, w₂, by rw [run_of_ok hrun, hrun'], hdrive'.trans hdrive⟩
  · intro hno
    by_cases hp : p
    · obtain ⟨a, w₁, hrun, hdrive⟩ := hx.ok hp
      obtain ⟨err, w₂, hrun', hdrive'⟩ := (hf a w₁ hrun).error fun hq => hno ⟨hp, hq⟩
      exact ⟨err, w₂, by rw [run_of_ok hrun, hrun'], hdrive'.trans hdrive⟩
    · obtain ⟨err, w₁, hrun, hdrive⟩ := hx.error hp
      exact ⟨err, w₁, run_of_error hrun, hdrive⟩

theorem Aside.after {α β : Type} {x : Act α} {f : α → Act β} {w w' : Stores} {a : α} {p : Prop} (h : x w = .ok a w')
    (hdrive : w'.drive = w.drive) (hf : Aside (f a) w' p) : Aside (x >>= f) w p := by
  have hx : Aside x w True := ⟨fun _ => ⟨a, w', h, hdrive⟩, fun hno => absurd trivial hno⟩
  rw [← true_and p]
  refine hx.bind fun b w₁ hrun => ?_
  cases h.symm.trans hrun
  exact hf

theorem aside_step (goes : Bool) (w : Stores) : Aside (step goes) w (goes = true) :=
  ⟨fun h => ⟨(), w, step_of_goes h, rfl⟩, fun h => ⟨_, w, step_of_not_goes h, rfl⟩⟩

theorem eachRow_aside (ids : List Text) (w : Stores) :
    Aside (eachRow e table write ids) w (∀ id ∈ ids, e.rows table id = true) := by
  induction ids generalizing w with
  | nil => exact ⟨fun _ => ⟨(), w, rfl, rfl⟩, fun h => absurd (fun _ hid => (nomatch hid)) h⟩
  | cons id ids ih =>
    rw [forall_mem_cons]
    exact (aside_step (e.rows table id) w).bind fun _ w' _ => .after (rfl : onTable table (write id) w' = _) rfl (ih _)

theorem eachRow_other {ids : List Text} {w w' : Stores} (h : eachRow e table write ids w = .ok () w') {other : SubjectTable}
    (hne : other ≠ table) : w'.subjects other = w.subjects other := by
  induction ids generalizing w with
  | nil =>
    cases h
    rfl
  | cons id ids ih =>
    by_cases hid : e.rows table id = true
    · rw [eachRow, run_of_ok (step_of_goes hid)] at h
      exact (ih h).trans (Function.update_of_ne hne _ _)
    · rw [eachRow, run_of_error (step_of_not_goes hid)] at h
      cases h

theorem inTable_aside (w : Stores) (table : SubjectTable) :
    Aside (inTable e driveId path write table) w (TableGoes e driveId path w table) := by
  refine (aside_step (e.selects table) w).bind fun _ w' hrun => ?_
  rw [step] at hrun
  split at hrun
  · cases hrun
    exact .after (rfl : (get : Act Stores) w = .ok w w) rfl (eachRow_aside write _ w)
  · cases hrun

theorem inTable_other {w w' : Stores} (h : inTable e driveId path write table w = .ok () w') {other : SubjectTable}
    (hne : other ≠ table) : w'.subjects other = w.subjects other := by
  by_cases hselect : e.selects table = true
  · rw [inTable, run_of_ok (step_of_goes hselect)] at h
    exact eachRow_other write h hne
  · rw [inTable, run_of_error (step_of_not_goes hselect)] at h
    cases h

/-- One table after the other. -/
theorem inTables_aside (e : Steps) (driveId path : Text) (w : Stores) :
    Aside (inTable e driveId path write .members >>= fun _ => inTable e driveId path write .links) w
      (∀ table, TableGoes e driveId path w table) := by
  have hboth : (∀ table, TableGoes e driveId path w table) ↔
      TableGoes e driveId path w .members ∧ TableGoes e driveId path w .links :=
    ⟨fun h => ⟨h .members, h .links⟩, fun h table => by
      cases table with
      | members => exact h.1
      | links => exact h.2⟩
  rw [hboth]
  refine (inTable_aside write w .members).bind fun _ w' hrun => ?_
  rw [TableGoes, ← inTable_other write hrun (show SubjectTable.links ≠ .members by decide)]
  exact inTable_aside write w' .links

/-- Whether the grants on a path and beneath it can follow a move. -/
def RepathGoes (e : Steps) (driveId path : Text) (w : Stores) : Prop :=
  normalizeSubjectPath path = [] ∨
    (e.forwards = true ∧ ∀ table, TableGoes e driveId (normalizeSubjectPath path) w table)

theorem repathSubjects_aside (e : Steps) (driveId path newPath : Text) (w : Stores) :
    Aside (repathSubjects e driveId path newPath) w (RepathGoes e driveId path w) := by
  by_cases hnil : normalizeSubjectPath path = []
  · have hrun : repathSubjects e driveId path newPath w = .ok () w := by
      rw [repathSubjects, if_pos hnil]
      rfl
    exact ⟨fun _ => ⟨(), w, hrun, rfl⟩, fun h => absurd (.inl hnil) h⟩
  · rw [RepathGoes, or_iff_right hnil, repathSubjects, if_neg hnil]
    refine (aside_step e.forwards w).bind fun _ w' hrun => ?_
    rw [step] at hrun
    split at hrun
    · cases hrun
      exact inTables_aside _ e driveId _ w
    · cases hrun

/-- Whether the grants on a path and beneath it can be revoked. -/
def DropGoes (e : Steps) (driveId path : Text) (w : Stores) : Prop :=
  normalizeSubjectPath path = [] ∨ ∀ table, TableGoes e driveId (normalizeSubjectPath path) w table

theorem dropSubjectsUnder_aside (e : Steps) (driveId path : Text) (w : Stores) :
    Aside (dropSubjectsUnder e driveId path) w (DropGoes e driveId path w) := by
  by_cases hnil : normalizeSubjectPath path = []
  · have hrun : dropSubjectsUnder e driveId path w = .ok () w := by
      rw [dropSubjectsUnder, if_pos hnil]
      rfl
    exact ⟨fun _ => ⟨(), w, hrun, rfl⟩, fun h => absurd (.inl hnil) h⟩
  · rw [DropGoes, or_iff_right hnil, dropSubjectsUnder, if_neg hnil]
    exact inTables_aside (fun id t => t.erase id) e driveId (normalizeSubjectPath path) w

end Grants

/-! ### An item on its way -/

section Carrying

variable {e : Steps} {formHash : Text → Text} {c : Carry} {s s' : Drive} {os : Os}

/-- The disk and the rows let the item through. -/
def Carry.Goes (e : Steps) (c : Carry) (s : Drive) : Prop :=
  ∃ s', c.onDisk e.os s = .ok s' ∧ (c.src = c.dst ∨ (e.repaths = true ∧ ∃ s'', repath c.src c.dst s' = .ok s''))

/-- The names a plan gives. A private item lands under its name on disk, any other under a name that is not Luna's;
one that stays on disk gets a path that no row has. -/
structure Carry.Named (c : Carry) (s : Drive) : Prop where
  lands : c.stays = false → ∀ x d, c.target = x :: d →
    s.layout.isDiskName x = true ∨ (x = c.dstName ∧ isLunaName x = false)
  stays : c.stays = true → s.items.get? c.src ≠ none ∧ s.items.get? c.dst = none

/-- The item is at its new place. -/
def Carry.Landed (c : Carry) (s s' : Drive) : Prop :=
  if c.stays then s.items.get? c.dst = none ∧ s'.items.get? c.dst ≠ none
  else s.disk.get? c.target = none ∧ s'.disk.get? c.target ≠ none

theorem Carry.Landed.not_same (h : c.Landed s s') : ¬ s'.Same s := by
  intro hsame
  unfold Landed at h
  split at h
  · exact h.2 ((hsame.items c.dst).trans h.1)
  · exact h.2 ((hsame.disk c.target).trans h.1)

/-- An item that has moved on disk and goes back is where it was. -/
theorem Carry.get?_back (hg : Grown s.disk) (h : c.onDisk os s = .ok s') (p : Path) :
    (c.back s'.disk).get? p = s.disk.get? p := by
  unfold Carry.onDisk at h
  unfold Carry.back
  split at h
  · rename_i hstays
    rw [if_pos hstays, ok.inj h]
  rename_i hstays
  obtain ⟨-, -, hne, hfree, -, -, -, rfl⟩ := Drive.renameNoreplace_ok h
  rw [if_neg hstays]
  refine get?_relocate_back (fun q v hq hsuf => ?_) p
  obtain ⟨v', hv'⟩ := hg.taken_above hq hsuf hne
  rw [hfree] at hv'
  cases hv'

theorem Carry.onDisk_rows (h : c.onDisk os s = .ok s') :
    s'.layout = s.layout ∧ s'.items = s.items ∧ s'.trashMeta = s.trashMeta := by
  unfold Carry.onDisk at h
  split at h
  · rw [ok.inj h]
    exact ⟨rfl, rfl, rfl⟩
  · rw [(Drive.renameNoreplace_ok h).2.2.2.2.2.2.2]
    exact ⟨rfl, rfl, rfl⟩

/-- What the call leaves of an item that the disk or the rows turn away. -/
theorem carry_error (formHash : Text → Text) {w : Stores} (hg : Grown w.drive.disk) (undo : Tree Text (List UInt8) → Tree Text (List UInt8))
    (h : ¬ c.Goes e w.drive) :
    ∃ err t, carry e formHash c undo w = .error err { w with drive := { w.drive with disk := undo t } } ∧
      ∀ p, t.get? p = w.drive.disk.get? p := by
  cases hdisk : c.onDisk e.os w.drive with
  | error err =>
    refine ⟨err, w.drive.disk, ?_, fun _ => rfl⟩
    have hrun : orUndo (onDrive (c.onDisk e.os)) undo w =
        .error err { w with drive := { w.drive with disk := undo w.drive.disk } } := by
      rw [orUndo, onDrive, hdisk]
    rw [carry, run_of_error hrun]
  | ok s₁ =>
    have hrun : orUndo (onDrive (c.onDisk e.os)) undo w = .ok () { w with drive := s₁ } := by
      rw [orUndo, onDrive, hdisk]
    obtain ⟨hl, hi, hm⟩ := Carry.onDisk_rows hdisk
    have hback : { s₁ with disk := undo (c.back s₁.disk) } = { w.drive with disk := undo (c.back s₁.disk) } := by
      rw [Drive.mk.injEq]
      exact ⟨hl, rfl, hi, hm⟩
    have hne : c.src ≠ c.dst := fun heq => h ⟨s₁, hdisk, .inl heq⟩
    -- The transaction fails as a whole, for a reason of its own or because a path is another row's.
    have hrows : ∃ err, repathRows e c.src c.dst { w with drive := s₁ } = .error err { w with drive := s₁ } := by
      rw [repathRows, if_neg hne]
      by_cases hrepaths : e.repaths = true
      · cases hrepath : repath c.src c.dst s₁ with
        | ok s₂ => exact absurd ⟨s₁, hdisk, .inr ⟨hrepaths, s₂, hrepath⟩⟩ h
        | error err =>
          refine ⟨err, ?_⟩
          rw [run_of_ok (step_of_goes hrepaths), onDrive, hrepath]
      · exact ⟨_, run_of_error (step_of_not_goes hrepaths)⟩
    obtain ⟨err, hrows⟩ := hrows
    refine ⟨err, c.back s₁.disk, ?_, Carry.get?_back hg hdisk⟩
    have hundo : orUndo (repathRows e c.src c.dst) (fun t => undo (c.back t)) { w with drive := s₁ } =
        .error err { w with drive := { w.drive with disk := undo (c.back s₁.disk) } } := by
      rw [orUndo, hrows, ← hback]
    rw [carry, run_of_ok hrun, run_of_error hundo]

/-- A companion that goes to the folder of `p` does not take `p` with it, unless it stands there itself. -/
theorem moveIfPresent_keeps (os : Os) (y : Text) (hg : Grown s.disk) {a p : Path} (hp : s.disk.get? p ≠ none) (hne : a ≠ p) :
    (moveIfPresent os a (y :: p.tail) s).disk.get? p ≠ none ∧
      Grown (moveIfPresent os a (y :: p.tail) s).disk := by
  rcases Drive.moveIfPresent_cases os a (y :: p.tail) s with hsame | hr
  · rw [hsame]
    exact ⟨hp, hg⟩
  obtain ⟨-, ha, hb, hfree, -, hinto, hdir, hres⟩ := Drive.renameNoreplace_ok hr
  rw [hres]
  have hvacant : Table.Vacant a (y :: p.tail) s.disk := hg.vacant hb hfree
  have hout : ¬ a <:+ p := by
    intro hsuf
    cases p with
    | nil => exact ha (suffix_nil.mp hsuf)
    | cons n d =>
      rcases suffix_cons_iff.mp hsuf with heq | hsuf
      · exact hne heq
      · exact hinto (hsuf.trans (suffix_cons y d))
  constructor
  · obtain ⟨v, hv⟩ := ne_none_iff_exists'.mp hp
    rw [(get?_relocate_some hvacant).mpr (.inl ⟨hv, hout⟩)]
    exact some_ne_none v
  · exact hg.relocate ha (Drive.isDir_iff.mp hdir) (fun hsuf => hinto (hsuf.trans (suffix_cons y _))) hvacant

/-- The files of a form leave the form itself where it has landed. -/
theorem repathFormFilesNamed_keeps (hg : Grown s.disk) {path d : Path} {x srcName dstName : Text} (hpath : path ≠ [])
    (hx : s.layout.isDiskName x = true ∨ (x = dstName ∧ isLunaName x = false)) (hp : s.disk.get? (x :: d) ≠ none) :
    (repathFormFilesNamed os formHash path srcName (x :: d) dstName s).disk.get? (x :: d) ≠ none := by
  have hluna : ∀ seg, isLunaName seg = true → s.layout.isDiskName seg = false → seg ≠ x := by
    rintro seg hseg hdisk rfl
    rcases hx with hx | ⟨-, hx⟩
    · rw [hdisk] at hx
      cases hx
    · rw [hseg] at hx
      cases hx
  unfold repathFormFilesNamed
  split
  · exact hp
  have hdir : formDirName formHash s.layout srcName :: path.tail ≠ x :: d := by
    intro heq
    have hform := Drive.formDirName_luna s.layout formHash srcName []
    have hdisk : s.layout.isDiskName (formDirName formHash s.layout srcName ++ []) = false :=
      Layout.isDiskName_formDirName formHash []
    rw [append_nil] at hform hdisk
    exact hluna _ hform hdisk (cons.inj heq).1
  obtain ⟨hp', hg'⟩ := moveIfPresent_keeps os (formDirName formHash s.layout dstName) hg hp hdir
  have hlayout := (moveIfPresent_rows os (filesDirNamed formHash s.layout path srcName)
    (filesDirNamed formHash s.layout (x :: d) dstName) s).1
  unfold moveResponses
  split
  · next a b ha hb =>
      rw [hlayout] at ha hb
      obtain ⟨n, dp, rfl⟩ := exists_cons_of_ne_nil hpath
      obtain ⟨-, seg, rfl, hseg, hkind⟩ := Drive.responsesFileNamed_cases ha
      obtain ⟨hform, seg', rfl, -, -⟩ := Drive.responsesFileNamed_cases hb
      refine (moveIfPresent_keeps os seg' hg' hp' ?_).1
      intro heq
      obtain ⟨rfl, -⟩ := cons.inj heq
      rcases hkind with ⟨hkind, -⟩ | ⟨hkind, -⟩
      · exact hluna seg hkind hseg rfl
      · rcases hx with hx | ⟨hx, -⟩
        · rw [hseg] at hx
          cases hx
        · rw [← hx, hkind, Drive.responsesName_not_form] at hform
          cases hform
  · exact hp'

theorem carry_run (formHash : Text → Text) {w : Stores} (undo : Tree Text (List UInt8) → Tree Text (List UInt8))
    {s₁ s₂ : Drive} (hdisk : c.onDisk e.os w.drive = .ok s₁) (hrepath : repath c.src c.dst s₁ = .ok s₂)
    (hgoes : c.src = c.dst ∨ e.repaths = true) :
    carry e formHash c undo w =
      .ok () { w with drive := c.forms formHash e.os s₂ } := by
  have hrun₁ : orUndo (onDrive (c.onDisk e.os)) undo w = .ok () { w with drive := s₁ } := by
    rw [orUndo, onDrive, hdisk]
  have hrun₂ : repathRows e c.src c.dst { w with drive := s₁ } = .ok () { w with drive := s₂ } := by
    by_cases heq : c.src = c.dst
    · rw [repath, if_pos heq] at hrepath
      rw [repathRows, if_pos heq, ← ok.inj hrepath]
      rfl
    · rw [repathRows, if_neg heq, run_of_ok (step_of_goes (hgoes.resolve_left heq)), onDrive, hrepath]
  have hundo : orUndo (repathRows e c.src c.dst) (fun t => undo (c.back t)) { w with drive := s₁ } =
      .ok () { w with drive := s₂ } := by
    rw [orUndo, hrun₂]
  rw [carry, run_of_ok hrun₁, run_of_ok hundo, change]

/-- What the call leaves of an item that comes through. -/
theorem carry_ok (formHash : Text → Text) {w : Stores} (hg : Grown w.drive.disk)
    (undo : Tree Text (List UInt8) → Tree Text (List UInt8)) (hn : c.Named w.drive) (h : c.Goes e w.drive) :
    ∃ s', carry e formHash c undo w = .ok () { w with drive := s' } ∧ s'.trashMeta = w.drive.trashMeta ∧
      c.Landed w.drive s' := by
  obtain ⟨s₁, hdisk, hrows⟩ := h
  obtain ⟨hl₁, hi₁, hm₁⟩ := Carry.onDisk_rows hdisk
  obtain ⟨s₂, hrepath⟩ : ∃ s₂, repath c.src c.dst s₁ = .ok s₂ := by
    rcases hrows with heq | ⟨-, hs₂⟩
    · exact ⟨s₁, by rw [repath, if_pos heq]⟩
    · exact hs₂
  have hs₂ : s₂.layout = s₁.layout ∧ s₂.disk = s₁.disk := by
    by_cases heq : c.src = c.dst
    · rw [repath, if_pos heq] at hrepath
      rw [ok.inj hrepath]
      exact ⟨rfl, rfl⟩
    · rw [repath_ok hrepath heq]
      exact ⟨rfl, rfl⟩
  obtain ⟨-, hi₃, hm₃⟩ := repathFormFilesNamed_rows e.os formHash c.path c.srcName c.target c.dstName s₂
  refine ⟨c.forms formHash e.os s₂, ?_, ?_, ?_⟩
  · exact carry_run formHash undo hdisk hrepath (hrows.imp id And.left)
  · rw [Carry.forms, hm₃, repath_trashMeta hrepath, hm₁]
  · unfold Carry.Landed
    split
    · rename_i hstays
      obtain ⟨hsrc, hdst⟩ := hn.stays hstays
      have hne : c.src ≠ c.dst := by
        intro heq
        rw [heq] at hsrc
        exact hsrc hdst
      refine ⟨hdst, ?_⟩
      obtain ⟨item, hitem⟩ := ne_none_iff_exists'.mp hsrc
      rw [Carry.forms, hi₃, repath_ok hrepath hne, hi₁]
      exact get?_relocate_ne_none (q := []) hitem
    · rename_i hstays
      rw [Carry.onDisk, if_neg hstays] at hdisk
      obtain ⟨-, hpath, htarget0, hfree, ⟨v, hv⟩, hinto, hdir, rfl⟩ := Drive.renameNoreplace_ok hdisk
      obtain ⟨x, d, htarget⟩ := exists_cons_of_ne_nil htarget0
      have hx := hn.lands (Bool.not_eq_true _ ▸ hstays) x d htarget
      have hvacant : Table.Vacant c.path c.target w.drive.disk := hg.vacant htarget0 hfree
      have hgrown : Grown s₂.disk := by
        rw [hs₂.2, htarget]
        rw [htarget] at hvacant hinto hdir
        exact hg.relocate hpath (Drive.isDir_iff.mp hdir) (fun hsuf => hinto (hsuf.trans (suffix_cons x d))) hvacant
      have hlanded : s₂.disk.get? c.target ≠ none := by
        rw [hs₂.2]
        exact get?_relocate_ne_none (q := []) hv
      refine ⟨hfree, ?_⟩
      rw [Carry.forms]
      rw [htarget] at hlanded ⊢
      refine repathFormFilesNamed_keeps hgrown hpath ?_ hlanded
      rw [hs₂.1]
      exact hx

end Carrying

/-! ### What follows the move -/

/-- It goes through exactly if the condition holds, and leaves the disk and the private rows alone. -/
structure Trails {α : Type} (x : Act α) (w : Stores) (goes : Prop) : Prop where
  ok : goes → ∃ a w', x w = .ok a w' ∧ w'.drive.disk = w.drive.disk ∧ w'.drive.items = w.drive.items
  error : ¬ goes → ∃ err w', x w = .error err w' ∧ w'.drive.disk = w.drive.disk ∧ w'.drive.items = w.drive.items

theorem Aside.trails {α : Type} {x : Act α} {w : Stores} {goes : Prop} (h : Aside x w goes) : Trails x w goes := by
  constructor
  · intro hgoes
    obtain ⟨a, w', hrun, hdrive⟩ := h.ok hgoes
    exact ⟨a, w', hrun, by rw [hdrive], by rw [hdrive]⟩
  · intro hgoes
    obtain ⟨err, w', hrun, hdrive⟩ := h.error hgoes
    exact ⟨err, w', hrun, by rw [hdrive], by rw [hdrive]⟩

theorem Aside.andThen {α β : Type} {x : Act α} {f : α → Act β} {w : Stores} {p q : Prop} (hx : Aside x w p)
    (hf : ∀ a w', x w = .ok a w' → w'.drive = w.drive → Trails (f a) w' q) : Trails (x >>= f) w (p ∧ q) := by
  constructor
  · rintro ⟨hp, hq⟩
    obtain ⟨a, w₁, hrun, hdrive⟩ := hx.ok hp
    rw [run_of_ok hrun, ← hdrive]
    exact (hf a w₁ hrun hdrive).ok hq
  · intro hno
    by_cases hp : p
    · obtain ⟨a, w₁, hrun, hdrive⟩ := hx.ok hp
      rw [run_of_ok hrun, ← hdrive]
      exact (hf a w₁ hrun hdrive).error fun hq => hno ⟨hp, hq⟩
    · obtain ⟨err, w₁, hrun, hdrive⟩ := hx.error hp
      exact ⟨err, w₁, run_of_error hrun, by rw [hdrive], by rw [hdrive]⟩

section Following

variable {e : Steps} {formHash : Text → Text} {c : Carry} {w : Stores} {late : Act Unit} {goes : Prop}

theorem Carry.Landed.congr {s s₁ s₂ : Drive} (h : c.Landed s s₁) (hd : s₂.disk = s₁.disk) (hi : s₂.items = s₁.items) :
    c.Landed s s₂ := by
  unfold Landed at h ⊢
  rw [hd, hi]
  exact h

/-- A step that fails after the item has landed leaves it there. -/
theorem carry_late (formHash : Text → Text) (hg : Grown w.drive.disk) (hn : c.Named w.drive) (hgoes : c.Goes e w.drive)
    (hlate : ∀ s', s'.trashMeta = w.drive.trashMeta → Trails late { w with drive := s' } goes) :
    (goes → ∃ a w', (carry e formHash c id >>= fun _ => late) w = .ok a w') ∧
      (¬ goes → ∃ err w', (carry e formHash c id >>= fun _ => late) w = .error err w' ∧
        c.Landed w.drive w'.drive) := by
  obtain ⟨s', hrun, hmeta, hlanded⟩ := carry_ok formHash hg id hn hgoes
  rw [run_of_ok hrun]
  constructor
  · intro h
    obtain ⟨a, w', hw', -⟩ := (hlate s' hmeta).ok h
    exact ⟨a, w', hw'⟩
  · intro h
    obtain ⟨err, w', hw', hd, hi⟩ := (hlate s' hmeta).error h
    exact ⟨err, w', hw', hlanded.congr hd hi⟩

theorem unharmed_carry (hg : Grown w.drive.disk) (hn : c.Named w.drive)
    (hlate : ∀ s', s'.trashMeta = w.drive.trashMeta → Trails late { w with drive := s' } goes) :
    Unharmed (carry e formHash c id >>= fun _ => late) w ↔ (c.Goes e w.drive → goes) := by
  by_cases hgoes : c.Goes e w.drive
  · obtain ⟨hok, herror⟩ := carry_late formHash hg hn hgoes hlate
    by_cases h : goes
    · obtain ⟨a, w', hrun⟩ := hok h
      exact ⟨fun _ _ => h, fun _ => unharmed_of_ok hrun⟩
    · obtain ⟨err, w', hrun, hlanded⟩ := herror h
      exact ⟨fun hu => absurd hu (not_unharmed hrun fun hsame => hlanded.not_same hsame.drive),
        fun hg => absurd (hg hgoes) h⟩
  · obtain ⟨err, t, hrun, ht⟩ := carry_error formHash hg id hgoes
    exact ⟨fun _ h => absurd h hgoes, fun _ => unharmed_of_error (run_of_error hrun) (Stores.Same.of_disk ht)⟩

/-- Whether the origin of a top-level trash entry can be written under the entry's new name. -/
def RetitleGoes (e : Steps) (rel : Path) (s : Drive) : Prop :=
  ∀ entry, trashEntryParts rel = some (entry, false) → e.readsMeta = true → s.trashMeta.get? entry ≠ none →
    e.writesMeta = true

theorem removeTrashMeta_run (e : Steps) (entry : Text) (w : Stores) :
    ∃ w', removeTrashMeta e entry w = .ok () w' ∧ w'.drive.disk = w.drive.disk ∧ w'.drive.items = w.drive.items ∧
      w'.subjects = w.subjects := by
  unfold removeTrashMeta
  split
  · exact ⟨_, rfl, rfl, rfl, rfl⟩
  · exact ⟨w, rfl, rfl, rfl, rfl⟩

theorem forgetOriginIn_run (e : Steps) (rel : Path) (w : Stores) :
    ∃ w', forgetOriginIn e rel w = .ok () w' ∧ w'.drive.disk = w.drive.disk ∧ w'.drive.items = w.drive.items ∧
      w'.subjects = w.subjects := by
  rcases hparts : trashEntryParts rel with _ | ⟨entry, _ | _⟩
  · exact ⟨w, by rw [forgetOriginIn, hparts]; rfl, rfl, rfl, rfl⟩
  · rw [forgetOriginIn, hparts]
    exact removeTrashMeta_run e entry w
  · exact ⟨w, by rw [forgetOriginIn, hparts]; rfl, rfl, rfl, rfl⟩

theorem writeTrashMeta_ok (entry : Text) (origin : TrashMeta) (w : Stores) (h : e.writesMeta = true) :
    writeTrashMeta e entry origin w =
      .ok () { w with drive := { w.drive with trashMeta := w.drive.trashMeta.put entry origin } } := by
  rw [writeTrashMeta, run_of_ok (step_of_goes h), change]

theorem writeTrashMeta_error (entry : Text) (origin : TrashMeta) (w : Stores) (h : ¬ e.writesMeta = true) :
    writeTrashMeta e entry origin w = .error (.io "database error") w := by
  rw [writeTrashMeta, run_of_error (step_of_not_goes h)]

theorem retitleIn_trails (rel : Path) (newName : Text) (w : Stores) :
    Trails (retitleIn e rel newName) w (RetitleGoes e rel w.drive) := by
  have hget : (get : Act Stores) w = .ok w w := rfl
  by_cases hfound : ∃ entry found, trashEntryParts rel = some (entry, false) ∧ e.readsMeta = true ∧
      w.drive.trashMeta.get? entry = some found
  · obtain ⟨entry, found, hentry, hr, hfound⟩ := hfound
    have hiff : RetitleGoes e rel w.drive ↔ e.writesMeta = true := by
      refine ⟨fun h => h entry hentry hr (by rw [hfound]; exact some_ne_none _), fun h _ _ _ _ => h⟩
    constructor
    · intro h
      have hw := hiff.mp h
      rw [retitleIn, run_of_ok hget, hentry]
      simp only [hr, if_true, hfound]
      rw [run_of_ok (writeTrashMeta_ok _ _ w hw)]
      obtain ⟨w', hrun, hd, hi, -⟩ := removeTrashMeta_run e entry _
      exact ⟨(), w', hrun, hd, hi⟩
    · intro h
      have hw : ¬ e.writesMeta = true := fun hw => h (hiff.mpr hw)
      rw [retitleIn, run_of_ok hget, hentry]
      simp only [hr, if_true, hfound]
      rw [run_of_error (writeTrashMeta_error _ _ w hw)]
      exact ⟨_, w, rfl, rfl, rfl⟩
  · have hnone : ∀ entry, trashEntryParts rel = some (entry, false) → e.readsMeta = true →
        w.drive.trashMeta.get? entry = none := by
      intro entry hentry hr
      by_contra hne
      obtain ⟨found, hf⟩ := ne_none_iff_exists'.mp hne
      exact hfound ⟨entry, found, hentry, hr, hf⟩
    have hrun : retitleIn e rel newName w = .ok () w := by
      rw [retitleIn, run_of_ok hget]
      rcases hparts : trashEntryParts rel with _ | ⟨entry, _ | _⟩
      · rfl
      · have hread : (if e.readsMeta = true then w.drive.trashMeta.get? entry else none) = none := by
          split
          · rename_i hr
            exact hnone entry hparts hr
          · rfl
        simp only [hread]
        rfl
      · rfl
    exact ⟨fun _ => ⟨(), w, hrun, rfl, rfl⟩, fun h => absurd (fun entry he hr hm => absurd (hnone entry he hr) hm) h⟩

end Following

/-! ### The plans -/

section Plans

open Drive

variable {e : Steps} {formHash : Text → Text} {s : Drive} {w : Stores}

/-- An item lands under its name on disk, or under a name that is not Luna's. -/
theorem leaf_or_name (p : Path) {name : Text} (hname : isLunaName name = false) :
    s.layout.isDiskName ((s.diskLeaf p).getD name) = true ∨
      ((s.diskLeaf p).getD name = name ∧ isLunaName ((s.diskLeaf p).getD name) = false) := by
  cases hitem : s.items.get? p with
  | none =>
    rw [diskLeaf_none hitem]
    exact .inr ⟨rfl, hname⟩
  | some item =>
    rw [diskLeaf_some hitem]
    exact .inl (Layout.isDiskName_diskName item.id)

theorem renamePlan_named {p : RenamePlan} (h : renamePlan rel newName s = .ok p) :
    p.carry.Named s := by
  obtain ⟨newName', hname, h⟩ := bind_ok h
  obtain ⟨-, h⟩ := of_ite_error h
  obtain ⟨apiRel, -, h⟩ := bind_ok h
  obtain ⟨-, h⟩ := of_ite_error h
  obtain ⟨-, h⟩ := of_ite_error h
  obtain ⟨-, h⟩ := of_ite_error h
  obtain ⟨path, -, h⟩ := bind_ok h
  obtain ⟨hfree, h⟩ := of_ite_error h
  obtain ⟨-, h⟩ := of_ite_error h
  obtain rfl := ok.inj h
  constructor
  · intro _ x d hx
    obtain ⟨rfl, -⟩ := cons.inj hx
    exact leaf_or_name (s.realRel apiRel) (isLunaName_renamedTo _ (safeName_ok hname).2)
  · intro hstays
    obtain ⟨leaf, hleaf⟩ := isSome_iff_exists.mp hstays
    obtain ⟨item, hitem, -⟩ := map_eq_some_iff.mp hleaf
    exact ⟨by rw [hitem]; exact some_ne_none _, not_isSome_iff_eq_none.mp hfree⟩

theorem movePlan_named {src dst : Text} {p : MovePlan} (h : movePlan src dst s = .ok p) : p.carry.Named s := by
  obtain ⟨apiSrc, -, h⟩ := bind_ok h
  obtain ⟨apiDst, -, h⟩ := bind_ok h
  obtain ⟨-, h⟩ := of_ite_error h
  obtain ⟨hinternal, h⟩ := of_ite_error h
  obtain ⟨path, -, h⟩ := bind_ok h
  obtain ⟨-, h⟩ := of_ite_error h
  obtain ⟨-, h⟩ := of_ite_error h
  obtain ⟨-, h⟩ := of_ite_error h
  obtain ⟨hfree, h⟩ := of_ite_error h
  obtain rfl := ok.inj h
  refine ⟨fun _ x d hx => ?_, fun hstays => (nomatch hstays)⟩
  have hx : moveTarget (s.realRel apiSrc) (s.realRel apiDst) s = x :: d := hx
  unfold moveTarget at hx
  split at hx
  · rename_i leaf hleaf
    obtain ⟨rfl, -⟩ := cons.inj hx
    obtain ⟨item, -, rfl⟩ := map_eq_some_iff.mp hleaf
    exact .inl (Layout.isDiskName_diskName item.id)
  · rw [not_or, not_or] at hinternal
    cases hdst : s.realRel apiDst with
    | nil =>
      rw [hdst] at hx
      cases hx
    | cons n dt =>
      have hnone : s.items.get? (n :: dt) = none := by
        rw [← hdst]
        exact not_isSome_iff_eq_none.mp hfree
      rw [hdst, diskIn_cons_none hnone] at hx
      obtain ⟨rfl, -⟩ := cons.inj hx
      have hluna := not_luna_of_not_internal hinternal.2.1
      rw [hdst] at hluna
      exact .inr ⟨rfl, hluna n mem_cons_self⟩

theorem entering_named {now : Nat} {t : TrashPlan} {into : Entering} (h : entering now t s = .ok into) :
    into.carry.Named s ∧ into.carry.stays = false ∧ into.carry.target.length = 2 := by
  obtain ⟨-, h⟩ := of_ite_error h
  obtain rfl := ok.inj h
  refine ⟨⟨fun _ x d hx => ?_, fun hstays => (nomatch hstays)⟩, rfl, rfl⟩
  obtain ⟨rfl, -⟩ := cons.inj hx
  have hslot : ∀ leaf name, isLunaName (trashSlot now leaf name s) = false := by
    intro leaf name
    obtain ⟨j, hj⟩ : ∃ j, trashSlot now leaf name s = trashEntryName now j name := exists_firstFree _ _
    rw [hj]
    exact isLunaName_trashEntryName now j name
  exact leaf_or_name (segments (trashedRel t.rel)) (hslot _ _)

theorem restorePlan_named {trashRel dest : Text} {p : RestorePlan} (h : restorePlan trashRel dest s = .ok p) :
    p.leaf = s.diskLeaf p.trashRel ∧ isLunaName p.destName = false := by
  obtain ⟨trashApi, -, h⟩ := bind_ok h
  obtain ⟨dest', -, h⟩ := bind_ok h
  rcases hparts : trashEntryParts (s.realRel trashApi) with _ | ⟨entry, _ | _⟩
  · simp only [hparts] at h
    cases h
  · simp only [hparts] at h
    obtain ⟨-, h⟩ := of_ite_error h
    obtain ⟨-, h⟩ := of_ite_error h
    obtain ⟨src, -, h⟩ := bind_ok h
    cases dest' with
    | nil => cases h
    | cons name parent =>
      obtain ⟨destName, hname, h⟩ := bind_ok h
      obtain ⟨-, h⟩ := of_ite_error h
      obtain rfl := ok.inj h
      exact ⟨rfl, (safeName_ok hname).2⟩
  · simp only [hparts] at h
    cases h

/-! ### Folders that were made -/

/-- Taking the folders away from a tree with these entries leaves the earlier ones. -/
def MadeFrom (made : List Path) (t t₀ : Tree Text (List UInt8)) : Prop :=
  ∀ t' : Tree Text (List UInt8), (∀ p, t'.get? p = t.get? p) → ∀ p, (removeMadeFolders made t').get? p = t₀.get? p

theorem MadeFrom.cons {made : List Path} {t t₀ : Tree Text (List UInt8)} (h : MadeFrom made t t₀) (hg : Grown t)
    {n : Text} {d : Path} (hfree : t.get? (n :: d) = none) : MadeFrom ((n :: d) :: made) (t.put (n :: d) .dir) t₀ := by
  intro t' ht'
  refine h (removeDir t' (n :: d)) fun p => ?_
  have hempty : t'.children (n :: d) = [] := by
    rw [eq_nil_iff_forall_not_mem]
    rintro ⟨m, v⟩ hmem
    rw [Tree.mem_children, ht', get?_put_of_ne] at hmem
    · obtain ⟨v', hv'⟩ := hg.taken_above hmem (suffix_cons m (n :: d)) (cons_ne_nil n d)
      rw [hfree] at hv'
      cases hv'
    · intro heq
      have := congrArg length heq
      simp at this
  rw [removeDir, if_pos hempty, get?_erase]
  by_cases hp : p = n :: d
  · rw [if_pos hp, hp, hfree]
  · rw [if_neg hp, ht', get?_put_of_ne _ _ hp]

/-- Either the folders are there and can be taken away, or everything is as before. -/
theorem makeMissingParentsIn_run (e : Steps) (hg : Grown w.drive.disk) (rel : Path) :
    (∃ made t, makeMissingParentsIn e rel w = .ok made { w with drive := { w.drive with disk := t } } ∧ Grown t ∧
        MadeFrom made t w.drive.disk) ∨
      ∃ err w', makeMissingParentsIn e rel w = .error err w' ∧ w'.Same w := by
  induction rel with
  | nil => exact .inl ⟨[], w.drive.disk, rfl, hg, fun t' ht' => ht'⟩
  | cons seg d ih =>
    rcases ih with ⟨made, t, hrun, hgrown, hmade⟩ | ⟨err, w', hrun, hsame⟩
    · obtain ⟨w₁, hw₁⟩ : ∃ w₁ : Stores, w₁ = { w with drive := { w.drive with disk := t } } := ⟨_, rfl⟩
      rw [← hw₁] at hrun
      have hback : ∀ err, ∃ err' w', (takeBack made err : Act (List Path)) w₁ = .error err' w' ∧ w'.Same w := by
        intro err
        rw [hw₁]
        exact ⟨err, _, rfl, Stores.Same.of_disk (hmade t fun _ => rfl)⟩
      rw [makeMissingParentsIn, run_of_ok hrun, run_of_ok (rfl : (get : Act Stores) w₁ = .ok w₁ w₁)]
      cases hres : w₁.drive.resolveChild (seg :: d) with
      | ok path =>
        by_cases hdir : w₁.drive.isDir path = true
        · simp only [hdir, if_true]
          exact .inl ⟨made, t, hw₁ ▸ rfl, hgrown, hmade⟩
        · simp only [hdir]
          exact .inr (hback _)
      | error refused =>
        cases refused with
        | escape => exact .inr (hback _)
        | notFound =>
          simp only
          split
          · exact .inr (hback _)
          cases hcreate : createEntry e.os (seg :: d) .dir w₁.drive with
          | error err =>
            have hundo : orUndo (onDrive (createEntry e.os (seg :: d) .dir)) (removeMadeFolders made) w₁ =
                .error err { w₁ with drive := { w₁.drive with disk := removeMadeFolders made w₁.drive.disk } } := by
              rw [orUndo, onDrive, hcreate]
            refine .inr ⟨err, _, run_of_error hundo, ?_⟩
            rw [hw₁]
            exact Stores.Same.of_disk (hmade t fun _ => rfl)
          | ok s' =>
            obtain ⟨hfree, hdir, hs'⟩ := createEntry_ok hcreate
            have hdone : orUndo (onDrive (createEntry e.os (seg :: d) .dir)) (removeMadeFolders made) w₁ =
                .ok () { w₁ with drive := s' } := by
              rw [orUndo, onDrive, hcreate]
            rw [hw₁] at hfree hdir
            refine .inl ⟨(seg :: d) :: made, t.put (seg :: d) .dir, ?_, hgrown.put (isDir_iff.mp hdir) hfree _,
              hmade.cons hgrown hfree⟩
            rw [run_of_ok hdone, hs', hw₁]
            rfl
    · refine .inr ⟨err, w', ?_, hsame⟩
      rw [makeMissingParentsIn, run_of_error hrun]

end Plans

/-! ### The calls -/

inductive FileCall where
  | rename (rel newName : Text)
  | moveRel (src dst : Text)
  | deleteToTrash (now : Nat) (rel : Text)
  | restoreFromTrash (trashRel dest : Text)

def FileCall.act (e : Steps) (formHash : Text → Text) (driveId : Text) : FileCall → Act Unit
  | .rename rel newName => renameIn e formHash driveId rel newName
  | .moveRel src dst => moveIn e formHash driveId src dst
  | .deleteToTrash now rel => deleteIn e formHash now driveId rel
  | .restoreFromTrash trashRel dest => restoreIn e formHash trashRel dest

/-- Once the item has landed nothing fails any more: grants follow or go, and origins are written. A delete that has
to make the trash does not fail at all. -/
def FileCall.Settled (e : Steps) (driveId : Text) (w : Stores) : FileCall → Prop
  | .rename rel newName => ∀ p, renamePlan rel newName w.drive = .ok p → p.carry.Goes e w.drive →
      RepathGoes e driveId (spelled p.apiRel) w ∧ RetitleGoes e p.carry.src w.drive
  | .moveRel src dst => ∀ p, movePlan src dst w.drive = .ok p → p.carry.Goes e w.drive →
      RepathGoes e driveId (spelled p.apiSrc) w
  | .deleteToTrash now rel => ∀ t s, trashPlan rel w.drive = .ok t → makeTrash e.os w.drive = .ok s →
      if w.drive.disk.get? [w.drive.layout.trashName] = none then
        ∃ into, entering now t s = .ok into ∧ into.carry.Goes e s ∧ e.writesMeta = true ∧
          DropGoes e driveId into.origin.originalPath w
      else ∀ into, entering now t s = .ok into → into.carry.Goes e s → e.writesMeta = true ∧
          DropGoes e driveId into.origin.originalPath w
  | .restoreFromTrash _ _ => True

section Calls

open Drive

variable {e : Steps} {formHash : Text → Text} {driveId : Text} {w : Stores}

theorem renameIn_unharmed (hg : Grown w.drive.disk) (rel newName : Text) :
    Unharmed (renameIn e formHash driveId rel newName) w ↔ (FileCall.rename rel newName).Settled e driveId w := by
  rw [renameIn, unharmed_reads]
  refine forall_congr' fun p => forall_congr' fun hp => ?_
  refine unharmed_carry hg (renamePlan_named hp) fun s' hmeta => ?_
  refine (repathSubjects_aside e driveId (spelled p.apiRel) _ { w with drive := s' }).andThen fun _ w₁ _ hdrive => ?_
  have htitle : RetitleGoes e p.carry.src w₁.drive ↔ RetitleGoes e p.carry.src w.drive := by
    rw [hdrive, RetitleGoes, RetitleGoes, hmeta]
  rw [← htitle]
  exact retitleIn_trails p.carry.src p.newName w₁

theorem moveIn_unharmed (hg : Grown w.drive.disk) (src dst : Text) :
    Unharmed (moveIn e formHash driveId src dst) w ↔ (FileCall.moveRel src dst).Settled e driveId w := by
  rw [moveIn, unharmed_reads]
  refine forall_congr' fun p => forall_congr' fun hp => ?_
  refine unharmed_carry hg (movePlan_named hp) fun s' _ => ?_
  obtain ⟨w₁, hrun, hd, hi, hs⟩ := forgetOriginIn_run e p.carry.src { w with drive := s' }
  have hsame : RepathGoes e driveId (spelled p.apiSrc) w₁ ↔ RepathGoes e driveId (spelled p.apiSrc) w := by
    unfold RepathGoes TableGoes
    rw [hs]
  have htrails := (repathSubjects_aside e driveId (spelled p.apiSrc) (spelled p.apiDst) w₁).trails
  constructor
  · intro h
    obtain ⟨a, w₂, hrun', hd', hi'⟩ := htrails.ok (hsame.mpr h)
    rw [run_of_ok hrun]
    exact ⟨a, w₂, hrun', hd'.trans hd, hi'.trans hi⟩
  · intro h
    obtain ⟨err, w₂, hrun', hd', hi'⟩ := htrails.error fun hr => h (hsame.mp hr)
    rw [run_of_ok hrun]
    exact ⟨err, w₂, hrun', hd'.trans hd, hi'.trans hi⟩

theorem makeTrash_ok {os : Os} {s s' : Drive} (h : makeTrash os s = .ok s') :
    s'.layout = s.layout ∧ s'.disk.get? [s.layout.trashName] ≠ none ∧
      (s.disk.get? [s.layout.trashName] ≠ none → s' = s) ∧
      (Grown s.disk → Grown s'.disk) ∧ ∀ p, p.length ≠ 1 → s'.disk.get? p = s.disk.get? p := by
  obtain ⟨-, h⟩ := of_ite_error h
  split at h
  · cases h
  rename_i disk hdisk
  obtain rfl := ok.inj h
  rw [Tree.mkdirs, Tree.mkdirs, bind_some] at hdisk
  split at hdisk
  · rename_i hfree
    obtain rfl := some.inj hdisk
    refine ⟨rfl, ?_, fun hne => absurd hfree hne, fun hg => hg.put (.inl rfl) hfree _, fun p hp => ?_⟩
    · rw [get?_put, if_pos rfl]
      exact some_ne_none _
    · refine get?_put_of_ne _ _ ?_
      rintro rfl
      exact hp rfl
  · cases hdisk
  · rename_i v _ hv
    obtain rfl := some.inj hdisk
    exact ⟨rfl, by rw [hv]; exact some_ne_none _, fun _ => rfl, id, fun _ _ => rfl⟩

theorem deleteLate_trails (into : Entering) (w : Stores) :
    Trails (writeTrashMeta e into.entry into.origin >>= fun _ =>
      dropSubjectsUnder e driveId into.origin.originalPath) w
        (e.writesMeta = true ∧ DropGoes e driveId into.origin.originalPath w) := by
  have hdrop := fun s' => (dropSubjectsUnder_aside e driveId into.origin.originalPath { w with drive := s' }).trails
  by_cases hw : e.writesMeta = true
  · rw [and_iff_right hw]
    constructor
    · intro h
      rw [run_of_ok (writeTrashMeta_ok into.entry into.origin w hw)]
      exact (hdrop _).ok h
    · intro h
      rw [run_of_ok (writeTrashMeta_ok into.entry into.origin w hw)]
      exact (hdrop _).error h
  · have hrun := writeTrashMeta_error into.entry into.origin w hw
    exact ⟨fun h => absurd h.1 hw, fun _ => ⟨.io "database error", w, run_of_error hrun, rfl, rfl⟩⟩

/-- The rest of the delete, once the trash is there. -/
def deleteRest (e : Steps) (formHash : Text → Text) (now : Nat) (driveId : Text) (t : TrashPlan) : Act Unit := do
  let into ← reads (entering now t)
  carry e formHash into.carry id
  writeTrashMeta e into.entry into.origin
  dropSubjectsUnder e driveId into.origin.originalPath

/-- Where the trash was there before, it fails without a trace unless the item has landed. -/
theorem deleteRest_unharmed (hg : Grown w.drive.disk) (now : Nat) (t : TrashPlan) :
    Unharmed (deleteRest e formHash now driveId t) w ↔
      ∀ into, entering now t w.drive = .ok into → into.carry.Goes e w.drive →
        e.writesMeta = true ∧ DropGoes e driveId into.origin.originalPath w := by
  rw [deleteRest, unharmed_reads]
  refine forall_congr' fun into => forall_congr' fun hinto => ?_
  exact unharmed_carry hg (entering_named hinto).1 fun s' _ => deleteLate_trails into { w with drive := s' }

/-- Where it was made just now, every failure leaves it. -/
theorem deleteRest_leaves {s : Drive} {t : TrashPlan} {now : Nat} (hg : Grown s.disk)
    (hfree : w.drive.disk.get? [s.layout.trashName] = none) (hmade : s.disk.get? [s.layout.trashName] ≠ none)
    (helse : ∀ p, p.length ≠ 1 → s.disk.get? p = w.drive.disk.get? p) :
    (∀ err w', deleteRest e formHash now driveId t { w with drive := s } = .error err w' → w'.Same w) ↔
      ∃ into, entering now t s = .ok into ∧ into.carry.Goes e s ∧ e.writesMeta = true ∧
        DropGoes e driveId into.origin.originalPath w := by
  have hleft : ∀ w' : Stores, w'.drive.disk.get? [s.layout.trashName] = s.disk.get? [s.layout.trashName] →
      ¬ w'.Same w := by
    intro w' hw' hsame
    rw [hsame.drive.disk, hfree] at hw'
    exact hmade hw'.symm
  cases hinto : entering now t s with
  | error err =>
    have hrun : reads (entering now t) { w with drive := s } = .error err { w with drive := s } := by
      rw [reads, hinto]
    refine ⟨fun h => absurd (h err _ (run_of_error hrun)) (hleft _ rfl), fun h => ?_⟩
    obtain ⟨into, hsome, -⟩ := h
    cases hsome
  | ok into =>
    have hrun : reads (entering now t) { w with drive := s } = .ok into { w with drive := s } := reads_of_ok hinto
    obtain ⟨hnamed, hstays, hlength⟩ := entering_named hinto
    rw [deleteRest, run_of_ok hrun]
    have hlate : ∀ s', s'.trashMeta = s.trashMeta → Trails (writeTrashMeta e into.entry into.origin >>= fun _ =>
        dropSubjectsUnder e driveId into.origin.originalPath) { w with drive := s' }
          (e.writesMeta = true ∧ DropGoes e driveId into.origin.originalPath w) :=
      fun s' _ => deleteLate_trails into { w with drive := s' }
    by_cases hgoes : into.carry.Goes e s
    · obtain ⟨hok, herror⟩ := carry_late (w := { w with drive := s }) formHash hg hnamed hgoes hlate
      constructor
      · intro h
        by_contra hnot
        obtain ⟨err, w', hrun', hlanded⟩ := herror fun hlate => hnot ⟨into, rfl, hgoes, hlate⟩
        -- The entry is in the trash, where nothing was.
        rw [Carry.Landed, if_neg (by rw [hstays]; exact Bool.false_ne_true)] at hlanded
        rw [helse _ (by rw [hlength]; decide)] at hlanded
        exact hlanded.2 (((h err w' hrun').drive.disk _).trans hlanded.1)
      · rintro ⟨into', hsame, -, hlate⟩
        obtain rfl := ok.inj hsame
        obtain ⟨a, w', hrun'⟩ := hok hlate
        intro err w'' herr
        exact absurd (hrun'.symm.trans herr) nofun
    · obtain ⟨err, t', hrun', ht'⟩ := carry_error (w := { w with drive := s }) formHash hg id hgoes
      refine ⟨fun h => absurd (h err _ (run_of_error hrun')) (hleft _ (ht' _)), fun h => ?_⟩
      obtain ⟨into', hsame, hgoes', -⟩ := h
      obtain rfl := ok.inj hsame
      exact absurd hgoes' hgoes

theorem deleteIn_unharmed (hg : Grown w.drive.disk) (now : Nat) (rel : Text) :
    Unharmed (deleteIn e formHash now driveId rel) w ↔ (FileCall.deleteToTrash now rel).Settled e driveId w := by
  rw [deleteIn, unharmed_reads]
  refine forall_congr' fun t => ?_
  rw [forall_comm]
  refine forall_congr' fun _ => ?_
  cases hmake : makeTrash e.os w.drive with
  | error err =>
    have hrun : onDrive (makeTrash e.os) w = .error err w := by rw [onDrive, hmake]
    exact ⟨fun _ s hs => (nomatch hs), fun _ => unharmed_of_error (run_of_error hrun) (Stores.Same.refl w)⟩
  | ok s =>
    have hrun : onDrive (makeTrash e.os) w = .ok () { w with drive := s } := by rw [onDrive, hmake]
    obtain ⟨hlayout, hmade, hkept, hgrown, helse⟩ := makeTrash_ok hmake
    have hrest : Unharmed (onDrive (makeTrash e.os) >>= fun _ => deleteRest e formHash now driveId t) w ↔
        ∀ err w', deleteRest e formHash now driveId t { w with drive := s } = .error err w' → w'.Same w := by
      rw [Unharmed, run_of_ok hrun]
    refine hrest.trans ?_
    by_cases hfree : w.drive.disk.get? [w.drive.layout.trashName] = none
    · simp only [hfree, ok.injEq, forall_eq']
      rw [← hlayout] at hfree hmade
      exact deleteRest_leaves (hgrown hg) hfree hmade helse
    · simp only [hfree, ok.injEq, forall_eq']
      obtain rfl := hkept hfree
      exact deleteRest_unharmed hg now t

theorem restoreIn_unharmed (hg : Grown w.drive.disk) (trashRel dest : Text) :
    Unharmed (restoreIn e formHash trashRel dest) w := by
  rw [restoreIn, unharmed_reads]
  intro p hp
  rcases makeMissingParentsIn_run e hg p.dest.tail with ⟨made, t, hrun, hgrown, hmade⟩ | ⟨err, w', hrun, hsame⟩
  · obtain ⟨w₁, hw₁⟩ : ∃ w₁ : Stores, w₁ = { w with drive := { w.drive with disk := t } } := ⟨_, rfl⟩
    have hback : ∀ t' : Tree Text (List UInt8), (∀ q, t'.get? q = w₁.drive.disk.get? q) →
        Stores.Same { w₁ with drive := { w₁.drive with disk := removeMadeFolders made t' } } w := by
      intro t' ht'
      rw [hw₁] at ht' ⊢
      exact Stores.Same.of_disk (hmade t' ht')
    rw [← hw₁] at hrun
    have hgrown₁ : Grown w₁.drive.disk := by
      rw [hw₁]
      exact hgrown
    intro err w' h
    rw [run_of_ok hrun] at h
    cases hres : w₁.drive.resolve p.dest.tail with
    | error refused =>
      have hparent : resolveOr p.dest.tail made w₁ = .error refused
          { w₁ with drive := { w₁.drive with disk := removeMadeFolders made w₁.drive.disk } } := by
        rw [resolveOr, hres]
        rfl
      rw [run_of_error hparent] at h
      obtain ⟨-, rfl⟩ := EStateM.Result.error.inj h
      exact hback _ fun _ => rfl
    | ok parent =>
      have hparent : resolveOr p.dest.tail made w₁ = .ok parent w₁ := by
        rw [resolveOr, hres]
      rw [run_of_ok hparent] at h
      obtain ⟨hleaf, hname⟩ := restorePlan_named hp
      have hnamed : (Carry.mk p.trashRel p.dest p.src (p.leaf.getD p.destName :: parent) p.entry p.destName false).Named
          w₁.drive := by
        refine ⟨fun _ x d hx => ?_, fun hstays => (nomatch hstays)⟩
        obtain ⟨rfl, -⟩ := cons.inj hx
        rw [hw₁, hleaf]
        exact leaf_or_name p.trashRel hname
      by_cases hgoes : (Carry.mk p.trashRel p.dest p.src (p.leaf.getD p.destName :: parent) p.entry p.destName false).Goes
          e w₁.drive
      · obtain ⟨s', hrun', -, -⟩ := carry_ok formHash hgrown₁ (removeMadeFolders made) hnamed hgoes
        obtain ⟨w₂, hrun₂, -⟩ := removeTrashMeta_run e p.entry { w₁ with drive := s' }
        rw [run_of_ok hrun', hrun₂] at h
        cases h
      · obtain ⟨err', t', hrun', ht'⟩ := carry_error formHash hgrown₁ (removeMadeFolders made) hgoes
        rw [run_of_error hrun'] at h
        obtain ⟨-, rfl⟩ := EStateM.Result.error.inj h
        exact hback t' ht'
  · exact unharmed_of_error (run_of_error hrun) hsame

/-- A call that fails has changed nothing, exactly if nothing fails once the item has landed. -/
theorem unharmed_iff_settled (e : Steps) (formHash : Text → Text) (driveId : Text) (c : FileCall) (w : Stores)
    (hg : Grown w.drive.disk) :
    (∀ err w', c.act e formHash driveId w = .error err w' → w'.Same w) ↔ c.Settled e driveId w := by
  cases c with
  | rename rel newName => exact renameIn_unharmed hg rel newName
  | moveRel src dst => exact moveIn_unharmed hg src dst
  | deleteToTrash now rel => exact deleteIn_unharmed hg now rel
  | restoreFromTrash trashRel dest => exact iff_of_true (restoreIn_unharmed hg trashRel dest) trivial

end Calls

/-- A file next to an empty trash, and no grants. -/
def notesStores : Stores where
  drive := { freshDrive with
    disk := (Table.empty.put [freshLayout.trashName] .dir).put ["notes".toList] (.file [7]) }
  subjects := fun _ => Table.empty

theorem notesStores_grown : Grown notesStores.drive.disk := by
  have hempty : Grown (Table.empty : Tree Text (List UInt8)) := fun _ _ _ _ h => (nomatch h)
  exact (hempty.put (.inl rfl) rfl _).put (.inl rfl) (by decide +kernel) _

/-- The origin of a trash entry cannot be written; everything else can. -/
def noOrigins : Steps :=
  ⟨calmEnv.os, true, true, false, true, true, fun _ => true, fun _ _ => true⟩

theorem notes_renamed : Grown notesStores.drive.disk ∧
    ((∀ err w', (FileCall.rename "notes".toList "diary".toList).act noOrigins id "d".toList notesStores =
      .error err w' → w'.Same notesStores) ↔
        (FileCall.rename "notes".toList "diary".toList).Settled noOrigins "d".toList notesStores) :=
  ⟨notesStores_grown, unharmed_iff_settled noOrigins id "d".toList _ notesStores notesStores_grown⟩

/-- A delete that cannot write where the file came from leaves it in the trash all the same. -/
theorem notes_left_in_trash : ¬ ∀ (e : Steps) (formHash : Text → Text) (driveId : Text) (c : FileCall) (w : Stores),
    Grown w.drive.disk → ∀ err w', c.act e formHash driveId w = .error err w' → w'.Same w := by
  intro h
  have hrun : (match (FileCall.deleteToTrash 5 "notes".toList).act noOrigins id "d".toList notesStores with
      | .error _ w' => (w'.drive.disk.get? ["notes".toList]).isNone
      | .ok _ _ => false) = true := by
    decide +kernel
  split at hrun
  · rename_i err w' hact
    have hsame := (h _ _ _ _ _ notesStores_grown err w' hact).drive.disk ["notes".toList]
    rw [isNone_iff_eq_none.mp hrun] at hsame
    exact absurd hsame (by decide +kernel)
  · cases hrun

/-! ### Where nothing fails -/

/-- Every statement goes through. -/
structure Steps.Calm (e : Steps) : Prop where
  repaths : e.repaths = true
  readsMeta : e.readsMeta = true
  writesMeta : e.writesMeta = true
  removesMeta : e.removesMeta = true
  forwards : e.forwards = true
  selects : ∀ table, e.selects table = true
  rows : ∀ table id, e.rows table id = true
  makesTrash : ∀ l : Layout, e.os.creates [l.trashName] = true

section Calm

open Drive

variable {e : Steps} {formHash : Text → Text} {driveId : Text} {w : Stores} {s s' : Drive} {os : Os}

theorem Steps.Calm.tableGoes (h : e.Calm) (path : Text) (w : Stores) (table : SubjectTable) :
    TableGoes e driveId path w table :=
  ⟨h.selects table, fun id _ => h.rows table id⟩

theorem ok_bind {ε α β : Type} (a : α) (f : α → Except ε β) : (Except.ok a >>= f) = f a := rfl

/-- `rename`, by its plan. -/
theorem rename_eq_plan (h : rename os formHash rel newName s = .ok s') :
    ∃ p s₁ s₂, renamePlan rel newName s = .ok p ∧ p.carry.onDisk os s = .ok s₁ ∧
      repath p.carry.src p.carry.dst s₁ = .ok s₂ ∧
      s' = retitle p.carry.src p.newName (p.carry.forms formHash os s₂) := by
  obtain ⟨newName', hname, h⟩ := bind_ok h
  obtain ⟨hinternal, h⟩ := of_ite_error h
  obtain ⟨apiRel, hrel, h⟩ := bind_ok h
  obtain ⟨hraw, h⟩ := of_ite_error h
  obtain ⟨htemp, h⟩ := of_ite_error h
  obtain ⟨htrash, h⟩ := of_ite_error h
  obtain ⟨path, hpath, h⟩ := bind_ok h
  obtain ⟨hfree, h⟩ := of_ite_error h
  obtain ⟨s₁, hdisk, h⟩ := bind_ok h
  obtain ⟨s₂, hrepath, h⟩ := bind_ok h
  have hclash : ¬ ((s.diskLeaf (s.realRel apiRel)).isSome = true ∧
      (s.resolveChild (renamedTo (s.realRel apiRel) newName' :: (s.realRel apiRel).tail)).isOk = true) := by
    rintro ⟨hleaf, hok⟩
    rw [renameOnDisk, if_pos hleaf, if_pos hok] at hdisk
    cases hdisk
  refine ⟨⟨apiRel, newName', s.realRel apiRel, renamedTo (s.realRel apiRel) newName' :: (s.realRel apiRel).tail, path,
    (s.diskLeaf (s.realRel apiRel)).getD (renamedTo (s.realRel apiRel) newName') :: path.tail,
    (s.realRel apiRel).head?.getD [], renamedTo (s.realRel apiRel) newName', (s.diskLeaf (s.realRel apiRel)).isSome⟩,
    s₁, s₂, ?_, ?_, hrepath, (ok.inj h).symm⟩
  · simp only [renamePlan, hname, hrel, hpath, ok_bind, if_neg hinternal, if_neg hraw, if_neg htemp, if_neg htrash,
      if_neg hfree, if_neg hclash]
    rfl
  · unfold renameOnDisk at hdisk
    unfold Carry.onDisk
    by_cases hleaf : (s.diskLeaf (s.realRel apiRel)).isSome = true
    · rw [if_pos hleaf] at hdisk ⊢
      exact (of_ite_error hdisk).2
    · rwa [if_neg hleaf] at hdisk ⊢

/-- `move_rel`, by its plan. -/
theorem moveRel_eq_plan {src dst : Text} (h : moveRel os formHash src dst s = .ok s') :
    ∃ p s₁ s₂, movePlan src dst s = .ok p ∧ p.carry.onDisk os s = .ok s₁ ∧
      repath p.carry.src p.carry.dst s₁ = .ok s₂ ∧
      s' = forgetOrigin p.carry.src (p.carry.forms formHash os s₂) := by
  obtain ⟨apiSrc, hsrc, h⟩ := bind_ok h
  obtain ⟨apiDst, hdst, h⟩ := bind_ok h
  obtain ⟨hraw, h⟩ := of_ite_error h
  obtain ⟨hinternal, h⟩ := of_ite_error h
  obtain ⟨path, hpath, h⟩ := bind_ok h
  obtain ⟨hself, h⟩ := of_ite_error h
  obtain ⟨hdir, h⟩ := of_ite_error h
  obtain ⟨hclash, h⟩ := of_ite_error h
  obtain ⟨hfree, h⟩ := of_ite_error h
  obtain ⟨s₁, hdisk, h⟩ := bind_ok h
  obtain ⟨s₂, hrepath, h⟩ := bind_ok h
  refine ⟨⟨apiSrc, apiDst, s.realRel apiSrc, s.realRel apiDst, path, moveTarget (s.realRel apiSrc) (s.realRel apiDst) s,
    (s.realRel apiSrc).head?.getD [], (s.realRel apiDst).head?.getD [], false⟩, s₁, s₂, ?_, hdisk, hrepath,
    (ok.inj h).symm⟩
  simp only [movePlan, hsrc, hdst, hpath, ok_bind, if_neg hraw, if_neg hinternal, if_neg hself, if_neg hdir,
    if_neg hclash, if_neg hfree]
  rfl

section

variable (h : e.Calm)

include h

theorem Steps.Calm.repathSubjects (driveId path newPath : Text) (w : Stores) :
    ∃ a w', Files.repathSubjects e driveId path newPath w = .ok a w' ∧ w'.drive = w.drive :=
  (repathSubjects_aside e driveId path newPath w).ok (.inr ⟨h.forwards, fun table => h.tableGoes _ w table⟩)

theorem Steps.Calm.retitleIn (rel : Path) (newName : Text) (w : Stores) :
    Files.retitleIn e rel newName w = .ok () { w with drive := retitle rel newName w.drive } := by
  rw [Files.retitleIn, run_of_ok (rfl : (get : Act Stores) w = .ok w w)]
  rcases hparts : trashEntryParts rel with _ | ⟨entry, _ | _⟩
  · simp only [retitle, hparts]
    rfl
  · cases hfound : w.drive.trashMeta.get? entry with
    | none =>
      simp only [retitle, hparts, h.readsMeta, if_true, hfound]
      rfl
    | some found =>
      simp only [retitle, hparts, h.readsMeta, if_true, hfound]
      rw [run_of_ok (writeTrashMeta_ok _ _ w h.writesMeta), removeTrashMeta, if_pos h.removesMeta]
      rfl
  · simp only [retitle, hparts]
    rfl

theorem Steps.Calm.forgetOriginIn (rel : Path) (w : Stores) :
    Files.forgetOriginIn e rel w = .ok () { w with drive := forgetOrigin rel w.drive } := by
  rcases hparts : trashEntryParts rel with _ | ⟨entry, _ | _⟩
  · rw [Files.forgetOriginIn, forgetOrigin, hparts]
    rfl
  · rw [Files.forgetOriginIn, forgetOrigin, hparts]
    simp only [removeTrashMeta, if_pos h.removesMeta]
    rfl
  · rw [Files.forgetOriginIn, forgetOrigin, hparts]
    rfl

theorem renameIn_calm (hr : rename e.os formHash rel newName w.drive = .ok s') :
    ∃ w', renameIn e formHash driveId rel newName w = .ok () w' ∧ w'.drive = s' := by
  obtain ⟨p, s₁, s₂, hplan, hdisk, hrepath, rfl⟩ := rename_eq_plan hr
  have hreads := reads_of_ok hplan
  have hcarry := carry_run (w := w) formHash id hdisk hrepath (.inr h.repaths)
  obtain ⟨a, w₁, hrun, hdrive⟩ := h.repathSubjects driveId (spelled p.apiRel)
    (joinRel (spelled p.apiRel.tail) p.carry.dstName) { w with drive := p.carry.forms formHash e.os s₂ }
  refine ⟨{ w₁ with drive := retitle p.carry.src p.newName w₁.drive }, ?_, by rw [hdrive]⟩
  rw [renameIn, run_of_ok hreads, run_of_ok hcarry, run_of_ok hrun, h.retitleIn]

theorem moveIn_calm {src dst : Text} (hr : moveRel e.os formHash src dst w.drive = .ok s') :
    ∃ w', moveIn e formHash driveId src dst w = .ok () w' ∧ w'.drive = s' := by
  obtain ⟨p, s₁, s₂, hplan, hdisk, hrepath, rfl⟩ := moveRel_eq_plan hr
  have hreads := reads_of_ok hplan
  have hcarry := carry_run (w := w) formHash id hdisk hrepath (.inr h.repaths)
  obtain ⟨a, w₁, hrun, hdrive⟩ := h.repathSubjects driveId (spelled p.apiSrc) (spelled p.apiDst)
    { w with drive := forgetOrigin p.carry.src (p.carry.forms formHash e.os s₂) }
  refine ⟨w₁, ?_, hdrive⟩
  rw [moveIn, run_of_ok hreads, run_of_ok hcarry, run_of_ok (h.forgetOriginIn _ _), hrun]

end

theorem intoTrash_eq_plan {now : Nat} {rel path out : Path} {name : Text}
    (h : intoTrash os formHash now rel path name s = .ok (out, s')) :
    ∃ into s₁ s₂, entering now ⟨rel, path, name⟩ s = .ok into ∧ into.carry.onDisk os s = .ok s₁ ∧
      repath into.carry.src into.carry.dst s₁ = .ok s₂ ∧
      s' = { into.carry.forms formHash os s₂ with
        trashMeta := (into.carry.forms formHash os s₂).trashMeta.put into.entry into.origin } := by
  unfold intoTrash at h
  unfold entering
  generalize hleaf : s.diskLeaf (segments (trashedRel rel)) = leaf at h ⊢
  generalize (if leaf.isSome = true then (split (trashedRel rel)).getLast?.getD name else name) = title at h ⊢
  generalize trashSlot now leaf title s = entry at h ⊢
  obtain ⟨htaken, h⟩ := of_ite_error h
  obtain ⟨s₁, hs₁, h⟩ := bind_ok h
  obtain ⟨s₂, hs₂, h⟩ := bind_ok h
  obtain ⟨-, rfl⟩ := Prod.mk.inj (ok.inj h)
  have hlayout : s₁.layout = s.layout ∧ s₁.items = s.items := by
    rw [(renameNoreplace_ok hs₁).2.2.2.2.2.2.2]
    exact ⟨rfl, rfl⟩
  have hbound : s₁.boundaryFor (segments (trashedRel rel)) = s.boundaryFor (segments (trashedRel rel)) :=
    boundaryFor_congr hlayout.1 hlayout.2
  rw [hlayout.1] at hs₂
  rw [hbound, if_neg htaken]
  exact ⟨_, s₁, s₂, rfl, hs₁, hs₂, rfl⟩

/-- `delete_to_trash`, by its plan. -/
theorem deleteToTrash_eq_plan (hmakes : ∀ l : Layout, os.creates [l.trashName] = true) {now : Nat}
    {out : Path} (h : deleteToTrash os formHash now rel s = .ok (out, s')) :
    ∃ t s₀, trashPlan rel s = .ok t ∧ makeTrash os s = .ok s₀ ∧
      intoTrash os formHash now t.rel t.path t.name s₀ = .ok (out, s') := by
  obtain ⟨apiRel, hrel, h⟩ := bind_ok h
  obtain ⟨htemp, h⟩ := of_ite_error h
  obtain ⟨path, hpath, h⟩ := bind_ok h
  cases path with
  | nil => cases h
  | cons name parent =>
    simp only at h
    split at h
    · cases h
    rename_i disk hdisk
    refine ⟨⟨s.realRel apiRel, name :: parent, name⟩, { s with disk := disk }, ?_, ?_, h⟩
    · simp only [trashPlan, hrel, hpath, ok_bind, if_neg htemp]
      rfl
    · have hcreates : ¬ (s.disk.get? [s.layout.trashName] = none ∧ os.creates [s.layout.trashName] = false) := by
        rw [hmakes]
        exact fun hno => Bool.noConfusion hno.2
      rw [makeTrash, if_neg hcreates, hdisk]

theorem deleteIn_calm (h : e.Calm) {now : Nat} {out : Path}
    (hr : deleteToTrash e.os formHash now rel w.drive = .ok (out, s')) :
    ∃ w', deleteIn e formHash now driveId rel w = .ok () w' ∧ w'.drive = s' := by
  obtain ⟨t, s₀, hplan, hmake, hrest⟩ := deleteToTrash_eq_plan h.makesTrash hr
  obtain ⟨into, s₁, s₂, hinto, hdisk, hrepath, rfl⟩ := intoTrash_eq_plan hrest
  have hreads := reads_of_ok hplan
  have htrash : onDrive (makeTrash e.os) w = .ok () { w with drive := s₀ } := by rw [onDrive, hmake]
  have henter : reads (entering now t) { w with drive := s₀ } = .ok into { w with drive := s₀ } := reads_of_ok hinto
  have hcarry := carry_run (w := { w with drive := s₀ }) formHash id hdisk hrepath (.inr h.repaths)
  have hmeta := writeTrashMeta_ok into.entry into.origin
    { w with drive := into.carry.forms formHash e.os s₂ } h.writesMeta
  obtain ⟨w₂, hw₂⟩ : ∃ w₂ : Stores, w₂ = { w with drive := { into.carry.forms formHash e.os s₂ with
    trashMeta := (into.carry.forms formHash e.os s₂).trashMeta.put into.entry into.origin } } := ⟨_, rfl⟩
  obtain ⟨a, w₁, hdrop, hdrive⟩ := (dropSubjectsUnder_aside e driveId into.origin.originalPath w₂).ok
    (.inr fun table => h.tableGoes _ w₂ table)
  refine ⟨w₁, ?_, by rw [hdrive, hw₂]⟩
  rw [deleteIn, run_of_ok hreads, run_of_ok htrash, run_of_ok henter, run_of_ok hcarry, run_of_ok hmeta]
  rw [hw₂] at hdrop
  exact hdrop

theorem makeMissingParentsIn_calm {rel : Path} (h : makeMissingParents e.os rel w.drive = .ok s') :
    ∃ made, makeMissingParentsIn e rel w = .ok made { w with drive := s' } := by
  induction rel generalizing s' with
  | nil => exact ⟨[], by rw [← ok.inj h]; rfl⟩
  | cons seg d ih =>
    obtain ⟨s₁, hs₁, h⟩ := bind_ok h
    obtain ⟨made, hmade⟩ := ih hs₁
    have hget : (get : Act Stores) { w with drive := s₁ } = .ok { w with drive := s₁ } { w with drive := s₁ } := rfl
    rw [makeMissingParentsIn, run_of_ok hmade, run_of_ok hget]
    cases hres : s₁.resolveChild (seg :: d) with
    | ok path =>
      simp only [hres] at h ⊢
      split at h
      · rename_i hdir
        rw [if_pos hdir, ← ok.inj h]
        exact ⟨made, rfl⟩
      · cases h
    | error refused =>
      cases refused with
      | escape =>
        simp only [hres] at h
        cases h
      | notFound =>
        simp only [hres] at h ⊢
        obtain ⟨hprivate, h⟩ := of_ite_error h
        have hdone : orUndo (onDrive (createEntry e.os (seg :: d) .dir)) (removeMadeFolders made)
            { w with drive := s₁ } = .ok () { w with drive := s' } := by
          rw [orUndo, onDrive, h]
        rw [if_neg hprivate, run_of_ok hdone]
        exact ⟨(seg :: d) :: made, rfl⟩

theorem restoreIn_calm (h : e.Calm) {trashRel dest : Text}
    (hr : restoreFromTrash e.os formHash trashRel dest w.drive = .ok s') :
    ∃ w', restoreIn e formHash trashRel dest w = .ok () w' ∧ w'.drive = s' := by
  obtain ⟨trashApi, hapi, hr⟩ := bind_ok hr
  obtain ⟨dest', hdest, hr⟩ := bind_ok hr
  rcases hparts : trashEntryParts (w.drive.realRel trashApi) with _ | ⟨entry, _ | _⟩
  · simp only [hparts] at hr
    cases hr
  · simp only [hparts] at hr
    obtain ⟨hraw, hr⟩ := of_ite_error hr
    obtain ⟨hinto, hr⟩ := of_ite_error hr
    obtain ⟨src, hsrc, hr⟩ := bind_ok hr
    cases dest' with
    | nil => cases hr
    | cons name parent =>
      obtain ⟨destName, hname, hr⟩ := bind_ok hr
      obtain ⟨hfree, hr⟩ := of_ite_error hr
      obtain ⟨s₀, hs₀, hr⟩ := bind_ok hr
      obtain ⟨folder, hfolder, hr⟩ := bind_ok hr
      obtain ⟨s₁, hs₁, hr⟩ := bind_ok hr
      obtain ⟨s₂, hs₂, hr⟩ := bind_ok hr
      have hplan : restorePlan trashRel dest w.drive = .ok ⟨entry, w.drive.realRel trashApi, name :: parent, src,
          destName, w.drive.diskLeaf (w.drive.realRel trashApi)⟩ := by
        simp only [restorePlan, hapi, hdest, ok_bind, hparts, if_neg hraw, if_neg hinto, hsrc, hname, if_neg hfree]
        rfl
      have hreads := reads_of_ok hplan
      obtain ⟨made, hmade⟩ := makeMissingParentsIn_calm hs₀
      have hparent : resolveOr parent made { w with drive := s₀ } = .ok folder { w with drive := s₀ } := by
        rw [resolveOr, hfolder]
      have hcarry := carry_run (e := e) (w := { w with drive := s₀ }) (c := ⟨w.drive.realRel trashApi, name :: parent,
        src, (w.drive.diskLeaf (w.drive.realRel trashApi)).getD destName :: folder, entry, destName, false⟩) formHash
          (removeMadeFolders made) hs₁ hs₂ (.inr h.repaths)
      refine ⟨{ w with drive := s' }, ?_, rfl⟩
      rw [restoreIn, run_of_ok hreads]
      dsimp only [tail_cons]
      rw [run_of_ok hmade, run_of_ok hparent, run_of_ok hcarry, removeTrashMeta, if_pos h.removesMeta, ← ok.inj hr]
      rfl
  · simp only [hparts] at hr
    cases hr

/-- The call among all calls on a drive. -/
def FileCall.call : FileCall → Call
  | .rename rel newName => .rename rel newName
  | .moveRel src dst => .moveRel src dst
  | .deleteToTrash _ rel => .deleteToTrash rel
  | .restoreFromTrash trashRel dest => .restoreFromTrash trashRel dest

/-- When the call looks at the clock. -/
def FileCall.now : FileCall → Nat
  | .deleteToTrash now _ => now
  | _ => 0

/-- Where every statement goes through, a call does to the drive what it does without databases that fail. -/
theorem act_of_run (h : e.Calm) (c : FileCall) (newId : ItemId)
    (hr : c.call.run formHash ⟨e.os, c.now, newId⟩ w.drive = .ok s') :
    ∃ w', c.act e formHash driveId w = .ok () w' ∧ w'.drive = s' := by
  cases c with
  | rename rel newName => exact renameIn_calm h hr
  | moveRel src dst => exact moveIn_calm h hr
  | deleteToTrash now rel =>
    obtain ⟨out, hout⟩ := Call.run_deleteToTrash hr
    exact deleteIn_calm h hout
  | restoreFromTrash trashRel dest => exact restoreIn_calm h hr

end Calm

theorem notes_renamed_calmly : ∃ w', (FileCall.rename "notes".toList "diary".toList).act
    { noOrigins with writesMeta := true } id "d".toList notesStores = .ok () w' ∧
      w'.drive.disk.get? ["diary".toList] = some (.file [7]) := by
  obtain ⟨s', hs, hdisk⟩ : ∃ s', (Call.rename "notes".toList "diary".toList).run id ⟨calmEnv.os, 0, calmEnv.newId⟩
      notesStores.drive = .ok s' ∧ s'.disk.get? ["diary".toList] = some (.file [7]) := ⟨_, rfl, rfl⟩
  have hcalm : Steps.Calm { noOrigins with writesMeta := true } :=
    ⟨rfl, rfl, rfl, rfl, rfl, fun _ => rfl, fun _ _ => rfl, fun _ => rfl⟩
  obtain ⟨w', hw, rfl⟩ := @act_of_run _ _ "d".toList _ _ hcalm (.rename _ _) calmEnv.newId hs
  exact ⟨w', hw, hdisk⟩

end LibreServ.Files
