import LibreServ.PrivateInStep

/-! The calls that make, rename and move the entries of a drive, and when they leave private rows in step with the
disk. A form takes its answers file along wherever it goes; a folder that happens to have that file's name goes
along too, and rows inside it stay behind. -/

namespace LibreServ.Files

open FileTree List Option Table Except

variable {path : Path}

namespace Drive

variable {s s' : Drive}

/-! ### Renames -/

theorem siblingClash_of_row {n : Text} {d : Path} {item : Item} (hp : s.items.get? (n :: d) = some item) :
    s.siblingClash (n :: s.diskIn d) = true := by
  rw [siblingClash, any_iff]
  exact ⟨n :: d, item, hp, by simp⟩

variable {os : Os} {src dst : Path}

theorem isDir_iff : s.isDir path = true ↔ path = [] ∨ s.disk.get? path = some .dir := by
  rw [isDir, Bool.or_eq_true, decide_eq_true_eq, decide_eq_true_eq]

theorem renameNoreplace_ok (h : renameNoreplace os src dst s = .ok s') :
    s.siblingClash dst = false ∧ src ≠ [] ∧ dst ≠ [] ∧ s.disk.get? dst = none ∧ (∃ e, s.disk.get? src = some e) ∧
      ¬ src <:+ dst ∧ s.isDir dst.tail = true ∧ s' = { s with disk := s.disk.relocate src dst } := by
  unfold renameNoreplace at h
  split at h
  · cases h
  rename_i hclash
  split at h
  · cases h
  rename_i hrefused
  rw [not_or, Bool.not_eq_true, Bool.not_eq_true] at hclash
  rw [not_or, not_or, not_or, not_or, not_not] at hrefused
  obtain ⟨hne, hstands, hinto, hdir, -⟩ := hrefused
  have hdst : dst ≠ [] := by
    rintro rfl
    cases hclash.2
  exact ⟨hclash.1, hne, hdst, Tree.get?_of_not_taken hclash.2, ne_none_iff_exists'.mp hstands, hinto, hdir,
    (ok.inj h).symm⟩

/-- A rename that goes through moves the branch, if the new name is no row's. -/
theorem Tidy.movable (ht : Tidy s) {n m : Text} {dp dt : Path} (hsrc : s.layout.Unsealed (n :: dp))
    (hdst : s.layout.Unsealed (m :: dt)) (hrow : s.items.get? (m :: dt) = none)
    (hfree : s.items.get? (n :: dp) ≠ none → s.disk.get? (m :: s.diskIn dt) = none)
    (hproper : ∀ q item, s.items.get? (q ++ n :: dp) = some item → s.layout.Proper (m :: dt))
    (hr : renameNoreplace os (s.diskIn (n :: dp)) (s.landing (n :: dp) m dt) s = .ok s') :
    Movable s n dp m dt ∧ s'.layout = s.layout ∧ s'.items = s.items ∧ s'.trashMeta = s.trashMeta ∧
      s'.disk = (s.moved (n :: dp) m dt).disk := by
  obtain ⟨-, -, -, htaken, hstands, hinto, hdir, rfl⟩ := renameNoreplace_ok hr
  refine ⟨⟨hsrc, hstands, hdst, isDir_iff.mp hdir, fun hsuf => ?_, hrow, ?_, ?_, hproper⟩, rfl, rfl, rfl, rfl⟩
  · exact hinto ((diskIn_suffix hsuf).trans (suffix_cons _ _))
  · cases hget : s.items.get? (n :: dp) with
    | none => rwa [landing, diskLeaf_none hget] at htaken
    | some item => exact hfree (by rw [hget]; exact some_ne_none _)
  · exact ht.grown.vacant (cons_ne_nil _ _) htaken

/-- Nothing stands where the branch goes, so it does not lie there. -/
theorem Movable.apart {n m : Text} {dp dt : Path} (h : Movable s n dp m dt) (ht : Tidy s) : ¬ m :: dt <:+ n :: dp := by
  intro hsuf
  obtain ⟨e, he⟩ := h.stands
  have hdisk := diskIn_suffix (s := s) hsuf
  rw [diskIn_cons_none h.unused] at hdisk
  obtain ⟨e', he'⟩ := ht.grown.taken_above he hdisk (cons_ne_nil _ _)
  rw [h.free] at he'
  cases he'

/-- After the move, with the folders both names lie in translated as before. -/
theorem Movable.after {n m : Text} {dp dt : Path} (h : Movable s n dp m dt) (ht : Tidy s) (hl : s'.layout = s.layout)
    (hd : ∀ p, s'.disk.get? p = (s.moved (n :: dp) m dt).disk.get? p)
    (hi : ∀ p, s'.items.get? p = (s.moved (n :: dp) m dt).items.get? p) :
    Tidy s' ∧ s'.diskIn dp = s.diskIn dp ∧ s'.diskIn dt = s.diskIn dt := by
  have hin : ∀ p, s'.diskIn p = (s.moved (n :: dp) m dt).diskIn p :=
    fun p => diskIn_congr (s.moved (n :: dp) m dt) s' hl fun q _ => hi q
  have hdp : ¬ m :: dt <:+ dp := fun hsuf => h.apart ht (hsuf.trans (suffix_cons n dp))
  refine ⟨(h.tidy ht).congr hl hd hi, ?_, ?_⟩
  · rw [hin, h.diskIn_other ht (Movable.not_into_self n dp) hdp]
  · rw [hin, h.diskIn_other ht h.outside (Movable.not_into_self m dt)]

/-! ### The files of a form -/

theorem moveIfPresent_cases (os : Os) (src dst : Path) (s : Drive) :
    moveIfPresent os src dst s = s ∨ renameNoreplace os src dst s = .ok (moveIfPresent os src dst s) := by
  unfold moveIfPresent
  split
  · split
    · rename_i s' hs'
      exact .inr hs'
    · exact .inl rfl
  · exact .inl rfl

/-- A plain entry may move by itself where no row lies beneath it. -/
theorem Tidy.moveIfPresent (ht : Tidy s) (os : Os) {a b : Text} {dp dt : Path} (ha : s.layout.isDiskName a = false)
    (hb : s.layout.isDiskName b = false) (hdp : s.layout.Unsealed dp) (hdt : s.layout.Unsealed dt)
    (hrows : ∀ p item, s.items.get? p = some item → a :: dp <:+ p → s.items.get? (a :: dp) ≠ none ∨ a :: dp <:+ dt) :
    Tidy (moveIfPresent os (a :: s.diskIn dp) (b :: s.diskIn dt) s) ∧
      (moveIfPresent os (a :: s.diskIn dp) (b :: s.diskIn dt) s).items = s.items ∧
      (moveIfPresent os (a :: s.diskIn dp) (b :: s.diskIn dt) s).layout = s.layout := by
  rcases moveIfPresent_cases os (a :: s.diskIn dp) (b :: s.diskIn dt) s with hsame | hr
  · rw [hsame]
    exact ⟨ht, rfl, rfl⟩
  obtain ⟨hclash, -, -, -, ⟨e, he⟩, hinto, -, -⟩ := renameNoreplace_ok hr
  have hplain : s.items.get? (a :: dp) = none := by
    cases hget : s.items.get? (a :: dp) with
    | none => rfl
    | some item =>
      rw [ht.clear a dp item hget] at he
      cases he
  have hunused : s.items.get? (b :: dt) = none := by
    cases hget : s.items.get? (b :: dt) with
    | none => rfl
    | some item =>
      rw [siblingClash_of_row hget] at hclash
      cases hclash
  have hout : ¬ a :: dp <:+ dt := by
    intro hsuf
    have hdisk := diskIn_suffix (s := s) hsuf
    rw [diskIn_cons_none hplain] at hdisk
    exact hinto (hdisk.trans (suffix_cons _ _))
  have hnone : ∀ p item, s.items.get? p = some item → ¬ a :: dp <:+ p := by
    intro p item hp hsuf
    rcases hrows p item hp hsuf with hrow | hin
    · exact hrow hplain
    · exact hout hin
  have hland : s.landing (a :: dp) b dt = b :: s.diskIn dt := by
    rw [landing, diskLeaf_none hplain]
    rfl
  have hr' : renameNoreplace os (s.diskIn (a :: dp)) (s.landing (a :: dp) b dt) s =
      .ok (Files.moveIfPresent os (a :: s.diskIn dp) (b :: s.diskIn dt) s) := by
    rw [hland, diskIn_cons_none hplain]
    exact hr
  obtain ⟨hmove, hl, hi, -, hd⟩ := ht.movable (Layout.Unsealed.cons ha hdp) (Layout.Unsealed.cons hb hdt) hunused
    (fun hne => absurd hplain hne) (fun q item hq => absurd (suffix_append q _) (hnone _ item hq)) hr'
  refine ⟨(hmove.after ht hl (fun p => by rw [hd]) fun p => ?_).1, hi, hl⟩
  rw [hi]
  exact (get?_relocate_of_empty hnone p).symm

theorem formDirName_luna (l : Layout) (formHash : Text → Text) (name rest : Text) :
    isLunaName (formDirName formHash l name ++ rest) = true := by
  rw [formDirName, append_assoc, append_assoc]
  exact l.isLunaName_pfx _

theorem formDirName_ne_trashName (l : Layout) (formHash : Text → Text) (name rest : Text) :
    formDirName formHash l name ++ rest ≠ l.trashName := by
  intro h
  rw [formDirName, append_assoc, append_assoc] at h
  have hends := append_cancel_left h
  have hsplit : "-form-".toList = '-' :: 'f' :: "orm-".toList := by decide
  have hsplit' : "-trash".toList = '-' :: 't' :: "rash".toList := by decide
  exact absurd (cons.inj (cons.inj hends).2).1 (by decide)

theorem responses_ne_trashName (l : Layout) (name : Text) : name ++ ".responses".toList ≠ l.trashName := by
  intro h
  have htrash : "-trash".toList <:+ l.trashName := suffix_append _ _
  have hresponses : ".responses".toList <:+ l.trashName := h ▸ suffix_append _ _
  exact absurd (suffix_of_suffix_length_le htrash hresponses (by decide)) (by decide)

theorem responsesName_ends (name : Text) : responsesName name =
    ('.' :: name.take (name.length - ".lunaform".length) ++ ".lunaform".toList) ++ ".responses".toList := by
  rw [append_assoc]
  rfl

/-- A form's answers file is Luna's own, or stands where everyone sees it. -/
theorem responsesFileNamed_cases {l : Layout} {formHash : Text → Text} {x name : Text} {d a : Path}
    (h : responsesFileNamed formHash l (x :: d) name = some a) :
    isFormPath name = true ∧ ∃ seg, a = seg :: d ∧ l.isDiskName seg = false ∧
      ((isLunaName seg = true ∧ seg ≠ l.trashName) ∨
        (seg = responsesName name ∧ isLunaName x = false ∧ d.head? ≠ some l.trashName)) := by
  obtain ⟨visible, hvisible, h⟩ := bind_eq_some_iff.mp h
  rw [responsesPathNamed] at hvisible
  split at hvisible
  · cases hvisible
  rename_i hform
  rw [not_not] at hform
  refine ⟨hform, ?_⟩
  by_cases hx : isLunaName x = true
  · rw [if_pos hx] at hvisible
    rw [head?_cons, any_some, if_pos hx] at h
    refine ⟨x ++ ".responses".toList, ?_, Layout.isDiskName_responses, .inl ⟨isLunaName_append hx _, ?_⟩⟩
    · rw [← some.inj h, ← some.inj hvisible]
    · exact responses_ne_trashName l x
  · rw [if_neg hx] at hvisible
    rw [head?_cons, any_some, if_neg hx] at h
    split at h
    · refine ⟨formDirName formHash l name ++ ".responses".toList, (some.inj h).symm,
        Layout.isDiskName_responses, .inl ⟨formDirName_luna l formHash name _, ?_⟩⟩
      exact responses_ne_trashName l _
    · rename_i hd
      refine ⟨responsesName name, ?_, ?_, .inr ⟨rfl, Bool.not_eq_true _ ▸ hx, hd⟩⟩
      · rw [← some.inj h, ← some.inj hvisible]
      · rw [responsesName_ends]
        exact Layout.isDiskName_responses

/-- No private item lies inside a plain folder that stands where everyone sees the answers file of this form. -/
def FormsClear (s : Drive) (rel : Path) : Prop :=
  ∀ n d, rel = n :: d → isFormPath n = true → s.items.get? rel = none → d.head? ≠ some s.layout.trashName →
    ∀ p item, s.items.get? p = some item → responsesName n :: d <:+ p → s.items.get? (responsesName n :: d) ≠ none

variable (os) (formHash : Text → Text)

/-- The folder where everyone sees the answers file may be moved: no row lies in it, unless the move is refused. -/
def AnswersClear (s : Drive) (x srcName dstName : Text) (dp dt : Path) : Prop :=
  isLunaName x = false → (s.diskIn dp).head? ≠ some s.layout.trashName → isFormPath srcName = true →
    isFormPath dstName = true → ∀ p item, s.items.get? p = some item → responsesName srcName :: dp <:+ p →
      s.items.get? (responsesName srcName :: dp) ≠ none ∨ responsesName srcName :: dp <:+ dt

variable {x y srcName dstName : Text} {dp dt : Path}

section

variable (ht : Tidy s) (hdp : s.layout.Unsealed dp) (hdt : s.layout.Unsealed dt)
  (hclear : s.AnswersClear x srcName dstName dp dt)
include ht hdp hdt hclear

theorem Tidy.moveResponses :
    Tidy (moveResponses os formHash (x :: s.diskIn dp) srcName (y :: s.diskIn dt) dstName s) := by
  unfold Files.moveResponses
  split
  · rename_i a b ha hb
    obtain ⟨hformSrc, sega, rfl, hsega, hkind⟩ := responsesFileNamed_cases ha
    obtain ⟨hformDst, segb, rfl, hsegb, -⟩ := responsesFileNamed_cases hb
    refine (ht.moveIfPresent os hsega hsegb hdp hdt fun p item hp hsuf => ?_).1
    rcases hkind with ⟨hluna, hne⟩ | ⟨rfl, hx, hd⟩
    · exact absurd hsuf ((ht.proper p item hp).not_beneath hluna hne)
    · exact hclear hx hd hformSrc hformDst p item hp hsuf
  · exact ht

theorem Tidy.repathFormFiles :
    Tidy (repathFormFilesNamed os formHash (x :: s.diskIn dp) srcName (y :: s.diskIn dt) dstName s) := by
  have hdir : ∀ name, s.layout.isDiskName (formDirName formHash s.layout name) = false := fun name => by
    have hname : s.layout.isDiskName (formDirName formHash s.layout name ++ []) = false :=
      Layout.isDiskName_formDirName formHash []
    rwa [append_nil] at hname
  unfold repathFormFilesNamed
  split
  · exact ht
  have hluna := formDirName_luna s.layout formHash srcName []
  have hne := formDirName_ne_trashName s.layout formHash srcName []
  rw [append_nil] at hluna hne
  obtain ⟨htidy, hitems, hlayout⟩ := ht.moveIfPresent os (hdir srcName) (hdir dstName) hdp hdt
    fun p item hp hsuf => absurd hsuf ((ht.proper p item hp).not_beneath hluna hne)
  show Tidy (Files.moveResponses os formHash _ srcName _ dstName (Files.moveIfPresent os
    (formDirName formHash s.layout srcName :: s.diskIn dp) (formDirName formHash s.layout dstName :: s.diskIn dt) s))
  generalize Files.moveIfPresent os (formDirName formHash s.layout srcName :: s.diskIn dp)
    (formDirName formHash s.layout dstName :: s.diskIn dt) s = s' at htidy hitems hlayout ⊢
  have hin : ∀ p, s'.diskIn p = s.diskIn p := fun p => diskIn_congr s s' hlayout fun q _ => by rw [hitems]
  rw [← hin dp, ← hin dt]
  refine htidy.moveResponses os formHash (hlayout ▸ hdp) (hlayout ▸ hdt) ?_
  intro hx hd hformSrc hformDst p item hp hsuf
  rw [hin, hlayout] at hd
  rw [hitems] at hp ⊢
  exact hclear hx hd hformSrc hformDst p item hp hsuf

end

theorem length_responsesName (name : Text) : name.length < (responsesName name).length := by
  rw [responsesName, length_append, length_cons, length_take]
  have : ".lunaform.responses".toList.length = 19 := by decide
  have : ".lunaform".length = 9 := by decide
  omega

theorem responsesName_not_form (name : Text) : isFormPath (responsesName name) = false := by
  rw [← Bool.not_eq_true]
  intro h
  rw [isFormPath, isSuffixOf_iff_suffix, responsesName, map_append] at h
  have hends : (".lunaform.responses".toList.map Char.toLower) <:+
      ('.' :: name.take (name.length - ".lunaform".length)).map Char.toLower ++
        ".lunaform.responses".toList.map Char.toLower := suffix_append _ _
  exact absurd (suffix_of_suffix_length_le h hends (by decide)) (by decide)

/-- What holds before the form moves holds after it. -/
theorem FormsClear.after {n m : Text} (hf : s.FormsClear (n :: dp)) (h : Movable s n dp m dt) (ht : Tidy s)
    (hl : s'.layout = s.layout) (hi : ∀ p, s'.items.get? p = (s.moved (n :: dp) m dt).items.get? p)
    (hin : s'.diskIn dp = s.diskIn dp) (hname : s.items.get? (n :: dp) = none → srcName = n) :
    s'.AnswersClear ((s.diskLeaf (n :: dp)).getD n) srcName m dp dt := by
  intro hx hd hformSrc hformDst p item hp hsuf
  have hplain : s.items.get? (n :: dp) = none := by
    cases hget : s.items.get? (n :: dp) with
    | none => rfl
    | some item =>
      rw [diskLeaf_some hget, getD_some, s.layout.isLunaName_diskName] at hx
      cases hx
  obtain rfl := hname hplain
  have htrash : dp.head? ≠ some s.layout.trashName := by
    intro hhead
    cases dp with
    | nil => cases hhead
    | cons a d =>
      obtain rfl := some.inj hhead
      cases hget : s.items.get? (s.layout.trashName :: d) with
      | none =>
        rw [hin, diskIn_cons_none hget, hl] at hd
        exact hd rfl
      | some item =>
        have hluna := (ht.proper _ item hget).head
        rw [Layout.trashName, s.layout.isLunaName_pfx] at hluna
        cases hluna
  have hdiffers : responsesName srcName :: dp ≠ m :: dt := by
    intro heq
    rw [← (cons.inj heq).1, responsesName_not_form] at hformDst
    cases hformDst
  rw [hi] at hp ⊢
  rcases h.row_cases ht hp with ⟨hget, -, hdst⟩ | ⟨q, rfl, -⟩
  · -- The row stayed, so a private folder holds it, and that folder stayed too.
    refine .inl ?_
    have hrow := hf srcName dp rfl hformSrc hplain htrash p item hget hsuf
    rwa [show (s.moved (srcName :: dp) m dt).items.get? _ = _ from
      get?_relocate_other (h.rows_vacant ht) (fun hin => ?_) fun hin => hdst (hin.trans hsuf)]
    have hlen := congrArg length (cons.inj (hin.eq_of_length (by rw [length_cons, length_cons]))).1
    have := length_responsesName srcName
    omega
  · -- The row came along, so the form went into the folder.
    refine .inr ?_
    rcases suffix_or_suffix_of_suffix hsuf (suffix_append q (m :: dt)) with hin | hin
    · exact (suffix_cons_iff.mp hin).resolve_left hdiffers
    · rcases suffix_cons_iff.mp hin with heq | hin
      · exact absurd heq.symm hdiffers
      · exact absurd (hin.trans (suffix_cons srcName dp)) (h.apart ht)

end Drive

/-! ### The calls -/

theorem bind_ok {ε α β : Type} {x : Except ε α} {f : α → Except ε β} {b : β} (h : (x >>= f) = .ok b) :
    ∃ a, x = .ok a ∧ f a = .ok b := by
  cases x with
  | error e => cases h
  | ok a => exact ⟨a, rfl, h⟩

theorem of_ite_error {ε α : Type} {c : Prop} [Decidable c] {e : ε} {x : Except ε α} {a : α}
    (h : (if c then .error e else x) = .ok a) : ¬ c ∧ x = .ok a := by
  split at h
  · cases h
  · exact ⟨‹_›, h⟩

open Drive

variable {os : Os} {s s' : Drive} {formHash : Text → Text}

theorem createEntry_ok {e : Entry (List UInt8)} (h : createEntry os path e s = .ok s') :
    s.disk.get? path = none ∧ s.isDir path.tail = true ∧ s' = { s with disk := s.disk.put path e } := by
  obtain ⟨htaken, h⟩ := of_ite_error h
  obtain ⟨hrefused, h⟩ := of_ite_error h
  rw [not_or, not_not] at hrefused
  exact ⟨Tree.get?_of_not_taken (Bool.not_eq_true _ ▸ htaken), hrefused.1, (ok.inj h).symm⟩

theorem resolve_ok {rel : Path} (h : s.resolve rel = .ok path) : s.resolveChild rel = .ok path := by
  unfold resolve at h
  split at h
  · rename_i path' hpath
    rw [hpath, ok.inj h]
  · cases h

/-- A path that no segment of Luna's stands in. -/
theorem not_luna_of_not_internal {p : Path} (h : ¬ isInternalTemp p = true) : ∀ seg ∈ p, isLunaName seg = false := by
  intro seg hseg
  rw [isInternalTemp, Bool.or_eq_true, not_or, List.any_eq_true] at h
  rw [← Bool.not_eq_true]
  exact fun hluna => h.1 ⟨seg, hseg, hluna⟩

theorem unsealed_of_not_luna {l : Layout} {p : Path} (h : ∀ seg ∈ p, isLunaName seg = false) : l.Unsealed p :=
  fun seg hseg => Layout.isDiskName_of_not_luna (h seg hseg)

theorem proper_of_not_luna {l : Layout} {p : Path} (hne : p ≠ []) (h : ∀ seg ∈ p, isLunaName seg = false) :
    l.Proper p := ⟨hne, p, [], (append_nil p).symm, h, .inl rfl⟩

theorem Drive.Tidy.root_not_item (ht : Tidy s) : s.items.get? [] = none := by
  cases hget : s.items.get? [] with
  | none => rfl
  | some item => exact absurd rfl (ht.proper _ item hget).1

/-- A plain entry made where a path leads. -/
theorem Drive.Tidy.createEntry (ht : Tidy s) {rel : Path} (hne : rel ≠ []) (hrel : s.layout.Unsealed rel)
    {e : Entry (List UInt8)} (h : createEntry os (s.diskIn rel) e s = .ok s') : Tidy s' := by
  obtain ⟨hfree, hdir, rfl⟩ := createEntry_ok h
  cases rel with
  | nil => exact absurd rfl hne
  | cons n d =>
    have hrow : s.items.get? (n :: d) = none := by
      cases hget : s.items.get? (n :: d) with
      | none => rfl
      | some item =>
        obtain ⟨e', he'⟩ := ht.leads _ item hget
        rw [hfree] at he'
        cases he'
    rw [diskIn_cons_none hrow] at hfree hdir ⊢
    exact ht.put_plain hrel.tail (hrel n mem_cons_self) (isDir_iff.mp hdir) hrow hfree e

/-- A folder is made outside the trash. -/
theorem mkdirAs_ok (ht : Tidy s) {newId : ItemId} {rel : Text} {owner : Option Text}
    (h : mkdirAs os newId rel owner s = .ok s') :
    Tidy s' ∧ s'.layout = s.layout ∧ s'.trashMeta = s.trashMeta ∧
      ∀ p, (∃ seg ∈ p, isLunaName seg = true) ∨ p = [] → s'.items.get? p = s.items.get? p := by
  obtain ⟨p, -, h⟩ := bind_ok h
  obtain ⟨hne, h⟩ := of_ite_error h
  obtain ⟨hreserved, h⟩ := of_ite_error h
  obtain ⟨hdir, h⟩ := of_ite_error h
  rw [not_or] at hreserved
  have hluna := not_luna_of_not_internal hreserved.1
  cases owner with
  | none =>
    refine ⟨ht.createEntry hne (unsealed_of_not_luna hluna) h, ?_⟩
    rw [(createEntry_ok h).2.2]
    exact ⟨rfl, rfl, fun _ _ => rfl⟩
  | some owner =>
    obtain ⟨htaken, h⟩ := of_ite_error h
    obtain ⟨s₁, hrow, h⟩ := bind_ok h
    obtain ⟨hunique, hrow⟩ := of_ite_error hrow
    obtain rfl := ok.inj hrow
    obtain ⟨hnew, -, rfl⟩ := createEntry_ok h
    refine ⟨?_, rfl, rfl, fun p' hp => get?_put_of_ne _ _ ?_⟩
    · rw [not_or, Bool.not_eq_true, not_isSome_iff_eq_none] at htaken
      rw [not_or, Bool.not_eq_true, ← Bool.not_eq_true, any_iff] at hunique
      cases p with
      | nil => exact absurd rfl hne
      | cons n d =>
        have hunused : s.items.get? (n :: d) = none := htaken.2
        have hfree := Tree.get?_of_not_taken htaken.1
        rw [diskIn_cons_none hunused] at hfree
        have hrow' : (s.items.put (n :: d) ⟨newId, owner⟩).get? (n :: d) = some ⟨newId, owner⟩ :=
          get?_put_self _ _ _
        have hd : Drive.diskIn { s with items := s.items.put (n :: d) ⟨newId, owner⟩ } d = s.diskIn d := by
          refine diskIn_congr s { s with items := s.items.put (n :: d) ⟨newId, owner⟩ } rfl fun q hq => ?_
          refine get?_put_of_ne _ _ ?_
          rintro rfl
          exact Movable.not_into_self n d hq
        rw [diskIn_cons_some hrow', hd] at hnew ⊢
        rw [not_not] at hdir
        refine ht.put_private (proper_of_not_luna hne hluna) (isDir_iff.mp hdir) hunused hfree
          (fun q item hq hid => hunique.1 ⟨q, item, hq, decide_eq_true hid⟩) hnew .dir
    · rintro rfl
      rcases hp with ⟨seg, hseg, hname⟩ | hnil
      · rw [hluna seg hseg] at hname
        cases hname
      · exact hne hnil

theorem create_ok (ht : Tidy s) {rel : Text} (h : create os rel s = .ok s') :
    Tidy s' ∧ s'.layout = s.layout ∧ s'.items = s.items ∧ s'.trashMeta = s.trashMeta := by
  obtain ⟨p, -, h⟩ := bind_ok h
  cases p with
  | nil => cases h
  | cons n d =>
    obtain ⟨-, -, h⟩ := bind_ok h
    obtain ⟨hreserved, h⟩ := of_ite_error h
    obtain ⟨-, h⟩ := of_ite_error h
    refine ⟨ht.createEntry (cons_ne_nil n d) (unsealed_of_not_luna (not_luna_of_not_internal hreserved)) h, ?_⟩
    rw [(createEntry_ok h).2.2]
    exact ⟨rfl, rfl, rfl⟩

/-! ### Renames and moves -/

theorem repath_ok {src dst : Path} (h : repath src dst s = .ok s') (hne : src ≠ dst) :
    s' = { s with items := s.items.relocate src dst } := by
  unfold repath at h
  rw [if_neg hne] at h
  exact (ok.inj (of_ite_error h).2).symm

/-- The files of a form go along with it. -/
theorem Drive.Movable.forms {n m srcName dstName : Text} {dp dt : Path} (h : Movable s n dp m dt) (ht : Tidy s)
    (hl : s'.layout = s.layout) (hd : ∀ p, s'.disk.get? p = (s.moved (n :: dp) m dt).disk.get? p)
    (hi : ∀ p, s'.items.get? p = (s.moved (n :: dp) m dt).items.get? p)
    (hclear : s'.AnswersClear ((s.diskLeaf (n :: dp)).getD n) srcName dstName dp dt) :
    Tidy (repathFormFilesNamed os formHash (s.diskIn (n :: dp)) srcName (s.landing (n :: dp) m dt) dstName s') := by
  obtain ⟨htidy, hdp, hdt⟩ := h.after ht hl hd hi
  rw [diskIn, landing, ← hdp, ← hdt]
  exact htidy.repathFormFiles os formHash (hl ▸ h.source.tail) (hl ▸ h.target.tail) hclear

/-- Only the disk changes. -/
theorem moveIfPresent_rows (os : Os) (src dst : Path) (s : Drive) :
    (moveIfPresent os src dst s).layout = s.layout ∧ (moveIfPresent os src dst s).items = s.items ∧
      (moveIfPresent os src dst s).trashMeta = s.trashMeta := by
  rcases moveIfPresent_cases os src dst s with hsame | hr
  · rw [hsame]
    exact ⟨rfl, rfl, rfl⟩
  · rw [(renameNoreplace_ok hr).2.2.2.2.2.2.2]
    exact ⟨rfl, rfl, rfl⟩

theorem repathFormFilesNamed_rows (os : Os) (formHash : Text → Text) (src : Path) (srcName : Text) (dst : Path)
    (dstName : Text) (s : Drive) :
    (repathFormFilesNamed os formHash src srcName dst dstName s).layout = s.layout ∧
      (repathFormFilesNamed os formHash src srcName dst dstName s).items = s.items ∧
      (repathFormFilesNamed os formHash src srcName dst dstName s).trashMeta = s.trashMeta := by
  unfold repathFormFilesNamed
  split
  · exact ⟨rfl, rfl, rfl⟩
  obtain ⟨hl, hi, hm⟩ := moveIfPresent_rows os (filesDirNamed formHash s.layout src srcName)
    (filesDirNamed formHash s.layout dst dstName) s
  unfold moveResponses
  split
  · next a b _ _ =>
      obtain ⟨hl', hi', hm'⟩ := moveIfPresent_rows os a b (moveIfPresent os (filesDirNamed formHash s.layout src srcName)
        (filesDirNamed formHash s.layout dst dstName) s)
      exact ⟨hl'.trans hl, hi'.trans hi, hm'.trans hm⟩
  · exact ⟨hl, hi, hm⟩

/-- The branch at `n :: dp` has gone to `m :: dt`, and nothing else has changed but files of forms. -/
structure Drive.Shift (s s' : Drive) (n : Text) (dp : Path) (m : Text) (dt : Path) : Prop where
  movable : Movable s n dp m dt
  layout : s'.layout = s.layout
  items : ∀ p, s'.items.get? p = (s.moved (n :: dp) m dt).items.get? p
  tidy : Tidy s'

theorem Drive.Movable.shift {n m srcName dstName : Text} {dp dt : Path} (h : Movable s n dp m dt) (ht : Tidy s)
    (hl : s'.layout = s.layout) (hd : ∀ p, s'.disk.get? p = (s.moved (n :: dp) m dt).disk.get? p)
    (hi : ∀ p, s'.items.get? p = (s.moved (n :: dp) m dt).items.get? p)
    (hclear : s'.AnswersClear ((s.diskLeaf (n :: dp)).getD n) srcName dstName dp dt) :
    Shift s (repathFormFilesNamed os formHash (s.diskIn (n :: dp)) srcName (s.landing (n :: dp) m dt) dstName s')
      n dp m dt := by
  obtain ⟨hl', hi', -⟩ := repathFormFilesNamed_rows os formHash (s.diskIn (n :: dp)) srcName (s.landing (n :: dp) m dt)
    dstName s'
  exact ⟨h, hl'.trans hl, fun p => by rw [hi', hi], h.forms ht hl hd hi hclear⟩

theorem Drive.Shift.congr {s₁ s₂ : Drive} {n m : Text} {dp dt : Path} (h : Shift s s₁ n dp m dt)
    (hl : s₂.layout = s₁.layout) (hd : s₂.disk = s₁.disk) (hi : s₂.items = s₁.items) : Shift s s₂ n dp m dt :=
  ⟨h.movable, hl.trans h.layout, fun p => by rw [hi, h.items],
    h.tidy.congr hl (fun p => by rw [hd]) fun p => by rw [hi]⟩

/-- A rename on disk, then among the rows. -/
theorem Drive.Tidy.renamed {s₁ s₂ : Drive} {n m : Text} {dp dt : Path} (ht : Tidy s)
    (hsrc : s.layout.Unsealed (n :: dp)) (hdst : s.layout.Unsealed (m :: dt)) (hrow : s.items.get? (m :: dt) = none)
    (hfree : s.items.get? (n :: dp) ≠ none → s.disk.get? (m :: s.diskIn dt) = none)
    (hproper : ∀ q item, s.items.get? (q ++ n :: dp) = some item → s.layout.Proper (m :: dt))
    (hr : renameNoreplace os (s.diskIn (n :: dp)) (s.landing (n :: dp) m dt) s = .ok s₁)
    (hp : repath (n :: dp) (m :: dt) s₁ = .ok s₂) :
    Movable s n dp m dt ∧ s₂.layout = s.layout ∧ (∀ p, s₂.disk.get? p = (s.moved (n :: dp) m dt).disk.get? p) ∧
      ∀ p, s₂.items.get? p = (s.moved (n :: dp) m dt).items.get? p := by
  obtain ⟨hmove, hl, hi, -, hd⟩ := ht.movable hsrc hdst hrow hfree hproper hr
  have hne : n :: dp ≠ m :: dt := by
    intro heq
    exact hmove.apart ht (heq ▸ suffix_refl _)
  obtain rfl := repath_ok hp hne
  refine ⟨hmove, hl, fun p => by rw [← hd], fun p => ?_⟩
  show (s₁.items.relocate (n :: dp) (m :: dt)).get? p = (s.items.relocate (n :: dp) (m :: dt)).get? p
  rw [hi]

theorem isLunaName_of_head {name : Text} (h : name.head? ≠ some '.') : isLunaName name = false := by
  rw [← Bool.not_eq_true]
  intro hluna
  obtain ⟨p, hp⟩ := isSome_iff_exists.mp hluna
  obtain ⟨rest, hrest⟩ := isPrefixOf_iff_prefix.mp (extractPrefix_eq_some hp).1
  rw [← hrest] at h
  exact h rfl

theorem safeName_ok {name out : Text} (h : safeName name = .ok out) : out = trim name ∧ isLunaName out = false := by
  obtain ⟨-, h⟩ := of_ite_error h
  obtain ⟨-, h⟩ := of_ite_error h
  obtain ⟨hreserved, h⟩ := of_ite_error h
  obtain rfl := ok.inj h
  rw [not_or, Bool.not_eq_true] at hreserved
  exact ⟨rfl, hreserved.1⟩

/-- What a trash entry's name starts with is a number or a dash. -/
theorem head?_of_originalName {entry : Text} (h : originalNameFromTrash entry ≠ entry) : entry.head? ≠ some '.' := by
  intro hhead
  cases entry with
  | nil => cases hhead
  | cons ch rest =>
    obtain rfl := some.inj hhead
    apply h
    have htake : ('.' :: rest).takeWhile (· ≠ '-') = '.' :: rest.takeWhile (· ≠ '-') :=
      takeWhile_cons_of_pos (by decide)
    unfold originalNameFromTrash splitOnce
    rw [htake]
    split
    · rfl
    rename_i first rest' hsplit
    split at hsplit
    · cases hsplit
    · obtain ⟨rfl, -⟩ := Prod.mk.inj (some.inj hsplit)
      rw [if_pos]
      exact Bool.false_ne_true

section

variable (rel : Path)

include rel

theorem isLunaName_renamedTo {newName : Text} (h : isLunaName newName = false) :
    isLunaName (renamedTo rel newName) = false := by
  unfold renamedTo
  split
  · rename_i entry hentry
    by_cases hsame : originalNameFromTrash entry = entry
    · rw [hsame, Nat.sub_self, take_zero]
      exact h
    cases hlead : entry.take (entry.length - (originalNameFromTrash entry).length) with
    | nil => exact h
    | cons ch rest =>
      apply isLunaName_of_head
      have hhead := head?_of_originalName hsame
      rw [← take_append_drop (entry.length - (originalNameFromTrash entry).length) entry, hlead] at hhead
      exact hhead
  · exact h

theorem retitle_rows (newName : Text) (s : Drive) :
    (retitle rel newName s).layout = s.layout ∧ (retitle rel newName s).disk = s.disk ∧
      (retitle rel newName s).items = s.items := by
  unfold retitle
  split
  · split <;> exact ⟨rfl, rfl, rfl⟩
  · exact ⟨rfl, rfl, rfl⟩

theorem retitle_trashMeta (newName : Text) (h : s'.trashMeta = s.trashMeta) :
    (retitle rel newName s').trashMeta = (retitle rel newName s).trashMeta := by
  unfold retitle
  split
  · rw [h]
    split
    · exact h
    · rfl
  · exact h

theorem forgetOrigin_rows (s : Drive) : (forgetOrigin rel s).layout = s.layout ∧ (forgetOrigin rel s).disk = s.disk ∧
      (forgetOrigin rel s).items = s.items := by
  unfold forgetOrigin
  split <;> exact ⟨rfl, rfl, rfl⟩

theorem forgetOrigin_trashMeta (h : s'.trashMeta = s.trashMeta) :
    (forgetOrigin rel s').trashMeta = (forgetOrigin rel s).trashMeta := by
  unfold forgetOrigin
  split
  · rw [h]
  · exact h

end

theorem renameNoreplace_trashMeta {src dst : Path} (h : renameNoreplace os src dst s = .ok s') :
    s'.trashMeta = s.trashMeta := by
  rw [(renameNoreplace_ok h).2.2.2.2.2.2.2]

theorem renameOnDisk_trashMeta {rel newReal dest : Path} (h : renameOnDisk os rel newReal path dest s = .ok s') :
    s'.trashMeta = s.trashMeta := by
  unfold renameOnDisk at h
  split at h
  · obtain ⟨-, h⟩ := of_ite_error h
    rw [← ok.inj h]
  · exact renameNoreplace_trashMeta h

theorem repath_trashMeta {src dst : Path} (h : repath src dst s = .ok s') : s'.trashMeta = s.trashMeta := by
  unfold repath at h
  split at h
  · rw [← ok.inj h]
  · obtain ⟨-, h⟩ := of_ite_error h
    rw [← ok.inj h]

variable (ht : Tidy s)

include ht

theorem forgetOrigin_tidy (rel : Path) : Tidy (forgetOrigin rel s) := by
  unfold forgetOrigin
  split
  · exact ht.congr rfl (fun _ => rfl) fun _ => rfl
  · exact ht

/-- A private item renamed in its folder: only its row changes. -/
theorem Drive.Tidy.movable_row {n m : Text} {dp : Path} {item : Item}
    (hitem : s.items.get? (n :: dp) = some item) (hm : isLunaName m = false)
    (hunused : s.items.get? (m :: dp) = none) (hfree : s.disk.get? (m :: s.diskIn dp) = none) :
    Movable s n dp m dp ∧ ∀ p, s.disk.get? p = (s.moved (n :: dp) m dp).disk.get? p := by
  obtain ⟨e, he⟩ := ht.leads _ item hitem
  have hland : s.landing (n :: dp) m dp = s.diskIn (n :: dp) := by
    rw [landing, diskLeaf_some hitem, diskIn_cons_some hitem]
    rfl
  have hvacant : Table.Vacant (s.diskIn (n :: dp)) (s.landing (n :: dp) m dp) s.disk := by
    rw [hland]
    exact fun _ _ _ hsuf => hsuf
  have hunsealed := ht.unsealed hitem
  refine ⟨⟨hunsealed, ⟨e, he⟩, Layout.Unsealed.cons (Layout.isDiskName_of_not_luna hm) hunsealed.tail, ?_,
    Movable.not_into_self n dp, hunused, hfree, hvacant, fun q item hq => (ht.proper _ item hq).renamed hm⟩, ?_⟩
  · exact ht.grown _ _ e trivial he
  · intro p
    apply Option.ext
    intro v
    rw [show (s.moved (n :: dp) m dp).disk.get? p = some v ↔ _ from get?_relocate_some hvacant, hland]
    by_cases hsuf : s.diskIn (n :: dp) <:+ p
    · obtain ⟨q, rfl⟩ := hsuf
      refine ⟨fun hget => .inr ⟨q, rfl, hget⟩, ?_⟩
      rintro (⟨hget, -⟩ | ⟨q', hq, hget⟩)
      · exact hget
      · exact (append_cancel_right hq) ▸ hget
    · refine ⟨fun hget => .inl ⟨hget, hsuf⟩, ?_⟩
      rintro (⟨hget, -⟩ | ⟨q', rfl, -⟩)
      · exact hget
      · exact absurd (suffix_append q' _) hsuf

theorem rename_shift {rel newName : Text} (h : rename os formHash rel newName s = .ok s')
    (hclean : ∀ apiRel, canonicalPath rel = .ok apiRel → s.FormsClear (s.realRel apiRel) ∧
      (s.items.get? (s.realRel apiRel) ≠ none →
        s.disk.get? (s.diskIn (renamedTo (s.realRel apiRel) (trim newName) :: (s.realRel apiRel).tail)) ≠ some .link)) :
    ∃ apiRel n dp, canonicalPath rel = .ok apiRel ∧ s.realRel apiRel = n :: dp ∧
      (isTrashRel (n :: dp) = true → isTrashApi apiRel = true ∧ dp ≠ []) ∧
      isLunaName (renamedTo (n :: dp) (trim newName)) = false ∧ Shift s s' n dp (renamedTo (n :: dp) (trim newName)) dp ∧
      s'.trashMeta = (retitle (n :: dp) (trim newName) s).trashMeta := by
  obtain ⟨name, hname, h⟩ := bind_ok h
  obtain ⟨hout, hluna⟩ := safeName_ok hname
  obtain ⟨-, h⟩ := of_ite_error h
  obtain ⟨apiRel, hapi, h⟩ := bind_ok h
  obtain ⟨hforms, hlink⟩ := hclean apiRel hapi
  rw [← hout] at hlink
  obtain ⟨htrash, h⟩ := of_ite_error h
  obtain ⟨-, h⟩ := of_ite_error h
  obtain ⟨hitself, h⟩ := of_ite_error h
  rw [not_and, not_not] at htrash
  obtain ⟨path, hpath, h⟩ := bind_ok h
  obtain ⟨hunused, h⟩ := of_ite_error h
  obtain ⟨s₁, hs₁, h⟩ := bind_ok h
  obtain ⟨s₂, hs₂, h⟩ := bind_ok h
  obtain rfl := ok.inj h
  obtain ⟨rfl, hunsealed, hstands⟩ := ht.resolveChild_ok (resolve_ok hpath)
  rw [← hout]
  have hm := isLunaName_renamedTo (s.realRel apiRel) hluna
  rw [not_isSome_iff_eq_none] at hunused
  refine ⟨apiRel, ?_⟩
  generalize s.realRel apiRel = p at *
  cases p with
  | nil =>
    have hnone : s.items.get? [] = none := ht.root_not_item
    rw [renameOnDisk, diskLeaf_none hnone] at hs₁
    exact absurd rfl (renameNoreplace_ok hs₁).2.1
  | cons n dp =>
    have hmeta : s₂.trashMeta = s.trashMeta := (repath_trashMeta hs₂).trans (renameOnDisk_trashMeta hs₁)
    have hintrash : isTrashRel (n :: dp) = true → isTrashApi apiRel = true ∧ dp ≠ [] := by
      intro hrel
      refine ⟨htrash hrel, ?_⟩
      rintro rfl
      exact hitself ⟨hrel, by rw [trashEntryParts, if_pos hrel]; rfl⟩
    have finish : ∀ {path dest : Path} {x y : Text},
        Shift s (repathFormFilesNamed os formHash path x dest y s₂) n dp (renamedTo (n :: dp) name) dp →
        Shift s (retitle (n :: dp) name (repathFormFilesNamed os formHash path x dest y s₂)) n dp
            (renamedTo (n :: dp) name) dp ∧
          (retitle (n :: dp) name (repathFormFilesNamed os formHash path x dest y s₂)).trashMeta =
            (retitle (n :: dp) name s).trashMeta := by
      intro path dest x y hshift
      obtain ⟨hl, hd, hi⟩ := retitle_rows (n :: dp) name (repathFormFilesNamed os formHash path x dest y s₂)
      exact ⟨hshift.congr hl hd hi,
        retitle_trashMeta _ _ ((repathFormFilesNamed_rows os formHash path x dest y s₂).2.2.trans hmeta)⟩
    cases hitem : s.items.get? (n :: dp) with
    | none =>
      rw [renameOnDisk, if_neg (by simp [isSome_diskLeaf, hitem])] at hs₁
      obtain ⟨hmove, hl, hd, hi⟩ := ht.renamed hunsealed
        (Layout.Unsealed.cons (Layout.isDiskName_of_not_luna hm) hunsealed.tail) hunused
        (fun hne => absurd hitem hne) (fun q item hq => (ht.proper _ item hq).renamed hm) hs₁ hs₂
      refine ⟨n, dp, hapi, rfl, hintrash, hm, finish (hmove.shift ht hl hd hi ?_)⟩
      exact hforms.after hmove ht hl hi (hmove.after ht hl hd hi).2.1 fun _ => rfl
    | some item =>
      rw [renameOnDisk, if_pos (by simp [isSome_diskLeaf, hitem])] at hs₁
      obtain ⟨hnot, hs₁⟩ := of_ite_error hs₁
      obtain rfl := ok.inj hs₁
      have hdisk : s.diskIn (renamedTo (n :: dp) name :: dp) = renamedTo (n :: dp) name :: s.diskIn dp :=
        diskIn_cons_none hunused
      have htarget : s.layout.Unsealed (renamedTo (n :: dp) name :: dp) :=
        Layout.Unsealed.cons (Layout.isDiskName_of_not_luna hm) hunsealed.tail
      have hfree := ht.free_of_resolveChild (cons_ne_nil _ _) htarget (Bool.not_eq_true _ ▸ hnot)
        (hlink (by rw [hitem]; exact some_ne_none _))
      rw [hdisk] at hfree
      obtain ⟨hmove, hd⟩ := ht.movable_row hitem hm hunused hfree
      have hne : n :: dp ≠ renamedTo (n :: dp) name :: dp := by
        intro heq
        have hsame : s.items.get? (renamedTo (n :: dp) name :: dp) = none := hunused
        rw [← heq, hitem] at hsame
        cases hsame
      have hs₂' := repath_ok hs₂ hne
      have hl : s₂.layout = s.layout := by rw [hs₂']
      have hd' : ∀ p, s₂.disk.get? p = (s.moved (n :: dp) (renamedTo (n :: dp) name) dp).disk.get? p := by
        rw [hs₂']
        exact hd
      have hi : ∀ p, s₂.items.get? p = (s.moved (n :: dp) (renamedTo (n :: dp) name) dp).items.get? p := by
        rw [hs₂']
        exact fun _ => rfl
      refine ⟨n, dp, hapi, rfl, hintrash, hm, finish (hmove.shift ht hl hd' hi ?_)⟩
      exact hforms.after hmove ht hl hi (hmove.after ht hl hd' hi).2.1 fun _ => rfl

theorem moveRel_shift {src dst : Text} (h : moveRel os formHash src dst s = .ok s')
    (hclean : ∀ apiSrc apiDst, canonicalPath src = .ok apiSrc → canonicalPath dst = .ok apiDst →
      s.FormsClear (s.realRel apiSrc) ∧
        (s.items.get? (s.realRel apiSrc) ≠ none → s.disk.get? (s.diskIn (s.realRel apiDst)) ≠ some .link)) :
    ∃ apiSrc n dp m dt, canonicalPath src = .ok apiSrc ∧ s.realRel apiSrc = n :: dp ∧
      (isTrashRel (n :: dp) = true → isTrashApi apiSrc = true) ∧ Shift s s' n dp m dt ∧
      (∀ seg ∈ m :: dt, isLunaName seg = false) ∧ s'.trashMeta = (forgetOrigin (n :: dp) s).trashMeta := by
  obtain ⟨apiSrc, hapiSrc, h⟩ := bind_ok h
  obtain ⟨apiDst, hapiDst, h⟩ := bind_ok h
  obtain ⟨hforms, hlink⟩ := hclean apiSrc apiDst hapiSrc hapiDst
  obtain ⟨htrash, h⟩ := of_ite_error h
  rw [not_and, not_not] at htrash
  obtain ⟨hreserved, h⟩ := of_ite_error h
  obtain ⟨path, hpath, h⟩ := bind_ok h
  obtain ⟨-, h⟩ := of_ite_error h
  obtain ⟨hdir, h⟩ := of_ite_error h
  obtain ⟨hresolved, h⟩ := of_ite_error h
  obtain ⟨hunused, h⟩ := of_ite_error h
  obtain ⟨s₁, hs₁, h⟩ := bind_ok h
  obtain ⟨s₂, hs₂, h⟩ := bind_ok h
  obtain rfl := ok.inj h
  have hmeta : s₂.trashMeta = s.trashMeta := (repath_trashMeta hs₂).trans (renameNoreplace_trashMeta hs₁)
  obtain ⟨rfl, hunsealed, hstands⟩ := ht.resolveChild_ok (resolve_ok hpath)
  rw [not_or, not_or] at hreserved
  have hluna := not_luna_of_not_internal hreserved.2.1
  rw [not_isSome_iff_eq_none] at hunused
  refine ⟨apiSrc, ?_⟩
  generalize s.realRel apiSrc = p at *
  generalize s.realRel apiDst = q at *
  cases p with
  | nil => exact absurd rfl (renameNoreplace_ok hs₁).2.1
  | cons n dp =>
    cases q with
    | nil =>
      cases hitem : s.items.get? (n :: dp) with
      | none =>
        rw [moveTarget, diskLeaf_none hitem] at hs₁
        exact absurd rfl (renameNoreplace_ok hs₁).2.2.1
      | some item => exact absurd ⟨by rw [isSome_diskLeaf, hitem]; rfl, rfl⟩ hresolved
    | cons m dt =>
      have hunused' : s.items.get? (m :: dt) = none := hunused
      have htarget : s.layout.Unsealed (m :: dt) := unsealed_of_not_luna hluna
      have hland : moveTarget (n :: dp) (m :: dt) s = s.landing (n :: dp) m dt := by
        rw [moveTarget, landing, diskIn_cons_none hunused']
        cases s.diskLeaf (n :: dp) <;> rfl
      have hfree : s.items.get? (n :: dp) ≠ none → s.disk.get? (m :: s.diskIn dt) = none := by
        intro hitem
        have hnot : (s.resolveChild (m :: dt)).isOk = false := by
          rw [not_and, isSome_diskLeaf] at hresolved
          exact Bool.not_eq_true _ ▸ hresolved (isSome_iff_ne_none.mpr hitem)
        have hfree := ht.free_of_resolveChild (cons_ne_nil m dt) htarget hnot (hlink hitem)
        rwa [diskIn_cons_none hunused'] at hfree
      rw [hland] at hs₁ ⊢
      obtain ⟨hmove, hl, hd, hi⟩ := ht.renamed hunsealed htarget hunused' hfree
        (fun q item hq => proper_of_not_luna (cons_ne_nil m dt) hluna) hs₁ hs₂
      have hshift : Shift s (repathFormFilesNamed os formHash (s.diskIn (n :: dp)) n (s.landing (n :: dp) m dt) m s₂)
          n dp m dt := by
        refine hmove.shift ht hl hd hi ?_
        exact hforms.after hmove ht hl hi (hmove.after ht hl hd hi).2.1 fun _ => rfl
      obtain ⟨hl', hd', hi'⟩ := forgetOrigin_rows (n :: dp)
        (repathFormFilesNamed os formHash (s.diskIn (n :: dp)) n (s.landing (n :: dp) m dt) m s₂)
      refine ⟨n, dp, m, dt, hapiSrc, rfl, htrash, hshift.congr hl' hd' hi', hluna, ?_⟩
      exact forgetOrigin_trashMeta _ ((repathFormFilesNamed_rows os formHash _ _ _ _ s₂).2.2.trans hmeta)

end LibreServ.Files
