import LibreServ.PurgeOrphan
import LibreServ.SyncKeeps

/-! Lifting one item out. Where no operation fails, an item with a row finds a free name in the folder it goes to, and
disk, rows and grants move together. -/

namespace LibreServ.Files

open FileTree Drive List Option Table

variable {name : Text}

/-- No operation fails. -/
structure Steps.Unfailing (e : Steps) : Prop extends Steps.Calm e where
  renames : ∀ p q, e.os.renames p q = true
  removes : ∀ p, e.os.removes p = true

variable {e : Steps} {order : RowOrder} {driveId user : Text} {s : Drive} {w : Stores}

/-! ### Walks -/

theorem Drive.walkNofollow_dir (hg : Grown s.disk) {d : Path} (hd : d = [] ∨ s.disk.get? d = some .dir) (mayMiss : Bool) :
    s.walkNofollow mayMiss d = .ok true := by
  induction d with
  | nil => rfl
  | cons seg d ih =>
    have hdir : s.disk.get? (seg :: d) = some .dir := hd.resolve_left (cons_ne_nil _ _)
    rw [walkNofollow, ih (hg seg d _ trivial hdir), ok_bind]
    simp only [hdir]
    rfl

/-- What stands and is no link is walked to. -/
theorem Drive.walkNofollow_stands (hg : Grown s.disk) {x : Path} {entry : Entry (List UInt8)}
    (hx : s.disk.get? x = some entry) (hlink : entry ≠ .link) (mayMiss : Bool) : s.walkNofollow mayMiss x = .ok true := by
  cases x with
  | nil => rfl
  | cons seg d =>
    rw [walkNofollow, walkNofollow_dir hg (hg seg d _ trivial hx), ok_bind]
    cases entry with
    | file f | dir => simp only [hx]; rfl
    | link => exact absurd rfl hlink

theorem Drive.resolveNofollow_of_walk {rel : Path} {mayMiss there : Bool}
    (h : s.walkNofollow mayMiss (s.diskIn rel) = .ok there) : s.resolveNofollow mayMiss rel = .ok (s.diskIn rel) := by
  rw [resolveNofollow, h]
  rfl

/-! ### Free names -/

theorem liftName_injective (name : Text) : Function.Injective (liftName name) := by
  intro i j hij
  unfold liftName at hij
  have hlong : ∀ k : Nat, name ≠ name ++ ' ' :: '(' :: Nat.toDigits 10 k ++ [')'] := by
    intro k hk
    have hlen := congrArg length hk
    simp only [length_append, length_cons] at hlen
    omega
  split at hij
  · split at hij
    · omega
    · exact absurd hij (hlong j)
  split at hij
  · exact absurd hij.symm (hlong i)
  · have hdigits : Nat.toDigits 10 i = Nat.toDigits 10 j := by
      have hrest := append_cancel_right hij
      exact (cons.inj (cons.inj (append_cancel_left hrest)).2).2
    exact Sync.toDigits_injective hdigits

/-- Whether a name is Luna's is said by its first 42 characters. -/
theorem isLunaName_of_append {rest : Text} (hlong : 42 ≤ name.length) (h : isLunaName (name ++ rest) = true) :
    isLunaName name = true := by
  obtain ⟨p, hp⟩ := isSome_iff_exists.mp h
  obtain ⟨hlead, huuid, -⟩ := extractPrefix_eq_some hp
  have hlead' : markerLead.isPrefixOf name = true := by
    refine isPrefixOf_iff_prefix.mpr ?_
    refine prefix_of_prefix_length_le (List.isPrefixOf_iff_prefix.mp hlead) (prefix_append name rest) ?_
    have hlen : markerLead.length = 6 := by decide
    omega
  rw [drop_append_of_le_length (by omega), take_append_of_le_length (by rw [length_drop]; omega)] at huuid
  rw [isLunaName, extractPrefix, hlead', huuid]
  rfl

/-- And there is no blank among them. -/
theorem blank_not_mem_of_isLunaName (h : isLunaName name = true) : ' ' ∉ name.take 42 := by
  obtain ⟨p, hp⟩ := isSome_iff_exists.mp h
  obtain ⟨hlead, huuid, -⟩ := extractPrefix_eq_some hp
  obtain ⟨rest, rfl⟩ := isPrefixOf_iff_prefix.mp hlead
  rw [isUuid, Bool.and_eq_true, List.all_eq_true] at huuid
  rw [List.take_append, mem_append, not_or]
  refine ⟨by decide, fun hmem => ?_⟩
  have hshort : 42 - markerLead.length = 36 := by decide
  obtain ⟨i, hi, hget⟩ := mem_iff_getElem.mp hmem
  have hblank := huuid.2 (' ', i) (mem_zipIdx_iff_getElem?.mpr (List.getElem?_eq_some_iff.mpr ⟨hi, hget⟩))
  have hdash : decide (' ' = '-') = false := by decide
  have hhex : isHexDigit ' ' = false := by decide
  rw [hdash, hhex, ite_self] at hblank
  cases hblank

/-- So a number behind a name makes none of Luna's. -/
theorem isLunaName_liftName (h : isLunaName name = false) (n : Nat) :
    isLunaName (liftName name n) = false := by
  unfold liftName
  split
  · exact h
  rw [← Bool.not_eq_true]
  intro hluna
  rw [append_assoc] at hluna
  by_cases hlong : 42 ≤ name.length
  · rw [isLunaName_of_append hlong hluna] at h
    cases h
  · have hblank := blank_not_mem_of_isLunaName hluna
    rw [List.take_append, mem_append, not_or] at hblank
    apply hblank.2
    rw [show 42 - name.length = (41 - name.length) + 1 by omega]
    exact mem_cons_self

theorem Drive.row_of_siblingClash {dir : Path} (h : s.siblingClash (name :: dir) = true) :
    ∃ d item, s.items.get? (name :: d) = some item := by
  rw [siblingClash, any_iff] at h
  obtain ⟨p, item, hp, hname⟩ := h
  rw [Bool.and_eq_true, decide_eq_true_eq] at hname
  cases p with
  | nil => cases hname.1
  | cons n d =>
    rw [some.inj hname.1] at hp
    exact ⟨d, item, hp⟩

theorem liftTaken_free (dir : Path) (s : Drive) (name : Text) :
    liftTaken dir s (firstFree (liftTaken dir s) (liftName name) (s.items.rows.length + s.disk.rows.length) 0) = false := by
  have hused : ∀ a, liftTaken dir s a = true →
      a ∈ s.items.rows.map (fun r => r.1.head?.getD []) ++ s.disk.rows.map fun r => r.1.head?.getD [] := by
    intro a ha
    rw [liftTaken, Bool.or_eq_true] at ha
    rw [mem_append, List.mem_map, List.mem_map]
    rcases ha with ha | ha
    · obtain ⟨d, item, hp⟩ := row_of_siblingClash ha
      exact .inl ⟨(a :: d, item), mem_rows.mpr hp, rfl⟩
    · rw [Tree.taken, Bool.or_eq_true, decide_eq_true_eq] at ha
      obtain ⟨entry, hentry⟩ := isSome_iff_exists.mp (ha.resolve_left (cons_ne_nil _ _))
      exact .inr ⟨(a :: dir, entry), mem_rows.mpr hentry, rfl⟩
  have hfree := firstFree_free (liftName_injective name) hused 0
  rwa [length_append, length_map, length_map] at hfree

/-! ### The lift -/

/-- What a lift takes for granted: the item stands, and the folder it goes to is another one, which stands outside it. -/
structure Liftable (s : Drive) (n : Text) (dp dt : Path) (item : Item) : Prop where
  row : s.items.get? (n :: dp) = some item
  plain : s.disk.get? (s.diskIn (n :: dp)) ≠ some .link
  folder : s.diskIn dt = [] ∨ s.disk.get? (s.diskIn dt) = some .dir
  unsealed : s.layout.Unsealed dt
  elsewhere : dt ≠ dp
  outside : ¬ n :: dp <:+ dt
  proper : ∀ m, isLunaName m = false → s.layout.Proper (m :: dt)

namespace Liftable

variable {n : Text} {dp dt : Path} {item : Item}

variable (h : Liftable s n dp dt item)

include h

theorem landing_eq (m : Text) :
    s.landing (n :: dp) m dt = s.layout.diskName item.id :: s.diskIn dt := by
  rw [landing, diskLeaf_some h.row]
  rfl

/-- An id stands in one place only. -/
theorem landing_free (ht : Tidy s) :
    s.disk.get? (s.layout.diskName item.id :: s.diskIn dt) = none := by
  rw [eq_none_iff_forall_ne_some]
  intro entry hentry
  obtain ⟨p, item', hp, hdisk⟩ := ht.rowed _ _ entry hentry (Layout.isDiskName_diskName item.id)
  cases p with
  | nil => cases hdisk
  | cons n' dp' =>
    rw [diskIn_cons_some hp] at hdisk
    obtain ⟨hname, hdir⟩ := cons.inj hdisk
    have hsame := ht.ids _ _ _ _ hp h.row (Subtype.ext (Layout.diskName_inj hname))
    obtain ⟨-, rfl⟩ := cons.inj hsame
    exact h.elsewhere (ht.diskIn_inj h.unsealed (ht.unsealed hp).tail hdir.symm)

/-- A name that nothing has makes the item movable. -/
theorem movable (ht : Tidy s) {m : Text} (hm : isLunaName m = false)
    (hfree : liftTaken (s.diskIn dt) s m = false) : Movable s n dp m dt := by
  rw [liftTaken, Bool.or_eq_false_iff] at hfree
  have hproper := h.proper m hm
  refine ⟨ht.unsealed h.row, ht.leads _ item h.row, hproper.unsealed, h.folder, h.outside, ?_,
    Tree.get?_of_not_taken hfree.2, ?_, fun _ _ _ => hproper⟩
  · cases hget : s.items.get? (m :: dt) with
    | none => rfl
    | some other =>
      rw [siblingClash_of_row hget] at hfree
      cases hfree.1
  · have hland : (s.diskLeaf (n :: dp)).getD m :: s.diskIn dt = s.layout.diskName item.id :: s.diskIn dt :=
      h.landing_eq m
    rw [hland]
    exact ht.grown.vacant (cons_ne_nil _ _) (h.landing_free ht)

theorem renames (ht : Tidy s) {os : Os} (hos : ∀ p q, os.renames p q = true) :
    renameNoreplace os (s.diskIn (n :: dp)) (s.layout.diskName item.id :: s.diskIn dt) s =
      .ok { s with disk := s.disk.relocate (s.diskIn (n :: dp)) (s.layout.diskName item.id :: s.diskIn dt) } := by
  have hclash : s.siblingClash (s.layout.diskName item.id :: s.diskIn dt) = false := by
    rw [← Bool.not_eq_true]
    intro hclash
    obtain ⟨d, other, hp⟩ := row_of_siblingClash hclash
    have hluna := (ht.proper _ other hp).head
    rw [s.layout.isLunaName_diskName] at hluna
    cases hluna
  have htaken : s.disk.taken (s.layout.diskName item.id :: s.diskIn dt) = false := by
    rw [Tree.taken, h.landing_free ht]
    rfl
  have hinto : ¬ s.diskIn (n :: dp) <:+ s.layout.diskName item.id :: s.diskIn dt := by
    intro hsuf
    rcases suffix_cons_iff.mp hsuf with heq | hsuf
    · obtain ⟨entry, hentry⟩ := ht.leads _ item h.row
      rw [heq, h.landing_free ht] at hentry
      cases hentry
    · exact h.outside (ht.suffix_of_diskIn (ht.unsealed h.row) h.unsealed hsuf)
  obtain ⟨entry, hentry⟩ := ht.leads _ item h.row
  have hrefused : ¬ (s.diskIn (n :: dp) = [] ∨ s.disk.get? (s.diskIn (n :: dp)) = none ∨
      s.diskIn (n :: dp) <:+ s.layout.diskName item.id :: s.diskIn dt ∨
      ¬ s.isDir (s.layout.diskName item.id :: s.diskIn dt).tail ∨
      os.renames (s.diskIn (n :: dp)) (s.layout.diskName item.id :: s.diskIn dt) = false) := by
    rw [not_or, not_or, not_or, not_or, not_not, hos]
    refine ⟨by simp [diskIn], by simp [hentry], hinto, isDir_iff.mpr h.folder, by decide⟩
  rw [renameNoreplace, if_neg (by rw [hclash, htaken]; decide), if_neg hrefused]

end Liftable

/-- The rows go to a path with no row at or beneath it. -/
theorem repath_goes {src dst : Path} (hne : src ≠ dst) (hnone : s.NoneWithin dst) :
    repath src dst s = .ok { s with items := s.items.relocate src dst } := by
  rw [repath, if_neg hne, if_neg]
  intro hclash
  obtain ⟨r, hr, hclash⟩ := List.any_eq_true.mp hclash
  rw [Bool.and_eq_true] at hclash
  obtain ⟨item, hitem⟩ := isSome_iff_exists.mp hclash.1
  refine hnone _ item hitem ?_
  exact suffix_append _ _

theorem movedSubjects_calm (he : e.Calm) (driveId : Text) (src dst : Path) (w : Stores) :
    ∃ w', movedSubjects e driveId src dst w = .ok () w' ∧ w'.drive = w.drive := by
  obtain ⟨a, w', hrun, hdrive⟩ := he.repathSubjects driveId (spelled (w.drive.apiPath src)) (spelled (w.drive.apiPath dst)) w
  refine ⟨w', ?_, hdrive⟩
  rw [movedSubjects, hrun]

/-- **An item that is lifted goes to a free name, disk and rows together.** -/
theorem liftOut_lifts (he : e.Unfailing) (driveId : Text) (ht : Tidy w.drive) {n : Text} {dp dt : Path} {item : Item}
    (h : Liftable w.drive n dp dt item) :
    ∃ k w', Movable w.drive n dp (liftName n k) dt ∧ liftOut e driveId (n :: dp) dt w = .ok () w' ∧
      w'.drive = w.drive.moved (n :: dp) (liftName n k) dt := by
  obtain ⟨entry, hentry⟩ := ht.leads _ item h.row
  have hsrc : w.drive.resolveNofollow false (n :: dp) = .ok (w.drive.diskIn (n :: dp)) :=
    resolveNofollow_of_walk (walkNofollow_stands ht.grown hentry (by rintro rfl; exact h.plain hentry) false)
  have hdir : w.drive.resolveNofollow false dt = .ok (w.drive.diskIn dt) :=
    resolveNofollow_of_walk (walkNofollow_dir ht.grown h.folder false)
  obtain ⟨k, hk⟩ : ∃ k, firstFree (liftTaken (w.drive.diskIn dt) w.drive) (liftName n)
      (w.drive.items.rows.length + w.drive.disk.rows.length) 0 = liftName n k := exists_firstFree _ _
  have hfree := liftTaken_free (w.drive.diskIn dt) w.drive n
  rw [hk] at hfree
  have hluna := isLunaName_liftName (ht.proper _ item h.row).head k
  have hmove := h.movable ht hluna hfree
  have hplan : liftPlan (n :: dp) dt w.drive =
      .ok ⟨w.drive.diskIn (n :: dp), w.drive.layout.diskName item.id :: w.drive.diskIn dt, liftName n k :: dt⟩ := by
    rw [liftPlan, hsrc, hdir, diskLeaf_some h.row]
    show Except.ok _ = _
    rw [head?_cons, getD_some, hk]
  have hrename := h.renames ht he.renames
  set s₁ : Drive := { w.drive with
    disk := w.drive.disk.relocate (w.drive.diskIn (n :: dp)) (w.drive.layout.diskName item.id :: w.drive.diskIn dt) } with hs₁
  have hnone : s₁.NoneWithin (liftName n k :: dt) :=
    fun p other hp => ht.no_row_beneath hmove.unused hmove.free hp
  have hne : n :: dp ≠ liftName n k :: dt := fun heq => hmove.apart ht (heq ▸ suffix_refl _)
  have hmoved : { s₁ with items := s₁.items.relocate (n :: dp) (liftName n k :: dt) } =
      w.drive.moved (n :: dp) (liftName n k) dt := by
    rw [moved, h.landing_eq]
  have hrows : repathRows e (n :: dp) (liftName n k :: dt) { w with drive := s₁ } =
      .ok () { w with drive := w.drive.moved (n :: dp) (liftName n k) dt } := by
    rw [repathRows, if_neg hne, run_of_ok (step_of_goes he.repaths), onDrive, repath_goes hne hnone, ← hmoved]
  obtain ⟨w', hsubjects, hdrive⟩ := movedSubjects_calm he.toCalm driveId (n :: dp) (liftName n k :: dt)
    { w with drive := w.drive.moved (n :: dp) (liftName n k) dt }
  refine ⟨k, w', hmove, ?_, hdrive⟩
  have hondrive : onDrive (renameNoreplace e.os (w.drive.diskIn (n :: dp))
      (w.drive.layout.diskName item.id :: w.drive.diskIn dt)) w = .ok () { w with drive := s₁ } := by
    rw [onDrive, hrename]
  rw [liftOut, run_of_ok (reads_of_ok hplan), run_of_ok hondrive, orTakeBack, run_of_ok hrows, hsubjects]

end LibreServ.Files
