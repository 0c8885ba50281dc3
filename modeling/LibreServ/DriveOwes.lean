import LibreServ.DriveThinning

/-! What a drive backup owes over all its runs. A version is lost without thinning in one case only: a run moves a
copy aside to a place where its own time has a version already. Runs without such a move keep every content until
thinning takes it, and drop no file before its stamp is on the target. -/

namespace LibreServ.DriveBackup

open Files (Text split join)
open FileTree List Table

variable {k : Target} {now : Int} {r r' r'' : Run} {log : List Event} {s : Store}

/-! ### Parts of a run -/

/-- Outside of some places every file is ready for what comes next. -/
structure Upto (k : Target) (now : Int) (busy : List Text → Prop) (r r' : Run) : Prop where
  owed : Owed r → Owed r'
  named : r.store.Named k → r'.store.Named k
  again : ∀ q, ¬ busy q → Again now q r r'
  current : ∀ q, ¬ busy q → r'.store.current.file? q = r.store.current.file? q
  stored : r'.store.manifest = r.store.manifest
  clock : ∀ now, r'.manifest.clock now = r.manifest.clock now

section Parts

variable {busy : List Text → Prop} {p : List Text}

theorem upto_frame : Frame (Upto k now busy) where
  refl _ := ⟨id, id, fun _ _ => .inr ⟨rfl, .inr rfl⟩, fun _ _ => rfl, rfl, fun _ => rfl⟩
  trans _ _ _ h h' :=
    { owed := h'.owed ∘ h.owed
      named := h'.named ∘ h.named
      again := fun q hq => (h.again q hq).trans (h'.again q hq)
      current := fun q hq => (h'.current q hq).trans (h.current q hq)
      stored := h'.stored.trans h.stored
      clock := fun now => (h'.clock now).trans (h.clock now) }
  blind _ _ _ := ⟨id, id, fun _ _ => .inr ⟨rfl, .inr rfl⟩, fun _ _ => rfl, rfl, fun _ => rfl⟩

theorem Upto.mono {busy' : List Text → Prop} (h : Upto k now busy r r') (hsub : ∀ q, busy q → busy' q) :
    Upto k now busy' r r' where
  owed := h.owed
  named := h.named
  again q hq := h.again q fun hb => hq (hsub q hb)
  current q hq := h.current q fun hb => hq (hsub q hb)
  stored := h.stored
  clock := h.clock

theorem Attempt.upto {α : Type} {res : EStateM.Result Stop Run α} (h : Attempt k now p r res) :
    Upto k now (· = p) r (stateOf res) where
  owed := h.owed
  named := h.named
  again q hq := .inr ⟨h.handles.current q hq, h.handles.versions now q fun hb => hq hb.2⟩
  current := h.handles.current
  stored := h.handles.stored
  clock := h.handles.clock

theorem Thins.upto (h : Thins r r') : Upto k now busy r r' where
  owed := h.owed
  named := h.named
  again _ _ := h.again
  current q _ := by rw [h.current]
  stored := h.manifest
  clock := h.clock

/-- A file that moves aside leaves its place ready. -/
theorem drop_does {rel : Text} (hbusy : busy (k.place rel)) (hsafe : Safe now (k.place rel) (fun _ => true) r) :
    Does (Upto k now busy) r (retryWithRoom k now (remove k now rel)) fun _ r' => ∀ q, Again now q r r' := by
  have hattempt := retry_attempt (fun r hr => remove_attempt (k := k) (r := r) rel hr) hsafe
  refine ⟨hattempt.upto.mono fun q hq => hq ▸ hbusy, fun gone r' hrun q => ?_⟩
  by_cases hq : q = k.place rel
  · rw [hq]
    exact .inl (retry_ok (fun _ _ _ h => remove_gone h) hrun)
  · have hupto := hattempt.upto
    rw [hrun] at hupto
    exact hupto.again q hq

section

variable {rels : List Text} (hbusy : ∀ rel ∈ rels, busy (k.place rel))
  (hsafe : ∀ rel ∈ rels, Safe now (k.place rel) (fun _ => true) r)
include hbusy hsafe

theorem moveAside_does : Does (Upto k now busy) r (moveAside k now rels) fun _ r' => ∀ q, Again now q r r' := by
  have hframe : Frame (Upto k now busy) := upto_frame
  induction rels generalizing r with
  | nil => exact hframe.pure_does r fun _ => .inr ⟨rfl, .inr rfl⟩
  | cons rel rest ih =>
    refine hframe.bind_does (drop_does (hbusy rel mem_cons_self) (hsafe rel mem_cons_self)) fun _ r₁ _ hagain => ?_
    obtain ⟨hupto, hq⟩ := ih (fun rel' hrel' => hbusy rel' (mem_cons_of_mem _ hrel'))
      fun rel' hrel' => (hsafe rel' (mem_cons_of_mem _ hrel')).again (hagain _)
    exact ⟨hupto, fun _ r' hrun q => (hagain q).trans (hq _ r' hrun q)⟩

theorem dropAll_does : Does (Upto k now busy) r (dropAll k now rels) fun _ _ => True := by
  have hframe : Frame (Upto k now busy) := upto_frame
  induction rels generalizing r with
  | nil => exact hframe.pure_does r trivial
  | cons rel rest ih =>
    refine hframe.bind_does (drop_does (hbusy rel mem_cons_self) (hsafe rel mem_cons_self)) fun gone r₁ _ hagain => ?_
    have hcount : Keeps (Upto k now fun _ => False)
        (whenever gone (count fun o => { o with removed := o.removed + 1 })) :=
      upto_frame.whenever gone (upto_frame.count _)
    have hcount' : Keeps (Upto k now busy) (whenever gone (count fun o => { o with removed := o.removed + 1 })) :=
      hframe.whenever gone (hframe.count _)
    refine hframe.bind_does (hcount'.does_with hcount r₁) fun _ r₂ _ hquiet => ?_
    refine ih (fun rel' hrel' => hbusy rel' (mem_cons_of_mem _ hrel')) fun rel' hrel' => ?_
    exact ((hsafe rel' (mem_cons_of_mem _ hrel')).again (hagain _)).again (hquiet.again _ id)

end

/-- One file is saved, or left as it is if its source is gone. -/
theorem save_upto (rel : Text) (e : Entry) (hsafe : ∀ src, e.source = some src →
    Safe now (k.place rel) (fun copy => !matchesSource copy src) r) :
    Upto k now (· = k.place rel) r (stateOf (save k now rel e r)) := by
  have hframe : Frame (Upto k now (· = k.place rel)) := upto_frame
  rw [save]
  cases hsource : e.source with
  | none => exact hframe.refl r
  | some src =>
    have hput := retry_attempt (fun r hr => put_attempt (k := k) (r := r) rel src hr) (hsafe src hsource)
    have hdone : Upto k now (· = k.place rel) r (stateOf ((do
        let done ← retryWithRoom k now (put k now rel src)
        count fun o =>
          if done = .unchanged then { o with unchanged := o.unchanged + 1 } else { o with copied := o.copied + 1 }
        setManifest fun m => m.forget rel : Act Unit) r)) := by
      refine hframe.bind_at ⟨hput.upto, fun _ _ _ => trivial⟩ fun done r₁ _ _ => ?_
      exact hframe.bind (hframe.count _) (fun _ r₂ => (forget_thins rel r₂).upto) r₁
    refine hframe.onError_at hdone fun stop r₁ _ => ?_
    by_cases hgone : stop = .notFound
    · rw [if_pos hgone]
      exact hframe.refl r₁
    · rw [if_neg hgone]
      exact hframe.refl r₁

/-- Each file is saved from the state that the run found for it, because no two have one place. -/
theorem saveAll_does {wanted : List (Text × Entry)} (hplaces : (wanted.map fun w => k.place w.1).Nodup)
    (hbusy : ∀ w ∈ wanted, busy (k.place w.1))
    (hsafe : ∀ w ∈ wanted, ∀ src, w.2.source = some src →
      Safe now (k.place w.1) (fun copy => !matchesSource copy src) r) :
    Upto k now busy r (stateOf (saveAll k now wanted r)) := by
  have hframe : Frame (Upto k now busy) := upto_frame
  induction wanted generalizing r with
  | nil => exact hframe.refl r
  | cons w rest ih =>
    obtain ⟨hnew, hrest⟩ := nodup_cons.mp hplaces
    have hsave := save_upto w.1 w.2 (hsafe w mem_cons_self)
    refine hframe.bind_at (Q := fun _ r₁ => Upto k now (· = k.place w.1) r r₁)
      ⟨hsave.mono fun q hq => hq ▸ hbusy w mem_cons_self, fun _ r₁ hrun => ?_⟩ fun _ r₁ _ hsaved => ?_
    · rw [hrun] at hsave
      exact hsave
    · refine ih hrest (fun w' hw' => hbusy w' (mem_cons_of_mem _ hw')) fun w' hw' src hsrc => ?_
      have hne : k.place w'.1 ≠ k.place w.1 := fun heq => hnew (mem_map.mpr ⟨w', hw', heq⟩)
      exact (hsafe w' (mem_cons_of_mem _ hw') src hsrc).again (hsaved.again _ hne)

end Parts

/-! ### Stamps come first -/

/-- The manifest on the target has a stamp for the file. -/
def Stamped (rel : Text) (s : Store) : Prop := ∃ m, s.manifest = some m ∧ (m.deleted.get? rel).isSome = true

/-- In memory all these files are deleted, and not long ago. -/
def Marked (now : Int) (rels : List Text) (r : Run) : Prop := ∀ rel ∈ rels, Young now r.manifest rel

section Marks

variable {rels : List Text}

theorem makeRoom_state (r : Run) : stateOf (onError (freeSpaceByThinning k now) (fun _ => pure 0) r) =
    stateOf (freeSpaceByThinning k now r) := by
  rw [onError]
  cases freeSpaceByThinning k now r with
  | ok freed r' => rfl
  | error e r' =>
    cases e with
    | crash | full | notFound | io => rfl

theorem makeRoom_marked (hn : r.store.Named k) (h : Marked now rels r) :
    Marked now rels (stateOf (freeSpaceByThinning k now r)) := by
  intro rel hrel
  have hstamps := freeSpace_stamps hn (h rel hrel)
  have hthins := freeSpaceByThinning_thins k now r
  obtain ⟨stamp, hget, hage⟩ := h rel hrel
  exact ⟨stamp, hstamps.trans hget, by rw [hthins.clock]; exact hage⟩

/-- A step that leaves the manifest in memory alone, with its second try. -/
theorem retry_marked {α : Type} {x : Act α} (hx : ∀ r, (stateOf (x r)).manifest = r.manifest)
    (hnamed : ∀ r₁, x r = .error .full r₁ → r₁.store.Named k) (h : Marked now rels r) :
    Marked now rels (stateOf (retryWithRoom k now x r)) := by
  have hsame : Marked now rels (stateOf (x r)) := fun rel hrel => by
    rw [hx r]
    exact h rel hrel
  rcases retry_run k now x r with hrun | ⟨r₁, r₂, hfull, hroom, hrun⟩
  · rw [hrun]
    exact hsame
  rw [hfull] at hsame
  have hmade : Marked now rels r₂ := by
    rw [← hroom, makeRoom_state]
    exact makeRoom_marked (hnamed r₁ hfull) hsame
  rcases hrun with ⟨e, hrun⟩ | ⟨outcome, hrun⟩
  · rw [hrun]
    exact hmade
  · intro rel hrel
    rw [hrun, hx]
    exact hmade rel hrel

theorem remove_manifest (rel : Text) (r : Run) : (stateOf (remove k now rel r)).manifest = r.manifest := by
  have hframe : Frame fun r r' : Run => r'.manifest = r.manifest :=
    ⟨fun _ => rfl, fun _ _ _ h h' => h'.trans h, fun _ _ _ => rfl⟩
  refine hframe.bind (hframe.relPlace k rel) (fun place => hframe.bind (hframe.reads _) fun found => ?_) r
  cases found with
  | none => exact hframe.pure false
  | some copy =>
    exact hframe.bind (hframe.writes fun _ _ _ => rfl) fun _ =>
      hframe.bind (hframe.writes fun _ _ _ => rfl) fun _ _ => rfl

theorem dropAll_marked {dropped : List Text} (hn : r.store.Named k) (hsafe : ∀ rel ∈ dropped,
    Safe now (k.place rel) (fun _ => true) r) (h : Marked now rels r) :
    Marked now rels (stateOf (dropAll k now dropped r)) := by
  induction dropped generalizing r with
  | nil => exact h
  | cons rel rest ih =>
    have hfirst := hsafe rel mem_cons_self
    have hmarked : Marked now rels (stateOf (retryWithRoom k now (remove k now rel) r)) := by
      refine retry_marked (remove_manifest rel) (fun r₁ hfull => ?_) h
      have hattempt := remove_attempt (k := k) (r := r) rel hfirst
      rw [hfull] at hattempt
      exact hattempt.named hn
    obtain ⟨hupto, hagain⟩ : Does (Upto k now fun _ => True) r (retryWithRoom k now (remove k now rel))
        fun _ r' => ∀ q, Again now q r r' := drop_does trivial hfirst
    rw [dropAll]
    cases hrun : retryWithRoom k now (remove k now rel) r with
    | error e r₁ =>
      rw [run_of_error hrun]
      rw [hrun] at hmarked
      exact hmarked
    | ok gone r₁ =>
      rw [run_of_ok hrun]
      rw [hrun] at hmarked hupto
      have hn₁ : r₁.store.Named k := hupto.named hn
      have hsafe₁ : ∀ rel ∈ rest, Safe now (k.place rel) (fun _ => true) r₁ := fun rel' hrel' =>
        (hsafe rel' (mem_cons_of_mem _ hrel')).again (hagain gone r₁ hrun _)
      cases gone with
      | false => exact ih hn₁ hsafe₁ hmarked
      | true => exact ih (r := { r₁ with outcome := _ }) hn₁ hsafe₁ hmarked

/-- The manifest is saved as it is once room was made, or not at all. -/
theorem saveManifest_run (hn : r.store.Named k) (h : Marked now rels r) :
    ∃ r₁, Thins r r₁ ∧ Marked now rels r₁ ∧ ((∃ e, saveManifest k now r = .error e r₁) ∨
      saveManifest k now r = .ok () { r₁ with store := { r₁.store with manifest := some r₁.manifest } }) := by
  let once : Act Unit := do
    let r ← get
    writes (fun s => .ok { s with manifest := some r.manifest }) fun _ => []
  have honce : ∀ r, ∃ rest, once r = .ok () { r with
      store := { r.store with manifest := some r.manifest }, outcomes := rest } ∨
        ∃ e, once r = .error e { r with outcomes := rest } := by
    intro r
    obtain ⟨rest, ⟨s, hs, hrun⟩ | ⟨e, hrun⟩⟩ :=
      writes_run (fun s => .ok { s with manifest := some r.manifest }) (fun _ => []) r
    · refine ⟨rest, .inl ?_⟩
      obtain rfl := Except.ok.inj hs
      rw [append_nil] at hrun
      exact hrun
    · exact ⟨rest, .inr ⟨e, hrun⟩⟩
  rcases retry_run k now once r with hrun | ⟨r₁, r₂, hfull, hroom, hrun⟩
  · obtain ⟨rest, hsaved | ⟨e, hfailed⟩⟩ := honce r
    · exact ⟨_, thins_frame.blind r r.outcome rest, h, .inr (hrun.trans hsaved)⟩
    · exact ⟨_, thins_frame.blind r r.outcome rest, h, .inl ⟨e, hrun.trans hfailed⟩⟩
  obtain ⟨rest, hsaved | ⟨e, hfailed⟩⟩ := honce r
  · rw [hfull] at hsaved
    cases hsaved
  · rw [hfull] at hfailed
    obtain ⟨-, rfl⟩ := EStateM.Result.error.inj hfailed
    have hthins : Thins r r₂ := by
      refine thins_frame.trans _ _ _ (thins_frame.blind r r.outcome rest) ?_
      rw [← hroom]
      exact makeRoom_thins k now _
    have hmade : Marked now rels r₂ := by
      rw [← hroom, makeRoom_state]
      exact makeRoom_marked hn h
    rcases hrun with ⟨e, hrun⟩ | ⟨outcome, hrun⟩
    · exact ⟨r₂, hthins, hmade, .inl ⟨e, hrun⟩⟩
    · obtain ⟨rest', hsaved | ⟨e, hfailed⟩⟩ := honce { r₂ with outcome := outcome }
      · exact ⟨{ r₂ with outcome := outcome, outcomes := rest' },
          thins_frame.trans _ _ _ hthins (thins_frame.blind r₂ outcome rest'), hmade, .inr (hrun.trans hsaved)⟩
      · exact ⟨{ r₂ with outcome := outcome, outcomes := rest' },
          thins_frame.trans _ _ _ hthins (thins_frame.blind r₂ outcome rest'), hmade, .inl ⟨e, hrun.trans hfailed⟩⟩

end Marks

/-! ### A whole run -/

/-- No content is lost but by thinning, and no file leaves `current/` before its stamp is on the target. -/
structure Careful (k : Target) (rels : List Text) (r r' : Run) : Prop where
  owed : Owed r → Owed r'
  named : r.store.Named k → r'.store.Named k
  stamped : ∀ rel ∈ rels, (r'.store.current.file? (k.place rel) = r.store.current.file? (k.place rel) ∧
    r'.store.manifest = r.store.manifest) ∨ Stamped rel r'.store

section Whole

variable {rels : List Text} {busy : List Text → Prop}

theorem careful_frame : Frame (Careful k rels) where
  refl _ := ⟨id, id, fun _ _ => .inl ⟨rfl, rfl⟩⟩
  trans _ _ _ h h' := by
    refine ⟨h'.owed ∘ h.owed, h'.named ∘ h.named, fun rel hrel => ?_⟩
    rcases h'.stamped rel hrel with ⟨hcurrent, hmanifest⟩ | hstamped
    · rcases h.stamped rel hrel with hsame | ⟨m, hm, hget⟩
      · exact .inl ⟨hcurrent.trans hsame.1, hmanifest.trans hsame.2⟩
      · exact .inr ⟨m, hmanifest.trans hm, hget⟩
    · exact .inr hstamped
  blind _ _ _ := ⟨id, id, fun _ _ => .inl ⟨rfl, rfl⟩⟩

theorem Upto.careful (h : Upto k now busy r r') (hrels : ∀ rel ∈ rels, ¬ busy (k.place rel)) : Careful k rels r r' :=
  ⟨h.owed, h.named, fun rel hrel => .inl ⟨h.current _ (hrels rel hrel), h.stored⟩⟩

/-- Files that have their stamps on the target may go. -/
theorem Upto.careful_of_stamped (h : Upto k now busy r r') (hstamped : ∀ rel ∈ rels, Stamped rel r.store) :
    Careful k rels r r' := by
  refine ⟨h.owed, h.named, fun rel hrel => .inr ?_⟩
  obtain ⟨m, hm, hget⟩ := hstamped rel hrel
  exact ⟨m, h.stored.trans hm, hget⟩

theorem setManifest_careful (f : Manifest → Manifest) (r : Run) :
    Does (Careful k rels) r (setManifest f) fun _ r' => r' = { r with manifest := f r.manifest } := by
  refine ⟨⟨id, id, fun _ _ => .inl ⟨rfl, rfl⟩⟩, fun _ r' hrun => ?_⟩
  exact (EStateM.Result.ok.inj hrun).2.symm

/-- Saving the manifest keeps the marks, and puts them on the target if it goes through. -/
theorem saveManifest_does (hn : r.store.Named k) (h : Marked now rels r) :
    Does (Careful k rels) r (saveManifest k now) fun _ r' =>
      (∀ rel ∈ rels, Stamped rel r'.store) ∧ Marked now rels r' ∧ r'.store.Named k ∧ ∀ q, Again now q r r' := by
  obtain ⟨r₁, hthins, hmarked, ⟨e, hrun⟩ | hrun⟩ := saveManifest_run hn h
  · refine ⟨?_, fun _ r' hok => ?_⟩
    · have hupto : Upto k now (fun _ => False) r r₁ := hthins.upto
      rw [hrun]
      exact hupto.careful fun _ _ => id
    · rw [hrun] at hok
      cases hok
  · have hstamped : ∀ rel ∈ rels, Stamped rel { r₁.store with manifest := some r₁.manifest } := by
      intro rel hrel
      obtain ⟨stamp, hget, -⟩ := hmarked rel hrel
      exact ⟨r₁.manifest, rfl, Option.isSome_iff_exists.mpr ⟨stamp, hget⟩⟩
    have hnamed : Store.Named k { r₁.store with manifest := some r₁.manifest } :=
      ⟨(hthins.named hn).current, (hthins.named hn).versions⟩
    refine ⟨?_, fun _ r' hok => ?_⟩
    · rw [hrun]
      exact ⟨fun ho => hthins.owed ho, fun _ => hnamed, fun rel hrel => .inr (hstamped rel hrel)⟩
    · rw [hrun] at hok
      obtain ⟨-, rfl⟩ := EStateM.Result.ok.inj hok
      exact ⟨hstamped, hmarked, hnamed, fun q => hthins.again⟩

theorem stampAll_get? {rel : Text} (stamp : Int) (m : Manifest) (h : rel ∈ rels) :
    (stampAll now stamp rels m).deleted.get? rel = some stamp := by
  have hfold : ∀ (rels : List Text) (t : Table Text Int), rel ∈ rels ∨ t.get? rel = some stamp →
      (rels.foldl (fun t rel => t.put rel stamp) t).get? rel = some stamp := by
    intro rels
    induction rels with
    | nil => intro t ht; exact ht.resolve_left not_mem_nil
    | cons first rest ih =>
      intro t ht
      refine ih (t.put first stamp) ?_
      rw [get?_put]
      rcases ht with hmem | hget
      · rcases mem_cons.mp hmem with rfl | hmem
        · exact .inr (if_pos rfl)
        · exact .inl hmem
      · right
        split
        · rfl
        · exact hget
  exact hfold rels m.deleted (.inl h)

end Whole

/-- Where a version of the run's own time would be replaced, nothing moves. -/
structure Ready (k : Target) (now : Int) (p : Plan) (current : List Text) (r : Run) : Prop where
  spelling : k.caseInsensitive = true → ∀ w ∈ p.wanted, ∀ old ∈ otherSpellings k current w.1,
    Safe now (k.place old) (fun _ => true) r
  saving : ∀ w ∈ p.wanted, ∀ src, w.2.source = some src →
    Safe now (k.place w.1) (fun copy => !matchesSource copy src) r
  dropping : ∀ rel ∈ p.deletions k current, Safe now (k.place rel) (fun _ => true) r

theorem syncFiles_careful {p : Plan} {current : List Text} (hn : r.store.Named k)
    (hplaces : (p.wanted.map fun w => k.place w.1).Nodup) (hready : Ready k now p current r) :
    Careful k (p.deletions k current) r (stateOf (syncFiles k now p current r)) := by
  have hframe : Frame (Careful k (p.deletions k current)) := careful_frame
  let busy : List Text → Prop := fun q => ∃ w ∈ p.wanted, q = k.place w.1
  have hbusy : Frame (Upto k now busy) := upto_frame
  have hapart : ∀ rel ∈ p.deletions k current, ¬ busy (k.place rel) := by
    rintro rel hrel ⟨w, hw, heq⟩
    exact place_of_deletion hrel hw heq
  refine hframe.bind_at (hframe.reads_does _ r) fun m r₁ _ hread => ?_
  obtain ⟨-, rest, rfl⟩ := hread
  refine hframe.bind_at (setManifest_careful _ _) fun _ r₂ _ hset => ?_
  -- From here on the places of the plan are busy and all others stay as they are.
  have hstart : ∀ q, Again now q r r₂ := fun q => by
    rw [hset]
    exact .inr ⟨rfl, .inr rfl⟩
  have hclock : r₂.manifest.clock now = (m.started now).clock now := by rw [hset]
  have hn₂ : r₂.store.Named k := by
    rw [hset]
    exact hn
  have haside : Does (Upto k now busy) r₂
      (whenever k.caseInsensitive (moveAside k now (p.wanted.flatMap fun w => otherSpellings k current w.1)))
      fun _ r' => ∀ q, Again now q r₂ r' := by
    by_cases hcapitals : k.caseInsensitive = true
    · rw [hcapitals]
      refine moveAside_does (fun old hold => ?_) fun old hold => ?_
      · obtain ⟨w, hw, hspelling⟩ := mem_flatMap.mp hold
        have hkey := (mem_filter.mp hspelling).2
        rw [Bool.and_eq_true, decide_eq_true_eq, decide_eq_true_eq] at hkey
        exact ⟨w, hw, place_eq_iff.mpr hkey.2⟩
      · obtain ⟨w, hw, hspelling⟩ := mem_flatMap.mp hold
        exact (hready.spelling hcapitals w hw old hspelling).again (hstart _)
    · rw [Bool.not_eq_true] at hcapitals
      rw [hcapitals]
      exact hbusy.pure_does r₂ fun q => .inr ⟨rfl, .inr rfl⟩
  refine hframe.bind_at (haside.mono fun r' h => h.careful hapart) fun _ r₃ _ hmoved => ?_
  have hsaved : Upto k now busy r₃ (stateOf (saveAll k now p.wanted r₃)) :=
    saveAll_does hplaces (fun w hw => ⟨w, hw, rfl⟩) fun w hw src hsrc =>
      ((hready.saving w hw src hsrc).again (hstart _)).again (hmoved.2 _)
  refine hframe.bind_at ((Does.mono ⟨hsaved, fun _ _ _ => trivial⟩ fun r' h => h.careful hapart))
    fun _ r₄ _ hsaved => ?_
  refine hframe.bind_at (((hbusy.count _).does r₄).mono fun r' h => h.careful hapart) fun _ r₅ _ hcounted => ?_
  have hthin : Upto k now busy r₅ (stateOf (thin k now r₅)) := (thin_thins k now r₅).upto
  refine hframe.bind_at (Does.mono ⟨hthin, fun _ _ _ => trivial⟩ fun r' h => h.careful hapart)
    fun _ r₆ _ hthinned => ?_
  have hupto : Upto k now busy r₂ r₆ := by
    have hthinned₄ := hbusy.trans _ _ _ hcounted.1 hthinned.1
    exact hbusy.trans _ _ _ hmoved.1 (hbusy.trans _ _ _ hsaved.1 hthinned₄)
  refine hframe.bind_at (setManifest_careful _ _) fun _ r₇ _ hset' => ?_
  have hmarked : Marked now (p.deletions k current) r₇ := by
    intro rel hrel
    refine ⟨(m.started now).clock now, ?_, ?_⟩
    · rw [hset']
      exact stampAll_get? _ _ hrel
    · have hsame : r₇.manifest.clock now = (m.started now).clock now := by
        rw [hset']
        exact (hupto.clock now).trans hclock
      rw [hsame, Int.sub_self]
      decide
  have hn₇ : r₇.store.Named k := by
    rw [hset']
    exact hupto.named hn₂
  refine hframe.bind_at (saveManifest_does hn₇ hmarked) fun _ r₈ _ hsavedManifest => ?_
  obtain ⟨hstamped, hmarked₈, hn₈, hagain₈⟩ := hsavedManifest
  have hready₈ : ∀ rel ∈ p.deletions k current, Safe now (k.place rel) (fun _ => true) r₈ := by
    intro rel hrel
    have hagain₆ := hupto.again _ (hapart rel hrel)
    have hagain₇ : Again now (k.place rel) r₆ r₇ := by
      rw [hset']
      exact .inr ⟨rfl, .inr rfl⟩
    exact ((((hready.dropping rel hrel).again (hstart _)).again hagain₆).again hagain₇).again (hagain₈ _)
  have hdropped : Does (Upto k now fun _ => True) r₈ (dropAll k now (p.deletions k current)) fun _ _ => True :=
    dropAll_does (fun _ _ => trivial) hready₈
  have hmarked₉ := dropAll_marked hn₈ hready₈ hmarked₈
  refine hframe.bind_at (Q := fun _ r₉ => r₉.store.Named k ∧ Marked now (p.deletions k current) r₉)
    ⟨hdropped.1.careful_of_stamped hstamped, fun _ r₉ hrun => ?_⟩ fun _ r₉ _ hlast => ?_
  · have hnamed := hdropped.1.named hn₈
    rw [hrun] at hnamed hmarked₉
    exact ⟨hnamed, hmarked₉⟩
  · rw [whenever]
    split
    · exact (saveManifest_does hlast.1 hlast.2).1
    · exact hframe.refl r₉

/-! ### All runs -/

section Runs

variable (k)

/-- The file has changed since its copy was made. -/
def changed (s : Store) (w : Text × Entry) : Bool :=
  match w.2.source, s.current.file? (k.place w.1) with
  | some src, some copy => !matchesSource copy src
  | _, _ => false

/-- The places whose copies a run moves aside. -/
def Sync.moves (i : Sync) (s : Store) : List (List Text) :=
  let p := planNames k i.walked
  let current := currentFiles s
  let gone := p.deletions k current
  if ¬ i.allowMassDelete ∧ massDeleteMin ≤ gone.length ∧ current.length < gone.length * 2 then []
  else
    (if k.caseInsensitive then (p.wanted.flatMap fun w => otherSpellings k current w.1).map k.place else []) ++
      (p.wanted.filter (changed k s)).map (fun w => k.place w.1) ++ gone.map k.place

/-- None of them has a version of the run's own time. -/
def Sync.Clear (i : Sync) (s : Store) : Prop := ∀ q ∈ i.moves k s, (s.version i.now).file? q = none

instance (i : Sync) (s : Store) : Decidable (i.Clear k s) :=
  inferInstanceAs (Decidable (∀ q ∈ i.moves k s, (s.version i.now).file? q = none))

def ClearAll : List Sync → List Event → Store → Prop
  | [], _, _ => True
  | i :: rest, log, s => i.Clear k s ∧ ClearAll rest (i.leaves k log s).log (i.leaves k log s).store

instance decidableClearAll : ∀ (runs : List Sync) (log : List Event) (s : Store), Decidable (ClearAll k runs log s)
  | [], _, _ => isTrue trivial
  | i :: rest, log, s =>
    let _ := decidableClearAll rest (i.leaves k log s).log (i.leaves k log s).store
    inferInstanceAs (Decidable (i.Clear k s ∧ ClearAll k rest (i.leaves k log s).log (i.leaves k log s).store))

/-- What a sequence of runs makes of a new target. -/
def reached (runs : List Sync) : List Event × Store := runAll k runs [] Store.empty

/-- One more run. -/
def Sync.after (runs : List Sync) (i : Sync) : Run := i.leaves k (reached k runs).1 (reached k runs).2

end Runs

theorem Sync.Clear.ready {i : Sync} (h : i.Clear k s)
    (hmade : ¬ (¬ i.allowMassDelete ∧ massDeleteMin ≤ ((planNames k i.walked).deletions k (currentFiles s)).length ∧
      (currentFiles s).length < ((planNames k i.walked).deletions k (currentFiles s)).length * 2))
    {rest : List Outcome} {outcome : RunOutcome} :
    Ready k i.now (planNames k i.walked) (currentFiles s)
      { i.start log s with outcomes := rest, outcome := outcome } := by
  unfold Clear moves at h
  simp only [if_neg hmade, mem_append] at h
  refine ⟨fun hcapitals w hw old hold copy _ _ => ?_, fun w hw src hsrc copy hcopy hmoves => ?_,
    fun rel hrel copy _ _ => ?_⟩
  · refine h _ (.inl (.inl ?_))
    rw [if_pos hcapitals]
    exact mem_map_of_mem (mem_flatMap.mpr ⟨w, hw, hold⟩)
  · have hcopy : s.current.file? (k.place w.1) = some copy := hcopy
    refine h _ (.inl (.inr (mem_map.mpr ⟨w, mem_filter.mpr ⟨hw, ?_⟩, rfl⟩)))
    rw [changed, hsrc, hcopy]
    exact hmoves
  · exact h _ (.inr (mem_map_of_mem hrel))

/-- One run that replaces no version. -/
theorem syncTarget_careful {i : Sync} (log : List Event) (hn : s.Named k) (h : i.Clear k s) :
    Careful k ((planNames k i.walked).deletions k (currentFiles s)) (i.start log s) (i.leaves k log s) := by
  have hframe : Frame (Careful k ((planNames k i.walked).deletions k (currentFiles s))) := careful_frame
  refine hframe.bind_at (hframe.reads_does _ (i.start log s)) fun current r₁ _ hread => ?_
  obtain ⟨hcurrent, rest, rfl⟩ := hread
  obtain rfl := Except.ok.inj hcurrent
  by_cases hmade : ¬ i.allowMassDelete ∧
      massDeleteMin ≤ ((planNames k i.walked).deletions k (currentFiles (i.start log s).store)).length ∧
        (currentFiles (i.start log s).store).length < ((planNames k i.walked).deletions k (currentFiles (i.start log s).store)).length * 2
  · rw [if_pos hmade]
    exact hframe.refl _
  rw [if_neg hmade]
  refine hframe.bind_at (Q := fun _ r₂ => r₂ = { i.start log s with
      outcomes := rest, outcome := { (i.start log s).outcome with notes := (planNames k i.walked).notes } })
    ⟨hframe.count _ _, fun _ r₂ hrun => (EStateM.Result.ok.inj hrun).2.symm⟩ fun _ r₂ _ hcounted => ?_
  rw [hcounted]
  refine hframe.bind_at ⟨syncFiles_careful hn (planNames_places i.walked) (h.ready hmade), fun _ _ _ => trivial⟩
    fun _ r₃ _ _ => hframe.refl r₃

theorem runAll_careful {runs : List Sync} (hclear : ClearAll k runs log s)
    (hn : s.Named k) (ho : ∀ p bytes, owed log p bytes = true → Held s p bytes) :
    (runAll k runs log s).2.Named k ∧
      ∀ p bytes, owed (runAll k runs log s).1 p bytes = true → Held (runAll k runs log s).2 p bytes := by
  induction runs generalizing log s with
  | nil => exact ⟨hn, ho⟩
  | cons i rest ih =>
    have hcareful := syncTarget_careful log hn hclear.1
    exact ih hclear.2 (hcareful.named hn) (hcareful.owed ho)

theorem clearAll_append {runs : List Sync} {i : Sync} :
    ClearAll k (runs ++ [i]) log s ↔
      ClearAll k runs log s ∧ i.Clear k (runAll k runs log s).2 := by
  induction runs generalizing log s with
  | nil => simp [ClearAll, runAll]
  | cons j rest ih =>
    rw [cons_append, ClearAll, ClearAll, runAll, ih, and_assoc]

theorem empty_named : Store.empty.Named k := by
  refine ⟨fun p copy hcopy => ?_, fun t p copy hcopy => ?_⟩
  · cases hcopy
  · cases hcopy

/-- In every run of a sequence that replaces no version of its own time: a content that was complete under `current/`
is still there or among the versions, until thinning has removed it; thinning touches nothing under `current/` and
spares the newest version of a file that was deleted not long ago (a file that is back under `current/` is not
deleted, its newest copy is that one); and what has left `current/` because the source dropped it has its stamp on
the target. -/
theorem nothing_owed_is_lost (runs : List Sync) (i : Sync) (h : ClearAll k (runs ++ [i]) [] Store.empty) :
    (∀ p bytes, owed (i.after k runs).log p bytes = true → Held (i.after k runs).store p bytes) ∧
    (∀ (r : Run) now, (stateOf (thin k now r)).store.current = r.store.current ∧
      (stateOf (freeSpaceByThinning k now r)).store.current = r.store.current) ∧
    (∀ r : Run, r.store.Named k → ∀ now rel t, Newest r.store rel t → Young now r.manifest rel →
      (rel ∈ currentFiles r.store ∨ Spares t (k.place rel) r (stateOf (thin k now r))) ∧
        Spares t (k.place rel) r (stateOf (freeSpaceByThinning k now r))) ∧
    (i.after k runs).store.Named k ∧
    ∀ rel ∈ (planNames k i.walked).deletions k (currentFiles (reached k runs).2),
      rel ∈ currentFiles (i.after k runs).store ∨ Stamped rel (i.after k runs).store := by
  obtain ⟨hclear, hlast⟩ := clearAll_append.mp h
  obtain ⟨hn, ho⟩ := runAll_careful hclear empty_named fun p bytes howed => (nomatch howed)
  have hcareful := syncTarget_careful (reached k runs).1 hn hlast
  refine ⟨hcareful.owed ho, fun r now => ⟨(thin_thins k now r).current, (freeSpaceByThinning_thins k now r).current⟩,
    fun r hnr now rel t hnewest hyoung => ⟨?_, freeSpace_spares hnr hnewest hyoung⟩, hcareful.named hn,
    fun rel hrel => ?_⟩
  · by_cases hhere : rel ∈ currentFiles r.store
    · exact .inl hhere
    · exact .inr (thin_spares hnr hnewest hyoung hhere)
  · rcases hcareful.stamped rel hrel with ⟨hsame, -⟩ | hstamped
    · have hlisted := mem_currentFiles.mp (mem_filter.mp hrel).1
      obtain ⟨copy, hcopy, hname⟩ := file_of_listed hn.current hlisted
      refine .inl (mem_currentFiles.mpr (mem_walkFiles.mpr ⟨(mem_walkFiles.mp hlisted).1, k.place rel, copy, ?_, hname⟩))
      exact hsame.trans hcopy
    · exact .inr hstamped

/-- A drive that keeps capitals. -/
def plainDrive : Target where
  label := ['d']
  caseInsensitive := false
  maxFile := none
  lower := id
  numbers _ _ _ _ h :=
    Sync.toDigits_injective (List.cons.inj (List.append_cancel_left (List.append_cancel_right h))).2

/-- A run that finds one file `a` with this content. -/
def saysA (now : Int) (content : List UInt8) : Sync :=
  ⟨[⟨['a'], content.length, some ⟨content.length, now, content, true⟩⟩], now, true, []⟩

/-- Saved, changed, and dropped by the source. -/
theorem nothing_owed_is_lost_of_three_days :
    Stamped ['a'] (Sync.after plainDrive [saysA 5 [1], saysA 86405 [2, 2]] ⟨[], 172805, true, []⟩).store := by
  have hclear : ClearAll plainDrive ([saysA 5 [1], saysA 86405 [2, 2]] ++ [⟨[], 172805, true, []⟩]) [] Store.empty := by
    decide +kernel
  have hkept := nothing_owed_is_lost _ _ hclear
  refine (hkept.2.2.2.2 ['a'] (by decide +kernel)).resolve_left ?_
  decide +kernel

/-- Three runs within one second: the first content is gone, and no thinning took it. -/
theorem version_replaced_within_a_second : ∃ runs : List Sync, (runs.map Sync.now).Pairwise (· ≤ ·) ∧
      ∃ p bytes, owed (reached plainDrive runs).1 p bytes = true ∧
        ¬ Held (reached plainDrive runs).2 p bytes := by
  refine ⟨[saysA 5 [1], saysA 5 [2, 2], saysA 5 [3, 3, 3]], by decide, [['a']], [1], by decide +kernel, ?_⟩
  have hcurrent : ((reached plainDrive [saysA 5 [1], saysA 5 [2, 2], saysA 5 [3, 3, 3]]).2.current.file?
      [['a']]).map Copy.bytes = some [3, 3, 3] := by decide +kernel
  have hversion : (((reached plainDrive [saysA 5 [1], saysA 5 [2, 2], saysA 5 [3, 3, 3]]).2.version
      5).file? [['a']]).map Copy.bytes = some [2, 2] := by decide +kernel
  have htimes : (reached plainDrive [saysA 5 [1], saysA 5 [2, 2], saysA 5 [3, 3, 3]]).2.versions.keys =
      [5] := by decide +kernel
  rintro (⟨copy, hcopy, hbytes⟩ | ⟨t, copy, hcopy, hbytes⟩)
  · rw [hcopy, Option.map_some, hbytes] at hcurrent
    cases hcurrent
  by_cases ht : t = 5
  · rw [ht] at hcopy
    rw [hcopy, Option.map_some, hbytes] at hversion
    cases hversion
  · rw [Store.version, get?_eq_none (by rw [htimes]; simpa using ht)] at hcopy
    cases hcopy

end LibreServ.DriveBackup
