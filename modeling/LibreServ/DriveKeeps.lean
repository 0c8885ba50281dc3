import LibreServ.DriveSync

/-! What the steps of a run do to the files of a backup. Only three of them touch files: a copy moves between
`current/` and `versions/`, a new copy gets its name, and thinning removes a version. Each is read through `file?`,
and what holds across every step holds across a run, wherever it stops. -/

namespace LibreServ.DriveBackup

open Files (Text split join)
open FileTree List Option Table Except

variable {copy : Copy}

/-! ### Rules for steps -/

/-- A relation between the states before and after that does not look at how steps end or at what is counted. -/
structure Frame (R : Run → Run → Prop) : Prop where
  refl : ∀ r, R r r
  trans : ∀ r r' r'', R r r' → R r' r'' → R r r''
  blind : ∀ r outcome outcomes, R r { r with outcome := outcome, outcomes := outcomes }

/-- The relation holds however the step ends. -/
def Keeps {α : Type} (R : Run → Run → Prop) (x : Act α) : Prop := ∀ r, R r (stateOf (x r))

section Rules

variable {α β : Type} {x : Act α} {f : α → Act β} {r r' : Run} {R : Run → Run → Prop} {a : α} {e : Stop}
  {Q : α → Run → Prop}

theorem run_of_ok (h : x r = .ok a r') : (x >>= f) r = f a r' := by
  show EStateM.bind x f r = f a r'
  rw [EStateM.bind, h]

theorem run_of_error (h : x r = .error e r') : (x >>= f) r = .error e r' := by
  show EStateM.bind x f r = .error e r'
  rw [EStateM.bind, h]

/-- What goes through goes through step by step. -/
theorem bind_run {b : β} (h : (x >>= f) r = .ok b r') : ∃ a r₁, x r = .ok a r₁ ∧ f a r₁ = .ok b r' := by
  cases hrun : x r with
  | ok a r₁ =>
    rw [run_of_ok hrun] at h
    exact ⟨a, r₁, rfl, h⟩
  | error e r₁ =>
    rw [run_of_error hrun] at h
    cases h

section

variable (h : Frame R)
include h

theorem Frame.pure (a : α) : Keeps R (pure a : Act α) := fun r => h.refl r

theorem Frame.throw (e : Stop) : Keeps R (throw e : Act α) := fun r => h.refl r

theorem Frame.get : Keeps R (get : Act Run) := fun r => h.refl r

theorem Frame.bind (hx : Keeps R x) (hf : ∀ a, Keeps R (f a)) : Keeps R (x >>= f) := by
  intro r
  have hr := hx r
  cases hrun : x r with
  | ok a r' =>
    rw [hrun] at hr
    rw [run_of_ok hrun]
    exact h.trans r r' _ hr (hf a r')
  | error e r' =>
    rw [hrun] at hr
    rw [run_of_error hrun]
    exact hr

theorem Frame.onError_at {handle : Stop → Act α} (hx : R r (stateOf (x r)))
    (hh : ∀ e r', x r = .error e r' → R r' (stateOf (handle e r'))) :
    R r (stateOf (DriveBackup.onError x handle r)) := by
  unfold DriveBackup.onError
  cases hrun : x r with
  | ok a r' =>
    rw [hrun] at hx
    exact hx
  | error e r' =>
    have hhandled := hh e r' hrun
    rw [hrun] at hx
    cases e with
    | crash => exact hx
    | full | notFound | io => exact h.trans r r' _ hx hhandled

theorem Frame.onError (hx : Keeps R x) {handle : Stop → Act α} (hh : ∀ e, Keeps R (handle e)) :
    Keeps R (onError x handle) := fun r => h.onError_at (hx r) fun e r' _ => hh e r'

theorem Frame.whenever (c : Bool) {x : Act Unit} (hx : Keeps R x) : Keeps R (whenever c x) := by
  unfold DriveBackup.whenever
  split
  · exact hx
  · exact h.pure ()

theorem Frame.try' {x : Act Unit} (hx : Keeps R x) : Keeps R (try' x) :=
  h.onError hx fun _ => h.pure ()

theorem Frame.count (f : RunOutcome → RunOutcome) : Keeps R (count f) :=
  fun r => h.blind r (f r.outcome) r.outcomes

end

/-- How the next step ends. -/
theorem next_run (r : Run) : ∃ o rest, next r = .ok o { r with outcomes := rest } := by
  unfold next
  split
  · exact ⟨.goes, r.outcomes, rfl⟩
  · rename_i o rest _
    exact ⟨o, rest, rfl⟩

theorem reads_run (f : Store → Except Stop α) (r : Run) :
    ∃ rest, (∃ a, f r.store = .ok a ∧ reads f r = .ok a { r with outcomes := rest }) ∨
      ∃ e, reads f r = .error e { r with outcomes := rest } := by
  obtain ⟨o, rest, hnext⟩ := next_run r
  refine ⟨rest, ?_⟩
  rw [reads, run_of_ok hnext]
  cases o with
  | goes =>
    cases hf : f r.store with
    | ok a => exact .inl ⟨a, rfl, by simp [hf]⟩
    | error e => exact .inr ⟨e, by simp [hf]⟩
  | full => exact .inr ⟨.full, rfl⟩
  | fails => exact .inr ⟨.io, rfl⟩
  | crash => exact .inr ⟨.crash, rfl⟩

theorem writes_run (f : Store → Except Stop Store) (events : Store → List Event) (r : Run) :
    ∃ rest, (∃ s, f r.store = .ok s ∧ writes f events r =
        .ok () { r with store := s, log := r.log ++ events r.store, outcomes := rest }) ∨
      ∃ e, writes f events r = .error e { r with outcomes := rest } := by
  obtain ⟨o, rest, hnext⟩ := next_run r
  refine ⟨rest, ?_⟩
  rw [writes, run_of_ok hnext]
  cases o with
  | goes =>
    cases hf : f r.store with
    | ok s => exact .inl ⟨s, rfl, by simp [hf]⟩
    | error e => exact .inr ⟨e, by simp [hf]⟩
  | full => exact .inr ⟨.full, rfl⟩
  | fails => exact .inr ⟨.io, rfl⟩
  | crash => exact .inr ⟨.crash, rfl⟩

theorem Frame.reads (h : Frame R) (f : Store → Except Stop α) : Keeps R (reads f) := by
  intro r
  obtain ⟨rest, ⟨a, -, hrun⟩ | ⟨e, hrun⟩⟩ := reads_run f r
  · rw [hrun]
    exact h.blind r r.outcome rest
  · rw [hrun]
    exact h.blind r r.outcome rest

theorem Frame.writes (h : Frame R) {f : Store → Except Stop Store} {events : Store → List Event}
    (hf : ∀ r s, f r.store = .ok s → R r { r with store := s, log := r.log ++ events r.store }) :
    Keeps R (writes f events) := by
  intro r
  obtain ⟨rest, ⟨s, hs, hrun⟩ | ⟨e, hrun⟩⟩ := writes_run f events r
  · rw [hrun]
    exact h.trans r _ _ (hf r s hs) (h.blind _ r.outcome rest)
  · rw [hrun]
    exact h.blind r r.outcome rest

theorem Frame.relPlace (h : Frame R) (k : Target) (rel : Text) : Keeps R (relPlace k rel) := by
  intro r
  unfold DriveBackup.relPlace
  split
  · exact h.refl r
  · exact h.refl r

theorem relPlace_run (k : Target) (rel : Text) (r : Run) :
    relPlace k rel r = .ok (k.place rel) r ∨ relPlace k rel r = .error .io r := by
  unfold relPlace
  split
  · exact .inr rfl
  · exact .inl rfl

/-- From this state the relation holds however the step ends, and the postcondition if it goes through. -/
def Does (R : Run → Run → Prop) (r : Run) (x : Act α) (Q : α → Run → Prop) : Prop :=
  R r (stateOf (x r)) ∧ ∀ a r', x r = .ok a r' → Q a r'

theorem Keeps.does (h : Keeps R x) (r : Run) : Does R r x fun _ _ => True := ⟨h r, fun _ _ _ => trivial⟩

/-- A second relation holds if the step goes through. -/
theorem Keeps.does_with {S : Run → Run → Prop} (h : Keeps R x) (hs : Keeps S x) (r : Run) :
    Does R r x fun _ r' => S r r' := by
  refine ⟨h r, fun a r' hrun => ?_⟩
  have hsr := hs r
  rw [hrun] at hsr
  exact hsr

theorem Does.mono {S : Run → Run → Prop} (h : Does R r x Q) (hsub : ∀ r', R r r' → S r r') :
    Does S r x fun a r' => R r r' ∧ Q a r' := by
  refine ⟨hsub _ h.1, fun a r' hrun => ⟨?_, h.2 a r' hrun⟩⟩
  have hr := h.1
  rw [hrun] at hr
  exact hr

variable (h : Frame R)

include h

theorem Frame.pure_does (r : Run) (hq : Q a r) :
    Does R r (Pure.pure a : Act α) Q := by
  refine ⟨h.refl r, fun b r' hrun => ?_⟩
  obtain ⟨rfl, rfl⟩ := EStateM.Result.ok.inj hrun
  exact hq

theorem Frame.bind_does {Q' : β → Run → Prop} (hx : Does R r x Q)
    (hf : ∀ a r', R r r' → Q a r' → Does R r' (f a) Q') : Does R r (x >>= f) Q' := by
  obtain ⟨hr, hq⟩ := hx
  cases hrun : x r with
  | ok a r' =>
    rw [hrun] at hr
    obtain ⟨hr', hq'⟩ := hf a r' hr (hq a r' hrun)
    rw [Does, run_of_ok hrun]
    exact ⟨h.trans r r' _ hr hr', hq'⟩
  | error e r' =>
    rw [hrun] at hr
    rw [Does, run_of_error hrun]
    exact ⟨hr, fun b r'' hres => (nomatch hres)⟩

theorem Frame.bind_at (hx : Does R r x Q)
    (hf : ∀ a r', R r r' → Q a r' → R r' (stateOf (f a r'))) : R r (stateOf ((x >>= f) r)) :=
  And.left (b := ∀ b r', (x >>= f) r = .ok b r' → True)
    (h.bind_does hx fun a r' hr hq => ⟨hf a r' hr hq, fun _ _ _ => trivial⟩)

theorem Frame.reads_does (f : Store → Except Stop α) (r : Run) :
    Does R r (DriveBackup.reads f) fun a r' => f r.store = .ok a ∧ ∃ rest, r' = { r with outcomes := rest } := by
  refine ⟨h.reads f r, fun a r' hrun => ?_⟩
  obtain ⟨rest, ⟨b, hb, hread⟩ | ⟨e, hread⟩⟩ := reads_run f r
  · rw [hread] at hrun
    obtain ⟨rfl, rfl⟩ := EStateM.Result.ok.inj hrun
    exact ⟨hb, rest, rfl⟩
  · rw [hread] at hrun
    cases hrun

theorem Frame.get_does (r : Run) : Does R r (MonadState.get : Act Run) fun a r' => a = r ∧ r' = r := by
  refine ⟨h.refl r, fun a r' hrun => ?_⟩
  obtain ⟨rfl, rfl⟩ := EStateM.Result.ok.inj hrun
  exact ⟨rfl, rfl⟩

theorem Frame.relPlace_does (k : Target) (rel : Text) (r : Run) :
    Does R r (DriveBackup.relPlace k rel) fun place r' => place = k.place rel ∧ r' = r := by
  refine ⟨h.relPlace k rel r, fun place r' hrun => ?_⟩
  rcases relPlace_run k rel r with hplace | hplace
  · rw [hplace] at hrun
    obtain ⟨rfl, rfl⟩ := EStateM.Result.ok.inj hrun
    exact ⟨rfl, rfl⟩
  · rw [hplace] at hrun
    cases hrun

end Rules

/-! ### Files after a step -/

section Files

variable {s s' : Store} {now t : Int} {place p : List Text}

theorem version_put (s : Store) (now : Int) (tree : Tree Text Copy) (t : Int) :
    Store.version { s with versions := s.versions.put now tree } t = if t = now then tree else s.version t := by
  rw [Store.version, get?_put]
  split
  · rfl
  · rfl

theorem version_erase (s : Store) (now t : Int) :
    Store.version { s with versions := s.versions.erase now } t = if t = now then Table.empty else s.version t := by
  rw [Store.version, get?_erase]
  split
  · rfl
  · rfl

theorem makeParents_ok (h : makeParents place s = .ok s') :
    (∀ p, s'.current.file? p = s.current.file? p) ∧ s'.versions = s.versions ∧ s'.manifest = s.manifest := by
  unfold makeParents at h
  split at h
  · rename_i tree htree
    obtain rfl := ok.inj h
    exact ⟨fun p => Tree.file?_mkdirs htree p, rfl, rfl⟩
  · cases h

theorem makeVersionParents_ok (h : makeVersionParents now place s = .ok s') :
    s'.current = s.current ∧ (∀ t p, (s'.version t).file? p = (s.version t).file? p) ∧ s'.manifest = s.manifest := by
  unfold makeVersionParents at h
  split at h
  · rename_i tree htree
    obtain rfl := ok.inj h
    refine ⟨rfl, fun t p => ?_, rfl⟩
    rw [version_put]
    split
    · rename_i ht
      rw [ht, Tree.file?_mkdirs htree]
    · rfl
  · cases h

theorem file?_put (tree : Tree Text Copy) (place : List Text) (copy : Copy) (p : List Text) :
    Tree.file? (tree.put place (.file copy)) p = if p = place then some copy else tree.file? p := by
  split
  · rename_i hp
    rw [hp, Tree.file?_put_self]
  · rename_i hp
    exact Tree.file?_put_of_ne _ hp

theorem file?_erase (tree : Tree Text Copy) (place p : List Text) :
    Tree.file? (tree.erase place) p = if p = place then none else tree.file? p := by
  split
  · rename_i hp
    rw [hp, Tree.file?, get?_erase, if_pos rfl]
  · rename_i hp
    exact Tree.file?_erase_of_ne hp

/-- One file of a version changes. -/
theorem file?_version_put {tree : Tree Text Copy} {c : Option Copy}
    (htree : ∀ p, tree.file? p = if p = place then c else (s.version now).file? p) (t : Int) (p : List Text) :
    (Store.version { s with versions := s.versions.put now tree } t).file? p =
      if t = now ∧ p = place then c else (s.version t).file? p := by
  rw [version_put]
  by_cases ht : t = now
  · rw [if_pos ht, htree, ht]
    by_cases hp : p = place
    · rw [if_pos hp, if_pos ⟨rfl, hp⟩]
    · rw [if_neg hp, if_neg fun h => hp h.2]
  · rw [if_neg ht, if_neg fun h => ht h.1]

theorem moveToVersion_ok (h : moveToVersion now place s = .ok s') : ∃ copy, s.current.file? place = some copy ∧
      (∀ p, s'.current.file? p = if p = place then none else s.current.file? p) ∧
      (∀ t p, (s'.version t).file? p = if t = now ∧ p = place then some copy else (s.version t).file? p) ∧
      s'.manifest = s.manifest := by
  unfold moveToVersion at h
  split at h
  · cases h
  rename_i copy hcopy
  split at h
  · cases h
  obtain rfl := ok.inj h
  exact ⟨copy, hcopy, file?_erase s.current place, file?_version_put (file?_put (s.version now) place copy), rfl⟩

theorem moveFromVersion_ok (h : moveFromVersion now place s = .ok s') :
    ∃ copy, (s.version now).file? place = some copy ∧
      (∀ p, s'.current.file? p = if p = place then some copy else s.current.file? p) ∧
      (∀ t p, (s'.version t).file? p = if t = now ∧ p = place then none else (s.version t).file? p) ∧
      s'.manifest = s.manifest := by
  unfold moveFromVersion at h
  split at h
  · cases h
  rename_i copy hcopy
  obtain rfl := ok.inj h
  exact ⟨copy, hcopy, file?_put s.current place copy, file?_version_put (file?_erase (s.version now) place), rfl⟩

theorem persist_ok (h : persist place copy s = .ok s') :
    (∀ p, s'.current.file? p = if p = place then some copy else s.current.file? p) ∧ s'.versions = s.versions ∧
      s'.manifest = s.manifest := by
  unfold persist at h
  split at h
  · cases h
  · obtain rfl := ok.inj h
    exact ⟨file?_put s.current place copy, rfl, rfl⟩

theorem eraseVersion_files (t : Int) (place : List Text) (s : Store) :
    (eraseVersion t place s).current = s.current ∧ (eraseVersion t place s).manifest = s.manifest ∧
      ∀ t' p, ((eraseVersion t place s).version t').file? p =
        if t' = t ∧ p = place then none else (s.version t').file? p := by
  unfold eraseVersion
  split
  · exact ⟨rfl, rfl, file?_version_put (file?_erase (s.version t) place)⟩
  · rename_i hnone
    refine ⟨rfl, rfl, fun t' p => ?_⟩
    by_cases h : t' = t ∧ p = place
    · rw [if_pos h, h.1, h.2, hnone]
    · rw [if_neg h]

theorem pruneParents_files (d : List Text) (tree : Tree Text Copy) (p : List Text) :
    (pruneParents d tree).file? p = tree.file? p := by
  induction d generalizing tree with
  | nil => rfl
  | cons n d ih =>
    rw [pruneParents]
    split
    · rename_i h
      rw [ih, file?_erase]
      split
      · rename_i hp
        rw [hp, Tree.file?, h.1]
      · rfl
    · rfl

theorem pruneEmptyDirs_files (tree : Tree Text Copy) (p : List Text) :
    (pruneEmptyDirs tree).file? p = tree.file? p := by
  rw [Tree.file?, Tree.file?, pruneEmptyDirs, Table.get?_keep]
  cases hp : tree.get? p with
  | none => rfl
  | some e =>
    cases e with
    | file copy | link => simp [Option.filter]
    | dir => simp only [Option.filter]; split <;> simp_all

theorem pruneFolder_files (t : Int) (s : Store) :
    (pruneFolder t s).current = s.current ∧ (pruneFolder t s).manifest = s.manifest ∧
      ∀ t' p, ((pruneFolder t s).version t').file? p = (s.version t').file? p := by
  unfold pruneFolder
  simp only
  split
  · rename_i hrows
    refine ⟨rfl, rfl, fun t' p => ?_⟩
    rw [version_erase]
    split
    · rename_i ht
      have hnone : (pruneEmptyDirs (s.version t)).get? p = none := by
        rw [Table.get?, hrows]
        rfl
      rw [ht, ← pruneEmptyDirs_files (s.version t) p, Tree.file?, Tree.file?, hnone]
      rfl
    · rfl
  · refine ⟨rfl, rfl, fun t' p => ?_⟩
    rw [version_put]
    split
    · rename_i ht
      rw [ht, pruneEmptyDirs_files]
    · rfl

theorem pruneFolders_files (times : List Int) (s : Store) :
    (pruneFolders times s).current = s.current ∧ (pruneFolders times s).manifest = s.manifest ∧
      ∀ t p, ((pruneFolders times s).version t).file? p = (s.version t).file? p := by
  induction times generalizing s with
  | nil => exact ⟨rfl, rfl, fun _ _ => rfl⟩
  | cons t times ih =>
    obtain ⟨hc, hm, hv⟩ := pruneFolder_files t s
    obtain ⟨hc', hm', hv'⟩ := ih (pruneFolder t s)
    exact ⟨hc'.trans hc, hm'.trans hm, fun t' p => (hv' t' p).trans (hv t' p)⟩

end Files

/-! ### Rules for thinning -/

/-- A relation that holds across the steps thinning is made of. -/
structure ThinSteps (k : Target) (R : Run → Run → Prop) : Prop extends Frame R where
  removes : ∀ t rel, Keeps R (removeVersion k t rel)
  forgets : ∀ rel, Keeps R (setManifest fun m => m.forget rel)
  returns : ∀ here : List Text, Keeps R (setManifest fun m => { m with deleted := m.deleted.keep fun rel _ => rel ∉ here })
  prunes : ∀ {f : Store → Store}, (∀ s, (f s).current = s.current ∧ (f s).manifest = s.manifest ∧
    ∀ t p, ((f s).version t).file? p = (s.version t).file? p) → Keeps R (writes (fun s => .ok (f s)) fun _ => [])

section ThinRules

variable {k : Target} {R : Run → Run → Prop} (h : ThinSteps k R) (now : Int)

include h

theorem ThinSteps.removeVersions (rel : Text) (times : List Int) : Keeps R (removeVersions k rel times) := by
  induction times with
  | nil => exact h.pure 0
  | cons t rest ih => exact h.bind (h.removes t rel) fun _ => h.bind ih fun _ => h.pure _

theorem ThinSteps.dropExpired (found : List (Int × Text)) (rels : List Text) : Keeps R (dropExpired k found rels) := by
  induction rels with
  | nil => exact h.pure 0
  | cons rel rest ih =>
    exact h.bind (h.removeVersions rel _) fun _ => h.bind (h.forgets rel) fun _ => h.bind ih fun _ => h.pure _

theorem ThinSteps.thinEach (found : List (Int × Text)) (rels : List Text) : Keeps R (thinEach k now found rels) := by
  induction rels with
  | nil => exact h.pure 0
  | cons rel rest ih =>
    exact h.bind h.get fun _ => h.bind (h.removeVersions rel _) fun _ => h.bind ih fun _ => h.pure _

theorem ThinSteps.thin : Keeps R (thin k now) :=
  h.bind (h.reads _) fun here => h.bind (h.returns here) fun _ => h.bind h.get fun _ => h.bind (h.reads _) fun found =>
    h.bind (h.dropExpired found _) fun _ => h.bind (h.thinEach now found _) fun _ =>
      h.bind (h.prunes fun s => pruneFolders_files (versionTimes s) s) fun _ => h.pure _

theorem ThinSteps.freeFolder (spared : Text → Int → Bool) (t : Int) (rels copies : List Text) :
    Keeps R (freeFolder k spared t rels copies) := by
  induction rels generalizing copies with
  | nil => exact h.pure _
  | cons rel rest ih =>
    rw [DriveBackup.freeFolder]
    split
    · exact ih copies
    refine h.bind (h.relPlace k rel) fun place => h.bind (h.reads _) fun found => ?_
    cases found with
    | none => exact ih copies
    | some copy =>
      exact h.bind (h.removes t rel) fun _ => h.bind (h.whenever _ (h.forgets rel)) fun _ =>
        h.bind (ih _) fun _ => h.pure _

theorem ThinSteps.freeFolders (spared : Text → Int → Bool) (times : List Int) (copies : List Text) :
    Keeps R (freeFolders k spared times copies) := by
  induction times generalizing copies with
  | nil => exact h.pure 0
  | cons t rest ih =>
    refine h.bind (h.reads _) fun names => h.bind (h.freeFolder spared t names copies) fun freed =>
      h.bind (h.prunes fun s => pruneFolder_files t s) fun _ => ?_
    split
    · exact h.pure _
    · exact ih _

theorem ThinSteps.freeSpaceByThinning : Keeps R (freeSpaceByThinning k now) :=
  h.bind h.get fun _ => h.bind (h.reads _) fun _ => h.bind (h.reads _) fun _ => h.bind (h.reads _) fun _ =>
    h.freeFolders _ _ _

/-- A second try, after room was made. -/
theorem ThinSteps.retryWithRoom {α : Type} {x : Act α} (hx : Keeps R x) : Keeps R (retryWithRoom k now x) := by
  refine h.onError hx fun e => ?_
  cases e with
  | full =>
    refine h.bind (h.onError (h.freeSpaceByThinning now) fun _ => h.pure 0) fun freed => ?_
    split
    · exact h.throw _
    · exact h.bind (h.count _) fun _ => hx
  | notFound | io | crash => exact h.throw _

end ThinRules

/-! ### What a backup owes -/

/-- The content can be read as the file's newest copy or as one of its versions. -/
def Held (s : Store) (p : List Text) (bytes : List UInt8) : Prop :=
  (∃ copy, s.current.file? p = some copy ∧ copy.bytes = bytes) ∨
    ∃ t copy, (s.version t).file? p = some copy ∧ copy.bytes = bytes

/-- A content is owed from the moment it is complete under `current/` until thinning removes it. -/
def owes (owed : Bool) (p : List Text) (bytes : List UInt8) : Event → Bool
  | .completed p' bytes' => owed || (p' = p && bytes' = bytes)
  | .thinned _ p' bytes' => owed && !(p' = p && bytes' = bytes)

def owed (log : List Event) (p : List Text) (bytes : List UInt8) : Bool :=
  log.foldl (fun o e => owes o p bytes e) false

def Owed (r : Run) : Prop := ∀ p bytes, owed r.log p bytes = true → Held r.store p bytes

/-- Every copy stands where its name says. -/
def Named (k : Target) (tree : Tree Text Copy) : Prop := ∀ p copy, tree.file? p = some copy → k.place copy.name = p

structure Store.Named (k : Target) (s : Store) : Prop where
  current : DriveBackup.Named k s.current
  versions : ∀ t, DriveBackup.Named k (s.version t)

/-- A step without events that loses no content. -/
theorem Owed.of_held {r r' : Run} (h : Owed r) (hlog : r'.log = r.log)
    (hheld : ∀ p bytes, Held r.store p bytes → Held r'.store p bytes) : Owed r' := by
  intro p bytes howed
  rw [hlog] at howed
  exact hheld p bytes (h p bytes howed)

theorem owed_append (log : List Event) (e : Event) (p : List Text) (bytes : List UInt8) :
    owed (log ++ [e]) p bytes = owes (owed log p bytes) p bytes e := by
  rw [owed, foldl_append]
  rfl

/-- Thinning: versions may go, nothing else changes on the disk, and stamps may be forgotten. -/
structure Thins (r r' : Run) : Prop where
  current : r'.store.current = r.store.current
  manifest : r'.store.manifest = r.store.manifest
  versions : ∀ t p, (r'.store.version t).file? p = none ∨ (r'.store.version t).file? p = (r.store.version t).file? p
  clock : ∀ now, r'.manifest.clock now = r.manifest.clock now
  deleted : ∀ rel, r'.manifest.deleted.get? rel = none ∨ r'.manifest.deleted.get? rel = r.manifest.deleted.get? rel
  owed : Owed r → Owed r'

theorem thins_frame : Frame Thins where
  refl _ := ⟨rfl, rfl, fun _ _ => .inr rfl, fun _ => rfl, fun _ => .inr rfl, id⟩
  trans _ _ _ h h' :=
    { current := h'.current.trans h.current
      manifest := h'.manifest.trans h.manifest
      versions := fun t p => (h'.versions t p).elim .inl fun heq => (h.versions t p).imp heq.trans heq.trans
      clock := fun now => (h'.clock now).trans (h.clock now)
      deleted := fun rel => (h'.deleted rel).elim .inl fun heq => (h.deleted rel).imp heq.trans heq.trans
      owed := fun ho => h'.owed (h.owed ho) }
  blind _ _ _ := ⟨rfl, rfl, fun _ _ => .inr rfl, fun _ => rfl, fun _ => .inr rfl, id⟩

theorem Thins.named {k : Target} {r r' : Run} (h : Thins r r') (hn : r.store.Named k) : r'.store.Named k := by
  refine ⟨?_, fun t p copy hp => ?_⟩
  · rw [h.current]
    exact hn.current
  · rcases h.versions t p with hnone | hsame
    · rw [hnone] at hp
      cases hp
    · exact hn.versions t p copy (hsame ▸ hp)

section Thinning

variable (k : Target) (now : Int)

theorem removeVersion_thins (t : Int) (rel : Text) : Keeps Thins (removeVersion k t rel) := by
  have hframe := thins_frame
  refine hframe.bind (hframe.relPlace k rel) fun place => hframe.bind hframe.get fun _ =>
    hframe.bind (hframe.writes fun r s hs => ?_) fun _ => hframe.pure _
  obtain rfl := ok.inj hs
  obtain ⟨hc, hm, hv⟩ := eraseVersion_files t place r.store
  refine ⟨hc, hm, fun t' p => ?_, fun _ => rfl, fun _ => .inr rfl, fun ho p bytes howed => ?_⟩
  · rw [hv]
    split
    · exact .inl rfl
    · exact .inr rfl
  · -- The content that goes is no longer owed; any other is still where it was.
    have hheld : Held r.store p bytes ∧ ∀ copy, (r.store.version t).file? place = some copy →
        ¬ (place = p ∧ copy.bytes = bytes) := by
      cases hfile : (r.store.version t).file? place with
      | none =>
        rw [hfile] at howed
        simp only [toList_none, map_nil, append_nil] at howed
        exact ⟨ho p bytes howed, fun copy hcopy => (by cases hcopy)⟩
      | some copy =>
        rw [hfile] at howed
        simp only [toList_some, map_cons, map_nil] at howed
        rw [owed_append, owes, Bool.and_eq_true] at howed
        refine ⟨ho p bytes howed.1, fun copy' hcopy' heq => ?_⟩
        obtain rfl := some.inj hcopy'
        simp [heq] at howed
    rcases hheld.1 with ⟨copy, hcopy, hbytes⟩ | ⟨t', copy, hcopy, hbytes⟩
    · exact .inl ⟨copy, by rw [hc, hcopy], hbytes⟩
    · refine .inr ⟨t', copy, ?_, hbytes⟩
      rw [hv, if_neg, hcopy]
      rintro ⟨rfl, rfl⟩
      exact hheld.2 copy hcopy ⟨rfl, hbytes⟩

theorem setManifest_thins (f : Manifest → Manifest) (hclock : ∀ m now, (f m).clock now = m.clock now)
    (hdeleted : ∀ m rel, (f m).deleted.get? rel = none ∨ (f m).deleted.get? rel = m.deleted.get? rel) :
    Keeps Thins (setManifest f) :=
  fun r => ⟨rfl, rfl, fun _ _ => .inr rfl, hclock r.manifest, hdeleted r.manifest, id⟩

theorem forget_thins (rel : Text) : Keeps Thins (setManifest fun m => m.forget rel) := by
  refine setManifest_thins _ (fun _ _ => rfl) fun m rel' => ?_
  rw [Manifest.forget, get?_erase]
  split
  · exact .inl rfl
  · exact .inr rfl

/-- Taking away empty folders touches no file. -/
theorem prune_thins {f : Store → Store} (hf : ∀ s, (f s).current = s.current ∧ (f s).manifest = s.manifest ∧
    ∀ t p, ((f s).version t).file? p = (s.version t).file? p) :
    Keeps Thins (writes (fun s => .ok (f s)) fun _ => []) := by
  refine thins_frame.writes fun r s hs => ?_
  obtain rfl := ok.inj hs
  obtain ⟨hc, hm, hv⟩ := hf r.store
  refine ⟨hc, hm, fun t p => .inr (hv t p), fun _ => rfl, fun _ => .inr rfl, fun ho => ?_⟩
  refine ho.of_held (append_nil _) fun p bytes hheld => ?_
  rcases hheld with ⟨copy, hcopy, hbytes⟩ | ⟨t, copy, hcopy, hbytes⟩
  · exact .inl ⟨copy, (congrArg (fun tree => Tree.file? tree p) hc).trans hcopy, hbytes⟩
  · exact .inr ⟨t, copy, (hv t p).trans hcopy, hbytes⟩

/-- Thinning is made of these steps. -/
theorem thins_steps : ThinSteps k Thins where
  toFrame := thins_frame
  removes := removeVersion_thins k
  forgets := forget_thins
  returns here := by
    refine setManifest_thins _ (fun _ _ => rfl) fun m rel => ?_
    rw [Table.get?_keep]
    cases m.deleted.get? rel with
    | none => exact .inl rfl
    | some stamp =>
      simp only [Option.filter]
      split
      · exact .inr rfl
      · exact .inl rfl
  prunes := prune_thins

theorem thin_thins : Keeps Thins (thin k now) := (thins_steps k).thin now

theorem freeFolder_thins (spared : Text → Int → Bool) (t : Int) (rels copies : List Text) :
    Keeps Thins (freeFolder k spared t rels copies) := (thins_steps k).freeFolder spared t rels copies

theorem freeSpaceByThinning_thins : Keeps Thins (freeSpaceByThinning k now) := (thins_steps k).freeSpaceByThinning now

end Thinning

/-! ### One file -/

section OneFile

variable {k : Target} {now : Int} {p : List Text} {r r' r'' : Run}

/-- No file has changed, and nothing that the run remembers. -/
structure Still (r r' : Run) : Prop where
  current : ∀ q, r'.store.current.file? q = r.store.current.file? q
  versions : ∀ t q, (r'.store.version t).file? q = (r.store.version t).file? q
  stored : r'.store.manifest = r.store.manifest
  manifest : r'.manifest = r.manifest
  log : r'.log = r.log

theorem still_frame : Frame Still where
  refl _ := ⟨fun _ => rfl, fun _ _ => rfl, rfl, rfl, rfl⟩
  trans _ _ _ h h' :=
    { current := fun q => (h'.current q).trans (h.current q)
      versions := fun t q => (h'.versions t q).trans (h.versions t q)
      stored := h'.stored.trans h.stored
      manifest := h'.manifest.trans h.manifest
      log := h'.log.trans h.log }
  blind _ _ _ := ⟨fun _ => rfl, fun _ _ => rfl, rfl, rfl, rfl⟩

theorem makeParents_still (place : List Text) : Keeps Still (writes (makeParents place) fun _ => []) := by
  refine still_frame.writes fun r s hs => ?_
  obtain ⟨hc, hv, hm⟩ := makeParents_ok hs
  refine ⟨hc, fun t q => ?_, hm, rfl, append_nil _⟩
  rw [Store.version, hv]
  rfl

theorem makeVersionParents_still (now : Int) (place : List Text) :
    Keeps Still (writes (makeVersionParents now place) fun _ => []) := by
  refine still_frame.writes fun r s hs => ?_
  obtain ⟨hc, hv, hm⟩ := makeVersionParents_ok hs
  exact ⟨fun q => by rw [hc], hv, hm, rfl, append_nil _⟩

theorem stageCopy_still (src : Source) : Keeps Still (stageCopy src) := by
  intro r
  unfold stageCopy
  split
  · exact still_frame.reads _ r
  · exact still_frame.refl r

/-- The copy has moved aside. -/
structure Moved (now : Int) (p : List Text) (copy : Copy) (r r' : Run) : Prop where
  was : r.store.current.file? p = some copy
  current : ∀ q, r'.store.current.file? q = if q = p then none else r.store.current.file? q
  versions : ∀ t q, (r'.store.version t).file? q = if t = now ∧ q = p then some copy else (r.store.version t).file? q
  stored : r'.store.manifest = r.store.manifest
  manifest : r'.manifest = r.manifest
  log : r'.log = r.log

/-- The copy is back, and the place it had aside is free. -/
structure Back (now : Int) (p : List Text) (r r' : Run) : Prop where
  current : ∀ q, r'.store.current.file? q = r.store.current.file? q
  versions : ∀ t q, (r'.store.version t).file? q = if t = now ∧ q = p then none else (r.store.version t).file? q
  stored : r'.store.manifest = r.store.manifest
  manifest : r'.manifest = r.manifest
  log : r'.log = r.log

/-- A new copy has come under `current/`. -/
structure Saved (p : List Text) (copy : Copy) (r r' : Run) : Prop where
  was : r.store.current.file? p = none
  current : ∀ q, r'.store.current.file? q = if q = p then some copy else r.store.current.file? q
  versions : ∀ t q, (r'.store.version t).file? q = (r.store.version t).file? q
  stored : r'.store.manifest = r.store.manifest
  manifest : r'.manifest = r.manifest
  log : r'.log = r.log ++ [.completed p copy.bytes]

theorem Still.owed (h : Still r r') (ho : Owed r) : Owed r' := by
  refine ho.of_held h.log fun q bytes hheld => ?_
  rcases hheld with ⟨copy, hcopy, hbytes⟩ | ⟨t, copy, hcopy, hbytes⟩
  · exact .inl ⟨copy, (h.current q).trans hcopy, hbytes⟩
  · exact .inr ⟨t, copy, (h.versions t q).trans hcopy, hbytes⟩

theorem Moved.owed (h : Moved now p copy r r') (hfree : (r.store.version now).file? p = none)
    (ho : Owed r) : Owed r' := by
  refine ho.of_held h.log fun q bytes hheld => ?_
  rcases hheld with ⟨copy', hcopy', hbytes⟩ | ⟨t, copy', hcopy', hbytes⟩
  · by_cases hq : q = p
    · rw [hq, h.was] at hcopy'
      exact .inr ⟨now, copy, by rw [h.versions, if_pos ⟨rfl, hq⟩], some.inj hcopy' ▸ hbytes⟩
    · exact .inl ⟨copy', by rw [h.current, if_neg hq, hcopy'], hbytes⟩
  · refine .inr ⟨t, copy', ?_, hbytes⟩
    rw [h.versions, if_neg, hcopy']
    rintro ⟨rfl, rfl⟩
    rw [hfree] at hcopy'
    cases hcopy'

theorem Back.owed (h : Back now p r r') (hfree : (r.store.version now).file? p = none) (ho : Owed r) : Owed r' := by
  refine ho.of_held h.log fun q bytes hheld => ?_
  rcases hheld with ⟨copy, hcopy, hbytes⟩ | ⟨t, copy, hcopy, hbytes⟩
  · exact .inl ⟨copy, (h.current q).trans hcopy, hbytes⟩
  · refine .inr ⟨t, copy, ?_, hbytes⟩
    rw [h.versions, if_neg, hcopy]
    rintro ⟨rfl, rfl⟩
    rw [hfree] at hcopy
    cases hcopy

theorem Saved.owed (h : Saved p copy r r') (ho : Owed r) : Owed r' := by
  intro q bytes howed
  rw [h.log, owed_append, owes, Bool.or_eq_true] at howed
  rcases howed with howed | hnew
  · rcases ho q bytes howed with ⟨copy', hcopy', hbytes⟩ | ⟨t, copy', hcopy', hbytes⟩
    · refine .inl ⟨copy', ?_, hbytes⟩
      rw [h.current, if_neg, hcopy']
      rintro rfl
      rw [h.was] at hcopy'
      cases hcopy'
    · exact .inr ⟨t, copy', (h.versions t q).trans hcopy', hbytes⟩
  · rw [Bool.and_eq_true, decide_eq_true_eq, decide_eq_true_eq] at hnew
    exact .inl ⟨copy, by rw [h.current, if_pos hnew.1.symm], hnew.2⟩

theorem Still.named (h : Still r r') (hn : r.store.Named k) : r'.store.Named k :=
  ⟨fun q copy hq => hn.current q copy ((h.current q).symm.trans hq),
    fun t q copy hq => hn.versions t q copy ((h.versions t q).symm.trans hq)⟩

theorem Moved.named (h : Moved now p copy r r') (hn : r.store.Named k) : r'.store.Named k := by
  refine ⟨fun q copy' hq => ?_, fun t q copy' hq => ?_⟩
  · rw [h.current] at hq
    split at hq
    · cases hq
    · exact hn.current q copy' hq
  · rw [h.versions] at hq
    split at hq
    · rename_i hplace
      rw [hplace.2, ← some.inj hq]
      exact hn.current p copy h.was
    · exact hn.versions t q copy' hq

theorem Back.named (h : Back now p r r') (hn : r.store.Named k) : r'.store.Named k := by
  refine ⟨fun q copy hq => hn.current q copy ((h.current q).symm.trans hq), fun t q copy hq => ?_⟩
  rw [h.versions] at hq
  split at hq
  · cases hq
  · exact hn.versions t q copy hq

theorem Saved.named (h : Saved p copy r r') (hcopy : k.place copy.name = p) (hn : r.store.Named k) :
    r'.store.Named k := by
  refine ⟨fun q copy' hq => ?_, fun t q copy' hq => hn.versions t q copy' ((h.versions t q).symm.trans hq)⟩
  rw [h.current] at hq
  split at hq
  · rename_i hplace
    rw [hplace, ← some.inj hq, hcopy]
  · exact hn.current q copy' hq

theorem moveToVersion_moved {s : Store} (h : moveToVersion now p r.store = .ok s) :
    ∃ copy, Moved now p copy r { r with store := s, log := r.log ++ [] } := by
  obtain ⟨copy, hwas, hc, hv, hm⟩ := moveToVersion_ok h
  exact ⟨copy, hwas, hc, hv, hm, rfl, append_nil _⟩

theorem Moved.still (h : Moved now p copy r r') (h' : Still r' r'') : Moved now p copy r r'' where
  was := h.was
  current q := by rw [h'.current, h.current]
  versions t q := by rw [h'.versions, h.versions]
  stored := h'.stored.trans h.stored
  manifest := h'.manifest.trans h.manifest
  log := h'.log.trans h.log

end OneFile

end LibreServ.DriveBackup
