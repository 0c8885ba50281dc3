import LibreServ.DriveKeeps

/-! Saving and dropping one file, with the second try after old versions made room. Neither loses a content as long
as the file has no version with the time of the run already: that version would be replaced. -/

namespace LibreServ.DriveBackup

open Files (Text split join)
open FileTree

variable {k : Target} {now : Int} {p : List Text} {r r' r'' : Run}

/-- Of one file everything may have changed, of all others at most some versions are gone. -/
structure Handles (now : Int) (p : List Text) (r r' : Run) : Prop where
  current : ∀ q, q ≠ p → r'.store.current.file? q = r.store.current.file? q
  versions : ∀ t q, ¬ (t = now ∧ q = p) →
    (r'.store.version t).file? q = none ∨ (r'.store.version t).file? q = (r.store.version t).file? q
  stored : r'.store.manifest = r.store.manifest
  clock : ∀ now, r'.manifest.clock now = r.manifest.clock now
  deleted : ∀ rel, r'.manifest.deleted.get? rel = none ∨ r'.manifest.deleted.get? rel = r.manifest.deleted.get? rel

theorem Handles.trans (h : Handles now p r r') (h' : Handles now p r' r'') : Handles now p r r'' where
  current q hq := (h'.current q hq).trans (h.current q hq)
  versions t q hq := (h'.versions t q hq).elim .inl fun heq => (h.versions t q hq).imp heq.trans heq.trans
  stored := h'.stored.trans h.stored
  clock now := (h'.clock now).trans (h.clock now)
  deleted rel := (h'.deleted rel).elim .inl fun heq => (h.deleted rel).imp heq.trans heq.trans

theorem Thins.handles (h : Thins r r') : Handles now p r r' :=
  ⟨fun q _ => by rw [h.current], fun t q _ => h.versions t q, h.manifest, h.clock, h.deleted⟩

/-- The file is as it was, but for versions that are gone, or it has no copy under `current/`. -/
def Again (now : Int) (p : List Text) (r r' : Run) : Prop :=
  r'.store.current.file? p = none ∨ (r'.store.current.file? p = r.store.current.file? p ∧
    ((r'.store.version now).file? p = none ∨ (r'.store.version now).file? p = (r.store.version now).file? p))

theorem Again.trans (h : Again now p r r') (h' : Again now p r' r'') : Again now p r r'' := by
  rcases h' with hnone | ⟨hc', hv'⟩
  · exact .inl hnone
  · rcases h with hnone | ⟨hc, hv⟩
    · exact .inl (hc'.trans hnone)
    · exact .inr ⟨hc'.trans hc, hv'.elim .inl fun heq => hv.imp heq.trans heq.trans⟩

theorem Thins.again (h : Thins r r') : Again now p r r' := .inr ⟨by rw [h.current], h.versions now p⟩

/-- If the copy that stands under `current/` moves aside, there is room for it. -/
def Safe (now : Int) (p : List Text) (moves : Copy → Bool) (r : Run) : Prop :=
  ∀ copy, r.store.current.file? p = some copy → moves copy = true → (r.store.version now).file? p = none

theorem Safe.again {moves : Copy → Bool} (h : Safe now p moves r) (ha : Again now p r r') : Safe now p moves r' := by
  intro copy hcopy hmoves
  rcases ha with hnone | ⟨hc, hv⟩
  · rw [hnone] at hcopy
    cases hcopy
  · rcases hv with hnone | hsame
    · exact hnone
    · rw [hsame]
      exact h copy (hc.symm.trans hcopy) hmoves

/-- What every attempt at one file keeps to. -/
structure Attempt {α : Type} (k : Target) (now : Int) (p : List Text) (r : Run) (res : EStateM.Result Stop Run α) :
    Prop where
  handles : Handles now p r (stateOf res)
  owed : Owed r → Owed (stateOf res)
  named : r.store.Named k → (stateOf res).store.Named k
  again : ∀ e r', res = .error e r' → Again now p r r'

section Ends

variable {α : Type} {a : α} {e : Stop} {copy : Copy} {res : EStateM.Result Stop Run α}

theorem Still.handles (h : Still r r') : Handles now p r r' :=
  ⟨fun q _ => h.current q, fun t q _ => .inr (h.versions t q), h.stored, fun _ => by rw [h.manifest],
    fun _ => .inr (by rw [h.manifest])⟩

theorem Moved.handles (h : Moved now p copy r r') : Handles now p r r' :=
  ⟨fun q hq => by rw [h.current, if_neg hq], fun t q hq => .inr (by rw [h.versions, if_neg hq]), h.stored,
    fun _ => by rw [h.manifest], fun _ => .inr (by rw [h.manifest])⟩

theorem Back.handles (h : Back now p r r') : Handles now p r r' :=
  ⟨fun q _ => h.current q, fun t q hq => .inr (by rw [h.versions, if_neg hq]), h.stored,
    fun _ => by rw [h.manifest], fun _ => .inr (by rw [h.manifest])⟩

theorem Saved.handles (h : Saved p copy r r') : Handles now p r r' :=
  ⟨fun q hq => by rw [h.current, if_neg hq], fun t q _ => .inr (h.versions t q), h.stored,
    fun _ => by rw [h.manifest], fun _ => .inr (by rw [h.manifest])⟩

theorem Still.attempt (h : Still r (stateOf res)) : Attempt k now p r res where
  handles := h.handles
  owed := h.owed
  named := h.named
  again e r' hres := by
    rw [hres] at h
    exact .inr ⟨h.current p, .inr (h.versions now p)⟩

theorem Moved.attempt (h : Moved now p copy r (stateOf res))
    (hfree : (r.store.version now).file? p = none) : Attempt k now p r res where
  handles := h.handles
  owed := h.owed hfree
  named := h.named
  again e r' hres := by
    rw [hres] at h
    have h : Moved now p copy r r' := h
    exact .inl (by rw [h.current, if_pos rfl])

theorem Back.attempt (h : Back now p r (stateOf res))
    (hfree : (r.store.version now).file? p = none) : Attempt k now p r res where
  handles := h.handles
  owed := h.owed hfree
  named := h.named
  again e r' hres := by
    rw [hres] at h
    have h : Back now p r r' := h
    exact .inr ⟨h.current p, .inl (by rw [h.versions, if_pos ⟨rfl, rfl⟩])⟩

end Ends

/-- Moved aside and back again. -/
theorem Moved.back {copy : Copy} (h : Moved now p copy r r') {s : Store}
    (hs : moveFromVersion now p r'.store = .ok s) : Back now p r { r' with store := s, log := r'.log ++ [] } := by
  obtain ⟨copy', hcopy', hc, hv, hm⟩ := moveFromVersion_ok hs
  rw [h.versions, if_pos ⟨rfl, rfl⟩] at hcopy'
  obtain rfl := Option.some.inj hcopy'
  refine ⟨fun q => ?_, fun t q => ?_, hm.trans h.stored, h.manifest, (List.append_nil _).trans h.log⟩
  · rw [hc]
    split
    · rename_i hq
      rw [hq, h.was]
    · rename_i hq
      rw [h.current, if_neg hq]
  · rw [hv]
    split
    · rfl
    · rename_i hq
      rw [h.versions, if_neg hq]

theorem Back.still (h : Back now p r r') (h' : Still r' r'') : Back now p r r'' where
  current q := (h'.current q).trans (h.current q)
  versions t q := (h'.versions t q).trans (h.versions t q)
  stored := h'.stored.trans h.stored
  manifest := h'.manifest.trans h.manifest
  log := h'.log.trans h.log

/-- A step that is tried goes through, does nothing, or is the last one. -/
theorem try_run (f : Store → Except Stop Store) (r : Run) :
    ∃ rest, (∃ s, f r.store = .ok s ∧ try' (writes f fun _ => []) r =
        .ok () { r with store := s, log := r.log ++ [], outcomes := rest }) ∨
      try' (writes f fun _ => []) r = .ok () { r with outcomes := rest } ∨
      try' (writes f fun _ => []) r = .error .crash { r with outcomes := rest } := by
  obtain ⟨rest, ⟨s, hs, hrun⟩ | ⟨e, hrun⟩⟩ := writes_run f (fun _ => []) r
  · exact ⟨rest, .inl ⟨s, hs, by rw [try', onError, hrun]⟩⟩
  · refine ⟨rest, .inr ?_⟩
    rw [try', onError, hrun]
    cases e with
    | crash => exact .inr rfl
    | full | notFound | io => exact .inl rfl

/-- The new copy is in place, or nothing has come of it. -/
theorem install_run (now : Int) (place : List Text) (copy : Copy) (replaces : Bool) (r : Run) :
    (∃ s rest, persist place copy r.store = .ok s ∧ install now place copy replaces r =
        .ok () { r with store := s, log := r.log ++ [.completed place copy.bytes], outcomes := rest }) ∨
      ∃ e r', install now place copy replaces r = .error e r' ∧ (Still r r' ∨
        (replaces = true ∧ ∃ r₁ s, Still r r₁ ∧ moveFromVersion now place r₁.store = .ok s ∧
          Still { r₁ with store := s, log := r₁.log ++ [] } r')) := by
  obtain ⟨rest, ⟨s, hs, hrun⟩ | ⟨e, hrun⟩⟩ := writes_run (persist place copy)
    (fun _ => [.completed place copy.bytes]) r
  · exact .inl ⟨s, rest, hs, by rw [install, onError, hrun]⟩
  · refine .inr ?_
    have hstill : ∀ rest, Still r { r with outcomes := rest } := fun rest => still_frame.blind r r.outcome rest
    by_cases hcrash : e = .crash
    · exact ⟨.crash, _, by rw [install, onError, hrun, hcrash], .inl (hstill rest)⟩
    have hhandle : install now place copy replaces r = (do
        whenever replaces (try' (writes (moveFromVersion now place) fun _ => []))
        throw e : Act Unit) { r with outcomes := rest } := by
      rw [install, onError, hrun]
      cases e with
      | crash => exact absurd rfl hcrash
      | full | notFound | io => rfl
    rw [hhandle]
    cases replaces with
    | false => exact ⟨e, _, rfl, .inl (hstill rest)⟩
    | true =>
      obtain ⟨rest', ⟨s, hs, hback⟩ | hback | hback⟩ := try_run (moveFromVersion now place) { r with outcomes := rest }
      · refine ⟨e, _, run_of_ok hback, .inr ⟨rfl, { r with outcomes := rest }, s, hstill rest, hs, ?_⟩⟩
        exact still_frame.blind _ r.outcome rest'
      · exact ⟨e, _, run_of_ok hback, .inl (hstill rest')⟩
      · exact ⟨.crash, _, run_of_error hback, .inl (hstill rest')⟩

/-- A run of steps after one that changed no file. -/
theorem Still.then_attempt {α : Type} {res : EStateM.Result Stop Run α} (h : Still r r') (ha : Attempt k now p r' res) :
    Attempt k now p r res where
  handles := h.handles.trans ha.handles
  owed ho := ha.owed (h.owed ho)
  named hn := ha.named (h.named hn)
  again e r'' hres := Again.trans (.inr ⟨h.current p, .inr (h.versions now p)⟩) (ha.again e r'' hres)

theorem Still.safe {moves : Copy → Bool} (h : Still r r') (hsafe : Safe now p moves r) : Safe now p moves r' :=
  hsafe.again (.inr ⟨h.current p, .inr (h.versions now p)⟩)

section Sequel

variable {α β : Type} {x : Act α} {f : α → Act β}

/-- Steps that change no file come first; what follows starts from such a state. -/
theorem attempt_of_still (hx : Keeps Still x) (hf : ∀ a r', x r = .ok a r' → Still r r' → Attempt k now p r (f a r')) :
    Attempt k now p r ((x >>= f) r) := by
  have hstill := hx r
  cases hrun : x r with
  | ok a r' =>
    rw [hrun] at hstill
    rw [run_of_ok hrun]
    exact hf a r' hrun hstill
  | error e r' =>
    rw [hrun] at hstill
    rw [run_of_error hrun]
    exact Still.attempt hstill

end Sequel

theorem existing_run {place : List Text} {found : Option Copy} (h : reads (existing place) r = .ok found r') :
    Still r r' ∧ r.store.current.file? place = found := by
  have hstill := still_frame.reads (existing place) r
  rw [h] at hstill
  refine ⟨hstill, ?_⟩
  obtain ⟨rest, ⟨a, ha, hrun⟩ | ⟨e, hrun⟩⟩ := reads_run (existing place) r
  · rw [hrun] at h
    obtain ⟨rfl, -⟩ := EStateM.Result.ok.inj h
    unfold existing at ha
    split at ha
    · rename_i copy hcopy
      rw [Tree.file?, hcopy, ← Except.ok.inj ha]
    · cases ha
    · rename_i hcopy
      rw [Tree.file?, hcopy, ← Except.ok.inj ha]
  · rw [hrun] at h
    cases h

theorem relPlace_ok {rel : Text} {place : List Text} (h : relPlace k rel r = .ok place r') :
    place = k.place rel ∧ r' = r := by
  rcases relPlace_run k rel r with hrun | hrun
  · rw [hrun] at h
    obtain ⟨rfl, rfl⟩ := EStateM.Result.ok.inj h
    exact ⟨rfl, rfl⟩
  · rw [hrun] at h
    cases h

/-- The earlier copy moves aside and what comes next is done from there. -/
theorem moving_attempt {α : Type} {f : Unit → Act α}
    (hf : ∀ copy r', Moved now p copy r r' → Attempt k now p r (f () r')) :
    Attempt k now p r ((writes (moveToVersion now p) (fun _ => []) >>= f) r) := by
  obtain ⟨rest, ⟨s, hs, hrun⟩ | ⟨e, hrun⟩⟩ := writes_run (moveToVersion now p) (fun _ => []) r
  · rw [run_of_ok hrun]
    obtain ⟨copy, hmoved⟩ := moveToVersion_moved hs
    exact hf copy _ (hmoved.still (still_frame.blind _ r.outcome rest))
  · rw [run_of_error hrun]
    exact Still.attempt (still_frame.blind r r.outcome rest)

/-- The new copy in the place of one that has moved aside. -/
theorem Moved.install {copy new : Copy} {α : Type} (a : α) (h : Moved now p copy r r')
    (hfree : (r.store.version now).file? p = none) (hnew : k.place new.name = p) :
    Attempt k now p r ((install now p new true >>= fun _ => pure a : Act α) r') := by
  have hgone : r'.store.current.file? p = none := by rw [h.current, if_pos rfl]
  rcases install_run now p new true r' with ⟨s, rest, hs, hrun⟩ | ⟨e, r₁, hrun, hend⟩
  · rw [run_of_ok hrun]
    obtain ⟨hc, hv, hm⟩ := persist_ok hs
    have hsaved : Saved p new r' { r' with store := s, log := r'.log ++ [.completed p new.bytes], outcomes := rest } :=
      ⟨hgone, hc, fun t q => by rw [Store.version, hv]; rfl, hm, rfl, rfl⟩
    refine ⟨h.handles.trans hsaved.handles, fun ho => hsaved.owed (h.owed hfree ho),
      fun hn => hsaved.named hnew (h.named hn), fun e r'' hres => (by cases hres)⟩
  · rw [run_of_error hrun]
    rcases hend with hstill | ⟨-, r₂, s, hstill, hs, hstill'⟩
    · exact Moved.attempt (h.still hstill) hfree
    · exact Back.attempt (((h.still hstill).back hs).still hstill') hfree

/-- A copy where there was none. -/
theorem install_new {new : Copy} {α : Type} (a : α) (hnone : r.store.current.file? p = none)
    (hnew : k.place new.name = p) :
    Attempt k now p r ((install now p new false >>= fun _ => pure a : Act α) r) := by
  rcases install_run now p new false r with ⟨s, rest, hs, hrun⟩ | ⟨e, r₁, hrun, hend⟩
  · rw [run_of_ok hrun]
    obtain ⟨hc, hv, hm⟩ := persist_ok hs
    have hsaved : Saved p new r { r with store := s, log := r.log ++ [.completed p new.bytes], outcomes := rest } :=
      ⟨hnone, hc, fun t q => by rw [Store.version, hv]; rfl, hm, rfl, rfl⟩
    exact ⟨hsaved.handles, hsaved.owed, hsaved.named hnew, fun e r'' hres => (by cases hres)⟩
  · rw [run_of_error hrun]
    rcases hend with hstill | ⟨hreplaces, -⟩
    · exact Still.attempt hstill
    · cases hreplaces

theorem put_attempt (rel : Text) (src : Source)
    (hsafe : Safe now (k.place rel) (fun copy => !matchesSource copy src) r) :
    Attempt k now (k.place rel) r (put k now rel src r) := by
  refine attempt_of_still (still_frame.relPlace k rel) fun place r₁ hplace _ => ?_
  obtain ⟨rfl, rfl⟩ := relPlace_ok hplace
  refine attempt_of_still (makeParents_still _) fun _ r₂ _ hstill => ?_
  refine hstill.then_attempt (attempt_of_still (still_frame.reads _) fun found r₃ hfound _ => ?_)
  obtain ⟨hstill', hcopy⟩ := existing_run hfound
  refine hstill'.then_attempt ?_
  have hsafe' := hstill'.safe (hstill.safe hsafe)
  rw [← hstill'.current] at hcopy
  cases found with
  | none =>
    refine attempt_of_still (stageCopy_still src) fun _ r₄ _ hstaged => hstaged.then_attempt ?_
    exact install_new _ ((hstaged.current _).trans hcopy) rfl
  | some copy =>
    by_cases hmatch : matchesSource copy src = true
    · simp only [hmatch]
      exact Still.attempt (still_frame.refl r₃)
    simp only [hmatch]
    have hfree := hsafe' copy hcopy (by simp [hmatch])
    refine attempt_of_still (stageCopy_still src) fun _ r₄ _ hstaged => hstaged.then_attempt ?_
    refine attempt_of_still (makeVersionParents_still now _) fun _ r₅ _ hmade => hmade.then_attempt ?_
    have hfree' : (r₅.store.version now).file? (k.place rel) = none := by
      rw [hmade.versions, hstaged.versions, hfree]
    exact moving_attempt fun copy' r₆ hmoved => hmoved.install _ hfree' rfl

/-- Empty folders go, files stay. -/
theorem pruneParents_still (d : List Text) (r : Run) :
    Still r { r with store := { r.store with current := pruneParents d r.store.current } } :=
  ⟨fun q => pruneParents_files d r.store.current q, fun _ _ => rfl, rfl, rfl, rfl⟩

theorem remove_attempt (rel : Text) (hsafe : Safe now (k.place rel) (fun _ => true) r) :
    Attempt k now (k.place rel) r (remove k now rel r) := by
  refine attempt_of_still (still_frame.relPlace k rel) fun place r₁ hplace _ => ?_
  obtain ⟨rfl, rfl⟩ := relPlace_ok hplace
  refine attempt_of_still (still_frame.reads _) fun found r₂ hfound _ => ?_
  obtain ⟨hstill, hcopy⟩ := existing_run hfound
  refine hstill.then_attempt ?_
  cases found with
  | none => exact Still.attempt (still_frame.refl r₂)
  | some copy =>
    have hfree := hsafe copy hcopy rfl
    refine attempt_of_still (makeVersionParents_still now _) fun _ r₃ _ hmade => hmade.then_attempt ?_
    have hfree' : (r₃.store.version now).file? (k.place rel) = none := by
      rw [hmade.versions, hstill.versions, hfree]
    exact moving_attempt fun copy' r₄ hmoved => Moved.attempt (hmoved.still (pruneParents_still _ r₄)) hfree'

theorem moved_run (h : writes (moveToVersion now p) (fun _ => []) r = .ok () r') : ∃ copy, Moved now p copy r r' := by
  obtain ⟨rest, ⟨s, hs, hrun⟩ | ⟨e, hrun⟩⟩ := writes_run (moveToVersion now p) (fun _ => []) r
  · rw [hrun] at h
    obtain ⟨-, rfl⟩ := EStateM.Result.ok.inj h
    obtain ⟨copy, hmoved⟩ := moveToVersion_moved hs
    exact ⟨copy, hmoved.still (still_frame.blind _ r.outcome rest)⟩
  · rw [hrun] at h
    cases h

/-- A file that was dropped is not under `current/` any more. -/
theorem remove_gone {rel : Text} {gone : Bool} (h : remove k now rel r = .ok gone r') :
    r'.store.current.file? (k.place rel) = none := by
  obtain ⟨place, r₁, hplace, hread⟩ := bind_run h
  obtain ⟨rfl, rfl⟩ := relPlace_ok hplace
  obtain ⟨found, r₂, hfound, hrest⟩ := bind_run hread
  obtain ⟨hstill, hcopy⟩ := existing_run hfound
  cases found with
  | none =>
    obtain ⟨-, rfl⟩ := EStateM.Result.ok.inj hrest
    rw [hstill.current, hcopy]
  | some copy =>
    obtain ⟨_, r₃, -, hmade⟩ := bind_run hrest
    obtain ⟨_, r₄, hmoves, hpruned⟩ := bind_run hmade
    obtain ⟨-, rfl⟩ := EStateM.Result.ok.inj hpruned
    obtain ⟨copy', hmoved⟩ := moved_run hmoves
    rw [(pruneParents_still _ r₄).current, hmoved.current, if_pos rfl]

/-! ### The second try -/

/-- An attempt that failed, then room was made. -/
theorem Attempt.then_thins {α β : Type} {res : EStateM.Result Stop Run α} {res' : EStateM.Result Stop Run β} {e : Stop}
    (h : Attempt k now p r res) (hres : res = .error e r') (ht : Thins r' r'') (h' : Attempt k now p r'' res') :
    Attempt k now p r res' := by
  have hagain := h.again e r' hres
  rw [hres] at h
  exact
    { handles := (h.handles.trans ht.handles).trans h'.handles
      owed := fun ho => h'.owed (ht.owed (h.owed ho))
      named := fun hn => h'.named (ht.named (h.named hn))
      again := fun e r₁ hres' => (hagain.trans ht.again).trans (h'.again e r₁ hres') }

theorem Thins.attempt {α : Type} {res : EStateM.Result Stop Run α} (h : Thins r (stateOf res)) :
    Attempt k now p r res where
  handles := h.handles
  owed := h.owed
  named := h.named
  again e r' hres := by
    rw [hres] at h
    exact h.again

section Retry

variable {α : Type} {x : Act α} {moves : Copy → Bool}

/-- Making room, whatever comes of it. -/
theorem makeRoom_thins (k : Target) (now : Int) : Keeps Thins (onError (freeSpaceByThinning k now) fun _ => pure 0) :=
  thins_frame.onError (freeSpaceByThinning_thins k now) fun _ => thins_frame.pure 0

/-- A second try ends like the first one, or comes after room was made. -/
theorem retry_run (k : Target) (now : Int) (x : Act α) (r : Run) : retryWithRoom k now x r = x r ∨
    ∃ r₁ r₂, x r = .error .full r₁ ∧ stateOf (onError (freeSpaceByThinning k now) (fun _ => pure 0) r₁) = r₂ ∧
      ((∃ e, retryWithRoom k now x r = .error e r₂) ∨
        ∃ outcome, retryWithRoom k now x r = x { r₂ with outcome := outcome }) := by
  rw [retryWithRoom, onError]
  cases hx : x r with
  | ok a r₁ => exact .inl rfl
  | error e r₁ =>
    cases e with
    | crash | notFound | io => exact .inl rfl
    | full =>
      refine .inr ⟨r₁, _, rfl, rfl, ?_⟩
      cases hroom : onError (freeSpaceByThinning k now) (fun _ => pure 0) r₁ with
      | error e r₂ => exact .inl ⟨e, run_of_error hroom⟩
      | ok freed r₂ =>
        by_cases hfreed : freed = 0
        · refine .inl ⟨.full, (run_of_ok hroom).trans ?_⟩
          rw [if_pos hfreed]
          rfl
        · let noted := if roomNote k ∈ r₂.outcome.notes then r₂.outcome else
            { r₂.outcome with notes := r₂.outcome.notes ++ [roomNote k] }
          refine .inr ⟨noted, (run_of_ok hroom).trans ?_⟩
          rw [if_neg hfreed]
          rfl

theorem retry_attempt (hx : ∀ r, Safe now p moves r → Attempt k now p r (x r)) (hsafe : Safe now p moves r) :
    Attempt k now p r (retryWithRoom k now x r) := by
  have hfirst := hx r hsafe
  rcases retry_run k now x r with hrun | ⟨r₁, r₂, hfull, hroom, hrun⟩
  · rw [hrun]
    exact hfirst
  have hthins : Thins r₁ r₂ := hroom ▸ makeRoom_thins k now r₁
  have hsafe₁ := hsafe.again (hfirst.again .full r₁ hfull)
  rcases hrun with ⟨e, hrun⟩ | ⟨outcome, hrun⟩
  · rw [hrun]
    exact hfirst.then_thins hfull hthins (Thins.attempt (thins_frame.refl r₂))
  · have hcount : Thins r₁ { r₂ with outcome := outcome } :=
      thins_frame.trans _ _ _ hthins (thins_frame.blind r₂ outcome r₂.outcomes)
    rw [hrun]
    exact hfirst.then_thins hfull hcount (hx _ (hsafe₁.again hcount.again))

/-- What holds whenever the step goes through. -/
theorem retry_ok {Q : α → Run → Prop} (hx : ∀ r a r', x r = .ok a r' → Q a r') {a : α}
    (h : retryWithRoom k now x r = .ok a r') : Q a r' := by
  rcases retry_run k now x r with hrun | ⟨r₁, r₂, -, -, ⟨e, hrun⟩ | ⟨outcome, hrun⟩⟩
  · exact hx r a r' (hrun.symm.trans h)
  · rw [hrun] at h
    cases h
  · exact hx _ a r' (hrun.symm.trans h)

end Retry

end LibreServ.DriveBackup
