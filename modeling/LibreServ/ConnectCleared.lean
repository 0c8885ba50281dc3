import LibreServ.ConnectGrace

/-! Every object at Connect is named by a row or by a reminder, so that nothing outlives its deletion. While calls are
under way an object may also be that of an upload which has not committed; a reminder does not count once an upload of
the same path has committed and is about to drop it. -/

namespace LibreServ.Connect

open List Table State Option
open Files (Text)

variable {B : Type} {key : Text × BlobPath} {backend : Backend} {purged : Option Text}

/-- Neither an upload that has stored its object nor one that has committed. -/
def Op.Plain : Op B → Prop
  | .put _ (some _) => False
  | .putDone _ _ => False
  | _ => True

namespace State

/-! ### Who names an object -/

/-- A live row says the object is in this backend. -/
def RowNames (s : State B) (backend : Backend) (key : Text × BlobPath) : Prop :=
  ∃ row, s.db.stored.get? key = some row ∧ row.backend = backend

/-- A reminder says the object is in this backend. -/
def ReminderNames (s : State B) (backend : Backend) (key : Text × BlobPath) : Prop :=
  ∃ p, s.db.pending.get? key = some p ∧ p.backend = backend

/-- An upload put the object into this backend and has not committed. -/
def UploadNames (s : State B) (backend : Backend) (key : Text × BlobPath) : Prop :=
  ∃ o call, s.ops.get? o = some (.put call (some backend)) ∧ (call.luna, call.path) = key

/-- An upload of the path has committed and is about to drop its reminder. -/
def Finishing (s : State B) (key : Text × BlobPath) : Prop := ∃ o, s.ops.get? o = some (.putDone key.1 key.2)

def Holds (s : State B) (backend : Backend) (key : Text × BlobPath) : Prop :=
  ∃ body, s.objects.get? (backend, key.1, key.2) = some body

def Named (s : State B) (backend : Backend) (key : Text × BlobPath) : Prop :=
  s.RowNames backend key ∨ s.UploadNames backend key ∨ s.ReminderNames backend key ∧ ¬ s.Finishing key

/-- What a pass has removed is gone, and a purge still has every object before it. -/
def Gone (s : State B) : Op B → Prop
  | .pass _ (some (item, true)) => ¬ s.Holds item.backend (item.luna, item.path)
  | .purge purged rest _ => ∀ backend key, s.Holds backend key → covers purged key.1 = true →
      (⟨key.1, key.2, backend⟩ : Item) ∈ rest
  | _ => True

structure Accounted (s : State B) : Prop where
  locks : s.Locks
  numbered : s.Numbered
  objects : ∀ backend key, s.Holds backend key → s.Named backend key
  /-- A path with a row and a reminder has an upload that is about to drop the reminder. -/
  twice : ∀ key row p, s.db.stored.get? key = some row → s.db.pending.get? key = some p → s.Finishing key
  ops : ∀ o op, s.ops.get? o = some op → s.Gone op

/-! ### When a step keeps it -/

/-- No store call fails and the server does not stop. -/
def Calm : Action B → Prop
  | .storePut _ goes => goes = true
  | .passRemove _ goes => goes = true
  | .purgeRemove _ goes => goes = true
  | .crash => False
  | _ => True

/-- The call deletes a row. -/
def deletes (s : State B) (device luna : Text) (path : BlobPath) (sigOk : Bool) : Bool :=
  !s.excluded && (s.db.authorizeLuna device luna sigOk false).isSome && (s.db.stored.get? (luna, path)).isSome

/-- An upload goes to the store only while no other backend has an object of the path, but for the one its row names;
it commits only while no other backend has one; a path is not deleted while an upload of it is about to drop its
reminder; and a pass drops no reminder of an object in another backend than the one it removed. -/
def Orderly (s : State B) (env : Env) : Action B → Prop
  | .storePut o _ => ∀ call, s.ops.get? o = some (.put call none) → ∀ backend, backend ≠ env.preferredBackend →
      s.Holds backend (call.luna, call.path) → s.RowNames backend (call.luna, call.path)
  | .commitPut o => ∀ call backend, s.ops.get? o = some (.put call (some backend)) → ∀ other, other ≠ backend →
      ¬ s.Holds other (call.luna, call.path)
  | .delete device luna path sigOk => s.deletes device luna path sigOk = true → ¬ s.Finishing (luna, path)
  | .passForget o => ∀ rest item, s.ops.get? o = some (.pass rest (some (item, true))) →
      ∀ backend, s.ReminderNames backend (item.luna, item.path) → backend ≠ item.backend →
        ¬ s.Holds backend (item.luna, item.path)
  | _ => True

def OrderlyRun (hash : B → Text) (len : B → Nat) : List (Env × Action B) → State B → Prop
  | [], _ => True
  | (env, a) :: rest, s => s.Orderly env a ∧ OrderlyRun hash len rest (s.step hash len env a)

section Frame

variable {s s' : State B} {o : Nat} {op op' : Op B}

theorem Gone.of_not_exclusive (h : op.lock ≠ .exclusive) : s.Gone op := by
  cases op with
  | put call backend | putDone luna path => trivial
  | pass due current =>
    cases current with
    | none => trivial
    | some current => exact absurd rfl h
  | purge purged rest started => exact absurd rfl h

/-- Fewer objects. -/
theorem Gone.of_fewer (h : s.Gone op) (hfewer : ∀ backend key, s'.Holds backend key → s.Holds backend key) :
    s'.Gone op := by
  cases op with
  | put call backend | putDone luna path => trivial
  | pass due current =>
    cases current with
    | none => trivial
    | some current =>
      obtain ⟨item, gone⟩ := current
      cases gone with
      | false => trivial
      | true => exact fun hholds => h (hfewer _ _ hholds)
  | purge purged rest started => exact fun backend key hholds => h backend key (hfewer _ _ hholds)

/-- The uploads that have stored or committed are the same ones. -/
def SameUploads (s s' : State B) : Prop := ∀ o op, ¬ op.Plain → (s'.ops.get? o = some op ↔ s.ops.get? o = some op)

theorem SameUploads.of_ops (h : s'.ops = s.ops) : SameUploads s s' := by
  intro o op _
  rw [h]

theorem SameUploads.put (hplain : op'.Plain) (hold : ∀ op, s.ops.get? o = some op → op.Plain)
    (h : s'.ops = s.ops.put o op') : SameUploads s s' := by
  intro a opa hnot
  rw [h, get?_put]
  split
  · rename_i hao
    subst hao
    constructor
    · intro heq
      exact absurd (some.inj heq ▸ hplain) hnot
    · intro heq
      exact absurd (hold opa heq) hnot
  · rfl

theorem SameUploads.erase (hold : ∀ op, s.ops.get? o = some op → op.Plain) (h : s'.ops = s.ops.erase o) :
    SameUploads s s' := by
  intro a opa hnot
  rw [h, get?_erase]
  split
  · rename_i hao
    subst hao
    constructor
    · intro heq
      cases heq
    · intro heq
      exact absurd (hold opa heq) hnot
  · rfl

theorem SameUploads.uploadNames (h : SameUploads s s') :
    s'.UploadNames backend key ↔ s.UploadNames backend key := by
  constructor
  · rintro ⟨o, call, hop, hkey⟩
    exact ⟨o, call, (h o _ id).mp hop, hkey⟩
  · rintro ⟨o, call, hop, hkey⟩
    exact ⟨o, call, (h o _ id).mpr hop, hkey⟩

theorem SameUploads.finishing (h : SameUploads s s') : s'.Finishing key ↔ s.Finishing key := by
  constructor
  · rintro ⟨o, hop⟩
    exact ⟨o, (h o _ id).mp hop⟩
  · rintro ⟨o, hop⟩
    exact ⟨o, (h o _ id).mpr hop⟩

variable (h : s.Accounted)

include h

/-- A step that leaves the uploads and the rows alone, and takes away no reminder of an object that is left. -/
theorem Accounted.frame (hlocks : s'.Locks) (hnumbered : s'.Numbered) (hsame : SameUploads s s')
    (hfewer : ∀ backend key, s'.Holds backend key → s.Holds backend key) (hstored : s'.db.stored = s.db.stored)
    (hpending : ∀ key p, s'.db.pending.get? key = some p → s.db.pending.get? key = some p)
    (hkept : ∀ backend key, s'.Holds backend key → s.ReminderNames backend key → ¬ s.Finishing key →
      s'.RowNames backend key ∨ s'.ReminderNames backend key)
    (hops : ∀ o op, s'.ops.get? o = some op → s.ops.get? o = some op ∨ s'.Gone op) : s'.Accounted where
  locks := hlocks
  numbered := hnumbered
  objects := by
    intro backend key hholds
    rcases h.objects backend key (hfewer _ _ hholds) with ⟨row, hrow, hb⟩ | hupload | ⟨hreminder, hnot⟩
    · exact .inl ⟨row, hstored ▸ hrow, hb⟩
    · exact .inr (.inl (hsame.uploadNames.mpr hupload))
    · rcases hkept backend key hholds hreminder hnot with hrow | hkept
      · exact .inl hrow
      · exact .inr (.inr ⟨hkept, fun hf => hnot (hsame.finishing.mp hf)⟩)
  twice := by
    intro key row p hrow hp
    rw [hstored] at hrow
    exact hsame.finishing.mpr (h.twice key row p hrow (hpending key p hp))
  ops := by
    intro o op hop
    rcases hops o op hop with hold | hgone
    · exact (h.ops o op hold).of_fewer hfewer
    · exact hgone

/-- Only the Lunas' rows change. -/
theorem Accounted.of_same (hstored : s'.db.stored = s.db.stored) (hpending : s'.db.pending = s.db.pending)
    (hobjects : s'.objects = s.objects) (hops : s'.ops = s.ops) (hnext : s'.nextOp = s.nextOp) : s'.Accounted := by
  have hholds : ∀ backend key, s'.Holds backend key → s.Holds backend key := by
    rintro backend key ⟨body, hbody⟩
    exact ⟨body, hobjects ▸ hbody⟩
  apply h.frame _ _ (SameUploads.of_ops hops) hholds hstored
  · intro key p hp
    exact hpending ▸ hp
  · rintro backend key - ⟨p, hp, hb⟩ -
    exact .inr ⟨p, hpending.symm ▸ hp, hb⟩
  · intro o op hop
    exact .inl (hops ▸ hop)
  · intro o op hop hlock o' op' hop' hne
    rw [hops] at hop hop'
    exact h.locks o op hop hlock o' op' hop' hne
  · intro o op hop
    rw [hops] at hop
    rw [hnext]
    exact h.numbered o op hop

theorem Accounted.addPlain (hlocks : (s.addOp op).Locks) (hplain : op.Plain)
    (hgone : (s.addOp op).Gone op) : (s.addOp op).Accounted := by
  have hfresh : ∀ op, s.ops.get? s.nextOp = some op → op.Plain :=
    fun op hop => absurd (h.numbered s.nextOp op hop) (Nat.lt_irrefl _)
  apply h.frame hlocks (h.numbered.addOp op) (SameUploads.put hplain hfresh rfl)
  · exact fun _ _ hholds => hholds
  · rfl
  · exact fun _ _ hp => hp
  · exact fun _ _ _ hreminder _ => .inr hreminder
  · intro a opa ha
    rcases get?_put_some.mp ha with ⟨-, rfl⟩ | ⟨-, ha'⟩
    · exact .inr hgone
    · exact .inl ha'

/-- A pass or a purge takes a step: objects and reminders may go. -/
theorem Accounted.goOn (hop : s.ops.get? o = some op) (hplain : op.Plain)
    (hops : s'.ops = s.ops.put o op') (hnext : s'.nextOp = s.nextOp) (hlocks : s'.Locks)
    (hfewer : ∀ backend key, s'.Holds backend key → s.Holds backend key) (hstored : s'.db.stored = s.db.stored)
    (hpending : ∀ key p, s'.db.pending.get? key = some p → s.db.pending.get? key = some p)
    (hkept : ∀ backend key, s'.Holds backend key → s.ReminderNames backend key → ¬ s.Finishing key →
      s'.RowNames backend key ∨ s'.ReminderNames backend key) (hplain' : op'.Plain)
    (hgone : s'.Gone op') : s'.Accounted := by
  have hold : ∀ op, s.ops.get? o = some op → op.Plain := fun _ hop' => some.inj (hop.symm.trans hop') ▸ hplain
  have hnumbered : s'.Numbered := by
    intro a opa ha
    have hput : Numbered { s with ops := s.ops.put o op' } := h.numbered.put hop
    rw [hops] at ha
    rw [hnext]
    exact hput a opa ha
  apply h.frame hlocks hnumbered (SameUploads.put hplain' hold hops) hfewer hstored hpending hkept
  intro a opa ha
  rw [hops] at ha
  rcases get?_put_some.mp ha with ⟨-, rfl⟩ | ⟨-, ha⟩
  · exact .inr hgone
  · exact .inl ha

end Frame

/-! ### Uploads, deletions and links -/

section Steps

variable {s : State B} {hash : B → Text} {len : B → Nat} {env : Env}

theorem Accounted.applyLink (h : s.Accounted) (luna : Text) (link : Link) :
    (s.setDb (s.db.applyLink luna link)).Accounted :=
  h.of_same (applyLink_stored _ _ _) (applyLink_pending _ _ _) rfl rfl rfl

theorem Accounted.beginPut (h : s.Accounted) (device luna : Text) (path : BlobPath) (body : B) (sigOk : Bool) :
    (s.beginPut hash len env device luna path body sigOk).Accounted := by
  unfold State.beginPut
  by_cases hex : s.excluded = true
  · rw [if_pos hex]
    exact h
  rw [if_neg hex]
  have hquiet := quiet_of_not_excluded hex
  cases s.db.authorizeLuna device luna sigOk true with
  | none => exact h
  | some link =>
    have hadd : (if s.accepts hash len env luna path body then
        s.addOp (.put ⟨luna, path, body, link⟩ none) else s).Accounted := by
      split
      · have hlocks : (s.addOp (.put ⟨luna, path, body, link⟩ none)).Locks :=
          h.locks.addOp fun b opb hb => .inr ⟨(fun hlock => nomatch hlock), hquiet b opb hb⟩
        exact h.addPlain hlocks trivial trivial
      · exact h
    dsimp only
    split
    · exact h
    · split
      · exact h.applyLink luna link
      · exact hadd

theorem Accounted.relink (h : s.Accounted) (device luna : Text) (sigOk : Bool) :
    (s.relink device luna sigOk).Accounted := by
  unfold State.relink
  split
  · exact h
  · split
    · exact h
    · exact h.applyLink luna _

/-- After the upload only the preferred backend has an object of the path. -/
theorem holds_putObject {call : PutCall B} {s' : State B}
    (hobjects : s'.objects = s.putObject env call.luna call.path call.body)
    (horderly : ∀ backend, backend ≠ env.preferredBackend → s.Holds backend (call.luna, call.path) →
      s.RowNames backend (call.luna, call.path))
    (hholds : s'.Holds backend key) :
    key = (call.luna, call.path) ∧ backend = env.preferredBackend ∨ key ≠ (call.luna, call.path) ∧ s.Holds backend key := by
  obtain ⟨body, hbody⟩ := hholds
  rw [hobjects] at hbody
  by_cases hkey : key = (call.luna, call.path)
  · left
    refine ⟨hkey, ?_⟩
    subst hkey
    by_contra hne
    have hne' : (backend, call.luna, call.path) ≠ (env.preferredBackend, call.luna, call.path) :=
      fun heq => hne (congrArg Prod.fst heq)
    -- the object was there before, so the row names it and the upload removed it
    have hold : s.Holds backend (call.luna, call.path) := by
      refine ⟨body, ?_⟩
      simp only [putObject] at hbody
      split at hbody
      · split at hbody
        · obtain ⟨-, hbody⟩ := get?_erase_some.mp hbody
          rwa [get?_put_of_ne _ _ hne'] at hbody
        · rwa [get?_put_of_ne _ _ hne'] at hbody
      · rwa [get?_put_of_ne _ _ hne'] at hbody
    obtain ⟨row, hrow, hb⟩ := horderly backend hne hold
    simp only [putObject, hrow] at hbody
    rw [if_pos (hb ▸ hne), get?_erase, if_pos (by rw [hb])] at hbody
    cases hbody
  · right
    exact ⟨hkey, body, (get?_putObject_of_ne env call.body backend hkey).symm.trans hbody⟩

section

variable (h : s.Accounted)

include h

theorem Accounted.storePut (o : Nat) (horderly : s.Orderly env (.storePut o true)) :
    (s.storePut env o true).Accounted := by
  unfold State.storePut
  split
  · rename_i call hop
    have hquiet : s.Quiet := h.locks.quiet_of_shared hop rfl
    set s' := State.setOp _ o (.put call (some env.preferredBackend)) with hs'
    have hget : ∀ a opa, s'.ops.get? a = some opa → a = o ∧ opa = .put call (some env.preferredBackend) ∨
        s.ops.get? a = some opa := by
      intro a opa ha
      have ha' : (s.ops.put o (.put call (some env.preferredBackend))).get? a = some opa := ha
      rw [get?_put] at ha'
      split at ha'
      · rename_i hao
        exact .inl ⟨hao, (some.inj ha').symm⟩
      · exact .inr ha'
    have hself : s'.ops.get? o = some (.put call (some env.preferredBackend)) := get?_put_self _ _ _
    have hquiet' : s'.Quiet := Quiet.put hquiet (fun hlock => by cases hlock) o
    have hfinishing : ∀ key, s'.Finishing key ↔ s.Finishing key := by
      intro key
      constructor
      · rintro ⟨a, ha⟩
        rcases hget a _ ha with ⟨-, heq⟩ | hold
        · cases heq
        · exact ⟨a, hold⟩
      · rintro ⟨a, ha⟩
        have hne : a ≠ o := by
          rintro rfl
          rw [hop] at ha
          cases ha
        exact ⟨a, (get?_put_of_ne _ _ hne).trans ha⟩
    refine ⟨hquiet'.locks, Numbered.put h.numbered hop, ?_, ?_, ?_⟩
    · intro backend key hholds
      rcases holds_putObject rfl (horderly call hop) hholds with ⟨rfl, rfl⟩ | ⟨hne, hold⟩
      · exact .inr (.inl ⟨o, call, hself, rfl⟩)
      rcases h.objects backend key hold with hrow | ⟨a, call', ha, hkey⟩ | ⟨hreminder, hnot⟩
      · exact .inl hrow
      · have hao : a ≠ o := by
          rintro rfl
          rw [hop] at ha
          cases ha
        exact .inr (.inl ⟨a, call', (get?_put_of_ne _ _ hao).trans ha, hkey⟩)
      · exact .inr (.inr ⟨hreminder, fun hf => hnot ((hfinishing key).mp hf)⟩)
    · intro key row p hrow hp
      exact (hfinishing key).mpr (h.twice key row p hrow hp)
    · intro a opa ha
      exact Gone.of_not_exclusive (hquiet' a opa ha)
  · exact h

theorem Accounted.commitPut (o : Nat) (horderly : s.Orderly env (.commitPut o)) :
    (s.commitPut len o).Accounted := by
  unfold State.commitPut
  split
  · rename_i call backend hop
    have hquiet : s.Quiet := h.locks.quiet_of_shared hop rfl
    set db := (s.db.applyLink call.luna call.link).recordBlob call.luna call.path (len call.body) backend with hdb
    set s' := (s.setDb db).setOp o (.putDone call.luna call.path) with hs'
    have hquiet' : s'.Quiet := Quiet.put hquiet (fun hlock => by cases hlock) o
    have hself : s'.ops.get? o = some (.putDone call.luna call.path) := get?_put_self _ _ _
    have hother : ∀ a opa, a ≠ o → s.ops.get? a = some opa → s'.ops.get? a = some opa :=
      fun a opa hne ha => (get?_put_of_ne _ _ hne).trans ha
    have hpending : db.pending = s.db.pending := by
      exact applyLink_pending _ _ _
    have hnew : ∃ row, db.stored.get? (call.luna, call.path) = some row ∧ row.backend = backend := by
      rw [hdb]
      refine ⟨_, get?_put_self _ _ _, ?_⟩
      split <;> rfl
    have hfinishing : ∀ key, s.Finishing key → s'.Finishing key := by
      rintro key ⟨a, ha⟩
      have hne : a ≠ o := by
        rintro rfl
        rw [hop] at ha
        cases ha
      exact ⟨a, hother a _ hne ha⟩
    refine ⟨hquiet'.locks, Numbered.put h.numbered hop, ?_, ?_, ?_⟩
    · intro b key hholds
      have hold : s.Holds b key := hholds
      by_cases hkey : key = (call.luna, call.path)
      · subst hkey
        have hb : b = backend := by
          by_contra hne
          exact horderly call backend hop b hne hold
        subst hb
        exact .inl hnew
      · rcases h.objects b key hold with ⟨row, hrow, hb⟩ | ⟨a, call', ha, hk⟩ | ⟨⟨p, hp, hb⟩, hnot⟩
        · left
          refine ⟨row, ?_, hb⟩
          show db.stored.get? key = some row
          rw [get?_recordBlob_of_ne _ _ _ hkey, applyLink_stored]
          exact hrow
        · have hne : a ≠ o := by
            rintro rfl
            rw [hop] at ha
            cases ha
            exact hkey hk.symm
          exact .inr (.inl ⟨a, call', hother a _ hne ha, hk⟩)
        · refine .inr (.inr ⟨⟨p, ?_, hb⟩, ?_⟩)
          · show db.pending.get? key = some p
            rw [hpending]
            exact hp
          · rintro ⟨a, ha⟩
            have ha' : (s.ops.put o (.putDone call.luna call.path)).get? a = some (.putDone key.1 key.2) := ha
            rw [get?_put] at ha'
            split at ha'
            · injection ha' with hdone
              injection hdone with hluna hpath
              exact hkey (Prod.ext hluna.symm hpath.symm)
            · exact hnot ⟨a, ha'⟩
    · intro key row p hrow hp
      have hrow' : db.stored.get? key = some row := hrow
      have hp' : db.pending.get? key = some p := hp
      by_cases hkey : key = (call.luna, call.path)
      · subst hkey
        exact ⟨o, hself⟩
      · rw [get?_recordBlob_of_ne _ _ _ hkey, applyLink_stored] at hrow'
        rw [hpending] at hp'
        exact hfinishing key (h.twice key row p hrow' hp')
    · intro a opa ha
      exact Gone.of_not_exclusive (hquiet' a opa ha)
  · exact h

theorem Accounted.cancelRemoval (o : Nat) : (s.cancelRemoval o).Accounted := by
  unfold State.cancelRemoval
  split
  · rename_i luna path hop
    set s' := (s.setDb (s.db.forget luna path)).endOp o with hs'
    have hold : ∀ a opa, s'.ops.get? a = some opa → s.ops.get? a = some opa := by
      intro a opa ha
      exact (get?_erase_some.mp ha).2
    have hother : ∀ a opa, a ≠ o → s.ops.get? a = some opa → s'.ops.get? a = some opa := by
      intro a opa hne ha
      show (s.ops.erase o).get? a = some opa
      rw [get?_erase, if_neg hne]
      exact ha
    have hpending : ∀ key, s'.db.pending.get? key = if key = (luna, path) then none else s.db.pending.get? key :=
      fun key => get?_erase _ _ _
    have hdone : s.Finishing (luna, path) := ⟨o, hop⟩
    refine ⟨h.locks.erase o, h.numbered.erase o, ?_, ?_, ?_⟩
    · intro backend key hholds
      rcases h.objects backend key hholds with hrow | ⟨a, call, ha, hk⟩ | ⟨⟨p, hp, hb⟩, hnot⟩
      · exact .inl hrow
      · have hne : a ≠ o := by
          rintro rfl
          rw [hop] at ha
          cases ha
        exact .inr (.inl ⟨a, call, hother a _ hne ha, hk⟩)
      · have hkey : key ≠ (luna, path) := by
          rintro rfl
          exact hnot hdone
        refine .inr (.inr ⟨⟨p, ?_, hb⟩, ?_⟩)
        · rw [hpending, if_neg hkey]
          exact hp
        · rintro ⟨a, ha⟩
          exact hnot ⟨a, hold a _ ha⟩
    · intro key row p hrow hp
      rw [hpending] at hp
      split at hp
      · cases hp
      rename_i hkey
      obtain ⟨a, ha⟩ := h.twice key row p hrow hp
      have hne : a ≠ o := by
        rintro rfl
        rw [hop] at ha
        cases ha
        exact hkey rfl
      exact ⟨a, hother a _ hne ha⟩
    · intro a opa ha
      exact (h.ops a opa (hold a opa ha)).of_fewer fun _ _ hholds => hholds
  · exact h

theorem Accounted.delete (device luna : Text) (path : BlobPath) (sigOk : Bool)
    (horderly : s.Orderly env (.delete device luna path sigOk)) : (s.delete env device luna path sigOk).Accounted := by
  unfold State.delete
  by_cases hex : s.excluded = true
  · rw [if_pos hex]
    exact h
  rw [if_neg hex]
  have hquiet := quiet_of_not_excluded hex
  cases hauth : s.db.authorizeLuna device luna sigOk false with
  | none => exact h
  | some link =>
    dsimp only
    cases hrow : (s.db.applyLink luna link).stored.get? (luna, path) with
    | none => exact h.applyLink luna link
    | some row =>
      rw [applyLink_stored] at hrow
      have hnot : ¬ s.Finishing (luna, path) := by
        apply horderly
        simp [deletes, hex, hauth, hrow]
      have hnone : s.db.pending.get? (luna, path) = none := by
        cases hp : s.db.pending.get? (luna, path) with
        | none => rfl
        | some p => exact absurd (h.twice _ row p hrow hp) hnot
      set db := { s.db.applyLink luna link with
        stored := (s.db.applyLink luna link).stored.erase (luna, path) }.removeStored env.now row.backend luna path
        with hdb
      have hstored : ∀ key, db.stored.get? key = if key = (luna, path) then none else s.db.stored.get? key := by
        intro key
        rw [removeStored_stored, get?_erase, applyLink_stored]
      have hpending : ∀ key, db.pending.get? key =
          if key = (luna, path) then some ⟨row.backend, env.now + deleteGraceSeconds⟩ else s.db.pending.get? key := by
        intro key
        rw [hdb]
        unfold Db.removeStored
        simp only [applyLink_pending, hnone, if_true, get?_put]
      refine ⟨h.locks, h.numbered, ?_, ?_, ?_⟩
      · intro backend key hholds
        rcases h.objects backend key hholds with ⟨row', hrow', hb⟩ | hupload | ⟨⟨p, hp, hb⟩, hfree⟩
        · by_cases hkey : key = (luna, path)
          · subst hkey
            obtain rfl := some.inj (hrow.symm.trans hrow')
            refine .inr (.inr ⟨⟨_, (hpending _).trans (if_pos rfl), hb⟩, hnot⟩)
          · exact .inl ⟨row', ((hstored key).trans (if_neg hkey)).trans hrow', hb⟩
        · exact .inr (.inl hupload)
        · have hkey : key ≠ (luna, path) := by
            rintro rfl
            rw [hnone] at hp
            cases hp
          exact .inr (.inr ⟨⟨p, ((hpending key).trans (if_neg hkey)).trans hp, hb⟩, hfree⟩)
      · intro key row' p hrow' hp
        have hrow'' : db.stored.get? key = some row' := hrow'
        have hp' : db.pending.get? key = some p := hp
        rw [hstored] at hrow''
        split at hrow''
        · cases hrow''
        · rename_i hkey
          rw [hpending, if_neg hkey] at hp'
          exact h.twice key row' p hrow'' hp'
      · intro o op hop
        exact Gone.of_not_exclusive (hquiet o op hop)

end

/-! ### Passes -/

theorem Accounted.passBegin (h : s.Accounted) : (s.passBegin env).Accounted := by
  have hput : Locks { s with ops := s.ops.put s.nextOp (.pass (s.due env.now) none) } := h.locks.put_of_none rfl
  have hlocks : (s.addOp (.pass (s.due env.now) none)).Locks := hput
  exact h.addPlain hlocks trivial trivial

/-- A pass drops the reminder of its item, whose object is gone or about to be a row's. -/
theorem Accounted.forgets (h : s.Accounted) {o : Nat} {op : Op B} {item : Item} {rest : List Item}
    (hop : s.ops.get? o = some op) (hplain : op.Plain)
    (hgone : ∀ backend, s.Holds backend (item.luna, item.path) → s.ReminderNames backend (item.luna, item.path) →
      s.Finishing (item.luna, item.path)) :
    ((s.setDb (s.db.forget item.luna item.path)).setOp o (.pass rest none)).Accounted := by
  have hput : Locks { s with ops := s.ops.put o (.pass rest none) } := h.locks.put_of_none rfl
  refine h.goOn hop hplain rfl rfl hput (fun _ _ hholds => hholds) rfl
    (fun key p hp => (get?_erase_some.mp hp).2) ?_ trivial trivial
  rintro backend key hholds ⟨p, hp, hb⟩ hnot
  have hkey : key ≠ (item.luna, item.path) := by
    rintro rfl
    exact hnot (hgone backend hholds ⟨p, hp, hb⟩)
  exact .inr ⟨p, get?_erase_some.mpr ⟨hkey, hp⟩, hb⟩

theorem Accounted.passLock (h : s.Accounted) (o : Nat) : (s.passLock o).Accounted := by
  unfold State.passLock
  split
  · rename_i hop
    have hold : ∀ op, s.ops.get? o = some op → op.Plain := by
      intro op hop'
      obtain rfl := some.inj (hop.symm.trans hop')
      trivial
    apply h.frame (h.locks.erase o) (h.numbered.erase o) (SameUploads.erase hold rfl)
    · exact fun _ _ hholds => hholds
    · rfl
    · exact fun _ _ hp => hp
    · exact fun _ _ _ hreminder _ => .inr hreminder
    · intro a opa ha
      obtain ⟨-, ha'⟩ := get?_erase_some.mp ha
      exact .inl ha'
  · rename_i item rest hop
    by_cases hlocked : s.locked = true
    · rw [if_pos hlocked]
      exact h
    rw [if_neg hlocked]
    cases hrow : s.db.stored.get? (item.luna, item.path) with
    | some row =>
      -- a path with a row has its reminder dropped, but then an upload is about to drop it anyway
      exact h.forgets hop trivial fun _ _ ⟨p, hp, _⟩ => h.twice _ row p hrow hp
    | none =>
      have hput : Locks { s with ops := s.ops.put o (.pass rest (some (item, false))) } :=
        h.locks.put_of_free fun b opb hb _ => .inl (not_locked hlocked hb)
      exact h.goOn hop trivial rfl rfl hput (fun _ _ hholds => hholds) rfl (fun _ _ hp => hp)
        (fun _ _ _ hreminder _ => .inr hreminder) trivial trivial
  · exact h

theorem holds_erase {s' : State B} {item : Item}
    (hobjects : s'.objects = s.objects.erase (item.backend, item.luna, item.path))
    (hholds : s'.Holds backend key) :
    s.Holds backend key ∧ ¬ (backend = item.backend ∧ key = (item.luna, item.path)) := by
  obtain ⟨body, hbody⟩ := hholds
  rw [hobjects] at hbody
  obtain ⟨hne, hbody⟩ := get?_erase_some.mp hbody
  refine ⟨⟨body, hbody⟩, ?_⟩
  rintro ⟨rfl, rfl⟩
  exact hne rfl

theorem Accounted.passRemove (h : s.Accounted) (o : Nat) : (s.passRemove env o true).Accounted := by
  unfold State.passRemove
  split
  · rename_i rest item hop
    have hput : Locks { s with ops := s.ops.put o (.pass rest (some (item, true))) } :=
      h.locks.put_of_weaker hop (fun _ => rfl) fun hnone => nomatch hnone
    refine h.goOn hop trivial rfl rfl hput ?_ rfl (fun _ _ hp => hp) (fun _ _ _ hreminder _ => .inr hreminder) trivial ?_
    · exact fun _ _ hholds => (holds_erase rfl hholds).1
    · exact fun hholds => (holds_erase rfl hholds).2 ⟨rfl, rfl⟩
  · exact h

theorem Accounted.passForget (h : s.Accounted) (o : Nat) (horderly : s.Orderly env (.passForget o)) :
    (s.passForget o).Accounted := by
  unfold State.passForget
  split
  · rename_i rest item hop
    have hgone : ¬ s.Holds item.backend (item.luna, item.path) := h.ops o _ hop
    refine h.forgets hop trivial fun backend hholds hreminder => ?_
    by_cases hbackend : backend = item.backend
    · exact absurd (hbackend ▸ hholds) hgone
    · exact absurd hholds (horderly rest item hop backend hreminder hbackend)
  · exact h

/-! ### Purges -/

theorem mem_blobs_of_row {row : BlobRow}
    (hrow : s.db.stored.get? key = some row) (hcovers : covers purged key.1 = true) :
    (⟨key.1, key.2, row.backend⟩ : Item) ∈ s.blobs purged := by
  obtain ⟨luna, path⟩ := key
  have hmem : ((luna, path), row) ∈ s.db.stored.select fun k _ => covers purged k.1 := mem_select.mpr ⟨hrow, hcovers⟩
  unfold blobs
  simp only [mem_append, List.mem_map]
  cases path with
  | pack id => exact .inl (.inl ⟨_, mem_filter.mpr ⟨hmem, rfl⟩, rfl⟩)
  | record kind name => exact .inr ⟨_, mem_filter.mpr ⟨hmem, rfl⟩, rfl⟩

theorem mem_blobs_of_reminder {p : Pending}
    (hp : s.db.pending.get? key = some p) (hcovers : covers purged key.1 = true) :
    (⟨key.1, key.2, p.backend⟩ : Item) ∈ s.blobs purged := by
  obtain ⟨luna, path⟩ := key
  have hmem : ((luna, path), p) ∈ s.db.pending.select fun k _ => covers purged k.1 := mem_select.mpr ⟨hp, hcovers⟩
  unfold blobs
  simp only [mem_append, List.mem_map]
  exact .inl (.inr ⟨_, hmem, rfl⟩)

section

variable (h : s.Accounted)

include h

theorem Accounted.purgeBegin (purged : Option Text) : (s.purgeBegin env purged).Accounted := by
  unfold State.purgeBegin
  by_cases hlocked : s.locked = true
  · rw [if_pos hlocked]
    exact h
  rw [if_neg hlocked]
  split
  · have hlocks : (s.addOp (.purge purged (s.blobs purged) false)).Locks :=
      h.locks.addOp fun b opb hb => .inl (not_locked hlocked hb)
    apply h.addPlain hlocks trivial
    intro backend key hholds hcovers
    have hold : s.Holds backend key := hholds
    rcases h.objects backend key hold with ⟨row, hrow, rfl⟩ | ⟨a, call, ha, hk⟩ | ⟨⟨p, hp, rfl⟩, -⟩
    · exact mem_blobs_of_row hrow hcovers
    · -- uploads hold the lock
      have hnone := not_locked hlocked ha
      cases hnone
    · exact mem_blobs_of_reminder hp hcovers
  · exact h

theorem Accounted.purgeRemove (o : Nat) : (s.purgeRemove o true).Accounted := by
  unfold State.purgeRemove
  split
  · rename_i purged item rest started hop
    have hall := h.ops o _ hop
    have hput : Locks { s with ops := s.ops.put o (.purge purged rest true) } :=
      h.locks.put_of_weaker hop (fun _ => rfl) fun hnone => nomatch hnone
    refine h.goOn hop trivial rfl rfl hput ?_ rfl (fun _ _ hp => hp) (fun _ _ _ hreminder _ => .inr hreminder) trivial ?_
    · exact fun _ _ hholds => (holds_erase rfl hholds).1
    · intro backend key hholds hcovers
      obtain ⟨hold, hne⟩ := holds_erase rfl hholds
      rcases mem_cons.mp (hall backend key hold hcovers) with heq | hrest
      · exfalso
        apply hne
        rw [← heq]
        exact ⟨rfl, rfl⟩
      · exact hrest
  · exact h

/-- When a purge commits, no object of what it purged is left. -/
theorem Accounted.purged_gone {o : Nat} {started : Bool} (hop : s.ops.get? o = some (.purge purged [] started))
    (hcovers : covers purged key.1 = true) : ¬ s.Holds backend key := by
  intro hholds
  have hmem := h.ops o _ hop backend key hholds hcovers
  cases hmem

theorem Accounted.purgeCommit (o : Nat) : (s.purgeCommit o).Accounted := by
  unfold State.purgeCommit
  split
  · rename_i purged started hop
    have hold : ∀ op, s.ops.get? o = some op → op.Plain := by
      intro op hop'
      obtain rfl := some.inj (hop.symm.trans hop')
      trivial
    set s' := State.endOp _ o with hs'
    have hsame : SameUploads s s' := SameUploads.erase hold rfl
    have hstored : ∀ key, s'.db.stored.get? key = (s.db.stored.get? key).filter fun _ => !covers purged key.1 :=
      fun key => Table.get?_keep _ _ _
    have hpending : ∀ key, s'.db.pending.get? key = (s.db.pending.get? key).filter fun _ => !covers purged key.1 :=
      fun key => Table.get?_keep _ _ _
    refine ⟨h.locks.erase o, h.numbered.erase o, ?_, ?_, ?_⟩
    · intro backend key hholds
      have hnot : covers purged key.1 = false := by
        cases hcovers : covers purged key.1 with
        | false => rfl
        | true => exact absurd hholds (h.purged_gone hop hcovers)
      rcases h.objects backend key hholds with ⟨row, hrow, hb⟩ | hupload | ⟨⟨p, hp, hb⟩, hfree⟩
      · exact .inl ⟨row, by rw [hstored, hrow, hnot]; rfl, hb⟩
      · exact .inr (.inl (hsame.uploadNames.mpr hupload))
      · refine .inr (.inr ⟨⟨p, by rw [hpending, hp, hnot]; rfl, hb⟩, fun hf => hfree (hsame.finishing.mp hf)⟩)
    · intro key row p hrow hp
      rw [hstored] at hrow
      rw [hpending] at hp
      exact hsame.finishing.mpr
        (h.twice key row p (filter_eq_some_iff.mp hrow).1 (filter_eq_some_iff.mp hp).1)
    · intro a opa ha
      obtain ⟨-, ha'⟩ := get?_erase_some.mp ha
      exact (h.ops a opa ha').of_fewer fun _ _ hholds => hholds
  · exact h

end

/-! ### Runs -/

theorem Accounted.step (h : s.Accounted) {a : Action B} (hcalm : Calm a) (horderly : s.Orderly env a) :
    (s.step hash len env a).Accounted := by
  have hact : (s.act hash len env a).Accounted := by
    cases a with
    | put device luna path body sigOk => exact h.beginPut device luna path body sigOk
    | storePut o goes =>
      have hgoes : goes = true := hcalm
      subst hgoes
      exact h.storePut o horderly
    | commitPut o => exact h.commitPut o horderly
    | cancelRemoval o => exact h.cancelRemoval o
    | delete device luna path sigOk => exact h.delete device luna path sigOk horderly
    | relink device luna sigOk => exact h.relink device luna sigOk
    | unbindDevice device => exact h.of_same rfl rfl rfl rfl rfl
    | passBegin => exact h.passBegin
    | passLock o => exact h.passLock o
    | passRemove o goes =>
      have hgoes : goes = true := hcalm
      subst hgoes
      exact h.passRemove o
    | passForget o => exact h.passForget o horderly
    | purgeBegin luna => exact h.purgeBegin luna
    | purgeRemove o goes =>
      have hgoes : goes = true := hcalm
      subst hgoes
      exact h.purgeRemove o
    | purgeCommit o => exact h.purgeCommit o
    | crash => exact absurd hcalm id
  exact hact.of_same rfl rfl rfl rfl rfl

theorem Accounted.empty : (empty : State B).Accounted where
  locks := fun _ _ hop => nomatch hop
  numbered := fun _ _ hop => nomatch hop
  objects := fun _ _ hholds => nomatch hholds
  twice := fun _ _ _ hrow => nomatch hrow
  ops := fun _ _ hop => nomatch hop

theorem Accounted.run {steps : List (Env × Action B)} (h : s.Accounted) (hcalm : ∀ step ∈ steps, Calm step.2)
    (horderly : OrderlyRun hash len steps s) : (run hash len steps s).Accounted := by
  induction steps generalizing s with
  | nil => exact h
  | cons head rest ih =>
    obtain ⟨env, a⟩ := head
    obtain ⟨ha, hrest⟩ := horderly
    obtain ⟨hcalm', hcalms⟩ := forall_mem_cons.mp hcalm
    exact ih (h.step hcalm' ha) hcalms hrest

end Steps

/-- No call is under way. -/
def Idle (s : State B) : Prop := ∀ o, s.ops.get? o = none

/-- Every object is named by a row or a reminder that says where it is, whenever no call is under way; and a purge of
the account that commits leaves no object. -/
structure Cleared (hash : B → Text) (len : B → Nat) (s : State B) : Prop where
  named : s.Idle → ∀ backend key, s.Holds backend key → s.RowNames backend key ∨ s.ReminderNames backend key
  purged : ∀ env o started, s.ops.get? o = some (.purge none [] started) →
    ∀ backend key, ¬ (s.step hash len env (.purgeCommit o)).Holds backend key

/-- In a run in which no store call fails and every step is orderly, nothing outlives its deletion. -/
theorem nothing_outlives_deletion (hash : B → Text) (len : B → Nat) (steps : List (Env × Action B))
    (hcalm : ∀ step ∈ steps, Calm step.2) (horderly : OrderlyRun hash len steps empty) :
    (run hash len steps empty).Cleared hash len := by
  have h : (run hash len steps empty).Accounted := Accounted.empty.run hcalm horderly
  constructor
  · intro hidle backend key hholds
    rcases h.objects backend key hholds with hrow | ⟨o, call, hop, -⟩ | ⟨hreminder, -⟩
    · exact .inl hrow
    · rw [hidle o] at hop
      cases hop
    · exact .inr hreminder
  · intro env o started hop backend key hholds
    have hsame : (run hash len steps empty).Holds backend key := by
      have hobjects : ((run hash len steps empty).purgeCommit o).objects = (run hash len steps empty).objects := by
        unfold purgeCommit
        split <;> rfl
      obtain ⟨body, hbody⟩ := hholds
      have hbody' : ((run hash len steps empty).purgeCommit o).objects.get? (backend, key.1, key.2) = some body := hbody
      rw [hobjects] at hbody'
      exact ⟨body, hbody'⟩
    exact h.purged_gone hop rfl hsame

/-- A pack is stored and deleted, and the account is purged. -/
def removedForGood : List (Env × Action Text) :=
  upload (day 1) 0 ['p'] ++ [(day 1, .cancelRemoval 0), (day 2, .delete ['d'] ['l'] (.pack ['p']) false),
    (day 3, .purgeBegin none), (day 3, .purgeRemove 1 true), (day 3, .purgeCommit 1)]

theorem nothing_outlives_deletion_removedForGood :
    (run id length (removedForGood.take 5) empty).objects.get? (.server, ['l'], .pack ['p']) = some ['p'] ∧
      (run id length removedForGood empty).objects.rows = [] ∧
      (run id length removedForGood empty).Cleared id length := by
  refine ⟨by decide +kernel, by decide +kernel, ?_⟩
  have hcalm : ∀ step ∈ removedForGood, Calm step.2 := by
    simp [removedForGood, upload, Calm]
  refine nothing_outlives_deletion id length removedForGood hcalm ⟨trivial, ?_, ?_, trivial, ?_, trivial, trivial,
    trivial, trivial⟩
  · rintro call hop backend hne ⟨body, hbody⟩
    cases hbody
  · intro call backend hop other hne hholds
    cases hop
    cases other with
    | server => exact hne rfl
    | b2 =>
      obtain ⟨body, hbody⟩ := hholds
      cases hbody
  · rintro - ⟨o, hop⟩
    cases hop

/-- A pack is stored at the server, deleted, and stored again when B2 is the preferred backend. -/
def storedElsewhere : List (Env × Action Text) :=
  upload (day 1) 0 ['p'] ++ [(day 1, .cancelRemoval 0), (day 2, .delete ['d'] ['l'] (.pack ['p']) false)] ++
    upload { day 3 with preferredBackend := .b2 } 1 ['p'] ++ [(day 3, .cancelRemoval 1)]

/-- The first object is named by nothing, and a purge of the account leaves it. -/
theorem object_outlives_purge : (run id length storedElsewhere empty).ops.rows = [] ∧
      (run id length (storedElsewhere ++ [(day 4, .purgeBegin none), (day 4, .purgeRemove 2 true),
        (day 4, .purgeCommit 2)]) empty).objects.get? (.server, ['l'], .pack ['p']) = some ['p'] ∧
      ¬ ∀ (hash : Text → Text) (len : Text → Nat) (steps : List (Env × Action Text)), (∀ step ∈ steps, Calm step.2) →
        (run hash len steps empty).Cleared hash len := by
  refine ⟨by decide +kernel, by decide +kernel, fun hall => ?_⟩
  have hcalm : ∀ step ∈ storedElsewhere, Calm step.2 := by
    simp [storedElsewhere, upload, Calm]
  have hcleared := hall id length storedElsewhere hcalm
  have hholds : (run id length storedElsewhere empty).Holds .server (['l'], .pack ['p']) :=
    ⟨['p'], by decide +kernel⟩
  have hidle : (run id length storedElsewhere empty).Idle := fun o => rfl
  rcases hcleared.named hidle .server (['l'], .pack ['p']) hholds with ⟨row, hrow, hb⟩ | ⟨p, hp, -⟩
  · cases hrow
    cases hb
  · cases hp

end State

end LibreServ.Connect
