import LibreServ.ConnectStorage

/-! The account lock, and the invariant that carries what Connect lists: every pack with a row has its object, but for
those that a purge is about, and whoever removes objects holds the lock alone. -/

namespace LibreServ.Connect

open Table Option
open Files (Text)

variable {B : Type}

namespace State

/-! ### Locks -/

/-- Who holds the account lock alone, holds it alone. -/
def Locks (s : State B) : Prop :=
  ∀ o op, s.ops.get? o = some op → op.lock = .exclusive →
    ∀ o' op', s.ops.get? o' = some op' → o' ≠ o → op'.lock = .none

/-- Numbers of calls are given once. -/
def Numbered (s : State B) : Prop := ∀ o op, s.ops.get? o = some op → o < s.nextOp

/-- Nobody removes objects. -/
def Quiet (s : State B) : Prop := ∀ o op, s.ops.get? o = some op → op.lock ≠ .exclusive

section Locks

variable {s : State B} {o : Nat} {op op' : Op B}

theorem quiet_of_not_excluded (h : ¬ s.excluded = true) : s.Quiet := by
  intro o op hop hlock
  exact h (any_iff.mpr ⟨o, op, hop, decide_eq_true hlock⟩)

theorem not_locked (h : ¬ s.locked = true) (hop : s.ops.get? o = some op) : op.lock = .none := by
  by_contra hlock
  exact h (any_iff.mpr ⟨o, op, hop, decide_eq_true hlock⟩)

section

variable (h : s.Locks)

include h

theorem Locks.erase (o : Nat) : Locks { s with ops := s.ops.erase o } := by
  intro a op ha hlock b op' hb hne
  exact h a op (get?_erase_some.mp ha).2 hlock b op' (get?_erase_some.mp hb).2 hne

theorem Locks.put
    (hnew : op'.lock = .exclusive → ∀ b opb, s.ops.get? b = some opb → b ≠ o → opb.lock = .none)
    (hold : ∀ a opa, s.ops.get? a = some opa → opa.lock = .exclusive → a ≠ o → op'.lock = .none) :
    Locks { s with ops := s.ops.put o op' } := by
  intro a opa ha hlock b opb hb hne
  rcases get?_put_some.mp ha with ⟨rfl, rfl⟩ | ⟨hao, ha⟩
  · rcases get?_put_some.mp hb with ⟨rfl, -⟩ | ⟨-, hb⟩
    · exact absurd rfl hne
    · exact hnew hlock b opb hb hne
  · rcases get?_put_some.mp hb with ⟨-, rfl⟩ | ⟨-, hb⟩
    · exact hold a opa ha hlock hao
    · exact h a opa ha hlock b opb hb hne

/-- A call goes on with the lock it has, or with less. -/
theorem Locks.put_of_weaker (hop : s.ops.get? o = some op)
    (hexcl : op'.lock = .exclusive → op.lock = .exclusive) (hnone : op.lock = .none → op'.lock = .none) :
    Locks { s with ops := s.ops.put o op' } :=
  h.put (fun hlock => h o op hop (hexcl hlock)) fun a opa ha hlock hao => hnone (h a opa ha hlock o op hop (Ne.symm hao))

/-- A call takes a lock nobody stands in the way of. -/
theorem Locks.put_of_free
    (hfree : ∀ b opb, s.ops.get? b = some opb → b ≠ o → opb.lock = .none ∨ (op'.lock ≠ .exclusive ∧ opb.lock ≠ .exclusive)) :
    Locks { s with ops := s.ops.put o op' } := by
  refine h.put (fun hlock b opb hb hne => ?_) fun a opa ha hlock hao => ?_
  · exact (hfree b opb hb hne).resolve_right fun hnot => hnot.1 hlock
  · rcases hfree a opa ha hao with hnone | ⟨-, hnot⟩
    · rw [hlock] at hnone
      cases hnone
    · exact absurd hlock hnot

theorem Locks.put_of_none (hnone : op'.lock = .none) : Locks { s with ops := s.ops.put o op' } :=
  h.put (fun hlock => nomatch hnone.symm.trans hlock) fun _ _ _ _ _ => hnone

end

theorem Quiet.locks (h : s.Quiet) : s.Locks := fun o op hop hlock => absurd hlock (h o op hop)

theorem Quiet.erase (h : s.Quiet) (o : Nat) : (s.endOp o).Quiet := by
  intro a opa ha
  obtain ⟨-, ha'⟩ := get?_erase_some.mp ha
  exact h a opa ha'

theorem Quiet.put (h : s.Quiet) (hop : op.lock ≠ .exclusive) (o : Nat) : (s.setOp o op).Quiet := by
  intro a opa ha
  rcases get?_put_some.mp ha with ⟨-, rfl⟩ | ⟨-, ha'⟩
  · exact hop
  · exact h a opa ha'

theorem Locks.quiet_of_shared (h : s.Locks) (hop : s.ops.get? o = some op) (hshared : op.lock = .shared) : s.Quiet := by
  intro a opa ha hlock
  by_cases hao : a = o
  · subst hao
    obtain rfl := some.inj (hop.symm.trans ha)
    rw [hshared] at hlock
    cases hlock
  · have hnone := h a opa ha hlock o op hop fun hoa => hao hoa.symm
    rw [hshared] at hnone
    cases hnone

theorem Numbered.erase (h : s.Numbered) (o : Nat) : Numbered { s with ops := s.ops.erase o } := by
  intro a opa ha
  obtain ⟨-, ha'⟩ := get?_erase_some.mp ha
  exact h a opa ha'

theorem Numbered.put (h : s.Numbered) (hop : s.ops.get? o = some op) : Numbered { s with ops := s.ops.put o op' } := by
  intro a opa ha
  have ha' : (s.ops.put o op').get? a = some opa := ha
  rw [get?_put] at ha'
  split at ha'
  · rename_i hao
    rw [hao]
    exact h o op hop
  · exact h a opa ha'

theorem Numbered.addOp (h : s.Numbered) (op : Op B) : (s.addOp op).Numbered := by
  intro a opa ha
  have ha' : (s.ops.put s.nextOp op).get? a = some opa := ha
  rw [get?_put] at ha'
  split at ha'
  · rename_i hao
    rw [hao]
    exact Nat.lt_succ_self _
  · exact Nat.lt_succ_of_lt (h a opa ha')

theorem Locks.addOp (h : s.Locks)
    (hfree : ∀ b opb, s.ops.get? b = some opb → opb.lock = .none ∨ (op.lock ≠ .exclusive ∧ opb.lock ≠ .exclusive)) :
    (s.addOp op).Locks := by
  have hput : Locks { s with ops := s.ops.put s.nextOp op } := h.put_of_free fun b opb hb _ => hfree b opb hb
  exact hput

end Locks

/-! ### Objects that are listed are there -/

/-- The pack's bytes are in the store. -/
def There (hash : B → Text) (s : State B) (luna id : Text) : Prop :=
  ∃ backend b, s.objects.get? (backend, luna, .pack id) = some b ∧ hash b = id

/-- What holds of a call under way. -/
def OpOk (hash : B → Text) (s : State B) : Op B → Prop
  | .put call backend =>
    (∀ id, call.path = .pack id → hash call.body = id) ∧
      (backend.isSome → ∀ id, call.path = .pack id → There hash s call.luna id)
  | .putDone _ _ => True
  | .pass _ current => ∀ item gone, current = some (item, gone) → s.db.stored.get? (item.luna, item.path) = none
  | .purge purged rest _ =>
    (∀ item ∈ rest, covers purged item.luna = true) ∧
      ∀ luna id row lr, covers purged luna = true → s.db.stored.get? (luna, .pack id) = some row →
        s.db.lunas.get? luna = some lr → lr.purgeAfter ≠ 0

/-- Every pack with a row has its object, but for those a purge is about. -/
structure Safe (hash : B → Text) (s : State B) : Prop where
  locks : s.Locks
  numbered : s.Numbered
  listed : ∀ luna id row, s.db.stored.get? (luna, .pack id) = some row →
    There hash s luna id ∨ ∃ o purged rest, s.ops.get? o = some (.purge purged rest true) ∧ covers purged luna = true
  ops : ∀ o op, s.ops.get? o = some op → OpOk hash s op

section Safe

variable {hash : B → Text} {s s' : State B} {o : Nat} {op op' : Op B} {luna id : Text}

/-- Where nobody holds the lock alone, every row has its object. -/
theorem Safe.of_quiet (hquiet : s.Quiet) (hnumbered : s.Numbered)
    (hrows : ∀ luna id row, s.db.stored.get? (luna, .pack id) = some row → There hash s luna id)
    (hputs : ∀ o call backend, s.ops.get? o = some (.put call backend) → OpOk hash s (.put call backend)) :
    Safe hash s where
  locks := hquiet.locks
  numbered := hnumbered
  listed := fun luna id row hrow => .inl (hrows luna id row hrow)
  ops := by
    intro o op hop
    cases op with
    | put call backend => exact hputs o call backend hop
    | putDone luna path => trivial
    | pass due current =>
      intro item gone hcurrent
      refine absurd ?_ (hquiet o _ hop)
      rw [hcurrent]
      rfl
    | purge purged rest started => exact absurd rfl (hquiet o _ hop)

theorem Safe.there_of_quiet (h : Safe hash s) (hquiet : s.Quiet) {luna id : Text} {row : BlobRow} (hrow : s.db.stored.get? (luna, .pack id) = some row) : There hash s luna id := by
  rcases h.listed luna id row hrow with hthere | ⟨o, purged, rest, hop, -⟩
  · exact hthere
  · exact absurd rfl (hquiet o _ hop)

/-- What a call needs stays true while its rows and objects do. -/
theorem OpOk.of_same (h : OpOk hash s op) (hstored : s'.db.stored = s.db.stored) (hobjects : s'.objects = s.objects)
    (hlunas : ∀ luna lr', s'.db.lunas.get? luna = some lr' → lr'.purgeAfter = 0 →
      ∃ lr, s.db.lunas.get? luna = some lr ∧ lr.purgeAfter = 0) : OpOk hash s' op := by
  have hthere : ∀ luna id, There hash s luna id → There hash s' luna id := by
    intro luna id ht
    unfold There
    rw [hobjects]
    exact ht
  cases op with
  | put call backend => exact ⟨h.1, fun hb id hid => hthere _ _ (h.2 hb id hid)⟩
  | putDone luna path => trivial
  | pass due current =>
    intro item gone hcurrent
    rw [hstored]
    exact h item gone hcurrent
  | purge purged rest started =>
    refine ⟨h.1, fun luna id row lr' hcov hrow hlr' hzero => ?_⟩
    rw [hstored] at hrow
    obtain ⟨lr, hlr, hlrzero⟩ := hlunas luna lr' hlr' hzero
    exact h.2 luna id row lr hcov hrow hlr hlrzero

/-- Rows and objects stay; Lunas may become due, calls may end, and no purge that has begun to remove is lost. -/
theorem Safe.frame (h : Safe hash s) (hlocks : s'.Locks) (hnumbered : s'.Numbered)
    (hstored : s'.db.stored = s.db.stored) (hobjects : s'.objects = s.objects)
    (hlunas : ∀ luna lr', s'.db.lunas.get? luna = some lr' → lr'.purgeAfter = 0 →
      ∃ lr, s.db.lunas.get? luna = some lr ∧ lr.purgeAfter = 0)
    (hops : ∀ o op, s'.ops.get? o = some op → s.ops.get? o = some op ∨ OpOk hash s' op)
    (hpurge : ∀ o purged rest, s.ops.get? o = some (.purge purged rest true) →
      s'.ops.get? o = some (.purge purged rest true)) : Safe hash s' where
  locks := hlocks
  numbered := hnumbered
  listed := by
    intro luna id row hrow
    rw [hstored] at hrow
    rcases h.listed luna id row hrow with ⟨backend, b, hb, hhash⟩ | ⟨o, purged, rest, hop, hcov⟩
    · left
      refine ⟨backend, b, ?_, hhash⟩
      rw [hobjects]
      exact hb
    · exact .inr ⟨o, purged, rest, hpurge o purged rest hop, hcov⟩
  ops := by
    intro o op hop
    rcases hops o op hop with hold | hnew
    · exact (h.ops o op hold).of_same hstored hobjects hlunas
    · exact hnew

/-- A step that removes nothing, while nobody does. -/
theorem Safe.quiet_step (h : Safe hash s) (hquiet : s.Quiet) (hquiet' : s'.Quiet) (hnumbered : s'.Numbered)
    (hthere : ∀ luna id, There hash s luna id → There hash s' luna id)
    (hrows : ∀ luna id row', s'.db.stored.get? (luna, .pack id) = some row' →
      (∃ row, s.db.stored.get? (luna, .pack id) = some row) ∨ There hash s' luna id)
    (hputs : ∀ o call backend, s'.ops.get? o = some (.put call backend) →
      s.ops.get? o = some (.put call backend) ∨ OpOk hash s' (.put call backend)) : Safe hash s' := by
  apply Safe.of_quiet hquiet' hnumbered
  · intro luna id row' hrow'
    rcases hrows luna id row' hrow' with ⟨row, hrow⟩ | ht
    · exact hthere luna id (h.there_of_quiet hquiet hrow)
    · exact ht
  · intro o call backend hop
    rcases hputs o call backend hop with hold | hnew
    · obtain ⟨hhash, hb⟩ := h.ops o _ hold
      exact ⟨hhash, fun hsome id hid => hthere _ _ (hb hsome id hid)⟩
    · exact hnew

theorem OpOk.of_unlocked (h : op.lock = .none) : OpOk hash s op := by
  cases op with
  | put call backend => cases h
  | putDone luna path => trivial
  | pass due current =>
    intro item gone hcurrent
    rw [hcurrent] at h
    cases h
  | purge purged rest started => cases h

section

variable (h : Safe hash s) (hop : s.ops.get? o = some op) (hnot : ∀ purged rest, op ≠ .purge purged rest true)
  (hdb : s'.db.stored = s.db.stored ∧ s'.db.lunas = s.db.lunas) (hobjects : s'.objects = s.objects)
include h hop hnot hdb hobjects

/-- A call goes on; rows, Lunas and objects stay, and it is no purge that has begun to remove. -/
theorem Safe.goOn
    (hops : s'.ops = s.ops.put o op') (hnext : s'.nextOp = s.nextOp) (hlocks : s'.Locks) (hok : OpOk hash s' op') :
    Safe hash s' := by
  have hnumbered : s'.Numbered := by
    have hput : Numbered { s with ops := s.ops.put o op' } := h.numbered.put hop
    intro a opa ha
    rw [hops] at ha
    rw [hnext]
    exact hput a opa ha
  apply h.frame hlocks hnumbered hdb.1 hobjects
  · intro luna lr hlr hzero
    rw [hdb.2] at hlr
    exact ⟨lr, hlr, hzero⟩
  · intro a opa ha
    rw [hops] at ha
    rcases get?_put_some.mp ha with ⟨-, rfl⟩ | ⟨-, ha⟩
    · exact .inr hok
    · exact .inl ha
  · intro a purged rest ha
    rw [hops, get?_put, if_neg]
    · exact ha
    · intro hao
      subst hao
      exact hnot purged rest (some.inj (hop.symm.trans ha))

theorem Safe.ends (hops : s'.ops = s.ops.erase o) (hnext : s'.nextOp = s.nextOp) : Safe hash s' := by
  have hget : ∀ a opa, s'.ops.get? a = some opa → s.ops.get? a = some opa := by
    intro a opa ha
    rw [hops] at ha
    obtain ⟨-, ha⟩ := get?_erase_some.mp ha
    exact ha
  have hlocks : s'.Locks := by
    intro a opa ha hlock b opb hb hne
    exact h.locks a opa (hget a opa ha) hlock b opb (hget b opb hb) hne
  have hnumbered : s'.Numbered := by
    intro a opa ha
    rw [hnext]
    exact h.numbered a opa (hget a opa ha)
  apply h.frame hlocks hnumbered hdb.1 hobjects
  · intro luna lr hlr hzero
    rw [hdb.2] at hlr
    exact ⟨lr, hlr, hzero⟩
  · intro a opa ha
    exact .inl (hget a opa ha)
  · intro a purged rest ha
    rw [hops, get?_erase, if_neg]
    · exact ha
    · intro hao
      subst hao
      exact hnot purged rest (some.inj (hop.symm.trans ha))

end

/-- The step of a call that holds the lock alone. -/
theorem Safe.alone (h : Safe hash s) (hop : s.ops.get? o = some op) (hlock : op.lock = .exclusive) (hlocks : s'.Locks)
    (hnumbered : s'.Numbered) (hothers : ∀ a opa, s'.ops.get? a = some opa → a ≠ o → s.ops.get? a = some opa)
    (hself : ∀ op', s'.ops.get? o = some op' → OpOk hash s' op')
    (hlisted : ∀ luna id row, s'.db.stored.get? (luna, .pack id) = some row →
      There hash s' luna id ∨ ∃ a purged rest, s'.ops.get? a = some (.purge purged rest true) ∧ covers purged luna = true) :
    Safe hash s' where
  locks := hlocks
  numbered := hnumbered
  listed := hlisted
  ops := by
    intro a opa ha
    by_cases hao : a = o
    · subst hao
      exact hself opa ha
    · exact OpOk.of_unlocked (h.locks o op hop hlock a opa (hothers a opa ha hao) hao)

/-- While somebody else than a purge holds the lock alone, every row has its object. -/
theorem Safe.there_of_alone (h : Safe hash s) (hop : s.ops.get? o = some op) (hlock : op.lock = .exclusive)
    (hnot : ∀ purged rest, op = .purge purged rest true → covers purged luna = false) {row : BlobRow}
    (hrow : s.db.stored.get? (luna, .pack id) = some row) : There hash s luna id := by
  rcases h.listed luna id row hrow with hthere | ⟨a, purged, rest, ha, hcov⟩
  · exact hthere
  by_cases hao : a = o
  · subst hao
    rw [hnot purged rest (some.inj (hop.symm.trans ha))] at hcov
    cases hcov
  · have hnone := h.locks o op hop hlock a _ ha hao
    cases hnone

/-- An object elsewhere goes. -/
theorem There.erase (h : There hash s luna id) {key : Backend × Text × BlobPath} (hne : key.2 ≠ (luna, .pack id)) :
    There hash { s with objects := s.objects.erase key } luna id := by
  obtain ⟨backend, bytes, hget, hbytes⟩ := h
  refine ⟨backend, bytes, ?_, hbytes⟩
  rw [get?_erase, if_neg]
  · exact hget
  · intro heq
    exact hne (congrArg Prod.snd heq).symm

end Safe

end State

end LibreServ.Connect
