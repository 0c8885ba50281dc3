import LibreServ.Accounts

/-! The accounts stay sound as long as the first admin is inserted into an empty table, a redemption that goes wrong does so
with its account gone, and an admin is only deleted or demoted while there is another one. -/

namespace LibreServ.Accounts

open List Option Table

variable {account : Nat} {done : Bool} {now : Int}

namespace Call

/-- The account that a call of `RedeemInvite` has made. -/
def made : Call → Option Nat
  | .promote account .. | .redeem account _ | .session account => some account
  | .findUser account undo | .countAdmins account undo | .deleteUser account undo => if undo then some account else none
  | _ => none

/-- The account that a call has made for an invite which it has not marked. -/
def unsettled : Call → Option Nat
  | .session _ => none
  | c => c.made

/-- The account and the invite that a call is going to mark redeemed. -/
def redeems : Call → Option (Nat × Nat)
  | .promote account invite .. | .redeem account invite => some (account, invite)
  | _ => none

theorem made_of_redeems {c : Call} {r : Nat × Nat} (h : r ∈ c.redeems) : r.1 ∈ c.made := by
  cases c with
  | promote account invite username email | redeem account invite =>
    cases h
    rfl
  | _ => cases h

end Call

namespace State

variable {st st' : State}

/-- What should be so of every state. -/
structure Sound (st : State) : Prop where
  setups : st.setups ≤ 1
  invites : (∀ c ∈ st.calls, c = .ended) → ∀ id id' u u' i, st.users.get? id = some u → st.users.get? id' = some u' →
    u.invite = some i → u'.invite = some i → id = id'
  failed : ∀ id ∈ st.failed, st.users.get? id = none
  admin : st.hadAdmin = true → st.hasAdmin = true

def Gone (st : State) (account : Nat) : Prop := (st.users.get? account).isNone = true

instance (account : Nat) : Decidable (st.Gone account) := inferInstanceAs (Decidable (_ = true))

/-- An admin other than this account. -/
def OtherAdmin (st : State) (account : Nat) : Prop := ∃ row ∈ st.users.rows, row.1 ≠ account ∧ row.2.role = .admin

instance (account : Nat) : Decidable (st.OtherAdmin account) := inferInstanceAs (Decidable (∃ row ∈ st.users.rows, _))

/-- The statements under which the accounts stay sound. -/
def CarefulCall (st : State) (done : Bool) : Call → Prop
  | .insertAdmin username _ => done = true → st.taken username = true ∨ st.users.rows.isEmpty = true ∨ st.setups = 0
  | .promote account .. | .redeem account _ | .session account => done = true ∨ st.Gone account
  | .findUser account undo => undo = true → done = true ∨ st.Gone account
  | .countAdmins account undo => undo = true → (done = true ∧ 1 < st.adminCount) ∨ st.Gone account
  | .deleteUser account undo =>
    (undo = true → done = true ∨ st.Gone account) ∧ (done = true → st.isAdmin account = true → st.OtherAdmin account)
  | .update account _ _ role => done = true → st.isAdmin account = true → role = .admin ∨ st.OtherAdmin account
  | _ => True

instance (done : Bool) : ∀ c, Decidable (st.CarefulCall done c)
  | .insertAdmin username _ =>
    inferInstanceAs (Decidable (done = true → st.taken username = true ∨ st.users.rows.isEmpty = true ∨ st.setups = 0))
  | .promote account .. | .redeem account _ | .session account => inferInstanceAs (Decidable (done = true ∨ st.Gone account))
  | .findUser account undo => inferInstanceAs (Decidable (undo = true → done = true ∨ st.Gone account))
  | .countAdmins account undo =>
    inferInstanceAs (Decidable (undo = true → (done = true ∧ 1 < st.adminCount) ∨ st.Gone account))
  | .deleteUser account undo => inferInstanceAs (Decidable ((undo = true → _) ∧ (done = true → _ → st.OtherAdmin account)))
  | .update account _ _ role =>
    inferInstanceAs (Decidable (done = true → st.isAdmin account = true → role = .admin ∨ st.OtherAdmin account))
  | .countUsers .. | .findInvite .. | .findUsername .. | .findEmail .. | .insertUser .. | .findTarget .. | .ended => .isTrue trivial

def Careful (st : State) : Action → Prop
  | .statement k done _ => ∀ c ∈ st.calls[k]?, st.CarefulCall done c
  | _ => True

instance : ∀ a, Decidable (st.Careful a)
  | .statement k done _ => inferInstanceAs (Decidable (∀ c ∈ st.calls[k]?, st.CarefulCall done c))
  | .completeSetup .. | .redeemInvite .. | .deleteUser .. | .updateUser .. => .isTrue trivial

/-- A server before the calls. -/
structure Start (st : State) : Prop where
  users : ∀ id u, st.users.get? id = some u → id < st.nextId ∧ u.invite = none
  calls : st.calls = []
  setups : st.setups = 0
  joined : st.joined = []
  failed : st.failed = []
  hadAdmin : st.hadAdmin = st.hasAdmin

/-! ### The invariant -/

structure Inv (st : State) : Prop where
  users : ∀ id u, st.users.get? id = some u → id < st.nextId
  made : ∀ c ∈ st.calls, ∀ id ∈ c.made, id < st.nextId
  redeems : ∀ c ∈ st.calls, ∀ r ∈ c.redeems, ∀ u, st.users.get? r.1 = some u → u.invite = some r.2
  /-- An account made for an invite has marked it, or is going to be settled. -/
  covered : ∀ id u i, st.users.get? id = some u → u.invite = some i → (i, id) ∈ st.joined ∨ ∃ c ∈ st.calls, id ∈ c.unsettled
  once : ∀ i a b, (i, a) ∈ st.joined → (i, b) ∈ st.joined → a = b
  marked : ∀ i a inv, (i, a) ∈ st.joined → st.invites.get? i = some inv → inv.redeemed = true
  failed : ∀ id ∈ st.failed, id < st.nextId ∧ st.users.get? id = none

theorem Start.inv (h : st.Start) : st.Inv where
  users id u hu := (h.users id u hu).1
  made c hc := by
    rw [h.calls] at hc
    cases hc
  redeems c hc := by
    rw [h.calls] at hc
    cases hc
  covered id u i hu hi := by
    rw [(h.users id u hu).2] at hi
    cases hi
  once i a b ha := by
    rw [h.joined] at ha
    cases ha
  marked i a inv ha := by
    rw [h.joined] at ha
    cases ha
  failed id hid := by
    rw [h.failed] at hid
    cases hid

theorem mem_set {c c' : Call} {calls : List Call} {k : Nat} (h : c ∈ calls.set k c') : c ∈ calls ∨ c = c' :=
  mem_or_eq_of_mem_set h

section

variable (h : st.Inv) {k : Nat} {c c' : Call} (hc : st.calls[k]? = some c)
include h hc

/-- What call `k` no longer has to settle is settled. -/
theorem Inv.setCall (hmade : ∀ id ∈ c'.made, id < st.nextId)
    (hredeems : ∀ r ∈ c'.redeems, ∀ u, st.users.get? r.1 = some u → u.invite = some r.2)
    (hsettled : ∀ id ∈ c.unsettled, id ∈ c'.unsettled ∨
      ∀ u i, st.users.get? id = some u → u.invite = some i → (i, id) ∈ st.joined) : (st.setCall k c').Inv := by
  obtain ⟨hk, hget⟩ := List.getElem?_eq_some_iff.mp hc
  have hnew : c' ∈ st.calls.set k c' := List.mem_set hk c'
  refine ⟨h.users, fun d hd => ?_, fun d hd => ?_, fun id u i hu hi => ?_, h.once, h.marked, h.failed⟩
  · rcases mem_set hd with hd | rfl
    · exact h.made d hd
    · exact hmade
  · rcases mem_set hd with hd | rfl
    · exact h.redeems d hd
    · exact hredeems
  · rcases h.covered id u i hu hi with hj | ⟨d, hd, hid⟩
    · exact .inl hj
    obtain ⟨j, hj, hdj⟩ := getElem_of_mem hd
    by_cases hjk : j = k
    · subst hjk
      obtain rfl : d = c := hdj.symm.trans hget
      rcases hsettled id hid with hid | hjoined
      · exact .inr ⟨c', hnew, hid⟩
      · exact .inl (hjoined u i hu hi)
    · refine .inr ⟨d, ?_, hid⟩
      have hset : (st.calls.set k c')[j]? = some d := by
        rw [getElem?_set_ne (Ne.symm hjk), getElem?_eq_getElem hj, hdj]
      exact mem_of_getElem? hset

/-- A call that has nothing to settle ends or goes on. -/
theorem Inv.goOn (hold : c.unsettled = none)
    (hmade : c'.made = none) (hnew : c'.redeems = none) : (st.setCall k c').Inv := by
  apply h.setCall hc
  · rw [hmade]
    rintro id ⟨⟩
  · rw [hnew]
    rintro r ⟨⟩
  · rw [hold]
    rintro id ⟨⟩

/-- A call goes on with the account it has made. -/
theorem Inv.follow (hmade : c'.made = c.made)
    (hold : c'.unsettled = c.unsettled) (hnew : ∀ r ∈ c'.redeems, r ∈ c.redeems) : (st.setCall k c').Inv := by
  have hmem : c ∈ st.calls := mem_of_getElem? hc
  apply h.setCall hc
  · rw [hmade]
    exact h.made c hmem
  · exact fun r hr => h.redeems c hmem r (hnew r hr)
  · rw [hold]
    exact fun id hid => .inl hid

end

section

variable (h : st.Inv)

include h

/-- A redemption goes wrong with its account gone. -/
theorem Inv.fail {k : Nat} {c : Call} (hc : st.calls[k]? = some c) (hmade : c.made = some account)
    (hunsettled : ∀ id ∈ c.unsettled, id = account) (hgone : st.users.get? account = none) : (st.fail account k).Inv := by
  have hover : (st.setCall k .ended).Inv := by
    apply h.setCall hc
    · rintro id ⟨⟩
    · rintro r ⟨⟩
    · intro id hid
      refine .inr fun u i hu => ?_
      rw [hunsettled id hid, hgone] at hu
      cases hu
  refine ⟨hover.users, hover.made, hover.redeems, hover.covered, hover.once, hover.marked, fun id hid => ?_⟩
  rcases mem_cons.mp hid with rfl | hid
  · exact ⟨h.made c (mem_of_getElem? hc) id hmade, hgone⟩
  · exact h.failed id hid

theorem Inv.endDelete {k : Nat} {c : Call} {undo : Bool} (hc : st.calls[k]? = some c)
    (hmade : c.made = if undo then some account else none) (hunsettled : c.unsettled = c.made)
    (hgone : undo = true → st.users.get? account = none) : (st.endDelete account undo k).Inv := by
  cases undo with
  | false => exact h.goOn hc (hunsettled.trans hmade) rfl rfl
  | true =>
    refine h.fail hc hmade (fun id hid => ?_) (hgone rfl)
    rw [hunsettled, hmade] at hid
    exact (some.inj hid).symm

theorem Inv.insertUser {k : Nat} {c c' : Call} {username email : String} {role : Role} {invite : Option Nat}
    (hc : st.calls[k]? = some c) (hold : c.unsettled = none) (hmade : ∀ id ∈ c'.made, id = st.nextId)
    (hredeems : ∀ r ∈ c'.redeems, r.1 = st.nextId ∧ invite = some r.2)
    (hcovered : invite.isSome = true → st.nextId ∈ c'.unsettled) :
    ((st.insertUser username email role invite).setCall k c').Inv := by
  obtain ⟨hk, hget⟩ := List.getElem?_eq_some_iff.mp hc
  have hnew : c' ∈ st.calls.set k c' := List.mem_set hk c'
  have hlt : ∀ {id}, id < st.nextId → id < st.nextId + 1 ∧
      (st.users.put st.nextId ⟨username, email, role, invite⟩).get? id = st.users.get? id := by
    intro id hid
    refine ⟨by omega, ?_⟩
    rw [get?_put, if_neg (by omega)]
  have hput : ∀ {id u}, (st.users.put st.nextId ⟨username, email, role, invite⟩).get? id = some u →
      (id = st.nextId ∧ u = ⟨username, email, role, invite⟩) ∨ st.users.get? id = some u := by
    intro id u hu
    rw [get?_put] at hu
    split at hu
    · next heq => exact .inl ⟨heq, (Option.some.inj hu).symm⟩
    · exact .inr hu
  have hstays : ∀ d ∈ st.calls, ∀ id ∈ d.unsettled, ∃ d' ∈ st.calls.set k c', id ∈ d'.unsettled := by
    intro d hd id hid
    obtain ⟨j, hj, hdj⟩ := getElem_of_mem hd
    have hjk : k ≠ j := by
      rintro rfl
      rw [← hdj, hget, hold] at hid
      cases hid
    refine ⟨d, mem_of_getElem? (i := j) ?_, hid⟩
    rw [getElem?_set_ne hjk, getElem?_eq_getElem hj, hdj]
  refine ⟨fun id u hu => ?_, fun d hd id hid => ?_, fun d hd r hr u hu => ?_, fun id u i hu hi => ?_, h.once, h.marked,
    fun id hid => ?_⟩
  · rcases hput hu with ⟨rfl, -⟩ | hu
    · exact Nat.lt_succ_self _
    · exact (hlt (h.users id u hu)).1
  · rcases mem_set hd with hd | rfl
    · exact (hlt (h.made d hd id hid)).1
    · rw [hmade id hid]
      exact Nat.lt_succ_self _
  · rcases mem_set hd with hd | rfl
    · rcases hput hu with ⟨heq, -⟩ | hu
      · have hlt := h.made d hd r.1 (Call.made_of_redeems hr)
        omega
      · exact h.redeems d hd r hr u hu
    · obtain ⟨heq, hinvite⟩ := hredeems r hr
      rcases hput hu with ⟨-, rfl⟩ | hu
      · exact hinvite
      · have hlt := h.users r.1 u hu
        omega
  · rcases hput hu with ⟨rfl, rfl⟩ | hu
    · refine .inr ⟨c', hnew, hcovered ?_⟩
      rw [show invite = some i from hi]
      rfl
    · rcases h.covered id u i hu hi with hj | ⟨d, hd, hid⟩
      · exact .inl hj
      · exact .inr (hstays d hd id hid)
  · obtain ⟨hid, hnone⟩ := h.failed id hid
    exact ⟨(hlt hid).1, (hlt hid).2.trans hnone⟩

/-- No account comes, and none changes its invite. -/
theorem Inv.setUsers {users : Table Nat User} {invites : Table Nat Invite}
    (husers : ∀ id u, users.get? id = some u → ∃ v, st.users.get? id = some v ∧ u.invite = v.invite)
    (hinvites : ∀ i inv, invites.get? i = some inv → st.invites.get? i = some inv) :
    Inv { st with users := users, invites := invites } := by
  refine ⟨fun id u hu => ?_, h.made, fun d hd r hr u hu => ?_, fun id u i hu hi => ?_, h.once,
    fun i a inv hj hinv => h.marked i a inv hj (hinvites i inv hinv), fun id hid => ?_⟩
  · obtain ⟨v, hv, -⟩ := husers id u hu
    exact h.users id v hv
  · obtain ⟨v, hv, heq⟩ := husers r.1 u hu
    rw [heq]
    exact h.redeems d hd r hr v hv
  · obtain ⟨v, hv, heq⟩ := husers id u hu
    exact h.covered id v i hv (heq ▸ hi)
  · obtain ⟨hlt, hnone⟩ := h.failed id hid
    refine ⟨hlt, ?_⟩
    cases hu : users.get? id with
    | none => rfl
    | some u =>
      obtain ⟨v, hv, -⟩ := husers id u hu
      rw [hnone] at hv
      cases hv

theorem Inv.updateUser (account : Nat) (username email : String) (role : Role) :
    (st.updateUser account username email role).Inv := by
  refine h.setUsers (fun id u hu => ?_) fun i inv hinv => hinv
  obtain ⟨v, hv, rfl⟩ := get?_update_some.mp hu
  refine ⟨v, hv, ?_⟩
  split
  · rfl
  · rfl

theorem Inv.eraseUser (account : Nat) : (st.eraseUser account).Inv := by
  refine h.setUsers (fun id u hu => ?_) fun i inv hinv => ?_
  · obtain ⟨-, hu⟩ := get?_erase_some.mp hu
    exact ⟨u, hu, rfl⟩
  · rw [Table.get?_keep] at hinv
    exact (filter_eq_some_iff.mp hinv).1

/-- An invite is marked for the first time. -/
theorem Inv.markRedeemed {invite : Nat}
    (hopen : (st.invites.get? invite).any (fun inv => !inv.redeemed) = true) : (st.markRedeemed invite account).Inv := by
  obtain ⟨inv, hinv, hfree⟩ := Option.any_eq_true .. |>.mp hopen
  have hfirst : ∀ a, (invite, a) ∉ st.joined := by
    intro a hj
    have hmarked := h.marked invite a inv hj hinv
    simp [hmarked] at hfree
  refine ⟨h.users, h.made, h.redeems, fun id u i hu hi => ?_, fun i a b ha hb => ?_, fun i a inv' hj hget => ?_, h.failed⟩
  · exact (h.covered id u i hu hi).imp_left (mem_cons_of_mem _)
  · rcases mem_cons.mp ha with heq | ha
    · cases heq
      rcases mem_cons.mp hb with heq | hb
      · cases heq
        rfl
      · exact absurd hb (hfirst b)
    · rcases mem_cons.mp hb with heq | hb
      · cases heq
        exact absurd ha (hfirst a)
      · exact h.once i a b ha hb
  · simp only [State.markRedeemed, get?_update, map_eq_some_iff] at hget
    obtain ⟨old, hold, rfl⟩ := hget
    split
    · rfl
    · next hne =>
        rcases mem_cons.mp hj with heq | hj
        · cases heq
          exact absurd rfl hne
        · exact h.marked i a old hj hold

end

theorem gone_iff : st.Gone account ↔ st.users.get? account = none := isNone_iff_eq_none

theorem Inv.findUser (h : st.Inv) {k : Nat} {undo : Bool}
    (hc : st.calls[k]? = some (.findUser account undo)) (hcareful : undo = true → done = true ∨ st.Gone account)
    (hs : st.statement k done now (.findUser account undo) = some st') : st'.Inv := by
  cases hu : st.users.get? account with
  | none =>
    simp only [State.statement, hu, some.injEq] at hs
    subst hs
    exact h.endDelete hc rfl rfl fun _ => hu
  | some u =>
    simp only [State.statement, hu, some.injEq] at hs
    subst hs
    split
    · split
      · exact h.follow hc rfl rfl fun r hr => by cases hr
      · exact h.follow hc rfl rfl fun r hr => by cases hr
    · next hdone => exact h.endDelete hc rfl rfl fun hundo => gone_iff.mp ((hcareful hundo).resolve_left hdone)

theorem Inv.redeem (h : st.Inv) {k invite : Nat}
    (hc : st.calls[k]? = some (.redeem account invite)) (hcareful : done = true ∨ st.Gone account)
    (hs : st.statement k done now (.redeem account invite) = some st') : st'.Inv := by
  simp only [State.statement] at hs
  split at hs
  · split at hs
    · next hopen =>
        cases hs
        refine (h.markRedeemed hopen).setCall hc (fun id hid => ?_) (fun r hr => by cases hr) fun id hid => .inr fun u i hu hi => ?_
        · exact h.made _ (mem_of_getElem? hc) id hid
        · obtain rfl : account = id := some.inj hid
          have hinvite := h.redeems _ (mem_of_getElem? hc) (account, invite) rfl u hu
          obtain rfl : i = invite := some.inj (hi.symm.trans hinvite)
          exact mem_cons_self
    · cases hs
      exact h.follow hc rfl rfl fun r hr => by cases hr
  · next hdone =>
      cases hs
      refine h.fail hc rfl (fun id hid => (some.inj hid).symm) (gone_iff.mp (hcareful.resolve_left hdone))

theorem Inv.statement (h : st.Inv) {k : Nat} {c : Call} (hc : st.calls[k]? = some c)
    (hcareful : st.CarefulCall done c) (hs : st.statement k done now c = some st') : st'.Inv := by
  cases c with
  | countUsers username email =>
    cases hs
    split
    · exact h.goOn hc rfl rfl rfl
    · exact h.goOn hc rfl rfl rfl
  | insertAdmin username email =>
    simp only [State.statement] at hs
    split at hs
    · cases hs
      have hinsert : ((st.insertUser username email .admin none).setCall k .ended).Inv := by
        apply h.insertUser hc rfl
        · exact fun id hid => by cases hid
        · exact fun r hr => by cases hr
        · exact fun hnone => by cases hnone
      exact ⟨hinsert.users, hinsert.made, hinsert.redeems, hinsert.covered, hinsert.once, hinsert.marked, hinsert.failed⟩
    · cases hs
      exact h.goOn hc rfl rfl rfl
  | findInvite token username =>
    simp only [State.statement] at hs
    cases hrow : st.invites.rows.find? fun row => row.2.token = token && !row.2.redeemed with
    | none =>
      simp only [hrow, some.injEq] at hs
      subst hs
      exact h.goOn hc rfl rfl rfl
    | some row =>
      simp only [hrow, some.injEq] at hs
      subst hs
      split
      · exact h.goOn hc rfl rfl rfl
      · exact h.goOn hc rfl rfl rfl
  | findUsername invite email role username =>
    cases hs
    split
    · exact h.goOn hc rfl rfl rfl
    · split
      · exact h.goOn hc rfl rfl rfl
      · exact h.goOn hc rfl rfl rfl
  | findEmail invite email role username =>
    cases hs
    split
    · exact h.goOn hc rfl rfl rfl
    · exact h.goOn hc rfl rfl rfl
  | insertUser invite email role username =>
    simp only [State.statement] at hs
    split at hs
    · cases hs
      apply h.insertUser hc rfl
      · split
        · exact fun id hid => (some.inj hid).symm
        · exact fun id hid => (some.inj hid).symm
      · split
        · rintro r ⟨⟩
          exact ⟨rfl, rfl⟩
        · rintro r ⟨⟩
          exact ⟨rfl, rfl⟩
      · intro _
        split
        · rfl
        · rfl
    · cases hs
      exact h.goOn hc rfl rfl rfl
  | promote account invite username email =>
    simp only [State.statement] at hs
    split at hs
    · cases hs
      exact (h.updateUser account username email .admin).follow hc rfl rfl fun r hr => hr
    · next hdone =>
        cases hs
        exact h.fail hc rfl (fun id hid => (some.inj hid).symm) (gone_iff.mp (hcareful.resolve_left hdone))
  | redeem account invite => exact h.redeem hc hcareful hs
  | session account =>
    cases hs
    split
    · apply h.setCall hc
      · rintro id ⟨⟩
      · rintro r ⟨⟩
      · rintro id ⟨⟩
    · next hneg =>
        refine h.fail hc rfl (fun id hid => by cases hid) ?_
        rcases hcareful with rfl | hgone
        · simpa using hneg
        · exact gone_iff.mp hgone
  | findUser account undo => exact h.findUser hc hcareful hs
  | countAdmins account undo =>
    cases hs
    split
    · exact h.follow hc rfl rfl fun r hr => by cases hr
    · next hneg =>
        refine h.endDelete hc rfl rfl fun hundo => gone_iff.mp ((hcareful hundo).resolve_left ?_)
        rintro ⟨rfl, hmany⟩
        simp [hmany] at hneg
  | deleteUser account undo =>
    cases hs
    split
    · refine (h.eraseUser account).endDelete hc rfl rfl fun _ => ?_
      exact (get?_erase ..).trans (if_pos rfl)
    · next hdone => exact h.endDelete hc rfl rfl fun hundo => gone_iff.mp ((hcareful.1 hundo).resolve_left hdone)
  | findTarget requester account email role =>
    simp only [State.statement] at hs
    cases hu : st.users.get? account with
    | none =>
      simp only [hu, some.injEq] at hs
      subst hs
      exact h.goOn hc rfl rfl rfl
    | some u =>
      simp only [hu, some.injEq] at hs
      subst hs
      split
      · exact h.goOn hc rfl rfl rfl
      · exact h.goOn hc rfl rfl rfl
  | update account username email role =>
    cases hs
    split
    · exact (h.updateUser account username email role).goOn hc rfl rfl rfl
    · exact h.goOn hc rfl rfl rfl
  | ended => cases hs

theorem Inv.act (h : st.Inv) {a : Action} (hcareful : st.Careful a) (hs : st.act a = some st') : st'.Inv := by
  have hadd : ∀ c : Call, c.made = none → Inv { st with calls := st.calls ++ [c] } := by
    intro c hmade
    have hin : ∀ {d}, d ∈ st.calls ++ [c] → d ∈ st.calls ∨ d = c := by
      intro d hd
      rcases mem_append.mp hd with hd | hd
      · exact .inl hd
      · exact .inr (mem_singleton.mp hd)
    refine ⟨h.users, fun d hd id hid => ?_, fun d hd r hr => ?_, fun id u i hu hi => ?_, h.once, h.marked, h.failed⟩
    · rcases hin hd with hd | rfl
      · exact h.made d hd id hid
      · rw [hmade] at hid
        cases hid
    · rcases hin hd with hd | rfl
      · exact h.redeems d hd r hr
      · have hr := Call.made_of_redeems hr
        rw [hmade] at hr
        cases hr
    · exact (h.covered id u i hu hi).imp_right fun ⟨d, hd, hid⟩ => ⟨d, mem_append_left _ hd, hid⟩
  cases a with
  | completeSetup username email | redeemInvite token username =>
    cases hs
    exact hadd _ rfl
  | deleteUser requester account | updateUser requester account email role =>
    obtain ⟨-, hs⟩ := ite_none_right_eq_some.mp hs
    cases hs
    exact hadd _ rfl
  | statement k done now =>
    obtain ⟨c, hc, hs⟩ := bind_eq_some_iff.mp hs
    exact h.statement hc (hcareful c hc) hs

/-! ### The admins -/

theorem hasAdmin_iff : st.hasAdmin = true ↔ ∃ id u, st.users.get? id = some u ∧ u.role = .admin := by
  rw [hasAdmin, any_iff]
  simp

theorem isAdmin_of_get {u : User} (hu : st.users.get? account = some u) (hrole : u.role = .admin) :
    st.isAdmin account = true := by
  simp [isAdmin, hu, hrole]

/-- One statement leaves an admin where there was one, and makes at most the first account of the setup. -/
structure Rules (st st' : State) : Prop where
  hadAdmin : st'.hadAdmin = st.hadAdmin
  admin : st.hasAdmin = true → st'.hasAdmin = true
  setups : st'.setups = st.setups ∨
    (st'.setups = st.setups + 1 ∧ st'.hasAdmin = true ∧ (st.users.rows.isEmpty = true ∨ st.setups = 0))

theorem Rules.same (hadAdmin : st'.hadAdmin = st.hadAdmin) (husers : st'.users = st.users) (hsetups : st'.setups = st.setups) :
    Rules st st' := by
  refine ⟨hadAdmin, fun h => ?_, .inl hsetups⟩
  rw [hasAdmin, husers]
  exact h

/-- An admin stays where every admin but one stays, and that one only goes if there is another. -/
theorem admin_stays (account : Nat) (hkeep : ∀ id u, id ≠ account → st.users.get? id = some u → u.role = .admin →
    st'.users.get? id = some u) (hother : st.isAdmin account = true → st'.hasAdmin = true ∨ st.OtherAdmin account)
    (h : st.hasAdmin = true) : st'.hasAdmin = true := by
  obtain ⟨id, u, hu, hrole⟩ := hasAdmin_iff.mp h
  by_cases heq : id = account
  · subst heq
    rcases hother (isAdmin_of_get hu hrole) with hdone | ⟨⟨id', u'⟩, hmem, hne, hrole'⟩
    · exact hdone
    · exact hasAdmin_iff.mpr ⟨id', u', hkeep id' u' hne (mem_rows.mp hmem) hrole', hrole'⟩
  · exact hasAdmin_iff.mpr ⟨id, u, hkeep id u heq hu hrole, hrole⟩

theorem updateUser_admin {username email : String} {role : Role}
    (hother : st.isAdmin account = true → role = .admin ∨ st.OtherAdmin account) (h : st.hasAdmin = true) :
    (st.updateUser account username email role).hasAdmin = true := by
  refine admin_stays account (fun id u hne hu _ => ?_) (fun hadmin => ?_) h
  · simp only [State.updateUser, get?_update, hu, map_some, if_neg hne]
  · refine (hother hadmin).imp_left fun hrole => ?_
    cases hu : st.users.get? account with
    | none => simp [isAdmin, hu] at hadmin
    | some u =>
      refine hasAdmin_iff.mpr ⟨account, ⟨username, email, role, u.invite⟩, ?_, hrole⟩
      simp only [State.updateUser, get?_update, hu, map_some, if_pos]

theorem eraseUser_admin (hother : st.isAdmin account = true → st.OtherAdmin account)
    (h : st.hasAdmin = true) : (st.eraseUser account).hasAdmin = true := by
  refine admin_stays account (fun id u hne hu _ => ?_) (fun hadmin => .inr (hother hadmin)) h
  exact (get?_erase ..).trans ((if_neg hne).trans hu)

theorem Inv.insertUser_admin (h : st.Inv) {username email : String} {role : Role} {invite : Option Nat}
    (hadmin : st.hasAdmin = true ∨ role = .admin) : (st.insertUser username email role invite).hasAdmin = true := by
  rcases hadmin with hadmin | hrole
  · obtain ⟨id, u, hu, hrole⟩ := hasAdmin_iff.mp hadmin
    have hlt := h.users id u hu
    refine hasAdmin_iff.mpr ⟨id, u, ?_, hrole⟩
    rw [State.insertUser, get?_put, if_neg (by omega)]
    exact hu
  · exact hasAdmin_iff.mpr ⟨st.nextId, _, get?_put_self .., hrole⟩

theorem Rules.endDelete (h : Rules st st') (account k : Nat) (undo : Bool) : Rules st (st'.endDelete account undo k) := by
  obtain ⟨hhad, hadmin, hsetups⟩ := h
  cases undo with
  | false | true => exact ⟨hhad, hadmin, hsetups⟩

theorem Rules.refl (st : State) : Rules st st := ⟨rfl, id, .inl rfl⟩

theorem Inv.rules (h : st.Inv) {k : Nat} {c : Call} (hcareful : st.CarefulCall done c)
    (hs : st.statement k done now c = some st') : Rules st st' := by
  cases c with
  | countUsers username email | findUsername invite email role username | findEmail invite email role username =>
    cases hs
    exact .same rfl rfl rfl
  | insertAdmin username email =>
    simp only [State.statement] at hs
    split at hs
    · next hfree =>
        cases hs
        simp only [Bool.and_eq_true, Bool.not_eq_true'] at hfree
        have hadmin : (st.insertUser username email .admin none).hasAdmin = true := h.insertUser_admin (.inr rfl)
        refine ⟨rfl, fun _ => hadmin, .inr ⟨rfl, hadmin, ?_⟩⟩
        rcases hcareful hfree.1 with htaken | hfirst
        · rw [hfree.2] at htaken
          cases htaken
        · exact hfirst
    · cases hs
      exact .same rfl rfl rfl
  | findInvite token username =>
    simp only [State.statement] at hs
    cases hrow : st.invites.rows.find? fun row => row.2.token = token && !row.2.redeemed with
    | none | some row =>
      simp only [hrow, some.injEq] at hs
      subst hs
      exact .same rfl rfl rfl
  | insertUser invite email role username =>
    simp only [State.statement] at hs
    split at hs
    · cases hs
      exact ⟨rfl, fun hadmin => h.insertUser_admin (.inl hadmin), .inl rfl⟩
    · cases hs
      exact .same rfl rfl rfl
  | promote account invite username email =>
    simp only [State.statement] at hs
    split at hs
    · cases hs
      exact ⟨rfl, updateUser_admin fun _ => .inl rfl, .inl rfl⟩
    · cases hs
      exact .same rfl rfl rfl
  | redeem account invite =>
    simp only [State.statement] at hs
    split at hs
    · split at hs
      · cases hs
        exact .same rfl rfl rfl
      · cases hs
        exact .same rfl rfl rfl
    · cases hs
      exact .same rfl rfl rfl
  | session account =>
    cases hs
    split
    · exact .same rfl rfl rfl
    · exact .same rfl rfl rfl
  | findUser account undo =>
    simp only [State.statement] at hs
    cases hu : st.users.get? account with
    | none =>
      simp only [hu, some.injEq] at hs
      subst hs
      exact (Rules.refl st).endDelete account k undo
    | some u =>
      simp only [hu, some.injEq] at hs
      subst hs
      split
      · exact .same rfl rfl rfl
      · exact (Rules.refl st).endDelete account k undo
  | countAdmins account undo =>
    cases hs
    split
    · exact .same rfl rfl rfl
    · exact (Rules.refl st).endDelete account k undo
  | deleteUser account undo =>
    cases hs
    split
    · next hdone =>
        have herase : Rules st (st.eraseUser account) := ⟨rfl, eraseUser_admin (hcareful.2 hdone), .inl rfl⟩
        exact herase.endDelete account k undo
    · exact (Rules.refl st).endDelete account k undo
  | findTarget requester account email role =>
    simp only [State.statement] at hs
    cases hu : st.users.get? account with
    | none | some u =>
      simp only [hu, some.injEq] at hs
      subst hs
      exact .same rfl rfl rfl
  | update account username email role =>
    cases hs
    split
    · next hdone => exact ⟨rfl, updateUser_admin (hcareful hdone), .inl rfl⟩
    · exact .same rfl rfl rfl
  | ended => cases hs

/-- The invariant, and who governs. -/
structure Good (st : State) : Prop where
  inv : st.Inv
  setups : st.setups ≤ 1
  setup : 0 < st.setups → st.hadAdmin = true
  admin : st.hadAdmin = true → st.hasAdmin = true

theorem Good.obeys (h : st.Good) (hrules : Rules st st') (hinv : st'.Inv) :
    Good { st' with hadAdmin := st'.hadAdmin || st'.hasAdmin } := by
  have hinv' : Inv { st' with hadAdmin := st'.hadAdmin || st'.hasAdmin } :=
    ⟨hinv.users, hinv.made, hinv.redeems, hinv.covered, hinv.once, hinv.marked, hinv.failed⟩
  have hadmin : st'.hadAdmin = true → st'.hasAdmin = true := by
    rw [hrules.hadAdmin]
    exact fun had => hrules.admin (h.admin had)
  have hhas : (st'.hadAdmin || st'.hasAdmin) = true → st'.hasAdmin = true := by
    rw [Bool.or_eq_true]
    exact fun had => had.elim hadmin id
  refine ⟨hinv', ?_, fun hpos => ?_, hhas⟩
  · rcases hrules.setups with heq | ⟨heq, -, hfirst⟩
    · exact heq.symm ▸ h.setups
    show st'.setups ≤ 1
    rcases hfirst with hempty | hzero
    · have hnone : st.hasAdmin = false := by
        have hrows : st.users.rows = [] := List.isEmpty_iff.mp hempty
        simp [hasAdmin, Table.any, hrows]
      have hzero : ¬ 0 < st.setups := fun hpos => by
        have hsome := h.admin (h.setup hpos)
        rw [hnone] at hsome
        cases hsome
      omega
    · omega
  · rw [Bool.or_eq_true]
    rcases hrules.setups with heq | ⟨-, hhas', -⟩
    · refine .inl (hrules.hadAdmin.trans (h.setup ?_))
      rw [← heq]
      exact hpos
    · exact .inr hhas'

theorem Good.step (h : st.Good) {a : Action} (hcareful : st.Careful a) (hs : st.step a = some st') : st'.Good := by
  obtain ⟨mid, hmid, rfl⟩ := map_eq_some_iff.mp hs
  refine h.obeys ?_ (h.inv.act hcareful hmid)
  cases a with
  | completeSetup username email | redeemInvite token username =>
    cases hmid
    exact .same rfl rfl rfl
  | deleteUser requester account | updateUser requester account email role =>
    obtain ⟨-, hmid⟩ := ite_none_right_eq_some.mp hmid
    cases hmid
    exact .same rfl rfl rfl
  | statement k done now =>
    obtain ⟨c, hc, hmid⟩ := bind_eq_some_iff.mp hmid
    exact h.inv.rules (hcareful c hc) hmid

theorem Start.good (h : st.Start) : st.Good where
  inv := h.inv
  setups := by
    rw [h.setups]
    omega
  setup hpos := by
    rw [h.setups] at hpos
    cases hpos
  admin had := h.hadAdmin ▸ had

theorem Good.sound (h : st.Good) : st.Sound where
  setups := h.setups
  invites hover id id' u u' i hu hu' hi hi' := by
    have hjoined : ∀ id u, st.users.get? id = some u → u.invite = some i → (i, id) ∈ st.joined := by
      intro id u hu hi
      rcases h.inv.covered id u i hu hi with hj | ⟨c, hc, hid⟩
      · exact hj
      · rw [hover c hc] at hid
        cases hid
    exact h.inv.once i id id' (hjoined id u hu hi) (hjoined id' u' hu' hi')
  failed id hid := (h.inv.failed id hid).2
  admin := h.admin

/-- The accounts are sound after every run of careful statements. -/
theorem sound_of_careful {acts : List Action} (hstart : st.Start) (hcareful : Runs.Meets step Careful acts st)
    (hrun : Runs.run step acts st = some st') : st'.Sound :=
  (Runs.keeps (fun _ _ _ hgood hallowed hs => hgood.step hallowed hs) hstart.good hcareful hrun).sound

def blank : State := ⟨.empty, .empty, 0, [], 0, [], [], false⟩

/-- Two admins, and an invite of the first. -/
def twoAdmins : State :=
  ⟨(Table.empty.put 0 ⟨"ada", "", .admin, none⟩).put 1 ⟨"bea", "", .admin, none⟩,
    Table.empty.put 0 ⟨"token", "", .user, 0, 100, false⟩, 2, [], 0, [], [], true⟩

theorem start_twoAdmins : twoAdmins.Start := by
  refine ⟨fun id u hu => ?_, rfl, rfl, rfl, rfl, rfl⟩
  simp only [twoAdmins, get?_put] at hu
  split at hu
  · next heq =>
      cases hu
      exact ⟨heq ▸ by decide, rfl⟩
  · split at hu
    · next heq =>
        cases hu
        exact ⟨heq ▸ by decide, rfl⟩
    · cases hu

/-- Two redemptions of one invite up to the point where the second has lost; the first ends. -/
def lostRace : List Action :=
  [.redeemInvite "token" "cleo", .redeemInvite "token" "dora", .statement 0 true 0, .statement 1 true 0, .statement 0 true 0,
    .statement 1 true 0, .statement 0 true 0, .statement 1 true 0, .statement 0 true 0, .statement 1 true 0, .statement 0 true 0]

/-- One of the redemptions is undone, and one of the admins demotes the other. -/
def undone : List Action :=
  lostRace ++ [.statement 1 true 0, .statement 1 true 0, .updateUser 0 1 none (some .user), .statement 2 true 0,
    .statement 2 true 0]

theorem undone_sound : ∃ st, Runs.run step undone twoAdmins = some st ∧ st.users.rows.length = 3 ∧ st.failed = [3] ∧ st.Sound := by
  have hcareful : Runs.Meets step Careful undone twoAdmins := by decide +kernel
  exact ⟨_, rfl, by decide +kernel, by decide +kernel, sound_of_careful start_twoAdmins hcareful rfl⟩

/-- Two setups that overlap; two admins who demote each other; an account that is not deleted again. -/
theorem overlapping_unsound :
    (∃ st, Runs.run step [.completeSetup "ada" "", .completeSetup "bea" "", .statement 0 true 0, .statement 1 true 0,
      .statement 0 true 0, .statement 1 true 0] blank = some st ∧ st.setups = 2) ∧
    (∃ st, Runs.run step [.updateUser 0 1 none (some .user), .updateUser 1 0 none (some .user), .statement 0 true 0,
      .statement 1 true 0, .statement 0 true 0, .statement 1 true 0] twoAdmins = some st ∧
        st.hadAdmin = true ∧ st.hasAdmin = false) ∧
    ∃ st, Runs.run step (lostRace ++ [.statement 1 false 0]) twoAdmins = some st ∧ (∀ c ∈ st.calls, c = .ended) ∧
      st.failed = [3] ∧ (st.users.get? 2).bind User.invite = some 0 ∧ (st.users.get? 3).bind User.invite = some 0 :=
  ⟨⟨_, rfl, by decide +kernel⟩, ⟨_, rfl, by decide +kernel⟩, ⟨_, rfl, by decide +kernel⟩⟩

end State

end LibreServ.Accounts
