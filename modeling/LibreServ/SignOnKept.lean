import LibreServ.SignOn

/-! Tokens stay with the client and the session they were issued for, as long as no token goes back to the code flow, a
refresh token is only used before it expires and only if it has no audience, and a session is only ended while each of
its refresh tokens has its access token. -/

namespace LibreServ.SignOn

open List Option Table

variable {rtID : String} {request : TokenRequest} {now : Int}

/-- A token has the client, the subject and the audience it goes back to. -/
def Carries (origin : Option Origin) (applicationID subject : String) (audience : List String) : Prop :=
  ∀ o ∈ origin, applicationID = o.clientID ∧ subject = o.subject ∧ audience = o.audience

namespace State

variable {st st' : State} {id : String}

/-- What should be so of every state. -/
structure Stays (st : State) : Prop where
  tokens : ∀ id t, st.tokens.get? id = some t → Carries t.origin t.applicationID t.subject t.audience
  refreshTokens : ∀ id rt, st.refreshTokens.get? id = some rt → Carries rt.origin rt.applicationID rt.userID rt.audience
  revokeToken : ∀ id t o, st.tokens.get? id = some t → t.origin = some o →
    ∃ st', st.revokeToken id o.clientID = some st' ∧ st'.tokens.get? id = none
  revokeRefreshToken : ∀ id rt o, st.refreshTokens.get? id = some rt → rt.origin = some o →
    ∃ st', st.revokeToken id o.clientID = some st' ∧ st'.refreshTokens.get? id = none ∧
      st'.tokens.get? rt.accessTokenID = none
  codes : ∀ code req, st.authRequestByCode code = .ok req → ∃ r, req = some r ∧ st.authRequests.get? r.id = some r

/-- Of that user's requests of that client. -/
def OfSession (userID clientID : String) (origin : Option Origin) : Prop :=
  ∃ o ∈ origin, o.clientID = clientID ∧ o.subject = userID

instance (userID clientID : String) (origin : Option Origin) : Decidable (OfSession userID clientID origin) :=
  inferInstanceAs (Decidable (∃ o ∈ origin, _))

/-- What a call should have done. -/
def Done (st : State) (a : Action) (st' : State) : Prop :=
  match a with
  | .terminateSession userID clientID =>
    (∀ id t, st'.tokens.get? id = some t → ¬ OfSession userID clientID t.origin) ∧
      ∀ id rt, st'.refreshTokens.get? id = some rt → ¬ OfSession userID clientID rt.origin
  | .createAccessAndRefreshTokens _ _ (.refresh _) current now =>
    current ∉ st.gone ∧ ∀ rt ∈ st.refreshTokens.get? current, now ≤ rt.expiration
  | _ => True

/-- The calls under which tokens stay. -/
def Careful (st : State) : Action → Prop
  | .saveAuthCode id _ => (st.authRequests.get? id).isSome = true
  | .createAccessAndRefreshTokens _ _ (.auth req) _ _ => req.id = req.clientID
  | .createAccessAndRefreshTokens _ _ (.refresh _) current now =>
    ∀ rt ∈ st.refreshTokens.get? current, rt.audience = [] ∧ now ≤ rt.expiration
  | .terminateSession userID clientID => ∀ row ∈ st.refreshTokens.rows, OfSession userID clientID row.2.origin →
      ∃ t ∈ st.tokens.get? row.2.accessTokenID, t.refreshTokenID = row.1
  | _ => True

instance : ∀ (st : State) (a : Action), Decidable (st.Careful a)
  | st, .saveAuthCode id _ => inferInstanceAs (Decidable ((st.authRequests.get? id).isSome = true))
  | _, .createAccessAndRefreshTokens _ _ (.auth req) _ _ => inferInstanceAs (Decidable (req.id = req.clientID))
  | st, .createAccessAndRefreshTokens _ _ (.refresh _) current now =>
    inferInstanceAs (Decidable (∀ rt ∈ st.refreshTokens.get? current, rt.audience = [] ∧ now ≤ rt.expiration))
  | st, .terminateSession userID clientID =>
    inferInstanceAs (Decidable (∀ row ∈ st.refreshTokens.rows, OfSession userID clientID row.2.origin → _))
  | _, .createAccessAndRefreshTokens _ _ (.exchange ..) _ _ | _, .createAccessAndRefreshTokens _ _ (.other ..) _ _
  | _, .createAuthRequest .. | _, .deleteAuthRequest _ | _, .createAccessToken .. | _, .tokenRequestByRefreshToken _
  | _, .revokeToken .. => .isTrue trivial

/-! ### The invariant -/

structure Inv (st : State) : Prop where
  tokens : ∀ id t, st.tokens.get? id = some t → Carries t.origin t.applicationID t.subject t.audience ∧ id ∈ st.used
  refreshTokens : ∀ id rt, st.refreshTokens.get? id = some rt →
    Carries rt.origin rt.applicationID rt.userID rt.audience ∧ id ∈ st.used ∧ rt.accessTokenID ∈ st.used
  /-- A refresh token and its access token go back to the same request. -/
  pair : ∀ id rt t, st.refreshTokens.get? id = some rt → st.tokens.get? rt.accessTokenID = some t → t.origin = rt.origin
  apart : ∀ id t, st.tokens.get? id = some t → st.refreshTokens.get? id = none
  held : ∀ id req, (id, req) ∈ st.held → id ∈ st.used ∧ ∀ rt, st.refreshTokens.get? id = some rt →
    req.applicationID = rt.applicationID ∧ req.userID = rt.userID ∧ req.origin = rt.origin
  gone : ∀ id ∈ st.gone, id ∈ st.used ∧ st.refreshTokens.get? id = none
  blank : "" ∉ st.used
  requests : ∀ id r, st.authRequests.get? id = some r → r.id = id
  codes : ∀ code id, st.codes.get? code = some id → (st.authRequests.get? id).isSome = true

theorem inv_initial : initial.Inv where
  tokens _ _ h := nomatch h
  refreshTokens _ _ h := nomatch h
  pair _ _ _ h := nomatch h
  apart _ _ h := nomatch h
  held _ _ h := nomatch h
  gone _ h := nomatch h
  blank h := nomatch h
  requests _ _ h := nomatch h
  codes _ _ h := nomatch h

section

variable (h : st.Inv)

include h

/-- Tokens may go. -/
theorem Inv.shrink {tokens : Table String Token} {refreshTokens : Table String RefreshToken} {gone : List String}
    (ht : ∀ id t, tokens.get? id = some t → st.tokens.get? id = some t)
    (hr : ∀ id rt, refreshTokens.get? id = some rt → st.refreshTokens.get? id = some rt)
    (hgone : ∀ id ∈ gone, id ∈ st.used ∧ refreshTokens.get? id = none) :
    Inv { st with tokens := tokens, refreshTokens := refreshTokens, gone := gone } := by
  refine ⟨fun id t hid => h.tokens id t (ht id t hid), fun id rt hid => h.refreshTokens id rt (hr id rt hid),
    fun id rt t hid htid => h.pair id rt t (hr id rt hid) (ht _ t htid), fun id t hid => ?_, fun id req hmem => ?_, hgone, h.blank,
    h.requests, h.codes⟩
  · have hnone := h.apart id t (ht id t hid)
    cases hrt : refreshTokens.get? id with
    | none => rfl
    | some rt =>
      rw [hr id rt hrt] at hnone
      cases hnone
  · obtain ⟨hused, hsame⟩ := h.held id req hmem
    exact ⟨hused, fun rt hrt => hsame rt (hr id rt hrt)⟩

/-- Another id is used. -/
theorem Inv.addUsed (hblank : id ≠ "") : Inv { st with used := id :: st.used } := by
  have hused : ∀ {id'}, id' ∈ st.used → id' ∈ id :: st.used := mem_cons_of_mem _
  refine ⟨fun id' t hid => ?_, fun id' rt hid => ?_, h.pair, h.apart, fun id' req hmem => ?_, fun id' hmem => ?_, fun hmem => ?_,
    h.requests, h.codes⟩
  · obtain ⟨hc, hu⟩ := h.tokens id' t hid
    exact ⟨hc, hused hu⟩
  · obtain ⟨hc, hu, hu'⟩ := h.refreshTokens id' rt hid
    exact ⟨hc, hused hu, hused hu'⟩
  · obtain ⟨hu, hsame⟩ := h.held id' req hmem
    exact ⟨hused hu, hsame⟩
  · obtain ⟨hu, hnone⟩ := h.gone id' hmem
    exact ⟨hused hu, hnone⟩
  · rcases mem_cons.mp hmem with heq | hmem
    · exact hblank heq.symm
    · exact h.blank hmem

theorem Inv.createAccessToken {applicationID refreshTokenID : String}
    (hfresh : st.Fresh id) (hcarries : Carries request.origin applicationID request.subject request.audience) :
    (st.createAccessToken id applicationID refreshTokenID request now).Inv := by
  obtain ⟨hnew, hblank⟩ := hfresh
  have hne : ∀ {id'}, id' ∈ st.used → id' ≠ id := fun hmem heq => hnew (heq ▸ hmem)
  have h' := h.addUsed hblank
  refine ⟨fun id' t hid => ?_, h'.refreshTokens, fun id' rt t hid htid => ?_, fun id' t hid => ?_, h'.held, h'.gone, h'.blank,
    h.requests, h.codes⟩
  · rcases get?_put_some.mp hid with ⟨rfl, rfl⟩ | ⟨-, hid⟩
    · exact ⟨hcarries, mem_cons_self⟩
    · exact h'.tokens id' t hid
  · rcases get?_put_some.mp htid with ⟨heq, -⟩ | ⟨-, htid⟩
    · exact absurd heq (hne (h.refreshTokens id' rt hid).2.2)
    · exact h.pair id' rt t hid htid
  · rcases get?_put_some.mp hid with ⟨heq, -⟩ | ⟨-, hid⟩
    · cases hrt : st.refreshTokens.get? id' with
      | none => exact hrt
      | some rt => exact absurd heq (hne (h.refreshTokens id' rt hrt).2.1)
    · exact h.apart id' t hid

theorem Inv.putRefreshToken {amr : List String} {authTime : Int}
    (hfresh : st.Fresh rtID) (hcarries : Carries request.origin request.clientOfBoth request.subject request.audience)
    (haccess : id ∈ st.used) (horigin : ∀ t, st.tokens.get? id = some t → t.origin = request.origin) :
    (st.putRefreshToken rtID id request amr authTime now).Inv := by
  obtain ⟨hnew, hblank⟩ := hfresh
  have h' := h.addUsed hblank
  have hput : ∀ {id'} (rt : RefreshToken), id' ∈ st.used →
      (st.refreshTokens.put rtID rt).get? id' = st.refreshTokens.get? id' :=
    fun _ hmem => get?_put_of_ne _ _ fun heq => hnew (heq ▸ hmem)
  refine ⟨h'.tokens, fun id' rt hid => ?_, fun id' rt t hid htid => ?_, fun id' t hid => ?_, fun id' req hmem => ?_,
    fun id' hmem => ?_, h'.blank, h.requests, h.codes⟩
  · rcases get?_put_some.mp hid with ⟨rfl, rfl⟩ | ⟨-, hid⟩
    · exact ⟨hcarries, mem_cons_self, mem_cons_of_mem _ haccess⟩
    · exact h'.refreshTokens id' rt hid
  · rcases get?_put_some.mp hid with ⟨-, rfl⟩ | ⟨-, hid⟩
    · exact horigin t htid
    · exact h.pair id' rt t hid htid
  · exact (hput _ (h.tokens id' t hid).2).trans (h.apart id' t hid)
  · obtain ⟨hu, hsame⟩ := h.held id' req hmem
    exact ⟨mem_cons_of_mem _ hu, fun rt hrt => hsame rt ((hput _ hu).symm.trans hrt)⟩
  · obtain ⟨hu, hnone⟩ := h.gone id' hmem
    exact ⟨mem_cons_of_mem _ hu, (hput _ hu).trans hnone⟩

theorem Inv.dropRefreshToken {rt : RefreshToken} (hrt : st.refreshTokens.get? rtID = some rt) :
    (st.dropRefreshToken rtID rt).Inv := by
  refine h.shrink (fun id t hid => ?_) (fun id rt' hid => ?_) fun id hmem => ?_
  · split at hid
    · exact (get?_erase_some.mp hid).2
    · exact hid
  · exact (get?_erase_some.mp hid).2
  · rw [get?_erase]
    rcases mem_cons.mp hmem with rfl | hmem
    · exact ⟨(h.refreshTokens id rt hrt).2.1, if_pos rfl⟩
    · obtain ⟨hu, hnone⟩ := h.gone id hmem
      refine ⟨hu, ?_⟩
      split
      · rfl
      · exact hnone

/-- The auth requests and the codes are nothing to the tokens. -/
theorem Inv.setRequests {authRequests : Table String AuthRequest} {codes : Table String String}
    {made : List AuthRequest} (hrequests : ∀ id r, authRequests.get? id = some r → r.id = id)
    (hcodes : ∀ code id, codes.get? code = some id → (authRequests.get? id).isSome = true) :
    Inv { st with authRequests := authRequests, codes := codes, made := made } :=
  ⟨h.tokens, h.refreshTokens, h.pair, h.apart, h.held, h.gone, h.blank, hrequests, hcodes⟩

end

theorem keep_some {κ ν : Type} [DecidableEq κ] {table : Table κ ν} {p : κ → ν → Bool} {k : κ} {v : ν}
    (h : (table.keep p).get? k = some v) : table.get? k = some v ∧ p k v = true := by
  rw [Table.get?_keep] at h
  exact filter_eq_some_iff.mp h

/-! ### The steps -/

/-- A pair of new tokens that both carry what they go back to. -/
theorem Inv.issue (h : st.Inv) {refreshTokenID : String} (request : TokenRequest) {amr : List String}
    {authTime : Int} (hid : st.Fresh id) (hrt : st.Fresh rtID) (hne : id ≠ rtID)
    (hcarries : Carries request.origin request.clientOfBoth request.subject request.audience) :
    ((st.createAccessToken id request.clientOfBoth refreshTokenID request now).putRefreshToken rtID id request amr authTime
      now).Inv := by
  have hfresh : (st.createAccessToken id request.clientOfBoth refreshTokenID request now).Fresh rtID := by
    refine ⟨fun hmem => ?_, hrt.2⟩
    rcases mem_cons.mp hmem with heq | hmem
    · exact hne heq.symm
    · exact hrt.1 hmem
  refine (h.createAccessToken hid hcarries).putRefreshToken hfresh hcarries mem_cons_self fun t ht => ?_
  simp only [State.createAccessToken, get?_put_self, some.injEq] at ht
  rw [← ht]

theorem Inv.createAccessAndRefreshTokens (h : st.Inv) {current : String}
    (hid : st.Fresh id) (hrt : st.Fresh rtID) (hne : id ≠ rtID) (hhanded : st.Handed request current)
    (hcareful : st.Careful (.createAccessAndRefreshTokens id rtID request current now))
    (hs : st.createAccessAndRefreshTokens id rtID request current now = some st') : st'.Inv := by
  cases request with
  | exchange clientID subject audience scopes =>
    cases hs
    apply h.issue (.exchange clientID subject audience scopes) hid hrt hne
    rintro o ⟨⟩
    exact ⟨rfl, rfl, rfl⟩
  | auth req =>
    obtain ⟨-, rfl⟩ := hhanded
    cases hs
    apply h.issue (.auth req) hid hrt hne
    rintro o ⟨⟩
    exact ⟨hcareful, rfl, rfl⟩
  | other subject audience scopes =>
    obtain rfl : current = "" := hhanded
    cases hs
    apply h.issue (.other subject audience scopes) hid hrt hne
    rintro o ⟨⟩
  | refresh req =>
    obtain ⟨hused, hsame⟩ := h.held current req hhanded
    have hblank : current ≠ "" := fun heq => h.blank (heq ▸ hused)
    simp only [State.createAccessAndRefreshTokens, if_neg hblank] at hs
    obtain ⟨rt, hget, rfl⟩ := map_eq_some_iff.mp hs
    obtain ⟨happ, huser, horigin⟩ := hsame rt hget
    obtain ⟨hnil, -⟩ := hcareful rt hget
    obtain ⟨hcarries, -⟩ := h.refreshTokens current rt hget
    refine (h.dropRefreshToken hget).issue (.refresh req) hid hrt hne fun o ho => ?_
    obtain ⟨h1, h2, h3⟩ := hcarries o (horigin ▸ ho)
    exact ⟨happ.trans h1, huser.trans h2, hnil.symm.trans h3⟩

theorem Inv.step (h : st.Inv) {a : Action} (hcareful : st.Careful a) (hs : st.step a = some st') : st'.Inv := by
  cases a with
  | createAuthRequest id clientID subject scopes now =>
    obtain ⟨⟨-, hblank⟩, hs⟩ := ite_none_right_eq_some.mp hs
    cases hs
    refine (h.addUsed hblank).setRequests (fun id' r hr => ?_) fun code id' hcode => ?_
    · rcases get?_put_some.mp hr with ⟨heq, rfl⟩ | ⟨-, hr⟩
      · exact heq.symm
      · exact h.requests id' r hr
    · rw [get?_put]
      split
      · rfl
      · exact h.codes code id' hcode
  | saveAuthCode id code =>
    cases hs
    refine h.setRequests h.requests fun code' id' hcode => ?_
    rcases get?_put_some.mp hcode with ⟨-, rfl⟩ | ⟨-, hcode⟩
    · exact hcareful
    · exact h.codes code' id' hcode
  | deleteAuthRequest id =>
    cases hs
    refine h.setRequests (fun id' r hr => ?_) fun code id' hcode => ?_
    · obtain ⟨-, hr⟩ := get?_erase_some.mp hr
      exact h.requests id' r hr
    · obtain ⟨hcode, hne⟩ := keep_some hcode
      rw [get?_erase, if_neg (by simpa using hne)]
      exact h.codes code id' hcode
  | createAccessToken id request now =>
    obtain ⟨⟨hfresh, hhanded⟩, hs⟩ := ite_none_right_eq_some.mp hs
    cases hs
    apply h.createAccessToken hfresh
    cases request with
    | auth req | exchange clientID subject audience scopes =>
      rintro o ⟨⟩
      exact ⟨rfl, rfl, rfl⟩
    | refresh req => exact absurd (h.held "" req hhanded).1 h.blank
    | other subject audience scopes => rintro o ⟨⟩
  | createAccessAndRefreshTokens id rtID request current now =>
    obtain ⟨⟨hid, hrt, hne, hhanded⟩, hs⟩ := ite_none_right_eq_some.mp hs
    exact h.createAccessAndRefreshTokens hid hrt hne hhanded hcareful hs
  | tokenRequestByRefreshToken refreshToken =>
    obtain ⟨req, hreq, rfl⟩ := map_eq_some_iff.mp hs
    obtain ⟨rt, hrt, rfl⟩ := map_eq_some_iff.mp hreq
    refine ⟨h.tokens, h.refreshTokens, h.pair, h.apart, fun id req hmem => ?_, h.gone, h.blank, h.requests, h.codes⟩
    rcases mem_cons.mp hmem with heq | hmem
    · cases heq
      refine ⟨(h.refreshTokens refreshToken rt hrt).2.1, fun rt' hrt' => ?_⟩
      obtain rfl : rt = rt' := some.inj (hrt.symm.trans hrt')
      exact ⟨rfl, rfl, rfl⟩
    · exact h.held id req hmem
  | terminateSession userID clientID =>
    cases hs
    refine h.shrink (fun id t hid => (keep_some hid).1) (fun id rt hid => (keep_some hid).1) fun id hmem => ?_
    obtain ⟨hu, hnone⟩ := h.gone id hmem
    refine ⟨hu, ?_⟩
    rw [Table.get?_keep, hnone]
    rfl
  | revokeToken tokenOrTokenID clientID =>
    simp only [State.step, State.revokeToken] at hs
    cases htoken : st.tokens.get? tokenOrTokenID with
    | some t =>
      simp only [htoken] at hs
      obtain ⟨-, hs⟩ := ite_none_left_eq_some.mp hs
      cases hs
      exact h.shrink (fun id t hid => (keep_some hid).1) (fun _ _ hid => hid) h.gone
    | none =>
      simp only [htoken] at hs
      cases hrt : st.refreshTokens.get? tokenOrTokenID with
      | some rt =>
        simp only [hrt] at hs
        obtain ⟨-, hs⟩ := ite_none_left_eq_some.mp hs
        cases hs
        exact h.dropRefreshToken hrt
      | none =>
        simp only [hrt] at hs
        cases hs
        exact h

/-! ### What should be so -/

theorem Inv.stays (h : st.Inv) : st.Stays := by
  refine ⟨fun id t hid => (h.tokens id t hid).1, fun id rt hid => (h.refreshTokens id rt hid).1, fun id t o hid ho => ?_,
    fun id rt o hid ho => ?_, fun code req hcode => ?_⟩
  · obtain ⟨happ, -⟩ := (h.tokens id t hid).1 o ho
    refine ⟨{ st with tokens := st.tokens.erase id }, ?_, ?_⟩
    · simp [State.revokeToken, hid, happ]
    · rw [get?_erase, if_pos rfl]
  · obtain ⟨hcarries, -, hused⟩ := h.refreshTokens id rt hid
    obtain ⟨happ, -⟩ := hcarries o ho
    have hnone : st.tokens.get? id = none := by
      cases ht : st.tokens.get? id with
      | none => rfl
      | some t =>
        rw [h.apart id t ht] at hid
        cases hid
    have hblank : rt.accessTokenID ≠ "" := fun heq => h.blank (heq ▸ hused)
    refine ⟨st.dropRefreshToken id rt, ?_, ?_, ?_⟩
    · simp [State.revokeToken, hid, hnone, happ]
    · rw [State.dropRefreshToken, get?_erase, if_pos rfl]
    · simp [State.dropRefreshToken, hblank]
  · simp only [State.authRequestByCode] at hcode
    split at hcode
    · next requestID hid =>
        obtain ⟨r, hr⟩ := isSome_iff_exists.mp (h.codes code requestID hid)
        cases hcode
        refine ⟨r, hr, ?_⟩
        rw [h.requests requestID r hr]
        exact hr
    · cases hcode

/-- A session that is ended leaves no token of it. -/
theorem Inv.terminateSession (h : st.Inv) {userID clientID : String}
    (hcareful : st.Careful (.terminateSession userID clientID)) :
    st.Done (.terminateSession userID clientID) (st.terminateSession userID clientID) := by
  have hsession : ∀ id t, st.tokens.get? id = some t → OfSession userID clientID t.origin →
      inSession userID clientID t = true := by
    rintro id t hid ⟨o, ho, rfl, rfl⟩
    obtain ⟨happ, hsubject, -⟩ := (h.tokens id t hid).1 o ho
    simp [inSession, happ, hsubject]
  refine ⟨fun id t hid hof => ?_, fun id rt hid hof => ?_⟩
  · obtain ⟨hid, hout⟩ := keep_some hid
    rw [hsession id t hid hof] at hout
    cases hout
  · obtain ⟨hid, hout⟩ := keep_some hid
    obtain ⟨t, ht, hnames⟩ := hcareful (id, rt) (mem_rows.mpr hid) hof
    have horigin := h.pair id rt t hid ht
    have hin := hsession _ t ht (horigin ▸ hof)
    have hblank : id ≠ "" := fun heq => h.blank (heq ▸ (h.refreshTokens id rt hid).2.1)
    have hany : (st.tokens.any fun _ token =>
        inSession userID clientID token && token.refreshTokenID ≠ "" && token.refreshTokenID = id) = true := by
      apply any_iff.mpr
      refine ⟨rt.accessTokenID, t, ht, ?_⟩
      simp [hin, hnames, hblank]
    rw [hany] at hout
    cases hout

theorem Inv.done (h : st.Inv) {a : Action} (hcareful : st.Careful a) (hs : st.step a = some st') : st.Done a st' := by
  cases a with
  | terminateSession userID clientID =>
    cases hs
    exact h.terminateSession hcareful
  | createAccessAndRefreshTokens id rtID request current now =>
    obtain ⟨⟨-, -, -, hhanded⟩, hs⟩ := ite_none_right_eq_some.mp hs
    cases request with
    | refresh req =>
      obtain ⟨hused, -⟩ := h.held current req hhanded
      have hblank : current ≠ "" := fun heq => h.blank (heq ▸ hused)
      simp only [State.createAccessAndRefreshTokens, if_neg hblank] at hs
      obtain ⟨rt, hget, -⟩ := map_eq_some_iff.mp hs
      refine ⟨fun hmem => ?_, fun rt hrt => (hcareful rt hrt).2⟩
      rw [(h.gone current hmem).2] at hget
      cases hget
    | auth req | exchange clientID subject audience scopes | other subject audience scopes => exact trivial
  | createAuthRequest | saveAuthCode | deleteAuthRequest | createAccessToken | tokenRequestByRefreshToken | revokeToken =>
    exact trivial

/-- In every state that careful calls reach, tokens stay where they belong, and the next careful call does what it
should. -/
theorem stays_of_careful (acts : List Action) (st : State) (hrun : Runs.run step acts initial = some st)
    (hcareful : Runs.Meets step Careful acts initial) :
    st.Stays ∧ ∀ a st', st.Careful a → st.step a = some st' → st.Done a st' := by
  have hinv := Runs.keeps (fun _ _ _ h hc hs => Inv.step h hc hs) inv_initial hcareful hrun
  exact ⟨hinv.stays, fun a st' hc hs => hinv.done hc hs⟩

/-- A code that is exchanged for an access token alone, and a token exchange whose refresh token is used once. -/
def exchanged : List Action :=
  [.createAuthRequest "r1" "app" "user" [] 0, .saveAuthCode "r1" "code",
    .createAccessToken "t1" (.auth ⟨"r1", "app", "user", ["app"], [], 0⟩) 0, .deleteAuthRequest "r1",
    .createAccessAndRefreshTokens "t2" "f2" (.exchange "app" "user" [] []) "" 0, .tokenRequestByRefreshToken "f2",
    .createAccessAndRefreshTokens "t3" "f3" (.refresh ⟨"app", "user", [], 0, [], some ⟨"app", "user", []⟩⟩) "f2" 1]

theorem exchanged_stays : ∃ st, Runs.run step exchanged initial = some st ∧ st.Stays ∧
    st.Done (.terminateSession "user" "app") (st.terminateSession "user" "app") ∧ st.tokens.keys = ["t1", "t3"] ∧
    st.refreshTokens.keys = ["f3"] := by
  have hrun : ∃ st, Runs.run step exchanged initial = some st ∧ st.Careful (.terminateSession "user" "app") ∧
      st.tokens.keys = ["t1", "t3"] ∧ st.refreshTokens.keys = ["f3"] := ⟨_, rfl, by decide +kernel⟩
  obtain ⟨st, hst, hcareful, hkeys⟩ := hrun
  obtain ⟨hstays, hdone⟩ := stays_of_careful exchanged st hst (by decide +kernel)
  exact ⟨st, hst, hstays, hdone (.terminateSession "user" "app") (st.terminateSession "user" "app") hcareful rfl, hkeys⟩

/-- A code that is exchanged for both tokens. -/
def codeFlow : List Action :=
  [.createAuthRequest "r1" "app" "user" ["offline_access"] 0, .saveAuthCode "r1" "code",
    .createAccessAndRefreshTokens "t1" "f1" (.auth ⟨"r1", "app", "user", ["app"], ["offline_access"], 0⟩) "" 0,
    .deleteAuthRequest "r1"]

/-- Its tokens have the id of the request for a client: the session outlives its end, and the client cannot revoke the
tokens. Used once, and the audience is gone; and a refresh token is still good a year after. -/
theorem code_flow_not_stays :
    (∃ st, Runs.run step codeFlow initial = some st ∧ ¬ st.Stays ∧ st.revokeToken "f1" "app" = none ∧
      (st.terminateSession "user" "app").refreshTokens.keys = ["f1"]) ∧
    ∃ st, Runs.run step (codeFlow ++ [.tokenRequestByRefreshToken "f1",
        .createAccessAndRefreshTokens "t2" "f2" (.refresh ⟨"r1", "user", [], 0, ["offline_access"], some ⟨"app", "user", ["app"]⟩⟩)
          "f1" (365 * 24 * hour)]) initial = some st ∧
      st.tokens.rows.map (fun row => row.2.audience) = [[]] := by
  refine ⟨⟨_, rfl, fun h => ?_, by decide +kernel⟩, ⟨_, rfl, by decide +kernel⟩⟩
  have hcarries := h.tokens "t1" ⟨"r1", "f1", "user", ["app"], ["offline_access"], hour, some ⟨"app", "user", ["app"]⟩⟩
    (by decide +kernel) ⟨"app", "user", ["app"]⟩ rfl
  exact absurd hcarries.1 (by decide)

end State

end LibreServ.SignOn
