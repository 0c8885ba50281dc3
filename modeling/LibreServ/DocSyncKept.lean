import LibreServ.DocSync

/-! Opening a file together neither doubles nor blanks it, as long as a client seeds only while nobody has the text, no
reply without text reaches a client without text, and no client that seeded comes back beside others. All the text there
is then comes from one insert. -/

namespace LibreServ.DocSync

open List Option Table World
open Files (Text)

open Collab (Wire ServerEvent ClientMsg Welcome Frame Traffic)

variable {now : Nat}

/-! ### One insert -/

/-- Nothing but the insert `i`, and nothing deleted. -/
def Doc.Only (i : Nat) (d : Doc) : Prop := d.inserts ⊆ {i} ∧ d.deletes = ∅

section Doc

variable {content : Text} {i : Nat} {d update : Doc}

theorem Doc.Only.live (h : d.Only i) : d.live = d.inserts := by
  rw [Doc.live, h.2, Finset.sdiff_empty]

theorem Doc.Only.merge (h : d.Only i) (hu : update.Only i) : (d.merge update).Only i := by
  refine ⟨Finset.union_subset h.1 hu.1, ?_⟩
  show d.deletes ∪ update.deletes = ∅
  rw [h.2, hu.2, Finset.union_empty]

theorem Doc.Only.since (h : d.Only i) (known : Finset Nat) : (d.since known).Only i :=
  ⟨Finset.sdiff_subset.trans h.1, h.2⟩

theorem Doc.isEmpty_iff (hcontent : content ≠ []) : d.isEmpty content = true ↔ d.live = ∅ := by
  rw [Doc.isEmpty, Doc.text, decide_eq_true_eq, length_flatten, map_replicate, sum_replicate_nat,
    Nat.mul_eq_zero, Finset.card_eq_zero, length_eq_zero_iff]
  exact or_iff_left hcontent

theorem Doc.text_of_inserts (h : d.Only i) (hd : d.inserts = {i}) : d.text content = content := by
  rw [Doc.text, h.live, hd]
  simp

theorem Doc.text_of_nil (d : Doc) : d.text [] = [] := by
  simp [Doc.text]

/-- With something in it, it is the one insert. -/
theorem Doc.Only.inserts_eq (h : d.Only i) (hne : d.inserts ≠ ∅) : d.inserts = {i} :=
  (Finset.subset_singleton_iff.mp h.1).resolve_left hne

end Doc

/-- Edits are of the insert `i`, and replies have nothing else. -/
def one (i : Nat) : Traffic Payload where
  up
    | .op payload => payload = .u ⟨{i}, ∅⟩
    | .presence (some (.s2 update)) => update.Only i
    | _ => True
  log
    | .op o => o.payload = .u ⟨{i}, ∅⟩
    | _ => False
  down
    | .op o => o.payload = .u ⟨{i}, ∅⟩
    | .presence _ (some (.s2 update)) => update.Only i
    | _ => True

/-- No text is under way. -/
def textless : Traffic Payload where
  up
    | .op _ => False
    | .presence (some (.s2 update)) => update.inserts = ∅
    | _ => True
  log
    | .op _ => False
    | _ => True
  down
    | .op _ => False
    | .presence _ (some (.s2 update)) => update.inserts = ∅
    | _ => True

theorem one_relays (i : Nat) : (one i).Relays where
  peerJoin := fun _ => trivial
  peerLeave := fun _ => trivial
  presence := by
    intro p cursor h
    rcases cursor with - | (update | known | update)
    · trivial
    · trivial
    · trivial
    · exact h
  op := fun o h => ⟨h, h⟩
  saved := fun _ _ _ => trivial

/-! ### A client's steps -/

/-- What the client shows as the file is the file's text. -/
structure Client.Ok (content : Text) (i : Nat) (c : Client) : Prop where
  only : c.doc.Only i
  pending : ∀ text, c.pendingContent = some text → text = content
  filled : content ≠ [] → c.seeded = true ∨ c.synced = true → c.doc.inserts = {i}

namespace Client

variable {content : Text} {i : Nat} {c : Client} {e : ServerEvent Payload}

theorem Ok.serialize (h : c.Ok content i) (hh : c.hydrated content = true) : c.serialize content = content := by
  by_cases hcontent : content = []
  · subst hcontent
    exact c.doc.text_of_nil
  apply Doc.text_of_inserts h.only
  rw [hydrated, Bool.or_eq_true, Bool.or_eq_true] at hh
  rcases hh with hflags | hne
  · exact h.filled hcontent hflags
  · apply h.only.inserts_eq
    intro hnone
    rw [(Doc.isEmpty_iff hcontent).mpr (h.only.live.trans hnone)] at hne
    cases hne

theorem Ok.card_live (h : c.Ok content i) : c.doc.live.card ≤ 1 := by
  rw [h.only.live]
  exact (Finset.card_le_card h.only.1).trans (Finset.card_singleton i).le

/-- A reply without text does not reach a client without text. -/
def Fed (content : Text) (c : Client) : ServerEvent Payload → Prop
  | .presence _ (some (.s2 update)) => content ≠ [] → update.inserts = ∅ → c.doc.inserts ≠ ∅
  | _ => True

section

variable (h : c.Ok content i)

include h

theorem Ok.merge {update : Doc} (hu : update.Only i) (hfed : content ≠ [] → update.inserts = ∅ → c.doc.inserts ≠ ∅) :
    Ok content i { c with synced := true, doc := c.doc.merge update } where
  only := h.only.merge hu
  pending := h.pending
  filled := by
    intro hcontent _
    apply (h.only.merge hu).inserts_eq
    intro hnone
    obtain ⟨hdoc, hupdate⟩ := Finset.union_eq_empty.mp hnone
    exact hfed hcontent hupdate hdoc

/-- After an event the client is right, has the session it had, and sends what fits. -/
theorem Ok.onMessage (he : (one i).down e) (hfed : c.Fed content e) :
    (c.onMessage e).1.Ok content i ∧ (c.onMessage e).1.session = c.session ∧ ∀ m ∈ (c.onMessage e).2, (one i).up m := by
  have hsame : c.Ok content i ∧ c.session = c.session ∧ ∀ m ∈ ([] : List Msg), (one i).up m :=
    ⟨h, rfl, fun m hm => (nomatch hm)⟩
  unfold Client.onMessage
  split
  · refine ⟨⟨h.only, h.pending, h.filled⟩, rfl, fun m hm => ?_⟩
    dsimp only at hm
    split at hm
    · rw [mem_singleton.mp hm]
      trivial
    · cases hm
  · exact ⟨⟨h.only, h.pending, h.filled⟩, rfl, fun m hm => (nomatch hm)⟩
  · refine ⟨h, rfl, fun m hm => ?_⟩
    rw [mem_singleton.mp hm]
    exact h.only.since _
  · exact ⟨h.merge he hfed, rfl, fun m hm => (nomatch hm)⟩
  · rename_i o
    have ho : o.payload = .u ⟨{i}, ∅⟩ := he
    rw [ho]
    have honly : Doc.Only i ⟨{i}, ∅⟩ := ⟨Finset.Subset.refl _, rfl⟩
    exact ⟨h.merge honly fun _ hnone => absurd hnone (Finset.singleton_ne_empty i), rfl, fun m hm => (nomatch hm)⟩
  · exact hsame

/-- What was sent before is edits, and nobody answers them. -/
theorem Ok.onMessages {es : List (ServerEvent Payload)} (hes : ∀ e ∈ es, (one i).log e) :
    (c.onMessages es).1.Ok content i ∧ (c.onMessages es).1.session = c.session ∧ (c.onMessages es).2 = [] := by
  induction es generalizing c with
  | nil => exact ⟨h, rfl, rfl⟩
  | cons e rest ih =>
    obtain ⟨o, rfl⟩ : ∃ o, e = .op o := by
      cases e with
      | op o => exact ⟨o, rfl⟩
      | _ => exact (hes _ mem_cons_self).elim
    have ho : o.payload = .u ⟨{i}, ∅⟩ := hes (.op o) mem_cons_self
    have hsent : (c.onMessage (.op o)).2 = [] := by
      simp only [Client.onMessage, ho]
    obtain ⟨hfirst, hsession, -⟩ := h.onMessage (show (one i).down (.op o) from ho) trivial
    obtain ⟨hlater, hsession', hsent'⟩ := ih hfirst fun e' he' => hes e' (mem_cons_of_mem _ he')
    refine ⟨hlater, hsession'.trans hsession, ?_⟩
    show (c.onMessage (.op o)).2 ++ _ = []
    rw [hsent, hsent']
    rfl

theorem Ok.greet {wl : Welcome Payload} (hlog : ∀ e ∈ wl.catchup, (one i).log e) :
    (c.greet wl).1.Ok content i ∧ (c.greet wl).1.session = c.session ∧ (c.greet wl).2 = [] := by
  have hset : Ok content i { c with
      welcomed := true, peerId := some wl.peerId, peers := (wl.peers.map Collab.PeerInfo.peerId).toFinset } :=
    ⟨h.only, h.pending, h.filled⟩
  exact hset.onMessages hlog

end

/-- `_maybeSeed` goes on to seed. -/
def maySeed (content : Text) (c : Client) (force : Bool) : Prop :=
  c.doc.isEmpty content = true ∧ (c.welcomed = true ∨ c.offline = true) ∧ (c.otherPeers = ∅ ∨ force = true) ∧
    c.pendingContent ≠ none

theorem maybeSeed_cases (content : Text) (c : Client) (insert : Nat) (force : Bool) :
    c.maybeSeed content insert force = (c, []) ∨ c.maySeed content force ∧ ∃ text, c.pendingContent = some text ∧
        c.maybeSeed content insert force =
          ({ c with pendingContent := none, seeded := true, seedContent := some text, doc := c.doc.seed text insert },
            if c.doc.seed text insert = c.doc then [] else [.op (.u ⟨{insert}, ∅⟩)]) := by
  unfold maybeSeed
  by_cases hempty : c.doc.isEmpty content = true
  · rw [if_neg (not_not_intro hempty)]
    by_cases hallowed : ¬ (c.welcomed ∨ c.offline) ∨ (c.otherPeers ≠ ∅ ∧ ¬ force)
    · rw [if_pos hallowed]
      exact .inl rfl
    rw [if_neg hallowed]
    cases hpending : c.pendingContent with
    | none => exact .inl rfl
    | some text =>
      right
      refine ⟨⟨hempty, ?_, ?_, by rw [hpending]; exact some_ne_none _⟩, text, rfl, rfl⟩
      · by_contra hno
        exact hallowed (.inl hno)
      · by_contra hno
        rw [not_or] at hno
        exact hallowed (.inr hno)
  · rw [if_pos hempty]
    exact .inl rfl

end Client

/-! ### Everybody's text is one insert -/

namespace World

/-- A client still listens to this session. -/
def Listens (w : World) (p : Nat) : Prop := ∃ c client, w.clients.get? c = some client ∧ client.session = some p

/-- Nobody has any text, and none is under way. -/
structure Bare (w : World) : Prop where
  docs : ∀ c client, w.clients.get? c = some client → client.doc.inserts = ∅
  wire : w.wire.Carries textless w.Listens

structure Single (content : Text) (i : Nat) (w : World) : Prop where
  clients : ∀ c client, w.clients.get? c = some client → client.Ok content i
  wire : w.wire.Carries (one i) w.Listens

section Single

variable {content : Text} {i : Nat} {w : World} {c : Nat} {client : Client} {done : Client × List Msg}

section

variable (h : w.Single content i)

include h

/-- Where there is no text, the one insert may be any. -/
theorem Single.rebase (hbare : w.Bare) (hcontent : content ≠ []) (j : Nat) :
    w.Single content j where
  clients := by
    intro c client hclient
    have hok := h.clients c client hclient
    have hnone := hbare.docs c client hclient
    refine ⟨⟨?_, hok.only.2⟩, hok.pending, fun _ hflags => ?_⟩
    · rw [hnone]
      exact Finset.empty_subset _
    · rw [hok.filled hcontent hflags] at hnone
      exact absurd hnone (Finset.singleton_ne_empty i)
  wire := by
    have hnone : ∀ update : Doc, update.Only i → update.inserts = ∅ → update.Only j := by
      intro update honly hempty
      refine ⟨?_, honly.2⟩
      rw [hempty]
      exact Finset.empty_subset _
    apply h.wire.both hbare.wire
    · intro m h₁ h₂
      rcases m with - | payload | (- | (- | - | update)) | - | - | - | -
      case op => exact h₂.elim
      case presence.some.s2 => exact hnone update h₁ h₂
      all_goals trivial
    · intro e h₁ h₂
      cases e with
      | op o => exact h₂.elim
      | _ => exact h₁
    · intro e h₁ h₂
      rcases e with - | - | ⟨p, (- | (- | - | update))⟩ | o | - | - | - | - | - | - | -
      case op => exact h₂.elim
      case presence.some.s2 => exact hnone update h₁ h₂
      all_goals trivial

theorem Single.set (c : Nat) (hok : done.1.Ok content i)
    (hsession : ∀ p, done.1.session = some p → w.Listens p) (hsent : ∀ m ∈ done.2, (one i).up m) :
    (w.set c done).Single content i where
  clients := by
    intro c' client' hclient'
    rcases get?_put_some.mp hclient' with ⟨-, rfl⟩ | ⟨-, hget⟩
    · exact hok
    · exact h.clients c' client' hget
  wire := by
    have hlistens : ∀ p, (w.set c done).Listens p → w.Listens p := by
      rintro p ⟨c', client', hclient', hp⟩
      rcases get?_put_some.mp hclient' with ⟨-, rfl⟩ | ⟨-, hget⟩
      · exact hsession p hp
      · exact ⟨c', client', hget, hp⟩
    have hwire : (w.set c done).wire.Carries (one i) w.Listens := by
      unfold World.set
      split
      · rename_i p _
        exact h.wire.say p hsent
      · exact h.wire
    exact hwire.mono hlistens

/-- A client seeds while nobody has any text, or not at all. -/
theorem Single.maybeSeed (c : Nat) (hok : client.Ok content i)
    (hsession : ∀ p, client.session = some p → w.Listens p) (insert : Nat) (force : Bool)
    (hbare : content ≠ [] → client.maySeed content force → w.Bare) :
    ∃ j, (w.set c (client.maybeSeed content insert force)).Single content j := by
  rcases client.maybeSeed_cases content insert force with hnot | ⟨hmay, text, hpending, hseeds⟩
  · rw [hnot]
    exact ⟨i, h.set c hok hsession fun m hm => (nomatch hm)⟩
  obtain rfl : text = content := hok.pending text hpending
  rw [hseeds]
  by_cases hcontent : text = []
  · -- an empty file has nothing to insert
    have hdoc : client.doc.seed text insert = client.doc := by
      rw [Doc.seed, if_neg]
      rw [hcontent]
      exact fun hlt => Nat.lt_irrefl 0 hlt.2
    rw [hdoc, if_pos rfl]
    refine ⟨i, h.set c ⟨hok.only, fun t ht => (nomatch ht), fun hne => absurd hcontent hne⟩ hsession ?_⟩
    exact fun m hm => (nomatch hm)
  · have hempty : client.doc.inserts = ∅ := by
      rw [← hok.only.live]
      exact (Doc.isEmpty_iff hcontent).mp hmay.1
    have hdoc : client.doc.seed text insert = ⟨{insert}, ∅⟩ := by
      rw [Doc.seed, if_pos ⟨hmay.1, length_pos_iff.mpr hcontent⟩, hempty, hok.only.2, Finset.empty_union]
    have hnew : (⟨{insert}, ∅⟩ : Doc) ≠ client.doc := by
      intro heq
      rw [← heq] at hempty
      exact Finset.singleton_ne_empty insert hempty
    rw [hdoc, if_neg hnew]
    refine ⟨insert, (h.rebase (hbare hcontent hmay) hcontent insert).set c ?_ hsession ?_⟩
    · exact ⟨⟨Finset.Subset.refl _, rfl⟩, fun t ht => (nomatch ht), fun _ _ => rfl⟩
    · intro m hm
      rw [mem_singleton.mp hm]
      rfl

end

/-! ### Steps -/

/-- The step lets a client seed. -/
def Seeds (content : Text) (now : Nat) (w : World) : Action → Prop
  | .adoptContent c => ∃ client, w.clients.get? c = some client ∧
      { client with pendingContent := some content }.maySeed content false
  | .seedTimer c => ∃ client, w.clients.get? c = some client ∧ client.seedTimers ≠ 0 ∧ client.maySeed content true
  | .drop c => ∃ client, w.clients.get? c = some client ∧ client.welcomed = false ∧
      { client with offline := true }.maySeed content false
  | .connect c userId username canWrite => ∃ client, w.clients.get? c = some client ∧
      (w.wire.join now userId username canWrite).1 = none ∧ client.welcomed = false ∧
      { client with offline := true }.maySeed content false
  | .deliver c => ∃ client p wl rest, w.clients.get? c = some client ∧ client.session = some p ∧
      w.wire.ahead p = .welcome wl :: rest ∧ (client.greet wl).1.otherPeers = ∅ ∧
      (client.greet wl).1.maySeed content false
  | _ => False

/-- What a step must not do, for the text to be there once. -/
structure Spared (content : Text) (now : Nat) (w : World) (a : Action) : Prop where
  /-- A client seeds only while nobody has any text. -/
  bare : content ≠ [] → w.Seeds content now a → w.Bare
  /-- A client that seeded does not come back beside others. -/
  stays : ∀ c client p wl rest, a = .deliver c → w.clients.get? c = some client → client.session = some p →
    w.wire.ahead p = .welcome wl :: rest → (client.greet wl).1.otherPeers ≠ ∅ → (client.greet wl).1.dropsSeed content = false
  /-- A reply without text does not reach a client without text. -/
  fed : ∀ c client p e rest, a = .deliver c → w.clients.get? c = some client → client.session = some p →
    w.wire.ahead p = .event e :: rest → client.Fed content e

section

variable (h : w.Single content i)

include h

theorem Single.onClosed (c : Nat) (hok : client.Ok content i) (insert : Nat)
    (hbare : content ≠ [] → client.welcomed = false → { client with offline := true }.maySeed content false → w.Bare) :
    ∃ j, (w.set c (client.onClosed content insert)).Single content j := by
  unfold Client.onClosed
  dsimp only
  split
  · exact ⟨i, h.set c ⟨hok.only, hok.pending, hok.filled⟩ (fun p hp => (nomatch hp)) fun m hm => (nomatch hm)⟩
  · rename_i hwelcomed
    have hok' : Client.Ok content i { client with session := none, offline := true } := ⟨hok.only, hok.pending, hok.filled⟩
    apply h.maybeSeed c hok' (fun p hp => (nomatch hp))
    intro hcontent hmay
    exact hbare hcontent (Bool.not_eq_true _ ▸ hwelcomed) hmay

theorem Single.connect (now c : Nat) (userId username : Text) (canWrite : Bool)
    (hspared : w.Spared content now (.connect c userId username canWrite)) :
    ∃ j, (w.connect content now c userId username canWrite).Single content j := by
  unfold World.connect
  split
  · exact ⟨i, h⟩
  rename_i client hclient
  have hok := h.clients c client hclient
  split
  · exact ⟨i, h⟩
  dsimp only
  split
  · rename_i p hp
    refine ⟨i, ?_, ?_⟩
    · intro c' client' hclient'
      rcases get?_put_some.mp hclient' with ⟨-, rfl⟩ | ⟨-, hclient'⟩
      · exact ⟨hok.only, hok.pending, hok.filled⟩
      · exact h.clients c' client' hclient'
    · apply h.wire.join (one_relays i)
      rintro a ⟨c', client', hclient', ha⟩
      rcases get?_put_some.mp hclient' with ⟨-, rfl⟩ | ⟨-, hclient'⟩
      · exact .inr (hp.trans ha)
      · exact .inl ⟨c', client', hclient', ha⟩
  · rename_i hnone
    have hok' : Client.Ok content i { client with hasSocket := true } := ⟨hok.only, hok.pending, hok.filled⟩
    apply h.onClosed c hok'
    intro hcontent hwelcomed hmay
    exact hspared.bare hcontent ⟨client, hclient, hnone, hwelcomed, hmay⟩

/-- A client hears a frame. -/
theorem Single.hearing (p : Nat) : Single content i { w with wire := w.wire.hear p } :=
  ⟨h.clients, h.wire.hear p⟩

end

theorem Bare.hearing (h : w.Bare) (p : Nat) : Bare { w with wire := w.wire.hear p } :=
  ⟨h.docs, h.wire.hear p⟩

section

variable (h : w.Single content i)

include h

theorem Single.deliver (c : Nat) (hspared : w.Spared content now (.deliver c)) :
    ∃ j, (w.deliver content c).Single content j := by
  unfold World.deliver
  split
  · exact ⟨i, h⟩
  rename_i client hclient
  split
  · exact ⟨i, h⟩
  rename_i p hp
  split
  · exact ⟨i, h⟩
  rename_i frame rest hahead
  have hok := h.clients c client hclient
  have hlistens : w.Listens p := ⟨c, client, hclient, hp⟩
  have hfits : frame.Fits (one i) := by
    apply h.wire.ahead p hlistens
    rw [hahead]
    exact mem_cons_self
  have hsession : ∀ client' : Client, client'.session = client.session → ∀ q, client'.session = some q →
      Listens { w with wire := w.wire.hear p } q := by
    intro client' hsame q hq
    exact ⟨c, client, hclient, hsame.symm.trans hq⟩
  cases frame with
  | event e =>
    obtain ⟨hok', hsame, hsent⟩ := hok.onMessage hfits (hspared.fed c client p e rest rfl hclient hp hahead)
    exact ⟨i, (h.hearing p).set c hok' (hsession _ hsame) hsent⟩
  | welcome wl =>
    obtain ⟨hok', hsame, hsent⟩ := hok.greet hfits
    show ∃ j, Single content j (World.set _ c (client.onWelcome content w.nextInsert wl))
    unfold Client.onWelcome
    dsimp only
    rw [hsent]
    split
    · rename_i hothers
      rw [if_neg (by rw [hspared.stays c client p wl rest rfl hclient hp hahead hothers]; exact Bool.false_ne_true)]
      refine ⟨i, (h.hearing p).set c ⟨hok'.only, hok'.pending, hok'.filled⟩ (hsession _ hsame) ?_⟩
      intro m hm
      rw [nil_append, mem_singleton] at hm
      rw [hm]
      trivial
    · rename_i hothers
      rw [not_not] at hothers
      apply (h.hearing p).maybeSeed c hok' (hsession _ hsame)
      intro hcontent hmay
      exact (hspared.bare hcontent ⟨client, p, wl, rest, hclient, hp, hahead, hothers, hmay⟩).hearing p

theorem Single.change (c : Nat) {f : Client → Client × List Msg}
    (hf : ∀ client, w.clients.get? c = some client → ∃ j, (w.set c (f client)).Single content j) :
    ∃ j, (w.change c f).Single content j := by
  unfold World.change
  split
  · exact ⟨i, h⟩
  · rename_i client hclient
    exact hf client hclient

theorem Single.act (bytes : Payload → Nat) {a : Action}
    (hspared : w.Spared content now a) : ∃ j, (w.act content bytes now a).Single content j := by
  have hlistens : ∀ c client, w.clients.get? c = some client → ∀ p, client.session = some p → w.Listens p :=
    fun c client hclient p hp => ⟨c, client, hclient, hp⟩
  cases a with
  | new c =>
    simp only [World.act]
    split
    · refine ⟨i, ?_, ?_⟩
      · intro c' client' hclient'
        rcases get?_put_some.mp hclient' with ⟨-, rfl⟩ | ⟨-, hclient'⟩
        · refine ⟨⟨Finset.empty_subset _, rfl⟩, fun t ht => (by cases ht), fun _ hflags => ?_⟩
          rcases hflags with hflag | hflag
          · cases hflag
          · cases hflag
        · exact h.clients c' client' hclient'
      · apply h.wire.mono
        rintro p ⟨c', client', hclient', hp⟩
        rcases get?_put_some.mp hclient' with ⟨-, rfl⟩ | ⟨-, hclient'⟩
        · cases hp
        · exact ⟨c', client', hclient', hp⟩
    · exact ⟨i, h⟩
  | connect c userId username canWrite => exact h.connect now c userId username canWrite hspared
  | adoptContent c =>
    apply h.change c
    intro client hclient
    have hok := h.clients c client hclient
    have hok' : Client.Ok content i { client with pendingContent := some content } :=
      ⟨hok.only, fun t ht => (some.inj ht).symm, hok.filled⟩
    apply h.maybeSeed c hok' (hlistens c client hclient)
    exact fun hcontent hmay => hspared.bare hcontent ⟨client, hclient, hmay⟩
  | deliver c => exact h.deliver c hspared
  | retryTimer c =>
    apply h.change c
    intro client hclient
    have hok := h.clients c client hclient
    unfold Client.onRetryTimer
    split
    · exact ⟨i, h.set c hok (hlistens c client hclient) fun m hm => (by cases hm)⟩
    refine ⟨i, h.set c ⟨hok.only, hok.pending, hok.filled⟩ (hlistens c client hclient) fun m hm => ?_⟩
    split at hm
    · cases hm
    · rw [mem_singleton.mp hm]
      trivial
  | seedTimer c =>
    apply h.change c
    intro client hclient
    have hok := h.clients c client hclient
    unfold Client.onSeedTimer
    split
    · exact ⟨i, h.set c hok (hlistens c client hclient) fun m hm => (by cases hm)⟩
    · rename_i htimers
      have hok' : Client.Ok content i { client with seedTimers := client.seedTimers - 1 } :=
        ⟨hok.only, hok.pending, hok.filled⟩
      apply h.maybeSeed c hok' (hlistens c client hclient)
      exact fun hcontent hmay => hspared.bare hcontent ⟨client, hclient, htimers, hmay⟩
  | drop c =>
    apply h.change c
    intro client hclient
    apply h.onClosed c (h.clients c client hclient)
    exact fun hcontent hwelcomed hmay => hspared.bare hcontent ⟨client, hclient, hwelcomed, hmay⟩
  | disconnect c =>
    apply h.change c
    intro client hclient
    have hok := h.clients c client hclient
    exact ⟨i, h.set c ⟨hok.only, hok.pending, hok.filled⟩ (fun p hp => (by cases hp)) fun m hm => (by cases hm)⟩
  | destroy c =>
    refine ⟨i, ?_, ?_⟩
    · intro c' client' hclient'
      obtain ⟨-, hclient'⟩ := get?_erase_some.mp hclient'
      exact h.clients c' client' hclient'
    · apply h.wire.mono
      rintro p ⟨c', client', hclient', hp⟩
      obtain ⟨-, hclient'⟩ := get?_erase_some.mp hclient'
      exact ⟨c', client', hclient', hp⟩
  | serve p canWrite => exact ⟨i, h.clients, h.wire.serve (one_relays i) bytes now p canWrite⟩
  | leave p => exact ⟨i, h.clients, h.wire.leave (one_relays i) now p⟩
  | evictIdle => exact ⟨i, h.clients, h.wire.evictIdle now⟩

theorem Single.step (bytes : Payload → Nat) {a : Action}
    (hspared : w.Spared content now a) : ∃ j, (w.step content bytes now a).Single content j := by
  obtain ⟨j, hj⟩ := h.act bytes hspared
  exact ⟨j, hj.clients, hj.wire⟩

end

theorem Single.empty (content : Text) : empty.Single content 0 :=
  ⟨fun _ _ hclient => (nomatch hclient), Wire.Carries.empty⟩

end Single

/-! ### Runs -/

def SparedRun (content : Text) (bytes : Payload → Nat) : List (Nat × Action) → World → Prop
  | [], _ => True
  | (now, a) :: rest, w => w.Spared content now a ∧ SparedRun content bytes rest (w.step content bytes now a)

/-- Who has hydrated has the file's content, and nobody has it twice. -/
def Kept (content : Text) (w : World) : Prop :=
  ∀ c client, w.clients.get? c = some client →
    (client.hydrated content = true → client.serialize content = content) ∧ client.doc.live.card ≤ 1

theorem kept_of_single {content : Text} {bytes : Payload → Nat} (steps : List (Nat × Action)) {w : World} {i : Nat}
    (h : w.Single content i) (hspared : SparedRun content bytes steps w) : (run content bytes steps w).Kept content := by
  induction steps generalizing w i with
  | nil =>
    intro c client hclient
    have hok := h.clients c client hclient
    exact ⟨hok.serialize, hok.card_live⟩
  | cons first rest ih =>
    obtain ⟨now, a⟩ := first
    obtain ⟨hfirst, hrest⟩ := hspared
    obtain ⟨j, hj⟩ := h.step bytes hfirst
    exact ih hj hrest

/-- The file is neither doubled nor blanked in a run that is spared. -/
theorem content_kept_once (content : Text) (bytes : Payload → Nat) (steps : List (Nat × Action))
    (hspared : SparedRun content bytes steps empty) : (run content bytes steps empty).Kept content :=
  kept_of_single steps (Single.empty content) hspared

theorem textless_relays : textless.Relays where
  peerJoin := fun _ => trivial
  peerLeave := fun _ => trivial
  presence := by
    intro p cursor h
    rcases cursor with - | (update | known | update)
    · trivial
    · trivial
    · trivial
    · exact h
  op := fun _ h => h.elim
  saved := fun _ _ _ => trivial

/-- A step in which no client hears anything, and none seeds. -/
theorem Spared.of_quiet {content : Text} {w : World} {a : Action} (hseeds : ¬ w.Seeds content now a)
    (hdeliver : ∀ c, a ≠ .deliver c) : w.Spared content now a where
  bare := fun _ hs => absurd hs hseeds
  stays := fun c _ _ _ _ ha => absurd ha (hdeliver c)
  fed := fun c _ _ _ _ ha => absurd ha (hdeliver c)

def opening (c : Nat) : List (Nat × Action) := [(0, .new c), (0, .connect c [] [] true), (0, .deliver c)]

/-- One client opens the file and seeds, then another joins. -/
def openedByTwo : List (Nat × Action) := opening 0 ++ [(0, .adoptContent 0), (0, .serve 1 true)] ++ opening 1

theorem content_kept_once_by_two :
    (∀ c < 2, ((run ['x'] (fun _ => 0) openedByTwo empty).clients.get? c).map (Client.hydrated ['x']) = some true) ∧
      (run ['x'] (fun _ => 0) openedByTwo empty).Kept ['x'] := by
  refine ⟨by decide +kernel, ?_⟩
  apply content_kept_once
  refine ⟨?_, ?_, ?_, ?_, ?_, ?_, ?_, ?_, trivial⟩
  · exact Spared.of_quiet (fun hs => hs) fun c hc => (nomatch hc)
  · refine Spared.of_quiet ?_ fun c hc => (nomatch hc)
    rintro ⟨client, -, hjoin, -⟩
    cases hjoin
  · -- the first client is welcomed before it has the content
    refine ⟨?_, ?_, ?_⟩
    · rintro - ⟨client, p, wl, rest, hclient, hp, hahead, -, hmay⟩
      cases hclient
      cases hp
      cases hahead
      exact absurd rfl hmay.2.2.2
    · intro c client p wl rest hc hclient hp hahead hothers
      cases hc
      cases hclient
      cases hp
      cases hahead
      exact absurd (by decide +kernel) hothers
    · intro c client p e rest hc hclient hp hahead
      cases hc
      cases hclient
      cases hp
      cases hahead
  · -- it seeds while there is no text anywhere
    refine ⟨?_, fun c _ _ _ _ hc => (nomatch hc), fun c _ _ _ _ hc => (nomatch hc)⟩
    intro _ _
    refine ⟨?_, ?_⟩
    · intro c client hclient
      have hmem := mem_rows.mpr hclient
      cases hmem with
      | head => rfl
      | tail _ hrest => cases hrest
    · exact ((Wire.Carries.empty.join textless_relays 0 [] [] true fun _ hp => .inl hp).hear 1).say 1
        fun m hm => (nomatch hm)
  · exact Spared.of_quiet (fun hs => hs) fun c hc => (nomatch hc)
  · exact Spared.of_quiet (fun hs => hs) fun c hc => (nomatch hc)
  · refine Spared.of_quiet ?_ fun c hc => (nomatch hc)
    rintro ⟨client, -, hjoin, -⟩
    cases hjoin
  · -- the second one finds the edit in what was sent before
    refine ⟨?_, ?_, ?_⟩
    · rintro - ⟨client, p, wl, rest, hclient, hp, hahead, hothers, -⟩
      cases hclient
      cases hp
      cases hahead
      exact absurd hothers (by decide +kernel)
    · intro c client p wl rest hc hclient hp hahead _
      cases hc
      cases hclient
      cases hp
      cases hahead
      rfl
    · intro c client p e rest hc hclient hp hahead
      cases hc
      cases hclient
      cases hp
      cases hahead

/-- The first client seeds and the second joins; the first one's connection drops, and it comes back under a higher
number, drops its seed and tells the other so. -/
def backBesideAnother : List (Nat × Action) :=
  openedByTwo ++ [Action.deliver 0, .serve 1 true, .deliver 1, .serve 2 true, .serve 2 true, .deliver 0, .deliver 0,
    .drop 0, .leave 1, .connect 0 [] [] true, .deliver 0, .deliver 1, .deliver 1, .serve 2 true, .deliver 0,
    .serve 3 true, .serve 3 true, .deliver 1, .deliver 1].map (0, ·)

/-- Nobody has the content when two join; both of them seed when their timers fire. -/
def bothSeed : List (Nat × Action) :=
  opening 0 ++ opening 1 ++ opening 2 ++ [Action.adoptContent 1, .adoptContent 2, .seedTimer 1, .seedTimer 2,
    .serve 2 true, .serve 2 true, .deliver 2, .deliver 2, .deliver 2].map (0, ·)

/-- Both clients show an empty file as the file, and a client has its content twice. -/
theorem content_blanked_or_doubled : ¬ (run ['x'] (fun _ => 0) backBesideAnother empty).Kept ['x'] ∧
      ¬ (run ['x'] (fun _ => 0) bothSeed empty).Kept ['x'] := by
  have hblank : ((run ['x'] (fun _ => 0) backBesideAnother empty).clients.get? 1).map
      (fun client => (client.hydrated ['x'], client.serialize ['x'])) = some (true, []) := by
    decide +kernel
  have hdouble : ((run ['x'] (fun _ => 0) bothSeed empty).clients.get? 2).map
      (fun client => client.doc.live.card) = some 2 := by
    decide +kernel
  constructor
  · intro h
    obtain ⟨client, hclient, hshows⟩ := map_eq_some_iff.mp hblank
    obtain ⟨hhydrated, htext⟩ := Prod.mk.inj hshows
    have hcontent := (h 1 client hclient).1 hhydrated
    rw [htext] at hcontent
    cases hcontent
  · intro h
    obtain ⟨client, hclient, htwice⟩ := map_eq_some_iff.mp hdouble
    have honce := (h 2 client hclient).2
    omega

end World

end LibreServ.DocSync
