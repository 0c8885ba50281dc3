import LibreServ.Ports

/-! The ports of an app stay its own as long as no install fails with a port that is still pending, and every restart finds
the ports of the apps where it looks for them. -/

namespace LibreServ.Ports

open List Option Table

variable {hosts rest done : List Int} {original : List (Int × Int)} {config : Table String Int} {host : Int}
  {f : Field}

/-- The port belongs to the instance. -/
def Owned (used : Table Int Entry) (id : Nat) (p : Int) : Prop := ∃ e, used.get? p = some e ∧ e.owner = some id

/-- The install has added the port. -/
def Held (used : Table Int Entry) (id : Nat) (p : Int) : Prop := ∃ e, used.get? p = some e ∧ e.addedBy = id

/-- What should be so of every state. -/
structure State.Sound (st : State) : Prop where
  apart : ∀ id id' row row', st.rows.get? id = some row → st.rows.get? id' = some row' → row.failed = false →
    row'.failed = false → id ≠ id' → ∀ p ∈ row.ports, p ∉ row'.ports
  owned : ∀ id row, st.rows.get? id = some row → row.failed = false → ∀ p ∈ row.ports, Owned st.used id p
  givenBack : ∀ id ∈ st.failedCalls, ∀ p e, st.used.get? p = some e → e.addedBy ≠ id

/-- A restart reads every port of an app from its row, and from no later one. -/
def State.ReadBack (st : State) (catalog : String → Option AppDefinition) : Prop :=
  (∀ r ∈ st.rows.rows, r.2.failed = false → ∀ p ∈ r.2.ports, p ∈ extractPorts catalog r.2) ∧
    st.rows.rows.Pairwise fun a b => a.2.failed = false → b.2.error = false → ∀ p ∈ a.2.ports, p ∉ extractPorts catalog b.2

/-- The steps under which ports stay their apps' own. A call that fails has no port that is still pending. -/
def State.Careful (st : State) : Action → Prop
  | .call k _ => ∀ c ∈ st.calls[k]?, c.phase = .failing → ∀ r ∈ st.used.rows, r.2.addedBy = c.id → r.2.owner = some c.id
  | .restart catalog => st.ReadBack catalog
  | _ => True

instance (st : State) (catalog : String → Option AppDefinition) : Decidable (st.ReadBack catalog) :=
  inferInstanceAs (Decidable ((∀ r ∈ st.rows.rows, r.2.failed = false → ∀ p ∈ r.2.ports, p ∈ extractPorts catalog r.2) ∧
    st.rows.rows.Pairwise fun a b => a.2.failed = false → b.2.error = false → ∀ p ∈ a.2.ports, p ∉ extractPorts catalog b.2))

instance (st : State) : ∀ a, Decidable (st.Careful a)
  | .call k _ => inferInstanceAs (Decidable (∀ c ∈ st.calls[k]?, c.phase = .failing → ∀ r ∈ st.used.rows, _ → _))
  | .restart catalog => inferInstanceAs (Decidable (st.ReadBack catalog))
  | .install .. | .bind _ | .failInstall .. | .releaseFailed _ => .isTrue trivial

/-! ### Ports of fields and of mappings -/

variable {p : Int}

theorem mem_fieldPorts {fields : List Field} :
    p ∈ fieldPorts config fields ↔ 0 < p ∧ ∃ f ∈ fields, value config f.name = p := by
  simp only [fieldPorts, mem_filter, List.mem_map, decide_eq_true_eq]
  exact and_comm

theorem mem_hostPorts : p ∈ hostPorts hosts ↔ p ∈ hosts ∧ 0 < p := by
  simp only [hostPorts, mem_filter, decide_eq_true_eq]

theorem Row.mem_ports {row : Row} :
    p ∈ row.ports ↔ p ∈ fieldPorts row.config row.fields ∨ p ∈ hostPorts row.hosts := mem_append

theorem value_put (config : Table String Int) (name name' : String) (port : Int) :
    value (config.put name port) name' = if name' = name then port else value config name' := by
  simp only [value, get?_put]
  split
  · rfl
  · rfl

/-- A field keeps its value or gets a port that was allocated. -/
theorem value_updateFields (original : List (Int × Int)) (config : Table String Int) (fields : List Field) (name : String) :
    value (updateFields original config fields) name = value config name ∨
      ∃ r ∈ original, value (updateFields original config fields) name = r.2 := by
  induction fields generalizing config with
  | nil => exact .inl rfl
  | cons f rest ih =>
    cases hlook : original.lookup (value config f.name) with
    | none =>
      simp only [updateFields, hlook]
      exact ih config
    | some allocated =>
      simp only [updateFields, hlook]
      split
      · exact ih config
      have hmem : (value config f.name, allocated) ∈ original := by
        obtain ⟨before, after, heq, -⟩ := lookup_eq_some_iff.mp hlook
        rw [heq]
        exact mem_append_right _ mem_cons_self
      rcases ih (config.put f.name allocated) with heq | hr
      · rw [heq, value_put]
        split
        · exact .inr ⟨_, hmem, rfl⟩
        · exact .inl rfl
      · exact .inr hr

/-! ### Changes of the table -/

/-- What one install does to the table: it keeps the entries of all others, and adds its own. -/
structure Change (used used' : Table Int Entry) (id : Nat) : Prop where
  kept : ∀ p e, used.get? p = some e → e.addedBy ≠ id → used'.get? p = some e
  new : ∀ p e, used'.get? p = some e → used.get? p = some e ∨ (e.addedBy = id ∧ ∀ i, e.owner = some i → i = id)

/-- The change loses nothing that the install has. -/
structure Grows (used used' : Table Int Entry) (id : Nat) : Prop extends Change used used' id where
  held : ∀ p, Held used id p → Held used' id p
  owned : ∀ p, Owned used id p → Owned used' id p

theorem Grows.same (used : Table Int Entry) (id : Nat) : Grows used used id :=
  ⟨⟨fun _ _ he _ => he, fun _ _ he => .inl he⟩, fun _ hp => hp, fun _ hp => hp⟩

variable {id : Nat} {used : Table Int Entry}

theorem Change.put {owner : Option Nat}
    (hfree : ∀ e, used.get? p = some e → e.addedBy = id) (howner : ∀ i, owner = some i → i = id) :
    Change used (used.put p ⟨owner, id⟩) id := by
  refine ⟨fun q e he hne => ?_, fun q e he => ?_⟩
  · rw [get?_put]
    split
    · next heq =>
        subst heq
        exact absurd (hfree e he) hne
    · exact he
  · rcases get?_put_some.mp he with ⟨-, rfl⟩ | ⟨-, he⟩
    · exact .inr ⟨rfl, howner⟩
    · exact .inl he

theorem Held.put {p q : Int} {owner : Option Nat} (h : Held used id q) :
    Held (used.put p ⟨owner, id⟩) id q := by
  obtain ⟨e, he, hadded⟩ := h
  by_cases heq : q = p
  · subst heq
    exact ⟨_, get?_put_self _ _ _, rfl⟩
  · exact ⟨e, (get?_put_of_ne _ _ heq).trans he, hadded⟩

theorem Owned.reserve {p q : Int} (h : Owned used id q) :
    Owned (used.put p ⟨some id, id⟩) id q := by
  obtain ⟨e, he, howner⟩ := h
  by_cases heq : q = p
  · subst heq
    exact ⟨_, get?_put_self _ _ _, rfl⟩
  · exact ⟨e, (get?_put_of_ne _ _ heq).trans he, howner⟩

theorem Owned.allocate {p q : Int} (hfree : used.get? p = none) (h : Owned used id q) :
    Owned (used.put p ⟨none, id⟩) id q := by
  obtain ⟨e, he, howner⟩ := h
  have hne : q ≠ p := by
    rintro rfl
    rw [hfree] at he
    cases he
  exact ⟨e, (get?_put_of_ne _ _ hne).trans he, howner⟩

theorem State.Reserve_grows {st : State} (hfree : ∀ e, st.used.get? p = some e → e.addedBy = id) :
    Grows st.used (st.Reserve p id).used id ∧ Owned (st.Reserve p id).used id p := by
  refine ⟨⟨.put hfree fun i hi => (some.inj hi).symm, fun q hq => hq.put, fun q hq => hq.reserve⟩, ?_⟩
  exact ⟨_, get?_put_self _ _ _, rfl⟩

theorem State.isAvailable_free {st : State} (h : st.isAvailable p = true) : st.used.get? p = none := by
  simp only [State.isAvailable, Bool.and_eq_true, isNone_iff_eq_none] at h
  exact h.1.2

theorem scan_ok {ok : Int → Bool} {start port p : Int} {attempts : Nat} (h : scan ok start attempts port = some p) :
    ok p = true := by
  induction attempts generalizing port with
  | zero => cases h
  | succ attempts ih =>
    simp only [scan] at h
    split at h
    · next hok =>
        cases h
        exact hok
    · split at h
      · cases h
      · exact ih h

/-- Only a free port is allocated. -/
theorem State.Allocate_some {st st' : State} {preferred p : Int} (h : st.Allocate preferred id = some (st', p)) :
    st' = { st with used := st.used.put p ⟨none, id⟩ } ∧ st.used.get? p = none := by
  simp only [State.Allocate, map_eq_some_iff] at h
  obtain ⟨port, hfound, rfl, rfl⟩ := h
  refine ⟨rfl, State.isAvailable_free ?_⟩
  split at hfound
  · next hok =>
      cases hfound
      exact hok
  · exact scan_ok hfound

theorem State.Allocate_grows {st st' : State} {preferred p : Int} (h : st.Allocate preferred id = some (st', p)) :
    ∃ used, st' = { st with used := used } ∧ Grows st.used used id ∧ Held used id p := by
  obtain ⟨heq, hfree⟩ := State.Allocate_some h
  refine ⟨_, heq, ⟨.put (fun e he => ?_) (fun i hi => nomatch hi), fun q hq => hq.put, fun q hq => hq.allocate hfree⟩, ?_⟩
  · rw [hfree] at he
    cases he
  · exact ⟨_, get?_put_self _ _ _, rfl⟩

theorem State.ReserveIfAvailable_some {st st' : State} (h : st.ReserveIfAvailable p id = some st') :
    st' = st.Reserve p id ∧ st.used.get? p = none := by
  simp only [State.ReserveIfAvailable] at h
  split at h
  · next hok =>
      cases h
      exact ⟨rfl, State.isAvailable_free hok⟩
  · cases h

theorem State.ReserveIfAvailableForOwner_some {st st' : State} (h : st.ReserveIfAvailableForOwner p id = some st') :
    st' = st.Reserve p id ∧ ∀ e, st.used.get? p = some e → e.owner = some id := by
  simp only [State.ReserveIfAvailableForOwner] at h
  split at h
  · next hok =>
      cases h
      simp only [Bool.and_eq_true, Option.all_eq_true, decide_eq_true_eq] at hok
      exact ⟨rfl, fun e he => hok.1.2 e he⟩
  · cases h

theorem Change.othersHeld {used used' : Table Int Entry} {id other : Nat} (hchange : Change used used' id) (hne : other ≠ id)
    {p : Int} (hp : Held used other p) : Held used' other p := by
  obtain ⟨e, he, hadded⟩ := hp
  exact ⟨e, hchange.kept p e he (hadded.symm ▸ hne), hadded⟩

/-! ### Calls -/

/-- Where a call stands, it has these ports. -/
def CallOk (used : Table Int Entry) (c : Call) : Prop :=
  match c.phase with
  | .start | .failing | .ended => True
  | .fields rest => ∃ taken, c.app.fields = taken ++ rest ∧ ∀ p ∈ fieldPorts c.config taken, Held used c.id p
  | .reserveFields rest => (∀ p ∈ fieldPorts c.config c.app.fields, Held used c.id p) ∧
      ∃ taken, c.app.fields = taken ++ rest ∧ ∀ p ∈ fieldPorts c.config taken, Owned used c.id p
  | .hosts done original _ | .allocateHost done original _ _ => (∀ p ∈ fieldPorts c.config c.app.fields, Owned used c.id p) ∧
      (∀ p ∈ hostPorts done, Held used c.id p) ∧ ∀ r ∈ original, r.2 ∈ done
  | .release hosts rest => (∀ p ∈ fieldPorts c.config c.app.fields, Owned used c.id p ∨ p ∈ hosts) ∧
      (∀ p ∈ hostPorts hosts, Held used c.id p) ∧ ∀ p ∈ rest, p ∉ hosts ∧ p ∉ fieldPorts c.config c.app.fields
  | .reserveHosts hosts rest => (∀ p ∈ fieldPorts c.config c.app.fields, Owned used c.id p ∨ p ∈ hosts) ∧
      (∀ p ∈ hostPorts hosts, Held used c.id p) ∧ ∃ taken, hosts = taken ++ rest ∧ ∀ p ∈ hostPorts taken, Owned used c.id p
  | .finish hosts => (∀ p ∈ fieldPorts c.config c.app.fields, Owned used c.id p) ∧ ∀ p ∈ hostPorts hosts, Owned used c.id p

theorem CallOk.mono {used used' : Table Int Entry} {c : Call} (hheld : ∀ p, Held used c.id p → Held used' c.id p)
    (howned : ∀ p, Owned used c.id p → Owned used' c.id p) (h : CallOk used c) : CallOk used' c := by
  obtain ⟨id, appID, app, given, config, phase⟩ := c
  cases phase with
  | start | failing | ended => trivial
  | fields rest =>
    obtain ⟨taken, heq, htaken⟩ := h
    exact ⟨taken, heq, fun p hp => hheld p (htaken p hp)⟩
  | reserveFields rest =>
    obtain ⟨hall, taken, heq, htaken⟩ := h
    exact ⟨fun p hp => hheld p (hall p hp), taken, heq, fun p hp => howned p (htaken p hp)⟩
  | hosts done original rest | allocateHost done original host rest =>
    exact ⟨fun p hp => howned p (h.1 p hp), fun p hp => hheld p (h.2.1 p hp), h.2.2⟩
  | release hosts rest =>
    exact ⟨fun p hp => (h.1 p hp).imp_left (howned p), fun p hp => hheld p (h.2.1 p hp), h.2.2⟩
  | reserveHosts hosts rest =>
    obtain ⟨hfields, hhosts, taken, heq, htaken⟩ := h
    exact ⟨fun p hp => (hfields p hp).imp_left (howned p), fun p hp => hheld p (hhosts p hp), taken, heq,
      fun p hp => howned p (htaken p hp)⟩
  | finish hosts => exact ⟨fun p hp => howned p (h.1 p hp), fun p hp => howned p (h.2 p hp)⟩

namespace State

variable {st st' : State}

/-! ### The invariant -/

structure Inv (st : State) : Prop where
  added : ∀ p e i, st.used.get? p = some e → e.owner = some i → e.addedBy = i
  owned : ∀ id row, st.rows.get? id = some row → row.failed = false → ∀ p ∈ row.ports, Owned st.used id p
  givenBack : ∀ id ∈ st.failedCalls, ∀ p e, st.used.get? p = some e → e.addedBy ≠ id
  error : ∀ id row, st.rows.get? id = some row → row.error = true → row.failed = true
  rowsOld : ∀ id row, st.rows.get? id = some row → id < st.nextID
  failedOld : ∀ id ∈ st.failedCalls, id < st.nextID ∧ st.rows.get? id = none
  callsOld : ∀ (k : Nat) (c : Call), st.calls[k]? = some c → c.id < st.nextID
  once : ∀ (j k : Nat) (c d : Call), st.calls[j]? = some c → st.calls[k]? = some d → c.id = d.id → j = k
  live : ∀ (k : Nat) (c : Call), st.calls[k]? = some c → c.phase ≠ .ended → st.rows.get? c.id = none ∧ c.id ∉ st.failedCalls
  calls : ∀ (k : Nat) (c : Call), st.calls[k]? = some c → CallOk st.used c

/-- A server just started: the installs that are not failed have their ports. -/
structure Start (st : State) : Prop where
  added : ∀ p e i, st.used.get? p = some e → e.owner = some i → e.addedBy = i
  owned : ∀ id row, st.rows.get? id = some row → row.failed = false → ∀ p ∈ row.ports, Owned st.used id p
  error : ∀ id row, st.rows.get? id = some row → row.error = true → row.failed = true
  rowsOld : ∀ id row, st.rows.get? id = some row → id < st.nextID
  calls : st.calls = []
  failedCalls : st.failedCalls = []

theorem Start.inv (h : st.Start) : st.Inv := by
  refine ⟨h.added, h.owned, fun id hid => ?_, h.error, h.rowsOld, fun id hid => ?_, fun k c hc => ?_, fun j k c d hc => ?_,
    fun k c hc => ?_, fun k c hc => ?_⟩
  · rw [h.failedCalls] at hid
    cases hid
  · rw [h.failedCalls] at hid
    cases hid
  all_goals
    rw [h.calls] at hc
    cases hc

theorem Inv.sound (h : st.Inv) : st.Sound := by
  refine ⟨fun id id' row row' hrow hrow' hf hf' hne p hp hp' => ?_, h.owned, h.givenBack⟩
  obtain ⟨e, he, howner⟩ := h.owned id row hrow hf p hp
  obtain ⟨e', he', howner'⟩ := h.owned id' row' hrow' hf' p hp'
  obtain rfl : e = e' := some.inj (he.symm.trans he')
  exact hne (some.inj (howner.symm.trans howner'))

/-- An install leaves the others what they have. -/
theorem Inv.othersOwned (h : st.Inv) {used : Table Int Entry} {id other : Nat} (hchange : Change st.used used id)
    (hne : other ≠ id) {p : Int} (hp : Owned st.used other p) : Owned used other p := by
  obtain ⟨e, he, howner⟩ := hp
  refine ⟨e, hchange.kept p e he ?_, howner⟩
  rw [h.added p e other he howner]
  exact hne

/-- A live call changes the table and goes on. -/
theorem Inv.goOn (h : st.Inv) {k : Nat} {c c' : Call} {used : Table Int Entry} (hc : st.calls[k]? = some c)
    (hlive : c.phase ≠ .ended) (hid : c'.id = c.id) (hchange : Change st.used used c.id) (hok : CallOk used c') :
    Inv { st with used := used, calls := st.calls.set k c' } := by
  have hcall : ∀ {j d}, (st.calls.set k c')[j]? = some d → (j = k ∧ d = c') ∨ (st.calls[j]? = some d ∧ d.id ≠ c.id) := by
    intro j d hd
    rw [getElem?_set] at hd
    split at hd
    · next heq =>
        split at hd
        · exact .inl ⟨heq.symm, (some.inj hd).symm⟩
        · cases hd
    · next hne => exact .inr ⟨hd, fun heq => hne (h.once j k d c hd hc heq).symm⟩
  refine ⟨fun p e i he hi => ?_, fun id row hrow hf p hp => ?_, fun id hfailed p e he hadded => ?_, h.error, h.rowsOld,
    h.failedOld, fun j d hd => ?_, fun j j' d d' hd hd' heq => ?_, fun j d hd hover => ?_, fun j d hd => ?_⟩
  · rcases hchange.new p e he with he | ⟨hadded, howner⟩
    · exact h.added p e i he hi
    · rw [hadded, howner i hi]
  · refine h.othersOwned hchange ?_ (h.owned id row hrow hf p hp)
    rintro rfl
    rw [(h.live k c hc hlive).1] at hrow
    cases hrow
  · rcases hchange.new p e he with he | ⟨hadded', -⟩
    · exact h.givenBack id hfailed p e he hadded
    · rw [← hadded, hadded'] at hfailed
      exact (h.live k c hc hlive).2 hfailed
  · rcases hcall hd with ⟨-, rfl⟩ | ⟨hd, -⟩
    · rw [hid]
      exact h.callsOld k c hc
    · exact h.callsOld j d hd
  · rcases hcall hd with ⟨rfl, rfl⟩ | ⟨hd, hne⟩
    · rcases hcall hd' with ⟨rfl, -⟩ | ⟨-, hne'⟩
      · rfl
      · exact absurd (heq.symm.trans hid) hne'
    · rcases hcall hd' with ⟨rfl, rfl⟩ | ⟨hd', -⟩
      · exact absurd (heq.trans hid) hne
      · exact h.once j j' d d' hd hd' heq
  · rcases hcall hd with ⟨-, rfl⟩ | ⟨hd, -⟩
    · rw [hid]
      exact h.live k c hc hlive
    · exact h.live j d hd hover
  · rcases hcall hd with ⟨-, rfl⟩ | ⟨hd, hne⟩
    · exact hok
    · exact (h.calls j d hd).mono (fun p hp => hchange.othersHeld hne hp) fun p hp => h.othersOwned hchange hne hp

/-- A live call goes on without a change of the table. -/
theorem Inv.move (h : st.Inv) {k : Nat} {c c' : Call} (hc : st.calls[k]? = some c) (hlive : c.phase ≠ .ended)
    (hid : c'.id = c.id) (hok : CallOk st.used c') : Inv { st with calls := st.calls.set k c' } :=
  h.goOn hc hlive hid (Grows.same st.used c.id).toChange hok

theorem setCall_self {k : Nat} {c c' : Call} {phase : Phase} (hc : st.calls[k]? = some c) :
    (st.setCall k c' phase).calls[k]? = some { c' with phase := phase } := by
  obtain ⟨hk, -⟩ := List.getElem?_eq_some_iff.mp hc
  exact getElem?_set_self hk

theorem Inv.same_call (h : st.Inv) {j k : Nat} {c d : Call} (hc : st.calls[k]? = some c) (hd : st.calls[j]? = some d)
    (heq : d.id = c.id) : d = c := by
  obtain rfl : j = k := h.once j k d c hd hc heq
  exact some.inj (hd.symm.trans hc)

/-! ### Steps of a call -/

/-- The fields so far and the next one have what they had, or the port of the next one. -/
theorem forall_fieldPorts_snoc {taken : List Field} {P : Int → Prop}
    (htaken : ∀ p ∈ fieldPorts config taken, P p) (hf : 0 < value config f.name → P (value config f.name)) :
    ∀ p ∈ fieldPorts config (taken ++ [f]), P p := by
  intro p hp
  obtain ⟨hpos, g, hg, rfl⟩ := mem_fieldPorts.mp hp
  rcases mem_append.mp hg with hg | hg
  · exact htaken _ (mem_fieldPorts.mpr ⟨hpos, g, hg, rfl⟩)
  · rw [mem_singleton.mp hg] at hpos ⊢
    exact hf hpos

theorem mem_fieldPorts_put {taken : List Field} {port p : Int}
    (hp : p ∈ fieldPorts (config.put f.name port) (taken ++ [f])) : p ∈ fieldPorts config taken ∨ p = port := by
  obtain ⟨hpos, g, hg, hval⟩ := mem_fieldPorts.mp hp
  rw [value_put] at hval
  split at hval
  · exact .inr hval.symm
  · next hne =>
      rcases mem_append.mp hg with hg | hg
      · exact .inl (mem_fieldPorts.mpr ⟨hpos, g, hg, hval⟩)
      · exact absurd (congrArg Field.name (mem_singleton.mp hg)) hne

theorem forall_hostPorts_snoc {P : Int → Prop} (hall : ∀ p ∈ hostPorts hosts, P p)
    (hhost : 0 < host → P host) : ∀ p ∈ hostPorts (hosts ++ [host]), P p := by
  intro p hp
  obtain ⟨hmem, hpos⟩ := mem_hostPorts.mp hp
  rcases mem_append.mp hmem with hmem | hmem
  · exact hall p (mem_hostPorts.mpr ⟨hmem, hpos⟩)
  · obtain rfl := mem_singleton.mp hmem
    exact hhost hpos

/-- A port that the install has already is reserved. -/
theorem reserve_held {id : Nat} {p : Int} (hp : Held st.used id p) :
    Grows st.used (st.Reserve p id).used id ∧ Owned (st.Reserve p id).used id p := by
  obtain ⟨e, he, hadded⟩ := hp
  refine State.Reserve_grows fun e' he' => ?_
  obtain rfl : e = e' := some.inj (he.symm.trans he')
  exact hadded

/-- Giving everything back leaves the others what they have. -/
theorem Inv.ReleaseAll_change (h : st.Inv) (id : Nat) : Change st.used (st.ReleaseAll id).used id := by
  refine ⟨fun p e he hne => ?_, fun p e he => ?_⟩
  · show (st.used.keep _).get? p = _
    rw [Table.get?_keep, he, filter_some, if_pos]
    exact decide_eq_true fun howner => hne (h.added p e id he howner)
  · have he' : (st.used.keep _).get? p = some e := he
    rw [Table.get?_keep] at he'
    exact .inl (filter_eq_some_iff.mp he').1

section Call

variable (h : st.Inv) {k : Nat} {c : Call} (hc : st.calls[k]? = some c)
include h hc

theorem Inv.stands {phase : Phase} (hphase : c.phase = phase) (hne : phase ≠ .ended) :
    c.phase ≠ .ended ∧ CallOk st.used c := ⟨fun heq => hne (hphase.symm.trans heq), h.calls k c hc⟩

theorem Inv.takeField {rest : List Field}
    (hphase : c.phase = .fields (f :: rest)) : (st.takeField k c f rest).Inv := by
  have hlive : c.phase ≠ .ended := by simp [hphase]
  obtain ⟨taken, heq, htaken⟩ : ∃ taken, c.app.fields = taken ++ f :: rest ∧
      ∀ p ∈ fieldPorts c.config taken, Held st.used c.id p := by
    have hok := h.calls k c hc
    simp only [CallOk, hphase] at hok
    exact hok
  have hfields : c.app.fields = taken ++ [f] ++ rest := by
    rw [heq, append_assoc]
    rfl
  simp only [State.takeField]
  split
  · split
    · next hpos =>
        cases htry : st.ReserveIfAvailable (value c.config f.name) c.id with
        | none => exact h.move hc hlive rfl trivial
        | some st₁ =>
          obtain ⟨rfl, hfree⟩ := State.ReserveIfAvailable_some htry
          have hown : ∀ e, st.used.get? (value c.config f.name) = some e → e.addedBy = c.id := by
            intro e he
            rw [hfree] at he
            cases he
          have hgrows := (State.Reserve_grows hown).1
          exact h.goOn hc hlive rfl hgrows.toChange ⟨taken ++ [f], hfields, forall_fieldPorts_snoc
            (fun p hp => hgrows.held p (htaken p hp)) fun _ => ⟨_, get?_put_self _ _ _, rfl⟩⟩
    · next hpos =>
        exact h.move hc hlive rfl
          ⟨taken ++ [f], hfields, forall_fieldPorts_snoc htaken fun hpos' => absurd hpos' hpos⟩
  · generalize (if value c.config f.name ≠ 0 then value c.config f.name
      else if f.default ≠ 0 then f.default else wellKnownPortMax + 1) = preferred
    cases htry : st.Allocate preferred c.id with
    | none => exact h.move hc hlive rfl trivial
    | some r =>
      obtain ⟨used, heq', hgrows, hheld⟩ := State.Allocate_grows htry
      obtain ⟨st₁, port⟩ := r
      subst heq'
      refine h.goOn hc hlive rfl hgrows.toChange ⟨taken ++ [f], hfields, fun p hp => ?_⟩
      rcases mem_fieldPorts_put hp with hp | rfl
      · exact hgrows.held p (htaken p hp)
      · exact hheld

theorem Inv.reserveField {rest : List Field} (hphase : c.phase = .reserveFields (f :: rest)) :
    ((if 0 < value c.config f.name then st.Reserve (value c.config f.name) c.id else st).setCall k c (.reserveFields rest)).Inv := by
  obtain ⟨hlive, hok⟩ := h.stands hc hphase nofun
  simp only [CallOk, hphase] at hok
  obtain ⟨hall, taken, heq, htaken⟩ := hok
  have hfields : c.app.fields = taken ++ [f] ++ rest := by
    rw [heq, append_assoc]
    rfl
  split
  · next hpos =>
      have hmem : value c.config f.name ∈ fieldPorts c.config c.app.fields :=
        mem_fieldPorts.mpr ⟨hpos, f, by rw [heq]; exact mem_append_right _ mem_cons_self, rfl⟩
      obtain ⟨hgrows, hown⟩ := reserve_held (hall _ hmem)
      exact h.goOn hc hlive rfl hgrows.toChange ⟨fun p hp => hgrows.held p (hall p hp), taken ++ [f], hfields,
        forall_fieldPorts_snoc (fun p hp => hgrows.owned p (htaken p hp)) fun _ => hown⟩
  · next hpos =>
      exact h.move hc hlive rfl
        ⟨hall, taken ++ [f], hfields, forall_fieldPorts_snoc htaken fun hpos' => absurd hpos' hpos⟩

/-- The next mapping of the deployment gets its port, or the install looks for another one. -/
theorem Inv.takeHost
    (hphase : c.phase = .hosts done original (host :: rest)) {b : Bool}
    (hs : st.stepCall k b c = some st') : st'.Inv := by
  obtain ⟨hlive, hok⟩ := h.stands hc hphase nofun
  simp only [CallOk, hphase] at hok
  obtain ⟨hfields, hdone, horiginal⟩ := hok
  have hmore : ∀ port, ∀ r ∈ original, r.2 ∈ done ++ [port] := fun port r hr => mem_append_left _ (horiginal r hr)
  simp only [State.stepCall, hphase] at hs
  split at hs
  · cases hs
    exact h.move hc hlive rfl
      ⟨hfields, forall_hostPorts_snoc hdone fun hpos => absurd hpos (Int.lt_irrefl 0), hmore 0⟩
  · cases htry : st.ReserveIfAvailableForOwner (align c.app c.config host) c.id with
    | none =>
      simp only [htry, some.injEq] at hs
      subst hs
      exact h.move hc hlive rfl ⟨hfields, hdone, horiginal⟩
    | some st₁ =>
      simp only [htry, some.injEq] at hs
      subst hs
      obtain ⟨rfl, howner⟩ := State.ReserveIfAvailableForOwner_some htry
      obtain ⟨hgrows, hown⟩ := State.Reserve_grows fun e he => h.added _ e c.id he (howner e he)
      exact h.goOn hc hlive rfl hgrows.toChange ⟨fun p hp => hgrows.owned p (hfields p hp), forall_hostPorts_snoc
        (fun p hp => hgrows.held p (hdone p hp)) fun _ => ⟨_, get?_put_self _ _ _, rfl⟩, hmore _⟩

theorem Inv.allocateHost
    (hphase : c.phase = .allocateHost done original host rest) {b : Bool}
    (hs : st.stepCall k b c = some st') : st'.Inv := by
  obtain ⟨hlive, hok⟩ := h.stands hc hphase nofun
  simp only [CallOk, hphase] at hok
  obtain ⟨hfields, hdone, horiginal⟩ := hok
  simp only [State.stepCall, hphase] at hs
  cases htry : st.Allocate host c.id with
  | none =>
    simp only [htry, some.injEq] at hs
    subst hs
    exact h.move hc hlive rfl trivial
  | some r =>
    obtain ⟨st₁, port⟩ := r
    simp only [htry, some.injEq] at hs
    subst hs
    obtain ⟨used, rfl, hgrows, hheld⟩ := State.Allocate_grows htry
    refine h.goOn hc hlive rfl hgrows.toChange ⟨fun p hp => hgrows.owned p (hfields p hp),
      forall_hostPorts_snoc (fun p hp => hgrows.held p (hdone p hp)) fun _ => hheld, fun r hr => ?_⟩
    rcases mem_cons.mp hr with rfl | hr
    · exact mem_append_right _ (mem_singleton.mpr rfl)
    · exact mem_append_left _ (horiginal r hr)

/-- The fields follow the ports that were allocated, and what is given up is no port of the install. -/
theorem Inv.updateFields
    (hphase : c.phase = .hosts done original []) {b : Bool}
    (hs : st.stepCall k b c = some st') : st'.Inv := by
  obtain ⟨hlive, hok⟩ := h.stands hc hphase nofun
  simp only [CallOk, hphase] at hok
  obtain ⟨hfields, hdone, horiginal⟩ := hok
  simp only [State.stepCall, hphase, some.injEq] at hs
  subst hs
  refine h.move hc hlive rfl ⟨fun p hp => ?_, hdone, fun p hp => ?_⟩
  · obtain ⟨hpos, f, hf, rfl⟩ := mem_fieldPorts.mp hp
    rcases value_updateFields original c.config c.app.fields f.name with heq | ⟨r, hr, heq⟩
    · refine .inl (hfields _ (mem_fieldPorts.mpr ⟨hpos, f, hf, heq.symm⟩))
    · rw [heq]
      exact .inr (horiginal r hr)
  · simp only [unused, mem_filter, decide_eq_true_eq] at hp
    refine ⟨hp.2.1, fun hmem => ?_⟩
    obtain ⟨-, f, hf, hval⟩ := mem_fieldPorts.mp hmem
    exact hp.2.2 f hf hval

theorem Inv.releaseUnused {port : Int}
    (hphase : c.phase = .release hosts (port :: rest)) :
    ((st.ReleaseIfOwned port c.id).setCall k c (.release hosts rest)).Inv := by
  obtain ⟨hlive, hok⟩ := h.stands hc hphase fun heq => by cases heq
  simp only [CallOk, hphase] at hok
  obtain ⟨hfields, hhosts, hrest⟩ := hok
  have hrest' : ∀ p ∈ rest, p ∉ hosts ∧ p ∉ fieldPorts c.config c.app.fields :=
    fun p hp => hrest p (mem_cons_of_mem _ hp)
  obtain ⟨hnot, hnotField⟩ := hrest port mem_cons_self
  simp only [State.ReleaseIfOwned]
  split
  · next hown =>
      obtain ⟨e, he, howner⟩ := Option.any_eq_true .. |>.mp hown
      have hget : ∀ {p}, p ≠ port → (st.used.erase port).get? p = st.used.get? p := by
        intro p hne
        rw [get?_erase, if_neg hne]
      have hchange : Change st.used (st.used.erase port) c.id := by
        refine ⟨fun p e' he' hne => (hget ?_).trans he', fun p e' he' => ?_⟩
        · rintro rfl
          obtain rfl : e = e' := Option.some.inj (he.symm.trans he')
          exact hne (h.added p e c.id he (of_decide_eq_true howner))
        · obtain ⟨-, he'⟩ := get?_erase_some.mp he'
          exact .inl he'
      refine h.goOn hc hlive rfl hchange ⟨fun p hp => ?_, fun p hp => ?_, hrest'⟩
      · refine (hfields p hp).imp_left ?_
        rintro ⟨e', he', howner'⟩
        refine ⟨e', (hget ?_).trans he', howner'⟩
        rintro rfl
        exact hnotField hp
      · obtain ⟨e', he', hadded⟩ := hhosts p hp
        refine ⟨e', (hget ?_).trans he', hadded⟩
        rintro rfl
        exact hnot (mem_hostPorts.mp hp).1
  · exact h.move hc hlive rfl ⟨hfields, hhosts, hrest'⟩

theorem Inv.reserveHost (hphase : c.phase = .reserveHosts hosts (host :: rest)) :
    ((if 0 < host then st.Reserve host c.id else st).setCall k c (.reserveHosts hosts rest)).Inv := by
  obtain ⟨hlive, hok⟩ := h.stands hc hphase nofun
  simp only [CallOk, hphase] at hok
  obtain ⟨hfields, hhosts, taken, heq, htaken⟩ := hok
  have hsplit : hosts = taken ++ [host] ++ rest := by
    rw [heq, append_assoc]
    rfl
  split
  · next hpos =>
      have hmem : host ∈ hostPorts hosts :=
        mem_hostPorts.mpr ⟨by rw [heq]; exact mem_append_right _ mem_cons_self, hpos⟩
      obtain ⟨hgrows, hown⟩ := reserve_held (hhosts host hmem)
      exact h.goOn hc hlive rfl hgrows.toChange ⟨fun p hp => (hfields p hp).imp_left (hgrows.owned p),
        fun p hp => hgrows.held p (hhosts p hp), taken ++ [host], hsplit,
        forall_hostPorts_snoc (fun p hp => hgrows.owned p (htaken p hp)) fun _ => hown⟩
  · next hpos =>
      exact h.move hc hlive rfl
        ⟨hfields, hhosts, taken ++ [host], hsplit, forall_hostPorts_snoc htaken fun hpos' => absurd hpos' hpos⟩

/-- The install is saved, with all its ports. -/
theorem Inv.commit (hphase : c.phase = .finish hosts) :
    Inv { st.setCall k c .ended with rows := st.rows.put c.id ⟨c.appID, c.config, false, c.app.fields, hosts, false⟩ } := by
  obtain ⟨hlive, hok⟩ := h.stands hc hphase nofun
  simp only [CallOk, hphase] at hok
  obtain ⟨hfields, hhosts⟩ := hok
  obtain ⟨hnone, hnot⟩ := h.live k c hc hlive
  have hnext : (st.setCall k c .ended).Inv := h.move hc hlive rfl trivial
  have hput : ∀ {id row}, (st.rows.put c.id ⟨c.appID, c.config, false, c.app.fields, hosts, false⟩).get? id = some row →
      (id = c.id ∧ row = ⟨c.appID, c.config, false, c.app.fields, hosts, false⟩) ∨ st.rows.get? id = some row := by
    intro id row hrow
    rw [get?_put] at hrow
    split at hrow
    · next heq => exact .inl ⟨heq, (some.inj hrow).symm⟩
    · exact .inr hrow
  have hother : ∀ {id}, id ≠ c.id →
      (st.rows.put c.id ⟨c.appID, c.config, false, c.app.fields, hosts, false⟩).get? id = st.rows.get? id := by
    intro id hne
    exact get?_put_of_ne _ _ hne
  refine ⟨h.added, fun id row hrow hf p hp => ?_, h.givenBack, fun id row hrow herror => ?_, fun id row hrow => ?_,
    fun id hid => ?_, hnext.callsOld, hnext.once, fun j d hd hover => ?_, hnext.calls⟩
  · rcases hput hrow with ⟨rfl, rfl⟩ | hrow
    · exact (Row.mem_ports.mp hp).elim (hfields p) (hhosts p)
    · exact h.owned id row hrow hf p hp
  · rcases hput hrow with ⟨-, rfl⟩ | hrow
    · cases herror
    · exact h.error id row hrow herror
  · rcases hput hrow with ⟨rfl, -⟩ | hrow
    · exact h.callsOld k c hc
    · exact h.rowsOld id row hrow
  · obtain ⟨hlt, hrow⟩ := h.failedOld id hid
    refine ⟨hlt, (hother ?_).trans hrow⟩
    rintro rfl
    exact hnot hid
  · obtain ⟨hrow, hfailed⟩ := hnext.live j d hd hover
    refine ⟨(hother fun heq => hover ?_).trans hrow, hfailed⟩
    rw [hnext.same_call (setCall_self hc) hd heq]

/-- A call fails and has nothing pending. -/
theorem Inv.fail (hphase : c.phase = .failing)
    (hpending : ∀ r ∈ st.used.rows, r.2.addedBy = c.id → r.2.owner = some c.id) :
    Inv { (st.ReleaseAll c.id).setCall k c .ended with failedCalls := c.id :: st.failedCalls } := by
  have hlive : c.phase ≠ .ended := by simp [hphase]
  have hnext : ((st.ReleaseAll c.id).setCall k c .ended).Inv := h.goOn hc hlive rfl (h.ReleaseAll_change c.id) trivial
  refine ⟨hnext.added, hnext.owned, fun id hid p e he hadded => ?_, h.error, h.rowsOld, fun id hid => ?_, hnext.callsOld,
    hnext.once, fun j d hd hover => ?_, hnext.calls⟩
  · rcases mem_cons.mp hid with rfl | hid
    · have he' : (st.used.keep _).get? p = some e := he
      rw [get?_keep_some] at he'
      exact of_decide_eq_true he'.2 (hpending (p, e) (mem_rows.mpr he'.1) hadded)
    · exact hnext.givenBack id hid p e he hadded
  · rcases mem_cons.mp hid with rfl | hid
    · exact ⟨h.callsOld k c hc, (h.live k c hc hlive).1⟩
    · exact h.failedOld id hid
  · obtain ⟨hrow, hfailed⟩ := hnext.live j d hd hover
    refine ⟨hrow, fun hmem => ?_⟩
    rcases mem_cons.mp hmem with heq | hmem
    · exact hover (by rw [hnext.same_call (setCall_self hc) hd heq])
    · exact hfailed hmem

theorem Inv.stepCall {done : Bool}
    (hcareful : c.phase = .failing → ∀ r ∈ st.used.rows, r.2.addedBy = c.id → r.2.owner = some c.id)
    (hs : st.stepCall k done c = some st') : st'.Inv := by
  obtain ⟨id, appID, app, given, config, phase⟩ := c
  have hok := h.calls k _ hc
  cases phase with
  | start =>
    obtain rfl := some.inj hs
    cases done with
    | true => exact h.move hc nofun rfl ⟨[], rfl, nofun⟩
    | false => exact h.move hc nofun rfl trivial
  | fields rest =>
    cases rest with
    | nil =>
      obtain rfl := some.inj hs
      obtain ⟨taken, heq, htaken⟩ := hok
      rw [append_nil] at heq
      exact h.move hc nofun rfl ⟨fun p hp => htaken p (heq ▸ hp), [], rfl, nofun⟩
    | cons f rest =>
      obtain rfl := some.inj hs
      exact h.takeField hc rfl
  | reserveFields rest =>
    cases rest with
    | nil =>
      obtain rfl := some.inj hs
      obtain ⟨-, taken, heq, htaken⟩ := hok
      rw [append_nil] at heq
      exact h.move hc nofun rfl ⟨fun p hp => htaken p (heq ▸ hp), nofun, nofun⟩
    | cons f rest =>
      obtain rfl := some.inj hs
      exact h.reserveField hc rfl
  | hosts done original rest =>
    cases rest with
    | nil => exact h.updateFields hc rfl hs
    | cons host rest => exact h.takeHost hc rfl hs
  | allocateHost done original host rest => exact h.allocateHost hc rfl hs
  | release hosts rest =>
    cases rest with
    | nil =>
      obtain rfl := some.inj hs
      exact h.move hc nofun rfl ⟨hok.1, hok.2.1, [], rfl, nofun⟩
    | cons port rest =>
      obtain rfl := some.inj hs
      exact h.releaseUnused hc rfl
  | reserveHosts hosts rest =>
    cases rest with
    | nil =>
      obtain rfl := some.inj hs
      obtain ⟨hfields, -, taken, heq, htaken⟩ := hok
      rw [append_nil] at heq
      refine h.move hc nofun rfl ⟨fun p hp => ?_, heq ▸ htaken⟩
      rcases hfields p hp with hown | hmem
      · exact hown
      · exact htaken p (mem_hostPorts.mpr ⟨heq ▸ hmem, (mem_fieldPorts.mp hp).1⟩)
    | cons host rest =>
      obtain rfl := some.inj hs
      exact h.reserveHost hc rfl
  | finish hosts =>
    cases done with
    | true =>
      obtain rfl := some.inj hs
      exact h.commit hc rfl
    | false =>
      obtain rfl := some.inj hs
      exact h.move hc nofun rfl trivial
  | failing =>
    obtain rfl := some.inj hs
    exact h.fail hc rfl (hcareful rfl)
  | ended => cases hs

end Call

/-! ### The other steps -/

theorem Inv.install (h : st.Inv) (appID : String) (app : AppDefinition) (given : List String) (config : Table String Int) :
    Inv { st with calls := st.calls ++ [⟨st.nextID, appID, app, given, config, .start⟩], nextID := st.nextID + 1 } := by
  have hcall : ∀ {j d}, (st.calls ++ [⟨st.nextID, appID, app, given, config, .start⟩])[j]? = some d →
      st.calls[j]? = some d ∨ (j = st.calls.length ∧ d = ⟨st.nextID, appID, app, given, config, .start⟩) := by
    intro j d hd
    rcases Nat.lt_trichotomy j st.calls.length with hlt | heq | hgt
    · rw [getElem?_append_left hlt] at hd
      exact .inl hd
    · subst heq
      rw [getElem?_concat_length] at hd
      exact .inr ⟨rfl, (some.inj hd).symm⟩
    · rw [getElem?_eq_none (by rw [length_append]; exact hgt)] at hd
      cases hd
  refine ⟨h.added, h.owned, h.givenBack, h.error, fun id row hrow => ?_, fun id hid => ?_, fun j d hd => ?_,
    fun i j d d' hd hd' heq => ?_, fun j d hd hover => ?_, fun j d hd => ?_⟩
  · exact Nat.lt_succ_of_lt (h.rowsOld id row hrow)
  · exact ⟨Nat.lt_succ_of_lt (h.failedOld id hid).1, (h.failedOld id hid).2⟩
  · rcases hcall hd with hd | ⟨-, rfl⟩
    · exact Nat.lt_succ_of_lt (h.callsOld j d hd)
    · exact Nat.lt_succ_self _
  · rcases hcall hd with hd | ⟨rfl, rfl⟩
    · rcases hcall hd' with hd' | ⟨-, rfl⟩
      · exact h.once i j d d' hd hd' heq
      · have hlt := h.callsOld i d hd
        simp only [heq, Nat.lt_irrefl] at hlt
    · rcases hcall hd' with hd' | ⟨rfl, -⟩
      · have hlt := h.callsOld j d' hd'
        simp only [← heq, Nat.lt_irrefl] at hlt
      · rfl
  · rcases hcall hd with hd | ⟨-, rfl⟩
    · exact h.live j d hd hover
    · refine ⟨?_, fun hid => Nat.lt_irrefl _ (h.failedOld _ hid).1⟩
      cases hrow : st.rows.get? st.nextID with
      | none => rfl
      | some row => exact absurd (h.rowsOld _ row hrow) (Nat.lt_irrefl _)
  · rcases hcall hd with hd | ⟨-, rfl⟩
    · exact h.calls j d hd
    · trivial

/-- A saved install fails. -/
theorem Inv.failInstall (h : st.Inv) (id : Nat) (marked : Bool) :
    Inv { st with rows := st.rows.update fun id' row => if id' = id then { row with failed := true, error := marked } else row } := by
  have hget : ∀ {i row}, (st.rows.update fun id' row => if id' = id then { row with failed := true, error := marked } else row).get? i
      = some row → row.failed = true ∨ st.rows.get? i = some row := by
    intro i row hrow
    obtain ⟨old, hold, rfl⟩ := get?_update_some.mp hrow
    split
    · exact .inl rfl
    · exact .inr hold
  have hnone : ∀ {i}, st.rows.get? i = none →
      (st.rows.update fun id' row => if id' = id then { row with failed := true, error := marked } else row).get? i = none := by
    intro i hi
    rw [get?_update, hi, map_none]
  refine ⟨h.added, fun i row hrow hf p hp => ?_, h.givenBack, fun i row hrow herror => ?_, fun i row hrow => ?_,
    fun i hi => ⟨(h.failedOld i hi).1, hnone (h.failedOld i hi).2⟩, h.callsOld, h.once,
    fun j d hd hover => ⟨hnone (h.live j d hd hover).1, (h.live j d hd hover).2⟩, h.calls⟩
  · rcases hget hrow with hfailed | hrow
    · rw [hf] at hfailed
      cases hfailed
    · exact h.owned i row hrow hf p hp
  · rcases hget hrow with hfailed | hrow
    · exact hfailed
    · exact h.error i row hrow herror
  · obtain ⟨old, hold, -⟩ := get?_update_some.mp hrow
    exact h.rowsOld i old hold

/-- A failed install gives its ports back. -/
theorem Inv.releaseFailed (h : st.Inv) {id : Nat} (hfailed : (st.rows.get? id).any Row.failed = true) :
    (st.ReleaseAll id).Inv := by
  obtain ⟨row, hrow, hf⟩ := Option.any_eq_true .. |>.mp hfailed
  have hchange := h.ReleaseAll_change id
  refine ⟨fun p e i he hi => ?_, fun i row' hrow' hf' p hp => ?_, fun i hi p e he hadded => ?_, h.error, h.rowsOld, h.failedOld,
    h.callsOld, h.once, h.live, fun j d hd => ?_⟩
  · rcases hchange.new p e he with he | ⟨hadded, howner⟩
    · exact h.added p e i he hi
    · rw [hadded, howner i hi]
  · refine h.othersOwned hchange ?_ (h.owned i row' hrow' hf' p hp)
    rintro rfl
    obtain rfl : row = row' := Option.some.inj (hrow.symm.trans hrow')
    rw [hf] at hf'
    cases hf'
  · rcases hchange.new p e he with he | ⟨hadded', -⟩
    · exact h.givenBack i hi p e he hadded
    · have hnone := (h.failedOld i hi).2
      rw [← hadded, hadded', hrow] at hnone
      cases hnone
  · by_cases hover : d.phase = .ended
    · simp only [CallOk, hover]
    · have hne : d.id ≠ id := by
        rintro rfl
        rw [(h.live j d hd hover).1] at hrow
        cases hrow
      exact (h.calls j d hd).mono (fun p hp => hchange.othersHeld hne hp) fun p hp => h.othersOwned hchange hne hp

/-! ### A restart -/

theorem putAll_get? (ports : List Int) (id : Nat) (used : Table Int Entry) (p : Int) :
    (putAll ports id used).get? p = if p ∈ ports then some ⟨some id, id⟩ else used.get? p := by
  induction ports generalizing used with
  | nil => rfl
  | cons port rest ih =>
    have hstep : (putAll (port :: rest) id used).get? p = (putAll rest id (used.put port ⟨some id, id⟩)).get? p := rfl
    rw [hstep, ih, get?_put]
    by_cases hrest : p ∈ rest
    · rw [if_pos hrest, if_pos (mem_cons_of_mem _ hrest)]
    · rw [if_neg hrest]
      by_cases heq : p = port
      · rw [if_pos heq, if_pos (heq ▸ mem_cons_self)]
      · rw [if_neg heq, if_neg fun hmem => (mem_cons.mp hmem).elim heq hrest]

variable {catalog : String → Option AppDefinition}

section

variable (rows : List (Nat × Row))

include rows

/-- Rows without the port leave it as it is. -/
theorem scanRows_without {p : Int} (used : Table Int Entry)
    (h : ∀ r ∈ rows, r.2.error = false → p ∉ extractPorts catalog r.2) :
    (rows.foldl (scanRow catalog) used).get? p = used.get? p := by
  induction rows generalizing used with
  | nil => rfl
  | cons r rest ih =>
    rw [foldl_cons, ih _ fun r' hr' => h r' (mem_cons_of_mem _ hr'), scanRow]
    cases herror : r.2.error with
    | true => rw [if_pos rfl]
    | false => rw [if_neg (by decide), putAll_get?, if_neg (h r mem_cons_self herror)]

/-- A port belongs to the last row that has it. -/
theorem scanRows_last {p : Int} {r : Nat × Row}
    (used : Table Int Entry) (hr : r ∈ rows) (herror : r.2.error = false) (hp : p ∈ extractPorts catalog r.2)
    (hlater : ∀ before after, rows = before ++ r :: after → ∀ r' ∈ after, r'.2.error = false → p ∉ extractPorts catalog r'.2) :
    (rows.foldl (scanRow catalog) used).get? p = some ⟨some r.1, r.1⟩ := by
  obtain ⟨before, after, rfl⟩ := append_of_mem hr
  rw [foldl_append, foldl_cons, scanRows_without after _ (hlater before after rfl), scanRow, herror,
    if_neg (by decide), putAll_get?, if_pos hp]

/-- Every entry of the scan is a row's. -/
theorem scanRows_entry {p : Int} {e : Entry}
    (used : Table Int Entry) (h : (rows.foldl (scanRow catalog) used).get? p = some e) :
    used.get? p = some e ∨ ∃ r ∈ rows, e = ⟨some r.1, r.1⟩ := by
  induction rows generalizing used with
  | nil => exact .inl h
  | cons r rest ih =>
    rcases ih _ h with hrow | ⟨r', hr', heq⟩
    · rw [scanRow] at hrow
      split at hrow
      · exact .inl hrow
      · rw [putAll_get?] at hrow
        split at hrow
        · exact .inr ⟨r, mem_cons_self, (some.inj hrow).symm⟩
        · exact .inl hrow
    · exact .inr ⟨r', mem_cons_of_mem _ hr', heq⟩

end

theorem Init_entry {p : Int} {e : Entry} (h : (st.Init catalog).get? p = some e) :
    ∃ id row, st.rows.get? id = some row ∧ e = ⟨some id, id⟩ := by
  rcases scanRows_entry st.rows.rows .empty h with hnone | ⟨r, hr, heq⟩
  · cases hnone
  · exact ⟨r.1, r.2, mem_rows.mp hr, heq⟩

theorem Inv.restart (h : st.Inv) {catalog : String → Option AppDefinition} (hread : st.ReadBack catalog) :
    Inv { st with used := st.Init catalog, catalog := catalog, calls := [] } := by
  refine ⟨fun p e i he hi => ?_, fun id row hrow hf p hp => ?_, fun id hid p e he hadded => ?_, h.error, h.rowsOld, h.failedOld,
    fun k c hc => (nomatch hc), fun j k c d hc => (nomatch hc), fun k c hc => (nomatch hc), fun k c hc => nomatch hc⟩
  · obtain ⟨id, row, -, rfl⟩ := Init_entry he
    exact some.inj hi
  · have hmem : (id, row) ∈ st.rows.rows := mem_rows.mpr hrow
    have herror : row.error = false := by
      by_contra hne
      have hfailed := h.error id row hrow (Bool.not_eq_false _ |>.mp hne)
      rw [hf] at hfailed
      cases hfailed
    refine ⟨_, scanRows_last st.rows.rows .empty hmem herror (hread.1 (id, row) hmem hf p hp) ?_, rfl⟩
    intro before after heq r' hr' herror'
    have hpairs := hread.2
    rw [heq] at hpairs
    exact (pairwise_cons.mp (pairwise_append.mp hpairs).2.1).1 r' hr' hf herror' p hp
  · obtain ⟨id', row, hrow, rfl⟩ := Init_entry he
    have hnone := (h.failedOld id hid).2
    rw [← hadded, hrow] at hnone
    cases hnone

/-! ### Runs -/

theorem Inv.step (h : st.Inv) {a : Action} (hcareful : st.Careful a) (hs : st.step a = some st') : st'.Inv := by
  cases a with
  | install appID given config =>
    obtain ⟨app, -, rfl⟩ := map_eq_some_iff.mp hs
    exact h.install appID app given config
  | call k done =>
    obtain ⟨c, hc, hs⟩ := bind_eq_some_iff.mp hs
    exact h.stepCall hc (hcareful c hc) hs
  | bind ports =>
    cases hs
    exact ⟨h.added, h.owned, h.givenBack, h.error, h.rowsOld, h.failedOld, h.callsOld, h.once, h.live, h.calls⟩
  | failInstall id marked =>
    simp only [State.step] at hs
    split at hs
    · split at hs
      · cases hs
      · cases hs
        exact h.failInstall id marked
    · cases hs
  | releaseFailed id =>
    simp only [State.step] at hs
    split at hs
    · next hfailed =>
        cases hs
        exact h.releaseFailed hfailed
    · cases hs
  | restart catalog =>
    cases hs
    exact h.restart hcareful

/-- Ports are their apps' own in every state that careful steps reach. -/
theorem ports_sound_of_careful {acts : List Action} (h : st.Start) (hcareful : Runs.Meets State.step State.Careful acts st)
    (hr : Runs.run State.step acts st = some st') : st'.Sound :=
  (Runs.keeps (fun _ _ _ hi ha hs => Inv.step hi ha hs) h.inv hcareful hr).sound

/-- Two apps of a catalog; the first one's port is a field's default. -/
def twoApps : String → Option AppDefinition
  | "a" => some ⟨[⟨"port", 8080⟩], [8080]⟩
  | "b" => some ⟨[], [9000]⟩
  | _ => none

def fresh (catalog : String → Option AppDefinition) : State := ⟨8000, catalog, .empty, [], .empty, [], 0, []⟩

theorem start_fresh (catalog : String → Option AppDefinition) : (fresh catalog).Start :=
  ⟨fun _ _ _ h => (nomatch h), fun _ _ h => (nomatch h), fun _ _ h => (nomatch h), fun _ _ h => (nomatch h), rfl, rfl⟩

/-- The next steps of a call. -/
def steps (k n : Nat) : List Action := List.replicate n (.call k true)

/-- Installs of both apps that take turns, one of the first that fails on a port of the second, and a restart. -/
def apart : List Action :=
  [.install "a" [] .empty, .install "b" [] .empty] ++ steps 0 2 ++ steps 1 9 ++ steps 0 9 ++
    [.install "a" ["port"] (Table.empty.put "port" 9000)] ++ steps 2 3 ++ [.restart twoApps]

theorem apart_sound : ∃ st, Runs.run State.step apart (fresh twoApps) = some st ∧ st.Sound ∧ st.failedCalls = [2] ∧
    st.used.rows.map (fun r => (r.1, r.2.owner)) = [(9000, some 1), (8080, some 0)] := by
  have hrun : ∃ st, Runs.run State.step apart (fresh twoApps) = some st ∧ st.failedCalls = [2] ∧
      st.used.rows.map (fun r => (r.1, r.2.owner)) = [(9000, some 1), (8080, some 0)] := ⟨_, rfl, by decide +kernel⟩
  obtain ⟨st, hst, hfailed, hused⟩ := hrun
  exact ⟨st, hst, ports_sound_of_careful (start_fresh twoApps) (by decide +kernel) hst, hfailed, hused⟩

/-- An app whose second port field has no default. -/
def twoFields : String → Option AppDefinition
  | "c" => some ⟨[⟨"web", 8080⟩, ⟨"ssh", 0⟩], []⟩
  | _ => none

/-- After a restart the first of two installs of one app has lost its port; an install that fails on its second field keeps
the first one's port pending. -/
theorem restart_unsound :
    (∃ st, Runs.run State.step ([.install "a" [] .empty] ++ steps 0 11 ++ [.install "a" [] .empty] ++ steps 1 11 ++
      [.restart twoApps]) (fresh twoApps) = some st ∧ ¬ st.Sound) ∧
    ∃ st, Runs.run State.step ([.install "c" ["ssh"] (Table.empty.put "ssh" 22)] ++ steps 0 4) (fresh twoFields) = some st ∧
      ¬ st.Sound := by
  constructor
  · have hrun : ∃ st, Runs.run State.step ([.install "a" [] .empty] ++ steps 0 11 ++ [.install "a" [] .empty] ++ steps 1 11 ++
        [.restart twoApps]) (fresh twoApps) = some st ∧ st.used.get? 8080 = some ⟨some 1, 1⟩ ∧
        ∃ row ∈ st.rows.get? 0, row.failed = false ∧ 8080 ∈ row.ports := ⟨_, rfl, by decide +kernel⟩
    obtain ⟨st, hst, hused, row, hrow, hf, hp⟩ := hrun
    refine ⟨st, hst, fun h => ?_⟩
    obtain ⟨e, he, howner⟩ := h.owned 0 row hrow hf 8080 hp
    rw [hused] at he
    cases he
    cases howner
  · have hrun : ∃ st, Runs.run State.step ([.install "c" ["ssh"] (Table.empty.put "ssh" 22)] ++ steps 0 4) (fresh twoFields)
        = some st ∧ st.used.get? 8080 = some ⟨none, 0⟩ ∧ 0 ∈ st.failedCalls := ⟨_, rfl, by decide +kernel⟩
    obtain ⟨st, hst, hused, hfailed⟩ := hrun
    exact ⟨st, hst, fun h => h.givenBack 0 hfailed 8080 _ hused rfl⟩

end State

end LibreServ.Ports
