import LibreServ.Scopes

/-! No request to send a scope's record is lost, as long as no pass mistakes a new mark for the one it
listed and no pass sends an old record over a newer one that is about to be, or has been, ticked off. The
mark alone does not see to either: its counter starts again from one once the mark is gone, and nothing
orders the sends of two passes. -/

namespace LibreServ.Scopes

open Sections Cloud List Option Table

variable {scope : String} {record : SignedScope}

/-- Where a pass is with the scope it is working on: it has loaded the row, after `at_` requests, or its
record is in the store. -/
inductive Phase where
  | idle
  | read (scope : String) (at_ : ℕ) (found : Option (PrivateScope × Bytes))
  | sent (scope : String)

/-- The number of requests for each scope when the pass listed the marks, and where the pass is. -/
structure PassNote where
  listedAt : String → ℕ
  phase : Phase

inductive Op where
  | change (c : Change)
  | pass

def crew (c : Crypto) : Crew Op Label Input Empty State String ScopePublishReport PassNote where
  prog
    | .change ch => do
      Prog.act (.change ch) fun _ s => ((), commit ch s)
      return ⟨0, 0⟩
    | .pass => publishPendingScopes c
  restart k _ := k.elim
  start _ := ⟨fun _ => 0, .idle⟩
  note l i s g :=
    match l with
    | .list => { g with listedAt := s.requests }
    | .load scope => { g with phase := .read scope (s.requests scope) (s.tables.view scope) }
    | .send scope => if i.storeFails then g else { g with phase := .sent scope }
    | .clear _ _ => { g with phase := .idle }
    | _ => g

/-- The tables and the store before the first request. -/
def quiet (tables : Tables) (identity : Option Identity) (records : Table String SignedScope) :
    Pool Label Input State String ScopePublishReport PassNote :=
  ⟨⟨tables, identity, Table.empty, records, fun _ => 0, fun scope => (tables.view scope).toList⟩,
    fun _ => none⟩

/-- A scope and its owner's keys come into being only with a request. A record that was read before the
last request is sent only while the scope is marked and no pass that listed the marks since is between
its own send and its clear. A pass that finds the value it listed finds the mark it listed. -/
def InOrder (w : ℕ) (l : Label) (_ : Input) (s : State) (G : ℕ → Option PassNote) : Prop :=
  match l with
  | .change ch => ∀ scope, s.tables.view scope = none → ch.after.view scope ≠ none → scope ∈ ch.scopes
  | .send scope => ∀ g n v, G w = some g → g.phase = .read scope n v → s.requests scope = n ∨
      ((s.marks.get? scope).isSome ∧ ∀ w' g', G w' = some g' → g'.phase = .sent scope →
        g'.listedAt scope ≠ s.requests scope)
  | .clear scope mark => ∀ g, G w = some g → s.marks.get? scope = some mark →
      g.listedAt scope = s.requests scope
  | _ => True

/-- The record was built from this row and key. -/
def BuiltFrom (c : Crypto) (scope : String) (v : PrivateScope × Bytes) (record : SignedScope) : Prop :=
  ∃ id rand authPublic, toFixed sigPublicLen v.2 = some authPublic ∧
    buildScope c id rand scope v.1 authPublic = .ok record

/-- The stored record was built from the row and keys as they were at or after the last request. -/
def Current (c : Crypto) (s : State) (scope : String) : Prop :=
  ∃ record, s.records.get? scope = some record ∧ ∃ v ∈ s.since scope, BuiltFrom c scope v record

/-! ### The invariant -/

/-- What a pass has read, if no request came since, is still what there is to send. -/
def Fresh (s : State) (scope : String) (found : Option (PrivateScope × Bytes)) : Prop :=
  match found with
  | some v => v ∈ s.since scope
  | none => s.tables.view scope = none

structure Upheld (c : Crypto) (s : State) (G : ℕ → Option PassNote) : Prop where
  view_mem : ∀ scope v, s.tables.view scope = some v → v ∈ s.since scope
  marked : ∀ scope, s.requests scope ≠ 0 → s.tables.view scope ≠ none →
    (s.marks.get? scope).isSome ∨ Current c s scope
  listed : ∀ w g, G w = some g → ∀ scope, g.listedAt scope ≤ s.requests scope
  read : ∀ w g, G w = some g → ∀ scope n v, g.phase = .read scope n v →
    g.listedAt scope ≤ n ∧ n ≤ s.requests scope ∧ (n = s.requests scope → Fresh s scope v)
  sent : ∀ w g, G w = some g → ∀ scope, g.phase = .sent scope →
    g.listedAt scope = s.requests scope → Current c s scope

variable {c : Crypto} {s : State} {G : ℕ → Option PassNote} {w : ℕ} {g g' : PassNote}

/-- A section that only changes its worker's note keeps the invariant if the new note is in order. -/
theorem Upheld.with_note (h : Upheld c s G) (hlisted : ∀ scope, g'.listedAt scope ≤ s.requests scope)
    (hread : ∀ scope n v, g'.phase = .read scope n v →
      g'.listedAt scope ≤ n ∧ n ≤ s.requests scope ∧ (n = s.requests scope → Fresh s scope v))
    (hsent : ∀ scope, g'.phase = .sent scope → g'.listedAt scope = s.requests scope →
      Current c s scope) : Upheld c s (Function.update G w (some g')) where
  view_mem := h.view_mem
  marked := h.marked
  listed := forall_update_some.mpr ⟨hlisted, fun v k _ hk => h.listed v k hk⟩
  read := forall_update_some.mpr ⟨hread, fun v k _ hk => h.read v k hk⟩
  sent := forall_update_some.mpr ⟨hsent, fun v k _ hk => h.sent v k hk⟩

theorem isSome_queueScopePublish (scopes : List String) (marks : Table String UInt64) (scope : String) :
    ((queueScopePublish scopes marks).get? scope).isSome ↔
      (marks.get? scope).isSome ∨ scope ∈ scopes := by
  induction scopes generalizing marks with
  | nil => simp [queueScopePublish]
  | cons first rest ih =>
    have hstep : queueScopePublish (first :: rest) marks =
        queueScopePublish rest (marks.put first (nextMark (marks.get? first))) := rfl
    rw [hstep, ih, get?_put]
    by_cases hfirst : scope = first
    · simp [hfirst]
    · simp [hfirst]

/-- A request only adds to what was true: the marks it leaves stand for all it puts out of date. -/
theorem Upheld.commit (h : Upheld c s G) (ch : Change)
    (hnew : ∀ scope, s.tables.view scope = none → ch.after.view scope ≠ none → scope ∈ ch.scopes) :
    Upheld c (commit ch s) G := by
  -- the requests of a scope have not changed just when it was not asked for
  have hsame : ∀ scope n, n ≤ s.requests scope → n = (Scopes.commit ch s).requests scope →
      scope ∉ ch.scopes ∧ n = s.requests scope := by
    intro scope n hle heq
    have heq' : n = s.requests scope + ch.scopes.count scope := heq
    have hzero : ch.scopes.count scope = 0 := by omega
    exact ⟨count_eq_zero.mp hzero, by omega⟩
  have hsince : ∀ scope, scope ∉ ch.scopes →
      (Scopes.commit ch s).since scope = s.since scope ++ (ch.after.view scope).toList := by
    intro scope hscope
    exact if_neg hscope
  have hcurrent : ∀ scope, scope ∉ ch.scopes → Current c s scope →
      Current c (Scopes.commit ch s) scope := by
    rintro scope hscope ⟨record, hrecord, v, hv, hbuilt⟩
    refine ⟨record, hrecord, v, ?_, hbuilt⟩
    rw [hsince scope hscope]
    exact mem_append_left _ hv
  refine ⟨?_, ?_, ?_, ?_, ?_⟩
  · intro scope v hv
    have hmem : v ∈ (ch.after.view scope).toList := mem_toList.mpr hv
    by_cases hscope : scope ∈ ch.scopes
    · simpa [Scopes.commit, hscope] using hmem
    · rw [hsince scope hscope]
      exact mem_append_right _ hmem
  · intro scope hrequests hview
    by_cases hscope : scope ∈ ch.scopes
    · exact .inl ((isSome_queueScopePublish _ _ _).mpr (.inr hscope))
    have hold : s.tables.view scope ≠ none := fun hnone => hscope (hnew scope hnone hview)
    have hrequested : s.requests scope ≠ 0 := by
      intro hzero
      apply hrequests
      change s.requests scope + ch.scopes.count scope = 0
      rw [hzero, count_eq_zero.mpr hscope]
    rcases h.marked scope hrequested hold with hmark | hcur
    · exact .inl ((isSome_queueScopePublish _ _ _).mpr (.inl hmark))
    · exact .inr (hcurrent scope hscope hcur)
  · intro v k hk scope
    exact (h.listed v k hk scope).trans (Nat.le_add_right _ _)
  · intro v k hk scope n found hphase
    obtain ⟨hle, hle', hfresh⟩ := h.read v k hk scope n found hphase
    refine ⟨hle, hle'.trans (Nat.le_add_right _ _), fun hn => ?_⟩
    obtain ⟨hscope, hn⟩ := hsame scope n hle' hn
    cases found with
    | some u =>
      change u ∈ (Scopes.commit ch s).since scope
      rw [hsince scope hscope]
      exact mem_append_left _ (hfresh hn)
    | none =>
      by_contra hview
      exact hscope (hnew scope (hfresh hn) hview)
  · intro v k hk scope hphase hlisted
    obtain ⟨hscope, hlisted⟩ := hsame scope _ (h.listed v k hk scope) hlisted
    exact hcurrent scope hscope (h.sent v k hk scope hphase hlisted)

theorem current_put_of_ne {scope' : String} (hne : scope' ≠ scope) (h : Current c s scope') :
    Current c { s with records := s.records.put scope record } scope' := by
  obtain ⟨record', hrecord, hbuilt⟩ := h
  refine ⟨record', ?_, hbuilt⟩
  rw [get?_put_of_ne _ _ hne]
  exact hrecord

/-- A record goes out. If it is of what was read before the last request, the scope stays marked, and no
pass counts on the record that it replaces. -/
theorem Upheld.send (h : Upheld c s G) {n : ℕ} {v : PrivateScope × Bytes}
    (hg : G w = some g) (hphase : g.phase = .read scope n (some v))
    (hbuilt : BuiltFrom c scope v record)
    (hrule : s.requests scope = n ∨ ((s.marks.get? scope).isSome ∧ ∀ w' g', G w' = some g' →
      g'.phase = .sent scope → g'.listedAt scope ≠ s.requests scope)) :
    Upheld c { s with records := s.records.put scope record }
      (Function.update G w (some { g with phase := .sent scope })) := by
  obtain ⟨hlisted, hle, hfresh⟩ := h.read w g hg scope n _ hphase
  have hput : n = s.requests scope →
      Current c { s with records := s.records.put scope record } scope := by
    intro hn
    exact ⟨record, get?_put_self _ _ _, v, hfresh hn, hbuilt⟩
  refine ⟨h.view_mem, ?_, ?_, ?_, ?_⟩
  · intro scope' hrequests hview
    by_cases hscope : scope' = scope
    · subst hscope
      rcases hrule with hn | ⟨hmark, -⟩
      · exact .inr (hput hn.symm)
      · exact .inl hmark
    · exact (h.marked scope' hrequests hview).imp_right (current_put_of_ne hscope)
  · exact forall_update_some.mpr ⟨h.listed w g hg, fun v' k _ hk => h.listed v' k hk⟩
  · refine forall_update_some.mpr ⟨fun _ _ _ hsent => (nomatch hsent), ?_⟩
    exact fun v' k _ hk => h.read v' k hk
  · refine forall_update_some.mpr ⟨?_, ?_⟩
    · intro scope' hsent hcount
      obtain rfl : scope = scope' := Phase.sent.inj hsent
      change g.listedAt scope = s.requests scope at hcount
      exact hput (by omega)
    · intro v' k _ hk scope' hsent hcount
      by_cases hscope : scope' = scope
      · subst hscope
        rcases hrule with hn | ⟨-, hothers⟩
        · exact hput hn.symm
        · exact absurd hcount (hothers v' k hk hsent)
      · exact current_put_of_ne hscope (h.sent v' k hk scope' hsent hcount)

/-- The mark of a scope is taken away by a pass that sent the record, or found nothing to send, and that
no request has overtaken. -/
theorem Upheld.erase (h : Upheld c s G) (hg : G w = some g)
    (hphase : g.phase = .sent scope ∨ ∃ n, g.phase = .read scope n none)
    (hcount : g.listedAt scope = s.requests scope) :
    Upheld c { s with marks := s.marks.erase scope } G := by
  refine ⟨h.view_mem, ?_, h.listed, h.read, h.sent⟩
  intro scope' hrequests hview
  by_cases hscope : scope' = scope
  · subst hscope
    rcases hphase with hsent | ⟨n, hread⟩
    · exact .inr (h.sent w g hg scope' hsent hcount)
    · obtain ⟨hle, hle', hfresh⟩ := h.read w g hg scope' n none hread
      exact absurd (hfresh (by omega)) hview
  · refine (h.marked scope' hrequests hview).imp_left fun hmark => ?_
    rw [get?_erase, if_neg hscope]
    exact hmark

/-! ### The programs -/

variable {α : Type}

theorem clear_safe {mark : UInt64} (hphase : g.phase = .sent scope ∨ ∃ n, g.phase = .read scope n none) :
    (clear scope mark).Safe (crew c).note InOrder (Upheld c) (fun _ _ => True) w g
      fun _ _ => True := by
  refine Prog.safe_act fun i s G hinv hg hrule => ⟨?_, trivial, trivial⟩
  have hidle : ∀ t, Upheld c t G →
      Upheld c t (Function.update G w (some { g with phase := .idle })) := by
    intro t ht
    exact ht.with_note (ht.listed w g hg) (fun _ _ _ h => (nomatch h)) fun _ h => (nomatch h)
  apply hidle
  split
  · rename_i hfound
    exact hinv.erase hg hphase (hrule g hg hfound.2)
  · exact hinv

theorem publishScope_safe {id : Identity} {n : ℕ} {row : PrivateScope} {key : Bytes}
    {authPublic : SigPublic} (hphase : g.phase = .read scope n (some (row, key)))
    (hkey : toFixed sigPublicLen key = some authPublic) :
    (publishScope c id scope row authPublic).Safe (crew c).note InOrder (Upheld c) (fun _ _ => True) w
      g fun r g' => r = .ok true → g'.phase = .sent scope := by
  refine Prog.Safe.bind (fun _ g' => g' = g) ?_ ?_
  · refine Prog.safe_look fun i s G hinv hg _ => ⟨?_, trivial, rfl⟩
    change Upheld c s (Function.update G w (some g))
    rwa [update_of_eq hg]
  rintro rand g rfl
  cases hbuild : buildScope c id rand scope row authPublic with
  | error e => exact fun h => nomatch h
  | ok record =>
    refine Prog.safe_act fun i s G hinv hg hrule => ?_
    cases hstore : i.storeFails with
    | true =>
      simp only [crew, hstore, if_true]
      rw [update_of_eq hg]
      exact ⟨hinv, trivial, fun h => nomatch h⟩
    | false =>
      simp only [crew, hstore, Bool.false_eq_true, if_false]
      refine ⟨?_, trivial, fun _ => trivial⟩
      exact hinv.send hg hphase ⟨id, rand, authPublic, hkey, hbuild⟩ (hrule g n _ hg hphase)

theorem publishPending_safe (id : Identity) (scope : String) (mark : UInt64)
    (report : ScopePublishReport) (g : PassNote) :
    (publishPending c id scope mark report).Safe (crew c).note InOrder (Upheld c) (fun _ _ => True) w
      g fun _ _ => True := by
  refine Prog.Safe.bind
    (fun loaded g' => ∀ found, loaded = some found → ∃ n, g'.phase = .read scope n found) ?_ ?_
  · refine Prog.safe_look fun i s G hinv hg _ => ⟨?_, trivial, ?_⟩
    · refine hinv.with_note (hinv.listed w g hg) ?_ fun _ h => (nomatch h)
      intro scope' n v hread
      obtain ⟨rfl, rfl, rfl⟩ := Phase.read.inj hread
      refine ⟨hinv.listed w g hg scope, le_refl _, fun _ => ?_⟩
      cases hview : s.tables.view scope with
      | none => exact hview
      | some v => exact hinv.view_mem scope v hview
    · intro found hfound
      split at hfound
      · cases hfound
      · cases hfound
        exact ⟨_, rfl⟩
  rintro (_ | _ | ⟨row, key⟩) g' hloaded
  · trivial
  · obtain ⟨n, hphase⟩ := hloaded none rfl
    exact (clear_safe (.inr ⟨n, hphase⟩)).then fun _ _ => trivial
  · obtain ⟨n, hphase⟩ := hloaded _ rfl
    cases hkey : toFixed sigPublicLen key with
    | none => simp only [hkey]; trivial
    | some authPublic =>
      simp only [hkey]
      refine Prog.Safe.bind (fun sent g'' => sent = true → g''.phase = .sent scope)
        ((publishScope_safe hphase hkey).mono ?_) ?_
      · rintro (_ | sent) g'' hsent
        · trivial
        · exact fun h => hsent (h ▸ rfl)
      · rintro (_ | _) g'' hsent
        · trivial
        · exact (clear_safe (.inl (hsent rfl))).then fun _ _ => trivial

theorem publishEach_safe (id : Identity) (pending : List (String × UInt64)) (report : ScopePublishReport)
    (g : PassNote) :
    (publishEach c id pending report).Safe (crew c).note InOrder (Upheld c) (fun _ _ => True) w g
      fun _ _ => True := by
  induction pending generalizing report g with
  | nil => trivial
  | cons first rest ih =>
    obtain ⟨scope, mark⟩ := first
    exact (publishPending_safe id scope mark report g).then fun report g' => ih report g'

theorem publishPendingScopes_safe (g : PassNote) (hphase : g.phase = .idle) :
    (publishPendingScopes c).Safe (crew c).note InOrder (Upheld c) (fun _ _ => True) w g
      fun _ _ => True := by
  refine Prog.Safe.then ?_ ?_
  · refine Prog.safe_look fun i s G hinv hg _ => ⟨?_, trivial, trivial⟩
    refine hinv.with_note (fun _ => le_refl _) ?_ ?_
    · intro scope n v hread
      exact nomatch hphase.symm.trans hread
    · intro scope hsent
      exact nomatch hphase.symm.trans hsent
  rintro (_ | pending) g
  · trivial
  by_cases hpending : pending = []
  · simp only [hpending]
    trivial
  simp only [hpending]
  refine Prog.Safe.then ?_ ?_
  · refine Prog.safe_look fun i s G hinv hg _ => ⟨?_, trivial, trivial⟩
    change Upheld c s (Function.update G w (some g))
    rwa [update_of_eq hg]
  rintro (_ | id) g
  · trivial
  · exact publishEach_safe id pending ⟨0, 0⟩ g

theorem crew_keeps (c : Crypto) :
    Pool.Keeps (crew c) InOrder (Upheld c) (fun _ _ => True) fun _ _ => True where
  start op w s G hinv hw :=
    hinv.with_note (fun _ => Nat.zero_le _) (fun _ _ _ h => (nomatch h)) fun _ h => (nomatch h)
  safe op w := by
    cases op with
    | change ch =>
      refine Prog.Safe.then (Prog.safe_act fun i s G hinv hg hrule => ?_) fun _ _ => trivial
      refine ⟨?_, trivial, trivial⟩
      change Upheld c (commit ch s) (Function.update G w (some ((crew c).start (.change ch))))
      rw [update_of_eq hg]
      exact hinv.commit ch hrule
    | pass => exact publishPendingScopes_safe _ rfl
  restart k := k.elim

/-- In every state of a run whose sections are in order, a scope that was asked for, is there to be sent
and has no mark has a record in the store, built from its row and its owner's keys as they were at or
after the last request. -/
theorem published_since_last_request {tables : Tables} {identity : Option Identity}
    {records : Table String SignedScope} {es : List (PoolEvent Op Input Empty)}
    (horder : Pool.Meets (crew c) InOrder es (quiet tables identity records)) {scope : String}
    (hrequested : (Pool.run (crew c) es (quiet tables identity records)).state.requests scope ≠ 0)
    (hexists : (Pool.run (crew c) es (quiet tables identity records)).state.tables.view scope ≠ none)
    (hmark : (Pool.run (crew c) es (quiet tables identity records)).state.marks.get? scope = none) :
    Current c (Pool.run (crew c) es (quiet tables identity records)).state scope := by
  have hstart : (quiet tables identity records).Sound (crew c) InOrder (Upheld c) (fun _ _ => True)
      fun _ _ => True := by
    refine Pool.sound_of_empty ⟨?_, ?_, ?_, ?_, ?_⟩
    · exact fun scope v hv => mem_toList.mpr hv
    · exact fun scope h => absurd rfl h
    · exact fun _ _ h => (nomatch h)
    · exact fun _ _ h => (nomatch h)
    · exact fun _ _ h => (nomatch h)
  have hkept := (hstart.run (crew_keeps c) horder).kept
  rcases hkept.marked scope hrequested hexists with h | h
  · rw [hmark] at h
    cases h
  · exact h

theorem buildScope_secret {id : Identity} {rand : Bytes} {row : PrivateScope} {authPublic : SigPublic}
    (h : buildScope c id rand scope row authPublic = .ok record) :
    record.record.sealedScopeSecret = row.sealedScopeSecret := by
  unfold buildScope at h
  cases howner : toFixed sealPublicLen row.sealPublic with
  | none => simp [howner, throw, throwThe] at h
  | some ownerPublic =>
    cases hscope : toFixed sealPublicLen row.scopePublic with
    | none => simp [howner, hscope, throw, throwThe] at h
    | some scopePublic =>
      cases hdedup : toFixed 32 row.dedupKey with
      | none => simp [howner, hscope, hdedup, throw, throwThe] at h
      | some dedup =>
        simp only [howner, hscope, hdedup] at h
        cases hseal : c.sealTo rand scopePublic
            (aad "luna-private-dedup-v1" id.lunaId scope) dedup.val with
        | error e => rw [hseal] at h; cases h
        | ok sealedDedup => rw [hseal] at h; cases h; rfl

/-! ### Two runs -/

/-- A scope of user `u` whose secret is sealed as `sealed`. -/
def rowOf (sealed : Bytes) : PrivateScope :=
  ⟨"u", List.replicate sealPublicLen 0, List.replicate sealPublicLen 0, sealed, List.replicate 32 0, 0⟩

def tablesOf (sealed : Bytes) : Tables :=
  ⟨Table.empty.put "s" (rowOf sealed), Table.empty.put "u" (List.replicate sigPublicLen 0)⟩

def luna : Identity := ⟨"luna", Fixed.fill 32 7⟩

def calm : Input := ⟨false, false, []⟩

/-- The transaction that seals the scope's secret anew and asks for the record. -/
def resealTo (sealed : Bytes) : Op := .change ⟨tablesOf sealed, ["s"]⟩

/-- A request, and one pass that sends the record. -/
def onePass : List (PoolEvent Op Input Empty) :=
  [.start 0 (resealTo [1]), .step 0 calm, .start 1 .pass, .step 1 calm, .step 1 calm, .step 1 calm,
    .step 1 calm, .step 1 calm, .step 1 calm]

abbrev start : Pool Label Input State String ScopePublishReport PassNote :=
  quiet (tablesOf [0]) (some luna) Table.empty

set_option maxRecDepth 20000 in
theorem onePass_inOrder : Pool.Meets (crew toyCrypto) InOrder onePass start := by
  refine Pool.meets_start (Pool.meets_step rfl ?_ (Pool.meets_start ?_))
  · intro scope _ hview
    by_contra hscope
    apply hview
    have hrow : (tablesOf [1]).rows.get? scope = none := by
      rw [mem_singleton] at hscope
      simp [tablesOf, get?_put, hscope]
    simp only [Tables.view, hrow]
  refine Pool.meets_step rfl trivial (Pool.meets_step rfl trivial (Pool.meets_step rfl trivial ?_))
  refine Pool.meets_step rfl trivial (Pool.meets_step rfl ?_ (Pool.meets_step rfl ?_ trivial))
  · intro g n v hg hphase
    cases hg
    obtain ⟨-, rfl, -⟩ := Phase.read.inj hphase
    exact .inl rfl
  · intro g hg _
    cases hg
    rfl

set_option maxRecDepth 20000 in
theorem onePass_current : (Pool.run (crew toyCrypto) onePass start).state.marks.get? "s" = none ∧
      Current toyCrypto (Pool.run (crew toyCrypto) onePass start).state "s" := by
  have hmark : (Pool.run (crew toyCrypto) onePass start).state.marks.get? "s" = none := by
    decide +kernel
  have hcurrent := @published_since_last_request toyCrypto (tablesOf [0]) (some luna) Table.empty onePass
    onePass_inOrder "s" (by decide +kernel) (by decide +kernel) hmark
  exact ⟨hmark, hcurrent⟩

/-- Two passes list the same mark and load the row. One sends the record and clears the mark; the scope
is sealed anew, which makes the mark again with the value one; the other pass sends what it had loaded
and takes that for its own mark. -/
def countedAgain : List (PoolEvent Op Input Empty) :=
  [.start 0 (resealTo [1]), .step 0 calm,
    .start 1 .pass, .step 1 calm, .step 1 calm, .step 1 calm,
    .start 2 .pass, .step 2 calm, .step 2 calm, .step 2 calm, .step 2 calm, .step 2 calm, .step 2 calm,
    .start 3 (resealTo [2]), .step 3 calm,
    .step 1 calm, .step 1 calm, .step 1 calm]

theorem countedAgain_not_current : ((Pool.run (crew toyCrypto) countedAgain start).next 1 = none ∧
      (Pool.run (crew toyCrypto) countedAgain start).next 2 = none) ∧
    (Pool.run (crew toyCrypto) countedAgain start).state.marks.get? "s" = none ∧
      ¬ Current toyCrypto (Pool.run (crew toyCrypto) countedAgain start).state "s" := by
  have hstored : ((Pool.run (crew toyCrypto) countedAgain start).state.records.get? "s").map
      (fun r => r.record.sealedScopeSecret) = some [1] := by decide +kernel
  have hsince : (Pool.run (crew toyCrypto) countedAgain start).state.since "s" =
      [(rowOf [2], replicate sigPublicLen 0)] := by decide +kernel
  refine ⟨by decide +kernel, by decide +kernel, ?_⟩
  rintro ⟨record, hrecord, v, hv, id, rand, authPublic, -, hbuild⟩
  rw [hsince, mem_singleton] at hv
  rw [hrecord, map_some, buildScope_secret hbuild, hv] at hstored
  cases hstored

end LibreServ.Scopes
