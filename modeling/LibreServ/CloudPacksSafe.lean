import LibreServ.CloudCopies
import LibreServ.CloudPacks

/-! Runs, steps of the key move and cleanup passes keep the packs guarded, section by section, so every
pack that a snapshot links is live and stored in every state of an orderly run. -/

namespace LibreServ.Cloud

open Sections Hands Option Table Prog State Db

variable {c : Crypto} {j : Json} {s t : State} {G : ℕ → Option Hands} {w : ℕ} {g : Hands}

/-! ### Sections that do not matter -/

/-- The sections after which a worker has the same in hand. -/
def Label.Aside : Label → Prop
  | .findChunk .. | .placeChunks .. | .insertPack _ | .putPack _ | .insertChunks _ | .commitSnapshot _
  | .commitMove .. | .commitRewrite .. | .forgetUnsent _ | .markUnused _ | .endRun _ | .claim ..
  | .deletePack _ | .deleteRow _ | .release _ => False
  | _ => True

/-- A section that leaves packs, index and links alone. -/
def SamePacks (l : Label) (s t : State) : Prop :=
  l.Aside ∧ t.db.packs = s.db.packs ∧ t.db.chunks = s.db.chunks ∧ t.db.links = s.db.links ∧
    t.store.packs = s.store.packs

theorem SamePacks.shelf {l : Label} (h : SamePacks l s t) : t.shelf = s.shelf := by
  obtain ⟨-, hpacks, hchunks, hlinks, hstore⟩ := h
  unfold State.shelf
  rw [hpacks, hchunks, hlinks, hstore]

theorem after_of_aside {l : Label} (h : l.Aside) (i : Input) (s : State) (g : Hands) : after l i s g = g := by
  cases l <;> first | rfl | exact h.elim

/-- A program of such sections is safe, and its worker has the same in hand at the end. -/
theorem safe_of_samePacks {α : Type} {p : Job α} (h : p.Only SamePacks) :
    p.Safe after Orderly PacksKept (fun _ _ => True) w g fun _ g' => g' = g := by
  refine h.safe fun l i s t G hrel hinv => ⟨after_of_aside hrel.1 i s g, ?_, trivial⟩
  exact ⟨fun p => by rw [hrel.shelf]; exact hinv.guarded p, hinv.apart⟩

theorem only_of_read {α : Type} {l : Label} {f : Db → α} (h : l.Aside) : (read l f).Only SamePacks :=
  only_read fun _ => ⟨h, rfl, rfl, rfl, rfl⟩

theorem putRecord_only (name : RecordName) (record : Record) : (putRecord name record).Only SamePacks :=
  only_putRecord (fun _ => ⟨trivial, rfl, rfl, rfl, rfl⟩) fun _ => ⟨trivial, rfl, rfl, rfl, rfl⟩

theorem getPack_samePacks (id : Bytes32) (s : State) : SamePacks (.getPack id) s s :=
  ⟨trivial, rfl, rfl, rfl, rfl⟩

theorem draw_samePacks (s : State) : SamePacks .draw s s := ⟨trivial, rfl, rfl, rfl, rfl⟩

theorem takeSlots_samePacks (backups : List String) : (takeSlots backups).Only SamePacks :=
  only_takeSlots (fun _ _ _ => ⟨trivial, rfl, rfl, rfl, rfl⟩) backups

theorem dropSlots_samePacks (backups : List String) : (dropSlots backups).Only SamePacks :=
  only_act fun _ _ => ⟨trivial, rfl, rfl, rfl, rfl⟩

theorem takeSlot_samePacks (backup : String) : (takeSlot backup).Only SamePacks := by
  refine only_act fun i s => ?_
  split
  · exact ⟨trivial, rfl, rfl, rfl, rfl⟩
  · exact ⟨trivial, rfl, rfl, rfl, rfl⟩

theorem putCopies_samePacks (copies : List (RecordName × Bytes)) : (putCopies copies).Only SamePacks := by
  induction copies with
  | nil => trivial
  | cons copy copies ih => exact (putRecord_only _ _).bind fun _ => ih

theorem resealUserLocked_samePacks (user : String) : (resealUserLocked c j user).Only SamePacks := by
  refine Prog.Only.bind (only_tryAct fun i s => ⟨trivial, rfl, rfl, rfl, rfl⟩) fun found => ?_
  rcases found with _ | _ | r
  · trivial
  · trivial
  · refine (putCopies_samePacks _).bind fun _ => (putRecord_only _ _).bind fun _ =>
      Prog.Only.bind (only_write fun s => ?_) fun _ => trivial
    split
    · exact ⟨trivial, rfl, rfl, rfl, rfl⟩
    · exact ⟨trivial, rfl, rfl, rfl, rfl⟩

theorem resealUserHolding_samePacks (user : String) (held : Option String) :
    (resealUserHolding c j user held).Only SamePacks := by
  refine Prog.Only.bind (only_of_read trivial) fun backups => ?_
  cases backups with
  | none => trivial
  | some backups =>
    refine (takeSlots_samePacks _).bind fun ⟨slots, busy⟩ => ?_
    dsimp only
    split
    · exact Prog.Only.bind (dropSlots_samePacks _) fun _ => trivial
    · exact (resealUserLocked_samePacks user).attempt.bind fun _ => (dropSlots_samePacks _).bind fun _ =>
        only_ofExcept _

theorem resealPendingHolding_samePacks (held : Option String) :
    (resealPendingHolding c j held).Only SamePacks := by
  refine Prog.Only.bind (only_of_read trivial) fun users => ?_
  induction users with
  | nil => trivial
  | cons user users ih => exact (resealUserHolding_samePacks user held).attempt.bind fun _ => ih

theorem publishKey_samePacks (id : Identity) (protection : String) (key : BackupKey)
    (recipients : List String) (userPub : String → Option SealPublic) :
    (publishKey c j id protection key recipients userPub).Only SamePacks := by
  unfold publishKey
  split
  · trivial
  refine Prog.Only.bind ?_ fun _ => putRecord_only _ _
  induction recipients with
  | nil => trivial
  | cons user users ih =>
    unfold publishCopies
    split
    · trivial
    · exact (only_look fun _ => ⟨trivial, rfl, rfl, rfl, rfl⟩).bind fun _ =>
        (only_orError _).bind fun _ => (putRecord_only _ _).bind fun _ => ih

theorem resyncRecords_samePacks (protection : String) : (resyncRecords protection).Only SamePacks := by
  refine Prog.Only.bind (only_of_read trivial) fun pending => ?_
  induction pending with
  | nil => trivial
  | cons p pending ih =>
    have hclear : Prog.Only SamePacks (do
        write (.clearResync protection p.1) fun db =>
          { db with resync := db.resync.erase (protection, p.1) }
        resyncEach protection pending) :=
      Prog.Only.bind (only_write fun s => ⟨trivial, rfl, rfl, rfl, rfl⟩) fun _ => ih
    refine Prog.Only.bind (only_of_read trivial) fun record => ?_
    cases record with
    | none => exact hclear
    | some record => exact (putRecord_only _ _).bind fun _ => hclear

theorem pauseOrFail_samePacks (protection : String) (e : StoreError) :
    (pauseOrFail protection e).Only SamePacks := by
  cases e with
  | full => exact Prog.Only.bind (only_write fun s => ⟨trivial, rfl, rfl, rfl, rfl⟩) fun _ => trivial
  | notFound | unavailable message | rejected message => trivial

theorem findWork_samePacks (protection : String) : (findWork c protection).Only SamePacks := by
  refine only_tryAct fun i s => ?_
  split
  · exact ⟨trivial, rfl, rfl, rfl, rfl⟩
  · exact ⟨trivial, rfl, rfl, rfl, rfl⟩
  · split
    · exact ⟨trivial, rfl, rfl, rfl, rfl⟩
    · exact ⟨trivial, rfl, rfl, rfl, rfl⟩

theorem startStepRun_samePacks (protection : String) (scope : Bytes) (now : ℤ) :
    (startStepRun protection scope now).Only SamePacks := by
  refine only_tryAct fun i s => ?_
  split
  · rename_i db hdb
    rw [(startRun_ok hdb).2]
    exact ⟨trivial, rfl, rfl, rfl, rfl⟩
  · exact ⟨trivial, rfl, rfl, rfl, rfl⟩

theorem prepare_samePacks (protection : String) (now : ℤ) :
    (Prog.act (.prepare protection) fun i s =>
      let (r, db) := prepare c j protection now i s.db
      (r, { s with db := db }) : Job (Except String (RunContext × Option Publish))).Only SamePacks := by
  refine only_act fun i s => ?_
  change SamePacks _ s { s with db := (prepare c j protection now i s.db).2 }
  rcases prepare_inv (c := c) (j := j) protection now i s.db with ⟨hdb, -⟩ | ⟨_, _, _, db', -, -, hkey, hdb, -⟩
  · rw [hdb]
    exact ⟨trivial, rfl, rfl, rfl, rfl⟩
  · rw [hdb]
    rcases ensureKey_ok hkey with ⟨rfl, -⟩ | ⟨-, -, rfl⟩
    · exact ⟨trivial, rfl, rfl, rfl, rfl⟩
    · exact ⟨trivial, rfl, rfl, rfl, rfl⟩

/-! ### Sections that do -/

/-- Run by worker `w` with `g` in hand, the program keeps the packs guarded. -/
abbrev Guards {α : Type} (w : ℕ) (p : Job α) (g : Hands) (post : Except Fault α → Hands → Prop) : Prop :=
  p.Safe after Orderly PacksKept (fun _ _ => True) w g post

/-- First something that does not matter to the packs, then the rest. -/
theorem guards_aside {α β : Type} {p : Job α} {f : α → Job β} {post : Except Fault β → Hands → Prop}
    (h : p.Only SamePacks) (herr : ∀ e, post (.error e) g) (hf : ∀ a, Guards w (f a) g post) :
    Guards w (p >>= f) g post :=
  (safe_of_samePacks h).keep herr hf

theorem guards_attempt {α : Type} {p : Job α} {post : Except Fault α → Hands → Prop}
    (h : Guards w p g post) : Guards w (p.attempt : Job (Except Fault α)) g (Prog.OnOk fun _ _ => True) :=
  safe_attempt (h.mono fun _ _ _ => trivial)

variable {id : Bytes32} {scope : Bytes}

theorem findChunk_some {db : Db} {place : ChunkPlace}
    (h : db.findChunk scope id = some place) :
    db.chunks.get? (scope, id) = some place ∧
      ∃ row, db.packs.get? place.pack = some row ∧ (row.state = .live ∨ row.state = .pending) := by
  unfold findChunk at h
  split at h
  · cases h
  rename_i place' hplace
  split at h
  · cases h
  rename_i row hrow
  split at h
  · cases h
  rename_i hstate
  obtain rfl := Option.some.inj h
  refine ⟨hplace, row, hrow, ?_⟩
  cases hs : row.state with
  | live => exact .inl rfl
  | pending => exact .inr rfl
  | marked => exact absurd (.inl hs) hstate
  | deleting => exact absurd (.inr hs) hstate

theorem findChunk_guards (scope : Bytes) (id : Bytes32) :
    Guards w (read (.findChunk scope id) fun db => db.findChunk scope id) g (Prog.OnOk fun found g' =>
      g'.sent = g.sent ∧ g.held ⊆ g'.held ∧ ∀ place, found = some place → place.pack ∈ g'.held) := by
  refine safe_look fun i s G hinv hg _ => ⟨⟨fun p => (hinv.guarded p).hold hg fun hp => ?_, ?_⟩, trivial, ?_⟩
  · rw [mem_toFinset, mem_def, map_eq_some_iff] at hp
    obtain ⟨place, hplace, rfl⟩ := hp
    obtain ⟨hget, row, hrow, hstate⟩ := findChunk_some hplace
    have hrow' : s.shelf.state place.pack = some row.state := by simp [shelf, hrow]
    rcases hstate with hstate | hstate
    · exact .inl (hstate ▸ hrow')
    · exact .inr ⟨hstate ▸ hrow', _, place, hget, rfl⟩
  · exact hinv.apart.update hg fun p hp => .inl hp
  · refine ⟨rfl, Finset.subset_union_left, fun place hplace => Finset.mem_union_right _ ?_⟩
    have hfound : s.db.findChunk scope id = some place := hplace
    rw [mem_toFinset, hfound]
    rfl

/-- The packs of the chunks a rewrite has placed are in hand. -/
theorem placeChunks_guards (target : Target) (scope : Bytes) (entries : List TreeEntry) :
    Guards w (read (.placeChunks scope (chunkIds entries)) fun db => placeChunks db target scope entries) g
      (Prog.OnOk fun placed g' =>
        g'.sent = g.sent ∧ ∀ es, placed = .ok es → ∀ p ∈ linksOf es, p ∈ g'.held) := by
  refine safe_look fun i s G hinv hg _ => ⟨⟨fun p => (hinv.guarded p).hold hg fun hp => ?_, ?_⟩, trivial, ?_⟩
  · rw [placedPacks, List.mem_toFinset, List.mem_filterMap] at hp
    obtain ⟨id, -, hp⟩ := hp
    rw [filter_eq_some_iff, any_eq_true] at hp
    obtain ⟨-, row, hrow, hlive⟩ := hp
    refine .inl ?_
    simp only [shelf, hrow, map_some, of_decide_eq_true hlive]
  · exact hinv.apart.update hg fun p hp => .inl hp
  · refine ⟨rfl, fun es hes p hp => Finset.mem_union_right _ ?_⟩
    have hplaced : placeChunks s.db target scope entries = .ok es := hes
    rw [linksOf, List.mem_dedup, List.mem_flatMap] at hp
    obtain ⟨e', he', hp⟩ := hp
    obtain ⟨ref', href', rfl⟩ := List.mem_map.mp hp
    obtain ⟨e, he, -, hchunks⟩ := exists_of_forall₂ (placeChunks_ok hplaced) he'
    obtain ⟨ref, href, hplace⟩ := exists_of_forall₂ hchunks href'
    obtain ⟨place, row, hget, hrow, hlive, -, rfl⟩ := placeChunk_ok hplace
    rw [placedPacks, List.mem_toFinset, List.mem_filterMap]
    refine ⟨ref.id, List.mem_flatMap.mpr ⟨e, he, List.mem_map_of_mem href⟩, ?_⟩
    rw [hget, filter_eq_some_iff]
    exact ⟨rfl, by simp [hrow, hlive]⟩

theorem insertPack_guards (pack : SealedPack) (scope : Bytes) (runId : Id) (now : ℤ) :
    Guards w (insertPack pack scope runId now) g
      (Prog.OnOk fun _ g' => g' = { g with sent := some (pack.id, false) }) := by
  refine safe_tryAct fun i s G hinv hg hrule => ?_
  split
  · rename_i db hdb
    obtain ⟨hnone, heq, hpacks⟩ := insertSizedPack_ok hdb
    have hshelf : shelf { s with db := db } =
        { s.shelf with state := Function.update s.shelf.state pack.id (some .pending) } := by
      rw [heq]
      refine Shelf.ext (funext fun p => ?_) rfl rfl rfl
      simp only [shelf, hpacks p, Function.update_apply]
      split
      · rfl
      · rfl
    have hstate : s.shelf.state pack.id = none := by simp [shelf, hnone]
    have hafter : after (.insertPack pack.id) i s g = { g with sent := some (pack.id, false) } := if_pos hnone
    rw [hafter]
    refine ⟨⟨fun p => (hinv.guarded p).insertRow hg hstate (hrule hnone) hshelf, ?_⟩, trivial, rfl⟩
    refine hinv.apart.update hg fun p hp => .inr fun hother => ?_
    -- whoever sends a pack has a pending row for it, and this one had none
    obtain rfl : pack.id = p := Option.some.inj hp
    have hsends : Anyone G (Sends pack.id) := (anyone_iff hg _).mpr (.inr hother)
    have hpending := ((hinv.guarded pack.id).sent hsends).1
    rw [hstate] at hpending
    cases hpending
  · rename_i e hdb
    have hafter : after (.insertPack pack.id) i s g = g := by
      refine if_neg fun hnone => ?_
      simp [insertPendingPack, hnone, bind, Except.bind, pure, Except.pure] at hdb
    rw [hafter, update_of_eq hg]
    exact ⟨hinv, trivial, trivial⟩

theorem putPack_guards {pack : SealedPack} (hsent : g.sent = some (pack.id, false)) :
    Guards w (putPack pack.id pack.bytes) g (Prog.OnOk fun r g' =>
      g' = match r with
        | .ok _ => { g with sent := some (pack.id, true) }
        | .error _ => g) := by
  refine safe_act fun i s G hinv hg _ => ?_
  cases hi : i.store with
  | some e =>
    have hafter : after (.putPack pack.id) i s g = g := if_neg (by simp [hi])
    rw [hafter, update_of_eq hg]
    exact ⟨hinv, trivial, rfl⟩
  | none =>
    have hafter : after (.putPack pack.id) i s g = { g with sent := some (pack.id, true) } := if_pos hi
    have hshelf : shelf { s with store.packs := s.store.packs.put pack.id pack.bytes } =
        { s.shelf with stored := fun p => p = pack.id ∨ s.shelf.stored p } := by
      refine Shelf.ext rfl (funext fun p => propext ?_) rfl rfl
      simp only [shelf, get?_put]
      split
      · simp [*]
      · simp [*]
    rw [hafter]
    refine ⟨⟨fun p => (hinv.guarded p).upload hg hsent hshelf, ?_⟩, trivial, rfl⟩
    refine hinv.apart.update hg fun p hp => .inl ?_
    rw [Sends, hsent]
    exact hp

theorem insertChunks_guards {pack : Bytes32} (scope : Bytes) (entries : List IndexEntry)
    (hsent : g.sent = some (pack, true)) :
    Guards w (write (.insertChunks pack) fun db => db.insertChunks scope pack entries) g
      (Prog.OnOk fun _ g' => g' = { g with held := insert pack g.held, sent := none }) := by
  refine safe_act fun i s G hinv hg _ => ⟨⟨fun p => ?_, ?_⟩, trivial, rfl⟩
  · refine (hinv.guarded p).indexPack hinv.apart hg hsent ?_ ?_
    · rintro ⟨k, place, hk, rfl⟩
      rcases insertChunks_get? s.db scope pack entries k with ⟨hsame, -⟩ | ⟨e, -, -, hget⟩
      · rw [hsame] at hk
        exact .inl ⟨k, place, hk, rfl⟩
      · rw [hget, Option.some.injEq] at hk
        subst hk
        exact .inr rfl
    · dsimp only
      rw [insertChunks_eq]
      rfl
  · exact hinv.apart.update hg fun p hp => (nomatch hp)

/-- A snapshot is committed with packs that are in hand. -/
theorem commitSnapshot_guards {id : Id} {row : Snapshot} {packs : List Bytes32}
    (hpacks : ∀ p ∈ packs, p ∈ g.held) (hsent : g.sent = none) :
    Guards w (transact (.commitSnapshot packs) fun db => db.commitSnapshotTx id row packs) g
      (Prog.OnOk fun _ _ => True) := by
  refine safe_tryAct fun i s G hinv hg _ => ?_
  have hafter : after (.commitSnapshot packs) i s g = { g with held := ∅ } := rfl
  have hapart : Apart (Function.update G w (some { g with held := ∅ })) :=
    hinv.apart.update hg fun p hp => .inl hp
  split
  · rename_i db hdb
    unfold commitSnapshotTx insertCloudSnapshot at hdb
    cases hget : s.db.snapshots.get? id with
    | some _ => simp [hget, bind, Except.bind] at hdb
    | none =>
      simp only [hget, bind] at hdb
      obtain ⟨heq, hrows, hlinks, hthere⟩ := linkPacks_ok hdb
      refine ⟨⟨fun p => ?_, hapart⟩, trivial, trivial⟩
      refine (hinv.guarded p).commit packs hinv.apart hg (fun hp => .inl ⟨hpacks p hp, ?_⟩) rfl
        ?_ ?_ ?_ (Finset.empty_subset _) rfl (.inl hsent)
      · obtain ⟨row', hrow', hstate'⟩ := hthere p hp
        simp [shelf, hrow', hstate']
      · intro hin
        refine .inl ?_
        rw [heq] at hin
        exact hin
      · rintro ⟨id', hid'⟩
        rcases (hlinks _).mp hid' with hid' | ⟨-, hp⟩
        · exact .inl ⟨id', hid'⟩
        · exact .inr hp
      · have hp := hrows p
        by_cases hmem : p ∈ packs
        · obtain ⟨row', hrow', -⟩ := hthere p hmem
          simp [hmem, shelf, hp, hrow']
        · simp [hmem, shelf, hp]
  · refine ⟨⟨fun p => ?_, hapart⟩, trivial, trivial⟩
    exact (hinv.guarded p).letGo hinv.apart hg (Finset.empty_subset _) rfl (.inl hsent)

theorem commitMove_guards {protection : String} {target : Target} {old : Bytes32}
    {pack : SealedPack} (hsent : g.sent = some (pack.id, true)) :
    Guards w (transact (.commitMove old pack.id) fun db => commitMove db protection target scope old pack) g
      fun r g' => (∃ e, r = .error e) → g'.sent = some (pack.id, true) := by
  refine safe_tryAct fun i s G hinv hg _ => ?_
  dsimp only
  split
  · rename_i db hdb
    have hrow : (s.db.packs.get? old).isSome := by
      unfold commitMove at hdb
      split at hdb
      · cases hdb
      · simp [*]
    have hafter : after (.commitMove old pack.id) i s g = { g with sent := none } := if_pos hrow
    obtain ⟨heq, hrows, hchunks, hlinks⟩ := commitMove_ok hdb
    rw [hafter]
    refine ⟨⟨fun p => ?_, hinv.apart.update hg fun p hp => (by cases hp)⟩, trivial, fun he => ?_⟩
    · refine (hinv.guarded p).commit [pack.id] hinv.apart hg (fun hp => .inr ?_) rfl ?_ ?_ ?_
        (Finset.Subset.refl _) rfl (.inl rfl)
      · rw [List.mem_singleton.mp hp]
        exact hsent
      · rintro ⟨k, place, hk, rfl⟩
        rcases hchunks k with ⟨hsame, -⟩ | ⟨e, -, -, hget⟩
        · rw [hsame] at hk
          exact .inl ⟨k, place, hk, rfl⟩
        · rw [hget, Option.some.injEq] at hk
          subst hk
          exact .inr (List.mem_singleton.mpr rfl)
      · rintro ⟨id, hid⟩
        rcases (hlinks _).mp hid with hid | ⟨hp, -⟩
        · exact .inl ⟨id, hid⟩
        · exact .inr (List.mem_singleton.mpr hp)
      · by_cases hp : p = pack.id
        · -- the new pack has the pending row that this worker inserted
          have hpending : s.shelf.state pack.id = some .pending := by
            refine ((hinv.guarded pack.id).sent ⟨w, g, hg, ?_⟩).1
            rw [Sends, hsent]
            rfl
          obtain ⟨row, hrow', -⟩ := map_eq_some_iff.mp hpending
          simp [hp, shelf, hrows, hrow']
        · rw [if_neg (fun hmem => hp (List.mem_singleton.mp hmem))]
          refine .inl ?_
          simp only [shelf, hrows, hp, if_false, map_id']
    · obtain ⟨e, he⟩ := he
      cases he
  · rename_i e hdb
    have hrow : ¬ (s.db.packs.get? old).isSome := by
      intro hrow
      obtain ⟨row, hrow⟩ := isSome_iff_exists.mp hrow
      simp [commitMove, hrow] at hdb
    have hafter : after (.commitMove old pack.id) i s g = g := if_neg hrow
    rw [hafter, update_of_eq hg]
    exact ⟨hinv, trivial, fun _ => hsent⟩

theorem linkPacks_error {id : Id} {packs : List Bytes32} {db : Db} {e : String}
    (h : linkPacks id packs db = .error e) : db.linkable packs = false := by
  induction packs generalizing db with
  | nil => cases h
  | cons pack packs ih =>
    unfold linkPacks at h
    rw [linkable, List.all_cons, Bool.and_eq_false_iff]
    cases hrow : db.packs.get? pack with
    | none => exact .inl (by simp)
    | some row =>
      by_cases hstate : row.state = .deleting
      · exact .inl (by simp [hstate])
      refine .inr ?_
      have h' : linkPacks id packs { db.updatePack pack fun row =>
          { row with state := .live, markedAt := 0 } with links := insert (id, pack) db.links } =
          .error e := by
        rw [hrow] at h
        cases hs : row.state with
        | deleting => exact absurd hs hstate
        | pending | live | marked => simpa [hs] using h
      have hlinkable := ih h'
      rw [linkable] at hlinkable
      rw [List.all_eq_false] at hlinkable ⊢
      obtain ⟨p, hp, hno⟩ := hlinkable
      refine ⟨p, hp, fun hyes => hno ?_⟩
      rw [updatePack_packs]
      rw [any_eq_true] at hyes
      obtain ⟨row', hrow', hyes⟩ := hyes
      rw [hrow']
      by_cases hpack : p = pack
      · simp [hpack]
      · simpa [hpack] using hyes

variable {now : ℤ}

theorem commitRewrite_guards {protection : String} {target : Target} {id : Id}
    {snapshot : Snapshot} {tree treeHash : Bytes32} {place : IndexEntry} {signed : SignedRecord}
    {links : List Bytes32} (hsent : g.sent = some (tree, true)) (hlinks : ∀ p ∈ links, p ∈ g.held) :
    Guards w (transact (.commitRewrite id tree links) fun db =>
        commitRewrite db protection target scope id snapshot tree treeHash place signed links now) g
      fun r g' => (∃ e, r = .error e) → g'.sent = some (tree, true) := by
  refine safe_tryAct fun i s G hinv hg _ => ?_
  split
  · rename_i db hdb
    obtain ⟨-, hrows, hchunks, -, hlinked, -, hthere⟩ := commitRewrite_ok hdb
    have hlinkable : s.db.linkable (tree :: links) = true := by
      rw [linkable, List.all_eq_true]
      intro p hp
      obtain ⟨row, hrow, hstate⟩ := hthere p hp
      simp [hrow, hstate]
    have hafter : after (.commitRewrite id tree links) i s g = { g with held := ∅, sent := none } := by
      simp [after, hlinkable]
    rw [hafter]
    refine ⟨⟨fun p => ?_, hinv.apart.update hg fun p hp => (by cases hp)⟩, trivial, fun he => ?_⟩
    · refine (hinv.guarded p).commit (tree :: links) hinv.apart hg (fun hp => ?_) rfl ?_ ?_ ?_
        (Finset.empty_subset _) rfl (.inl rfl)
      · rcases List.mem_cons.mp hp with rfl | hmem
        · exact .inr hsent
        · obtain ⟨row, hrow, hstate⟩ := hthere p hp
          exact .inl ⟨hlinks p hmem, by simp [shelf, hrow, hstate]⟩
      · rintro ⟨k, place', hk, rfl⟩
        rw [hchunks k] at hk
        split at hk
        · obtain rfl := Option.some.inj hk
          exact .inr List.mem_cons_self
        · exact .inl ⟨k, place', (filter_eq_some_iff.mp hk).1, rfl⟩
      · rintro ⟨id', hid'⟩
        rcases (hlinked _).mp hid' with ⟨hid', -⟩ | ⟨-, hp⟩
        · exact .inl ⟨id', hid'⟩
        · exact .inr hp
      · by_cases hp : p ∈ tree :: links
        · obtain ⟨row, hrow, -⟩ := hthere p hp
          simp only [shelf, hrows, hrow, hp, if_true, map_some]
        rw [if_neg hp]
        cases hrow : s.db.packs.get? p with
        | none => exact .inl (by simp [shelf, hrows, hrow])
        | some row =>
          by_cases hmark : row.scope = scope ∧ row.state = .live ∧ db.linked p = false
          · refine .inr ⟨by simp [shelf, hrow, hmark.2.1], fun hlink => ?_, ?_⟩
            · exact absurd (linked_iff.mpr hlink) (by simp [hmark.2.2])
            · simp only [shelf, hrows, hrow, hp, hmark, if_true, if_false, map_some,
                and_self]
          · refine .inl ?_
            simp only [shelf, hrows, hrow, hp, hmark, if_false, map_some]
    · obtain ⟨e, he⟩ := he
      cases he
  · rename_i e hdb
    have hlinkable : s.db.linkable (tree :: links) = false := by
      unfold commitRewrite at hdb
      simp only [bind, Except.bind] at hdb
      split at hdb
      · rename_i e' hlink
        have hno := linkPacks_error hlink
        rw [linkable, List.all_eq_false] at hno ⊢
        obtain ⟨p, hp, hno⟩ := hno
        exact ⟨p, by simpa using hp, hno⟩
      · cases hdb
    have hafter : after (.commitRewrite id tree links) i s g = { g with held := ∅ } := by
      simp [after, hlinkable]
    rw [hafter]
    refine ⟨⟨fun p => ?_, hinv.apart.update hg fun p hp => .inl hp⟩, trivial, fun _ => hsent⟩
    exact (hinv.guarded p).letGo hinv.apart hg (Finset.empty_subset _) rfl (.inr rfl)

theorem forgetUnsent_guards {pack : Bytes32} {up : Bool} (hsent : g.sent = some (pack, up)) :
    Guards w (forgetUnsent pack) g (Prog.OnOk fun _ g' => g'.sent = none) := by
  refine safe_act fun i s G hinv hg _ => ⟨⟨fun p => ?_, ?_⟩, trivial, rfl⟩
  · refine (hinv.guarded p).forget hinv.apart hg hsent ?_ ?_
    · rintro ⟨k, place, hk, rfl⟩
      change (s.db.chunks.keep _).get? k = some place at hk
      rw [get?_keep_some] at hk
      exact ⟨k, place, hk.1, rfl⟩
    · refine Shelf.ext (funext fun p => ?_) rfl rfl rfl
      simp only [shelf, deletePackRow, get?_erase, Function.update_apply]
      split
      · rfl
      · rfl
  · exact hinv.apart.update hg fun p hp => (by cases hp)

theorem markUploadedUnused_guards {pack : Bytes32} (hsent : g.sent = some (pack, true)) :
    Guards w (markUploadedUnused pack now) g (Prog.OnOk fun _ _ => True) := by
  refine safe_act fun i s G hinv hg _ => ⟨⟨fun p => ?_, ?_⟩, trivial, trivial⟩
  · refine (hinv.guarded p).markSent hinv.apart hg hsent ?_
    have hpending : s.shelf.state pack = some .pending := by
      refine ((hinv.guarded pack).sent ⟨w, g, hg, ?_⟩).1
      rw [Sends, hsent]
      rfl
    obtain ⟨row, hrow, -⟩ := map_eq_some_iff.mp hpending
    refine Shelf.ext (funext fun p => ?_) rfl rfl rfl
    simp only [shelf, updatePack_packs]
    by_cases hp : p = pack
    · simp [hp, hrow]
    · simp [hp]
  · exact hinv.apart.update hg fun p hp => (by cases hp)

theorem endRun_guards (runId : Id) (now : ℤ) :
    Guards w (write (.endRun runId) fun db => db.endRun runId now) g (Prog.OnOk fun _ _ => True) := by
  refine safe_act fun i s G hinv hg _ => ⟨⟨fun p => ?_, ?_⟩, trivial, trivial⟩
  · exact (hinv.guarded p).letGo hinv.apart hg (Finset.empty_subset _) rfl (.inl rfl)
  · exact hinv.apart.update hg fun p hp => (nomatch hp)

/-! ### Cleanup -/

/-- Links may go, and live packs that no snapshot links may be marked. -/
theorem PacksKept.tidy (hinv : PacksKept s G) (hg : G w = some g) (hstored : t.shelf.stored = s.shelf.stored)
    (hindexed : ∀ p, t.shelf.indexed p → s.shelf.indexed p) (hlinked : ∀ p, t.shelf.linked p → s.shelf.linked p)
    (hstate : ∀ p, t.shelf.state p = s.shelf.state p ∨
      (s.shelf.state p = some .live ∧ ¬ t.shelf.linked p ∧ t.shelf.state p = some .marked)) :
    PacksKept t (Function.update G w (some g)) := by
  refine ⟨fun p => ?_, hinv.apart.update hg fun p hp => .inl hp⟩
  refine (hinv.guarded p).commit [] hinv.apart hg (fun hp => absurd hp List.not_mem_nil) hstored
    (fun h => .inl (hindexed p h)) (fun h => .inl (hlinked p h)) ?_ (Finset.Subset.refl _) rfl
    (.inr ⟨rfl, fun _ => List.not_mem_nil⟩)
  exact hstate p

theorem deleteSnapshot_guards (id : Id) :
    Guards w (write (.deleteSnapshot id) fun db => db.deleteCloudSnapshot id) g fun _ g' => g' = g := by
  refine safe_act fun i s G hinv hg _ => ⟨?_, trivial, rfl⟩
  refine hinv.tidy hg rfl (fun p h => h) (fun p h => ?_) fun p => .inl rfl
  obtain ⟨id', hid'⟩ := h
  exact ⟨id', (Finset.mem_filter.mp hid').1⟩

theorem markUnusedPacks_guards (scope : Bytes) (now : ℤ) :
    Guards w (Prog.act (.markUnusedPacks scope) fun _ s =>
      ((s.db.unusedPacks scope).length, { s with db := s.db.markUnusedPacks scope now })) g
      fun _ g' => g' = g := by
  refine safe_act fun i s G hinv hg _ => ⟨?_, trivial, rfl⟩
  refine hinv.tidy hg rfl (fun p h => h) (fun p h => h) fun p => ?_
  simp only [shelf, markUnusedPacks_get?]
  cases s.db.packs.get? p with
  | none => exact .inl rfl
  | some row =>
    by_cases hmark : row.scope = scope ∧ row.state = .live ∧ s.db.linked p = false
    · refine .inr ⟨by simp [hmark.2.1], fun hlink => ?_, by simp [hmark]⟩
      have hlinked : s.db.linked p = true := linked_iff.mpr hlink
      rw [hmark.2.2] at hlinked
      cases hlinked
    · exact .inl (by simp [hmark])

theorem deleteRecord_only (name : RecordName) : (deleteRecord name).Only SamePacks := by
  refine only_act fun i s => ?_
  cases i.store with
  | some e => exact ⟨trivial, rfl, rfl, rfl, rfl⟩
  | none =>
    cases s.store.records.get? name with
    | none | some record => exact ⟨trivial, rfl, rfl, rfl, rfl⟩

theorem removeSnapshots_guards (ids : List Id) : Guards w (removeSnapshots ids) g fun _ g' => g' = g := by
  induction ids with
  | nil => exact rfl
  | cons id ids ih =>
    have hrest : Guards w (do
        write (.deleteSnapshot id) fun db => db.deleteCloudSnapshot id
        let removed ← removeSnapshots ids
        return removed + 1) g fun _ g' => g' = g :=
      (deleteSnapshot_guards id).keep (fun _ => rfl) fun _ => ih.keep (fun _ => rfl) fun _ => rfl
    refine guards_aside (only_of_read trivial) (fun _ => rfl) fun name => ?_
    refine guards_aside (deleteRecord_only name) (fun _ => rfl) fun result => ?_
    rcases result with _ | _
    · rename_i e
      cases e with
      | notFound => exact hrest
      | full | unavailable message | rejected message => exact rfl
    · exact hrest

theorem claimPack_some {db : Db} {claim : Claim}
    (h : (claimPack db id scope now).1 = some claim) :
    ∃ row, db.packs.get? id = some row ∧
      ((row.state = .deleting ∧ (claimPack db id scope now).2 = db ∧ claim.fresh = false) ∨
        (row.state = .marked ∧ claim.fresh = true ∧
          (claimPack db id scope now).2 = db.updatePack id fun row => { row with state := .deleting })) := by
  unfold claimPack at h ⊢
  cases hrow : db.packs.get? id with
  | none => simp [hrow] at h
  | some row =>
    refine ⟨row, rfl, ?_⟩
    cases hstate : row.state with
    | pending | live => simp [hrow, hstate] at h
    | deleting =>
      simp only [hrow, hstate, Option.some.injEq] at h ⊢
      subst h
      simp
    | marked =>
      simp only [hrow, hstate] at h ⊢
      split at h
      · rename_i hcond
        obtain rfl := Option.some.inj h
        simp [hcond]
      · cases h

theorem claimPack_none {db : Db}
    (h : (claimPack db id scope now).1 = none) : (claimPack db id scope now).2 = db := by
  unfold claimPack at h ⊢
  split
  · rfl
  split
  · rfl
  · split
    · simp_all
    · rfl
  · rfl

theorem claim_guards (hnone : g.claim = none) (id : Bytes32) (scope : Bytes) (now : ℤ) :
    Guards w (Prog.act (.claim id scope now) fun _ s =>
        let (claim, db) := claimPack s.db id scope now
        (claim, { s with db := db })) g (Prog.OnOk fun claim g' =>
      g' = { g with claim := claim.map fun q => ⟨id, q.fresh, false⟩ }) := by
  refine safe_act fun i s G hinv hg _ => ⟨?_, trivial, rfl⟩
  refine ⟨fun p => ?_, hinv.apart.update hg fun p hp => .inl hp⟩
  change Guarded (shelf { s with db := (claimPack s.db id scope now).2 }) _ p
  cases hclaim : (claimPack s.db id scope now).1 with
  | none =>
    have hafter : after (.claim id scope now) i s g = g := by
      simp only [after, hclaim, map_none, ← hnone]
    rw [claimPack_none hclaim, hafter, update_of_eq hg]
    exact hinv.guarded p
  | some claim =>
    obtain ⟨row, hrow, hcases⟩ := claimPack_some hclaim
    have hafter : after (.claim id scope now) i s g = { g with claim := some ⟨id, claim.fresh, false⟩ } := by
      simp only [after, hclaim, map_some]
    have hstate : s.shelf.state id = some row.state := by simp [shelf, hrow]
    rw [hafter]
    rcases hcases with ⟨hdeleting, hdb, -⟩ | ⟨hmarked, -, hdb⟩
    · refine (hinv.guarded p).claim hg hnone (q := id) (.inr (hdeleting ▸ hstate)) ?_
      rw [hdb]
      refine Shelf.ext (funext fun p' => ?_) rfl rfl rfl
      simp only [Function.update_apply]
      split
      · rename_i hp'
        rw [hp', ← hdeleting]
        exact hstate
      · rfl
    · refine (hinv.guarded p).claim hg hnone (q := id) (.inl (hmarked ▸ hstate)) ?_
      rw [hdb]
      refine Shelf.ext (funext fun p' => ?_) rfl rfl rfl
      simp only [shelf, updatePack_packs]
      by_cases hp' : p' = id
      · simp [hp', hrow]
      · simp [hp']

/-- The object goes, or was gone. If the store fails, only a claim of the pass's own is still to be undone. -/
theorem deletePack_guards {fresh : Bool} (hclaim : g.claim = some ⟨id, fresh, false⟩) :
    Guards w (deletePack id) g (Prog.OnOk fun r g' =>
      ((r = .ok () ∨ r = .error .notFound) ∧ g'.claim = some ⟨id, fresh, true⟩) ∨
        ∃ e, r = .error e ∧ e ≠ .notFound ∧ (fresh = true → g'.claim = some ⟨id, fresh, false⟩)) := by
  refine safe_act fun i s G hinv hg _ => ?_
  have hsends : ∀ claim, Apart (Function.update G w (some { g with claim := claim })) := fun claim =>
    hinv.apart.update hg fun p hp => .inl hp
  have hgone : i.store = none ∨ i.store = some .notFound →
      after (.deletePack id) i s g = { g with claim := some ⟨id, fresh, true⟩ } := by
    intro hi
    simp only [after, hi, if_true, hclaim, map_some]
  cases hi : i.store with
  | none =>
    rw [hgone (.inl hi)]
    cases hp : s.store.packs.get? id with
    | none =>
      refine ⟨⟨fun p => ?_, hsends _⟩, trivial, .inl ⟨.inr rfl, rfl⟩⟩
      exact (hinv.guarded p).deleteObject hg hclaim (fun _ => Iff.rfl) rfl
    | some bytes =>
      refine ⟨⟨fun p => ?_, hsends _⟩, trivial, .inl ⟨.inl rfl, rfl⟩⟩
      refine (hinv.guarded p).deleteObject hg hclaim (fun hne => ?_) rfl
      simp only [shelf, get?_erase, hne, if_false]
  | some e =>
    by_cases he : e = .notFound
    · subst he
      rw [hgone (.inr hi)]
      refine ⟨⟨fun p => ?_, hsends _⟩, trivial, .inl ⟨.inr rfl, rfl⟩⟩
      exact (hinv.guarded p).deleteObject hg hclaim (fun _ => Iff.rfl) rfl
    · have hno : ¬ (i.store = none ∨ i.store = some .notFound) := by simp [hi, he]
      cases fresh with
      | true =>
        have hfresh : g.claim.filter Claimed.fresh = g.claim := by
          rw [hclaim]
          rfl
        have hafter : after (.deletePack id) i s g = g := by
          simp only [after, if_neg hno, hfresh]
        rw [hafter, update_of_eq hg]
        exact ⟨hinv, trivial, .inr ⟨e, rfl, he, fun _ => hclaim⟩⟩
      | false =>
        have hafter : after (.deletePack id) i s g = { g with claim := none } := by
          simp [after, hno, hclaim]
        rw [hafter]
        refine ⟨⟨fun p => ?_, hsends _⟩, trivial, .inr ⟨e, rfl, he, fun h => (by cases h)⟩⟩
        exact (hinv.guarded p).dropClaim hg hclaim

theorem deleteRow_guards {fresh gone : Bool} (hclaim : g.claim = some ⟨id, fresh, gone⟩) :
    Guards w (write (.deleteRow id) fun db => db.deletePackRow id) g
      (Prog.OnOk fun _ g' => g'.claim = none) := by
  refine safe_act fun i s G hinv hg _ => ⟨⟨fun p => ?_, ?_⟩, trivial, rfl⟩
  · refine (hinv.guarded p).deleteRow hg hclaim ?_ ?_
    · rintro ⟨k, place, hk, rfl⟩
      change (s.db.chunks.keep _).get? k = some place at hk
      rw [get?_keep_some] at hk
      exact ⟨k, place, hk.1, rfl⟩
    · refine Shelf.ext (funext fun p => ?_) rfl rfl rfl
      simp only [shelf, deletePackRow, get?_erase, Function.update_apply]
      split
      · rfl
      · rfl
  · exact hinv.apart.update hg fun p hp => .inl hp

theorem release_guards {fresh : Bool} (hclaim : g.claim = some ⟨id, fresh, false⟩) :
    Guards w (write (.release id) fun db => releasePack db id) g (Prog.OnOk fun _ _ => True) := by
  refine safe_act fun i s G hinv hg hrule => ⟨⟨fun p => ?_, ?_⟩, trivial, trivial⟩
  · refine (hinv.guarded p).release hg hclaim hrule ?_
    refine Shelf.ext (funext fun p => ?_) rfl rfl rfl
    simp only [shelf, releasePack, updatePack_packs]
    by_cases hp : p = id
    · subst hp
      rcases eq_none_or_eq_some (s.db.packs.get? p) with hrow | ⟨row, hrow⟩
      · simp [hrow]
      · by_cases hstate : row.state = .deleting
        · simp [hrow, hstate]
        · simp [hrow, hstate]
    · simp [hp]
  · exact hinv.apart.update hg fun p hp => .inl hp

theorem deleteClaimed_guards (hnone : g.claim = none) (scope : Bytes) (now : ℤ) (ids : List Bytes32) :
    Guards w (deleteClaimed scope now ids) g (Prog.OnOk fun _ _ => True) := by
  induction ids generalizing g with
  | nil => trivial
  | cons id ids ih =>
    refine (claim_guards hnone id scope now).andThen ?_
    rintro (_ | claim) g' rfl
    · exact ih rfl
    have hrest : ∀ g' : Hands, g'.claim = some ⟨id, claim.fresh, true⟩ → Guards w (do
        write (.deleteRow id) fun db => db.deletePackRow id
        deleteClaimed scope now ids >>= fun r => pure (r.1 + 1, r.2 + claim.size)) g' (Prog.OnOk fun _ _ => True) :=
      fun g' hg' => (deleteRow_guards hg').andThen fun _ g'' hg'' => (ih hg'').andThen fun _ _ _ => trivial
    refine (deletePack_guards rfl).andThen ?_
    rintro r g' (⟨rfl | rfl, hg'⟩ | ⟨e, rfl, he, hg'⟩)
    · exact hrest g' hg'
    · exact hrest g' hg'
    · have hfail : Guards w (if claim.fresh = true then do
            write (.release id) fun db => releasePack db id
            Prog.fail (.error e.text)
          else Prog.fail (.error e.text) : Job (ℕ × ℕ)) g' (Prog.OnOk fun _ _ => True) := by
        split
        · rename_i hfresh
          exact (release_guards (hg' hfresh)).andThen fun _ _ _ => trivial
        · trivial
      cases e with
      | notFound => exact absurd rfl he
      | full | unavailable message | rejected message => exact hfail

theorem thin_guards (hnone : g.claim = none) (protection : String) (scope : Bytes) (now : ℤ) :
    Guards w (thin protection scope now) g (Prog.OnOk fun _ _ => True) := by
  refine guards_aside (only_of_read trivial) (fun _ => trivial) fun snapshots => ?_
  refine (removeSnapshots_guards _).keep (fun _ => trivial) fun removed => ?_
  refine (markUnusedPacks_guards scope now).keep (fun _ => trivial) fun marked => ?_
  refine guards_aside (only_of_read trivial) (fun _ => trivial) fun pending => ?_
  cases pending with
  | true => trivial
  | false =>
    refine guards_aside (only_of_read trivial) (fun _ => trivial) fun ids => ?_
    exact (deleteClaimed_guards hnone scope now ids).andThen fun _ _ _ => trivial

/-! ### Backup runs -/

/-- The packs a copy will link are in hand, and it is sending none. -/
def Copying (st : CopyState) (g : Hands) : Prop := (∀ p ∈ st.packIds, p ∈ g.held) ∧ g.sent = none

variable {ctx : RunContext}

theorem flush_guards {st : CopyState} (h : Copying st g) :
    Guards w (flush c ctx now st) g (Prog.OnOk Copying) := by
  unfold flush
  split
  · exact h
  rename_i b _
  refine guards_aside (only_sealPack draw_samePacks _ b) (fun _ => trivial) fun pack => ?_
  refine (insertPack_guards pack ctx.scope ctx.runId now).andThen ?_
  rintro ⟨⟩ g1 rfl
  refine (putPack_guards rfl).andThen ?_
  rintro (e | ⟨⟩) g2 rfl
  · trivial
  refine (insertChunks_guards ctx.scope st.pending rfl).andThen ?_
  rintro ⟨⟩ g3 rfl
  refine ⟨fun p hp => ?_, rfl⟩
  rcases List.mem_append.mp hp with hp | hp
  · exact Finset.mem_insert_of_mem (h.1 p hp)
  · rw [List.mem_singleton.mp hp]
    exact Finset.mem_insert_self ..

theorem chunk_guards {plain : Bytes} {st : CopyState} (h : Copying st g) :
    Guards w (chunk c ctx now plain st) g (Prog.OnOk fun r g' => Copying r.2 g') := by
  unfold chunk
  dsimp only
  split
  · exact h
  refine (findChunk_guards _ _).andThen ?_
  rintro (_ | place) g1 ⟨hsent, hheld, hplace⟩
  · refine guards_aside (only_orPanic _) (fun _ => trivial) fun ⟨b, e⟩ => ?_
    have hcopy : Copying { st with
        builder := some b
        pending := st.pending ++ [e]
        placed := insert (c.chunkId ctx.dedupKey plain) st.placed } g1 :=
      ⟨fun p hp => hheld (h.1 p hp), hsent.trans h.2⟩
    split
    · exact (flush_guards hcopy).andThen fun st' g' hst' => hst'
    · exact hcopy
  · refine ⟨fun p hp => ?_, hsent.trans h.2⟩
    split at hp
    · exact hheld (h.1 p hp)
    · rcases List.mem_append.mp hp with hp | hp
      · exact hheld (h.1 p hp)
      · rw [List.mem_singleton.mp hp]
        exact hplace place rfl

theorem copyChunks_guards {chunks : List Bytes} {st : CopyState}
    (h : Copying st g) :
    Guards w (copyChunks c ctx now chunks st) g (Prog.OnOk fun r g' => Copying r.2 g') := by
  induction chunks generalizing st g with
  | nil => exact h
  | cons plain chunks ih =>
    exact (chunk_guards h).andThen fun r g1 h1 => (ih h1).andThen fun r' g2 h2 => h2

theorem copyFiles_guards {files : List SourceFile} {st : CopyState}
    (h : Copying st g) :
    Guards w (copyFiles c ctx now files st) g (Prog.OnOk fun r g' => Copying r.2 g') := by
  induction files generalizing st g with
  | nil => exact h
  | cons file files ih =>
    refine (copyChunks_guards h).andThen fun r g1 h1 => ?_
    obtain ⟨ids, st1⟩ := r
    dsimp only
    split
    · trivial
    · exact (ih h1).andThen fun r' g2 h2 => h2

theorem copyAndCommit_guards (hsent : g.sent = none) (ctx : RunContext) (source : Source) (now : ℤ) :
    Guards w (copyAndCommit c j ctx source now) g (Prog.OnOk fun _ _ => True) := by
  unfold copyAndCommit
  split
  · trivial
  rename_i files _
  have hstart : Copying CopyState.start g := ⟨fun p hp => absurd hp List.not_mem_nil, hsent⟩
  refine (copyFiles_guards hstart).andThen ?_
  rintro ⟨drafts, st1⟩ g1 h1
  refine (flush_guards h1).andThen fun st2 g2 h2 => ?_
  refine guards_aside (only_orError _) (fun _ => trivial) fun entries => ?_
  refine guards_aside (only_buildTree draw_samePacks _ _ _) (fun _ => trivial) fun ⟨treeHash, e, pack⟩ => ?_
  refine (insertPack_guards pack ctx.scope ctx.runId now).andThen ?_
  rintro ⟨⟩ g3 rfl
  refine (putPack_guards rfl).andThen ?_
  rintro (e' | ⟨⟩) g4 rfl
  · trivial
  refine (insertChunks_guards ctx.scope [⟨treeHash, e.offset, e.len⟩] rfl).andThen ?_
  rintro ⟨⟩ g5 rfl
  refine guards_aside (only_look fun _ => ⟨trivial, rfl, rfl, rfl, rfl⟩) (fun _ => trivial) fun id => ?_
  refine guards_aside (putRecord_only _ _) (fun _ => trivial) fun _ => ?_
  refine Prog.Safe.andThen (commitSnapshot_guards (fun p hp => ?_) rfl) fun _ _ _ => trivial
  rcases List.mem_append.mp hp with hp | hp
  · exact Finset.mem_insert_of_mem (h2.1 p hp)
  · rw [List.mem_singleton.mp hp]
    exact Finset.mem_insert_self ..

theorem runHolding_guards (hsent : g.sent = none) (protection : String) (source : Source)
    (acceptMissing : Bool) (now : ℤ) :
    Guards w (runHolding c j protection source acceptMissing now) g (Prog.OnOk fun _ _ => True) := by
  have hcheck : (checkSource c j protection source acceptMissing).Only SamePacks :=
    only_checkSource (fun _ _ => ⟨trivial, rfl, rfl, rfl, rfl⟩) getPack_samePacks protection source acceptMissing
  refine guards_aside hcheck (fun _ => trivial) fun held => ?_
  rcases held with (_ | _) | (_ | _)
  · trivial
  · trivial
  · refine guards_aside (prepare_samePacks protection now) (fun _ => trivial) fun prepared => ?_
    rcases prepared with e | ⟨ctx, publish⟩
    · trivial
    have hcopy : Guards w (publishAndCopy c j ctx publish source now) g (Prog.OnOk fun _ _ => True) := by
      cases publish with
      | none => exact copyAndCommit_guards hsent ctx source now
      | some p =>
        exact guards_aside (publishKey_samePacks _ _ _ _ _) (fun _ => trivial) fun _ =>
          copyAndCommit_guards hsent ctx source now
    refine (guards_attempt hcopy).andThen ?_
    rintro ((_ | _) | outcome) g' -
    · exact (endRun_guards ctx.runId now).andThen fun _ _ _ => trivial
    · trivial
    · exact (endRun_guards ctx.runId now).andThen fun _ _ _ => trivial
  · trivial

theorem runWithRoot_guards (hsent : g.sent = none) (protection : String) (source : Source)
    (acceptMissing : Bool) (now : ℤ) :
    Guards w (runWithRoot c j protection source acceptMissing now) g (Prog.OnOk fun _ _ => True) := by
  refine guards_aside (takeSlot_samePacks protection) (fun _ => trivial) fun took => ?_
  cases took with
  | false => trivial
  | true =>
    have hrun : Guards w (do
        resealPendingHolding c j (some protection)
        runHolding c j protection source acceptMissing now) g (Prog.OnOk fun _ _ => True) :=
      guards_aside (resealPendingHolding_samePacks _) (fun _ => trivial) fun _ =>
        runHolding_guards hsent protection source acceptMissing now
    refine (guards_attempt hrun).andThen fun result g' _ => ?_
    refine guards_aside (dropSlots_samePacks _) (fun _ => trivial) fun _ => safe_ofExcept ?_
    cases result <;> trivial

/-! ### Steps of the key move -/

theorem moveOne_guards (protection : String) (target : Target) (scope : Bytes)
    (old : Bytes32) (runId : Id) (now : ℤ) :
    Guards w (moveOne c protection target scope old runId now) g (Prog.OnOk fun _ _ => True) := by
  unfold moveOne
  split
  · trivial
  refine guards_aside (only_of_read trivial) (fun _ => trivial) fun ⟨oldKeys, rows⟩ => ?_
  dsimp only
  split
  · trivial
  refine guards_aside (only_getPack (getPack_samePacks old)) (fun _ => trivial) fun bytes => ?_
  refine guards_aside (only_orError _) (fun _ => trivial) fun opened => ?_
  split
  · trivial
  refine guards_aside (only_ofExcept _) (fun _ => trivial) fun b => ?_
  refine guards_aside (only_sealPack draw_samePacks _ b) (fun _ => trivial) fun pack => ?_
  refine (insertPack_guards pack scope runId now).andThen ?_
  rintro ⟨⟩ g1 rfl
  refine (putPack_guards rfl).andThen ?_
  rintro (e | ⟨⟩) g2 rfl
  · refine (forgetUnsent_guards rfl).andThen fun _ g3 _ => ?_
    exact (safe_of_samePacks (pauseOrFail_samePacks protection e)).mono fun r _ _ => by cases r <;> trivial
  refine Prog.Safe.andThen (safe_attempt ((commitMove_guards rfl).mono fun r g' hr => hr)) ?_
  rintro (e | ⟨⟩) g3 hg3
  · exact (markUploadedUnused_guards (hg3 ⟨e, rfl⟩)).andThen fun _ _ _ => trivial
  · trivial

theorem rewriteOne_guards (protection : String) (target : Target) (scope : Bytes)
    (id : Id) (snapshot : Snapshot) (runId : Id) (now : ℤ) :
    Guards w (rewriteOne c j protection target scope id snapshot runId now) g (Prog.OnOk fun _ _ => True) := by
  have hkeys : (orError =<< read (.readKeys protection) fun db => rewriteKeys db protection snapshot).Only
      SamePacks := Prog.Only.bind (only_of_read trivial) fun _ => only_orError _
  refine guards_aside hkeys (fun _ => trivial) fun ⟨luna, oldKey⟩ => ?_
  refine guards_aside (only_orError _) (fun _ => trivial) fun oldRecord => ?_
  refine guards_aside (only_readTree getPack_samePacks _ _) (fun _ => trivial) fun oldTree => ?_
  refine guards_aside (only_orError _) (fun _ => trivial) fun details => ?_
  have hplaced : Guards w (orError =<< read (.placeChunks scope (chunkIds oldTree.entries)) fun db =>
      placeChunks db target scope oldTree.entries) g
      (Prog.OnOk fun entries g' => ∀ p ∈ linksOf entries, p ∈ g'.held) := by
    refine (placeChunks_guards target scope oldTree.entries).andThen fun placed g' hg' => ?_
    cases placed with
    | error e => trivial
    | ok entries => exact hg'.2 entries rfl
  refine hplaced.andThen fun entries g1 hheld => ?_
  refine guards_aside (only_buildTree draw_samePacks _ _ _) (fun _ => trivial) fun ⟨treeHash, place, pack⟩ => ?_
  refine guards_aside (only_look fun _ => ⟨trivial, rfl, rfl, rfl, rfl⟩) (fun _ => trivial)
    fun newDetails => ?_
  refine (insertPack_guards pack scope runId now).andThen ?_
  rintro ⟨⟩ g2 rfl
  refine (putPack_guards rfl).andThen ?_
  rintro (e | ⟨⟩) g3 rfl
  · refine (forgetUnsent_guards rfl).andThen fun _ g4 _ => ?_
    exact (safe_of_samePacks (pauseOrFail_samePacks protection e)).mono fun r _ _ => by cases r <;> trivial
  refine Prog.Safe.andThen (safe_attempt ((commitRewrite_guards (g := ⟨g1.held, some (pack.id, true),
    g1.claim⟩) rfl hheld).mono fun r g' hr => hr)) ?_
  rintro (e | ⟨⟩) g4 hg4
  · exact (markUploadedUnused_guards (hg4 ⟨e, rfl⟩)).andThen fun _ _ _ => trivial
  refine guards_aside (putRecord_only _ _) (fun _ => trivial) fun _ => ?_
  exact guards_aside (only_write fun s => ⟨trivial, rfl, rfl, rfl, rfl⟩) (fun _ => trivial) fun _ => trivial

theorem rewrapStep_guards (protection : String) (now : ℤ) :
    Guards w (rewrapStep c j protection now) g (Prog.OnOk fun _ _ => True) := by
  have hstep : Guards w (stepHolding c j protection now) g (Prog.OnOk fun _ _ => True) := by
    refine guards_aside (resyncRecords_samePacks protection) (fun _ => trivial) fun _ => ?_
    refine guards_aside (findWork_samePacks protection) (fun _ => trivial) fun found => ?_
    rcases found with _ | ⟨target, work⟩
    · trivial
    refine guards_aside (startStepRun_samePacks _ _ now) (fun _ => trivial) fun runId => ?_
    refine (guards_attempt (?hwork : Guards w _ g (Prog.OnOk fun _ _ => True))).andThen ?_
    case hwork =>
      cases work with
      | move pack => exact moveOne_guards protection target _ pack runId now
      | rewrite id snapshot => exact rewriteOne_guards protection target _ id snapshot runId now
    rintro ((_ | _) | step) g' -
    · exact (endRun_guards runId now).andThen fun _ _ _ => trivial
    · trivial
    · exact (endRun_guards runId now).andThen fun _ _ _ => trivial
  refine guards_aside (takeSlots_samePacks _) (fun _ => trivial) ?_
  rintro ⟨slots, busy⟩
  dsimp only
  split
  · trivial
  · refine (guards_attempt hstep).andThen fun result g' _ => ?_
    refine guards_aside (dropSlots_samePacks _) (fun _ => trivial) fun _ => safe_ofExcept ?_
    cases result <;> trivial

end LibreServ.Cloud
