import LibreServ.CloudRetention

/-! What keeps a pack from being deleted under a snapshot that links it. Runs, steps of the key move and
cleanup passes work on the packs at the same time, each with the database unlocked around its store calls.
A pass must claim a pack (move it to `deleting`) before it deletes the object, and a commit refuses a pack
that is being deleted, so a run that found the pack earlier fails instead of linking it. What a claim does
not guard against is its own release: a second pass may have claimed the pack too, and deletes it although
it is only marked again. -/

namespace LibreServ.Cloud

open Sections Option

/-! ### The packs, as the argument sees them -/

/-- For each pack: its state, whether its object is stored, whether the index has a chunk in it, and
whether a snapshot links it. -/
@[ext]
structure Shelf where
  state : Bytes32 → Option PackState
  stored : Bytes32 → Prop
  indexed : Bytes32 → Prop
  linked : Bytes32 → Prop

/-- A pack a pass has claimed, whether it was this pass that moved it to `deleting`, and whether the
object is gone. -/
structure Claimed where
  pack : Bytes32
  fresh : Bool
  gone : Bool

/-- What a worker has in hand: the packs it will link, the pack whose row it has inserted and whether the
object is uploaded, and the pack it has claimed. -/
structure Hands where
  held : Finset Bytes32
  sent : Option (Bytes32 × Bool)
  claim : Option Claimed

namespace Hands

def empty : Hands := ⟨∅, none, none⟩

def Holds (p : Bytes32) (g : Hands) : Prop := p ∈ g.held
def Sends (p : Bytes32) (g : Hands) : Prop := g.sent.map Prod.fst = some p
def HasSent (p : Bytes32) (g : Hands) : Prop := g.sent = some (p, true)
def Claims (p : Bytes32) (g : Hands) : Prop := g.claim.map Claimed.pack = some p

/-- The worker has deleted the object and will delete the row. -/
def Removes (p : Bytes32) (g : Hands) : Prop := (g.claim.filter Claimed.gone).map Claimed.pack = some p

end Hands

open Hands

/-- What holds of a pack in this state: whether it is stored, indexed and linked, and whether some worker
holds, sends, has uploaded, claims or is about to remove it. A pack without an object is never live, and
while a worker still means to link it, its row is gone or is `deleting` and about to go. -/
structure Fine (state : Option PackState) (stored indexed linked holds sends hasSent claims removes : Prop) :
    Prop where
  linked : linked → state = some .live
  live : state = some .live → stored
  index : indexed → state = some .pending → stored
  held : holds → state = none ∨ state = some .deleting ∨ stored
  marked : state = some .marked → stored ∨ ¬ holds
  deleting : state = some .deleting → stored ∨ ¬ holds ∨ removes
  sent : sends → state = some .pending ∧ ¬ indexed ∧ ¬ holds
  up : hasSent → stored
  claimed : claims → state = none ∨ state = some .deleting ∨ (state = some .marked ∧ ¬ holds)

/-- The invariant for one pack. -/
def Guarded (x : Shelf) (G : ℕ → Option Hands) (p : Bytes32) : Prop :=
  Fine (x.state p) (x.stored p) (x.indexed p) (x.linked p) (Anyone G (Holds p)) (Anyone G (Sends p))
    (Anyone G (HasSent p)) (Anyone G (Claims p)) (Anyone G (Removes p))

/-- No two workers send the same pack. -/
def Apart (G : ℕ → Option Hands) : Prop :=
  ∀ w g, G w = some g → ∀ p, Sends p g → ¬ AnyOther G w (Sends p)

variable {x x' : Shelf} {G : ℕ → Option Hands} {w : ℕ} {g g' : Hands} {p q : Bytes32}

/-! ### What each kind of section does to a pack -/

@[grind →] theorem sends_of_hasSent (h : AnyOther G w (HasSent p)) : AnyOther G w (Sends p) := by
  obtain ⟨v, k, hv, hk, hp⟩ := h
  exact ⟨v, k, hv, hk, congrArg (Option.map Prod.fst) hp⟩

@[grind →] theorem claims_of_removes (h : AnyOther G w (Removes p)) : AnyOther G w (Claims p) := by
  obtain ⟨v, k, hv, hk, hp⟩ := h
  obtain ⟨r, hr, hp⟩ := map_eq_some_iff.mp hp
  exact ⟨v, k, hv, hk, map_eq_some_iff.mpr ⟨r, (filter_eq_some_iff.mp hr).1, hp⟩⟩

section

variable (h : Guarded x G p)
include h

/-- Packs that are live, or pending and already in the index, may be taken up for linking. -/
theorem Guarded.hold (hg : G w = some g) {new : Finset Bytes32}
    (hnew : p ∈ new → x.state p = some .live ∨ (x.state p = some .pending ∧ x.indexed p)) :
    Guarded x (Function.update G w (some { g with held := g.held ∪ new })) p := by
  unfold Guarded at h ⊢
  simp only [anyone_iff hg, anyone_update] at h ⊢
  simp only [Holds, Sends, HasSent, Claims, Removes] at h ⊢
  obtain ⟨h1, h2, h3, h4, h5, h6, h7, h8, h9⟩ := h
  constructor <;> grind

/-- The row of a new pack. -/
theorem Guarded.insertRow (hg : G w = some g) (hnone : x.state q = none)
    (hnew : ¬ x.indexed q ∧ ¬ Anyone G (Holds q) ∧ ¬ Anyone G (Claims q))
    (hx : x' = { x with state := Function.update x.state q (some .pending) }) :
    Guarded x' (Function.update G w (some { g with sent := some (q, false) })) p := by
  subst hx
  unfold Guarded at h ⊢
  simp only [anyone_iff hg, anyone_update] at h hnew ⊢
  simp only [Holds, Sends, HasSent, Claims, Removes] at h hnew ⊢
  obtain ⟨h1, h2, h3, h4, h5, h6, h7, h8, h9⟩ := h
  constructor <;> grind

/-- Its object. -/
theorem Guarded.upload (hg : G w = some g) {up : Bool} (hsent : g.sent = some (q, up))
    (hx : x' = { x with stored := fun p => p = q ∨ x.stored p }) :
    Guarded x' (Function.update G w (some { g with sent := some (q, true) })) p := by
  subst hx
  unfold Guarded at h ⊢
  simp only [anyone_iff hg, anyone_update] at h ⊢
  simp only [Holds, Sends, HasSent, Claims, Removes] at h ⊢
  obtain ⟨h1, h2, h3, h4, h5, h6, h7, h8, h9⟩ := h
  constructor <;> grind

/-- Its chunks are in the index, and it is one of the packs to link. -/
theorem Guarded.indexPack (hapart : Apart G) (hg : G w = some g)
    (hsent : g.sent = some (q, true)) (hindexed : x'.indexed p → x.indexed p ∨ p = q)
    (hx : x' = { x with indexed := x'.indexed }) :
    Guarded x' (Function.update G w (some { g with held := insert q g.held, sent := none })) p := by
  rw [hx]
  have hothers := hapart w g hg q (congrArg (Option.map Prod.fst) hsent)
  unfold Guarded at h ⊢
  simp only [anyone_iff hg, anyone_update] at h ⊢
  simp only [Holds, Sends, HasSent, Claims, Removes] at h hothers ⊢
  obtain ⟨h1, h2, h3, h4, h5, h6, h7, h8, h9⟩ := h
  constructor <;> grind

/-- A commit: the packs of `new`, which the worker holds or has uploaded, become live; other live packs
that no snapshot links may become marked. -/
theorem Guarded.commit (new : List Bytes32) (hapart : Apart G) (hg : G w = some g)
    (hnew : p ∈ new → (p ∈ g.held ∧ x.state p ≠ none ∧ x.state p ≠ some .deleting) ∨ g.sent = some (p, true))
    (hstored : x'.stored = x.stored) (hindexed : x'.indexed p → x.indexed p ∨ p ∈ new)
    (hlinked : x'.linked p → x.linked p ∨ p ∈ new)
    (hstate : if p ∈ new then x'.state p = some .live else
      x'.state p = x.state p ∨ (x.state p = some .live ∧ ¬ x'.linked p ∧ x'.state p = some .marked))
    (hheld : g'.held ⊆ g.held) (hclaim : g'.claim = g.claim)
    (hsent : g'.sent = none ∨ (g'.sent = g.sent ∧ (Sends p g → p ∉ new))) :
    Guarded x' (Function.update G w (some g')) p := by
  have hothers := hapart w g hg p
  have hsub := @hheld p
  unfold Guarded at h ⊢
  simp only [anyone_iff hg, anyone_update] at h ⊢
  simp only [Holds, Sends, HasSent, Claims, Removes] at h hothers hsent ⊢
  obtain ⟨h1, h2, h3, h4, h5, h6, h7, h8, h9⟩ := h
  constructor <;> grind

/-- A worker may forget what it meant to link and what it sent. -/
theorem Guarded.letGo (hapart : Apart G) (hg : G w = some g) (hheld : g'.held ⊆ g.held)
    (hclaim : g'.claim = g.claim) (hsent : g'.sent = none ∨ g'.sent = g.sent) :
    Guarded x (Function.update G w (some g')) p :=
  h.commit [] hapart hg (fun hp => absurd hp List.not_mem_nil) rfl .inl .inl (by simp) hheld hclaim
    (hsent.imp_right fun heq => ⟨heq, fun _ => List.not_mem_nil⟩)

/-- The row of a pack that was never uploaded goes. -/
theorem Guarded.forget (hapart : Apart G) (hg : G w = some g) {up : Bool} (hsent : g.sent = some (q, up))
    (hindexed : x'.indexed p → x.indexed p)
    (hx : x' = { x with state := Function.update x.state q none, indexed := x'.indexed }) :
    Guarded x' (Function.update G w (some { g with sent := none })) p := by
  rw [hx]
  have hothers := hapart w g hg q (congrArg (Option.map Prod.fst) hsent)
  unfold Guarded at h ⊢
  simp only [anyone_iff hg, anyone_update] at h ⊢
  simp only [Holds, Sends, HasSent, Claims, Removes] at h ⊢
  obtain ⟨h1, h2, h3, h4, h5, h6, h7, h8, h9⟩ := h
  constructor <;> grind

/-- A pack that was uploaded and not committed is marked. -/
theorem Guarded.markSent (hapart : Apart G) (hg : G w = some g) (hsent : g.sent = some (q, true))
    (hx : x' = { x with state := Function.update x.state q (some .marked) }) :
    Guarded x' (Function.update G w (some { g with sent := none })) p := by
  subst hx
  have hothers := hapart w g hg q (congrArg (Option.map Prod.fst) hsent)
  unfold Guarded at h ⊢
  simp only [anyone_iff hg, anyone_update] at h ⊢
  simp only [Holds, Sends, HasSent, Claims, Removes] at h hothers ⊢
  obtain ⟨h1, h2, h3, h4, h5, h6, h7, h8, h9⟩ := h
  constructor <;> grind

/-- A pass claims a pack that is marked, or one that another pass has claimed already. -/
theorem Guarded.claim (hg : G w = some g) (hnone : g.claim = none) {fresh : Bool}
    (hstate : x.state q = some .marked ∨ x.state q = some .deleting)
    (hx : x' = { x with state := Function.update x.state q (some .deleting) }) :
    Guarded x' (Function.update G w (some { g with claim := some ⟨q, fresh, false⟩ })) p := by
  subst hx
  unfold Guarded at h ⊢
  simp only [anyone_iff hg, anyone_update] at h ⊢
  simp only [Holds, Sends, HasSent, Claims, Removes] at h ⊢
  obtain ⟨h1, h2, h3, h4, h5, h6, h7, h8, h9⟩ := h
  constructor <;> grind

end

section

variable (h : Guarded x G p) (hg : G w = some g) {fresh gone : Bool} (hclaim : g.claim = some ⟨q, fresh, gone⟩)
include h hg hclaim

/-- The object of a claimed pack is deleted, or was gone already. -/
theorem Guarded.deleteObject (hstored : p ≠ q → (x'.stored p ↔ x.stored p)) (hx : x' = { x with stored := x'.stored }) :
    Guarded x' (Function.update G w (some { g with claim := some ⟨q, fresh, true⟩ })) p := by
  rw [hx]
  unfold Guarded at h ⊢
  simp only [anyone_iff hg, anyone_update] at h ⊢
  simp only [Holds, Sends, HasSent, Claims, Removes] at h ⊢
  obtain ⟨h1, h2, h3, h4, h5, h6, h7, h8, h9⟩ := h
  constructor <;> grind

/-- Then its row. -/
theorem Guarded.deleteRow (hindexed : x'.indexed p → x.indexed p)
    (hx : x' = { x with state := Function.update x.state q none, indexed := x'.indexed }) :
    Guarded x' (Function.update G w (some { g with claim := none })) p := by
  rw [hx]
  unfold Guarded at h ⊢
  simp only [anyone_iff hg, anyone_update] at h ⊢
  simp only [Holds, Sends, HasSent, Claims, Removes] at h ⊢
  obtain ⟨h1, h2, h3, h4, h5, h6, h7, h8, h9⟩ := h
  constructor <;> grind

end

section

variable (h : Guarded x G p) (hg : G w = some g) {fresh : Bool} (hclaim : g.claim = some ⟨q, fresh, false⟩)
include h hg hclaim

/-- A claim is released after the delete failed. If another pass has claimed the pack too, no worker may
still mean to link it: the other pass goes on to delete it. -/
theorem Guarded.release (hrule : x.state q = some .deleting → AnyOther G w (Claims q) → ¬ Anyone G (Holds q))
    (hx : x' = { x with state := fun p =>
      if p = q ∧ x.state q = some .deleting then some .marked else x.state p }) :
    Guarded x' (Function.update G w (some { g with claim := none })) p := by
  subst hx
  unfold Guarded at h ⊢
  simp only [anyone_iff hg, anyone_update] at h hrule ⊢
  simp only [Holds, Sends, HasSent, Claims, Removes] at h hrule ⊢
  obtain ⟨h1, h2, h3, h4, h5, h6, h7, h8, h9⟩ := h
  constructor <;> grind

/-- A pass gives up a claim that it did not make itself. -/
theorem Guarded.dropClaim : Guarded x (Function.update G w (some { g with claim := none })) p := by
  unfold Guarded at h ⊢
  simp only [anyone_iff hg, anyone_update] at h ⊢
  simp only [Holds, Sends, HasSent, Claims, Removes] at h ⊢
  obtain ⟨h1, h2, h3, h4, h5, h6, h7, h8, h9⟩ := h
  constructor <;> grind

end

/-- A worker takes up nothing that another is sending. -/
theorem Apart.update (h : Apart G) (hg : G w = some g)
    (hsends : ∀ p, Sends p g' → Sends p g ∨ ¬ AnyOther G w (Sends p)) :
    Apart (Function.update G w (some g')) := by
  refine forall_update_some.mpr ⟨fun p hp => ?_, fun v k hv hk p hp => ?_⟩
  · rw [anyOther_update]
    rcases hsends p hp with hown | hnone
    · exact h w g hg p hown
    · exact hnone
  · rintro ⟨u, k', hu, hk', hp'⟩
    by_cases huw : u = w
    · subst huw
      rw [Function.update_self, some.injEq] at hk'
      subst hk'
      rcases hsends p hp' with hown | hnone
      · exact h v k hk p hp ⟨u, g, hu, hg, hown⟩
      · exact hnone ⟨v, k, hv, hk, hp⟩
    · rw [Function.update_of_ne huw] at hk'
      exact h v k hk p hp ⟨u, k', hu, hk', hp'⟩

/-! ### The workers -/

def State.shelf (s : State) : Shelf where
  state p := (s.db.packs.get? p).map PackRow.state
  stored p := (s.store.packs.get? p).isSome
  indexed p := ∃ k place, s.db.chunks.get? k = some place ∧ place.pack = p
  linked p := ∃ id, (id, p) ∈ s.db.links

/-- The packs in which a rewrite finds its chunks, if they are committed. -/
def placedPacks (db : Db) (scope : Bytes) (ids : List Bytes32) : Finset Bytes32 :=
  (ids.filterMap fun id => ((db.chunks.get? (scope, id)).map ChunkPlace.pack).filter fun pack =>
    (db.packs.get? pack).any fun row => row.state = .live).toFinset

/-- Every pack has a row and none is being removed: `linkPacks` will not refuse them. -/
def Db.linkable (db : Db) (packs : List Bytes32) : Bool :=
  packs.all fun p => (db.packs.get? p).any fun row => row.state ≠ .deleting

/-- What the worker has in hand after a section. -/
def Hands.after (l : Label) (i : Input) (s : State) (g : Hands) : Hands :=
  match l with
  | .findChunk scope id =>
    { g with held := g.held ∪ ((s.db.findChunk scope id).map ChunkPlace.pack).toFinset }
  | .placeChunks scope ids => { g with held := g.held ∪ placedPacks s.db scope ids }
  | .insertPack id => if s.db.packs.get? id = none then { g with sent := some (id, false) } else g
  | .putPack id => if i.store = none then { g with sent := some (id, true) } else g
  | .insertChunks id => { g with held := insert id g.held, sent := none }
  | .commitSnapshot _ => { g with held := ∅ }
  | .commitMove old _ => if (s.db.packs.get? old).isSome then { g with sent := none } else g
  | .commitRewrite _ tree links =>
    { g with held := ∅, sent := if s.db.linkable (tree :: links) then none else g.sent }
  | .forgetUnsent _ | .markUnused _ => { g with sent := none }
  | .endRun _ => { g with held := ∅, sent := none }
  | .claim id scope now =>
    { g with claim := (claimPack s.db id scope now).1.map fun claim => ⟨id, claim.fresh, false⟩ }
  | .deletePack _ =>
    { g with claim := if i.store = none ∨ i.store = some .notFound
        then g.claim.map fun q => { q with gone := true }
        else g.claim.filter Claimed.fresh }
  | .deleteRow _ | .release _ => { g with claim := none }
  | _ => g

inductive Op where
  | run (protection : String) (source : Source) (acceptMissing : Bool) (now : ℤ)
  | rewrap (protection : String) (now : ℤ)
  | thin (protection : String) (scope : Bytes) (now : ℤ)

/-- Backup runs, steps of the key move and cleanup passes. A crash stops them all; the restart ends the
open runs at the time it is made. -/
def packCrew (c : Crypto) (j : Json) : Crew Op Label Input ℤ State Fault Unit Hands where
  prog
    | .run protection source acceptMissing now => do
      let _ ← runWithRoot c j protection source acceptMissing now
    | .rewrap protection now => do
      let _ ← rewrapStep c j protection now
    | .thin protection scope now => do
      let _ ← thin protection scope now
  restart now s := ⟨s.db.recoverInterruptedRuns now, s.store, ∅⟩
  start _ := Hands.empty
  note := Hands.after

/-- The id of a new pack is not that of a pack the index, or another worker, still knows; and a claim is not
released while another pass has claimed the pack too and a run or a rewrite still means to link it. -/
def Orderly (w : ℕ) (l : Label) (_ : Input) (s : State) (G : ℕ → Option Hands) : Prop :=
  match l with
  | .insertPack id => s.db.packs.get? id = none →
      ¬ s.shelf.indexed id ∧ ¬ Anyone G (Holds id) ∧ ¬ Anyone G (Claims id)
  | .release id => s.shelf.state id = some .deleting → AnyOther G w (Claims id) → ¬ Anyone G (Holds id)
  | _ => True

/-- The invariant. -/
structure PacksKept (s : State) (G : ℕ → Option Hands) : Prop where
  guarded : ∀ p, Guarded s.shelf G p
  apart : Apart G

end LibreServ.Cloud
