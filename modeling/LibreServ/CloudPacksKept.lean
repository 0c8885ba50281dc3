import LibreServ.CloudPacksSafe

/-! Runs, steps of the key move and cleanup passes, interleaved in any way and stopped by crashes: every pack
that a snapshot links stays live and stored, as long as no claim is released under another. -/

namespace LibreServ.Cloud

open Sections Hands Option Table

variable {c : Crypto} {j : Json} {s : State} {G : ℕ → Option Hands} {w : ℕ}

/-! ### Starting and restarting -/

/-- A worker that has just started has nothing in hand. -/
theorem Guarded.start {x : Shelf} {p : Bytes32} (h : Guarded x G p) (hw : G w = none) :
    Guarded x (Function.update G w (some Hands.empty)) p := by
  unfold Guarded at h ⊢
  simp only [anyone_update, anyOther_of_none hw]
  simpa [Holds, Sends, HasSent, Claims, Removes, Hands.empty] using h

theorem PacksKept.start (h : PacksKept s G) (hw : G w = none) :
    PacksKept s (Function.update G w (some Hands.empty)) := by
  refine ⟨fun p => (h.guarded p).start hw, forall_update_some.mpr ⟨?_, fun v k hv hk p hp => ?_⟩⟩
  · intro p hp
    cases hp
  · rintro ⟨u, k', hu, hk', hp'⟩
    by_cases huw : u = w
    · subst huw
      rw [Function.update_self, some.injEq] at hk'
      subst hk'
      cases hp'
    · rw [Function.update_of_ne huw] at hk'
      exact h.apart v k hk p hp ⟨u, k', hu, hk', hp'⟩

/-- With no worker about, only the rows, the index and the links matter. -/
theorem guarded_of_nobody {x : Shelf} {p : Bytes32} (hlinked : x.linked p → x.state p = some .live)
    (hlive : x.state p = some .live → x.stored p)
    (hindex : x.indexed p → x.state p = some .pending → x.stored p) : Guarded x (fun _ => none) p := by
  have hnobody : ∀ P : Hands → Prop, ¬ Anyone (fun _ => none) P := by
    rintro P ⟨v, k, hk, -⟩
    cases hk
  unfold Guarded
  constructor <;> simp_all

/-- The restart may mark a pending pack that no snapshot links; nothing else changes its state, and the
index only loses rows. -/
theorem recoverInterruptedRuns_packs (db : Db) (now : ℤ) (p : Bytes32) :
    ((db.recoverInterruptedRuns now).packs.get? p = db.packs.get? p ∨
      ∃ row, db.packs.get? p = some row ∧ row.state = .pending ∧
        (db.recoverInterruptedRuns now).packs.get? p = some { row with state := .marked, markedAt := now }) ∧
    ∀ k place, (db.recoverInterruptedRuns now).chunks.get? k = some place → db.chunks.get? k = some place := by
  unfold Db.recoverInterruptedRuns
  refine ⟨?_, fun k place hplace => ?_⟩
  · rw [get?_update]
    rcases eq_none_or_eq_some (db.packs.get? p) with hrow | ⟨row, hrow⟩
    · rw [hrow]
      exact .inl rfl
    rw [hrow, map_some]
    split
    · rename_i habandoned
      rw [Db.abandoned, decide_eq_true_eq] at habandoned
      exact .inr ⟨row, rfl, habandoned.1, rfl⟩
    · exact .inl rfl
  · exact (get?_keep_some.mp hplace).1

theorem PacksKept.restart (h : PacksKept s G) (now : ℤ) :
    PacksKept ((packCrew c j).restart now s) (fun _ => none) := by
  refine ⟨fun p => ?_, fun w g hg => (nomatch hg)⟩
  obtain ⟨hrow, hchunks⟩ := recoverInterruptedRuns_packs s.db now p
  obtain ⟨hlinked, hlive, hindex, -⟩ := h.guarded p
  simp only [State.shelf] at hlinked hlive hindex
  refine guarded_of_nobody (fun hlink => ?_) (fun hstate => ?_) fun hindexed hstate => ?_
  · have hold := hlinked hlink
    rcases hrow with hsame | ⟨row, hrow, hpending, -⟩
    · exact (congrArg (Option.map PackRow.state) hsame).trans hold
    · rw [hrow, map_some, hpending] at hold
      cases hold
  · rcases hrow with hsame | ⟨row, -, -, hmarked⟩
    · exact hlive ((congrArg (Option.map PackRow.state) hsame).symm.trans hstate)
    · cases (congrArg (Option.map PackRow.state) hmarked).symm.trans hstate
  · obtain ⟨k, place, hplace, hpack⟩ := hindexed
    rcases hrow with hsame | ⟨row, -, -, hmarked⟩
    · exact hindex ⟨k, place, hchunks k place hplace, hpack⟩
        ((congrArg (Option.map PackRow.state) hsame).symm.trans hstate)
    · cases (congrArg (Option.map PackRow.state) hmarked).symm.trans hstate

theorem packCrew_keeps : Pool.Keeps (packCrew c j) Orderly PacksKept (fun _ _ => True) fun _ _ => True where
  start _ _ _ _ h hw := h.start hw
  safe op w := by
    cases op with
    | run protection source acceptMissing now =>
      exact ((runWithRoot_guards rfl protection source acceptMissing now).mono fun _ _ _ => trivial).then
        fun _ _ => trivial
    | rewrap protection now =>
      exact ((rewrapStep_guards protection now).mono fun _ _ _ => trivial).then fun _ _ => trivial
    | thin protection scope now =>
      exact ((thin_guards rfl protection scope now).mono fun _ _ _ => trivial).then fun _ _ => trivial
  restart now _ _ h := ⟨h.restart now, trivial⟩

/-! ### Whole runs -/

/-- Every pack a snapshot links is live, every live pack is stored, and so is every pending pack that the
index has chunks in. -/
structure Stocked (s : State) : Prop where
  linked : ∀ p, s.shelf.linked p → s.shelf.state p = some .live
  live : ∀ p, s.shelf.state p = some .live → s.shelf.stored p
  index : ∀ p, s.shelf.indexed p → s.shelf.state p = some .pending → s.shelf.stored p

theorem readyLuna_stocked : Stocked readyLuna where
  linked p h := by
    obtain ⟨id, hid⟩ := h
    exact absurd hid (Finset.notMem_empty _)
  live p h := by cases h
  index p h := by
    obtain ⟨k, place, hplace, -⟩ := h
    cases hplace

/-- A run that is alone meets the rule as long as the ids of its packs are new. -/
def newPackIds (x : Pool Label Input State Fault Unit Hands) : Bool :=
  match x.next 1 with
  | some (.insertPack id) =>
    (x.state.db.chunks.rows.all fun r => r.2.pack ≠ id) && ((x.notes 1).all fun g => id ∉ g.held && g.claim.isNone)
  | some (.release _) => false
  | _ => true

theorem orderly_of_newPackIds {x : Pool Label Input State Fault Unit Hands} {i : Input} {l : Label}
    (h : x.Alone 1) (hok : newPackIds x = true) (hl : x.next 1 = some l) :
    Orderly 1 l i x.state x.notes := by
  rw [newPackIds, hl] at hok
  cases l with
  | insertPack id =>
    intro _
    simp only [Bool.and_eq_true, List.all_eq_true, decide_eq_true_eq, all_eq_true] at hok
    refine ⟨?_, fun hheld => ?_, fun hclaimed => ?_⟩
    · rintro ⟨k, place, hplace, hpack⟩
      exact hok.1 (k, place) (mem_rows.mpr hplace) hpack
    · obtain ⟨g, hg, hheld⟩ := h.anyone hheld
      exact (hok.2 g hg).1 hheld
    · obtain ⟨g, hg, hclaimed⟩ := h.anyone hclaimed
      rw [Claims, isNone_iff_eq_none.mp (hok.2 g hg).2] at hclaimed
      cases hclaimed
  | release id => cases hok
  | _ => trivial

/-- The first copy of a photo. -/
def firstCopy : List (PoolEvent Op Input ℤ) :=
  .start 1 (.run "p" (photo "a.jpg" [1, 2]) true 10) :: (List.replicate 21 (.drawn 10)).map (.step 1)

theorem firstCopy_orderly : Pool.Meets (packCrew toyCrypto toyJson) Orderly firstCopy
    ⟨readyLuna, fun _ => none⟩ := by
  refine Pool.meets_start (Pool.meets_of_alone (fun _ _ _ => orderly_of_newPackIds) ?_ ?_)
  · intro v hv
    exact Function.update_of_ne hv ..
  · decide +kernel

/-- The times that the workers and restarts of a run read from the clock, in order. -/
def clockReadings (es : List (PoolEvent Op Input ℤ)) : List ℤ :=
  es.filterMap fun
    | .start _ (.run _ _ _ now) | .start _ (.rewrap _ now) | .start _ (.thin _ _ now) | .crash now => some now
    | .step _ _ => none

def stepsOf (w n : ℕ) (b : UInt8) : List (PoolEvent Op Input ℤ) := List.replicate n (.step w (.drawn b))

def releasedUnderAnother : List (PoolEvent Op Input ℤ) :=
  let scope := scopeName (scopeIdOf toyCrypto (Fixed.fill 32 11))
  [.start 1 (.run "p" (photo "a.jpg" [1, 2]) true 10)] ++ stepsOf 1 21 10 ++
  [.start 2 (.run "p" (photo "b.jpg" [3]) true 2764800)] ++ stepsOf 2 18 20 ++
  [.start 3 (.thin "p" scope 2764801)] ++ stepsOf 3 4 0 ++
  [.start 4 (.run "p" (photo "a.jpg" [1, 2]) true 2764802)] ++ stepsOf 4 4 30 ++
  stepsOf 3 1 0 ++
  [.start 5 (.thin "p" scope 2851201)] ++ stepsOf 5 5 0 ++
  [.start 6 (.thin "p" scope 2851201)] ++ stepsOf 6 8 0 ++
  [.step 5 { Input.drawn 0 with store := some (.unavailable "Your cloud storage did not answer.") }] ++
  stepsOf 5 1 0 ++ stepsOf 4 8 30 ++ stepsOf 6 1 0

end LibreServ.Cloud
