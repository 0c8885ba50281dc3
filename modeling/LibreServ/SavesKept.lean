import LibreServ.Saves

/-! No accepted save vanishes on its way to the drive. The flush that claimed a buffer asks later only whether some
buffer stands under the key, so the argument rests on there being no other: while a flush is under way the buffer
under the key is the one it claimed, or there is none. -/

namespace LibreServ.RamCache

open List Option Table

/-! ### The invariant -/

namespace Saves

variable {toLowercase : Files.Text → Files.Text} {key : Key} {s : Saves}

/-- At most one flush is under way. The buffer it claimed is still under the key, or none is; and what the flush
has seen of it is still so. -/
structure Inv (key : Key) (s : Saves) : Prop where
  onlyAt : OnlyAt key s.cache
  one : ∀ f fl f' fl', s.flushes.get? f = some fl → s.flushes.get? f' = some fl' → f = f'
  has : ∀ f fl, s.flushes.get? f = some fl → ∀ d, s.buffer key = some d → d.ticket = fl.ticket ∧ d.state = .flushing
  busy : ∀ d, s.buffer key = some d → d.state = .flushing → ∃ f fl, s.flushes.get? f = some fl
  apart : ∀ fs, s.failure key = some fs → s.buffer key = none
  gone : ∀ d, s.buffer key = some d → d.cancelled → d.ticket ∈ s.deleted
  cut : ∀ d, s.buffer key = some d → d.ticket ∈ s.cutShort → d.cancelled
  stopped : ∀ f fl, s.flushes.get? f = some fl → fl.phase = .removing ∨ fl.phase = .settling .discarded →
    ∀ d, s.buffer key = some d → d.cancelled
  stored : ∀ f fl, s.flushes.get? f = some fl → looksAgain fl ∨ fl.phase = .settling .landed → fl.ticket ∈ s.landed
  old : ∀ t ∈ s.cutShort, t < s.accepted
  fresh : ∀ d, s.buffer key = some d → d.ticket < s.accepted
  all : ∀ t < s.accepted, s.Accounted key t
  drive : ∀ t ∈ s.cutShort, s.onDrive = some t →
    ∃ f fl, s.flushes.get? f = some fl ∧ fl.ticket = t ∧ looksAgain fl

theorem inv_start (key : Key) (bytes : Option (List UInt8)) (now : Nat) : Inv key (start bytes now) where
  onlyAt := fun _ _ h => by cases h
  one := fun _ _ _ _ h => by cases h
  has := fun _ _ h => by cases h
  busy := fun _ h => by cases h
  apart := fun _ h => by cases h
  gone := fun _ h => by cases h
  cut := fun _ h => by cases h
  stopped := fun _ _ h => by cases h
  stored := fun _ _ h => by cases h
  old := fun _ h => by cases h
  fresh := fun _ h => by cases h
  all := fun _ h => by cases h
  drive := fun _ h => by cases h

theorem Inv.safe (h : Inv key s) : s.Safe key := by
  refine ⟨h.all, fun t ht hnone hdrive => ?_⟩
  obtain ⟨f, fl, hf, hticket, -⟩ := h.drive t ht hdrive
  exact hnone f fl hf hticket

/-! #### Sections of a flush -/

theorem isCancelled_eq_false (h : isCancelled key s.cache = false) :
    ∃ d, s.buffer key = some d ∧ d.cancelled = false := by
  unfold isCancelled at h
  unfold buffer
  cases hd : s.cache.dirty.get? key with
  | none =>
    rw [hd] at h
    cases h
  | some d =>
    rw [hd] at h
    exact ⟨d, rfl, h⟩

theorem isCancelled_eq_true (h : isCancelled key s.cache = true) : ∀ d, s.buffer key = some d → d.cancelled := by
  intro d hd
  rw [isCancelled, show s.cache.dirty.get? key = some d from hd] at h
  exact h

/-- A flush whose buffer is not cancelled was not cut short. -/
theorem Inv.not_cutShort (h : Inv key s) {f : Nat} {fl : Flush} (hf : s.flushes.get? f = some fl)
    (hlive : isCancelled key s.cache = false) : fl.ticket ∉ s.cutShort := by
  intro hcut
  obtain ⟨d, hd, hfalse⟩ := isCancelled_eq_false hlive
  rw [← (h.has f fl hf d hd).1] at hcut
  rw [h.cut d hd hcut] at hfalse
  cases hfalse

theorem get?_goTo {f f' : Nat} {fl fl' : Flush} {phase : FlushPhase} (hone : ∀ f'' fl'', s.flushes.get? f'' = some fl'' → f'' = f)
    (h : (s.goTo f fl phase).flushes.get? f' = some fl') : f' = f ∧ fl' = { fl with phase := phase } := by
  rcases get?_put_some.mp h with ⟨hf, rfl⟩ | ⟨hf, h⟩
  · exact ⟨hf, rfl⟩
  · exact absurd (hone f' fl' h) hf

section

variable (h : Inv key s) {f : Nat} {fl : Flush} {phase : FlushPhase}
include h

/-- A flush goes on, and may have changed the file: what the next phase promises has to be so. -/
theorem Inv.goOn {dest : Option Stored}
    {landed : List Nat} (hf : s.flushes.get? f = some fl) (hlanded : s.landed ⊆ landed)
    (hstopped : phase = .removing ∨ phase = .settling .discarded → ∀ d, s.buffer key = some d → d.cancelled)
    (hstored : phase = .installed ∨ phase = .removing ∨ phase = .settling .landed → fl.ticket ∈ landed)
    (hdrive : ∀ t ∈ s.cutShort, dest.bind (·.ticket) = some t →
      fl.ticket = t ∧ (phase = .installed ∨ phase = .removing)) :
    Inv key { s.goTo f fl phase with dest := dest, landed := landed } := by
  have hone : ∀ f' fl', s.flushes.get? f' = some fl' → f' = f := fun f' fl' hf' => h.one f' fl' f fl hf' hf
  exact {
    onlyAt := h.onlyAt
    one := by
      intro f₁ fl₁ f₂ fl₂ h₁ h₂
      exact (get?_goTo hone h₁).1.trans (get?_goTo hone h₂).1.symm
    has := by
      intro f' fl' hf' d hd
      obtain ⟨rfl, rfl⟩ := get?_goTo hone hf'
      exact h.has f' fl hf d hd
    busy := fun _ _ _ => ⟨f, _, get?_put_self _ _ _⟩
    apart := h.apart
    gone := h.gone
    cut := h.cut
    stopped := by
      intro f' fl' hf' hphase
      obtain ⟨rfl, rfl⟩ := get?_goTo hone hf'
      exact hstopped hphase
    stored := by
      intro f' fl' hf' hphase
      obtain ⟨rfl, rfl⟩ := get?_goTo hone hf'
      exact hstored (or_assoc.mp hphase)
    old := h.old
    fresh := h.fresh
    all := by
      intro t ht
      rcases h.all t ht with hb | hl | hrest
      · exact .inl hb
      · exact .inr (.inl (hlanded hl))
      · exact .inr (.inr hrest)
    drive := by
      intro t ht hon
      obtain ⟨hticket, hlooks⟩ := hdrive t ht hon
      exact ⟨f, _, get?_put_self _ _ _, hticket, hlooks⟩ }

/-- The same where the file is left alone. -/
theorem Inv.goTo (hf : s.flushes.get? f = some fl)
    (hstopped : phase = .removing ∨ phase = .settling .discarded → ∀ d, s.buffer key = some d → d.cancelled)
    (hstored : phase = .installed ∨ phase = .removing ∨ phase = .settling .landed → fl.ticket ∈ s.landed)
    (hlooks : fl.ticket ∈ s.cutShort → looksAgain fl → phase = .installed ∨ phase = .removing) :
    Inv key (s.goTo f fl phase) := by
  apply h.goOn hf (List.Subset.refl _) hstopped hstored
  intro t ht hon
  obtain ⟨f', fl', hf', hticket, hagain⟩ := h.drive t ht hon
  obtain rfl := h.one f' fl' f fl hf' hf
  rw [hf] at hf'
  cases hf'
  subst hticket
  exact ⟨rfl, hlooks ht hagain⟩

/-- The rename puts the buffer on the drive, and the flush will look again or had not been cut short. -/
theorem Inv.store (hf : s.flushes.get? f = some fl)
    (hphase : phase = .installed ∨ phase = .settling .failed ∧ fl.ticket ∉ s.cutShort) :
    Inv key ((s.store fl).goTo f fl phase) := by
  apply h.goOn hf (subset_cons_self _ _)
  · rcases hphase with rfl | ⟨rfl, -⟩ <;> simp
  · exact fun _ => mem_cons_self
  · intro t ht hon
    have hticket : fl.ticket = t := Option.some.inj hon
    subst hticket
    rcases hphase with rfl | ⟨-, hnever⟩
    · exact ⟨rfl, .inl rfl⟩
    · exact absurd ht hnever

end

theorem settle_failed (key : Key) (written : Written) (g : Inner) : (settle key written g).failed = g.failed := by
  cases written <;> rfl

/-- What a flush leaves under its key when it settles. -/
theorem settle_dirty (key : Key) (written : Written) (g : Inner) :
    (settle key written g).dirty.get? key =
      if written = .failed then (g.dirty.get? key).map fun d => { d with state := .writing } else none := by
  cases written with
  | landed | discarded => exact takeDirty_dirty key g
  | failed => simp [settle]

/-- A flush that ends leaves the buffer for another try, or takes it away once it is on the drive or deleted. -/
theorem Inv.settle (h : Inv key s) {f : Nat} {fl : Flush} {written : Written} (hf : s.flushes.get? f = some fl)
    (hphase : fl.phase = .settling written) :
    Inv key { s with cache := RamCache.settle key written s.cache, flushes := s.flushes.erase f } := by
  have hnone : ∀ f' fl', (s.flushes.erase f).get? f' ≠ some fl' := by
    intro f' fl' hf'
    obtain ⟨hne, hf'⟩ := get?_erase_some.mp hf'
    exact hne (h.one f' fl' f fl hf' hf)
  have hsettled : ∀ d, (RamCache.settle key written s.cache).dirty.get? key = some d →
      ∃ d', s.buffer key = some d' ∧ d = { d' with state := .writing } := by
    intro d hd
    rw [settle_dirty] at hd
    split at hd
    · obtain ⟨d', hd', rfl⟩ := map_eq_some_iff.mp hd
      exact ⟨d', hd', rfl⟩
    · cases hd
  exact {
    onlyAt := h.onlyAt.settle written
    one := fun f₁ fl₁ _ _ h₁ => absurd h₁ (hnone f₁ fl₁)
    has := fun f' fl' hf' => absurd hf' (hnone f' fl')
    busy := by
      intro d hd hstate
      obtain ⟨d', -, rfl⟩ := hsettled d hd
      cases hstate
    apart := by
      intro fs hfs
      rw [failure, settle_failed] at hfs
      have hb := h.apart fs hfs
      cases hd : (RamCache.settle key written s.cache).dirty.get? key with
      | none => exact hd
      | some d =>
        obtain ⟨d', hd', -⟩ := hsettled d hd
        rw [hb] at hd'
        cases hd'
    gone := by
      intro d hd hc
      obtain ⟨d', hd', rfl⟩ := hsettled d hd
      exact h.gone d' hd' hc
    cut := by
      intro d hd hc
      obtain ⟨d', hd', rfl⟩ := hsettled d hd
      exact h.cut d' hd' hc
    stopped := fun f' fl' hf' => absurd hf' (hnone f' fl')
    stored := fun f' fl' hf' => absurd hf' (hnone f' fl')
    old := h.old
    fresh := by
      intro d hd
      obtain ⟨d', hd', rfl⟩ := hsettled d hd
      exact h.fresh d' hd'
    all := by
      intro t ht
      rcases h.all t ht with hb | hl | hr | hdel | hfail
      · -- the buffer was under the key: the flush knows what became of it
        obtain ⟨d, hd, rfl⟩ := map_eq_some_iff.mp hb
        cases written with
        | landed =>
          rw [(h.has f fl hf d hd).1]
          exact .inr (.inl (h.stored f fl hf (.inr hphase)))
        | discarded =>
          have hc := h.stopped f fl hf (.inr hphase) d hd
          exact .inr (.inr (.inr (.inl (h.gone d hd hc))))
        | failed =>
          left
          rw [buffer, settle_dirty, show s.cache.dirty.get? key = some d from hd]
          rfl
      · exact .inr (.inl hl)
      · exact .inr (.inr (.inl hr))
      · exact .inr (.inr (.inr (.inl hdel)))
      · right; right; right; right
        rw [failure, settle_failed]
        exact hfail
    drive := by
      intro t ht hon
      obtain ⟨f', fl', hf', -, hlooks⟩ := h.drive t ht hon
      obtain rfl := h.one f' fl' f fl hf' hf
      rw [hf] at hf'
      cases hf'
      rcases hlooks with hlooks | hlooks
      · rw [hphase] at hlooks
        cases hlooks
      · rw [hphase] at hlooks
        cases hlooks }

theorem Inv.advance (h : Inv key s) {f : Nat} {fl : Flush} {answer : Answer} (hf : s.flushes.get? f = some fl)
    (hclear : s.Clear key (.next f answer)) : Inv key (s.advance key f fl answer) := by
  obtain ⟨hremove, hhalf⟩ := hclear fl hf
  have hquiet : ∀ {phase : FlushPhase}, ¬ looksAgain fl → phase = .written ∨ phase = .checked ∨
      phase = .settling .failed → Inv key (s.goTo f fl phase) := by
    intro phase hnot hphase
    apply h.goTo hf
    · rcases hphase with rfl | rfl | rfl <;> simp
    · rcases hphase with rfl | rfl | rfl <;> simp
    · exact fun _ hlooks => absurd hlooks hnot
  unfold Saves.advance
  cases hphase : fl.phase with
  | writing =>
    apply hquiet (by simp [looksAgain, hphase])
    split <;> simp
  | written =>
    dsimp only
    split
    · next hc =>
        apply h.goTo hf
        · exact fun _ => isCancelled_eq_true hc
        · simp
        · simp [looksAgain, hphase]
    · exact hquiet (by simp [looksAgain, hphase]) (by simp)
  | checked =>
    dsimp only
    have hfailed : Inv key (s.goTo f fl (.settling .failed)) :=
      hquiet (by simp [looksAgain, hphase]) (by simp)
    split
    · exact hfailed
    cases answer with
    | ok => exact h.store hf (.inl rfl)
    | refused => exact hfailed
    | halfway =>
      dsimp only
      split
      · exact hfailed
      · exact h.store hf (.inr ⟨rfl, h.not_cutShort hf (hhalf hphase rfl)⟩)
  | installed =>
    dsimp only
    have hlanded := h.stored f fl hf (.inl (.inl hphase))
    split
    · next hc =>
        apply h.goTo hf
        · exact fun _ => isCancelled_eq_true hc
        · exact fun _ => hlanded
        · simp
    · next hc =>
        apply h.goTo hf
        · simp
        · exact fun _ => hlanded
        · exact fun hcut _ => absurd hcut (h.not_cutShort hf (by simpa using hc))
  | removing =>
    dsimp only
    rw [if_pos (hremove hphase)]
    apply h.goOn hf (List.Subset.refl _)
    · exact fun _ => h.stopped f fl hf (.inl hphase)
    · simp
    · intro t _ hon
      cases hon
  | settling written => exact h.settle hf hphase

/-! #### The other sections -/

theorem Inv.accept (h : Inv key s) {budget : CacheBudget} {save : Save} {cache : Inner}
    (hclear : s.Clear key (.accept budget save))
    (hok : acceptDirty toLowercase budget s.now key save s.accepted s.cache = .ok cache) :
    Inv key { s with
      cache := cache
      accepted := s.accepted + 1
      replaced := s.heldTickets key ++ s.replaced } := by
  obtain ⟨hidle, hfailed, hdirty⟩ := acceptDirty_ok hok
  -- a flush under way would still have its buffer, and the save would have been refused
  have hnone : ∀ f fl, s.flushes.get? f ≠ some fl := by
    intro f fl hf
    obtain ⟨d, hd⟩ := isSome_iff_exists.mp (hclear f fl hf)
    exact hidle d hd (h.has f fl hf d hd).2
  have hbuffer : cache.dirty.get? key =
      some ⟨save.bytes, save.modified, .writing, save.name, save.overwrite, false, s.accepted⟩ := by
    rw [hdirty, get?_put_self]
  exact {
    onlyAt := h.onlyAt.of_put hdirty
    one := fun f fl _ _ hf => absurd hf (hnone f fl)
    has := fun f fl hf => absurd hf (hnone f fl)
    busy := by
      intro d hd hstate
      rw [buffer, hbuffer] at hd
      cases hd
      cases hstate
    apart := by
      intro fs hfs
      rw [failure, hfailed] at hfs
      cases hfs
    gone := by
      intro d hd hc
      rw [buffer, hbuffer] at hd
      cases hd
      cases hc
    cut := by
      intro d hd hcut
      rw [buffer, hbuffer] at hd
      cases hd
      exact absurd (h.old _ hcut) (Nat.lt_irrefl _)
    stopped := fun f fl hf => absurd hf (hnone f fl)
    stored := fun f fl hf => absurd hf (hnone f fl)
    old := fun t ht => Nat.lt_succ_of_lt (h.old t ht)
    fresh := by
      intro d hd
      rw [buffer, hbuffer] at hd
      cases hd
      exact Nat.lt_succ_self _
    all := by
      intro t ht
      rcases Nat.lt_succ_iff_lt_or_eq.mp ht with hlt | rfl
      · rcases h.all t hlt with hb | hl | hr | hdel | hfail
        · right; right; left
          apply mem_append_left
          simp [heldTickets, hb]
        · exact .inr (.inl hl)
        · exact .inr (.inr (.inl (mem_append_right _ hr)))
        · exact .inr (.inr (.inr (.inl hdel)))
        · right; right; left
          apply mem_append_left
          simp [heldTickets, hfail]
      · left
        rw [buffer, hbuffer]
        rfl
    drive := by
      intro t ht hon
      obtain ⟨f, fl, hf, -⟩ := h.drive t ht hon
      exact absurd hf (hnone f fl) }

theorem Inv.claim (h : Inv key s) {f : Nat} {d : DirtyFile} {cache : Inner}
    (hclaim : RamCache.claim key s.cache = .claimed d cache) :
    Inv key { s with
      cache := cache
      flushes := s.flushes.put f ⟨d.bytes, d.overwrite, .writing, d.ticket⟩ } := by
  obtain ⟨hd, hwriting, hfailed, hdirty⟩ := claim_claimed hclaim
  have hnone : ∀ f' fl, s.flushes.get? f' ≠ some fl := by
    intro f' fl hf'
    have hflushing := (h.has f' fl hf' d hd).2
    rw [hwriting] at hflushing
    cases hflushing
  have hbuffer : cache.dirty.get? key = some { d with state := .flushing } := by
    rw [hdirty, get?_put_self]
  have hflush : ∀ f' fl, (s.flushes.put f ⟨d.bytes, d.overwrite, .writing, d.ticket⟩).get? f' = some fl →
      f' = f ∧ fl = ⟨d.bytes, d.overwrite, .writing, d.ticket⟩ := by
    intro f' fl hf'
    rcases get?_put_some.mp hf' with ⟨heq, rfl⟩ | ⟨-, hf'⟩
    · exact ⟨heq, rfl⟩
    · exact absurd hf' (hnone f' fl)
  exact {
    onlyAt := h.onlyAt.of_put hdirty
    one := by
      intro f₁ fl₁ f₂ fl₂ h₁ h₂
      exact (hflush f₁ fl₁ h₁).1.trans (hflush f₂ fl₂ h₂).1.symm
    has := by
      intro f' fl hf' d' hd'
      obtain ⟨rfl, rfl⟩ := hflush f' fl hf'
      rw [buffer, hbuffer] at hd'
      cases hd'
      exact ⟨rfl, rfl⟩
    busy := fun _ _ _ => ⟨f, _, get?_put_self _ _ _⟩
    apart := by
      intro fs hfs
      rw [failure, hfailed] at hfs
      have hb := h.apart fs hfs
      rw [buffer, hd] at hb
      cases hb
    gone := by
      intro d' hd' hc
      rw [buffer, hbuffer] at hd'
      cases hd'
      exact h.gone d hd hc
    cut := by
      intro d' hd' hc
      rw [buffer, hbuffer] at hd'
      cases hd'
      exact h.cut d hd hc
    stopped := by
      intro f' fl hf' hphase
      obtain ⟨rfl, rfl⟩ := hflush f' fl hf'
      rcases hphase with hphase | hphase <;> cases hphase
    stored := by
      intro f' fl hf' hphase
      obtain ⟨rfl, rfl⟩ := hflush f' fl hf'
      rcases hphase with (hphase | hphase) | hphase <;> cases hphase
    old := h.old
    fresh := by
      intro d' hd'
      rw [buffer, hbuffer] at hd'
      cases hd'
      exact h.fresh d hd
    all := by
      intro t ht
      rcases h.all t ht with hb | hl | hr | hdel | hfail
      · left
        rw [buffer, hbuffer]
        rw [buffer, hd] at hb
        exact hb
      · exact .inr (.inl hl)
      · exact .inr (.inr (.inl hr))
      · exact .inr (.inr (.inr (.inl hdel)))
      · right; right; right; right
        rw [failure, hfailed]
        exact hfail
    drive := by
      intro t ht hon
      obtain ⟨f', fl, hf', -⟩ := h.drive t ht hon
      exact absurd hf' (hnone f' fl) }

theorem Inv.remove (h : Inv key s) (hclear : s.Clear key .remove) : Inv key (s.step toLowercase key .remove) := by
  have hbuffer : ∀ d, (removeDirty key s.cache).dirty.get? key = some d →
      ∃ d', s.buffer key = some d' ∧ d'.state = .flushing ∧ d = { d' with cancelled := true } := by
    intro d hd
    rw [removeDirty_dirty, map_eq_some_iff] at hd
    obtain ⟨d', hd', rfl⟩ := hd
    rw [filter_eq_some_iff] at hd'
    exact ⟨d', hd'.1, by simpa using hd'.2, rfl⟩
  have hdeleted : ∀ t, (s.buffer key).map (·.ticket) = some t ∨ (s.failure key).map (·.ticket) = some t →
      t ∈ s.heldTickets key ++ s.deleted := by
    intro t ht
    apply mem_append_left
    rcases ht with ht | ht
    · simp [heldTickets, ht]
    · simp [heldTickets, ht]
  have hcut : ∀ t, t ∈ (s.step toLowercase key .remove).cutShort →
      t ∈ s.cutShort ∨ ∃ d, s.buffer key = some d ∧ d.state = .flushing ∧ d.ticket = t := by
    intro t ht
    simp only [step] at ht
    split at ht
    · next hflushing =>
        rcases mem_append.mp ht with hnew | hold
        · right
          cases hd : s.buffer key with
          | none =>
            rw [hd] at hflushing
            cases hflushing
          | some d =>
            rw [hd] at hnew hflushing
            have hticket : t = d.ticket := by simpa using hnew
            exact ⟨d, rfl, by simpa using hflushing, hticket.symm⟩
        · exact .inl hold
    · exact .inl ht
  exact {
    onlyAt := h.onlyAt.removeDirty
    one := h.one
    has := by
      intro f fl hf d hd
      obtain ⟨d', hd', -, rfl⟩ := hbuffer d hd
      exact h.has f fl hf d' hd'
    busy := by
      intro d hd _
      obtain ⟨d', hd', hstate, -⟩ := hbuffer d hd
      exact h.busy d' hd' hstate
    apart := by
      intro fs hfs
      have hnone := removeDirty_failed key s.cache
      rw [failure, step, hnone] at hfs
      cases hfs
    gone := by
      intro d hd _
      obtain ⟨d', hd', -, rfl⟩ := hbuffer d hd
      apply hdeleted
      left
      rw [hd']
      rfl
    cut := by
      intro d hd _
      obtain ⟨d', -, -, rfl⟩ := hbuffer d hd
      rfl
    stopped := by
      intro f fl _ _ d hd
      obtain ⟨d', -, -, rfl⟩ := hbuffer d hd
      rfl
    stored := h.stored
    old := by
      intro t ht
      rcases hcut t ht with hold | ⟨d, hd, -, rfl⟩
      · exact h.old t hold
      · exact h.fresh d hd
    fresh := by
      intro d hd
      obtain ⟨d', hd', -, rfl⟩ := hbuffer d hd
      exact h.fresh d' hd'
    all := by
      intro t ht
      rcases h.all t ht with hb | hl | hr | hdel | hfail
      · exact .inr (.inr (.inr (.inl (hdeleted t (.inl hb)))))
      · exact .inr (.inl hl)
      · exact .inr (.inr (.inl hr))
      · exact .inr (.inr (.inr (.inl (mem_append_right _ hdel))))
      · exact .inr (.inr (.inr (.inl (hdeleted t (.inr hfail)))))
    drive := by
      intro t ht hon
      rcases hcut t ht with hold | ⟨d, hd, hstate, rfl⟩
      · exact h.drive t hold hon
      · obtain ⟨f, fl, hf⟩ := h.busy d hd hstate
        have hticket := (h.has f fl hf d hd).1
        refine ⟨f, fl, hf, hticket.symm, hclear f fl hf ?_⟩
        rw [← hticket]
        exact hon }

/-- A buffer that cannot reach the drive is recorded, or had been deleted. -/
theorem Inv.failed (h : Inv key s) {cache : Inner} (hdirty : cache.dirty = (failLocked s.now key s.cache).dirty)
    (hfailed : cache.failed = (failLocked s.now key s.cache).failed) : Inv key { s with cache := cache } := by
  have hnone : cache.dirty.get? key = none := by
    rw [hdirty]
    exact failLocked_dirty s.now key s.cache
  have hbuffer : ∀ d, cache.dirty.get? key ≠ some d := by
    intro d hd
    rw [hnone] at hd
    cases hd
  have hfailure := failLocked_failed s.now key s.cache
  exact {
    onlyAt := by
      intro k d hd
      rw [hdirty] at hd
      exact h.onlyAt.failLocked s.now k d hd
    one := h.one
    has := fun _ _ _ d hd => absurd hd (hbuffer d)
    busy := fun d hd => absurd hd (hbuffer d)
    apart := fun _ _ => hnone
    gone := fun d hd => absurd hd (hbuffer d)
    cut := fun d hd => absurd hd (hbuffer d)
    stopped := fun _ _ _ _ d hd => absurd hd (hbuffer d)
    stored := h.stored
    old := h.old
    fresh := fun d hd => absurd hd (hbuffer d)
    all := by
      intro t ht
      have hlost : ∀ d, s.buffer key = some d → d.ticket = t → t ∈ s.deleted ∨
          (cache.failed.get? key).map (·.ticket) = some t := by
        intro d hd hticket
        rw [show s.cache.dirty.get? key = some d from hd] at hfailure
        cases hc : d.cancelled with
        | true => exact .inl (hticket ▸ h.gone d hd hc)
        | false =>
          right
          rw [hfailed, hfailure, ← hticket]
          simp [hc]
      rcases h.all t ht with hb | hl | hr | hdel | hfail
      · obtain ⟨d, hd, hticket⟩ := map_eq_some_iff.mp hb
        rcases hlost d hd hticket with hdel | hrec
        · exact .inr (.inr (.inr (.inl hdel)))
        · exact .inr (.inr (.inr (.inr hrec)))
      · exact .inr (.inl hl)
      · exact .inr (.inr (.inl hr))
      · exact .inr (.inr (.inr (.inl hdel)))
      · right; right; right; right
        obtain ⟨fs, hfs, -⟩ := map_eq_some_iff.mp hfail
        have hempty : s.cache.dirty.get? key = none := h.apart fs hfs
        rw [hempty] at hfailure
        change (cache.failed.get? key).map (·.ticket) = some t
        rw [hfailed, hfailure]
        exact hfail
    drive := h.drive }

/-! ### Runs -/

theorem Inv.step (h : Inv key s) {e : SaveEvent} (hclear : s.Clear key e) : Inv key (s.step toLowercase key e) := by
  cases e with
  | accept budget save =>
    unfold Saves.step
    dsimp only
    split
    · exact h
    · next cache hok => exact h.accept hclear hok
  | claim f =>
    unfold Saves.step
    dsimp only
    split
    · next d cache _ hclaim => exact h.claim hclaim
    · exact h
  | next f answer =>
    unfold Saves.step
    dsimp only
    split
    · next fl hf => exact h.advance hf hclear
    · exact h
  | remove => exact h.remove hclear
  | fail => exact h.failed rfl rfl
  | drop =>
    obtain ⟨hdirty, hfailed⟩ := dropDrive_of_onlyAt h.onlyAt s.now
    exact h.failed hdirty hfailed
  | beginClose | endClose => exact { h with }
  | outside bytes =>
    refine { h with drive := ?_ }
    intro t _ hon
    cases bytes <;> cases hon
  | tick n => exact { h with }

/-- Every moment of the run is one at which nothing goes wrong. -/
def ClearRun (toLowercase : Files.Text → Files.Text) (key : Key) (s : Saves) (events : List SaveEvent) : Prop :=
  ∀ before e, before ++ [e] <+: events → (s.run toLowercase key before).Clear key e

theorem run_concat (toLowercase : Files.Text → Files.Text) (key : Key) (s : Saves) (events : List SaveEvent)
    (e : SaveEvent) : s.run toLowercase key (events ++ [e]) = (s.run toLowercase key events).step toLowercase key e := by
  rw [run, foldl_append]
  rfl

theorem Inv.run (h : Inv key s) {events : List SaveEvent} (hclear : s.ClearRun toLowercase key events) :
    Inv key (s.run toLowercase key events) := by
  induction events using reverseRecOn with
  | nil => exact h
  | append_singleton events e ih =>
    rw [run_concat]
    apply Inv.step
    · exact ih fun before e' hpre => hclear before e' (hpre.trans (prefix_append _ _))
    · exact hclear events e (prefix_refl _)

/-- **No accepted save vanishes**, and none that was deleted under a flush stays on the drive after it, in every run
of clear moments. -/
theorem saves_accounted (toLowercase : Files.Text → Files.Text) (key : Key) (bytes : Option (List UInt8)) (now : Nat)
    (events : List SaveEvent) (hclear : (start bytes now).ClearRun toLowercase key events) :
    ((start bytes now).run toLowercase key events).Safe key :=
  ((inv_start key bytes now).run hclear).safe

/-! #### Runs that can be computed -/

instance : DecidablePred looksAgain := fun fl => inferInstanceAs (Decidable (fl.phase = .installed ∨ fl.phase = .removing))

theorem forall_rows {P : Nat → Flush → Prop} :
    (∀ r ∈ s.flushes.rows, P r.1 r.2) ↔ ∀ f fl, s.flushes.get? f = some fl → P f fl := by
  constructor
  · intro h f fl hf
    exact h (f, fl) (mem_rows.mpr hf)
  · intro h r hr
    exact h r.1 r.2 (mem_rows.mp hr)

instance (key : Key) (s : Saves) : (e : SaveEvent) → Decidable (s.Clear key e)
  | .accept _ _ => decidable_of_iff (∀ r ∈ s.flushes.rows, (s.buffer key).isSome)
      (forall_rows (P := fun _ _ => (s.buffer key).isSome))
  | .remove => decidable_of_iff (∀ r ∈ s.flushes.rows, s.onDrive = some r.2.ticket → looksAgain r.2)
      (forall_rows (P := fun _ fl => s.onDrive = some fl.ticket → looksAgain fl))
  | .next f answer => decidable_of_iff
      (∀ fl ∈ (s.flushes.get? f).toList, (fl.phase = .removing → answer = .ok) ∧
        (fl.phase = .checked → answer = .halfway → isCancelled key s.cache = false))
      (by simp only [Option.mem_toList, Clear])
  | .claim _ | .fail | .drop | .beginClose | .endClose | .outside _ | .tick _ => .isTrue trivial

theorem ClearRun.cons {e : SaveEvent} {events : List SaveEvent} (he : s.Clear key e)
    (hrest : (s.step toLowercase key e).ClearRun toLowercase key events) :
    s.ClearRun toLowercase key (e :: events) := by
  intro before e' hpre
  cases before with
  | nil =>
    obtain ⟨rfl, -⟩ := cons_prefix_cons.mp hpre
    exact he
  | cons e₀ before =>
    obtain ⟨rfl, hpre'⟩ := cons_prefix_cons.mp hpre
    exact hrest before e' hpre'

/-- The check of a run, moment by moment. -/
def clearRun (toLowercase : Files.Text → Files.Text) (key : Key) : Saves → List SaveEvent → Bool
  | _, [] => true
  | s, e :: events => decide (s.Clear key e) && clearRun toLowercase key (s.step toLowercase key e) events

theorem clearRun_sound {events : List SaveEvent} (h : clearRun toLowercase key s events = true) :
    s.ClearRun toLowercase key events := by
  induction events generalizing s with
  | nil =>
    intro before e hpre
    have hlen := hpre.length_le
    simp at hlen
  | cons e events ih =>
    rw [clearRun, Bool.and_eq_true, decide_eq_true_eq] at h
    exact .cons h.1 (ih h.2)

def usbFile : Key := ("usb", ["a".toList])

def smallSave (byte : UInt8) : SaveEvent := .accept ⟨100, 100⟩ ⟨"a".toList, [byte], true, 5⟩

/-- A save deleted under its flush, and a second one that lands. -/
def twoSaves : List SaveEvent :=
  [smallSave 1, .claim 0, .next 0 .ok, .remove, .next 0 .ok, .next 0 .ok,
    smallSave 2, .claim 1, .next 1 .ok, .next 1 .ok, .next 1 .ok, .next 1 .ok, .next 1 .ok]

theorem two_saves_accounted :
    (start none 0).ClearRun id usbFile twoSaves ∧
      ((start none 0).run id usbFile twoSaves).landed = [1] ∧
      ((start none 0).run id usbFile twoSaves).cutShort = [0] ∧
      ((start none 0).run id usbFile twoSaves).Safe usbFile := by
  have hclear : (start none 0).ClearRun id usbFile twoSaves := clearRun_sound (by decide +kernel)
  exact ⟨hclear, by decide +kernel, by decide +kernel, saves_accounted id usbFile none 0 twoSaves hclear⟩

/-- A save fails while a flush still writes it, and a second one is accepted before the flush ends: the flush settles
the second save as its own. -/
def confusedSaves : List SaveEvent :=
  [smallSave 1, .claim 0, .next 0 .ok, .fail, smallSave 2, .next 0 .ok, .next 0 .ok, .next 0 .ok, .next 0 .ok]

/-- A save deleted after the flush has looked for the last time. -/
def lateDelete : List SaveEvent :=
  [smallSave 1, .claim 0, .next 0 .ok, .next 0 .ok, .next 0 .ok, .next 0 .ok, .remove, .next 0 .ok]

/-- The second of the confused saves is nowhere, and the one deleted late stays on the drive. -/
theorem saves_lost_and_left :
    ¬ ((start none 0).run id usbFile confusedSaves).Safe usbFile ∧
      ¬ ((start none 0).run id usbFile lateDelete).Safe usbFile := by
  constructor
  · intro h
    have hlost := h.1 1 (by decide +kernel)
    revert hlost
    unfold Accounted
    decide +kernel
  · intro h
    apply h.2 0 (by decide +kernel)
    · rw [← forall_rows]
      decide +kernel
    · decide +kernel

end Saves

end LibreServ.RamCache
