import Mathlib

/-! Runs of a system in which not every action is possible in every state. -/

namespace Runs

open Option

variable {σ α : Type} {step : σ → α → Option σ} {allowed : σ → α → Prop} {inv : σ → Prop} {acts : List α} {s t : σ}

/-- The state after these actions, if each of them was possible when its turn came. -/
def run (step : σ → α → Option σ) : List α → σ → Option σ
  | [], s => some s
  | a :: rest, s => (step s a).bind (run step rest)

/-- Every action of the run is allowed in the state in which it is taken. -/
def Meets (step : σ → α → Option σ) (allowed : σ → α → Prop) : List α → σ → Prop
  | [], _ => True
  | a :: rest, s => allowed s a ∧ ∀ t ∈ step s a, Meets step allowed rest t

instance [∀ s a, Decidable (allowed s a)] : ∀ (acts : List α) (s : σ), Decidable (Meets step allowed acts s)
  | [], _ => .isTrue trivial
  | a :: rest, s =>
    have : ∀ t, Decidable (Meets step allowed rest t) := fun t => instDecidableMeets rest t
    inferInstanceAs (Decidable (allowed s a ∧ ∀ t ∈ step s a, Meets step allowed rest t))

/-- What every allowed action keeps holds after a run of allowed actions. -/
theorem keeps (hstep : ∀ s a t, inv s → allowed s a → step s a = some t → inv t) (hs : inv s)
    (hm : Meets step allowed acts s) (hr : run step acts s = some t) : inv t := by
  induction acts generalizing s with
  | nil =>
    cases hr
    exact hs
  | cons a rest ih =>
    obtain ⟨mid, hmid, hrest⟩ := bind_eq_some_iff.mp hr
    exact ih (hstep s a mid hs hm.1 hmid) (hm.2 mid hmid) hrest

/-- Where the end of a run is good, and good states come of good ones by allowed actions only, every action of the run
was allowed. -/
theorem meets_of_good {good : σ → Prop} (hkeep : ∀ s a t, inv s → step s a = some t → inv t)
    (hback : ∀ s a t, inv s → step s a = some t → good t → good s ∧ allowed s a) (hs : inv s)
    (hr : run step acts s = some t) (ht : good t) : good s ∧ Meets step allowed acts s := by
  induction acts generalizing s with
  | nil =>
    cases hr
    exact ⟨ht, trivial⟩
  | cons a rest ih =>
    obtain ⟨mid, hmid, hrest⟩ := bind_eq_some_iff.mp hr
    obtain ⟨hgood, hmeets⟩ := ih (hkeep s a mid hs hmid) hrest
    obtain ⟨hgood', hallowed⟩ := hback s a mid hs hmid hgood
    refine ⟨hgood', hallowed, fun u hu => ?_⟩
    obtain rfl : mid = u := some.inj (hmid.symm.trans hu)
    exact hmeets

/-- What every action keeps holds after a run. -/
theorem always (hstep : ∀ s a t, inv s → step s a = some t → inv t) (hs : inv s) (hr : run step acts s = some t) : inv t := by
  induction acts generalizing s with
  | nil =>
    cases hr
    exact hs
  | cons a rest ih =>
    obtain ⟨mid, hmid, hrest⟩ := bind_eq_some_iff.mp hr
    exact ih (hstep s a mid hs hmid) hrest

end Runs
