import Mathlib

/-! Programs that may stop before their end. A program keeps the state it stopped in, so that its rules speak of two
things at once: what holds when it has ended, and what holds wherever it stops. -/

namespace Stoppable

variable {ε σ α β : Type} {J P : σ → Prop} {m : EStateM ε σ α} {Q : α → σ → Prop}

/-- From `P` the program ends in `Q`; where it stops before, `J` holds. -/
def Holds (J P : σ → Prop) (m : EStateM ε σ α) (Q : α → σ → Prop) : Prop :=
  ∀ s, P s →
    match m s with
    | .ok a s' => Q a s'
    | .error _ s' => J s'

theorem Holds.of_ok (h : Holds J P m Q) {s s' : σ} {a : α} (hs : P s) (hrun : m s = .ok a s') : Q a s' := by
  have hend := h s hs
  rw [hrun] at hend
  exact hend

theorem Holds.of_error (h : Holds J P m Q) {s s' : σ} {err : ε} (hs : P s) (hrun : m s = .error err s') : J s' := by
  have hstop := h s hs
  rw [hrun] at hstop
  exact hstop

theorem Holds.pure {a : α} (h : ∀ s, P s → Q a s) : Holds J P (Pure.pure a : EStateM ε σ α) Q := h

theorem Holds.throw {err : ε} (h : ∀ s, P s → J s) : Holds J P (MonadExcept.throw err : EStateM ε σ α) Q := h

theorem Holds.get {Q : σ → σ → Prop} (h : ∀ s, P s → Q s s) : Holds J P (MonadState.get : EStateM ε σ σ) Q := h

theorem Holds.modify {f : σ → σ} {Q : PUnit → σ → Prop} (h : ∀ s, P s → Q ⟨⟩ (f s)) :
    Holds J P (modify f : EStateM ε σ PUnit) Q := h

theorem Holds.bind {R : α → σ → Prop} {f : α → EStateM ε σ β} {Q : β → σ → Prop} (hm : Holds J P m R)
    (hf : ∀ a, Holds J (R a) (f a) Q) : Holds J P (m >>= f) Q := by
  intro s hs
  show match EStateM.bind m f s with
    | .ok b s' => Q b s'
    | .error _ s' => J s'
  rw [EStateM.bind]
  cases hrun : m s with
  | ok a s' => exact hf a s' (hm.of_ok hs hrun)
  | error err s' => exact hm.of_error hs hrun

/-- The state is read first: the rest may speak of what was read. -/
theorem Holds.get_bind {f : σ → EStateM ε σ β} {Q : β → σ → Prop}
    (h : ∀ s, P s → Holds J (fun s' => s' = s) (f s) Q) : Holds J P (MonadState.get >>= f) Q := by
  apply Holds.bind (R := fun a s => P s ∧ s = a) (Holds.get fun s hs => ⟨hs, rfl⟩)
  intro a s hs
  exact h a (hs.2 ▸ hs.1) s hs.2

theorem Holds.before {P' : σ → Prop} (h : Holds J P m Q) (hP : ∀ s, P' s → P s) : Holds J P' m Q :=
  fun s hs => h s (hP s hs)

theorem Holds.after {Q' : α → σ → Prop} (h : Holds J P m Q) (hQ : ∀ a s, Q a s → Q' a s) : Holds J P m Q' := by
  intro s hs
  cases hrun : m s with
  | ok a s' => exact hQ a s' (h.of_ok hs hrun)
  | error err s' => exact h.of_error hs hrun

/-- The state at the beginning gets a name. -/
theorem Holds.from_each (h : ∀ s, P s → Holds J (fun s' => s' = s) m Q) : Holds J P m Q := fun s hs => h s hs s rfl

/-- What does not depend on the state is assumed outside. -/
theorem Holds.fact {p : Prop} (h : p → Holds J P m Q) : Holds J (fun s => p ∧ P s) m Q :=
  fun s hs => h hs.1 s hs.2

theorem Holds.ite {c : Prop} [Decidable c] {n : EStateM ε σ α} (ht : c → Holds J P m Q) (hf : ¬ c → Holds J P n Q) :
    Holds J P (if c then m else n) Q := by
  split
  · rename_i hc
    exact ht hc
  · rename_i hc
    exact hf hc

/-- A loop that keeps `P`, and finds `R` of each element. -/
theorem Holds.forM {γ : Type} {f : γ → EStateM ε σ PUnit} {R : γ → Prop} (xs : List γ)
    (h : ∀ x ∈ xs, Holds J P (f x) (fun _ s => R x ∧ P s)) :
    Holds J P (xs.forM f) (fun _ s => (∀ x ∈ xs, R x) ∧ P s) := by
  induction xs with
  | nil => exact Holds.pure fun s hs => ⟨nofun, hs⟩
  | cons x xs ih =>
    apply Holds.bind (h x List.mem_cons_self)
    intro _
    apply Holds.fact
    intro hx
    apply Holds.after (ih fun y hy => h y (List.mem_cons_of_mem _ hy))
    intro _ s hs
    exact ⟨List.forall_mem_cons.mpr ⟨hx, hs.1⟩, hs.2⟩

end Stoppable
