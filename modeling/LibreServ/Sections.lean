import Mathlib

/-! Programs as sequences of atomic sections, for code that takes a lock, does a little work and lets
the lock go before it calls anything slow. A section reads an input chosen by the outside world (the
outcome of a network call, random bytes), changes the shared state in one step and says how the
program goes on. Every program is a well-founded tree, so every program ends.

Two ways of running programs share this syntax. `Holds` is for one program alone that may be cut at
any section boundary: a postcondition together with a condition that must hold wherever the program
can be cut. The workers of `SectionsPool` run any number of programs in any interleaving. -/

namespace Sections

/-- A program with sections labelled in `Λ`, inputs `ι`, shared state `σ`, errors `ε`, results `α`. -/
inductive Prog (Λ ι σ ε α : Type) where
  | done (value : α)
  | fail (error : ε)
  | sect (label : Λ) (next : ι → σ → σ) (rest : ι → σ → Prog Λ ι σ ε α)

namespace Prog

variable {Λ ι σ ε α β γ : Type}

/-- Run `p`, then `f` on its result; an error skips `f`. -/
def andThen : Prog Λ ι σ ε α → (α → Prog Λ ι σ ε β) → Prog Λ ι σ ε β
  | done a, f => f a
  | fail e, _ => fail e
  | sect l n r, f => sect l n fun i s => (r i s).andThen f

instance : Monad (Prog Λ ι σ ε) where
  pure := done
  bind := andThen

@[simp] theorem pure_eq (a : α) : (pure a : Prog Λ ι σ ε α) = done a := rfl

@[simp] theorem done_bind (a : α) (f : α → Prog Λ ι σ ε β) : (done a >>= f) = f a := rfl

@[simp] theorem sect_bind (l : Λ) (n : ι → σ → σ) (r : ι → σ → Prog Λ ι σ ε α)
    (f : α → Prog Λ ι σ ε β) : (sect l n r >>= f) = sect l n fun i s => r i s >>= f := rfl

/-- Run `p` and hand its outcome on as a value, so that the caller decides about an error. -/
def attempt {ε' : Type} : Prog Λ ι σ ε α → Prog Λ ι σ ε' (Except ε α)
  | done a => done (.ok a)
  | fail e => done (.error e)
  | sect l n r => sect l n fun i s => (r i s).attempt

/-- A value that is already an outcome. -/
def ofExcept : Except ε α → Prog Λ ι σ ε α
  | .ok a => done a
  | .error e => fail e

/-- One section that may fail. -/
def tryAct (l : Λ) (f : ι → σ → Except ε α × σ) : Prog Λ ι σ ε α :=
  sect l (fun i s => (f i s).2) fun i s => ofExcept (f i s).1

/-- One section that changes the state and returns a value. -/
def act (l : Λ) (f : ι → σ → α × σ) : Prog Λ ι σ ε α :=
  sect l (fun i s => (f i s).2) fun i s => done (f i s).1

/-- One section that only reads. -/
def look (l : Λ) (f : ι → σ → α) : Prog Λ ι σ ε α :=
  sect l (fun _ s => s) fun i s => done (f i s)

/-- The program has no section left. -/
def finished : Prog Λ ι σ ε α → Bool
  | sect .. => false
  | _ => true

/-! ### One program alone -/

/-- Run alone from `s`, with some inputs, the program ends in `t` with outcome `r`. -/
def Runs : Prog Λ ι σ ε α → σ → Except ε α → σ → Prop
  | done a, s, r, t => r = .ok a ∧ t = s
  | fail e, s, r, t => r = .error e ∧ t = s
  | sect _ n f, s, r, t => ∃ i, (f i s).Runs (n i s) r t

variable {s t : σ} {f : α → Prog Λ ι σ ε β}

theorem runs_bind_ok {p : Prog Λ ι σ ε α} {b : β} :
    (p >>= f).Runs s (.ok b) t ↔ ∃ a u, p.Runs s (.ok a) u ∧ (f a).Runs u (.ok b) t := by
  induction p generalizing s with
  | done a =>
    constructor
    · exact fun h => ⟨a, s, ⟨rfl, rfl⟩, h⟩
    · rintro ⟨a', u, ⟨ha, rfl⟩, h⟩
      cases ha
      exact h
  | fail e =>
    constructor
    · rintro ⟨he, -⟩
      cases he
    · rintro ⟨a, u, ⟨ha, -⟩, -⟩
      cases ha
  | sect l n r ih =>
    simp only [sect_bind, Runs, ih]
    constructor
    · rintro ⟨i, a, u, h, h'⟩
      exact ⟨a, u, ⟨i, h⟩, h'⟩
    · rintro ⟨a, u, ⟨i, h⟩, h'⟩
      exact ⟨i, a, u, h, h'⟩

variable {r x : Except ε α} {l : Λ}

theorem runs_ofExcept :
    (ofExcept x : Prog Λ ι σ ε α).Runs s r t ↔ r = x ∧ t = s := by
  cases x <;> exact Iff.rfl

theorem runs_tryAct {f : ι → σ → Except ε α × σ} :
    (tryAct l f).Runs s r t ↔ ∃ i, f i s = (r, t) := by
  simp only [tryAct, Runs, runs_ofExcept, Prod.ext_iff, eq_comm]

theorem runs_act {f : ι → σ → α × σ} :
    (act l f : Prog Λ ι σ ε α).Runs s r t ↔ ∃ i, r = .ok (f i s).1 ∧ t = (f i s).2 := Iff.rfl

theorem runs_look {f : ι → σ → α} : (look l f : Prog Λ ι σ ε α).Runs s r t ↔ ∃ i, r = .ok (f i s) ∧ t = s := Iff.rfl

theorem runs_attempt {ε' : Type} {p : Prog Λ ι σ ε α} :
    (p.attempt : Prog Λ ι σ ε' (Except ε α)).Runs s (.ok r) t ↔ p.Runs s r t := by
  induction p generalizing s with
  | done a | fail e => exact and_congr_left fun _ => ⟨Except.ok.inj, congrArg Except.ok⟩
  | sect l n f ih => exact exists_congr fun i => ih i s

/-- The run in which every section is given the same input. -/
def under (i : ι) : Prog Λ ι σ ε α → σ → Except ε α × σ
  | done a, s => (.ok a, s)
  | fail e, s => (.error e, s)
  | sect _ n f, s => (f i s).under i (n i s)

theorem runs_under (i : ι) (p : Prog Λ ι σ ε α) (s : σ) : p.Runs s (p.under i s).1 (p.under i s).2 := by
  induction p generalizing s with
  | done a | fail e => exact ⟨rfl, rfl⟩
  | sect l n f ih => exact ⟨i, ih i s (n i s)⟩

section Alone

variable (env : Λ → ι → σ → Prop) (cut : Λ → σ → Prop)

/-- Started in `s`, with inputs that meet `env`, the program ends in `post`, and `cut` holds in every
state in which a section of it is about to run. -/
def Holds : Prog Λ ι σ ε α → σ → (Except ε α → σ → Prop) → Prop
  | done a, s, post => post (.ok a) s
  | fail e, s, post => post (.error e) s
  | sect l n r, s, post => cut l s ∧ ∀ i, env l i s → (r i s).Holds (n i s) post

variable {env cut}

variable {p : Prog Λ ι σ ε α} {s : σ}

theorem Holds.mono {post post' : Except ε α → σ → Prop}
    (h : p.Holds env cut s post) (hpost : ∀ r t, post r t → post' r t) :
    p.Holds env cut s post' := by
  induction p generalizing s with
  | done a | fail e => exact hpost _ _ h
  | sect l n r ih => exact ⟨h.1, fun i hi => ih i s (h.2 i hi)⟩

/-- What the program ends in, wherever it may be cut, adds to what it ends in. -/
theorem Holds.with_post {post post' : Except ε α → σ → Prop}
    (h : p.Holds env cut s post) (h' : p.Holds env (fun _ _ => True) s post') :
    p.Holds env cut s fun r t => post r t ∧ post' r t := by
  induction p generalizing s with
  | done a | fail e => exact ⟨h, h'⟩
  | sect l n r ih => exact ⟨h.1, fun i hi => ih i s (h.2 i hi) (h'.2 i hi)⟩

theorem holds_bind
    {post : Except ε β → σ → Prop} :
    (p >>= f).Holds env cut s post ↔ p.Holds env cut s fun r t =>
        match r with
        | .ok a => (f a).Holds env cut t post
        | .error e => post (.error e) t := by
  induction p generalizing s with
  | done a | fail e => exact Iff.rfl
  | sect l n r ih =>
    exact and_congr_right fun _ => forall_congr' fun i => imp_congr_right fun _ => ih i s

/-- The rule for `>>=`: the first part ends in `mid`, and `f` goes on from there. -/
theorem Holds.bind (mid : α → σ → Prop) {p : Prog Λ ι σ ε α} {s : σ} {post : Except ε β → σ → Prop}
    (h : p.Holds env cut s fun r t =>
      match r with
      | .ok a => mid a t
      | .error e => post (.error e) t)
    (hf : ∀ a t, mid a t → (f a).Holds env cut t post) : (p >>= f).Holds env cut s post := by
  refine holds_bind.mpr (h.mono ?_)
  rintro (e | a) t ht
  · exact ht
  · exact hf a t ht

theorem holds_attempt {ε' : Type} {post : Except ε' (Except ε α) → σ → Prop} :
    (p.attempt : Prog Λ ι σ ε' (Except ε α)).Holds env cut s post ↔
      p.Holds env cut s fun r t => post (.ok r) t := by
  induction p generalizing s with
  | done a | fail e => exact Iff.rfl
  | sect l n r ih =>
    exact and_congr_right fun _ => forall_congr' fun i => imp_congr_right fun _ => ih i s

variable {post : Except ε α → σ → Prop}

theorem holds_ofExcept :
    (ofExcept x : Prog Λ ι σ ε α).Holds env cut s post ↔ post x s := by
  cases x <;> exact Iff.rfl

theorem holds_tryAct {f : ι → σ → Except ε α × σ} : (tryAct l f).Holds env cut s post ↔
      cut l s ∧ ∀ i, env l i s → post (f i s).1 (f i s).2 :=
  and_congr_right fun _ => forall_congr' fun _ => imp_congr_right fun _ => holds_ofExcept

theorem holds_act {f : ι → σ → α × σ} : (act l f : Prog Λ ι σ ε α).Holds env cut s post ↔
      cut l s ∧ ∀ i, env l i s → post (.ok (f i s).1) (f i s).2 := Iff.rfl

theorem holds_look {f : ι → σ → α} : (look l f : Prog Λ ι σ ε α).Holds env cut s post ↔
      cut l s ∧ ∀ i, env l i s → post (.ok (f i s)) s := Iff.rfl

end Alone

/-! ### The sections a run goes through -/

/-- Run alone from `s`, with inputs that meet `env`, the program goes through sections labelled `ls`, in
this order, and ends in `t` with outcome `r`. -/
def Traced (env : Λ → ι → σ → Prop) : Prog Λ ι σ ε α → σ → List Λ → Except ε α → σ → Prop
  | done a, s, ls, r, t => ls = [] ∧ r = .ok a ∧ t = s
  | fail e, s, ls, r, t => ls = [] ∧ r = .error e ∧ t = s
  | sect l n f, s, ls, r, t => ∃ i ls', env l i s ∧ ls = l :: ls' ∧ (f i s).Traced env (n i s) ls' r t

section Traced

variable {env : Λ → ι → σ → Prop}

variable {ls : List Λ} {p : Prog Λ ι σ ε α} {s t : σ}

/-- A trace of a sequence: the first part fails, or the second goes on where it ended. -/
theorem traced_bind
    {r : Except ε β} (h : (p >>= f).Traced env s ls r t) :
    (∃ e, p.Traced env s ls (.error e) t ∧ r = .error e) ∨
      ∃ a u ls₁ ls₂, p.Traced env s ls₁ (.ok a) u ∧ (f a).Traced env u ls₂ r t ∧ ls = ls₁ ++ ls₂ := by
  induction p generalizing s ls with
  | done a => exact .inr ⟨a, s, [], ls, ⟨rfl, rfl, rfl⟩, h, rfl⟩
  | fail e =>
    obtain ⟨hls, hr, ht⟩ := h
    exact .inl ⟨e, ⟨hls, rfl, ht⟩, hr⟩
  | sect l n g ih =>
    obtain ⟨i, ls', hi, rfl, h⟩ := h
    rcases ih i s h with ⟨e, he, hr⟩ | ⟨a, u, ls₁, ls₂, h₁, h₂, rfl⟩
    · exact .inl ⟨e, ⟨i, ls', hi, rfl, he⟩, hr⟩
    · exact .inr ⟨a, u, l :: ls₁, ls₂, ⟨i, ls₁, hi, rfl, h₁⟩, h₂, rfl⟩

variable {r : Except ε α}

theorem Holds.of_traced {cut : Λ → σ → Prop} {post : Except ε α → σ → Prop} (h : p.Holds env cut s post)
    (hr : p.Traced env s ls r t) : post r t := by
  induction p generalizing s ls with
  | done a | fail e =>
    obtain ⟨-, rfl, rfl⟩ := hr
    exact h
  | sect l n f ih =>
    obtain ⟨i, ls', hi, -, hr⟩ := hr
    exact ih i s (h.2 i hi) hr

theorem Traced.bind_error {e : ε}
    (h : p.Traced env s ls (.error e) t) : (p >>= f).Traced env s ls (.error e) t := by
  induction p generalizing s ls with
  | done b => exact absurd h.2.1 nofun
  | fail e' =>
    obtain ⟨hls, he, ht⟩ := h
    exact ⟨hls, congrArg Except.error (Except.error.inj he), ht⟩
  | sect l n g ih =>
    obtain ⟨i, ls', hi, hls, h⟩ := h
    exact ⟨i, ls', hi, hls, ih i s h⟩

theorem traced_ofExcept :
    (ofExcept x : Prog Λ ι σ ε α).Traced env s ls r t ↔ ls = [] ∧ r = x ∧ t = s := by
  cases x <;> exact Iff.rfl

theorem traced_tryAct {f : ι → σ → Except ε α × σ} : (tryAct l f).Traced env s ls r t ↔
      ∃ i, env l i s ∧ ls = [l] ∧ r = (f i s).1 ∧ t = (f i s).2 := by
  simp only [tryAct, Traced, traced_ofExcept]
  constructor
  · rintro ⟨i, ls', hi, rfl, rfl, hr, ht⟩
    exact ⟨i, hi, rfl, hr, ht⟩
  · rintro ⟨i, hi, rfl, hr, ht⟩
    exact ⟨i, [], hi, rfl, rfl, hr, ht⟩

theorem traced_act {f : ι → σ → α × σ} : (act l f : Prog Λ ι σ ε α).Traced env s ls r t ↔
      ∃ i, env l i s ∧ ls = [l] ∧ r = .ok (f i s).1 ∧ t = (f i s).2 := by
  constructor
  · rintro ⟨i, ls', hi, rfl, rfl, hr, ht⟩
    exact ⟨i, hi, rfl, hr, ht⟩
  · rintro ⟨i, hi, rfl, hr, ht⟩
    exact ⟨i, [], hi, rfl, rfl, hr, ht⟩

theorem traced_look {f : ι → σ → α} : (look l f : Prog Λ ι σ ε α).Traced env s ls r t ↔
      ∃ i, env l i s ∧ ls = [l] ∧ r = .ok (f i s) ∧ t = s := by
  constructor
  · rintro ⟨i, ls', hi, rfl, rfl, hr, ht⟩
    exact ⟨i, hi, rfl, hr, ht⟩
  · rintro ⟨i, hi, rfl, hr, ht⟩
    exact ⟨i, [], hi, rfl, rfl, hr, ht⟩

/-- The trace of the run in which every section is given the same input. -/
def labelsUnder (i : ι) : Prog Λ ι σ ε α → σ → List Λ
  | done _, _ => []
  | fail _, _ => []
  | sect l n f, s => l :: (f i s).labelsUnder i (n i s)

/-- The same input meets `env` at every section of its run. -/
def MeetsUnder (env : Λ → ι → σ → Prop) (i : ι) : Prog Λ ι σ ε α → σ → Prop
  | done _, _ => True
  | fail _, _ => True
  | sect l n f, s => env l i s ∧ (f i s).MeetsUnder env i (n i s)

instance MeetsUnder.decide (env : Λ → ι → σ → Prop) [∀ l i s, Decidable (env l i s)] (i : ι) :
    (p : Prog Λ ι σ ε α) → (s : σ) → Decidable (p.MeetsUnder env i s)
  | done _, _ => .isTrue trivial
  | fail _, _ => .isTrue trivial
  | sect _ n f, s =>
    have := MeetsUnder.decide env i (f i s) (n i s)
    inferInstanceAs (Decidable (_ ∧ _))

theorem traced_of_meetsUnder {i : ι} {s : σ} (h : p.MeetsUnder env i s) :
    p.Traced env s (p.labelsUnder i s) (p.under i s).1 (p.under i s).2 := by
  induction p generalizing s with
  | done a | fail e => exact ⟨rfl, rfl, rfl⟩
  | sect l n f ih => exact ⟨i, _, h.1, rfl, ih i s h.2⟩

theorem traced_under {i : ι} (p : Prog Λ ι σ ε α) (s : σ) (hi : ∀ l s, env l i s) :
    p.Traced env s (p.labelsUnder i s) (p.under i s).1 (p.under i s).2 := by
  refine traced_of_meetsUnder ?_
  induction p generalizing s with
  | done a | fail e => trivial
  | sect l n f ih => exact ⟨hi l s, ih i s (n i s)⟩

end Traced

/-! ### What every section does -/

/-- Every section of the program, whatever its input and wherever it runs, changes the state as `rel`
says for its label. -/
def Only (rel : Λ → σ → σ → Prop) : Prog Λ ι σ ε α → Prop
  | done _ => True
  | fail _ => True
  | sect l n r => ∀ i s, rel l s (n i s) ∧ (r i s).Only rel

section Only

variable {rel : Λ → σ → σ → Prop}

variable {p : Prog Λ ι σ ε α}

theorem Only.bind (h : p.Only rel)
    (hf : ∀ a, (f a).Only rel) : (p >>= f).Only rel := by
  induction p with
  | done a => exact hf a
  | fail e => trivial
  | sect l n r ih => exact fun i s => ⟨(h i s).1, ih i s (h i s).2⟩

theorem Only.attempt {ε' : Type} (h : p.Only rel) :
    (p.attempt : Prog Λ ι σ ε' (Except ε α)).Only rel := by
  induction p with
  | done a | fail e => trivial
  | sect l n r ih => exact fun i s => ⟨(h i s).1, ih i s (h i s).2⟩

theorem only_ofExcept (x : Except ε α) : (ofExcept x : Prog Λ ι σ ε α).Only rel := by
  cases x <;> trivial

theorem only_tryAct {f : ι → σ → Except ε α × σ} (h : ∀ i s, rel l s (f i s).2) :
    (tryAct l f).Only rel := fun i s => ⟨h i s, only_ofExcept _⟩

theorem only_act {f : ι → σ → α × σ} (h : ∀ i s, rel l s (f i s).2) :
    (act l f : Prog Λ ι σ ε α).Only rel := fun i s => ⟨h i s, trivial⟩

theorem only_look {f : ι → σ → α} (h : ∀ s, rel l s s) :
    (look l f : Prog Λ ι σ ε α).Only rel := fun _ s => ⟨h s, trivial⟩

/-- What every section does, a whole run does. -/
theorem Only.runs {R : σ → σ → Prop} (h : p.Only rel) (hrel : ∀ l s t, rel l s t → R s t) (hrefl : ∀ s, R s s)
    (htrans : ∀ s t u, R s t → R t u → R s u) {s t : σ} {r : Except ε α} (hr : p.Runs s r t) :
    R s t := by
  induction p generalizing s with
  | done a | fail e => exact hr.2 ▸ hrefl s
  | sect l n f ih =>
    obtain ⟨i, hi⟩ := hr
    exact htrans _ _ _ (hrel l _ _ (h i s).1) (ih i s (h i s).2 hi)

variable {env : Λ → ι → σ → Prop}

/-- Every label of a trace is that of a section. -/
theorem Only.labels {P : Λ → Prop} (h : p.Only rel)
    (hrel : ∀ l s t, rel l s t → P l) {s t : σ} {ls : List Λ} {r : Except ε α}
    (hr : p.Traced env s ls r t) : ∀ l ∈ ls, P l := by
  induction p generalizing s ls with
  | done a | fail e => simp [hr.1]
  | sect l n f ih =>
    obtain ⟨i, ls', -, rfl, hr⟩ := hr
    intro l' hl'
    rcases List.mem_cons.mp hl' with rfl | hl'
    · exact hrel _ _ _ (h i s).1
    · exact ih i s (h i s).2 hr l' hl'

theorem Traced.runs {s t : σ} {ls : List Λ}
    {r : Except ε α} (h : p.Traced env s ls r t) : p.Runs s r t := by
  induction p generalizing s ls with
  | done a | fail e => exact h.2
  | sect l n f ih =>
    obtain ⟨i, ls', -, -, h⟩ := h
    exact ⟨i, ih i s h⟩

theorem Only.holds {R : σ → σ → Prop} {cut : Λ → σ → Prop} (h : p.Only rel) (hrel : ∀ l s t, rel l s t → R s t) (hrefl : ∀ s, R s s)
    (htrans : ∀ s t u, R s t → R t u → R s u) {s : σ}
    (hcut : ∀ l t, R s t → cut l t) : p.Holds env cut s fun _ t => R s t := by
  suffices ∀ t, R s t → p.Holds env cut t fun _ t => R s t from this s (hrefl s)
  intro t ht
  induction p generalizing t with
  | done a | fail e => exact ht
  | sect l n r ih =>
    exact ⟨hcut l t ht, fun i _ => ih i t (h i t).2 _ (htrans _ _ _ ht (hrel l _ _ (h i t).1))⟩

end Only

end Prog

/-! ### Runs of one program at a time

Operations follow one another; each runs to its end or is cut by a crash, after which the state is
restarted. -/

/-- What can happen next. -/
inductive Event (Op ι κ : Type) where
  | start (op : Op)
  | step (input : ι)
  | crash (at_ : κ)

/-- The operations of a system and what a restart does to its state. -/
structure Ops (Op Λ ι κ σ ε α : Type) where
  prog : Op → Prog Λ ι σ ε α
  restart : κ → σ → σ

/-- The shared state with the operation that is under way, or the last one that ended. -/
structure Solo (Op Λ ι σ ε α : Type) where
  state : σ
  current : Option (Op × Prog Λ ι σ ε α)

namespace Solo

variable {Op Λ ι κ σ ε α : Type}

/-- No operation is under way. -/
def idle (x : Solo Op Λ ι σ ε α) : Bool :=
  match x.current with
  | none => true
  | some (_, p) => p.finished

/-- An operation starts only when none is under way; a section runs only when one is. -/
def exec (m : Ops Op Λ ι κ σ ε α) : Event Op ι κ → Solo Op Λ ι σ ε α → Solo Op Λ ι σ ε α
  | .start op, x => if x.idle then ⟨x.state, some (op, m.prog op)⟩ else x
  | .step i, x =>
    match x.current with
    | some (op, .sect _ n r) => ⟨n i x.state, some (op, r i x.state)⟩
    | _ => x
  | .crash k, x => ⟨m.restart k x.state, none⟩

def run (m : Ops Op Λ ι κ σ ε α) : List (Event Op ι κ) → Solo Op Λ ι σ ε α → Solo Op Λ ι σ ε α
  | [], x => x
  | e :: es, x => run m es (exec m e x)

/-- Every event of the run meets `rule` in the state it happens in. -/
def Meets (m : Ops Op Λ ι κ σ ε α) (rule : Event Op ι κ → Solo Op Λ ι σ ε α → Prop) :
    List (Event Op ι κ) → Solo Op Λ ι σ ε α → Prop
  | [], _ => True
  | e :: es, x => rule e x ∧ Meets m rule es (exec m e x)

instance Meets.decide (m : Ops Op Λ ι κ σ ε α) (rule : Event Op ι κ → Solo Op Λ ι σ ε α → Prop)
    [∀ e x, Decidable (rule e x)] :
    (es : List (Event Op ι κ)) → (x : Solo Op Λ ι σ ε α) → Decidable (Meets m rule es x)
  | [], _ => .isTrue trivial
  | e :: es, x =>
    have := Meets.decide m rule es (exec m e x)
    inferInstanceAs (Decidable (_ ∧ _))

/-- Nothing is under way and the invariant holds, or what is under way will keep it. -/
def Sound (env : Λ → ι → σ → Prop) (cut : Λ → σ → Prop) (inv : σ → Prop)
    (post : Op → Except ε α → σ → Prop) (x : Solo Op Λ ι σ ε α) : Prop :=
  match x.current with
  | none => inv x.state
  | some (op, p) => p.Holds env cut x.state (post op)

section Invariant

variable {m : Ops Op Λ ι κ σ ε α} {rule : Event Op ι κ → Solo Op Λ ι σ ε α → Prop}
  {env : Λ → ι → σ → Prop} {cut : Λ → σ → Prop} {inv : σ → Prop}
  {post : Op → Except ε α → σ → Prop}

variable {x : Solo Op Λ ι σ ε α}

theorem Sound.inv_of_idle (h : x.Sound env cut inv post)
    (hpost : ∀ op r s, post op r s → inv s) (hidle : x.idle = true) : inv x.state := by
  obtain ⟨s, _ | ⟨op, p⟩⟩ := x
  · exact h
  · cases p with
    | done a | fail e => exact hpost op _ s h
    | sect l n r => cases hidle

/-- If the invariant also holds wherever an operation may be cut, it holds in every sound state. -/
theorem Sound.inv_of_cut (h : x.Sound env cut inv post)
    (hpost : ∀ op r s, post op r s → inv s) (hcut : ∀ l s, cut l s → inv s) : inv x.state := by
  obtain ⟨s, _ | ⟨op, _ | _ | ⟨l, n, r⟩⟩⟩ := x
  · exact h
  · exact hpost op _ s h
  · exact hpost op _ s h
  · exact hcut l s h.1

/-- What the operations and the restarts of a system must meet for `inv` to hold between them. -/
structure Keeps (m : Ops Op Λ ι κ σ ε α) (rule : Event Op ι κ → Solo Op Λ ι σ ε α → Prop)
    (env : Λ → ι → σ → Prop) (cut : Λ → σ → Prop) (inv : σ → Prop)
    (post : Op → Except ε α → σ → Prop) : Prop where
  post_inv : ∀ op r s, post op r s → inv s
  start : ∀ op x, rule (.start op) x → inv x.state →
    (m.prog op).Holds env cut x.state (post op)
  input : ∀ i op l n r s, rule (.step i) ⟨s, some (op, .sect l n r)⟩ → env l i s
  cut_inv : ∀ k op l n r s, rule (.crash k) ⟨s, some (op, .sect l n r)⟩ → cut l s →
    inv (m.restart k s)
  idle_inv : ∀ k x, rule (.crash k) x → inv x.state → inv (m.restart k x.state)

theorem Sound.exec (h : x.Sound env cut inv post)
    (hk : Keeps m rule env cut inv post) {e : Event Op ι κ} (he : rule e x) :
    (Solo.exec m e x).Sound env cut inv post := by
  cases e with
  | start op =>
    by_cases hidle : x.idle = true
    · rw [Solo.exec, if_pos hidle]
      exact hk.start op x he (h.inv_of_idle hk.post_inv hidle)
    · rw [Solo.exec, if_neg hidle]
      exact h
  | step i =>
    obtain ⟨s, _ | ⟨op, _ | _ | ⟨l, n, r⟩⟩⟩ := x
    · exact h
    · exact h
    · exact h
    · exact h.2 i (hk.input i op l n r s he)
  | crash k =>
    obtain ⟨s, _ | ⟨op, _ | _ | ⟨l, n, r⟩⟩⟩ := x
    · exact hk.idle_inv k _ he h
    · exact hk.idle_inv k _ he (hk.post_inv op _ s h)
    · exact hk.idle_inv k _ he (hk.post_inv op _ s h)
    · exact hk.cut_inv k op l n r s he h.1

/-- The run lemma: every state of a run that meets the rule is sound. -/
theorem Sound.run (h : x.Sound env cut inv post)
    (hk : Keeps m rule env cut inv post) {es : List (Event Op ι κ)} (hes : Meets m rule es x) :
    (Solo.run m es x).Sound env cut inv post := by
  induction es generalizing x with
  | nil => exact h
  | cons e es ih => exact ih (h.exec hk hes.1) hes.2

end Invariant

end Solo

end Sections
