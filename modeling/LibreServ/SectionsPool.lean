import LibreServ.Sections

/-! Any number of programs over one shared state, their sections interleaved in any order, with
crashes that stop all of them at once. Each worker carries a note: a record, kept by the sections it
has run, of what its program still remembers. The notes are history variables; no program reads them.
They let an invariant speak about what the workers hold in their local variables. -/

namespace Sections

open Function

/-- The operations a worker can be started with, the note it starts with and what each section adds
to the note, and what a restart does to the state. -/
structure Crew (Op Λ ι κ σ ε α Γ : Type) extends Ops Op Λ ι κ σ ε α where
  start : Op → Γ
  note : Λ → ι → σ → Γ → Γ

/-- A program under way, with its note. -/
structure Worker (Λ ι σ ε α Γ : Type) where
  prog : Prog Λ ι σ ε α
  note : Γ

/-- The shared state and the workers, by number. -/
structure Pool (Λ ι σ ε α Γ : Type) where
  state : σ
  workers : ℕ → Option (Worker Λ ι σ ε α Γ)

/-- What can happen next in a pool. -/
inductive PoolEvent (Op ι κ : Type) where
  | start (w : ℕ) (op : Op)
  | step (w : ℕ) (input : ι)
  | crash (at_ : κ)

variable {w : ℕ}

/-- To speak of every note after a section of `w` is to speak of the new note and of the others'. -/
theorem forall_update_some {Γ : Type} {G : ℕ → Option Γ} {g : Γ} {P : ℕ → Γ → Prop} :
    (∀ v k, Function.update G w (some g) v = some k → P v k) ↔
      P w g ∧ ∀ v k, v ≠ w → G v = some k → P v k := by
  constructor
  · intro h
    refine ⟨h w g (update_self ..), fun v k hv hk => h v k ?_⟩
    rw [update_of_ne hv]
    exact hk
  · intro h v k hk
    by_cases hv : v = w
    · subst hv
      rw [update_self] at hk
      cases hk
      exact h.1
    · rw [update_of_ne hv] at hk
      exact h.2 v k hv hk

theorem update_of_eq {Γ : Type} {G : ℕ → Option Γ} {g : Γ} (h : G w = some g) :
    Function.update G w (some g) = G := by
  rw [← h, update_eq_self]

/-- Some worker's note is as `P` says. -/
def Anyone {Γ : Type} (G : ℕ → Option Γ) (P : Γ → Prop) : Prop := ∃ v k, G v = some k ∧ P k

/-- Some note other than that of `w` is as `P` says. -/
def AnyOther {Γ : Type} (G : ℕ → Option Γ) (w : ℕ) (P : Γ → Prop) : Prop :=
  ∃ v k, v ≠ w ∧ G v = some k ∧ P k

section

variable {Γ : Type} {G : ℕ → Option Γ}

theorem anyone_iff {g : Γ} (hg : G w = some g) (P : Γ → Prop) : Anyone G P ↔ P g ∨ AnyOther G w P := by
  constructor
  · rintro ⟨v, k, hk, hP⟩
    by_cases hv : v = w
    · subst hv
      obtain rfl : k = g := Option.some.inj (hk.symm.trans hg)
      exact .inl hP
    · exact .inr ⟨v, k, hv, hk, hP⟩
  · rintro (hP | ⟨v, k, -, hk, hP⟩)
    · exact ⟨w, g, hg, hP⟩
    · exact ⟨v, k, hk, hP⟩

theorem anyOther_update {g : Option Γ} (P : Γ → Prop) : AnyOther (Function.update G w g) w P ↔ AnyOther G w P := by
  refine exists_congr fun v => exists_congr fun k => and_congr_right fun hv => ?_
  rw [update_of_ne hv]

theorem anyone_update {g : Γ} (P : Γ → Prop) : Anyone (Function.update G w (some g)) P ↔ P g ∨ AnyOther G w P := by
  rw [anyone_iff (update_self ..), anyOther_update]

theorem anyOther_of_none (hw : G w = none) {P : Γ → Prop} : AnyOther G w P ↔ Anyone G P := by
  refine exists_congr fun v => exists_congr fun k => ⟨And.right, fun h => ⟨?_, h⟩⟩
  rintro rfl
  exact nomatch hw.symm.trans h.1

/-- A note with a property that the new note of `w` takes over is still there. -/
theorem exists_update_some {g g' : Γ} {P : Γ → Prop}
    (hg : G w = some g) (hP : P g → P g') (h : ∃ v k, G v = some k ∧ P k) :
    ∃ v k, Function.update G w (some g') v = some k ∧ P k :=
  (anyone_update P).mpr (((anyone_iff hg P).mp h).imp_left hP)

end

namespace Pool

variable {Op Λ ι κ σ ε α Γ : Type}

/-- The workers' notes. -/
def notes (x : Pool Λ ι σ ε α Γ) (w : ℕ) : Option Γ := (x.workers w).map Worker.note

/-- A worker number is used once; a section runs only for a worker that has one left. -/
def exec (m : Crew Op Λ ι κ σ ε α Γ) :
    PoolEvent Op ι κ → Pool Λ ι σ ε α Γ → Pool Λ ι σ ε α Γ
  | .start w op, x =>
    match x.workers w with
    | none => ⟨x.state, Function.update x.workers w (some ⟨m.prog op, m.start op⟩)⟩
    | some _ => x
  | .step w i, x =>
    match x.workers w with
    | some ⟨.sect l n r, g⟩ =>
      ⟨n i x.state, Function.update x.workers w (some ⟨r i x.state, m.note l i x.state g⟩)⟩
    | _ => x
  | .crash k, x => ⟨m.restart k x.state, fun _ => none⟩

def run (m : Crew Op Λ ι κ σ ε α Γ) :
    List (PoolEvent Op ι κ) → Pool Λ ι σ ε α Γ → Pool Λ ι σ ε α Γ
  | [], x => x
  | e :: es, x => run m es (exec m e x)

/-- The section worker `w` would run next, if it has one. -/
def next (x : Pool Λ ι σ ε α Γ) (w : ℕ) : Option Λ :=
  match x.workers w with
  | some ⟨.sect l _ _, _⟩ => some l
  | _ => none

/-- Every section of the run meets `rule`, given its worker, its label and input, the state it runs
in and the notes at that moment. -/
def Meets (m : Crew Op Λ ι κ σ ε α Γ) (rule : ℕ → Λ → ι → σ → (ℕ → Option Γ) → Prop) :
    List (PoolEvent Op ι κ) → Pool Λ ι σ ε α Γ → Prop
  | [], _ => True
  | e :: es, x =>
    (∀ w i l, e = .step w i → x.next w = some l → rule w l i x.state x.notes) ∧
      Meets m rule es (exec m e x)

end Pool

namespace Prog

variable {Op Λ ι κ σ ε α β Γ : Type}

section Safe

variable (note : Λ → ι → σ → Γ → Γ) (rule : ℕ → Λ → ι → σ → (ℕ → Option Γ) → Prop)
  (inv : σ → (ℕ → Option Γ) → Prop) (guar : σ → σ → Prop)

/-- Run by worker `w` with note `g` among any others, every section of the program keeps `inv` and
changes the state as `guar` says, and the program ends with a note as in `post`. Between two sections
nothing is known of the state but `inv`: the others may have run. -/
def Safe (w : ℕ) : Prog Λ ι σ ε α → Γ → (Except ε α → Γ → Prop) → Prop
  | done a, g, post => post (.ok a) g
  | fail e, g, post => post (.error e) g
  | sect l n r, g, post =>
    ∀ i s G, inv s G → G w = some g → rule w l i s G →
      inv (n i s) (Function.update G w (some (note l i s g))) ∧ guar s (n i s) ∧
        (r i s).Safe w (note l i s g) post

variable {note rule inv guar} {w : ℕ}

variable {p : Prog Λ ι σ ε α} {g : Γ}

theorem Safe.mono {post post' : Except ε α → Γ → Prop}
    (h : p.Safe note rule inv guar w g post) (hpost : ∀ r g', post r g' → post' r g') :
    p.Safe note rule inv guar w g post' := by
  induction p generalizing g with
  | done a | fail e => exact hpost _ _ h
  | sect l n r ih =>
    intro i s G hinv hg hrule
    obtain ⟨hkeep, hguar, hrest⟩ := h i s G hinv hg hrule
    exact ⟨hkeep, hguar, ih i s hrest⟩

/-- The rule for `>>=`: the first part ends with a note in `mid`, and `f` goes on from there. -/
theorem Safe.bind (mid : α → Γ → Prop) {p : Prog Λ ι σ ε α} {f : α → Prog Λ ι σ ε β} {g : Γ}
    {post : Except ε β → Γ → Prop}
    (h : p.Safe note rule inv guar w g fun r g' =>
      match r with
      | .ok a => mid a g'
      | .error e => post (.error e) g')
    (hf : ∀ a g', mid a g' → (f a).Safe note rule inv guar w g' post) :
    (p >>= f).Safe note rule inv guar w g post := by
  induction p generalizing g with
  | done a => exact hf a g h
  | fail e => exact h
  | sect l n r ih =>
    intro i s G hinv hg hrule
    obtain ⟨hkeep, hguar, hrest⟩ := h i s G hinv hg hrule
    exact ⟨hkeep, hguar, ih i s hrest⟩

/-- `post` for a program that returns, and nothing for one that fails. -/
def OnOk (post : α → Γ → Prop) : Except ε α → Γ → Prop
  | .ok a, g => post a g
  | .error _, _ => True

variable {f : α → Prog Λ ι σ ε β}

/-- The rule for `>>=` where nothing is asked of a failure. -/
theorem Safe.andThen {mid : α → Γ → Prop} {post : β → Γ → Prop} (h : p.Safe note rule inv guar w g (OnOk mid))
    (hf : ∀ a g', mid a g' → (f a).Safe note rule inv guar w g' (OnOk post)) :
    (p >>= f).Safe note rule inv guar w g (OnOk post) := by
  refine Safe.bind mid (h.mono ?_) hf
  rintro (e | a) g' hr
  · trivial
  · exact hr

/-- The rule for `>>=` where nothing is asked of the notes. -/
theorem Safe.then
    (h : p.Safe note rule inv guar w g fun _ _ => True)
    (hf : ∀ a g', (f a).Safe note rule inv guar w g' fun _ _ => True) :
    (p >>= f).Safe note rule inv guar w g fun _ _ => True := by
  refine Safe.bind (fun _ _ => True) (h.mono ?_) fun a g' _ => hf a g'
  rintro (_ | _) _ _ <;> trivial

/-- The rule for `>>=` where the first part leaves the note alone. -/
theorem Safe.keep
    {post : Except ε β → Γ → Prop} (h : p.Safe note rule inv guar w g fun _ g' => g' = g)
    (herr : ∀ e, post (.error e) g) (hf : ∀ a, (f a).Safe note rule inv guar w g post) :
    (p >>= f).Safe note rule inv guar w g post := by
  refine Safe.bind (fun _ g' => g' = g) (h.mono ?_) ?_
  · rintro (e | a) g' rfl
    · exact herr e
    · rfl
  · rintro a g' rfl
    exact hf a

theorem safe_attempt {ε' : Type} {post : Except ε' (Except ε α) → Γ → Prop}
    (h : p.Safe note rule inv guar w g fun r g' => post (.ok r) g') :
    (p.attempt : Prog Λ ι σ ε' (Except ε α)).Safe note rule inv guar w g post := by
  induction p generalizing g with
  | done a | fail e => exact h
  | sect l n r ih =>
    intro i s G hinv hg hrule
    obtain ⟨hkeep, hguar, hrest⟩ := h i s G hinv hg hrule
    exact ⟨hkeep, hguar, ih i s hrest⟩

variable {post : Except ε α → Γ → Prop}

theorem safe_ofExcept {x : Except ε α}
    (h : post x g) : (ofExcept x : Prog Λ ι σ ε α).Safe note rule inv guar w g post := by
  cases x <;> exact h

theorem safe_tryAct {l : Λ} {f : ι → σ → Except ε α × σ} (h : ∀ i s G, inv s G → G w = some g → rule w l i s G →
      inv (f i s).2 (Function.update G w (some (note l i s g))) ∧ guar s (f i s).2 ∧ post (f i s).1 (note l i s g)) :
    (tryAct l f).Safe note rule inv guar w g post := by
  intro i s G hinv hg hrule
  obtain ⟨hkeep, hguar, hpost⟩ := h i s G hinv hg hrule
  exact ⟨hkeep, hguar, safe_ofExcept hpost⟩

theorem safe_act {l : Λ} {f : ι → σ → α × σ} (h : ∀ i s G, inv s G → G w = some g → rule w l i s G →
      inv (f i s).2 (Function.update G w (some (note l i s g))) ∧ guar s (f i s).2 ∧
        post (.ok (f i s).1) (note l i s g)) :
    (act l f : Prog Λ ι σ ε α).Safe note rule inv guar w g post := h

theorem safe_look {l : Λ} {f : ι → σ → α} (h : ∀ i s G, inv s G → G w = some g → rule w l i s G →
      inv s (Function.update G w (some (note l i s g))) ∧ guar s s ∧ post (.ok (f i s)) (note l i s g)) :
    (look l f : Prog Λ ι σ ε α).Safe note rule inv guar w g post := h

/-- A program of which no section touches what the invariant speaks of, or the note. -/
theorem Only.safe {rel : Λ → σ → σ → Prop} (h : p.Only rel)
    (hkeep : ∀ l i s t G, rel l s t → inv s G → note l i s g = g ∧ inv t G ∧ guar s t) :
    p.Safe note rule inv guar w g fun _ g' => g' = g := by
  induction p with
  | done a | fail e => exact rfl
  | sect l n r ih =>
    intro i s G hinv hg _
    obtain ⟨hnote, hinv', hguar⟩ := hkeep l i s _ G (h i s).1 hinv
    rw [hnote, update_of_eq hg]
    exact ⟨hinv', hguar, ih i s (h i s).2⟩

end Safe

end Prog

namespace Pool

variable {Op Λ ι κ σ ε α Γ : Type} {m : Crew Op Λ ι κ σ ε α Γ}
  {rule : ℕ → Λ → ι → σ → (ℕ → Option Γ) → Prop} {inv : σ → (ℕ → Option Γ) → Prop}
  {guar : σ → σ → Prop} {post : Except ε α → Γ → Prop}

/-- The invariant holds, and every worker keeps it and will end with a note as in `post`. -/
structure Sound (m : Crew Op Λ ι κ σ ε α Γ) (rule : ℕ → Λ → ι → σ → (ℕ → Option Γ) → Prop)
    (inv : σ → (ℕ → Option Γ) → Prop) (guar : σ → σ → Prop) (post : Except ε α → Γ → Prop)
    (x : Pool Λ ι σ ε α Γ) : Prop where
  kept : inv x.state x.notes
  safe : ∀ w y, x.workers w = some y → y.prog.Safe m.note rule inv guar w y.note post

/-- What the operations and the restart of a crew must meet for `inv` to hold in every state. -/
structure Keeps (m : Crew Op Λ ι κ σ ε α Γ) (rule : ℕ → Λ → ι → σ → (ℕ → Option Γ) → Prop)
    (inv : σ → (ℕ → Option Γ) → Prop) (guar : σ → σ → Prop)
    (post : Except ε α → Γ → Prop) : Prop where
  start : ∀ op w s G, inv s G → G w = none → inv s (Function.update G w (some (m.start op)))
  safe : ∀ op w, (m.prog op).Safe m.note rule inv guar w (m.start op) post
  restart : ∀ k s G, inv s G → inv (m.restart k s) (fun _ => none) ∧ guar s (m.restart k s)

theorem notes_update (x : Pool Λ ι σ ε α Γ) (s : σ) (w : ℕ) (y : Worker Λ ι σ ε α Γ) :
    notes ⟨s, Function.update x.workers w (some y)⟩ =
      Function.update x.notes w (some y.note) := by
  funext v
  by_cases hv : v = w
  · subst hv
    simp [notes]
  · simp [notes, hv]

variable {x : Pool Λ ι σ ε α Γ} {es : List (PoolEvent Op ι κ)}

/-- Worker `w` has moved on, or was just started: the others are as safe as before. -/
theorem Sound.update (h : x.Sound m rule inv guar post) {s : σ} {w : ℕ}
    {y : Worker Λ ι σ ε α Γ} (hinv : inv s (Function.update x.notes w (some y.note)))
    (hsafe : y.prog.Safe m.note rule inv guar w y.note post) :
    Sound m rule inv guar post ⟨s, Function.update x.workers w (some y)⟩ := by
  refine ⟨by rwa [notes_update], ?_⟩
  intro v z hz
  change Function.update x.workers w (some y) v = some z at hz
  by_cases hv : v = w
  · subst hv
    rw [update_self] at hz
    cases hz
    exact hsafe
  · rw [update_of_ne hv] at hz
    exact h.safe v z hz

section

variable (h : x.Sound m rule inv guar post) (hk : Keeps m rule inv guar post)
include h hk

/-- The step lemma: an event that meets the rule keeps the pool sound and changes the state, if at
all, as `guar` says. -/
theorem Sound.exec {e : PoolEvent Op ι κ}
    (he : ∀ w i l, e = .step w i → x.next w = some l → rule w l i x.state x.notes) :
    (Pool.exec m e x).Sound m rule inv guar post ∧
      ((Pool.exec m e x).state = x.state ∨ guar x.state (Pool.exec m e x).state) := by
  cases e with
  | start w op =>
    cases hw : x.workers w with
    | some y =>
      simp only [Pool.exec, hw]
      exact ⟨h, .inl trivial⟩
    | none =>
      simp only [Pool.exec, hw]
      have hinv := hk.start op w _ _ h.kept (by simp [notes, hw])
      exact ⟨h.update hinv (hk.safe op w), .inl trivial⟩
  | step w i =>
    cases hw : x.workers w with
    | none =>
      simp only [Pool.exec, hw]
      exact ⟨h, .inl trivial⟩
    | some y =>
      obtain ⟨_ | _ | ⟨l, n, r⟩, g⟩ := y
      · simp only [Pool.exec, hw]
        exact ⟨h, .inl trivial⟩
      · simp only [Pool.exec, hw]
        exact ⟨h, .inl trivial⟩
      · have hnext : x.next w = some l := by simp only [next, hw]
        have hnote : x.notes w = some g := by simp [notes, hw]
        obtain ⟨hkeep, hguar, hrest⟩ := h.safe w _ hw i x.state x.notes h.kept hnote
          (he w i l rfl hnext)
        simp only [Pool.exec, hw]
        exact ⟨h.update hkeep hrest, .inr hguar⟩
  | crash k =>
    obtain ⟨hinv, hguar⟩ := hk.restart k _ _ h.kept
    refine ⟨⟨hinv, ?_⟩, .inr hguar⟩
    intro w y hy
    cases hy

/-- The run lemma: every state of a run whose sections meet the rule is sound. -/
theorem Sound.run (hes : Meets m rule es x) :
    (Pool.run m es x).Sound m rule inv guar post := by
  induction es generalizing x with
  | nil => exact h
  | cons e es ih => exact ih (h.exec hk hes.1).1 hes.2

/-- What every section and every restart guarantees, a whole run guarantees. -/
theorem Sound.run_guar (hrefl : ∀ s, guar s s) (htrans : ∀ s t u, guar s t → guar t u → guar s u)
    (hes : Meets m rule es x) : guar x.state (Pool.run m es x).state := by
  induction es generalizing x with
  | nil => exact hrefl x.state
  | cons e es ih =>
    obtain ⟨hsound, hstep⟩ := h.exec hk hes.1
    have hguar : guar x.state (Pool.exec m e x).state := by
      rcases hstep with heq | hguar
      · rw [heq]
        exact hrefl x.state
      · exact hguar
    exact htrans _ _ _ hguar (ih hsound hes.2)

end

theorem run_append (m : Crew Op Λ ι κ σ ε α Γ) (es es' : List (PoolEvent Op ι κ))
    (x : Pool Λ ι σ ε α Γ) : run m (es ++ es') x = run m es' (run m es x) := by
  induction es generalizing x with
  | nil => rfl
  | cons e es ih => exact ih (exec m e x)

theorem meets_append {es' : List (PoolEvent Op ι κ)} :
    Meets m rule (es ++ es') x ↔ Meets m rule es x ∧ Meets m rule es' (run m es x) := by
  induction es generalizing x with
  | nil => simp [Meets, run]
  | cons e es ih =>
    simp only [List.cons_append, Meets, ih, and_assoc]
    rfl

theorem meets_start {w : ℕ} {op : Op}
    (h : Meets m rule es (exec m (.start w op) x)) : Meets m rule (.start w op :: es) x :=
  ⟨fun _ _ _ he => (nomatch he), h⟩

theorem meets_step {w : ℕ} {i : ι} {l : Λ} (hl : x.next w = some l) (hrule : rule w l i x.state x.notes)
    (h : Meets m rule es (exec m (.step w i) x)) : Meets m rule (.step w i :: es) x := by
  refine ⟨fun w' i' l' he hl' => ?_, h⟩
  cases he
  obtain rfl : l = l' := Option.some.inj (hl.symm.trans hl')
  exact hrule

/-- Only worker `w` has been started. -/
def Alone (x : Pool Λ ι σ ε α Γ) (w : ℕ) : Prop := ∀ v, v ≠ w → x.workers v = none

theorem Alone.exec {w : ℕ} (h : x.Alone w) (i : ι) :
    (Pool.exec m (.step w i) x).Alone w := by
  intro v hv
  simp only [Pool.exec]
  split
  · exact (update_of_ne hv ..).trans (h v hv)
  · exact h v hv

theorem Alone.anyone {w : ℕ} (h : x.Alone w) {P : Γ → Prop}
    (hP : Anyone x.notes P) : ∃ g, x.notes w = some g ∧ P g := by
  obtain ⟨v, g, hg, hP⟩ := hP
  by_cases hv : v = w
  · exact ⟨g, hv ▸ hg, hP⟩
  · rw [notes, h v hv] at hg
    cases hg

/-- `ok` holds before each of the sections that `w` runs with these inputs. -/
def Always (m : Crew Op Λ ι κ σ ε α Γ) (ok : Pool Λ ι σ ε α Γ → Bool) (w : ℕ) :
    List ι → Pool Λ ι σ ε α Γ → Bool
  | [], _ => true
  | i :: is, x => ok x && Always m ok w is (Pool.exec m (.step w i) x)

/-- One worker alone meets a rule that follows from a check of the pool before each section. -/
theorem meets_of_alone {ok : Pool Λ ι σ ε α Γ → Bool} {w : ℕ}
    (hok : ∀ x i l, Alone x w → ok x = true → x.next w = some l → rule w l i x.state x.notes)
    {is : List ι} {x : Pool Λ ι σ ε α Γ} (h : x.Alone w) (hall : Always m ok w is x = true) :
    Meets m rule (is.map (.step w)) x := by
  induction is generalizing x with
  | nil => trivial
  | cons i is ih =>
    rw [Always, Bool.and_eq_true] at hall
    refine ⟨fun w' i' l he hl => ?_, ih (h.exec i) hall.2⟩
    cases he
    exact hok x i l h hall.1 hl

/-- A worker whose program has returned has the note its program leaves. -/
theorem Sound.note_of_done (h : x.Sound m rule inv guar post) {w : ℕ}
    {y : Worker Λ ι σ ε α Γ} {a : α} (hw : x.workers w = some y) (ha : y.prog = .done a) :
    post (.ok a) y.note := by
  have hsafe := h.safe w y hw
  rw [ha] at hsafe
  exact hsafe

/-- A pool with no worker yet is sound as soon as the invariant holds. -/
theorem sound_of_empty {s : σ} (h : inv s fun _ => none) :
    Sound m rule inv guar post (⟨s, fun _ => none⟩ : Pool Λ ι σ ε α Γ) := by
  refine ⟨h, ?_⟩
  intro w y hy
  cases hy

end Pool

end Sections
