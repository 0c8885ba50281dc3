import LibreServ.Loops

/-! Depth-first search for cycles. Nodes on the way to the current one are grey, nodes that are finished are black.
A grey node among the successors closes a cycle. The search is cut off at a depth; a depth of as many steps as there
are nodes is never reached. -/

namespace DepthFirst

open Function

inductive Color where
  | white
  | grey
  | black
deriving DecidableEq, Repr

/-- What ends a search early. -/
inductive Stop (ν : Type) where
  | cycle (path : List ν) (next : ν)
  | deep
deriving DecidableEq, Repr

open Loops

variable {ν : Type}

/-- Finished nodes stay finished, and the way to the current node is as it was. -/
structure Grown (color color' : ν → Color) : Prop where
  grey : ∀ k, color' k = .grey ↔ color k = .grey
  black : ∀ k, color k = .black → color' k = .black

section Colors

variable {succs : ν → List ν} {color color' color'' : ν → Color} {i k : ν} {path : List ν}

theorem Grown.refl (color : ν → Color) : Grown color color := ⟨fun _ => Iff.rfl, fun _ h => h⟩

theorem Grown.trans (h : Grown color color') (h' : Grown color' color'') : Grown color color'' :=
  ⟨fun k => (h'.grey k).trans (h.grey k), fun k hk => h'.black k (h.black k hk)⟩

theorem Grown.white (h : Grown color color') (hk : color' k = .white) : color k = .white := by
  cases hcolor : color k with
  | white => rfl
  | grey =>
    rw [(h.grey k).mpr hcolor] at hk
    cases hk
  | black =>
    rw [h.black k hcolor] at hk
    cases hk

/-- A white node turns grey, the search goes on below it, and it turns black. -/
theorem Grown.finish [DecidableEq ν] (hi : color i = .white) (h : Grown (Function.update color i .grey) color') :
    Grown color (Function.update color' i .black) := by
  constructor
  · intro k
    by_cases hki : k = i
    · simp [hki, hi]
    · rw [update_of_ne hki, h.grey k, update_of_ne hki]
  · intro k hk
    by_cases hki : k = i
    · rw [hki, update_self]
    · rw [update_of_ne hki]
      apply h.black
      rw [update_of_ne hki, hk]

/-- What the search does with a successor. -/
def look (next : ν → (ν → Color) → Except (Stop ν) (ν → Color)) (path : List ν) (color : ν → Color) (k : ν) :
    Except (Stop ν) (ν → Color) :=
  match color k with
  | .grey => .error (.cycle path k)
  | .white => next k color
  | .black => .ok color

theorem look_grown {next : ν → (ν → Color) → Except (Stop ν) (ν → Color)}
    (hnext : ∀ k color color', color k = .white → next k color = .ok color' → Grown color color' ∧ color' k = .black)
    (hrun : look next path color k = .ok color') : Grown color color' ∧ color' k = .black := by
  rw [look] at hrun
  split at hrun
  · cases hrun
  · rename_i hk
    exact hnext k color color' hk hrun
  · rename_i hk
    cases hrun
    exact ⟨Grown.refl color, hk⟩

/-- The grey nodes are on the path. -/
def OnWay (color : ν → Color) (path : List ν) : Prop := ∀ k, color k = .grey → k ∈ path

theorem OnWay.grown (h : OnWay color path) (hgrown : Grown color color') : OnWay color' path :=
  fun a ha => h a ((hgrown.grey a).mp ha)

/-- A way along which each node leads to the next, and the last one back onto it. -/
def Closes (r : ν → ν → Prop) (way : List ν) (next : ν) : Prop :=
  way.IsChain r ∧ next ∈ way ∧ ∃ last ∈ way.getLast?, r last next

theorem Closes.cycle {r : ν → ν → Prop} {way : List ν} {next : ν} (h : Closes r way next) :
    Relation.TransGen r next next := by
  obtain ⟨hchain, hmem, last, hlast, hback⟩ := h
  obtain ⟨before, after, rfl⟩ := List.append_of_mem hmem
  rw [List.getLast?_append_cons, List.getLast?_eq_getLast_of_ne_nil (List.cons_ne_nil _ _)] at hlast
  have hleads := List.relationReflTransGen_of_exists_isChain_cons after (List.isChain_split.mp hchain).2
    (Option.some.inj hlast)
  exact Relation.TransGen.tail' hleads hback

/-- The white ones among some nodes. -/
def whites (nodes : Finset ν) (color : ν → Color) : ℕ := (nodes.filter fun k => color k = .white).card

theorem whites_grown {nodes : Finset ν} (h : Grown color color') : whites nodes color' ≤ whites nodes color := by
  apply Finset.card_le_card
  intro k hk
  rw [Finset.mem_filter] at hk ⊢
  exact ⟨hk.1, h.white hk.2⟩

theorem not_cycle_of_acc {r : ν → ν → Prop} (h : Acc (fun d k => r k d) k) : ¬ Relation.TransGen r k k := by
  induction h with
  | intro k _ ih =>
    intro hcycle
    obtain ⟨d, hd, hback⟩ := Relation.TransGen.head'_iff.mp hcycle
    exact ih d hd (Relation.TransGen.tail' hback hd)

end Colors

variable [DecidableEq ν]

def visit (succs : ν → List ν) : ℕ → ν → List ν → (ν → Color) → Except (Stop ν) (ν → Color)
  | 0, _, _, _ => .error .deep
  | depth + 1, i, path, color =>
    match (succs i).foldlM (look (fun k => visit succs depth k (path ++ [i])) (path ++ [i]))
      (Function.update color i .grey) with
    | .ok color => .ok (Function.update color i .black)
    | .error stop => .error stop

/-- Visit every node that is still white. -/
def search (succs : ν → List ν) (depth : ℕ) (nodes : List ν) : Except (Stop ν) (ν → Color) :=
  nodes.foldlM (fun color i => if color i = .white then visit succs depth i [] color else .ok color) fun _ => .white

variable {succs : ν → List ν} {color color' : ν → Color} {depth : ℕ} {i k : ν} {path : List ν}

theorem visit_succ_ok (hrun : visit succs (depth + 1) i path color = .ok color') :
    ∃ color₁, (succs i).foldlM (look (fun k => visit succs depth k (path ++ [i])) (path ++ [i]))
      (Function.update color i .grey) = .ok color₁ ∧ color' = Function.update color₁ i .black := by
  rw [visit] at hrun
  split at hrun
  · rename_i color₁ hloop
    cases hrun
    exact ⟨color₁, hloop, rfl⟩
  · cases hrun

theorem visit_succ_error {stop : Stop ν} (hrun : visit succs (depth + 1) i path color = .error stop) :
    (succs i).foldlM (look (fun k => visit succs depth k (path ++ [i])) (path ++ [i]))
      (Function.update color i .grey) = .error stop := by
  rw [visit] at hrun
  split at hrun
  · cases hrun
  · rename_i hloop
    cases hrun
    exact hloop

/-- A search that does not end early leaves the way as it was, and what was finished. -/
theorem visit_grown (hi : color i = .white) (hrun : visit succs depth i path color = .ok color') :
    Grown color color' ∧ color' i = .black := by
  induction depth generalizing i path color color' with
  | zero => cases hrun
  | succ depth ih =>
    obtain ⟨color₁, hloop, rfl⟩ := visit_succ_ok hrun
    have hgrown : Grown (Function.update color i .grey) color₁ := by
      apply foldlM_keeps (P := Grown (Function.update color i .grey)) _ (Grown.refl _) hloop
      intro k _ t t' ht hrun
      exact ht.trans (look_grown (fun _ _ _ hk => ih hk) hrun).1
    exact ⟨hgrown.finish hi, update_self ..⟩

/-- Below a finished node all ways end. -/
def Ends (succs : ν → List ν) (color : ν → Color) : Prop := ∀ k, color k = .black → Acc (fun d k => d ∈ succs k) k

/-- All successors of a finished node are finished: the way below it ends if theirs do. -/
theorem visit_ends (hi : color i = .white) (hends : Ends succs color)
    (hrun : visit succs depth i path color = .ok color') : Ends succs color' := by
  induction depth generalizing i path color color' with
  | zero => cases hrun
  | succ depth ih =>
    obtain ⟨color₁, hloop, rfl⟩ := visit_succ_ok hrun
    have hturn (k : ν) (t t' : ν → Color)
        (hrun : look (fun k => visit succs depth k (path ++ [i])) (path ++ [i]) t k = .ok t') :
        Grown t t' ∧ t' k = .black := look_grown (fun _ _ _ hk => visit_grown hk) hrun
    have hkeep : ∀ k ∈ succs i, ∀ t t', Ends succs t →
        look (fun k => visit succs depth k (path ++ [i])) (path ++ [i]) t k = .ok t' → Ends succs t' := by
      intro k _ t t' ht hrun
      rw [look] at hrun
      split at hrun
      · cases hrun
      · rename_i hk
        exact ih hk ht hrun
      · cases hrun
        exact ht
    have hstart : Ends succs (Function.update color i .grey) := by
      intro k hk
      by_cases hki : k = i
      · rw [hki, update_self] at hk
        cases hk
      · rw [update_of_ne hki] at hk
        exact hends k hk
    have hends₁ : Ends succs color₁ := foldlM_keeps hkeep hstart hloop
    have hdone : ∀ k ∈ succs i, color₁ k = .black :=
      foldlM_each (Q := fun k t => t k = .black) hkeep (fun k _ t t' _ hrun => (hturn k t t' hrun).2)
        (fun k _ y t t' _ hy hrun => (hturn k t t' hrun).1.black y hy) hstart hloop
    intro k hk
    by_cases hki : k = i
    · rw [hki]
      exact Acc.intro i fun d hd => hends₁ d (hdone d hd)
    · rw [update_of_ne hki] at hk
      exact hends₁ k hk

theorem OnWay.enter (h : OnWay color path) : OnWay (Function.update color i .grey) (path ++ [i]) := by
  intro k hk
  by_cases hki : k = i
  · simp [hki]
  · rw [update_of_ne hki] at hk
    exact List.mem_append_left _ (h k hk)

theorem whites_enter {nodes : Finset ν} (hmem : i ∈ nodes) (hi : color i = .white) :
    whites nodes (Function.update color i .grey) < whites nodes color := by
  apply Finset.card_lt_card
  rw [Finset.ssubset_iff_of_subset]
  · refine ⟨i, by simp [hmem, hi], by simp⟩
  · intro k hk
    rw [Finset.mem_filter] at hk ⊢
    by_cases hki : k = i
    · simp [hki] at hk
    · rw [update_of_ne hki] at hk
      exact hk

/-- Every step down takes a white node: as many steps as there are white nodes are enough. -/
theorem visit_not_deep {nodes : Finset ν} (hclosed : ∀ k ∈ nodes, ∀ d ∈ succs k, d ∈ nodes) (hmem : i ∈ nodes)
    (hi : color i = .white) (hdepth : whites nodes color ≤ depth) : visit succs depth i path color ≠ .error .deep := by
  induction depth generalizing i path color with
  | zero =>
    have hless := whites_enter hmem hi
    omega
  | succ depth ih =>
    intro hrun
    have hloop := visit_succ_error hrun
    have hless := whites_enter hmem hi
    obtain ⟨k, hk, t, ht, hfail⟩ := foldlM_fails (P := fun t => whites nodes t ≤ depth) (fun k _ t t' ht hrun =>
        (whites_grown (look_grown (fun _ _ _ hk => visit_grown hk) hrun).1).trans ht) (by omega) hloop
    rw [look] at hfail
    split at hfail
    · cases hfail
    · rename_i hwhite
      exact ih (hclosed i hmem k hk) hwhite ht hfail
    · cases hfail

/-- Between two visits no node is on the way, and below the finished ones all ways end. -/
structure Swept (succs : ν → List ν) (color : ν → Color) : Prop where
  grey : ∀ k, color k ≠ .grey
  ends : Ends succs color

/-- What the search does with one of its nodes. -/
theorem sweep_ok (hrun : (if color k = .white then visit succs depth k [] color else .ok color) = .ok color')
    (hswept : Swept succs color) : Grown color color' ∧ color' k = .black ∧ Swept succs color' := by
  split at hrun
  · rename_i hk
    obtain ⟨hgrown, hdone⟩ := visit_grown hk hrun
    exact ⟨hgrown, hdone, fun a ha => hswept.grey a ((hgrown.grey a).mp ha), visit_ends hk hswept.ends hrun⟩
  rename_i hk
  cases hrun
  refine ⟨Grown.refl color, ?_, hswept⟩
  cases hcolor : color k with
  | white => exact absurd hcolor hk
  | grey => exact absurd hcolor (hswept.grey k)
  | black => rfl

omit [DecidableEq ν] in
theorem swept_start : Swept succs fun _ => .white := ⟨fun _ h => (by cases h), fun _ h => (by cases h)⟩

variable {nodes : List ν}

theorem search_stops {stop : Stop ν} (hrun : search succs depth nodes = .error stop) :
    ∃ k ∈ nodes, ∃ color, Swept succs color ∧ color k = .white ∧ visit succs depth k [] color = .error stop := by
  obtain ⟨k, hk, t, ht, hfail⟩ := foldlM_fails (fun k _ t t' ht hrun => (sweep_ok hrun ht).2.2) swept_start hrun
  split at hfail
  · rename_i hwhite
    exact ⟨k, hk, t, ht, hwhite, hfail⟩
  · cases hfail

section

variable (hclosed : ∀ k ∈ nodes, ∀ d ∈ succs k, d ∈ nodes)

include hclosed

/-- **As many steps down as there are nodes are enough.** -/
theorem search_ne_deep (hdepth : nodes.length ≤ depth) :
    search succs depth nodes ≠ .error .deep := by
  intro hrun
  obtain ⟨k, hk, t, -, hwhite, hfail⟩ := search_stops hrun
  have hcount : whites nodes.toFinset t ≤ depth := by
    apply le_trans (Finset.card_filter_le _ _)
    exact (List.toFinset_card_le nodes).trans hdepth
  have hclosed' : ∀ a ∈ nodes.toFinset, ∀ d ∈ succs a, d ∈ nodes.toFinset := by
    intro a ha d hd
    exact List.mem_toFinset.mpr (hclosed a (List.mem_toFinset.mp ha) d hd)
  exact visit_not_deep hclosed' (List.mem_toFinset.mpr hk) hwhite hcount hfail

variable {way : List ν} {next : ν}

/-- **A cycle that is reported is one.** -/
theorem visit_cycle (hway : OnWay color path) (hchain : (path ++ [i]).IsChain fun a b => b ∈ succs a)
    (hin : ∀ a ∈ path ++ [i], a ∈ nodes) (hrun : visit succs depth i path color = .error (.cycle way next)) :
    Closes (fun a b => b ∈ succs a) way next ∧ next ∈ nodes := by
  induction depth generalizing i path color with
  | zero => cases hrun
  | succ depth ih =>
    obtain ⟨k, hk, t, ht, hfail⟩ := foldlM_fails (P := fun t => OnWay t (path ++ [i]))
      (fun k _ t t' ht hrun => ht.grown (look_grown (fun _ _ _ hk => visit_grown hk) hrun).1) hway.enter
      (visit_succ_error hrun)
    rw [look] at hfail
    split at hfail
    · rename_i hgrey
      cases hfail
      exact ⟨⟨hchain, ht next hgrey, i, by simp, hk⟩, hin next (ht next hgrey)⟩
    · refine ih ht (List.isChain_append.mpr ⟨hchain, .singleton k, by simpa using hk⟩) (fun a ha => ?_) hfail
      rcases List.mem_append.mp ha with ha | ha
      · exact hin a ha
      · rw [List.mem_singleton.mp ha]
        exact hclosed i (hin i (by simp)) k hk
    · cases hfail

theorem search_cycle (hrun : search succs depth nodes = .error (.cycle way next)) :
    Closes (fun a b => b ∈ succs a) way next ∧ next ∈ nodes := by
  obtain ⟨k, hk, t, ht, -, hfail⟩ := search_stops hrun
  refine visit_cycle hclosed (fun a ha => absurd ha (ht.grey a)) (.singleton k) (fun a ha => ?_) hfail
  rw [List.mem_singleton.mp ha]
  exact hk

end

/-- Where the search ends well, all ways end. -/
theorem search_acc (hrun : search succs depth nodes = .ok color) (hk : k ∈ nodes) : Acc (fun d k => d ∈ succs k) k := by
  have hdone : ∀ k ∈ nodes, color k = .black :=
    foldlM_each (Q := fun k t => t k = .black) (fun k _ t t' ht hrun => (sweep_ok hrun ht).2.2)
      (fun k _ t t' ht hrun => (sweep_ok hrun ht).2.1)
      (fun k _ y t t' ht hy hrun => (sweep_ok hrun ht).1.black y hy) swept_start hrun
  have hswept : Swept succs color := foldlM_keeps (fun k _ t t' ht hrun => (sweep_ok hrun ht).2.2) swept_start hrun
  exact hswept.ends k (hdone k hk)

/-- **The search ends well exactly if there is no cycle.** -/
theorem search_ok_iff (hclosed : ∀ k ∈ nodes, ∀ d ∈ succs k, d ∈ nodes) (hdepth : nodes.length ≤ depth) :
    (∃ color, search succs depth nodes = .ok color) ↔
      ∀ k ∈ nodes, ¬ Relation.TransGen (fun a b => b ∈ succs a) k k := by
  constructor
  · rintro ⟨color, hrun⟩ k hk
    exact not_cycle_of_acc (search_acc hrun hk)
  · intro hnone
    cases hrun : search succs depth nodes with
    | ok color => exact ⟨color, rfl⟩
    | error stop =>
      cases stop with
      | cycle way next =>
        obtain ⟨hcloses, hmem⟩ := search_cycle hclosed hrun
        exact absurd hcloses.cycle (hnone next hmem)
      | deep => exact absurd hrun (search_ne_deep hclosed hdepth)

end DepthFirst
