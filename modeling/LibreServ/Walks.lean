import Mathlib

/-! Walking a tree with a stack. A node is taken off the stack, looked at, and its children are put on it. Where no
node is the child of two, each node reached from the root is looked at exactly once, and as many turns as there are
nodes are enough. -/

namespace Walk

open List

variable {ν σ : Type}

/-- `none` if the stack is not empty after so many turns. -/
def walk (kids : ν → List ν) (visit : ν → σ → σ) : Nat → List ν → σ → Option σ
  | _, [], acc => some acc
  | 0, _ :: _, _ => none
  | fuel + 1, d :: stack, acc => walk kids visit fuel (kids d ++ stack) (visit d acc)

inductive Reach (kids : ν → List ν) (root : ν) : ν → Prop where
  | root : Reach kids root root
  | kid (d k : ν) (hd : Reach kids root d) (hk : k ∈ kids d) : Reach kids root k

/-- A tree with these nodes. -/
structure Rooted (kids : ν → List ν) (root : ν) (nodes : List ν) : Prop where
  root_mem : root ∈ nodes
  kids_mem : ∀ d ∈ nodes, ∀ k ∈ kids d, k ∈ nodes
  nodup : ∀ d, (kids d).Nodup
  parent : ∀ d d' k, k ∈ kids d → k ∈ kids d' → d = d'
  top : ∀ d, root ∉ kids d

/-- What every turn keeps of the nodes looked at and those on the stack. -/
structure Inv (kids : ν → List ν) (root : ν) (done stack : List ν) : Prop where
  nodup : (done ++ stack).Nodup
  reached : ∀ d ∈ done ++ stack, Reach kids root d
  closed : ∀ d ∈ done, ∀ k ∈ kids d, k ∈ done ++ stack
  rooted : root ∈ done ++ stack
  opened : ∀ d ∈ done ++ stack, d = root ∨ ∃ p ∈ done, d ∈ kids p

variable {kids : ν → List ν} {visit : ν → σ → σ} {root d : ν} {nodes done stack : List ν}

theorem Reach.mem (h : Rooted kids root nodes) (hd : Reach kids root d) : d ∈ nodes := by
  induction hd with
  | root => exact h.root_mem
  | kid d k _ hk ih => exact h.kids_mem d ih k hk

theorem Inv.start : Inv kids root [] [root] where
  nodup := (nodup_cons.mpr ⟨not_mem_nil, nodup_nil⟩)
  reached := by
    intro d hd
    rw [mem_singleton.mp hd]
    exact .root
  closed := fun d hd => (nomatch hd)
  rooted := mem_singleton_self root
  opened := fun d hd => .inl (mem_singleton.mp hd)

/-- One turn. -/
theorem Inv.turn (h : Rooted kids root nodes) (hi : Inv kids root done (d :: stack)) :
    Inv kids root (done ++ [d]) (kids d ++ stack) := by
  have hmem : ∀ k, k ∈ (done ++ [d]) ++ (kids d ++ stack) ↔ k ∈ done ++ d :: stack ∨ k ∈ kids d := by
    intro k
    simp only [mem_append, mem_cons, not_mem_nil]
    tauto
  have hd : d ∈ done ++ d :: stack := mem_append_right _ mem_cons_self
  have hnot : d ∉ done := fun hdone => (nodup_append.mp hi.nodup).2.2 d hdone d mem_cons_self rfl
  -- A child was not there before: its only parent is looked at just now.
  have hnew : ∀ k ∈ kids d, k ∉ done ++ d :: stack := by
    intro k hk hold
    rcases hi.opened k hold with rfl | ⟨p, hp, hkp⟩
    · exact h.top d hk
    · rw [h.parent p d k hkp hk] at hp
      exact hnot hp
  constructor
  · have hperm : ((done ++ [d]) ++ (kids d ++ stack)).Perm (kids d ++ (done ++ d :: stack)) := by
      have hswap := perm_append_comm_assoc (done ++ [d]) (kids d) stack
      rwa [append_assoc done [d] stack, singleton_append] at hswap
    rw [hperm.nodup_iff, nodup_append]
    exact ⟨h.nodup d, hi.nodup, fun a ha b hb hab => hnew a ha (hab ▸ hb)⟩
  · intro k hk
    rcases (hmem k).mp hk with hold | hkid
    · exact hi.reached k hold
    · exact .kid d k (hi.reached d hd) hkid
  · intro p hp k hk
    rw [hmem]
    rcases mem_append.mp hp with hp | hp
    · exact .inl (hi.closed p hp k hk)
    · rw [mem_singleton.mp hp] at hk
      exact .inr hk
  · exact (hmem root).mpr (.inl hi.rooted)
  · intro k hk
    rcases (hmem k).mp hk with hold | hkid
    · rcases hi.opened k hold with hroot | ⟨p, hp, hkp⟩
      · exact .inl hroot
      · exact .inr ⟨p, mem_append_left _ hp, hkp⟩
    · exact .inr ⟨d, mem_append_right _ (mem_singleton_self d), hkid⟩

/-- Done when the stack is empty: nothing that is reached is left out. -/
theorem Inv.done_iff (hi : Inv kids root done []) : d ∈ done ↔ Reach kids root d := by
  rw [← append_nil done]
  constructor
  · exact hi.reached d
  · intro hd
    induction hd with
    | root => exact hi.rooted
    | kid p k _ hk ih =>
      rw [append_nil] at ih
      exact hi.closed p ih k hk

theorem walk_from (visit : ν → σ → σ) (h : Rooted kids root nodes) (hi : Inv kids root done stack) {fuel : Nat}
    (hfuel : nodes.length ≤ done.length + fuel) (acc : σ) : ∃ more : List ν, walk kids visit fuel stack acc =
      some (more.foldl (fun acc d => visit d acc) acc) ∧ Inv kids root (done ++ more) [] := by
  induction fuel generalizing done stack acc with
  | zero =>
    cases stack with
    | nil => exact ⟨[], rfl, by rwa [append_nil]⟩
    | cons d stack =>
      have hle : (done ++ d :: stack).length ≤ nodes.length :=
        (subperm_of_subset hi.nodup fun k hk => (hi.reached k hk).mem h).length_le
      rw [length_append, length_cons] at hle
      omega
  | succ fuel ih =>
    cases stack with
    | nil => exact ⟨[], rfl, by rwa [append_nil]⟩
    | cons d stack =>
      have hlen : nodes.length ≤ (done ++ [d]).length + fuel := by
        rw [length_append, length_singleton]
        omega
      obtain ⟨more, hrun, hend⟩ := ih (hi.turn h) hlen (visit d acc)
      refine ⟨d :: more, hrun, ?_⟩
      rw [append_assoc] at hend
      exact hend

/-- **Each node once.** -/
theorem walk_visits (visit : ν → σ → σ) (h : Rooted kids root nodes) (acc : σ) : ∃ done : List ν, walk kids visit nodes.length [root] acc =
    some (done.foldl (fun acc d => visit d acc) acc) ∧ done.Nodup ∧ ∀ d, d ∈ done ↔ Reach kids root d := by
  obtain ⟨done, hrun, hend⟩ := walk_from visit h Inv.start (Nat.le_add_left _ _) acc
  refine ⟨done, hrun, ?_, fun d => hend.done_iff⟩
  have hnodup := hend.nodup
  rwa [append_nil] at hnodup

end Walk
