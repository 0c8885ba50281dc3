import LibreServ.BuildGraph

/-! What `Validate` accepts: graphs without unknown names and without cycles. -/

namespace LibreServ.BuildGraph.Graph

open List Option
open Files (Text)

variable (g : Graph)

/-- `a` names `b` among its dependencies. -/
def DependsOn (a b : Text) : Prop := ∃ j ∈ g.jobs, j.id = a ∧ b ∈ j.deps

/-- Every dependency exists. -/
def DepsExist : Prop := ∀ j ∈ g.jobs, ∀ d ∈ j.deps, ∃ j' ∈ g.jobs, j'.id = d

/-- The dependency relation has no cycle. -/
def NoCycle : Prop := ∀ a, ¬ Relation.TransGen g.DependsOn a a

variable {g} {i k : ℕ} {j : Job} {a b : Text}

theorem index_lt (h : g.index a = some i) : i < g.size ∧ g.id i = a := by
  obtain ⟨hi, hid, -⟩ := findIdx?_eq_some_iff_getElem.mp h
  refine ⟨hi, ?_⟩
  rw [id, getElem?_eq_getElem hi]
  exact of_decide_eq_true hid

theorem index_of_mem (hj : j ∈ g.jobs) : ∃ i, g.index j.id = some i := by
  cases h : g.index j.id with
  | some i => exact ⟨i, rfl⟩
  | none =>
    have hnone := findIdx?_eq_none_iff.mp h j hj
    simp at hnone

section

variable (hi : i < g.size)

include hi

theorem id_eq : g.id i = (g.jobs.get ⟨i, hi⟩).id := by
  rw [id, getElem?_eq_getElem hi]
  rfl

theorem deps_eq : g.deps i = (g.jobs.get ⟨i, hi⟩).deps.map fun d => (g.index d).getD 0 := by
  rw [deps, getElem?_eq_getElem hi]
  rfl

/-- Two places do not bear one name. -/
theorem id_inj (hk : k < g.size) (heq : g.id i = g.id k) : i = k := by
  have hi' : i < (g.jobs.map Job.id).length := by
    rw [length_map]
    exact hi
  have hk' : k < (g.jobs.map Job.id).length := by
    rw [length_map]
    exact hk
  have hnames : (g.jobs.map Job.id)[i] = (g.jobs.map Job.id)[k] := by
    rw [getElem_map, getElem_map]
    rw [id_eq hi, id_eq hk] at heq
    exact heq
  exact g.unique.getElem_inj_iff.mp hnames

/-- Names lead back to where they come from. -/
theorem index_id : g.index (g.id i) = some i := by
  obtain ⟨k, hk⟩ := index_of_mem (getElem_mem hi)
  have hname : g.index (g.id i) = some k := by
    rw [id_eq hi]
    exact hk
  obtain ⟨hlt, hback⟩ := index_lt hname
  rw [hname, id_inj hlt hi hback]

end

theorem exists_id (hj : j ∈ g.jobs) : ∃ i, ∃ hi : i < g.size, g.jobs.get ⟨i, hi⟩ = j := by
  obtain ⟨i, hi, hget⟩ := getElem_of_mem hj
  exact ⟨i, hi, hget⟩

/-! ### Names and places -/

/-- With no unknown names, a dependency by name is one by place. -/
theorem mem_deps (hexist : g.DepsExist) (hi : i < g.size) :
    k ∈ g.deps i ↔ k < g.size ∧ g.DependsOn (g.id i) (g.id k) := by
  rw [deps_eq hi, List.mem_map]
  constructor
  · rintro ⟨d, hd, rfl⟩
    obtain ⟨j', hj', rfl⟩ := hexist _ (List.get_mem g.jobs ⟨i, hi⟩) d hd
    obtain ⟨m, hm⟩ := index_of_mem hj'
    obtain ⟨hlt, hname⟩ := index_lt hm
    rw [hm, getD_some, hname]
    exact ⟨hlt, _, List.get_mem g.jobs ⟨i, hi⟩, (id_eq hi).symm, hd⟩
  · rintro ⟨hk, j, hj, hid, hd⟩
    obtain ⟨m, hm, rfl⟩ := exists_id hj
    rw [← id_eq hm] at hid
    obtain rfl := id_inj hm hi hid
    refine ⟨g.id k, hd, ?_⟩
    rw [index_id hk, getD_some]

theorem deps_lt (hexist : g.DepsExist) (hk : k ∈ g.deps i) : k < g.size := by
  by_cases hi : i < g.size
  · exact ((mem_deps hexist hi).mp hk).1
  · rw [deps, getElem?_eq_none (Nat.not_lt.mp hi)] at hk
    cases hk

theorem lt_of_mem_deps (hk : k ∈ g.deps i) : i < g.size := by
  by_contra hi
  rw [deps, getElem?_eq_none (Nat.not_lt.mp hi)] at hk
  cases hk

/-- What one job depends on, over others as well. -/
def Downstream (g : Graph) : ℕ → ℕ → Prop := Relation.TransGen fun i k => k ∈ g.deps i

theorem noCycle_iff (hexist : g.DepsExist) : g.NoCycle ↔ ∀ i ∈ range g.size, ¬ g.Downstream i i := by
  constructor
  · intro hnone i hi hcycle
    apply hnone (g.id i)
    exact hcycle.lift g.id fun i k hk => ((mem_deps hexist (lt_of_mem_deps hk)).mp hk).2
  · intro hnone a hcycle
    have hplace (a b : Text) (h : g.DependsOn a b) :
        (g.index b).getD 0 ∈ g.deps ((g.index a).getD 0) ∧ (g.index a).getD 0 < g.size := by
      obtain ⟨j, hj, rfl, hd⟩ := h
      obtain ⟨i, hi, rfl⟩ := exists_id hj
      obtain ⟨j', hj', rfl⟩ := hexist _ hj _ hd
      obtain ⟨k, hk, rfl⟩ := exists_id hj'
      rw [← id_eq hi, ← id_eq hk, index_id hi, index_id hk, getD_some, getD_some]
      refine ⟨(mem_deps hexist hi).mpr ⟨hk, _, hj, (id_eq hi).symm, ?_⟩, hi⟩
      rw [id_eq hk]
      exact hd
    obtain ⟨b, hstep, -⟩ := Relation.TransGen.head'_iff.mp hcycle
    refine hnone _ (mem_range.mpr (hplace a b hstep).2) ?_
    exact hcycle.lift (fun a => (g.index a).getD 0) fun a b h => (hplace a b h).1

/-! ### `Validate` -/

theorem checkDep_ok (h : g.checkDep j a = .ok ()) : ∃ j' ∈ g.jobs, j'.id = a := by
  rw [checkDep] at h
  split at h
  · cases h
  · rename_i hsome
    obtain ⟨i, hi⟩ := ne_none_iff_exists'.mp hsome
    obtain ⟨hlt, hid⟩ := index_lt hi
    exact ⟨g.jobs.get ⟨i, hlt⟩, List.get_mem _ _, by rw [← id_eq hlt, hid]⟩

theorem checkDep_of_exists (hj : j ∈ g.jobs) (hd : a ∈ j.deps) (hexist : ∃ j' ∈ g.jobs, j'.id = a)
    (hnone : g.NoCycle) : g.checkDep j a = .ok () := by
  obtain ⟨j', hj', rfl⟩ := hexist
  obtain ⟨i, hi⟩ := index_of_mem hj'
  have hself : j'.id ≠ j.id := fun hself => hnone j.id (Relation.TransGen.single ⟨j, hj, rfl, hself ▸ hd⟩)
  rw [checkDep, if_neg (by simp [hi]), if_neg hself]

theorem checkDeps_ok_iff : g.checkDeps = .ok () ↔ ∀ j ∈ g.jobs, ∀ d ∈ j.deps, g.checkDep j d = .ok () := by
  rw [checkDeps, Loops.forM_ok_iff]
  apply forall_congr'
  intro j
  rw [Loops.forM_ok_iff]

/-- Every dependency that is followed leads to a place. -/
theorem range_closed (hexist : g.DepsExist) : ∀ i ∈ range g.size, ∀ k ∈ g.deps i, k ∈ range g.size :=
  fun _ _ _ hk => mem_range.mpr (deps_lt hexist hk)

theorem checkCycles_ok_iff (hexist : g.DepsExist) : g.checkCycles = .ok () ↔ g.NoCycle := by
  rw [noCycle_iff hexist, checkCycles]
  have hiff := DepthFirst.search_ok_iff (range_closed hexist) length_range.le
  constructor
  · intro h
    apply hiff.mp
    split at h
    · rename_i color hsearch
      exact ⟨color, hsearch⟩
    · cases h
    · cases h
  · intro hnone
    obtain ⟨color, hsearch⟩ := hiff.mpr hnone
    rw [hsearch]

theorem validate_of_checkDeps (h : g.checkDeps = .ok ()) : g.validate = g.checkCycles := by
  rw [validate, h]
  rfl

theorem depsExist_of_checkDeps (h : g.checkDeps = .ok ()) : g.DepsExist :=
  fun j hj d hd => checkDep_ok (checkDeps_ok_iff.mp h j hj d hd)

/-- **`Validate` accepts a graph exactly if every dependency exists and there is no cycle.** -/
theorem validate_ok_iff : g.validate = .ok () ↔ g.DepsExist ∧ g.NoCycle := by
  constructor
  · intro h
    cases hcheck : g.checkDeps with
    | error err =>
      rw [validate, hcheck] at h
      cases h
    | ok u =>
      have hexist : g.DepsExist := depsExist_of_checkDeps hcheck
      rw [validate_of_checkDeps hcheck] at h
      exact ⟨hexist, (checkCycles_ok_iff hexist).mp h⟩
  · rintro ⟨hexist, hnone⟩
    have hcheck : g.checkDeps = .ok () :=
      checkDeps_ok_iff.mpr fun j hj d hd => checkDep_of_exists hj hd (hexist j hj d hd) hnone
    rw [validate_of_checkDeps hcheck]
    exact (checkCycles_ok_iff hexist).mpr hnone

/-- The jobs of an accepted graph can be taken dependencies first. -/
theorem acc_of_validate (h : g.validate = .ok ()) (hi : i < g.size) : Acc (fun d k => d ∈ g.deps k) i := by
  obtain ⟨hexist, hnone⟩ := validate_ok_iff.mp h
  obtain ⟨color, hsearch⟩ := (DepthFirst.search_ok_iff (range_closed hexist) length_range.le).mpr
    ((noCycle_iff hexist).mp hnone)
  exact DepthFirst.search_acc hsearch (mem_range.mpr hi)

/-- What an error of `Validate` says of the graph: of a cycle, that each name depends on the next one and the last on a
name before it. -/
def Says (g : Graph) : GraphError → Prop
  | .unknown job dep => g.DependsOn job dep ∧ g.index dep = none
  | .itself job => g.DependsOn job job
  | .cycle path dep => DepthFirst.Closes g.DependsOn path dep
  | .noId | .duplicate _ | .deep => False

/-- **What `Validate` reports is so,** and the search for cycles never runs out of depth. -/
theorem validate_says (g : Graph) : match g.validate with | .ok _ => True | .error err => g.Says err := by
  cases h : g.validate with
  | ok _ => trivial
  | error err =>
    show g.Says err
    cases hcheck : g.checkDeps with
    | error err' =>
      rw [validate, hcheck] at h
      cases h
      obtain ⟨j, hj, hfail⟩ := Loops.forM_fails hcheck
      obtain ⟨d, hd, hfail⟩ := Loops.forM_fails hfail
      rw [checkDep] at hfail
      split at hfail
      · rename_i hnone
        cases hfail
        exact ⟨⟨j, hj, rfl, hd⟩, hnone⟩
      · split at hfail
        · rename_i hself
          cases hfail
          exact ⟨j, hj, rfl, hself ▸ hd⟩
        · cases hfail
    | ok _ =>
      have hexist := depsExist_of_checkDeps hcheck
      rw [validate_of_checkDeps hcheck, checkCycles] at h
      split at h
      · cases h
      · rename_i hsearch
        cases h
        obtain ⟨⟨hchain, hmem, last, hlast, hback⟩, -⟩ := DepthFirst.search_cycle (range_closed hexist) hsearch
        have hnames : ∀ i k, k ∈ g.deps i → g.DependsOn (g.id i) (g.id k) := fun i k hk =>
          ((mem_deps hexist (lt_of_mem_deps hk)).mp hk).2
        exact ⟨(List.isChain_map g.id).mpr (hchain.imp hnames), mem_map_of_mem hmem, g.id last,
          by rw [getLast?_map, hlast]; rfl, hnames _ _ hback⟩
      · rename_i hsearch
        exact absurd hsearch (DepthFirst.search_ne_deep (range_closed hexist) length_range.le)

end LibreServ.BuildGraph.Graph
