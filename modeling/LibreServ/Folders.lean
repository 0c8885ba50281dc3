import Mathlib

/-! Folders as trees: files with a content, and folders in folders. -/

inductive Folder (ν γ : Type) where
  | nil
  | file (name : ν) (content : γ) (rest : Folder ν γ)
  | folder (name : ν) (inside rest : Folder ν γ)
  deriving DecidableEq

namespace Folder

open List

variable {ν γ : Type} {f : Folder ν γ} {path : List ν}

/-- The files by their paths, of the folders below too. -/
def files : Folder ν γ → List (List ν × γ)
  | nil => []
  | file name content rest => ([name], content) :: rest.files
  | folder name inside rest => (inside.files.map fun r => (name :: r.1, r.2)) ++ rest.files

def names : Folder ν γ → List ν
  | nil => []
  | file name _ rest | folder name _ rest => name :: rest.names

/-- No name stands twice in one folder. -/
def Proper : Folder ν γ → Prop
  | nil => True
  | file name _ rest => name ∉ rest.names ∧ rest.Proper
  | folder name inside rest => name ∉ rest.names ∧ inside.Proper ∧ rest.Proper

/-- A folder that holds this one at a path, and nothing else. -/
def under : List ν → Folder ν γ → Folder ν γ
  | [], f => f
  | name :: path, f => folder name (under path f) nil

theorem files_under (path : List ν) (f : Folder ν γ) : (under path f).files = f.files.map fun r => (path ++ r.1, r.2) := by
  induction path with
  | nil => exact (map_id _).symm
  | cons name path ih =>
    show ((under path f).files.map fun r => (name :: r.1, r.2)) ++ [] = _
    rw [append_nil, ih, map_map]
    rfl

theorem name_of_mem_files {content : γ} (h : (path, content) ∈ f.files) :
    ∃ name tail, path = name :: tail ∧ name ∈ f.names := by
  induction f with
  | nil => cases h
  | file name content' rest ih =>
    rcases mem_cons.mp h with heq | h
    · cases heq
      exact ⟨name, [], rfl, mem_cons_self⟩
    · obtain ⟨name', tail, rfl, hmem⟩ := ih h
      exact ⟨name', tail, rfl, mem_cons_of_mem _ hmem⟩
  | folder name inside rest _ ih =>
    rcases mem_append.mp h with h | h
    · obtain ⟨r, -, heq⟩ := mem_map.mp h
      cases heq
      exact ⟨name, r.1, rfl, mem_cons_self⟩
    · obtain ⟨name', tail, rfl, hmem⟩ := ih h
      exact ⟨name', tail, rfl, mem_cons_of_mem _ hmem⟩

/-- A path has one content. -/
theorem Proper.content_unique (hf : f.Proper) {c c' : γ} (h : (path, c) ∈ f.files)
    (h' : (path, c') ∈ f.files) : c = c' := by
  induction f generalizing path with
  | nil => cases h
  | file name content rest ih =>
    obtain ⟨hnot, hrest⟩ := hf
    have hout : ∀ {d}, ([name], d) ∉ rest.files := by
      intro d hd
      obtain ⟨name', tail, heq, hmem⟩ := name_of_mem_files hd
      cases heq
      exact hnot hmem
    rcases mem_cons.mp h with heq | hr
    · cases heq
      rcases mem_cons.mp h' with heq | hr'
      · cases heq
        rfl
      · exact absurd hr' hout
    · rcases mem_cons.mp h' with heq | hr'
      · cases heq
        exact absurd hr hout
      · exact ih hrest hr hr'
  | folder name inside rest ihin ih =>
    obtain ⟨hnot, hin, hrest⟩ := hf
    have hout : ∀ {tail d}, (name :: tail, d) ∉ rest.files := by
      intro tail d hd
      obtain ⟨name', tail', heq, hmem⟩ := name_of_mem_files hd
      cases heq
      exact hnot hmem
    rcases mem_append.mp h with h | h
    · obtain ⟨r, hr, heq⟩ := mem_map.mp h
      cases heq
      rcases mem_append.mp h' with h' | h'
      · obtain ⟨r', hr', heq⟩ := mem_map.mp h'
        obtain ⟨hpath, hcontent⟩ := Prod.mk.inj heq
        have htail : r'.1 = r.1 := (cons.inj hpath).2
        have hsame : (r.1, c') ∈ inside.files := by
          rw [← htail, ← hcontent]
          exact hr'
        exact ihin hin hr hsame
      · exact absurd h' hout
    · rcases mem_append.mp h' with h' | h'
      · obtain ⟨r, -, heq⟩ := mem_map.mp h'
        cases heq
        exact absurd h hout
      · exact ih hrest h h'

theorem exists_bound (l : List (List ν × γ)) : ∃ bound, ∀ r ∈ l, r.1.length ≤ bound := by
  induction l with
  | nil => exact ⟨0, fun r hr => nomatch hr⟩
  | cons r rest ih =>
    obtain ⟨bound, hbound⟩ := ih
    refine ⟨bound + r.1.length, fun r' hr' => ?_⟩
    rcases mem_cons.mp hr' with rfl | hr'
    · exact Nat.le_add_left ..
    · have := hbound r' hr'
      omega

/-- Files do not go on below themselves for ever. -/
theorem not_below_itself {l : List (List ν × γ)} (hpath : path ≠ []) (hl : l ≠ []) :
    ¬ ∀ r ∈ l, ∃ r' ∈ l, r'.1 = path ++ r.1 := by
  intro h
  obtain ⟨bound, hbound⟩ := exists_bound l
  have hpos : 0 < path.length := length_pos_of_ne_nil hpath
  have hlong : ∀ n, ∃ r ∈ l, n ≤ r.1.length := by
    intro n
    induction n with
    | zero =>
      obtain ⟨r, hr⟩ := exists_mem_of_ne_nil l hl
      exact ⟨r, hr, Nat.zero_le _⟩
    | succ n ih =>
      obtain ⟨r, hr, hn⟩ := ih
      obtain ⟨r', hr', heq⟩ := h r hr
      refine ⟨r', hr', ?_⟩
      rw [heq, length_append]
      omega
  obtain ⟨r, hr, hn⟩ := hlong (bound + 1)
  have := hbound r hr
  omega

variable [DecidableEq ν]

/-- The folder of this name. -/
def inner? (name : ν) : Folder ν γ → Option (Folder ν γ)
  | nil => none
  | file _ _ rest => rest.inner? name
  | folder name' inside rest => if name' = name then some inside else rest.inner? name

/-- The folder at a path. -/
def sub : List ν → Folder ν γ → Option (Folder ν γ)
  | [], f => some f
  | name :: path, f => (f.inner? name).bind (sub path)

theorem mem_files_of_inner {inside : Folder ν γ} {name : ν} (h : f.inner? name = some inside) {r : List ν × γ}
    (hr : r ∈ inside.files) : (name :: r.1, r.2) ∈ f.files := by
  induction f with
  | nil => cases h
  | file name' content rest ih => exact mem_cons_of_mem _ (ih h)
  | folder name' inside' rest _ ih =>
    rw [inner?] at h
    split at h
    · next heq =>
        cases h
        subst heq
        exact mem_append_left _ (mem_map_of_mem hr)
    · exact mem_append_right _ (ih h)

theorem mem_files_of_sub {g : Folder ν γ} (h : f.sub path = some g) {r : List ν × γ} (hr : r ∈ g.files) :
    (path ++ r.1, r.2) ∈ f.files := by
  induction path generalizing f with
  | nil =>
    cases h
    exact hr
  | cons name path ih =>
    obtain ⟨inside, hinner, hsub⟩ := Option.bind_eq_some_iff.mp h
    exact mem_files_of_inner hinner (ih hsub)

theorem sub_cons_under (name : ν) (path path' : List ν) (f : Folder ν γ) :
    (under (name :: path) f).sub (name :: path') = (under path f).sub path' := by
  simp [under, sub, inner?]

theorem sub_append_under (path tail : List ν) (f : Folder ν γ) : (under path f).sub (path ++ tail) = f.sub tail := by
  induction path with
  | nil => rfl
  | cons name path ih => exact (sub_cons_under ..).trans ih

/-- A folder of the holding folder lies above the one it holds, or in it. -/
theorem sub_under {path' : List ν} {g : Folder ν γ} (h : (under path f).sub path' = some g) :
    (∃ tail, path = path' ++ tail ∧ g = under tail f) ∨ ∃ tail, path' = path ++ tail ∧ f.sub tail = some g := by
  induction path generalizing path' with
  | nil => exact .inr ⟨path', rfl, h⟩
  | cons name path ih =>
    cases path' with
    | nil =>
      cases h
      exact .inl ⟨name :: path, rfl, rfl⟩
    | cons name' path' =>
      by_cases heq : name = name'
      · subst heq
        rw [sub_cons_under] at h
        rcases ih h with ⟨tail, rfl, hg⟩ | ⟨tail, rfl, hg⟩
        · exact .inl ⟨tail, rfl, hg⟩
        · exact .inr ⟨tail, rfl, hg⟩
      · simp [under, sub, inner?, heq] at h

end Folder
