import LibreServ.DriveSync
import LibreServ.SyncKeeps

/-! The names of a plan are different names on the target. -/

namespace LibreServ.DriveBackup

open Files (Text split join)
open FileTree List

variable {k : Target}

/-- The first free name, seen through a map that decides what is free. -/
theorem map_firstFree {α β : Type} (g : α → β) (taken : β → Bool) (name : Nat → α) (fuel n : Nat) :
    g (firstFree (fun a => taken (g a)) name fuel n) = firstFree taken (fun j => g (name j)) fuel n := by
  induction fuel generalizing n with
  | zero => rfl
  | succ fuel ih =>
    rw [firstFree, firstFree]
    split
    · exact ih (n + 1)
    · rfl

theorem candidate_injective (k : Target) (rel : Text) : Function.Injective fun n => k.nameKey (candidate rel n) := by
  intro m n h
  simp only [Target.nameKey] at h
  split at h
  · exact k.numbers _ _ m n h
  · have hdigits := append_cancel_right h
    have hcons := append_cancel_left hdigits
    exact Sync.toDigits_injective (cons.inj hcons).2

theorem freeAltName_free (rel : Text) (taken : List Text) : k.nameKey (freeAltName k rel taken) ∉ taken := by
  rw [freeAltName, map_firstFree k.nameKey fun key => decide (key ∈ taken)]
  have hused : ∀ key, decide (key ∈ taken) = true → key ∈ taken := fun key hkey => of_decide_eq_true hkey
  exact of_decide_eq_false (firstFree_free (candidate_injective k rel) hused 2)

/-- No two planned names are one name on the target, and none is taken already. -/
theorem planFrom_keys (taken : List Text) (entries : List Entry) :
    ((planFrom k taken entries).wanted.map fun w => k.nameKey w.1).Nodup ∧
      ∀ w ∈ (planFrom k taken entries).wanted, k.nameKey w.1 ∉ taken := by
  induction entries generalizing taken with
  | nil => simp [planFrom]
  | cons e rest ih =>
    -- A name with a fresh key, and after it names whose keys differ from it.
    have hstep : ∀ name, k.nameKey name ∉ taken →
        (((name, e) :: (planFrom k (k.nameKey name :: taken) rest).wanted).map fun w => k.nameKey w.1).Nodup ∧
          ∀ w ∈ (name, e) :: (planFrom k (k.nameKey name :: taken) rest).wanted, k.nameKey w.1 ∉ taken := by
      intro name hname
      obtain ⟨hnodup, hfresh⟩ := ih (k.nameKey name :: taken)
      refine ⟨nodup_cons.mpr ⟨fun hmem => ?_, hnodup⟩, fun w hw => ?_⟩
      · obtain ⟨w, hw, hkey⟩ := mem_map.mp hmem
        exact hfresh w hw (hkey ▸ mem_cons_self)
      · rcases mem_cons.mp hw with rfl | hw
        · exact hname
        · exact fun hmem => hfresh w hw (mem_cons_of_mem _ hmem)
    rw [planFrom]
    split
    · exact ih taken
    · split
      · rename_i hfree
        exact hstep e.rel hfree
      · exact hstep _ (freeAltName_free e.rel taken)

theorem split_injective : Function.Injective split := by
  intro a b h
  have hjoin := congrArg join h
  rwa [join, join, split, split, intercalate_splitOn, intercalate_splitOn] at hjoin

theorem place_eq_iff {rel rel' : Text} : k.place rel = k.place rel' ↔ k.nameKey rel = k.nameKey rel' := by
  constructor
  · intro h
    exact split_injective (reverse_injective h)
  · intro h
    rw [Target.place, h, Target.place]

theorem planNames_places (walked : List Entry) : ((planNames k walked).wanted.map fun w => k.place w.1).Nodup := by
  have hkeys := (planFrom_keys (k := k) [] (walked.insertionSort fun a b => a.rel ≤ b.rel)).1
  have hplaces := hkeys.map (f := fun key => (split key).reverse) fun a b h => split_injective (reverse_injective h)
  rwa [map_map] at hplaces

/-- What goes away has the place of no file that stays. -/
theorem place_of_deletion {p : Plan} {current : List Text} {rel : Text} (hrel : rel ∈ p.deletions k current)
    {w : Text × Entry} (hw : w ∈ p.wanted) : k.place rel ≠ k.place w.1 := by
  intro h
  have hkey := of_decide_eq_true (mem_filter.mp hrel).2
  refine hkey (mem_append_left _ ?_)
  rw [place_eq_iff.mp h]
  exact mem_map_of_mem hw

end LibreServ.DriveBackup
