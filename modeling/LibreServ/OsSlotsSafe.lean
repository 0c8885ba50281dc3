import LibreServ.OsSlots

/-! An update can be undone, as long as a slot is only armed under a try count, or for an image that was confirmed
before, and no image is written over the one the box would have to go back to. -/

namespace LibreServ.OsSlots

open List Option

variable {phase : Phase}

/-- What the slot of an update holds, by how far the update has come. -/
def Phase.Holds {Image : Type} (c : Content Image) (image : Image) : Phase → Prop
  | .writing => c.image = image ∧ c.mixed = false
  | .written => c.image = image ∧ c.whole = true
  | .checked => c.image = image ∧ c.whole = true ∧ c.checked = true
  | .identified => c.image = image ∧ c.whole = true ∧ c.checked = true ∧ c.pinned = true
  | _ => True

/-- The image that runs has answered. -/
def BootOk.answers : BootOk → Bool
  | .waiting | .ended => false
  | _ => true

namespace State

variable {Image : Type} {st st' : State Image} {s running : Slot} {c : Content Image}

/-- The slot holds an image that `luna-boot-ok` has confirmed, or the factory's. -/
def Confirmed (st : State Image) (s : Slot) : Prop := (st.slots s).whole = true ∧ (st.slots s).image ∈ st.confirmed

def Complete (st : State Image) (s : Slot) : Prop := (st.slots s).whole = true ∧ (st.slots s).checked = true

structure Safe (st : State Image) : Prop where
  undoable : ∃ s, st.Confirmed s
  good : st.env.luna_boot_ok = true → st.Confirmed st.env.luna_slot
  tried : st.env.luna_boot_ok = false → st.Complete st.env.luna_slot

/-- An image is only written while the box runs from the slot that the boot loader would start, with a confirmed image
on it, and while no other `apply` is between its write and its `arm`. A slot is armed under a try count, or with an
image that was confirmed before. `luna-boot-ok` calls the boot good only while `luna_slot` names a slot with a
confirmed image, and when the tries are used up the other slot has one. -/
def Careful (st : State Image) : Action Image → Prop
  | .advance k => ∀ u ∈ st.updaters[k]?,
      (u.phase = .downloaded → st.running = some st.env.luna_slot ∧ st.Confirmed st.env.luna_slot ∧
        ∀ v ∈ st.updaters, v.phase.atWork = false) ∧
      (u.phase = .identified → st.env.luna_boot_ok = true → u.image ∈ st.confirmed)
  | .record done => st.bootOk = .slotRecorded → done = true → st.Confirmed st.env.luna_slot
  | .start _ _ => st.env.luna_boot_ok = false → st.env.luna_tries = 0 → st.Confirmed st.env.luna_slot.other
  | _ => True

instance [DecidableEq Image] (st : State Image) (s : Slot) : Decidable (st.Confirmed s) :=
  inferInstanceAs (Decidable (_ ∧ _))

instance [DecidableEq Image] (st : State Image) (s : Slot) : Decidable (st.Complete s) :=
  inferInstanceAs (Decidable (_ ∧ _))

instance [DecidableEq Image] (st : State Image) : ∀ a, Decidable (st.Careful a)
  | .advance k => inferInstanceAs (Decidable (∀ u ∈ st.updaters[k]?, _ ∧ _))
  | .record _ => inferInstanceAs (Decidable (_ → _ → _))
  | .start _ _ => inferInstanceAs (Decidable (_ → _ → _))
  | .cut | .check .. | .settle_os_boot .. | .clear_os_failed | .apply _ | .giveUp _ => .isTrue trivial

/-! ### The invariant -/

structure Inv (st : State Image) : Prop where
  undoable : ∃ s, st.Confirmed s
  good : st.env.luna_boot_ok = true → st.Confirmed st.env.luna_slot
  /-- Also between the first and the second write of `arm`. -/
  tried : st.env.luna_boot_ok = false ∨ (∃ u ∈ st.updaters, u.phase = .slotArmed) → st.Complete st.env.luna_slot
  pinned : ∀ s, (st.slots s).pinned = true → st.Complete s
  running : ∀ s ∈ st.running, (st.slots s).pinned = true
  off : st.running = none → st.updaters = []
  spare : ∀ s ∈ st.running, ∀ u ∈ st.updaters, u.inactive = s.other
  holds : ∀ u ∈ st.updaters, u.phase.Holds (st.slots u.inactive) u.image
  alone : ∀ (i j : Nat) (u v : Updater Image), st.updaters[i]? = some u → st.updaters[j]? = some v → u.phase.atWork = true →
    v.phase.atWork = true → i = j
  answered : ∀ s ∈ st.running, BootOk.answers st.bootOk = true → (st.slots s).image ∈ st.confirmed

theorem Inv.safe (h : st.Inv) : st.Safe := ⟨h.undoable, h.good, fun hok => h.tried (.inl hok)⟩

theorem inv_install (factory : Image) : (install factory).Inv where
  undoable := ⟨.A, rfl, mem_singleton_self factory⟩
  good _ := ⟨rfl, mem_singleton_self factory⟩
  tried _ := ⟨rfl, rfl⟩
  pinned _ _ := ⟨rfl, rfl⟩
  running _ h := (nomatch h)
  off _ := rfl
  spare _ h := (nomatch h)
  holds _ h := (nomatch h)
  alone _ _ _ _ h := (nomatch h)
  answered _ h := (nomatch h)

/-- The image that runs and has answered is a confirmed one. -/
theorem Inv.confirmed_running (h : st.Inv) (hr : st.running = some running) (ha : BootOk.answers st.bootOk = true) :
    st.Confirmed running :=
  ⟨(h.pinned running (h.running running hr)).1, h.answered running hr ha⟩

theorem Phase.holds_of_idle {image : Image} (h : phase.atWork = false) :
    phase.Holds c image := by
  cases phase <;> first | exact trivial | cases h

/-- A content that has only gained since. -/
structure Grows (c c' : Content Image) : Prop where
  image : c'.image = c.image
  mixed : c'.mixed = c.mixed
  whole : c.whole = true → c'.whole = true
  checked : c.checked = true → c'.checked = true
  pinned : c.pinned = true → c'.pinned = true
  ready : c'.pinned = true → c'.whole = true ∧ c'.checked = true

theorem Grows.holds {c' : Content Image} (h : Grows c c') {image : Image}
    (hh : phase.Holds c image) : phase.Holds c' image := by
  cases phase with
  | writing => exact ⟨h.image.trans hh.1, h.mixed.trans hh.2⟩
  | written => exact ⟨h.image.trans hh.1, h.whole hh.2⟩
  | checked => exact ⟨h.image.trans hh.1, h.whole hh.2.1, h.checked hh.2.2⟩
  | identified => exact ⟨h.image.trans hh.1, h.whole hh.2.1, h.checked hh.2.2.1, h.pinned hh.2.2.2⟩
  | downloaded | slotArmed | okArmed | armed | ended => exact trivial

section Contents

variable {slot : Slot} {f : Content Image → Content Image}

theorem slots_setContent (s : Slot) :
    (st.setContent slot f).slots s = if s = slot then f (st.slots slot) else st.slots s := by
  simp only [setContent, Function.update_apply]

variable (h : st.Inv)

include h

theorem Grows.refl_of_inv (s : Slot) : Grows (st.slots s) (st.slots s) :=
  ⟨rfl, rfl, id, id, id, h.pinned s⟩

/-- Every slot of a state in which one content has gained has gained. -/
theorem grows_setContent (hf : Grows (st.slots slot) (f (st.slots slot))) (s : Slot) :
    Grows (st.slots s) ((st.setContent slot f).slots s) := by
  rw [slots_setContent]
  split
  · next heq => exact heq ▸ hf
  · exact Grows.refl_of_inv h s

theorem Inv.grow (f : Content Image → Content Image) (hf : Grows (st.slots slot) (f (st.slots slot))) :
    (st.setContent slot f).Inv := by
  have hgrows := grows_setContent h hf
  have hconf : ∀ s, st.Confirmed s → (st.setContent slot f).Confirmed s := by
    intro s hs
    exact ⟨(hgrows s).whole hs.1, (hgrows s).image ▸ hs.2⟩
  refine ⟨h.undoable.imp hconf, fun hok => hconf _ (h.good hok), ?_, fun s => (hgrows s).ready, ?_, h.off, h.spare, ?_,
    h.alone, ?_⟩
  · intro ht
    have hcomplete := h.tried ht
    exact ⟨(hgrows _).whole hcomplete.1, (hgrows _).checked hcomplete.2⟩
  · intro s hs
    exact (hgrows s).pinned (h.running s hs)
  · intro u hu
    exact (hgrows _).holds (h.holds u hu)
  · intro s hs ha
    rw [(hgrows s).image]
    exact h.answered s hs ha

/-- The write of an image begins, with nobody else at work and a confirmed image on the slot that runs. -/
theorem Inv.begin (hr : st.running = some st.env.luna_slot)
    (hc : st.Confirmed st.env.luna_slot) (hidle : ∀ v ∈ st.updaters, v.phase.atWork = false) (hpin : c.pinned = false) :
    (st.setContent st.env.luna_slot.other fun _ => c).Inv := by
  have hsame : (st.setContent st.env.luna_slot.other fun _ => c).slots st.env.luna_slot = st.slots st.env.luna_slot := by
    rw [slots_setContent, if_neg (Slot.other_ne _).symm]
  have hconf : (st.setContent st.env.luna_slot.other fun _ => c).Confirmed st.env.luna_slot := by
    unfold Confirmed
    rw [hsame]
    exact hc
  refine ⟨⟨_, hconf⟩, fun _ => hconf, ?_, ?_, ?_, h.off, h.spare, ?_, h.alone, ?_⟩
  · intro _
    have hcomplete : (st.setContent st.env.luna_slot.other fun _ => c).Complete st.env.luna_slot := by
      unfold Complete
      rw [hsame]
      exact h.pinned _ (h.running _ hr)
    exact hcomplete
  · intro s hs
    rw [slots_setContent] at hs
    split at hs
    · rw [hpin] at hs
      cases hs
    · next hne =>
        have hcomplete := h.pinned s hs
        unfold Complete
        rw [slots_setContent, if_neg hne]
        exact hcomplete
  · intro s hs
    obtain rfl : st.env.luna_slot = s := some.inj (hr.symm.trans hs)
    rw [hsame]
    exact h.running _ hr
  · intro u hu
    exact Phase.holds_of_idle (hidle u hu)
  · intro s hs ha
    obtain rfl : st.env.luna_slot = s := some.inj (hr.symm.trans hs)
    rw [hsame]
    exact h.answered _ hr ha

end Contents

/-! ### The steps -/

/-- An updater goes on to `phase`, of which its slot holds what it should. -/
theorem Inv.setPhase (h : st.Inv) {k : Nat} {u : Updater Image} (hu : st.updaters[k]? = some u)
    (hholds : phase.Holds (st.slots u.inactive) u.image)
    (halone : phase.atWork = true → u.phase.atWork = true ∨ ∀ v ∈ st.updaters, v.phase.atWork = false)
    (htried : phase = .slotArmed → st.Complete st.env.luna_slot) : (st.setPhase k u phase).Inv := by
  have hmem : ∀ v ∈ (st.setPhase k u phase).updaters, v = { u with phase := phase } ∨ v ∈ st.updaters := by
    intro v hv
    exact (mem_or_eq_of_mem_set hv).symm
  have hu' : u ∈ st.updaters := mem_of_getElem? hu
  refine ⟨h.undoable, h.good, ?_, h.pinned, h.running, ?_, ?_, ?_, ?_, h.answered⟩
  · rintro (hok | ⟨v, hv, hphase⟩)
    · exact h.tried (Or.inl hok)
    · rcases hmem v hv with rfl | hv
      · exact htried hphase
      · exact h.tried (Or.inr ⟨v, hv, hphase⟩)
  · intro hoff
    rw [h.off hoff] at hu'
    cases hu'
  · intro s hs v hv
    rcases hmem v hv with rfl | hv
    · exact h.spare s hs u hu'
    · exact h.spare s hs v hv
  · intro v hv
    rcases hmem v hv with rfl | hv
    · exact hholds
    · exact h.holds v hv
  · -- an updater at work here was at work before, or nobody was
    have hold : ∀ (i : Nat) (v : Updater Image), (st.setPhase k u phase).updaters[i]? = some v → v.phase.atWork = true →
        i = k ∨ st.updaters[i]? = some v := by
      intro i v hv _
      by_cases hik : i = k
      · exact Or.inl hik
      · right
        rwa [State.setPhase, getElem?_set_ne (Ne.symm hik)] at hv
    have hself : ∀ v : Updater Image, (st.setPhase k u phase).updaters[k]? = some v → v.phase.atWork = true →
        ∀ (j : Nat) (w : Updater Image), st.updaters[j]? = some w → w.phase.atWork = true → k = j := by
      intro v hv hwork j w hw hwork'
      have hlt : k < st.updaters.length := (List.getElem?_eq_some_iff.mp hu).1
      rw [State.setPhase, getElem?_set_self hlt] at hv
      cases hv
      rcases halone hwork with hbefore | hidle
      · exact h.alone k j u w hu hw hbefore hwork'
      · rw [hidle w (mem_of_getElem? hw)] at hwork'
        cases hwork'
    intro i j v w hv hw hwork hwork'
    rcases hold i v hv hwork with rfl | hi <;> rcases hold j w hw hwork' with rfl | hj
    · rfl
    · exact hself v hv hwork j w hj hwork'
    · exact (hself w hw hwork' i v hi hwork).symm
    · exact h.alone i j v w hi hj hwork hwork'

/-- Another environment of the boot loader, that names a slot as it may. -/
theorem Inv.setEnv (h : st.Inv) (env : GrubEnv) (hgood : env.luna_boot_ok = true → st.Confirmed env.luna_slot)
    (htried : env.luna_boot_ok = false ∨ (∃ u ∈ st.updaters, u.phase = .slotArmed) → st.Complete env.luna_slot) :
    ({ st with env := env }).Inv :=
  ⟨h.undoable, hgood, htried, h.pinned, h.running, h.off, h.spare, h.holds, h.alone, h.answered⟩

theorem Inv.cut (h : st.Inv) : st.cut.Inv where
  undoable := h.undoable
  good := h.good
  tried ht := h.tried (ht.imp_right fun ⟨_, hu, _⟩ => (nomatch hu))
  pinned := h.pinned
  running _ hs := (nomatch hs)
  off _ := rfl
  spare _ hs := (nomatch hs)
  holds _ hu := (nomatch hu)
  alone _ _ _ _ hu := (nomatch hu)
  answered _ hs := (nomatch hs)

/-- The boot menu leaves the slot and whether its boot was good alone, unless the tries are used up. -/
theorem countDown_cases (env : GrubEnv) :
    (env.countDown.luna_slot = env.luna_slot ∧ env.countDown.luna_boot_ok = env.luna_boot_ok) ∨
      (env.luna_boot_ok = false ∧ env.luna_tries = 0 ∧ env.countDown = ⟨env.luna_slot.other, true, 3⟩) := by
  unfold GrubEnv.countDown
  cases hok : env.luna_boot_ok with
  | true => exact .inl ⟨rfl, hok⟩
  | false =>
    match htries : env.luna_tries with
    | 0 => exact .inr ⟨rfl, rfl, rfl⟩
    | 1 => exact .inl ⟨rfl, rfl⟩
    | 2 => exact .inl ⟨rfl, rfl⟩
    | n + 3 => exact .inl ⟨rfl, rfl⟩

theorem Inv.start (h : st.Inv) (hoff : st.running = none) {first other : Bool}
    (hcareful : st.Careful (.start first other)) : (st.start first other).Inv := by
  have hidle := h.off hoff
  have hgood : st.env.countDown.luna_boot_ok = true → st.Confirmed st.env.countDown.luna_slot := by
    intro hok
    rcases countDown_cases st.env with ⟨hslot, hsame⟩ | ⟨hfalse, htries, heq⟩
    · rw [hslot]
      exact h.good (hsame ▸ hok)
    · rw [heq]
      exact hcareful hfalse htries
  have htried : st.env.countDown.luna_boot_ok = false → st.Complete st.env.countDown.luna_slot := by
    intro hok
    rcases countDown_cases st.env with ⟨hslot, hsame⟩ | ⟨hfalse, htries, heq⟩
    · rw [hslot]
      exact h.tried (.inl (hsame ▸ hok))
    · rw [heq] at hok
      cases hok
  refine ⟨h.undoable, hgood, ?_, h.pinned, ?_, ?_, ?_, ?_, ?_, ?_⟩
  · rintro (hok | ⟨u, hu, -⟩)
    · exact htried hok
    · change u ∈ st.updaters at hu
      rw [hidle] at hu
      cases hu
  · intro s hs
    simp only [State.start] at hs
    split at hs
    · next hfirst =>
        cases hs
        exact (Bool.and_eq_true_iff.mp hfirst).2
    · split at hs
      · next hother =>
          cases hs
          exact (Bool.and_eq_true_iff.mp hother).2
      · cases hs
  · exact fun _ => hidle
  · intro s hs u hu
    change u ∈ st.updaters at hu
    rw [hidle] at hu
    cases hu
  · intro u hu
    change u ∈ st.updaters at hu
    rw [hidle] at hu
    cases hu
  · intro i j u v hu
    change st.updaters[i]? = some u at hu
    rw [hidle] at hu
    cases hu
  · intro s hs ha
    cases ha

theorem Inv.check (h : st.Inv) (hr : st.running = some running) {up mounted : Bool} :
    (st.check running up mounted).Inv := by
  unfold State.check
  split
  · have hconf : ∀ s, st.Confirmed s → State.Confirmed { st with confirmed := (st.slots running).image :: st.confirmed } s :=
      fun s hs => ⟨hs.1, mem_cons_of_mem _ hs.2⟩
    refine ⟨h.undoable.imp hconf, fun hok => hconf _ (h.good hok), h.tried, h.pinned, h.running, h.off, h.spare, h.holds,
      h.alone, ?_⟩
    intro s hs _
    obtain rfl : running = s := some.inj (hr.symm.trans hs)
    exact mem_cons_self
  · split
    · exact h.cut
    · exact ⟨h.undoable, h.good, h.tried, h.pinned, h.running, h.off, h.spare, h.holds, h.alone, fun _ _ ha => nomatch ha⟩

/-- `luna-boot-ok` goes on, and nothing but its place in the script changes. -/
theorem Inv.setBootOk (h : st.Inv) {bootOk : BootOk} {marker : Option Nat}
    (ha : BootOk.answers bootOk = true → BootOk.answers st.bootOk = true) :
    ({ st with bootOk := bootOk, marker := marker }).Inv :=
  ⟨h.undoable, h.good, h.tried, h.pinned, h.running, h.off, h.spare, h.holds, h.alone,
    fun s hs hb => h.answered s hs (ha hb)⟩

theorem Inv.record (h : st.Inv) (hr : st.running = some running) {done : Bool} (hcareful : st.Careful (.record done))
    (hs : st.record running done = some st') : st'.Inv := by
  unfold State.record at hs
  cases hphase : st.bootOk with
  | answered =>
    rw [hphase] at hs
    cases hs
    have hconf := h.confirmed_running hr (by rw [hphase]; rfl)
    have hcomplete := h.pinned running (h.running running hr)
    cases done with
    | false => exact h.setBootOk fun _ => by rw [hphase]; rfl
    | true =>
      exact (h.setEnv { st.env with luna_slot := running } (fun _ => hconf) fun _ => hcomplete).setBootOk
        fun _ => by rw [hphase]; rfl
  | slotRecorded =>
    rw [hphase] at hs
    cases hs
    cases done with
    | false => exact h.setBootOk fun _ => by rw [hphase]; rfl
    | true =>
      have htried : true = false ∨ (∃ u ∈ st.updaters, u.phase = .slotArmed) → st.Complete st.env.luna_slot := by
        rintro (hfalse | harmed)
        · cases hfalse
        · exact h.tried (.inr harmed)
      exact (h.setEnv { st.env with luna_boot_ok := true } (fun _ => hcareful hphase rfl) htried).setBootOk
        fun _ => by rw [hphase]; rfl
  | okRecorded saved =>
    rw [hphase] at hs
    cases hs
    cases done with
    | false => exact h.setBootOk fun _ => by rw [hphase]; rfl
    | true =>
      exact (h.setEnv { st.env with luna_tries := 3 } h.good h.tried).setBootOk fun _ => by rw [hphase]; rfl
  | triesRecorded saved =>
    rw [hphase] at hs
    cases hs
    exact h.setBootOk fun ha => nomatch ha
  | waiting | ended =>
    rw [hphase] at hs
    cases hs

/-- The files of lunad are nothing to the boot loader. -/
theorem Inv.setFiles (h : st.Inv) (files : OsFiles Image) : ({ st with files := files }).Inv :=
  ⟨h.undoable, h.good, h.tried, h.pinned, h.running, h.off, h.spare, h.holds, h.alone, h.answered⟩

variable [DecidableEq Image]

theorem Inv.apply (h : st.Inv) (hr : st.running = some running) (feed : Feed Image) : (st.apply running feed).Inv := by
  unfold State.apply
  cases hneeded : st.files.os_needed feed with
  | none => exact h
  | some image =>
    have hmem : ∀ u ∈ st.updaters ++ [(⟨image, feed.version, running.other, .downloaded⟩ : Updater Image)],
        u ∈ st.updaters ∨ u = ⟨image, feed.version, running.other, .downloaded⟩ := by
      intro u hu
      rw [mem_append, mem_singleton] at hu
      exact hu
    refine ⟨h.undoable, h.good, ?_, h.pinned, h.running, ?_, ?_, ?_, ?_, h.answered⟩
    · rintro (hok | ⟨u, hu, hphase⟩)
      · exact h.tried (.inl hok)
      · rcases hmem u hu with hu | rfl
        · exact h.tried (.inr ⟨u, hu, hphase⟩)
        · cases hphase
    · intro hoff
      cases hr.symm.trans hoff
    · intro s hs u hu
      rcases hmem u hu with hu | rfl
      · exact h.spare s hs u hu
      · obtain rfl : running = s := some.inj (hr.symm.trans hs)
        rfl
    · intro u hu
      rcases hmem u hu with hu | rfl
      · exact h.holds u hu
      · exact trivial
    · intro i j u v hu hv hwork hwork'
      have hold : ∀ (i : Nat) (u : Updater Image),
          (st.updaters ++ [(⟨image, feed.version, running.other, .downloaded⟩ : Updater Image)])[i]? = some u →
          u.phase.atWork = true → st.updaters[i]? = some u := by
        intro i u hu hwork
        rcases Nat.lt_or_ge i st.updaters.length with hlt | hge
        · rwa [getElem?_append_left hlt] at hu
        · rw [getElem?_append_right hge] at hu
          have hlast := mem_singleton.mp (mem_of_getElem? hu)
          subst hlast
          cases hwork
      exact h.alone i j u v (hold i u hu hwork) (hold j v hv hwork') hwork hwork'

theorem Inv.advance (h : st.Inv) (hr : st.running = some running) {k : Nat} {u : Updater Image}
    (hu : st.updaters[k]? = some u) (hcareful : st.Careful (.advance k)) (hs : st.advance running k u = some st') :
    st'.Inv := by
  have hmem : u ∈ st.updaters := mem_of_getElem? hu
  have hspare : u.inactive = running.other := h.spare running hr u hmem
  have hholds := h.holds u hmem
  have hrunning : st.Complete running := h.pinned running (h.running running hr)
  obtain ⟨hbegin, harm⟩ := hcareful u hu
  have hwork {phase : Phase} (hp : u.phase = phase) (hatWork : phase.atWork = true) {next : Phase} :
      next.atWork = true → u.phase.atWork = true ∨ ∀ v ∈ st.updaters, v.phase.atWork = false :=
    fun _ => .inl (hp ▸ hatWork)
  unfold State.advance at hs
  cases hphase : u.phase with
  | downloaded =>
    rw [hphase] at hs
    cases hs
    obtain ⟨hon, hconf, hidle⟩ := hbegin hphase
    obtain rfl : running = st.env.luna_slot := some.inj (hr.symm.trans hon)
    rw [hspare]
    have hmixes : st.mixes u.image st.env.luna_slot.other = false := by
      apply List.any_eq_false.mpr
      intro v hv
      have hidle' := hidle v hv
      simp only [decide_eq_true_eq, not_and]
      intro hwriting
      rw [hwriting] at hidle'
      cases hidle'
    refine (h.begin hon hconf hidle rfl).setPhase hu ?_ (fun _ => .inr hidle) (fun hp => nomatch hp)
    rw [slots_setContent, if_pos hspare]
    exact ⟨rfl, hmixes⟩
  | writing =>
    rw [hphase] at hs hholds
    cases hs
    obtain ⟨himage, hmixed⟩ := hholds
    have hwhole : (!(st.slots u.inactive).mixed) = true := by rw [hmixed]; rfl
    have hgrows : Grows (st.slots u.inactive) { st.slots u.inactive with whole := !(st.slots u.inactive).mixed } :=
      ⟨rfl, rfl, fun _ => hwhole, id, id, fun hp => ⟨hwhole, (h.pinned _ hp).2⟩⟩
    refine (h.grow (fun c => { c with whole := !c.mixed }) hgrows).setPhase hu ?_ (hwork hphase rfl) (fun hp => nomatch hp)
    rw [slots_setContent, if_pos rfl]
    exact ⟨himage, hwhole⟩
  | written =>
    rw [hphase] at hs hholds
    cases hs
    obtain ⟨himage, hwhole⟩ := hholds
    have hgrows : Grows (st.slots u.inactive) { st.slots u.inactive with checked := true } :=
      ⟨rfl, rfl, id, fun _ => rfl, id, fun _ => ⟨hwhole, rfl⟩⟩
    refine (h.grow (fun c => { c with checked := true }) hgrows).setPhase hu ?_ (hwork hphase rfl) (fun hp => nomatch hp)
    rw [slots_setContent, if_pos rfl]
    exact ⟨himage, hwhole, rfl⟩
  | checked =>
    rw [hphase] at hs hholds
    cases hs
    obtain ⟨himage, hwhole, hchecked⟩ := hholds
    have hgrows : Grows (st.slots u.inactive) { st.slots u.inactive with pinned := true } :=
      ⟨rfl, rfl, id, id, fun _ => rfl, fun _ => ⟨hwhole, hchecked⟩⟩
    refine (h.grow (fun c => { c with pinned := true }) hgrows).setPhase hu ?_ (hwork hphase rfl) (fun hp => nomatch hp)
    rw [slots_setContent, if_pos rfl]
    exact ⟨himage, hwhole, hchecked, rfl⟩
  | identified =>
    rw [hphase] at hs hholds
    cases hs
    obtain ⟨himage, hwhole, hchecked, -⟩ := hholds
    have hgood : st.env.luna_boot_ok = true → st.Confirmed u.inactive := fun hok => ⟨hwhole, himage ▸ harm hphase hok⟩
    refine (h.setEnv { st.env with luna_slot := u.inactive } hgood fun _ => ⟨hwhole, hchecked⟩).setPhase hu trivial ?_ ?_
    · exact fun hp => nomatch hp
    · exact fun _ => ⟨hwhole, hchecked⟩
  | slotArmed =>
    rw [hphase] at hs
    cases hs
    have hcomplete := h.tried (.inr ⟨u, hmem, hphase⟩)
    have hgood : false = true → st.Confirmed st.env.luna_slot := fun hfalse => nomatch hfalse
    exact (h.setEnv { st.env with luna_boot_ok := false } hgood fun _ => hcomplete).setPhase hu trivial
      (fun hp => nomatch hp) (fun hp => nomatch hp)
  | okArmed =>
    rw [hphase] at hs
    cases hs
    exact (h.setEnv { st.env with luna_tries := 3 } h.good h.tried).setPhase hu trivial (fun hp => nomatch hp)
      (fun hp => nomatch hp)
  | armed =>
    rw [hphase] at hs
    cases hs
    exact (h.setFiles _).setPhase hu trivial (fun hp => nomatch hp) (fun hp => nomatch hp)
  | ended =>
    rw [hphase] at hs
    cases hs

/-- The step lemma. -/
theorem Inv.step (h : st.Inv) {a : Action Image} (hcareful : st.Careful a) (hs : st.step a = some st') : st'.Inv := by
  cases a with
  | cut =>
    cases hs
    exact h.cut
  | start first other =>
    obtain ⟨hoff, heq⟩ := ite_none_right_eq_some.mp hs
    cases heq
    exact h.start hoff hcareful
  | check up mounted =>
    obtain ⟨running, hr, rfl⟩ := map_eq_some_iff.mp (ite_none_right_eq_some.mp hs).2
    exact h.check hr
  | record done =>
    obtain ⟨running, hr, hs⟩ := bind_eq_some_iff.mp hs
    exact h.record hr hcareful hs
  | settle_os_boot writes unfails unpends | clear_os_failed =>
    obtain ⟨running, -, rfl⟩ := map_eq_some_iff.mp hs
    exact h.setFiles _
  | apply feed =>
    obtain ⟨running, hr, rfl⟩ := map_eq_some_iff.mp hs
    exact h.apply hr feed
  | advance k =>
    obtain ⟨running, hr, hs⟩ := bind_eq_some_iff.mp hs
    obtain ⟨u, hu, hs⟩ := bind_eq_some_iff.mp hs
    exact h.advance hr hu hcareful hs
  | giveUp k =>
    obtain ⟨u, hu, rfl⟩ := map_eq_some_iff.mp hs
    exact h.setPhase hu trivial (fun hp => nomatch hp) (fun hp => nomatch hp)

/-- In every state that careful steps reach from the factory's, an update can be undone. -/
theorem safe_of_careful (factory : Image) (acts : List (Action Image)) (st : State Image)
    (hrun : Runs.run State.step acts (install factory) = some st)
    (hcareful : Runs.Meets State.step Careful acts (install factory)) : st.Safe :=
  (Runs.keeps (fun _ _ _ hinv hc hs => Inv.step hinv hc hs) (inv_install factory) hcareful hrun).safe

/-- Image 2 is on slot B, but was not armed. Slot A does not load once, so the boot loader starts B, and `luna-boot-ok`
confirms it. From there the next `apply` writes image 2 to slot A and arms it. -/
def carefulRun : List (Action Nat) :=
  [.start true true, .check true true, .record true, .record true, .record true, .record true,
    .apply ⟨"2", false, some 2⟩, .advance 0, .advance 0, .advance 0, .advance 0, .giveUp 0, .cut,
    .start false true, .check true true, .record true, .record true, .record true, .record true,
    .apply ⟨"2", false, some 2⟩, .advance 0, .advance 0, .advance 0, .advance 0, .advance 0, .advance 0, .advance 0,
    .advance 0, .cut, .start true true, .check true true, .record true, .record true, .record true, .record true,
    .settle_os_boot true true true]

theorem careful_update_safe : ∃ st, Runs.run State.step carefulRun (install 1) = some st ∧ st.Safe ∧
    st.running = some .A ∧ (st.slots .A).image = 2 ∧ st.files = ⟨some 2, none, none⟩ := by
  have hrun : ∃ st, Runs.run State.step carefulRun (install 1) = some st ∧ st.running = some .A ∧
      (st.slots .A).image = 2 ∧ st.files = ⟨some 2, none, none⟩ := ⟨_, rfl, by decide +kernel⟩
  obtain ⟨st, hst, hon, himage, hfiles⟩ := hrun
  exact ⟨st, hst, safe_of_careful 1 carefulRun st hst (by decide +kernel), hon, himage, hfiles⟩

/-- An ordinary update, cut after the first of the three writes of `arm`. -/
def cutArm : List (Action Nat) :=
  [.start true true, .check true true, .record true, .record true, .record true, .record true,
    .apply ⟨"2", false, some 2⟩, .advance 0, .advance 0, .advance 0, .advance 0, .advance 0, .cut]

/-- The slot that was never tried counts as good, and the next start boots it without a try count. -/
theorem cut_arm_unsafe :
    (∃ st, Runs.run State.step cutArm (install 1) = some st ∧ ¬ st.Safe ∧ st.env = ⟨.B, true, 3⟩) ∧
    ∃ st, Runs.run State.step (cutArm ++ [.start true true]) (install 1) = some st ∧ st.running = some .B ∧
      st.env = ⟨.B, true, 3⟩ ∧ (st.slots .B).image = 2 ∧ 2 ∉ st.confirmed := by
  constructor
  · refine ⟨_, rfl, ?_, by decide +kernel⟩
    intro hsafe
    have hgood := hsafe.good (by decide +kernel)
    revert hgood
    decide +kernel
  · exact ⟨_, rfl, by decide +kernel⟩

end State

end LibreServ.OsSlots
