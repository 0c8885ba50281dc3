import LibreServ.ReleaseCutSteps

/-! The check, the feed and the tag of a cut. -/

namespace LibreServ.Publish

open List Table Option
open Files (Text)

open Stoppable

variable {c : CutRun}

/-! ### The check -/

section Check

variable {t : Tools} {l : List Step}

theorem mem_outputFiles {d : Dir} {file : Text} {info : FileInfo} (h : d.output file = some info) :
    file ∈ d.outputFiles ∧ d.files.get? file = some info := by
  unfold Dir.output at h
  split at h
  · cases h
  · rename_i hname
    rw [not_or] at hname
    refine ⟨?_, h⟩
    rw [Dir.outputFiles, mem_mergeSort, mem_filter, decide_eq_true_iff]
    exact ⟨Table.mem_keys.mpr ⟨info, h⟩, hname⟩

/-- The file is in the directory as the registry holds it. -/
def Compared (w : World) (dir file : Text) : Prop :=
  ∃ d info, w.opened dir = some d ∧ d.files.get? file = some info ∧ w.registry.get? file = some info

theorem verifyFile_holds {P : CutRun → Prop} {w : World} (hP : Quiet t P) (hw : ∀ c, P c → c.world = w)
    (dir file : Text) : Holds (Left t) P (verifyFile dir file) fun _ c => Compared w dir file ∧ P c := by
  apply Holds.bind (hashFile_holds hP dir file)
  intro info
  apply Holds.before (P := fun c => (∃ d, w.opened dir = some d ∧ d.files.get? file = some info) ∧ P c)
  · apply Holds.fact
    rintro ⟨d, hd, hinfo⟩
    apply Holds.after (check_holds hP file info)
    rintro _ c ⟨hc, hheld⟩
    rw [hw c hc] at hheld
    exact ⟨⟨d, info, hd, hinfo, hheld⟩, hc⟩
  · rintro c ⟨hc, hd⟩
    rw [hw c hc] at hd
    exact ⟨hd, hc⟩

theorem stepVerify_early (cfg : Config) : Holds (Left t) (Early t l) (stepVerify t cfg) fun _ c =>
    Early t l c ∧ (c.world.opened c.st.outDir).isSome ∧ c.world.Matches c.st.outDir := by
  apply Holds.bind (outDir_early cfg)
  intro dir
  apply Holds.from_each
  rintro c ⟨⟨hc, hdir⟩, hopened⟩
  have hquiet : Quiet t fun c' => Early t l c' ∧ c'.world = c.world ∧ c'.st = c.st :=
    ⟨fun _ h => h.1.kept, fun c' rest hrest h => ⟨Early.robust.replies c' rest hrest h.1, h.2⟩⟩
  apply Holds.before (P := fun c' => Early t l c' ∧ c'.world = c.world ∧ c'.st = c.st)
  · apply Holds.bind (uploadList_holds hquiet)
    intro files
    obtain ⟨d, hd⟩ := isSome_iff_exists.mp hopened
    apply Holds.before (P := fun c' => files = d.outputFiles ++ [sumsName, sumsSigName] ∧
      Early t l c' ∧ c'.world = c.world ∧ c'.st = c.st)
    · apply Holds.fact
      intro hfiles
      apply Holds.after (Holds.forM files fun file _ => verifyFile_holds hquiet (fun _ h => h.2.1) dir file)
      rintro _ c' ⟨hall, hearly, hworld, hst⟩
      refine ⟨hearly, ?_⟩
      rw [hworld, hst, hdir]
      refine ⟨hopened, ?_⟩
      intro d' hd' file info hinfo
      obtain ⟨hmem, hget⟩ := mem_outputFiles hinfo
      rw [hd] at hd'
      obtain rfl := some.inj hd'
      obtain ⟨d₂, info', hd₂, hget', hheld⟩ := hall file (hfiles ▸ mem_append_left _ hmem)
      rw [hd] at hd₂
      obtain rfl := some.inj hd₂
      rw [hget] at hget'
      rw [some.inj hget']
      exact hheld
    · rintro c' ⟨⟨hearly, hworld, hst⟩, hlist⟩
      rw [hworld, hst, hdir] at hlist
      exact ⟨hlist d hd, hearly, hworld, hst⟩
  · intro c' heq
    rw [heq]
    exact ⟨hc, rfl, rfl⟩

end Check

/-! ### The feed -/

section FeedStep

variable {t : Tools} {l : List Step}

theorem Due.quiet : Quiet t (Due t l) where
  left _ h := h.kept
  replies _ _ hrest h :=
    ⟨h.kept, h.done, h.waiting, h.sha, h.own, h.dir,
      h.there.imp id fun hall reply hmem => hall reply (hrest hmem), h.fits⟩

/-- In the feed step, with the state's own directory. -/
def Feeding (t : Tools) (l : List Step) (c : CutRun) : Prop := Ready t l c.st.outDir c

theorem Feeding.robust : Robust t (Feeding t l) where
  left _ h := h.kept
  replies c rest hrest h := Ready.robust.replies c rest hrest h
  parts c parts api h := Ready.robust.parts c parts api h
  write c dir file info hfile h := Ready.robust.write c dir file info hfile h

theorem Feeding.sound (h : Feeding t l c) : Sound t c.world (stateName c.st.sha) c.st := by
  have hfeed : .feed ∉ c.st.done := h.done ▸ h.waiting.feed
  exact ⟨rfl, h.sha, fun hf => absurd hf hfeed, fun _ => h.done ▸ h.waiting.early, fun _ => h.dir,
    fun hf => absurd hf hfeed⟩

theorem Feeding.saved (h : Feeding t l c) : Feeding t l c.saved :=
  ⟨h.kept.save h.sound, h.done, h.waiting, h.sha, h.dir, h.fits⟩

theorem runBuild_due : Holds (Left t) (fun c => Due t l c ∧ c.world.opened c.st.outDir = none) runBuild (Ready t l) := by
  apply Holds.bind (R := fun reply c => Due t l c ∧ reply.Keeps c.world.registry c.st.outDir)
  · apply ask_holds fun c hc => hc.1.kept
    rintro c reply rest hreplies ⟨hc, hgone⟩
    have hmem : reply ∈ c.replies := by
      rw [hreplies]
      exact mem_cons_self
    refine ⟨Due.quiet.replies c rest ?_ hc, ?_⟩
    · rw [hreplies]
      exact subset_cons_self reply rest
    · rcases hc.there with hopened | hall
      · rw [hgone] at hopened
        cases hopened
      · exact hall reply hmem
  · intro reply
    cases reply with
    | built out dirs =>
      apply Holds.bind (R := fun _ c => Kept t c.world ∧ ∀ path, out = some path → Ready t l path c)
      · apply setWorld_holds
        rintro c ⟨h, hkeeps⟩
        have hmatches : ∀ path, (path = c.st.outDir ∨ out = some path) →
            World.Matches { c.world with dirs := dirs } path := by
          intro path hpath d hd
          unfold World.opened at hd
          split at hd
          · cases hd
          · exact hkeeps path d hpath hd
        have hkept : Kept t { c.world with dirs := dirs } := by
          refine h.kept.change rfl rfl h.kept.log (fun _ hchannel => hchannel) ?_
          intro path st hst hchecked _
          rw [h.own path st hst hchecked]
          exact hmatches _ (.inl rfl)
        exact ⟨hkept, fun path hpath => ⟨hkept, h.done, h.waiting, h.sha, hmatches path (.inr hpath), h.fits⟩⟩
      · intro _
        cases out with
        | none => exact Holds.throw fun c hc => hc.1
        | some path => exact Holds.pure fun c hc => hc.2 path rfl
    | _ => exact Holds.throw fun c hc => hc.1.kept

theorem outDir_due (cfg : Config) : Holds (Left t) (Due t l) (outDir t cfg) fun dir c =>
    (Feeding t l c ∧ c.st.outDir = dir) ∧ (c.world.opened dir).isSome := by
  have hquiet : Quiet t fun c => Due t l c ∧ c.world.opened c.st.outDir = none :=
    ⟨fun _ h => h.1.kept, fun c rest hrest h => ⟨Due.quiet.replies c rest hrest h.1, h.2⟩⟩
  apply outDir_holds cfg Feeding.robust
  · exact fun c h _ => ⟨h.kept, h.done, h.waiting, h.sha, h.dir, h.fits⟩
  · apply stepBuild_holds cfg hquiet (fun _ => Ready.robust) runBuild_due
    exact fun _ c h => ⟨h.kept, h.done, h.waiting, h.sha, h.dir, h.fits⟩
  · exact fun _ h _ => h.saved

/-- With the files the feed is made from. -/
structure Writing (t : Tools) (l : List Step) (files : Files) (c : CutRun) : Prop where
  ready : Feeding t l c
  files : ∀ file info, files file = some info → c.world.registry.get? file = some info

theorem Writing.quiet {files : Files} : Quiet t (Writing t l files) where
  left _ h := h.ready.kept
  replies c rest hrest h := ⟨Feeding.robust.replies c rest hrest h.ready, h.files⟩

/-- The feed is on the branch, and the step is not marked yet. -/
structure Written (t : Tools) (l : List Step) (c : CutRun) : Prop where
  kept : Kept t c.world
  done : c.st.done = l
  waiting : Waiting l
  sha : c.st.sha ≠ []
  branch : OnBranch t c.world c.st.channel

theorem commitFeeds_holds (files : Files) (n : Nat) :
    Holds (Left t) (Writing t l files) (commitFeeds t files n) fun _ => Written t l := by
  induction n with
  | zero => exact Holds.throw Writing.quiet.left
  | succ n ih =>
    apply Holds.bind (goes_holds Writing.quiet)
    intro _
    apply Holds.get_bind
    intro c hc
    split
    · exact Holds.throw fun c' heq => heq ▸ hc.ready.kept
    rename_i outs hplan
    have hplanned : Planned c.release c.world.registry outs := planned hc.files hplan
    obtain ⟨hversion, hchannel⟩ := hc.ready.fits
    obtain ⟨hkept, hbranch⟩ := hc.ready.kept.push hversion hplanned
    rw [hchannel] at hbranch
    have hquiet : Quiet t fun c' => Writing t l files c' ∧ c'.world = c.world ∧ c'.st = c.st :=
      ⟨fun _ h => h.1.ready.kept, fun c' rest hrest h => ⟨Writing.quiet.replies c' rest hrest h.1, h.2⟩⟩
    apply Holds.before (P := fun c' => Writing t l files c' ∧ c'.world = c.world ∧ c'.st = c.st)
    · apply Holds.ite
      · intro _
        apply Holds.bind (ask_quiet hquiet)
        intro reply
        cases reply with
        | pushed =>
          apply setWorld_holds
          rintro c' ⟨hc', hworld, hst⟩
          refine ⟨?_, hc'.ready.done, hc'.ready.waiting, hc'.ready.sha, ?_⟩
          · rw [hworld]
            exact hkept
          · rw [hworld, hst]
            exact hbranch
        | pushLost =>
          apply Holds.bind (R := fun _ => Writing t l files)
          · apply setWorld_holds
            rintro c' ⟨hc', hworld, -⟩
            refine ⟨⟨?_, hc'.ready.done, hc'.ready.waiting, hc'.ready.sha, hc'.ready.dir, hc'.ready.fits⟩, hc'.files⟩
            rw [hworld]
            exact hkept
          · exact fun _ => ih
        | rejected => exact ih.before fun _ h => h.1
        | _ => exact Holds.throw fun _ h => h.1.ready.kept
      · intro hsame
        obtain ⟨hkept', hbranch'⟩ := hc.ready.kept.note hversion hplanned (Bool.eq_false_iff.mpr hsame)
        rw [hchannel] at hbranch'
        apply setWorld_holds
        rintro c' ⟨hc', hworld, hst⟩
        refine ⟨?_, hc'.ready.done, hc'.ready.waiting, hc'.ready.sha, ?_⟩
        · rw [hworld]
          exact hkept'
        · rw [hworld, hst]
          exact hbranch'
    · intro c' heq
      rw [heq]
      exact ⟨hc, rfl, rfl⟩

theorem fixPublished_holds (cfg : Config) {files : Files} :
    Holds (Left t) (Writing t l files) (fixPublished cfg) fun _ => Writing t l files := by
  apply Holds.get_bind
  intro c hc
  apply Holds.before (P := Writing t l files)
  · apply Holds.ite
    · intro _
      apply Holds.bind (R := fun _ => Writing t l files)
      · apply setState_holds
        intro c' h
        exact ⟨⟨h.ready.kept, h.ready.done, h.ready.waiting, h.ready.sha, h.ready.dir, h.ready.fits⟩, h.files⟩
      · intro _
        apply save_holds Writing.quiet (fun _ h _ => h)
        exact fun _ h _ => ⟨h.ready.saved, h.files⟩
    · intro _
      exact Holds.pure fun _ h => h
  · intro c' heq
    rw [heq]
    exact hc

theorem stepFeed_due (cfg : Config) : Holds (Left t) (Due t l) (stepFeed t cfg) fun _ => Written t l := by
  apply Holds.bind (outDir_due cfg)
  intro dir
  have hrobust : Robust t fun c => Feeding t l c ∧ c.st.outDir = dir := Feeding.robust.andState fun st => st.outDir = dir
  apply Holds.before (P := fun c => Feeding t l c ∧ c.st.outDir = dir)
  · apply Holds.bind (resolve_holds hrobust cfg)
    intro _
    apply Holds.bind (sums_holds hrobust.toQuiet dir)
    rintro ⟨content, files⟩
    apply Holds.before (P := Writing t l files)
    · apply Holds.bind (fixPublished_holds cfg)
      intro _
      apply Holds.bind (R := fun _ => Writing t l files)
      · apply Holds.modify
        intro c h
        exact ⟨⟨h.ready.kept, h.ready.done, h.ready.waiting, h.ready.sha, h.ready.dir, h.ready.fits⟩, h.files⟩
      · exact fun _ => commitFeeds_holds files pushAttempts
    · rintro c ⟨⟨hc, hdir⟩, d, hd, hfiles⟩
      refine ⟨hc, ?_⟩
      intro file info hinfo
      have houtput : d.output file = some info := hfiles ▸ hinfo
      rw [← hdir] at hd
      exact hc.dir d hd file info houtput
  · exact fun _ h => h.1

end FeedStep

/-! ### The tag -/

section TagStep

variable {t : Tools} {l : List Step}

theorem Fed.quiet : Quiet t (Fed t l) where
  left _ h := h.kept
  replies _ _ _ h := ⟨h.kept, h.done, h.early, h.verify, h.feed, h.sha, h.branch⟩

theorem Fed.sound (h : Fed t l c) : Sound t c.world (stateName c.st.sha) c.st := by
  have hfeed : .feed ∈ c.st.done := h.done ▸ h.feed
  exact ⟨rfl, h.sha, fun _ => h.done ▸ h.verify, fun _ => h.done ▸ h.early, fun hc => absurd hfeed hc.2,
    fun _ => h.branch⟩

theorem Fed.saved (h : Fed t l c) : Fed t l c.saved ∧ Filed c.saved := by
  refine ⟨⟨h.kept.save h.sound, h.done, h.early, h.verify, h.feed, h.sha, h.branch⟩, ?_⟩
  intro path hpath
  obtain rfl := some.inj hpath
  exact ⟨c.st, get?_put_self _ _ _, h.done ▸ h.feed⟩

theorem tagHere_fed (sha : Text) : Holds (Left t) (Fed t l) (tagHere sha) fun _ => Fed t l := by
  apply Holds.get_bind
  intro c hc
  apply Holds.before (P := Fed t l)
  · split
    · apply Holds.ite
      · intro _
        exact Holds.pure fun _ h => h
      · intro _
        exact Holds.throw Fed.quiet.left
    · apply Holds.bind (goes_holds Fed.quiet)
      intro _
      apply setWorld_holds
      intro c' h
      have hkept : Kept t { c'.world with localTag := some sha } :=
        h.kept.change rfl rfl h.kept.log (fun _ hchannel => hchannel) fun _ _ _ _ hdir => hdir
      exact ⟨hkept, h.done, h.early, h.verify, h.feed, h.sha, h.branch⟩
  · intro c' heq
    rw [heq]
    exact hc

theorem Fed.pushTag (h : Fed t l c) (sha : Text) :
    Fed t l { c with world := c.world.pushTag c.st.channel sha } := by
  refine ⟨h.kept.pushTag sha h.branch, h.done, h.early, h.verify, h.feed, h.sha, ?_⟩
  exact h.branch.grows (Registry.Grows.refl _) (fun _ he => mem_cons_of_mem _ he) rfl

theorem stepTag_fed : Holds (Left t) (Fed t l) stepTag fun _ => Fed t l := by
  apply Holds.bind (goes_holds Fed.quiet)
  intro _
  apply Holds.get_bind
  intro c hc
  apply Holds.before (P := Fed t l)
  · apply Holds.bind (tagHere_fed c.st.sha)
    intro _
    apply Holds.bind (goes_holds Fed.quiet)
    intro _
    apply Holds.get_bind
    intro c' hc'
    have hquiet : Quiet t fun c₂ => Fed t l c₂ ∧ c₂.st = c'.st := Fed.quiet.andState fun st => st = c'.st
    apply Holds.before (P := fun c₂ => Fed t l c₂ ∧ c₂.st = c'.st)
    · have hpush : ∀ c₂ : CutRun, Fed t l c₂ ∧ c₂.st = c'.st →
          Fed t l { c₂ with world := c₂.world.pushTag c'.st.channel c'.st.sha } := by
        rintro c₂ ⟨h, hst⟩
        rw [← hst]
        exact h.pushTag c₂.st.sha
      split
      · apply Holds.ite
        · intro _
          exact Holds.pure fun _ h => h.1
        · intro _
          exact Holds.throw fun _ h => h.1.kept
      · apply Holds.bind (ask_quiet hquiet)
        intro reply
        cases reply with
        | pushed => exact setWorld_holds hpush
        | pushLost =>
          apply Holds.bind (R := fun _ => Fed t l) (setWorld_holds hpush)
          intro _
          exact Holds.throw Fed.quiet.left
        | _ => exact Holds.throw fun _ h => h.1.kept
    · intro c₂ heq
      rw [heq]
      exact ⟨hc', rfl⟩
  · intro c' heq
    rw [heq]
    exact hc

end TagStep

end LibreServ.Publish
