import LibreServ.ReleaseCutFeeds

/-! Sequences of runs for one unit and version, fresh or resumed, each stopped anywhere. -/

namespace LibreServ.Publish

open List Table
open Files (Text)

open Stoppable

variable {c : CutRun} {path : Text} {st : State}

/-! ### The loop over the steps -/

section Loop

variable {t : Tools} {l : List Step}

/-- Between two steps. -/
def Stage (t : Tools) (c : CutRun) : Prop :=
  Early t c.st.done c ∨ Due t c.st.done c ∨ Fed t c.st.done c ∧ Filed c

theorem Early.stage (h : Early t l c) : Stage t c := .inl (h.done ▸ h)

theorem Due.stage (h : Due t l c) : Stage t c := .inr (.inl (h.done ▸ h))

theorem runStep_early (cfg : Config) {s : Step} (hs : s ∈ earlier) (hnew : s ∉ l) :
    Holds (Left t) (Early t l) (runStep t cfg s) fun _ c => Early t l c ∧ (s = .bump → c.st.sha ≠ []) := by
  cases s with
  | bump => exact (stepBump_early hnew).after fun _ _ h => ⟨h.1, fun _ => h.2⟩
  | build => exact (stepBuild_early cfg).after fun _ _ h => ⟨h, nofun⟩
  | sign => exact (stepSign_early cfg).after fun _ _ h => ⟨h, nofun⟩
  | upload => exact (stepUpload_early cfg).after fun _ _ h => ⟨h, nofun⟩
  | verify | feed | mirror | tag => exact absurd hs (by decide)

theorem perform_early (cfg : Config) {s : Step} (hs : s ∈ earlier) (ls : List Step) :
    Holds (Left t) (fun c => Stage t c ∧ ∀ s' ∈ ls, s' ∈ c.st.done) (perform t cfg s)
      fun _ c => Stage t c ∧ ∀ s' ∈ s :: ls, s' ∈ c.st.done := by
  apply Holds.get_bind
  rintro c ⟨hc, hls⟩
  apply Holds.ite
  · intro hdone
    apply Holds.pure
    intro c' heq
    rw [heq]
    exact ⟨hc, forall_mem_cons.mpr ⟨hdone, hls⟩⟩
  · intro hnew
    have hearly : Early t c.st.done c := by
      rcases hc with h | h | ⟨h, -⟩
      · exact h
      · exact absurd (h.waiting.early s hs) hnew
      · exact absurd (h.early s hs) hnew
    have hstart : ∀ c', c' = c → Early t c.st.done c' := fun c' heq => heq ▸ hearly
    apply Holds.bind ((runStep_early cfg hs hnew).before hstart)
    intro _
    apply Holds.bind (R := fun _ c' => Early t (s :: c.st.done) c')
    · apply setState_holds
      rintro c' ⟨h, hbump⟩
      have hother : ∀ s', s' ∉ earlier → s' ∉ c.st.done → s' ∉ s :: c.st.done := by
        intro s' hlate hnot hmem
        rcases mem_cons.mp hmem with rfl | hmem
        · exact hlate hs
        · exact hnot hmem
      refine ⟨h.kept, h.idle, by rw [h.done], hother _ (by decide) h.verify, hother _ (by decide) h.feed, ?_, h.fits⟩
      intro hmem
      rcases mem_cons.mp hmem with heq | hmem
      · exact hbump heq.symm
      · exact h.sha hmem
    · intro _
      have hdone : ∀ c', Early t (s :: c.st.done) c' → ∀ s' ∈ s :: ls, s' ∈ c'.st.done := by
        intro c' h s' hs'
        rw [h.done]
        rcases mem_cons.mp hs' with rfl | hs'
        · exact mem_cons_self
        · exact mem_cons_of_mem _ (hls s' hs')
      apply save_holds Early.robust.toQuiet
      · exact fun c' h _ => ⟨h.stage, hdone c' h⟩
      · exact fun c' h hsha => ⟨(h.saved hsha).stage, hdone _ (h.saved hsha)⟩

/-- The check is marked while the directory is there. -/
theorem Early.checked (h : Early t l c) (hearlier : ∀ s ∈ earlier, s ∈ l)
    (hopened : (c.world.opened c.st.outDir).isSome) (hdir : c.world.Matches c.st.outDir) :
    Due t (.verify :: l) { c with st := { c.st with done := .verify :: c.st.done } } := by
  refine ⟨h.kept, by rw [h.done], ⟨?_, mem_cons_self, ?_⟩, h.sha (hearlier _ (by decide)), ?_, hdir,
    .inl hopened, h.fits⟩
  · exact fun s hs => mem_cons_of_mem _ (hearlier s hs)
  · intro hmem
    rcases mem_cons.mp hmem with heq | hmem
    · cases heq
    · exact h.feed hmem
  · exact fun path st hst hchecked => absurd hchecked (h.idle path st hst)

theorem Due.saved (h : Due t l c) : Due t l c.saved := by
  have hfeeding : Feeding t l c := ⟨h.kept, h.done, h.waiting, h.sha, h.dir, h.fits⟩
  refine ⟨hfeeding.saved.kept, h.done, h.waiting, h.sha, ?_, h.dir, h.there, h.fits⟩
  intro path st hst hchecked
  rcases get?_put_some.mp hst with ⟨-, rfl⟩ | ⟨-, hput⟩
  · rfl
  · exact h.own path st hput hchecked

theorem perform_verify (cfg : Config) :
    Holds (Left t) (fun c => Stage t c ∧ ∀ s ∈ earlier, s ∈ c.st.done) (perform t cfg .verify)
      fun _ c => Stage t c ∧ .verify ∈ c.st.done := by
  apply Holds.get_bind
  rintro c ⟨hc, hearlier⟩
  apply Holds.ite
  · intro hdone
    apply Holds.pure
    intro c' heq
    rw [heq]
    exact ⟨hc, hdone⟩
  · intro hnew
    have hearly : Early t c.st.done c := by
      rcases hc with h | h | ⟨h, -⟩
      · exact h
      · exact absurd h.waiting.verify hnew
      · exact absurd h.verify hnew
    have hstart : ∀ c', c' = c → Early t c.st.done c' := fun c' heq => heq ▸ hearly
    apply Holds.bind ((stepVerify_early cfg).before hstart)
    intro _
    apply Holds.bind (R := fun _ => Due t (.verify :: c.st.done))
    · apply setState_holds
      rintro c' ⟨h, hopened, hdir⟩
      exact h.checked hearlier hopened hdir
    · intro _
      have hverify : ∀ c', Due t (.verify :: c.st.done) c' → .verify ∈ c'.st.done :=
        fun c' h => h.done ▸ mem_cons_self
      apply save_holds Due.quiet
      · exact fun _ h hsha => absurd hsha h.sha
      · exact fun c' h _ => ⟨h.saved.stage, hverify _ h.saved⟩

theorem Written.fed (h : Written t l c) :
    Fed t (.feed :: l) { c with st := { c.st with done := .feed :: c.st.done } } :=
  ⟨h.kept, by rw [h.done], fun s hs => mem_cons_of_mem _ (h.waiting.early s hs),
    mem_cons_of_mem _ h.waiting.verify, mem_cons_self, h.sha, h.branch⟩

theorem save_fed : Holds (Left t) (Fed t l) save fun _ c => Fed t c.st.done c ∧ Filed c := by
  apply save_holds Fed.quiet
  · exact fun _ h hsha => absurd hsha h.sha
  · intro c h _
    obtain ⟨hfed, hfiled⟩ := h.saved
    exact ⟨hfed.done ▸ hfed, hfiled⟩

theorem perform_feed (cfg : Config) : Holds (Left t) (fun c => Stage t c ∧ .verify ∈ c.st.done) (perform t cfg .feed)
      fun _ c => Fed t c.st.done c ∧ Filed c := by
  apply Holds.get_bind
  rintro c ⟨hc, hverify⟩
  apply Holds.ite
  · intro hdone
    apply Holds.pure
    intro c' heq
    rw [heq]
    rcases hc with h | h | h
    · exact absurd hdone h.feed
    · exact absurd hdone h.waiting.feed
    · exact h
  · intro hnew
    have hdue : Due t c.st.done c := by
      rcases hc with h | h | ⟨h, -⟩
      · exact absurd hverify h.verify
      · exact h
      · exact absurd h.feed hnew
    have hstart : ∀ c', c' = c → Due t c.st.done c' := fun c' heq => heq ▸ hdue
    apply Holds.bind ((stepFeed_due cfg).before hstart)
    intro _
    apply Holds.bind (R := fun _ => Fed t (.feed :: c.st.done))
    · exact setState_holds fun c' h => h.fed
    · exact fun _ => save_fed

theorem Fed.mark (h : Fed t l c) (s : Step) : Fed t (s :: l) { c with st := { c.st with done := s :: c.st.done } } :=
  ⟨h.kept, by rw [h.done], fun s' hs' => mem_cons_of_mem _ (h.early s' hs'), mem_cons_of_mem _ h.verify,
    mem_cons_of_mem _ h.feed, h.sha, h.branch⟩

theorem perform_late (cfg : Config) {s : Step} (hs : ∀ l, Holds (Left t) (Fed t l) (runStep t cfg s) fun _ => Fed t l) :
    Holds (Left t) (fun c => Fed t c.st.done c ∧ Filed c) (perform t cfg s) fun _ c => Fed t c.st.done c ∧ Filed c := by
  apply Holds.get_bind
  rintro c hc
  apply Holds.ite
  · intro _
    apply Holds.pure
    intro c' heq
    rw [heq]
    exact hc
  · intro _
    have hstart : ∀ c', c' = c → Fed t c.st.done c' := fun c' heq => heq ▸ hc.1
    apply Holds.bind ((hs c.st.done).before hstart)
    intro _
    apply Holds.bind (R := fun _ => Fed t (s :: c.st.done))
    · exact setState_holds fun c' h => h.mark s
    · exact fun _ => save_fed

theorem steps_hold (cfg : Config) :
    Holds (Left t) (Stage t) (steps.forM fun s => perform t cfg s) fun _ c => Fed t c.st.done c ∧ Filed c := by
  have hstart : ∀ c, Stage t c → Stage t c ∧ ∀ s' ∈ ([] : List Step), s' ∈ c.st.done := fun _ h => ⟨h, nofun⟩
  apply Holds.bind ((perform_early cfg (by decide) []).before hstart)
  intro _
  apply Holds.bind (perform_early cfg (by decide) _)
  intro _
  apply Holds.bind (perform_early cfg (by decide) _)
  intro _
  apply Holds.bind (perform_early cfg (by decide) _)
  intro _
  have hearlier : ∀ s ∈ earlier, s ∈ [Step.upload, .sign, .build, .bump] := by decide
  apply Holds.bind ((perform_verify cfg).before fun _ h => ⟨h.1, fun s hs => h.2 s (hearlier s hs)⟩)
  intro _
  apply Holds.bind (perform_feed cfg)
  intro _
  apply Holds.bind (perform_late cfg fun _ => goes_holds Fed.quiet)
  intro _
  apply Holds.bind (perform_late cfg fun _ => stepTag_fed)
  intro _
  exact Holds.pure fun _ h => h

theorem markFinished_holds :
    Holds (Left t) (fun c => Fed t c.st.done c ∧ Filed c) markFinished fun _ => Left t := by
  apply Holds.get_bind
  rintro c ⟨hc, hfiled⟩
  have hquiet : Quiet t fun c' => Left t c' ∧ c'.world = c.world :=
    ⟨fun _ h => h.1, fun _ _ _ h => h⟩
  apply Holds.before (P := fun c' => Left t c' ∧ c'.world = c.world)
  · split
    · exact Holds.pure fun _ h => h.1
    rename_i path hpath
    obtain ⟨st, hst, hfeed⟩ := hfiled path hpath
    apply Holds.bind (ask_quiet hquiet)
    intro reply
    have hrename : Holds (Left t) (fun c' => Left t c' ∧ c'.world = c.world)
        (setWorld fun w => { w with saved := w.saved.erase path, finished := w.finished.put path st })
        fun _ => Left t := by
      apply setWorld_holds
      rintro c' ⟨-, hworld⟩
      rw [hworld]
      exact hc.kept.finish hst hfeed
    rw [hst]
    cases reply with
    | refused => exact Holds.pure fun _ h => h.1
    | _ => exact hrename
  · intro c' heq
    rw [heq]
    exact ⟨hc.kept, rfl⟩

end Loop

/-! ### How a run begins -/

section Beginning

variable {t : Tools} {cfg : Config} {w : World} {replies : List Reply}

/-- A cut that is checked is taken up only where its directory is there, or what is built in its place is the same. -/
def Meets (cfg : Config) (replies : List Reply) (w : World) : Prop :=
  ∀ path st, w.saved.rows = [(path, st)] → cfg.resume = true → st.Checked →
    (w.opened st.outDir).isSome ∨ ∀ reply ∈ replies, reply.Keeps w.registry st.outDir

/-- Before anything is taken up. -/
structure Fresh (t : Tools) (replies : List Reply) (w : World) (c : CutRun) : Prop where
  world : c.world = w
  release : c.release.version = t.version
  statePath : c.statePath = none
  replies : c.replies ⊆ replies

theorem Fresh.quiet (hw : Kept t w) : Quiet t (Fresh t replies w) where
  left _ h := by
    rw [Left, h.world]
    exact hw
  replies _ _ hrest h := ⟨h.world, h.release, h.statePath, List.Subset.trans hrest h.replies⟩

/-- A state has been found; whether it is for this channel is still to be seen. -/
structure Found (t : Tools) (c : CutRun) : Prop where
  left : Left t c
  stage : c.release.channel = c.st.channel → Stage t c

theorem only_saved {path' : Text} {st' : State} (h : w.saved.rows = [(path, st)])
    (h' : w.saved.get? path' = some st') : path' = path ∧ st' = st := by
  have hmem := mem_rows.mpr h'
  rw [h, mem_singleton] at hmem
  exact Prod.mk.inj hmem

/-- The state that is taken up stands where it was saved. -/
theorem found_of_saved (hw : Kept t w) (hmeets : Meets cfg replies w) (hresume : cfg.resume = true)
    (hrows : w.saved.rows = [(path, st)]) (hc : Fresh t replies w c) :
    Found t { c with st := st, statePath := some path } := by
  have hget : w.saved.get? path = some st := mem_rows.mp (hrows ▸ mem_singleton.mpr rfl)
  have hsound := hw.saved path st hget
  have hkept : Kept t c.world := hc.world ▸ hw
  refine ⟨hkept, ?_⟩
  intro hchannel
  have hfits : Fits t { c with st := st, statePath := some path } := ⟨hc.release, hchannel⟩
  by_cases hfeed : .feed ∈ st.done
  · refine .inr (.inr ⟨⟨hkept, rfl, hsound.early (hsound.order hfeed), hsound.order hfeed, hfeed, hsound.sha, ?_⟩, ?_⟩)
    · exact hc.world ▸ hsound.branch hfeed
    · intro path' hpath'
      obtain rfl := Option.some.inj hpath'
      exact ⟨st, hc.world ▸ hget, hfeed⟩
  · by_cases hverify : .verify ∈ st.done
    · refine .inr (.inl ⟨hkept, rfl, ⟨hsound.early hverify, hverify, hfeed⟩, hsound.sha, ?_, ?_, ?_, hfits⟩)
      · intro path' st' hst' _
        have hget' : w.saved.get? path' = some st' := hc.world ▸ hst'
        rw [(only_saved hrows hget').2]
      · exact hc.world ▸ hsound.dir ⟨hverify, hfeed⟩
      · have hthere := hmeets path st hrows hresume ⟨hverify, hfeed⟩
        rw [← hc.world] at hthere
        exact hthere.imp id fun hall reply hmem => hall reply (hc.replies hmem)
    · refine .inl ⟨hkept, ?_, rfl, hverify, hfeed, fun _ => hsound.sha, hfits⟩
      intro path' st' hst' hchecked
      have hget' : w.saved.get? path' = some st' := hc.world ▸ hst'
      rw [(only_saved hrows hget').2] at hchecked
      exact hverify hchecked.1

theorem no_saved (hrows : w.saved.rows = []) (path : Text) (st : State) : w.saved.get? path ≠ some st := by
  intro h
  have hmem := mem_rows.mpr h
  rw [hrows] at hmem
  cases hmem

theorem found_of_new (hw : Kept t w) (hrows : w.saved.rows = []) (hc : Fresh t replies w c)
    (channel : Text) (tagSeen : Bool) : Found t { c with tagSeen := tagSeen, st := newState channel } := by
  have hkept : Kept t c.world := hc.world ▸ hw
  refine ⟨hkept, ?_⟩
  intro hchannel
  refine .inl ⟨hkept, ?_, rfl, nofun, nofun, nofun, hc.release, hchannel⟩
  intro path st hst
  exact absurd (hc.world ▸ hst) (no_saved hrows path st)

theorem begin_holds (hw : Kept t w) (hrows : w.saved.rows = []) :
    Holds (Left t) (Fresh t replies w) (begin cfg) fun _ => Found t := by
  apply Holds.bind (goes_holds (Fresh.quiet hw))
  intro _
  apply Holds.get_bind
  intro c hc
  apply Holds.before (P := Fresh t replies w)
  · apply Holds.ite
    · intro _
      apply Holds.ite
      · intro _
        exact Holds.modify fun c' h => found_of_new hw hrows h cfg.channel true
      · intro _
        exact Holds.throw (Fresh.quiet hw).left
    · intro _
      exact setState_holds fun c' h => found_of_new hw hrows h cfg.channel c'.tagSeen
  · intro c' heq
    rw [heq]
    exact hc

theorem load_holds {Q : CutRun → Prop} (hw : Kept t w) (path : Text) (st : State)
    (h : ∀ c, Fresh t replies w c → Q { c with st := st, statePath := some path }) :
    Holds (Left t) (Fresh t replies w) (load path st) fun _ => Q := by
  apply Holds.bind (goes_holds (Fresh.quiet hw))
  intro _
  exact Holds.modify h

theorem mem_lastFinished (h : w.lastFinished = some (path, st)) :
    w.finished.get? path = some st := by
  rw [World.lastFinished] at h
  have hmem := mem_of_getLast? h
  rw [mem_mergeSort] at hmem
  exact mem_rows.mp hmem

/-- A finished cut, with its tag to be pushed again. -/
theorem found_of_reopened (hw : Kept t w) (hlast : w.lastFinished = some (path, st))
    (hworld : c.world = w.reopen path st) (hpath : c.statePath = some path)
    (hst : c.st = { st with done := st.done.filter fun s => s ≠ .tag }) : Found t c := by
  obtain ⟨hsound, hfeed⟩ := hw.finished path st (mem_lastFinished hlast)
  have hkept : Kept t c.world := hworld ▸ hw.reopen hsound
  refine ⟨hkept, fun _ => .inr (.inr ⟨⟨hkept, rfl, ?_, ?_, ?_, ?_, ?_⟩, ?_⟩)⟩
  · intro s hs
    rw [hst, mem_filter]
    refine ⟨hsound.early (hsound.order hfeed) s hs, ?_⟩
    revert s
    decide
  · rw [hst, mem_filter]
    exact ⟨hsound.order hfeed, rfl⟩
  · rw [hst, mem_filter]
    exact ⟨hfeed, rfl⟩
  · rw [hst]
    exact hsound.sha
  · rw [hst, hworld]
    exact hsound.branch hfeed
  · intro path' hpath'
    rw [hpath] at hpath'
    obtain rfl := Option.some.inj hpath'
    refine ⟨st, ?_, hfeed⟩
    rw [hworld]
    exact get?_put_self _ _ _

theorem takeUp_holds (hw : Kept t w) (hmeets : Meets cfg replies w) :
    Holds (Left t) (Fresh t replies w) (takeUp cfg) fun goesOn c => if goesOn then Found t c else Left t c := by
  have hfound : ∀ c, Found t c → if true then Found t c else Left t c := fun _ h => h
  apply Holds.bind (goes_holds (Fresh.quiet hw))
  intro _
  apply Holds.get_bind
  intro c hc
  have hworld := hc.world
  apply Holds.before (P := Fresh t replies w)
  · rw [hworld]
    split
    · rename_i path st hrows
      apply Holds.ite
      · intro hresume
        apply Holds.bind (load_holds hw path st fun c' h => found_of_saved hw hmeets hresume hrows h)
        intro _
        exact Holds.pure hfound
      · intro _
        exact Holds.throw (Fresh.quiet hw).left
    · exact Holds.throw (Fresh.quiet hw).left
    · rename_i hrows
      have hbegin : Holds (Left t) (Fresh t replies w) (do begin cfg; pure true) fun goesOn c =>
          if goesOn then Found t c else Left t c := by
        apply Holds.bind (begin_holds hw hrows)
        intro _
        exact Holds.pure hfound
      apply Holds.ite
      · intro _
        split
        · rename_i path st hlast
          have hquiet : Quiet t fun c' => c'.world = w ∧ c'.st = st ∧ c'.statePath = some path := by
            refine ⟨?_, fun _ _ _ h => h⟩
            rintro c' ⟨h, -⟩
            rw [Left, h]
            exact hw
          apply Holds.bind (load_holds (Q := fun c' => c'.world = w ∧ c'.st = st ∧ c'.statePath = some path) hw path st
            fun c' h => ⟨h.world, rfl, rfl⟩)
          intro _
          apply Holds.bind (goes_holds hquiet)
          intro _
          apply Holds.ite
          · intro _
            exact Holds.pure hquiet.left
          · intro _
            apply Holds.bind (goes_holds hquiet)
            intro _
            apply Holds.bind (R := fun _ c' => c'.world = w.reopen path st ∧ c'.st = st ∧ c'.statePath = some path)
            · apply setWorld_holds
              rintro c' ⟨h, hst, hpath⟩
              exact ⟨by rw [h], hst, hpath⟩
            · intro _
              apply Holds.bind (R := fun _ => Found t)
              · apply setState_holds
                rintro c' ⟨h, hst, hpath⟩
                exact found_of_reopened hw hlast h hpath (by rw [hst])
              · intro _
                exact Holds.pure hfound
        · exact hbegin
      · intro _
        exact hbegin
  · intro c' heq
    rw [heq]
    exact hc

/-- Texts of the release and the state do not matter. -/
theorem Stage.texts (h : Stage t c) (published notes notes' : Text) :
    Stage t { c with
      release := { c.release with published := published, notes := notes }
      st := { c.st with notes := notes' } } := by
  rcases h with h | h | ⟨h, hfiled⟩
  · exact .inl ⟨h.kept, h.idle, rfl, h.verify, h.feed, h.sha, h.fits⟩
  · exact .inr (.inl ⟨h.kept, rfl, h.waiting, h.sha, h.own, h.dir, h.there, h.fits⟩)
  · exact .inr (.inr ⟨⟨h.kept, rfl, h.early, h.verify, h.feed, h.sha, h.branch⟩, hfiled⟩)

theorem settle_holds : Holds (Left t) (Found t) settle fun _ => Stage t := by
  apply Holds.get_bind
  intro c hc
  apply Holds.ite
  · intro _
    apply Holds.throw
    intro c' heq
    rw [heq]
    exact hc.left
  · intro hchannel
    rw [not_not] at hchannel
    apply Holds.modify
    intro c' heq
    rw [heq]
    exact (hc.stage hchannel.symm).texts _ _ _

end Beginning

/-! ### Whole runs -/

section Runs

variable {t : Tools} {w : World}

theorem cutRelease_holds (hw : Kept t w) {cfg : Config} {replies : List Reply} (hmeets : Meets cfg replies w) :
    Holds (Left t) (Fresh t replies w) (cutRelease t cfg) fun _ => Left t := by
  apply Holds.ite
  · intro _
    exact Holds.throw (Fresh.quiet hw).left
  · intro _
    apply Holds.bind (takeUp_holds hw hmeets)
    intro goesOn
    cases goesOn with
    | false => exact Holds.pure fun _ h => h
    | true =>
      apply Holds.bind settle_holds
      intro _
      apply Holds.bind (steps_hold cfg)
      intro _
      exact markFinished_holds

theorem Kept.runCut (hw : Kept t w) {cfg : Config} {replies : List Reply} (hmeets : Meets cfg replies w) :
    Kept t (runCut t cfg replies w) := by
  have hstart : Fresh t replies w (CutRun.start t cfg w replies) := ⟨rfl, rfl, rfl, List.Subset.refl _⟩
  have hrun := cutRelease_holds hw hmeets (CutRun.start t cfg w replies) hstart
  unfold Publish.runCut
  cases hend : cutRelease t cfg (CutRun.start t cfg w replies) with
  | ok _ c | error err c =>
    rw [hend] at hrun
    exact hrun

/-- A run, or what may happen between two. -/
inductive Act where
  | run (cfg : Config) (replies : List Reply)
  | dropDir (path : Text)
  /-- The tag is deleted by hand. -/
  | untag
  | untagHere

def Act.apply (t : Tools) (w : World) : Act → World
  | .run cfg replies => runCut t cfg replies w
  | .dropDir path => { w with dirs := w.dirs.erase path }
  | .untag => { w with tag := none }
  | .untagHere => { w with localTag := none }

def runs (t : Tools) (w : World) (acts : List Act) : World := acts.foldl (Act.apply t) w

def Act.Meets (w : World) : Act → Prop
  | .run cfg replies => Publish.Meets cfg replies w
  | _ => True

/-- Every run of the sequence meets the condition where it begins. -/
def AllMeet (t : Tools) : World → List Act → Prop
  | _, [] => True
  | w, act :: acts => act.Meets w ∧ AllMeet t (act.apply t w) acts

/-- No cut of this version has been begun. -/
structure Unbegun (w : World) : Prop where
  saved : w.saved.rows = []
  finished : w.finished.rows = []
  log : w.log = []

theorem Unbegun.kept (h : Unbegun w) : Kept t w := by
  refine ⟨⟨?_, ?_⟩, ?_, ?_⟩
  · intro _ _ _ _ _ hmem
    rw [h.log] at hmem
    cases hmem
  · intro _ _ _ _ hsuffix
    rw [h.log, suffix_nil] at hsuffix
    cases hsuffix
  · intro path st hst
    have hmem := mem_rows.mpr hst
    rw [h.saved] at hmem
    cases hmem
  · intro path st hst
    have hmem := mem_rows.mpr hst
    rw [h.finished] at hmem
    cases hmem

theorem Kept.dropDir (h : Kept t w) (path : Text) : Kept t { w with dirs := w.dirs.erase path } := by
  refine h.change rfl rfl h.log (fun _ hchannel => hchannel) ?_
  intro _ st _ _ hdir d hd
  unfold World.opened at hd
  split at hd
  · cases hd
  · rename_i hne
    obtain ⟨-, hd⟩ := get?_erase_some.mp hd
    exact hdir d (by rw [World.opened, if_neg hne, hd])

theorem Kept.tags (h : Kept t w) (tag localTag : Option Text) : Kept t { w with tag := tag, localTag := localTag } :=
  h.change rfl rfl h.log (fun _ hchannel => hchannel) fun _ _ _ _ hdir => hdir

theorem Kept.runs (h : Kept t w) {acts : List Act} (hmeet : AllMeet t w acts) : Kept t (runs t w acts) := by
  induction acts generalizing w with
  | nil => exact h
  | cons act acts ih =>
    apply ih _ hmeet.2
    cases act with
    | run cfg replies => exact h.runCut hmeet.1
    | dropDir path => exact h.dropDir path
    | untag => exact h.tags none w.localTag
    | untagHere => exact h.tags w.tag none

/-- A feed that is pushed describes what the registry holds, and the tag comes after such a feed. -/
theorem feed_describes_uploads (t : Tools) (w : World) (acts : List Act) (hw : Unbegun w) (hmeet : AllMeet t w acts) :
    Truthful t.version (runs t w acts).log := (hw.kept.runs hmeet).log

end Runs

/-! ### A cut that is resumed without its output -/

namespace Demo

def tools : Tools where
  unit := "luna".toList
  version := "0.4.0".toList
  hash := fun content => ⟨content.length, content⟩
  sign := fun content comment => content ++ comment
  urlFor := fun version file => version ++ ['/'] ++ file

def lunad : PartSpec := ⟨"lunad".toList, "linux".toList, "amd64".toList, "lunad".toList, [], [], 0, []⟩

def config (resume : Bool) : Config := ⟨beta, [], [], none, [lunad], false, resume, 0, "2026-01-01T00:00:00Z".toList⟩

def built (info : FileInfo) : Reply :=
  .built (some "dist".toList) (Table.empty.put "dist".toList ⟨Table.empty.put "lunad".toList info, []⟩)

def first : FileInfo := ⟨1, ['a']⟩

def second : FileInfo := ⟨2, ['b']⟩

def empty : World := ⟨Table.empty, Table.empty, ⟨Table.empty, []⟩, Table.empty, none, none, Table.empty, Table.empty, []⟩

def calls (n : Nat) : List Reply := List.replicate n .goes

/-- Up to the check; then the process dies. -/
def toCheck : Act :=
  .run (config false) (calls 2 ++ [.sha "0123456789abcdef".toList] ++ calls 3 ++ [built first] ++ calls 7 ++
    [.put true (some 201), .goes, .put true (some 201), .goes, .put true (some 201)] ++ calls 8)

/-- The rest, with the output as it is. -/
def toEnd : Act := .run (config true) (calls 5 ++ [.pushed] ++ calls 6 ++ [.pushed] ++ calls 2)

/-- The rest, with the output built again. -/
def rebuilt : Act :=
  .run (config true) (calls 3 ++ [built second] ++ calls 8 ++ [.pushed] ++ calls 6 ++ [.pushed] ++ calls 2)

def checked : World := toCheck.apply tools empty

def kept : World := runs tools empty [toCheck, toEnd]

def lost : World := runs tools empty [toCheck, .dropDir "dist".toList, rebuilt]

/-- A feed that gives the second build, while the registry holds the first. -/
def wrong : Entry → Bool
  | .feed _ channel parts f r => decide (channel = beta ∧ parts = [lunad] ∧
      f.parts.map (fun p => (⟨p.size, p.sha256⟩ : FileInfo)) = [second] ∧ r.get? lunad.file = some first)
  | .tag _ _ _ => false

theorem not_describes {version channel : Text} {pushed : Bool} {parts : List PartSpec} {f : Feed} {r : Registry}
    (h : wrong (.feed pushed channel parts f r) = true) : ¬ Describes version r channel parts f := by
  obtain ⟨rfl, rfl, hparts, hheld⟩ := of_decide_eq_true h
  intro hdescribes
  have hall : List.Forall₂ (Held r) [lunad] f.parts := hdescribes.parts
  obtain ⟨part, rest, hpart, -, hcons⟩ := forall₂_cons_left_iff.mp hall
  have hinfo := hpart.2 rfl
  rw [hcons, map_cons, cons.injEq] at hparts
  rw [hheld, hparts.1] at hinfo
  exact absurd hinfo (by decide)

end Demo

open Demo in
theorem feed_describes_uploads_kept : Truthful tools.version kept.log ∧ kept.tag = some "0123456789abcdef".toList := by
  have hrun : checked.saved.rows.all (fun row => (checked.opened row.2.outDir).isSome) = true ∧
      kept.tag = some "0123456789abcdef".toList := by decide +kernel
  have hmeets : toEnd.Meets checked := by
    intro path st hrows _ _
    have hall := all_eq_true.mp hrun.1 (path, st)
    rw [hrows] at hall
    exact .inl (hall (mem_singleton.mpr rfl))
  have hmeet : AllMeet tools Demo.empty [toCheck, toEnd] := ⟨fun _ _ hrows => (nomatch hrows), hmeets, trivial⟩
  exact ⟨feed_describes_uploads tools Demo.empty [toCheck, toEnd] ⟨rfl, rfl, rfl⟩ hmeet, hrun.2⟩

open Demo in
/-- The second run builds again after the check, and its feed gives a file that was never uploaded. -/
theorem not_feed_describes_uploads : Unbegun Demo.empty ∧ ¬ Truthful tools.version lost.log := by
  refine ⟨⟨rfl, rfl, rfl⟩, ?_⟩
  intro htruthful
  have hany : lost.log.any wrong = true := by decide +kernel
  obtain ⟨e, hmem, hwrong⟩ := any_eq_true.mp hany
  cases e with
  | feed pushed channel parts f r => exact not_describes hwrong (htruthful.feeds _ _ _ _ _ hmem)
  | tag channel branch r => cases hwrong

end LibreServ.Publish
