import LibreServ.ReleaseCutKept

/-! What a run keeps from step to step. Up to the check against the registry no saved state depends on a directory.
From the check to the feed the directory must stay as it was checked. Afterwards only the branch counts. -/

namespace LibreServ.Publish

open Files (Text)

open Stoppable

variable {c : CutRun}

/-! ### Where a run stands -/

section Stages

variable (t : Tools)

def Left (c : CutRun) : Prop := Kept t c.world

def Fits (c : CutRun) : Prop := c.release.version = t.version ∧ c.release.channel = c.st.channel

/-- No saved state is between the check and the feed. -/
def Idle (w : World) : Prop := ∀ path st, w.saved.get? path = some st → ¬ st.Checked

/-- Before the check. -/
structure Early (l : List Step) (c : CutRun) : Prop where
  kept : Kept t c.world
  idle : Idle c.world
  done : c.st.done = l
  verify : .verify ∉ l
  feed : .feed ∉ l
  sha : .bump ∈ l → c.st.sha ≠ []
  fits : Fits t c

/-- What a build leaves at the old path, and at the one it returns, is what the registry holds. -/
def Reply.Keeps (r : Registry) (old : Text) : Reply → Prop
  | .built out dirs => ∀ path d, (path = old ∨ out = some path) → dirs.get? path = some d → d.Matches r
  | _ => True

/-- The steps of a cut that is checked and waits for its feed. -/
structure Waiting (l : List Step) : Prop where
  early : ∀ s ∈ earlier, s ∈ l
  verify : .verify ∈ l
  feed : .feed ∉ l

/-- Checked in this run or in an earlier one: the directory is there, or what is built in its place is the same. -/
structure Due (l : List Step) (c : CutRun) : Prop where
  kept : Kept t c.world
  done : c.st.done = l
  waiting : Waiting l
  sha : c.st.sha ≠ []
  own : ∀ path st, c.world.saved.get? path = some st → st.Checked → st.outDir = c.st.outDir
  dir : c.world.Matches c.st.outDir
  there : (c.world.opened c.st.outDir).isSome ∨ ∀ reply ∈ c.replies, reply.Keeps c.world.registry c.st.outDir
  fits : Fits t c

/-- In the feed step, with the directory `out`. -/
structure Ready (l : List Step) (out : Text) (c : CutRun) : Prop where
  kept : Kept t c.world
  done : c.st.done = l
  waiting : Waiting l
  sha : c.st.sha ≠ []
  dir : c.world.Matches out
  fits : Fits t c

/-- After the feed. -/
structure Fed (l : List Step) (c : CutRun) : Prop where
  kept : Kept t c.world
  done : c.st.done = l
  early : ∀ s ∈ earlier, s ∈ l
  verify : .verify ∈ l
  feed : .feed ∈ l
  sha : c.st.sha ≠ []
  branch : OnBranch t c.world c.st.channel

end Stages

/-- The state file says that the feed is written. -/
def Filed (c : CutRun) : Prop :=
  ∀ path, c.statePath = some path → ∃ st, c.world.saved.get? path = some st ∧ .feed ∈ st.done

/-- What the answers do not change. -/
structure Quiet (t : Tools) (P : CutRun → Prop) : Prop where
  left : ∀ c, P c → Left t c
  replies : ∀ c rest, rest ⊆ c.replies → P c → P { c with replies := rest }

/-- What the answers, the parts of the release and the sums do not change. -/
structure Robust (t : Tools) (P : CutRun → Prop) : Prop extends Quiet t P where
  parts : ∀ c parts api, P c → P { c with release := { c.release with parts := parts, api := api } }
  write : ∀ c dir file info, (file = sumsName ∨ file = sumsSigName) → P c →
    P { c with world := c.world.write dir file info }

section Robustness

variable {t : Tools} {l : List Step} {out : Text} {P : CutRun → Prop}

theorem Early.robust : Robust t (Early t l) where
  left _ h := h.kept
  replies _ _ _ h := ⟨h.kept, h.idle, h.done, h.verify, h.feed, h.sha, h.fits⟩
  parts _ _ _ h := ⟨h.kept, h.idle, h.done, h.verify, h.feed, h.sha, h.fits⟩
  write _ dir _ info hfile h :=
    ⟨h.kept.write dir info hfile, h.idle, h.done, h.verify, h.feed, h.sha, h.fits⟩

theorem Ready.robust : Robust t (Ready t l out) where
  left _ h := h.kept
  replies _ _ _ h := ⟨h.kept, h.done, h.waiting, h.sha, h.dir, h.fits⟩
  parts _ _ _ h := ⟨h.kept, h.done, h.waiting, h.sha, h.dir, h.fits⟩
  write _ dir _ info hfile h :=
    ⟨h.kept.write dir info hfile, h.done, h.waiting, h.sha, h.dir.write dir info hfile, h.fits⟩

theorem Quiet.andState (h : Quiet t P) (R : State → Prop) : Quiet t fun c => P c ∧ R c.st where
  left c hc := h.left c hc.1
  replies c rest hrest hc := ⟨h.replies c rest hrest hc.1, hc.2⟩

/-- What is said of the state in memory stays too. -/
theorem Robust.andState (h : Robust t P) (R : State → Prop) :
    Robust t fun c => P c ∧ R c.st where
  left c hc := h.left c hc.1
  replies c rest hrest hc := ⟨h.replies c rest hrest hc.1, hc.2⟩
  parts c parts api hc := ⟨h.parts c parts api hc.1, hc.2⟩
  write c dir file info hfile hc := ⟨h.write c dir file info hfile hc.1, hc.2⟩

theorem opened_write_isSome {w : World} {path : Text} (dir file : Text) (info : FileInfo) (h : (w.opened path).isSome) :
    ((w.write dir file info).opened path).isSome := by
  unfold World.opened at h ⊢
  split
  · rename_i hempty
    rw [if_pos hempty] at h
    exact h
  · rename_i hpath
    rw [if_neg hpath] at h
    rw [World.write, Table.get?_update, Option.isSome_map]
    exact h

theorem Robust.andOpened (h : Robust t P) (path : Text) :
    Robust t fun c => P c ∧ (c.world.opened path).isSome where
  left c hc := h.left c hc.1
  replies c rest hrest hc := ⟨h.replies c rest hrest hc.1, hc.2⟩
  parts c parts api hc := ⟨h.parts c parts api hc.1, hc.2⟩
  write c dir file info hfile hc := ⟨h.write c dir file info hfile hc.1, opened_write_isSome dir file info hc.2⟩

end Robustness

/-! ### Single calls -/

section Calls

variable {t : Tools} {P Q : CutRun → Prop}

theorem setWorld_holds {J : CutRun → Prop} {f : World → World} (h : ∀ c, P c → Q { c with world := f c.world }) :
    Holds J P (setWorld f) fun _ => Q := Holds.modify h

theorem setState_holds {J : CutRun → Prop} {f : State → State} (h : ∀ c, P c → Q { c with st := f c.st }) :
    Holds J P (setState f) fun _ => Q := Holds.modify h

theorem ask_holds {R : Reply → CutRun → Prop} (hleft : ∀ c, P c → Left t c)
    (h : ∀ c reply rest, c.replies = reply :: rest → P c → R reply { c with replies := rest }) :
    Holds (Left t) P ask R := by
  intro c hc
  unfold ask
  split
  · rename_i heq
    split at heq
    · cases heq
    · rename_i reply rest hreplies
      injection heq with ha hc'
      rw [← ha, ← hc']
      exact h c reply rest hreplies hc
  · rename_i heq
    split at heq
    · injection heq with _ hc'
      rw [← hc']
      exact hleft c hc
    · cases heq

variable (hP : Quiet t P)

include hP

theorem ask_quiet : Holds (Left t) P ask fun _ => P := by
  apply ask_holds hP.left
  intro c reply rest hreplies hc
  apply hP.replies c rest _ hc
  rw [hreplies]
  exact List.subset_cons_self reply rest

theorem goes_holds : Holds (Left t) P goes fun _ => P := by
  apply Holds.bind (ask_quiet hP)
  intro reply
  cases reply with
  | refused => exact Holds.throw hP.left
  | _ => exact Holds.pure fun _ hc => hc

theorem sums_holds (path : Text) :
    Holds (Left t) P (sums path) fun r c => P c ∧ ∃ d, c.world.opened path = some d ∧ r.2 = d.output := by
  apply Holds.bind (goes_holds hP)
  intro _
  apply Holds.get_bind
  intro c hc
  have hleft : ∀ c', c' = c → Left t c' := fun c' heq => hP.left c' (heq ▸ hc)
  split
  · exact Holds.throw hleft
  rename_i d hd
  apply Holds.ite
  · intro _
    exact Holds.throw hleft
  · intro _
    apply Holds.pure
    intro c' heq
    rw [heq]
    exact ⟨hc, d, hd, rfl⟩

theorem save_holds (hempty : ∀ c, P c → c.st.sha = [] → Q c)
    (hsaved : ∀ c, P c → c.st.sha ≠ [] → Q c.saved) : Holds (Left t) P save fun _ => Q := by
  apply Holds.get_bind
  intro c hc
  apply Holds.ite
  · intro hsha
    apply Holds.pure
    intro c' heq
    rw [heq]
    exact hempty c hc hsha
  · intro hsha
    apply Holds.before (P := fun c' => P c' ∧ c'.st.sha ≠ [])
    · apply Holds.bind (goes_holds (hP.andState fun st => st.sha ≠ []))
      intro _
      exact Holds.modify fun c' hc' => hsaved c' hc'.1 hc'.2
    · intro c' heq
      rw [heq]
      exact ⟨hc, hsha⟩

theorem hashFile_holds (path file : Text) : Holds (Left t) P (hashFile path file) fun info c =>
      P c ∧ ∃ d, c.world.opened path = some d ∧ d.files.get? file = some info := by
  apply Holds.bind (goes_holds hP)
  intro _
  apply Holds.get_bind
  intro c hc
  split
  · exact Holds.throw fun c' heq => hP.left c' (heq ▸ hc)
  rename_i info hinfo
  obtain ⟨d, hd, hget⟩ := Option.bind_eq_some_iff.mp hinfo
  apply Holds.pure
  intro c' heq
  rw [heq]
  exact ⟨hc, d, hd, hget⟩

theorem check_holds (file : Text) (want : FileInfo) :
    Holds (Left t) P (check file want) fun _ c => P c ∧ c.world.registry.get? file = some want := by
  apply Holds.bind (goes_holds hP)
  intro _
  apply Holds.get_bind
  intro c hc
  have hleft : ∀ c', c' = c → Left t c' := fun c' heq => hP.left c' (heq ▸ hc)
  split
  · exact Holds.throw hleft
  rename_i got hgot
  apply Holds.ite
  · intro hsame
    apply Holds.pure
    intro c' heq
    rw [heq, hgot, hsame]
    exact ⟨hc, rfl⟩
  · intro _
    exact Holds.throw hleft

theorem uploadList_holds : Holds (Left t) P uploadList fun files c =>
    P c ∧ ∀ d, c.world.opened c.st.outDir = some d → files = d.outputFiles ++ [sumsName, sumsSigName] := by
  apply Holds.get_bind
  intro c hc
  apply Holds.ite
  · intro hempty
    apply Holds.pure
    intro c' heq
    rw [heq]
    refine ⟨hc, ?_⟩
    intro d hd
    rw [World.opened, if_pos hempty] at hd
    cases hd
  · intro _
    split
    · exact Holds.throw fun c' heq => hP.left c' (heq ▸ hc)
    rename_i d hd
    apply Holds.pure
    intro c' heq
    rw [heq]
    refine ⟨hc, ?_⟩
    intro d' hd'
    rw [hd] at hd'
    rw [Option.some.inj hd']

end Calls

section Writes

variable {t : Tools} {P : CutRun → Prop} (hP : Robust t P)

include hP

theorem writeFile_holds (path : Text) {file : Text} (info : FileInfo) (hfile : file = sumsName ∨ file = sumsSigName) :
    Holds (Left t) P (writeFile path file info) fun _ => P := by
  apply Holds.bind (ask_quiet hP.toQuiet)
  intro reply
  cases reply with
  | refused => exact Holds.throw hP.left
  | torn left =>
    apply Holds.bind (setWorld_holds fun c hc => hP.write c path file left hfile hc)
    intro _
    exact Holds.throw hP.left
  | _ => exact setWorld_holds fun c hc => hP.write c path file info hfile hc

theorem writeSigned_holds (path : Text) :
    Holds (Left t) P (writeSigned t path) fun _ c => P c ∧ (c.world.opened path).isSome := by
  apply Holds.bind (sums_holds hP.toQuiet path)
  rintro ⟨content, files⟩
  have hrobust := hP.andOpened path
  apply Holds.before (P := fun c => P c ∧ (c.world.opened path).isSome)
  · apply Holds.bind (goes_holds hrobust.toQuiet)
    intro _
    apply Holds.bind (writeFile_holds hrobust path _ (.inl rfl))
    intro _
    exact writeFile_holds hrobust path _ (.inr rfl)
  · rintro c ⟨hc, d, hd, -⟩
    rw [hd]
    exact ⟨hc, rfl⟩

theorem resolve_holds (cfg : Config) : Holds (Left t) P (resolve cfg) fun _ => P := by
  apply Holds.ite
  · intro _
    apply Holds.bind (goes_holds hP.toQuiet)
    intro _
    apply Holds.bind (ask_quiet hP.toQuiet)
    intro reply
    cases reply with
    | resolved parts api => exact Holds.modify fun c hc => hP.parts c parts api hc
    | _ => exact Holds.throw hP.left
  · intro _
    exact Holds.pure fun _ hc => hc

end Writes

/-! ### The build -/

section Builds

variable {t : Tools} {P Q : CutRun → Prop} {R : Text → CutRun → Prop}

theorem stepBuild_holds (cfg : Config) (hP : Quiet t P) (hR : ∀ out, Robust t (R out))
    (hbuild : Holds (Left t) P runBuild R)
    (hset : ∀ out c, R out c → Q { c with st := { c.st with outDir := out } }) :
    Holds (Left t) P (stepBuild cfg) fun _ => Q := by
  apply Holds.bind (goes_holds hP)
  intro _
  apply Holds.bind hbuild
  intro out
  apply Holds.bind (resolve_holds (hR out) cfg)
  intro _
  apply Holds.get_bind
  intro c hc
  apply Holds.ite
  · intro _
    apply setState_holds
    intro c' heq
    rw [heq]
    exact hset out c hc
  · intro _
    exact Holds.throw fun c' heq => (hR out).left c' (heq ▸ hc)

/-- With the output directory at hand, or after it is built. -/
theorem outDir_holds (cfg : Config) (hQ : Robust t Q) (hthere : ∀ c, P c → (c.world.opened c.st.outDir).isSome → Q c)
    (hbuild : Holds (Left t) (fun c => P c ∧ c.world.opened c.st.outDir = none) (stepBuild cfg) fun _ => Q)
    (hsave : ∀ c, Q c → c.st.sha ≠ [] → Q c.saved) :
    Holds (Left t) P (outDir t cfg) fun dir c => (Q c ∧ c.st.outDir = dir) ∧ (c.world.opened dir).isSome := by
  apply Holds.get_bind
  intro c hc
  split
  · rename_i d hd
    apply Holds.pure
    intro c' heq
    have hsome : (c.world.opened c.st.outDir).isSome := by
      rw [hd]
      rfl
    rw [heq]
    exact ⟨⟨hthere c hc hsome, rfl⟩, hsome⟩
  · rename_i hnone
    have hstart : Holds (Left t) (fun c' => c' = c) (stepBuild cfg) fun _ => Q := by
      apply hbuild.before
      intro c' heq
      rw [heq]
      exact ⟨hc, hnone⟩
    apply Holds.bind hstart
    intro _
    apply Holds.get_bind
    intro c' hc'
    have hrobust : Robust t fun c₂ => Q c₂ ∧ c₂.st.outDir = c'.st.outDir :=
      hQ.andState fun st => st.outDir = c'.st.outDir
    apply Holds.before (P := fun c₂ => Q c₂ ∧ c₂.st.outDir = c'.st.outDir)
    · apply Holds.bind (writeSigned_holds hrobust c'.st.outDir)
      intro _
      apply Holds.bind (save_holds (hrobust.andOpened c'.st.outDir).toQuiet (fun _ hc₂ _ => hc₂) ?_)
      · intro _
        exact Holds.pure fun _ hc₂ => hc₂
      · rintro c₂ ⟨⟨hq, hdir⟩, hopened⟩ hsha
        exact ⟨⟨hsave c₂ hq hsha, hdir⟩, hopened⟩
    · intro c₂ heq
      rw [heq]
      exact ⟨hc', rfl⟩

end Builds

/-! ### Before the check -/

section BeforeCheck

variable {t : Tools} {l : List Step}

theorem Early.sound (h : Early t l c) (hsha : c.st.sha ≠ []) :
    Sound t c.world (stateName c.st.sha) c.st := by
  have hverify : .verify ∉ c.st.done := h.done ▸ h.verify
  have hfeed : .feed ∉ c.st.done := h.done ▸ h.feed
  exact ⟨rfl, hsha, fun hf => absurd hf hfeed, fun hv => absurd hv hverify, fun hc => absurd hc.1 hverify,
    fun hf => absurd hf hfeed⟩

theorem Early.saved (h : Early t l c) (hsha : c.st.sha ≠ []) : Early t l c.saved := by
  refine ⟨h.kept.save (h.sound hsha), ?_, h.done, h.verify, h.feed, h.sha, h.fits⟩
  intro path st hst
  rcases Table.get?_put_some.mp hst with ⟨-, rfl⟩ | ⟨-, hput⟩
  · intro hchecked
    exact h.verify (h.done ▸ hchecked.1)
  · exact h.idle path st hput

/-- While no saved state waits for its feed, a build may leave anything. -/
theorem Early.dirs (h : Early t l c) (dirs : Table Text Dir) :
    Early t l { c with world := { c.world with dirs := dirs } } := by
  refine ⟨?_, h.idle, h.done, h.verify, h.feed, h.sha, h.fits⟩
  refine h.kept.change rfl rfl h.kept.log (fun _ hchannel => hchannel) ?_
  intro path st hst hchecked
  exact absurd hchecked (h.idle path st hst)

theorem runBuild_early : Holds (Left t) (Early t l) runBuild fun _ => Early t l := by
  apply Holds.bind (ask_quiet Early.robust.toQuiet)
  intro reply
  cases reply with
  | built out dirs =>
    apply Holds.bind (setWorld_holds fun c hc => hc.dirs dirs)
    intro _
    cases out with
    | none => exact Holds.throw Early.robust.left
    | some path => exact Holds.pure fun _ hc => hc
  | _ => exact Holds.throw Early.robust.left

theorem stepBuild_early (cfg : Config) : Holds (Left t) (Early t l) (stepBuild cfg) fun _ => Early t l := by
  apply stepBuild_holds cfg Early.robust.toQuiet (fun _ => Early.robust) runBuild_early
  intro out c h
  exact ⟨h.kept, h.idle, h.done, h.verify, h.feed, h.sha, h.fits⟩

theorem outDir_early (cfg : Config) : Holds (Left t) (Early t l) (outDir t cfg) fun dir c =>
    (Early t l c ∧ c.st.outDir = dir) ∧ (c.world.opened dir).isSome := by
  apply outDir_holds cfg Early.robust (fun _ hc _ => hc)
  · exact (stepBuild_early cfg).before fun _ hc => hc.1
  · exact fun _ hc hsha => hc.saved hsha

theorem stepBump_early (hbump : .bump ∉ l) : Holds (Left t) (Early t l) stepBump fun _ c => Early t l c ∧ c.st.sha ≠ [] := by
  have hget : Holds (Left t) (Early t l) bump fun sha c => sha ≠ [] ∧ Early t l c := by
    apply Holds.bind (ask_quiet Early.robust.toQuiet)
    intro reply
    cases reply with
    | sha sha =>
      apply Holds.ite
      · intro _
        exact Holds.throw Early.robust.left
      · intro hsha
        exact Holds.pure fun _ hc => ⟨hsha, hc⟩
    | _ => exact Holds.throw Early.robust.left
  have hcheck : ∀ sha, Holds (Left t) (Early t l) (checkTag sha) fun _ => Early t l := by
    intro sha
    apply Holds.get_bind
    intro c hc
    apply Holds.before (P := Early t l)
    · apply Holds.ite
      · intro _
        apply Holds.bind (goes_holds Early.robust.toQuiet)
        intro _
        apply Holds.ite
        · intro _
          exact Holds.pure fun _ h => h
        · intro _
          exact Holds.throw Early.robust.left
      · intro _
        exact Holds.pure fun _ h => h
    · exact fun _ heq => heq ▸ hc
  apply Holds.bind hget
  intro sha
  apply Holds.fact
  intro hsha
  apply Holds.bind (hcheck sha)
  intro _
  apply Holds.bind (R := fun _ c => Early t l c ∧ c.st.sha ≠ [])
  · apply setState_holds
    intro c h
    exact ⟨⟨h.kept, h.idle, h.done, h.verify, h.feed, fun hb => absurd hb hbump, h.fits⟩, hsha⟩
  · intro _
    apply save_holds (Early.robust.andState fun st => st.sha ≠ []).toQuiet
    · exact fun _ hc _ => hc
    · exact fun _ hc hne => ⟨hc.1.saved hne, hne⟩

theorem stepSign_early (cfg : Config) : Holds (Left t) (Early t l) (stepSign t cfg) fun _ => Early t l := by
  apply Holds.bind (outDir_early cfg)
  intro dir
  apply Holds.before (P := Early t l)
  · exact (writeSigned_holds Early.robust dir).after fun _ _ hc => hc.1
  · exact fun _ hc => hc.1.1

theorem Early.keepFirst (h : Early t l c) (file : Text) (info : FileInfo) :
    Early t l { c with world := { c.world with registry := c.world.registry.keepFirst file info } } :=
  ⟨h.kept.keepFirst file info, h.idle, h.done, h.verify, h.feed, h.sha, h.fits⟩

theorem put_early (file : Text) (info : FileInfo) (n : Nat) :
    Holds (Left t) (Early t l) (put file info n) fun _ => Early t l := by
  induction n with
  | zero => exact Holds.throw Early.robust.left
  | succ n ih =>
    apply Holds.bind (ask_quiet Early.robust.toQuiet)
    intro reply
    cases reply with
    | put arrives code =>
      apply Holds.bind (R := fun _ => Early t l)
      · apply Holds.ite
        · intro _
          exact setWorld_holds fun c hc => hc.keepFirst file info
        · intro _
          exact Holds.pure fun _ hc => hc
      · intro _
        cases code with
        | none => exact ih
        | some code =>
          apply Holds.ite
          · intro _
            exact Holds.pure fun _ hc => hc
          · intro _
            apply Holds.ite
            · intro _
              exact (check_holds Early.robust.toQuiet file info).after fun _ _ hc => hc.1
            · intro _
              apply Holds.ite
              · intro _
                exact ih
              · intro _
                exact Holds.throw Early.robust.left
    | _ => exact Holds.throw Early.robust.left

theorem stepUpload_early (cfg : Config) : Holds (Left t) (Early t l) (stepUpload t cfg) fun _ => Early t l := by
  apply Holds.bind (outDir_early cfg)
  intro dir
  apply Holds.before (P := Early t l)
  · apply Holds.bind (uploadList_holds Early.robust.toQuiet)
    intro files
    apply Holds.before (P := Early t l)
    · have hloop : Holds (Left t) (Early t l) (files.forM fun file => upload cfg dir file) fun _ c =>
          (∀ file ∈ files, True) ∧ Early t l c := by
        apply Holds.forM
        intro file _
        apply Holds.bind (hashFile_holds Early.robust.toQuiet dir file)
        intro info
        apply Holds.before (P := Early t l)
        · exact (put_early file info _).after fun _ _ hc => ⟨trivial, hc⟩
        · exact fun _ hc => hc.1
      exact hloop.after fun _ _ hc => hc.2
    · exact fun _ hc => hc.1
  · exact fun _ hc => hc.1.1

end BeforeCheck

end LibreServ.Publish
