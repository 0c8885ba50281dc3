import LibreServ.ReleaseCut

/-! What holds of a release's files, feeds and saved states wherever a run stops. -/

namespace LibreServ.Publish

open List Table
open Files (Text)

variable {parts : List PartSpec} {f : Feed} {version : Text}

/-! ### Feeds that describe the registry -/

/-- Whether a part is listed in a channel's feed. -/
def PartSpec.listed (channel : Text) (p : PartSpec) : Bool := p.channel = [] ∨ p.channel = channel

/-- The part is the file the registry holds, unless an earlier release has it. -/
def Held (r : Registry) (p : PartSpec) (part : Part) : Prop :=
  part.file = p.file ∧ (p.version = [] → r.get? p.file = some ⟨part.size, part.sha256⟩)

structure Describes (version : Text) (r : Registry) (channel : Text) (parts : List PartSpec) (f : Feed) : Prop where
  version : f.version = version
  parts : List.Forall₂ (Held r) (parts.filter (PartSpec.listed channel)) f.parts

/-- What runs put where others read it is right at that time. -/
structure Truthful (version : Text) (log : List Entry) : Prop where
  feeds : ∀ pushed channel parts f r, Entry.feed pushed channel parts f r ∈ log → Describes version r channel parts f
  /-- Before the tag such a feed is on the branch. -/
  tags : ∀ channel branch r older, Entry.tag channel branch r :: older <:+ log →
    ∃ pushed parts f r', Entry.feed pushed channel parts f r' ∈ older ∧ branch.get? channel = some f ∧
      Describes version r channel parts f

/-- Nothing that is held is lost or replaced. -/
def Registry.Grows (r r' : Registry) : Prop := ∀ file info, r.get? file = some info → r'.get? file = some info

theorem Registry.keepFirst_grows (r : Registry) (file : Text) (info : FileInfo) : r.Grows (r.keepFirst file info) := by
  intro other held hheld
  unfold Registry.keepFirst
  split
  · rename_i hfree
    have hne : other ≠ file := by
      intro heq
      rw [heq, hfree] at hheld
      cases hheld
    rw [get?_put_of_ne _ _ hne]
    exact hheld
  · exact hheld

theorem Describes.grows {r r' : Registry} {channel : Text}
    (h : Describes version r channel parts f) (hr : r.Grows r') : Describes version r' channel parts f := by
  refine ⟨h.version, h.parts.imp ?_⟩
  intro p part hheld
  exact ⟨hheld.1, fun hown => hr _ _ (hheld.2 hown)⟩

section Planning

variable {rel : Release} {channel : Text} {files : Files} {urlFor : Text → Text → Text} {r : Registry}

section

variable (hfiles : ∀ file info, files file = some info → r.get? file = some info)
include hfiles

theorem held_of_buildPart {p : PartSpec}
    {part : Part} (h : buildPart rel files urlFor p = .ok part) : Held r p part := by
  unfold buildPart at h
  split at h
  · rename_i hversion
    split at h
    · cases h
    · injection h with h
      rw [← h]
      exact ⟨rfl, fun hown => absurd hown hversion⟩
  · split at h
    · cases h
    · rename_i info hinfo
      injection h with h
      rw [← h]
      exact ⟨rfl, fun _ => hfiles _ _ hinfo⟩

theorem held_of_buildParts {seen : List Text}
    {specs : List PartSpec} {parts : List Part} (h : buildParts rel channel files urlFor seen specs = .ok parts) :
    List.Forall₂ (Held r) (specs.filter (PartSpec.listed channel)) parts := by
  induction specs generalizing seen parts with
  | nil =>
    injection h with h
    rw [← h]
    exact List.Forall₂.nil
  | cons p specs ih =>
    rw [buildParts] at h
    split at h
    · rename_i hother
      have hnot : PartSpec.listed channel p = false := by
        rw [PartSpec.listed, decide_eq_false_iff_not]
        exact fun hlisted => hlisted.elim hother.1 hother.2
      rw [filter_cons_of_neg (Bool.eq_false_iff.mp hnot)]
      exact ih h
    · rename_i hhere
      have hlisted : PartSpec.listed channel p = true := by
        rw [PartSpec.listed, decide_eq_true_iff]
        by_contra hnot
        exact hhere ⟨fun he => hnot (.inl he), fun he => hnot (.inr he)⟩
      rw [filter_cons_of_pos hlisted]
      split at h
      · cases h
      split at h
      · cases h
      rename_i part hpart
      split at h
      · cases h
      · rename_i rest hrest
        injection h with h
        rw [← h]
        exact List.Forall₂.cons (held_of_buildPart hfiles hpart) (ih hrest)

theorem describes_of_buildFeed
    (h : buildFeed rel channel files urlFor = .ok f) : Describes rel.version r channel rel.parts f := by
  refine ⟨(buildFeed_fields h).1, ?_⟩
  unfold buildFeed at h
  split at h
  · cases h
  · cases h
  · rename_i parts _ hparts
    injection h with h
    rw [← h]
    exact held_of_buildParts hfiles hparts

end

/-- The planned feeds: each describes the files, each channel stands once, and the release's own is among them. -/
structure Planned (rel : Release) (r : Registry) (outs : List (Text × Feed)) : Prop where
  describes : ∀ out ∈ outs, Describes rel.version r out.1 rel.parts out.2
  once : (outs.map Prod.fst).Nodup
  own : ∃ f, (rel.channel, f) ∈ outs

theorem planned (hfiles : ∀ file info, files file = some info → r.get? file = some info) {b : Branch}
    {outs : List (Text × Feed)} (h : planFeeds rel files urlFor b.get? = .ok outs) : Planned rel r outs := by
  have hplan : (Cut.mk rel files urlFor).plan b = .ok outs := h
  obtain ⟨-, f, hfirst, hcases⟩ := plan_cases hplan
  obtain ⟨-, hf⟩ := writes_of_planFeed hfirst
  have hown : Describes rel.version r rel.channel rel.parts f := describes_of_buildFeed hfiles hf
  rcases hcases with ⟨hchannel, rfl⟩ | ⟨hchannel, second, hsecond, rfl⟩
  · have hchannel' : rel.channel = beta := hchannel
    refine ⟨?_, nodup_singleton _, f, ?_⟩
    · intro out hout
      rw [mem_singleton] at hout
      rw [hout, ← hchannel']
      exact hown
    · rw [hchannel']
      exact mem_singleton.mpr rfl
  · have hchannel' : rel.channel = stable := hchannel
    rw [hchannel'] at hown
    refine ⟨?_, ?_, f, ?_⟩
    · intro out hout
      rcases mem_cons.mp hout with rfl | hout
      · exact hown
      cases second with
      | none => cases hout
      | some g =>
        obtain ⟨-, hg⟩ := writes_of_planFeed hsecond
        have heq : out = (beta, g) := mem_singleton.mp hout
        rw [heq]
        exact describes_of_buildFeed hfiles hg
    · cases second with
      | none => exact nodup_singleton _
      | some g =>
        show [stable, beta].Nodup
        decide
    · rw [hchannel']
      exact mem_cons_self

end Planning

theorem applyFeeds_other {outs : List (Text × Feed)} {channel : Text} (b : Branch)
    (h : channel ∉ outs.map Prod.fst) : (applyFeeds b outs).get? channel = b.get? channel := by
  induction outs generalizing b with
  | nil => rfl
  | cons out outs ih =>
    rw [map_cons, mem_cons, not_or] at h
    have hrest : (applyFeeds (b.put out.1 out.2) outs).get? channel = (b.put out.1 out.2).get? channel := ih _ h.2
    rw [get?_put_of_ne _ _ h.1] at hrest
    exact hrest

theorem applyFeeds_mem {outs : List (Text × Feed)} {channel : Text} (b : Branch)
    (hnodup : (outs.map Prod.fst).Nodup) (h : (channel, f) ∈ outs) : (applyFeeds b outs).get? channel = some f := by
  induction outs generalizing b with
  | nil => cases h
  | cons out outs ih =>
    rw [map_cons, nodup_cons] at hnodup
    rcases mem_cons.mp h with heq | hmem
    · have hrest := applyFeeds_other (b.put out.1 out.2) hnodup.1
      rw [get?_put_self] at hrest
      rw [← heq] at hrest
      rw [← heq]
      exact hrest
    · exact ih (b.put out.1 out.2) hnodup.2 hmem

/-! ### Saved states -/

/-- A feed of this version, describing what the registry holds, is the channel's on the branch. -/
def OnBranch (t : Tools) (w : World) (channel : Text) : Prop :=
  ∃ pushed parts f r, Entry.feed pushed channel parts f r ∈ w.log ∧ w.branch.get? channel = some f ∧
    Describes t.version w.registry channel parts f

/-- The registry holds every file of the directory. -/
def Dir.Matches (d : Dir) (r : Registry) : Prop := ∀ file info, d.output file = some info → r.get? file = some info

/-- The directory at a path, if there is one, holds what the registry does. -/
def World.Matches (w : World) (path : Text) : Prop := ∀ d, w.opened path = some d → d.Matches w.registry

/-- The steps before the check. -/
def earlier : List Step := [.bump, .build, .sign, .upload]

/-- Checked against the registry, and not described in a feed yet. -/
def State.Checked (st : State) : Prop := .verify ∈ st.done ∧ .feed ∉ st.done

structure Sound (t : Tools) (w : World) (path : Text) (st : State) : Prop where
  key : path = stateName st.sha
  sha : st.sha ≠ []
  order : .feed ∈ st.done → .verify ∈ st.done
  early : .verify ∈ st.done → ∀ s ∈ earlier, s ∈ st.done
  dir : st.Checked → w.Matches st.outDir
  branch : .feed ∈ st.done → OnBranch t w st.channel

/-- What holds wherever a run stops. -/
structure Kept (t : Tools) (w : World) : Prop where
  log : Truthful t.version w.log
  saved : ∀ path st, w.saved.get? path = some st → Sound t w path st
  finished : ∀ path st, w.finished.get? path = some st → Sound t w path st ∧ .feed ∈ st.done

section Changes

variable {t : Tools} {w w' : World}

theorem Sound.change {path : Text} {st : State} (h : Sound t w path st)
    (hbranch : ∀ channel, OnBranch t w channel → OnBranch t w' channel)
    (hdir : st.Checked → w.Matches st.outDir → w'.Matches st.outDir) : Sound t w' path st :=
  ⟨h.key, h.sha, h.order, h.early, fun hc => hdir hc (h.dir hc), fun hf => hbranch _ (h.branch hf)⟩

/-- A change that leaves the saved states alone. -/
theorem Kept.change (h : Kept t w) (hsaved : w'.saved = w.saved) (hfinished : w'.finished = w.finished)
    (hlog : Truthful t.version w'.log) (hbranch : ∀ channel, OnBranch t w channel → OnBranch t w' channel)
    (hdir : ∀ path st, w.saved.get? path = some st → st.Checked → w.Matches st.outDir → w'.Matches st.outDir) :
    Kept t w' := by
  refine ⟨hlog, ?_, ?_⟩
  · intro path st hst
    rw [hsaved] at hst
    exact (h.saved path st hst).change hbranch (hdir path st hst)
  · intro path st hst
    rw [hfinished] at hst
    obtain ⟨hsound, hfeed⟩ := h.finished path st hst
    exact ⟨hsound.change hbranch fun hc => absurd hfeed hc.2, hfeed⟩

theorem OnBranch.grows {channel : Text} (h : OnBranch t w channel) (hr : w.registry.Grows w'.registry)
    (hlog : ∀ e ∈ w.log, e ∈ w'.log) (hbranch : w'.branch = w.branch) : OnBranch t w' channel := by
  obtain ⟨pushed, parts, f, r, hmem, hf, hdescribes⟩ := h
  refine ⟨pushed, parts, f, r, hlog _ hmem, ?_, hdescribes.grows hr⟩
  rw [hbranch]
  exact hf

theorem Registry.Grows.refl (r : Registry) : r.Grows r := fun _ _ h => h

theorem World.Matches.grows {path : Text} (h : w.Matches path) (hr : w.registry.Grows w'.registry)
    (hdirs : w'.dirs = w.dirs) : w'.Matches path := by
  intro d hd file info hinfo
  have hd' : w.opened path = some d := by
    unfold World.opened at hd ⊢
    rw [hdirs] at hd
    exact hd
  exact hr _ _ (h d hd' file info hinfo)

/-- A file reaches the registry. -/
theorem Kept.keepFirst (h : Kept t w) (file : Text) (info : FileInfo) :
    Kept t { w with registry := w.registry.keepFirst file info } := by
  have hr := w.registry.keepFirst_grows file info
  refine h.change rfl rfl h.log ?_ ?_
  · intro channel hchannel
    exact hchannel.grows hr (fun _ he => he) rfl
  · intro _ st _ _ hdir
    exact hdir.grows hr rfl

theorem opened_write {path file other : Text} {info : FileInfo} {d : Dir}
    (h : (w.write path file info).opened other = some d) :
    ∃ d₀, w.opened other = some d₀ ∧ (d = d₀ ∨ d = { d₀ with files := d₀.files.put file info }) := by
  unfold World.opened at h ⊢
  split at h
  · cases h
  rename_i hne
  unfold World.write at h
  simp only [get?_update, Option.map_eq_some_iff] at h
  obtain ⟨d₀, hd₀, heq⟩ := h
  refine ⟨d₀, by rw [if_neg hne, hd₀], ?_⟩
  split at heq
  · exact .inr heq.symm
  · exact .inl heq.symm

theorem Dir.output_put {d : Dir} {file : Text} (hfile : file = sumsName ∨ file = sumsSigName) (info : FileInfo) :
    ({ d with files := d.files.put file info } : Dir).output = d.output := by
  funext name
  unfold Dir.output
  split
  · rfl
  rename_i hname
  have hne : name ≠ file := by
    intro heq
    rw [heq] at hname
    exact hname hfile
  exact get?_put_of_ne _ _ hne

theorem World.Matches.write {path : Text} (h : w.Matches path) (dir : Text) {file : Text} (info : FileInfo)
    (hfile : file = sumsName ∨ file = sumsSigName) : (w.write dir file info).Matches path := by
  intro d hd
  obtain ⟨d₀, hd₀, rfl | rfl⟩ := opened_write hd
  · exact h d hd₀
  · intro name held hheld
    rw [Dir.output_put hfile] at hheld
    exact h d₀ hd₀ name held hheld

/-- The sums are written. -/
theorem Kept.write (h : Kept t w) (dir : Text) {file : Text} (info : FileInfo)
    (hfile : file = sumsName ∨ file = sumsSigName) : Kept t (w.write dir file info) := by
  refine h.change rfl rfl h.log (fun _ hchannel => hchannel) ?_
  intro _ st _ _ hdir
  exact hdir.write dir info hfile

section

variable (h : Kept t w) {path : Text} {st : State}
include h

/-- A state is saved. -/
theorem Kept.save (hst : Sound t w path st) : Kept t { w with saved := w.saved.put path st } := by
  have hsame : ∀ path' st', Sound t w path' st' → Sound t { w with saved := w.saved.put path st } path' st' :=
    fun _ _ hsound => hsound.change (fun _ hchannel => hchannel) fun _ hdir => hdir
  refine ⟨h.log, ?_, ?_⟩
  · intro path' st' hst'
    rcases get?_put_some.mp hst' with ⟨heq, rfl⟩ | ⟨-, hput⟩
    · rw [heq]
      exact hsame _ _ hst
    · exact hsame _ _ (h.saved path' st' hput)
  · intro path' st' hst'
    obtain ⟨hsound, hfeed⟩ := h.finished path' st' hst'
    exact ⟨hsame _ _ hsound, hfeed⟩

/-- A cut that ran to the end counts as finished. -/
theorem Kept.finish (hst : w.saved.get? path = some st) (hfeed : .feed ∈ st.done) :
    Kept t { w with saved := w.saved.erase path, finished := w.finished.put path st } := by
  have hsame : ∀ path' st', Sound t w path' st' →
      Sound t { w with saved := w.saved.erase path, finished := w.finished.put path st } path' st' :=
    fun _ _ hsound => hsound.change (fun _ hchannel => hchannel) fun _ hdir => hdir
  refine ⟨h.log, ?_, ?_⟩
  · intro path' st' hst'
    obtain ⟨-, herase⟩ := get?_erase_some.mp hst'
    exact hsame _ _ (h.saved path' st' herase)
  · intro path' st' hst'
    rcases get?_put_some.mp hst' with ⟨heq, rfl⟩ | ⟨-, hput⟩
    · rw [heq]
      exact ⟨hsame _ _ (h.saved path st hst), hfeed⟩
    · obtain ⟨hsound, hfeed'⟩ := h.finished path' st' hput
      exact ⟨hsame _ _ hsound, hfeed'⟩

/-- A finished cut is taken up again. -/
theorem Kept.reopen (hst : Sound t w path st) : Kept t (w.reopen path st) := by
  have hsaved := h.save hst
  refine ⟨h.log, ?_, ?_⟩
  · intro path' st' hst'
    exact (hsaved.saved path' st' hst').change (fun _ hchannel => hchannel) fun _ hdir => hdir
  · intro path' st' hst'
    obtain ⟨-, herase⟩ := get?_erase_some.mp hst'
    obtain ⟨hsound, hfeed⟩ := h.finished path' st' herase
    exact ⟨hsound.change (fun _ hchannel => hchannel) fun _ hdir => hdir, hfeed⟩

end

end Changes

/-! ### Feeds and tags -/

section Logs

variable {t : Tools} {w : World} {channel : Text}

theorem Truthful.feed {log : List Entry} (h : Truthful version log) {pushed : Bool}
    {r : Registry} (hf : Describes version r channel parts f) :
    Truthful version (.feed pushed channel parts f r :: log) := by
  constructor
  · intro pushed' channel' parts' f' r' hmem
    rcases mem_cons.mp hmem with heq | hmem
    · injection heq with h₁ h₂ h₃ h₄ h₅
      rw [h₂, h₃, h₄, h₅]
      exact hf
    · exact h.feeds _ _ _ _ _ hmem
  · intro channel' branch r' older hsuffix
    rcases suffix_cons_iff.mp hsuffix with heq | hsuffix
    · injection heq with heq
      cases heq
    · exact h.tags _ _ _ _ hsuffix

theorem Truthful.tag (h : Truthful t.version w.log) (hbranch : OnBranch t w channel) :
    Truthful t.version (.tag channel w.branch w.registry :: w.log) := by
  constructor
  · intro pushed channel' parts f r hmem
    rcases mem_cons.mp hmem with heq | hmem
    · cases heq
    · exact h.feeds _ _ _ _ _ hmem
  · intro channel' branch r older hsuffix
    rcases suffix_cons_iff.mp hsuffix with heq | hsuffix
    · injection heq with hhead htail
      injection hhead with h₁ h₂ h₃
      rw [h₁, h₂, h₃, htail]
      exact hbranch
    · exact h.tags _ _ _ _ hsuffix

theorem truthful_note {log : List Entry} (h : Truthful version log) {pushed : Bool}
    {r : Registry} {outs : List (Text × Feed)}
    (houts : ∀ out ∈ outs, Describes version r out.1 parts out.2) :
    Truthful version ((outs.map fun out => Entry.feed pushed out.1 parts out.2 r) ++ log) := by
  induction outs with
  | nil => exact h
  | cons out outs ih =>
    exact (ih fun o ho => houts o (mem_cons_of_mem _ ho)).feed (houts out mem_cons_self)

section

variable (h : Kept t w) {rel : Release} {outs : List (Text × Feed)} (hversion : rel.version = t.version)
  (hplan : Planned rel w.registry outs)
include h hversion hplan

/-- The planned feeds stand on the branch already. -/
theorem Kept.note (hthere : changes w.branch outs = false) :
    Kept t (w.note false rel.parts outs) ∧ OnBranch t (w.note false rel.parts outs) rel.channel := by
  have hdescribes : ∀ out ∈ outs, Describes t.version w.registry out.1 rel.parts out.2 :=
    fun out hout => hversion ▸ hplan.describes out hout
  constructor
  · refine h.change rfl rfl (truthful_note h.log hdescribes) ?_ fun _ _ _ _ hdir => hdir
    intro channel hchannel
    exact hchannel.grows (Registry.Grows.refl _) (fun _ he => mem_append_right _ he) rfl
  · obtain ⟨f, hf⟩ := hplan.own
    refine ⟨false, rel.parts, f, w.registry, ?_, ?_, hdescribes _ hf⟩
    · exact mem_append_left _ (mem_map_of_mem (f := fun out => Entry.feed false out.1 rel.parts out.2 w.registry) hf)
    · have hsame := any_eq_false.mp hthere _ hf
      rw [decide_eq_true_iff, not_not] at hsame
      exact hsame

/-- The planned feeds are pushed. -/
theorem Kept.push : Kept t (w.push rel.parts outs) ∧ OnBranch t (w.push rel.parts outs) rel.channel := by
  have hdescribes : ∀ out ∈ outs, Describes t.version w.registry out.1 rel.parts out.2 :=
    fun out hout => hversion ▸ hplan.describes out hout
  have honBranch : ∀ out ∈ outs, OnBranch t (w.push rel.parts outs) out.1 := by
    intro out hout
    refine ⟨true, rel.parts, out.2, w.registry, ?_, applyFeeds_mem _ hplan.once hout, hdescribes out hout⟩
    exact mem_append_left _ (mem_map_of_mem (f := fun out => Entry.feed true out.1 rel.parts out.2 w.registry) hout)
  constructor
  · refine h.change rfl rfl (truthful_note h.log hdescribes) ?_ fun _ _ _ _ hdir => hdir
    intro channel hchannel
    by_cases hnew : channel ∈ outs.map Prod.fst
    · obtain ⟨out, hout, rfl⟩ := mem_map.mp hnew
      exact honBranch out hout
    · obtain ⟨pushed, parts, f, r, hmem, hf, hdesc⟩ := hchannel
      refine ⟨pushed, parts, f, r, mem_append_right _ hmem, ?_, hdesc⟩
      exact (applyFeeds_other _ hnew).trans hf
  · obtain ⟨f, hf⟩ := hplan.own
    exact honBranch _ hf

end

/-- The tag is pushed. -/
theorem Kept.pushTag (h : Kept t w) (sha : Text) (hbranch : OnBranch t w channel) :
    Kept t (w.pushTag channel sha) := by
  refine h.change rfl rfl (h.log.tag hbranch) ?_ fun _ _ _ _ hdir => hdir
  intro channel' hchannel
  exact hchannel.grows (Registry.Grows.refl _) (fun _ he => mem_cons_of_mem _ he) rfl

end Logs

end LibreServ.Publish
