import LibreServ.Semver
import LibreServ.Table

/-! Release feeds, from `release/publish/feeds.go`. A release writes the feed of its channel; a stable one also moves
the beta feed on. -/

namespace LibreServ.Publish

open Table Option
open Files (Text)

variable {outs : List (Text × Feed)} {f : Feed} {ch : Text}

def stable : Text := "stable".toList

def beta : Text := "beta".toList

structure FileInfo where
  size : Int
  sha256 : Text
  deriving DecidableEq

structure Api where
  version : Int
  oldestSupported : Int
  deriving DecidableEq

structure PartSpec where
  name : Text
  os : Text
  arch : Text
  file : Text
  /-- The one feed the part is for; empty for every feed. -/
  channel : Text
  /-- The earlier version that holds the file; empty where this release has it. -/
  version : Text
  size : Int
  sha256 : Text
  deriving DecidableEq

structure Release where
  unit : Text
  version : Text
  channel : Text
  notes : Text
  published : Text
  api : Option Api
  parts : List PartSpec

structure Part where
  name : Text
  os : Text
  arch : Text
  file : Text
  size : Int
  sha256 : Text
  urls : List Text
  deriving DecidableEq

structure Feed where
  format : Nat
  unit : Text
  channel : Text
  version : Text
  published : Text
  notes : Text
  parts : List Part
  api : Option Api
  deriving DecidableEq

inductive FeedError where
  | version (version : Text)
  | channel (channel : Text)
  | current (channel version : Text)
  | backwards (channel current version : Text)
  | published (channel current published : Text)
  | twice (channel name os arch : Text)
  | noDigest (name version : Text)
  | noFile (name file : Text)
  | noParts (channel : Text)
  deriving DecidableEq

/-- What the errors say. -/
def FeedError.text : FeedError → Text
  | .version v => "version ".toList ++ v ++ " is not strict semver".toList
  | .channel c => "unknown channel ".toList ++ c
  | .current ch v => ch ++ " feed: not a strict semver version: ".toList ++ v
  | .backwards ch cur v =>
    ch ++ " feed is already at ".toList ++ cur ++ ", newer than ".toList ++ v ++ ": feeds never go backwards".toList
  | .published ch cur p =>
    ch ++ " feed was published ".toList ++ cur ++ ", after this release's ".toList ++ p ++ " (clock wrong?)".toList
  | .twice ch name os arch => ch ++ " feed lists part ".toList ++ name ++ [' '] ++ os ++ ['/'] ++ arch ++ " twice".toList
  | .noDigest name v => "part ".toList ++ name ++ " refers to ".toList ++ v ++ " but gives no size and sha256".toList
  | .noFile name file => "part ".toList ++ name ++ ": file ".toList ++ file ++ " is not in the output dir".toList
  | .noParts ch => ch ++ " feed has no parts".toList

/-- The files of the output directory. -/
abbrev Files := Text → Option FileInfo

/-- One part of a feed. -/
def buildPart (rel : Release) (files : Files) (urlFor : Text → Text → Text) (p : PartSpec) : Except FeedError Part :=
  if p.version ≠ [] then
    if p.size ≤ 0 ∨ p.sha256 = [] then .error (.noDigest p.name p.version)
    else .ok ⟨p.name, p.os, p.arch, p.file, p.size, p.sha256, [urlFor p.version p.file]⟩
  else
    match files p.file with
    | none => .error (.noFile p.name p.file)
    | some fi => .ok ⟨p.name, p.os, p.arch, p.file, fi.size, fi.sha256, [urlFor rel.version p.file]⟩

def PartSpec.key (p : PartSpec) : Text := p.name ++ ['|'] ++ p.os ++ ['|'] ++ p.arch

/-- The parts for a channel, with the keys already listed. -/
def buildParts (rel : Release) (channel : Text) (files : Files) (urlFor : Text → Text → Text) :
    List Text → List PartSpec → Except FeedError (List Part)
  | _, [] => .ok []
  | seen, p :: rest =>
    if p.channel ≠ [] ∧ p.channel ≠ channel then buildParts rel channel files urlFor seen rest
    else if p.key ∈ seen then .error (.twice channel p.name p.os p.arch)
    else
      match buildPart rel files urlFor p with
      | .error e => .error e
      | .ok part =>
        match buildParts rel channel files urlFor (p.key :: seen) rest with
        | .error e => .error e
        | .ok parts => .ok (part :: parts)

def buildFeed (rel : Release) (channel : Text) (files : Files) (urlFor : Text → Text → Text) : Except FeedError Feed :=
  match buildParts rel channel files urlFor [] rel.parts with
  | .error e => .error e
  | .ok [] => .error (.noParts channel)
  | .ok parts => .ok ⟨1, rel.unit, channel, rel.version, rel.published, rel.notes, parts, rel.api⟩

/-- What a release does to one feed: write it, or leave it (`none`). -/
def planFeed (rel : Release) (files : Files) (urlFor : Text → Text → Text) (own : Bool) (channel : Text)
    (current : Option Feed) : Except FeedError (Option Feed) :=
  match current with
  | none => (buildFeed rel channel files urlFor).map some
  | some cur =>
    match compareSemver cur.version rel.version with
    | .error v => .error (.current channel v)
    | .ok c =>
      if c = .gt ∧ own then .error (.backwards channel cur.version rel.version)
      else if c ≠ .lt ∧ ¬ own then .ok none
      else if rel.published < cur.published then .error (.published channel cur.published rel.published)
      else (buildFeed rel channel files urlFor).map some

/-- The feeds of one unit on the feeds branch. -/
abbrev Branch := Table Text Feed

/-- `PlanFeeds`: the feeds the release writes. -/
def planFeeds (rel : Release) (files : Files) (urlFor : Text → Text → Text) (current : Text → Option Feed) :
    Except FeedError (List (Text × Feed)) :=
  if validSemver rel.version = false then .error (.version rel.version)
  else if rel.channel ≠ stable ∧ rel.channel ≠ beta then .error (.channel rel.channel)
  else
    match planFeed rel files urlFor true rel.channel (current rel.channel) with
    | .error e => .error e
    | .ok first =>
      let first := (first.map fun f => (rel.channel, f)).toList
      if rel.channel = stable then
        match planFeed rel files urlFor false beta (current beta) with
        | .error e => .error e
        | .ok second => .ok (first ++ (second.map fun f => (beta, f)).toList)
      else .ok first

/-- The planned feeds are put on the branch. -/
def applyFeeds (b : Branch) (outs : List (Text × Feed)) : Branch := outs.foldl (fun b out => b.put out.1 out.2) b

/-- A release with the files it was built to. -/
structure Cut where
  release : Release
  files : Files
  urlFor : Text → Text → Text

def Cut.plan (cut : Cut) (b : Branch) : Except FeedError (List (Text × Feed)) :=
  planFeeds cut.release cut.files cut.urlFor b.get?

/-- A release that is refused changes nothing. -/
def Cut.publish (cut : Cut) (b : Branch) : Branch :=
  match cut.plan b with
  | .error _ => b
  | .ok outs => applyFeeds b outs

def publishAll (cuts : List Cut) (b : Branch) : Branch := cuts.foldl (fun b cut => cut.publish b) b

/-! ### Feeds never go backwards -/

section Planning

variable {rel : Release} {files : Files} {urlFor : Text → Text → Text} {channel : Text} {current : Option Feed}

theorem buildFeed_fields (h : buildFeed rel channel files urlFor = .ok f) :
    f.version = rel.version ∧ f.published = rel.published := by
  unfold buildFeed at h
  split at h
  · cases h
  · cases h
  · injection h with h
    rw [← h]
    exact ⟨rfl, rfl⟩

theorem of_map_ok {α β ε : Type} {e : Except ε α} {g : α → β} {b : β} (h : e.map g = .ok b) : ∃ a, e = .ok a ∧ g a = b := by
  cases e with
  | error x => cases h
  | ok a =>
    injection h with h
    exact ⟨a, rfl, h⟩

/-- A feed that is written is the release's, and not before the one it replaces. -/
structure Writes (rel : Release) (current : Option Feed) (f : Feed) : Prop where
  version : f.version = rel.version
  published : f.published = rel.published
  notAfter : ∀ cur, current = some cur → NotAfter cur.version rel.version
  later : ∀ cur, current = some cur → cur.published ≤ rel.published

theorem writes_of_planFeed {own : Bool} (h : planFeed rel files urlFor own channel current = .ok (some f)) :
    Writes rel current f ∧ buildFeed rel channel files urlFor = .ok f := by
  unfold planFeed at h
  split at h
  · obtain ⟨g, hg, hsome⟩ := of_map_ok h
    obtain rfl := some.inj hsome
    obtain ⟨hversion, hpublished⟩ := buildFeed_fields hg
    exact ⟨⟨hversion, hpublished, nofun, nofun⟩, hg⟩
  · rename_i cur
    split at h
    · cases h
    rename_i c hc
    split at h
    · cases h
    rename_i hforward
    split at h
    · cases h
    rename_i hbehind
    split at h
    · cases h
    rename_i hlater
    obtain ⟨g, hg, hsome⟩ := of_map_ok h
    obtain rfl := some.inj hsome
    obtain ⟨hversion, hpublished⟩ := buildFeed_fields hg
    refine ⟨⟨hversion, hpublished, ?_, ?_⟩, hg⟩
    · intro cur' hcur
      obtain rfl := some.inj hcur
      refine ⟨c, hc, ?_⟩
      intro hgt
      cases own with
      | true => exact hforward ⟨hgt, rfl⟩
      | false =>
        apply hbehind
        rw [hgt]
        exact ⟨nofun, nofun⟩
    · intro cur' hcur
      obtain rfl := some.inj hcur
      exact not_lt.mp hlater

/-- The feed of the release's own channel is always written. -/
theorem planFeed_own {out : Option Feed} (h : planFeed rel files urlFor true channel current = .ok out) :
    ∃ f, out = some f := by
  unfold planFeed at h
  split at h
  · obtain ⟨g, -, hsome⟩ := of_map_ok h
    exact ⟨g, hsome.symm⟩
  split at h
  · cases h
  split at h
  · cases h
  split at h
  · rename_i hbehind
    exact absurd rfl hbehind.2
  · split at h
    · cases h
    · obtain ⟨g, -, hsome⟩ := of_map_ok h
      exact ⟨g, hsome.symm⟩

/-- The other feed is left alone only where it is there and not before the release. -/
theorem planFeed_left {own : Bool} (h : planFeed rel files urlFor own channel current = .ok none) :
    ∃ cur c, current = some cur ∧ compareSemver cur.version rel.version = .ok c ∧ c ≠ .lt ∧ own = false := by
  unfold planFeed at h
  split at h
  · obtain ⟨g, -, hsome⟩ := of_map_ok h
    cases hsome
  rename_i cur
  split at h
  · cases h
  rename_i c hc
  split at h
  · cases h
  split at h
  · rename_i hbehind
    exact ⟨cur, c, rfl, hc, hbehind.1, Bool.not_eq_true _ ▸ hbehind.2⟩
  · split at h
    · cases h
    · obtain ⟨g, -, hsome⟩ := of_map_ok h
      cases hsome

/-- What a release that is accepted does to the branch. -/
theorem plan_cases {cut : Cut} {b : Branch} (h : cut.plan b = .ok outs) : validSemver cut.release.version = true ∧
      ∃ f, planFeed cut.release cut.files cut.urlFor true cut.release.channel (b.get? cut.release.channel) = .ok (some f) ∧
        (cut.release.channel = beta ∧ outs = [(beta, f)] ∨ cut.release.channel = stable ∧ ∃ second,
            planFeed cut.release cut.files cut.urlFor false beta (b.get? beta) = .ok second ∧
              outs = (stable, f) :: (second.map fun g => (beta, g)).toList) := by
  unfold Cut.plan planFeeds at h
  split at h
  · cases h
  rename_i hvalid
  refine ⟨Bool.not_eq_false _ ▸ hvalid, ?_⟩
  split at h
  · cases h
  rename_i hchannel
  split at h
  · cases h
  rename_i first hfirst
  obtain ⟨f, rfl⟩ := planFeed_own hfirst
  refine ⟨f, hfirst, ?_⟩
  split at h
  · rename_i hstable
    split at h
    · cases h
    · rename_i second hsecond
      injection h with h
      refine .inr ⟨hstable, second, hsecond, ?_⟩
      rw [← h, hstable]
      rfl
  · rename_i hother
    injection h with h
    have hbeta : cut.release.channel = beta := by
      by_contra hne
      exact hchannel ⟨hother, hne⟩
    refine .inl ⟨hbeta, ?_⟩
    rw [← h, hbeta]
    rfl

end Planning

theorem stable_ne_beta : stable ≠ beta := by decide

/-- What holds of a branch at all times. -/
structure Ordered (b : Branch) : Prop where
  valid : ∀ ch f, b.get? ch = some f → validSemver f.version = true
  ahead : ∀ f, b.get? stable = some f → ∃ g, b.get? beta = some g ∧ versionKey f.version ≤ versionKey g.version

/-- No feed goes back. -/
def Grows (b b' : Branch) : Prop :=
  ∀ ch f, b.get? ch = some f →
    ∃ f', b'.get? ch = some f' ∧ versionKey f.version ≤ versionKey f'.version ∧ f.published ≤ f'.published

theorem Grows.refl (b : Branch) : Grows b b := fun _ f hf => ⟨f, hf, le_refl _, le_refl _⟩

theorem Grows.trans {b b' b'' : Branch} (h : Grows b b') (h' : Grows b' b'') : Grows b b'' := by
  intro ch f hf
  obtain ⟨f', hf', hversion, hpublished⟩ := h ch f hf
  obtain ⟨f'', hf'', hversion', hpublished'⟩ := h' ch f' hf'
  exact ⟨f'', hf'', hversion.trans hversion', hpublished.trans hpublished'⟩

section

variable {b : Branch} (hb : Ordered b)
include hb

/-- A feed that may be written makes the branch grow. -/
theorem Grows.put {rel : Release}
    (hvalid : validSemver rel.version = true) (hw : Writes rel (b.get? ch) f) : Grows b (b.put ch f) := by
  intro ch' g hg
  by_cases hch : ch' = ch
  · rw [hch] at hg ⊢
    refine ⟨f, get?_put_self _ _ _, ?_, ?_⟩
    · rw [hw.version]
      exact (notAfter_iff (hb.valid ch g hg) hvalid).mp (hw.notAfter g hg)
    · rw [hw.published]
      exact hw.later g hg
  · refine ⟨g, ?_, le_refl _, le_refl _⟩
    rw [get?_put_of_ne _ _ hch]
    exact hg

theorem Ordered.valid_put {rel : Release}
    (hvalid : validSemver rel.version = true) (hf : f.version = rel.version) (ch' : Text) (g : Feed)
    (hg : (b.put ch f).get? ch' = some g) : validSemver g.version = true := by
  rcases get?_put_some.mp hg with ⟨-, rfl⟩ | ⟨-, hg⟩
  · rw [hf]
    exact hvalid
  · exact hb.valid ch' g hg

theorem Ordered.applyFeeds {cut : Cut}
    (h : cut.plan b = .ok outs) : Ordered (applyFeeds b outs) ∧ Grows b (applyFeeds b outs) := by
  obtain ⟨hvalid, f, hfirst, ⟨hchannel, rfl⟩ | ⟨hchannel, second, hsecond, rfl⟩⟩ := plan_cases h
  · rw [hchannel] at hfirst
    obtain ⟨hw, -⟩ := writes_of_planFeed hfirst
    have hgrows : Grows b (b.put beta f) := Grows.put hb hvalid hw
    refine ⟨⟨hb.valid_put hvalid hw.version, ?_⟩, hgrows⟩
    intro s hs
    have hs' : (b.put beta f).get? stable = some s := hs
    rw [get?_put_of_ne _ _ stable_ne_beta] at hs'
    obtain ⟨g, hg, hle⟩ := hb.ahead s hs'
    obtain ⟨g', hg', hle', -⟩ := hgrows beta g hg
    exact ⟨g', hg', hle.trans hle'⟩
  · rw [hchannel] at hfirst
    obtain ⟨hw, -⟩ := writes_of_planFeed hfirst
    have hgrows : Grows b (b.put stable f) := Grows.put hb hvalid hw
    have hvalid' : ∀ ch g, (b.put stable f).get? ch = some g → validSemver g.version = true :=
      hb.valid_put hvalid hw.version
    have hbeta : (b.put stable f).get? beta = b.get? beta := get?_put_of_ne _ _ (Ne.symm stable_ne_beta)
    cases second with
    | none =>
      obtain ⟨cur, c, hcur, hc, hne, -⟩ := planFeed_left hsecond
      refine ⟨⟨hvalid', ?_⟩, hgrows⟩
      intro s hs
      have hs' : (b.put stable f).get? stable = some s := hs
      rw [get?_put_self] at hs'
      obtain rfl := some.inj hs'
      refine ⟨cur, hbeta.trans hcur, ?_⟩
      rw [hw.version]
      have htells := tells_compareSemver hc
      cases c with
      | lt => exact absurd rfl hne
      | eq => exact le_of_eq (Eq.symm htells)
      | gt => exact le_of_lt htells
    | some g =>
      obtain ⟨hwg, -⟩ := writes_of_planFeed hsecond
      have hgrowsBeta : Grows (b.put stable f) ((b.put stable f).put beta g) := by
        intro ch e he
        by_cases hch : ch = beta
        · rw [hch] at he ⊢
          rw [hbeta] at he
          obtain ⟨e', he', hle⟩ := Grows.put hb hvalid hwg beta e he
          rw [get?_put_self] at he'
          obtain rfl := some.inj he'
          exact ⟨g, get?_put_self _ _ _, hle⟩
        · refine ⟨e, ?_, le_refl _, le_refl _⟩
          rw [get?_put_of_ne _ _ hch]
          exact he
      refine ⟨⟨?_, ?_⟩, hgrows.trans hgrowsBeta⟩
      · intro ch e he
        rcases get?_put_some.mp he with ⟨-, rfl⟩ | ⟨-, he'⟩
        · rw [hwg.version]
          exact hvalid
        · exact hvalid' ch e he'
      · intro s hs
        have hs' : ((b.put stable f).put beta g).get? stable = some s := hs
        rw [get?_put_of_ne _ _ stable_ne_beta, get?_put_self] at hs'
        obtain rfl := some.inj hs'
        refine ⟨g, get?_put_self _ _ _, ?_⟩
        rw [hw.version, hwg.version]

theorem Ordered.publish (cut : Cut) : Ordered (cut.publish b) ∧ Grows b (cut.publish b) := by
  unfold Cut.publish
  split
  · exact ⟨hb, Grows.refl b⟩
  · rename_i outs houts
    exact hb.applyFeeds houts

theorem Ordered.publishAll (cuts : List Cut) : Ordered (publishAll cuts b) ∧ Grows b (publishAll cuts b) := by
  induction cuts generalizing b with
  | nil => exact ⟨hb, Grows.refl b⟩
  | cons cut rest ih =>
    obtain ⟨hordered, hgrows⟩ := hb.publish cut
    obtain ⟨hordered', hgrows'⟩ := ih hordered
    exact ⟨hordered', hgrows.trans hgrows'⟩

end

theorem Ordered.empty : Ordered (Table.empty : Branch) := ⟨nofun, nofun⟩

theorem compareSemver_self {v : Text} (h : validSemver v = true) : compareSemver v v = .ok .eq := by
  obtain ⟨o, ho⟩ := exists_compareSemver h h
  have htells := tells_compareSemver ho
  cases o with
  | lt => exact absurd htells (lt_irrefl _)
  | eq => exact ho
  | gt => exact absurd htells (lt_irrefl _)

/-- The feed just written would be written again as it is. -/
theorem planFeed_again {rel : Release} {files : Files} {urlFor : Text → Text → Text} {current : Option Feed}
    (hvalid : validSemver rel.version = true) (h : planFeed rel files urlFor true ch current = .ok (some f)) :
    planFeed rel files urlFor true ch (some f) = .ok (some f) := by
  obtain ⟨hw, hbuild⟩ := writes_of_planFeed h
  unfold planFeed
  dsimp only
  rw [hw.version, compareSemver_self hvalid]
  dsimp only
  rw [if_neg (fun h => nomatch h.1), if_neg (fun h => h.2 rfl), if_neg (by rw [hw.published]; exact lt_irrefl _), hbuild]
  rfl

/-- The other feed is as new as the release, and is left alone. -/
theorem planFeed_rests {rel : Release} {files : Files} {urlFor : Text → Text → Text} {cur : Feed}
    {c : Ordering} (hc : compareSemver cur.version rel.version = .ok c) (hne : c ≠ .lt) :
    planFeed rel files urlFor false ch (some cur) = .ok none := by
  unfold planFeed
  dsimp only
  rw [hc]
  dsimp only
  rw [if_neg (fun h => nomatch h.2), if_pos ⟨hne, nofun⟩]

theorem plan_again {cut : Cut} {b : Branch} (h : cut.plan b = .ok outs) :
    ∃ outs', cut.plan (applyFeeds b outs) = .ok outs' ∧
      ∀ ch, (applyFeeds (applyFeeds b outs) outs').get? ch = (applyFeeds b outs).get? ch := by
  obtain ⟨hvalid, f, hfirst, ⟨hchannel, rfl⟩ | ⟨hchannel, second, hsecond, rfl⟩⟩ := plan_cases h
  · have hagain := planFeed_again hvalid hfirst
    have hget : (applyFeeds b [(beta, f)]).get? beta = some f := get?_put_self _ _ _
    refine ⟨[(beta, f)], ?_, ?_⟩
    · unfold Cut.plan planFeeds
      rw [hchannel] at hagain ⊢
      rw [if_neg (by rw [hvalid]; simp), hget, hagain]
      rfl
    · intro ch
      show ((b.put beta f).put beta f).get? ch = (b.put beta f).get? ch
      simp only [get?_put]
      split
      · rfl
      · rfl
  · have hagain := planFeed_again hvalid hfirst
    generalize hb' : applyFeeds b ((stable, f) :: (second.map fun g => (beta, g)).toList) = b'
    have hstable : b'.get? stable = some f := by
      rw [← hb']
      cases second with
      | none => exact get?_put_self _ _ _
      | some g =>
        show ((b.put stable f).put beta g).get? stable = some f
        rw [get?_put_of_ne _ _ stable_ne_beta]
        exact get?_put_self _ _ _
    have hrests : planFeed cut.release cut.files cut.urlFor false beta (b'.get? beta) = .ok none := by
      rw [← hb']
      cases second with
      | none =>
        obtain ⟨cur, c, hcur, hc, hne, -⟩ := planFeed_left hsecond
        have hget : (b.put stable f).get? beta = some cur := by
          rw [get?_put_of_ne _ _ (Ne.symm stable_ne_beta)]
          exact hcur
        show planFeed _ _ _ _ _ ((b.put stable f).get? beta) = _
        rw [hget]
        exact planFeed_rests hc hne
      | some g =>
        obtain ⟨hwg, -⟩ := writes_of_planFeed hsecond
        have hget : ((b.put stable f).put beta g).get? beta = some g := get?_put_self _ _ _
        show planFeed _ _ _ _ _ (((b.put stable f).put beta g).get? beta) = _
        rw [hget]
        have heq : compareSemver g.version cut.release.version = .ok .eq := by
          rw [hwg.version]
          exact compareSemver_self hvalid
        exact planFeed_rests heq fun h => by cases h
    refine ⟨[(stable, f)], ?_, ?_⟩
    · unfold Cut.plan planFeeds
      rw [hchannel] at hagain ⊢
      rw [if_neg (by rw [hvalid]; simp), hstable, hagain]
      dsimp only
      rw [hrests]
      rfl
    · intro ch
      show (b'.put stable f).get? ch = b'.get? ch
      rw [get?_put]
      split
      · rename_i hch
        rw [hch, hstable]
      · rfl

/-- No release of a unit takes a feed back, beta never falls behind stable, and a release that was just published
changes nothing. -/
theorem feeds_never_go_backwards (before after : List Cut) (cut : Cut) :
    (∀ ch f, (publishAll before Table.empty).get? ch = some f →
        ∃ f', (publishAll (before ++ after) Table.empty).get? ch = some f' ∧ NotAfter f.version f'.version ∧
          f.published ≤ f'.published) ∧
      (∀ f, (publishAll before Table.empty).get? stable = some f →
        ∃ g, (publishAll before Table.empty).get? beta = some g ∧ NotAfter f.version g.version) ∧
      ∀ outs, cut.plan (publishAll before Table.empty) = .ok outs →
        ∃ outs', cut.plan (applyFeeds (publishAll before Table.empty) outs) = .ok outs' ∧
          ∀ ch, (applyFeeds (applyFeeds (publishAll before Table.empty) outs) outs').get? ch =
            (applyFeeds (publishAll before Table.empty) outs).get? ch := by
  obtain ⟨hordered, -⟩ := Ordered.empty.publishAll before
  obtain ⟨hordered', hgrows⟩ := hordered.publishAll after
  refine ⟨?_, ?_, fun outs houts => plan_again houts⟩
  · intro ch f hf
    obtain ⟨f', hf', hversion, hpublished⟩ := hgrows ch f hf
    have hnot : NotAfter f.version f'.version :=
      (notAfter_iff (hordered.valid ch f hf) (hordered'.valid ch f' hf')).mpr hversion
    refine ⟨f', ?_, hnot, hpublished⟩
    unfold publishAll at hf' ⊢
    rw [List.foldl_append]
    exact hf'
  · intro f hf
    obtain ⟨g, hg, hle⟩ := hordered.ahead f hf
    exact ⟨g, hg, (notAfter_iff (hordered.valid stable f hf) (hordered.valid beta g hg)).mpr hle⟩

private def cutOf (version channel published : String) : Cut where
  release := ⟨"luna".toList, version.toList, channel.toList, [], published.toList, none,
    [⟨"lunad".toList, "linux".toList, "amd64".toList, "lunad".toList, [], [], 0, []⟩]⟩
  files := fun _ => some ⟨1, "00".toList⟩
  urlFor := fun v f => v ++ ['/'] ++ f

example : ((publishAll [cutOf "1.0.0" "stable" "2026-01-01", cutOf "1.1.0-beta.2" "beta" "2026-02-01",
    cutOf "1.1.0-beta.1" "beta" "2026-03-01", cutOf "1.0.1" "stable" "2026-03-02"] Table.empty).rows.map
      fun r => (r.1, r.2.version)) = [(beta, "1.1.0-beta.2".toList), (stable, "1.0.1".toList)] := by
  decide +kernel

end LibreServ.Publish
