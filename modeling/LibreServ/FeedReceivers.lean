import LibreServ.ReleaseFeeds

/-! The two receivers of release feeds: `check` in the crate `luna-feed`, and `Check` in Sol's package `feed`. A feed is
given with the types its fields are documented to have. The libraries for versions are parameters. -/

namespace LibreServ.Receivers

open List Option
open Files (Text)
open Publish (Feed Part)

structure Request where
  unit : Text
  channel : Text
  part : Text
  os : Text
  arch : Text
  installedVersion : Text
  /-- Empty for none. -/
  newestPublishedSeen : Text

/-- What the receivers use of the crate `semver` and of Masterminds' package. -/
structure VersionLibraries (V : Type) where
  /-- `Version::parse`. -/
  parse : Text → Option V
  toString : V → Text
  /-- `StrictNewVersion`. -/
  strictNewVersion : Text → Option V
  precedence : V → V → Ordering
  /-- The order of the build metadata of two versions. -/
  buildOrder : V → V → Ordering

namespace VersionLibraries

variable {V : Type} (lib : VersionLibraries V)

/-- The crate orders by precedence and then by build metadata. -/
def cmp (a b : V) : Ordering := (lib.precedence a b).then (lib.buildOrder a b)

/-- Masterminds orders by precedence. -/
def greaterThan (a b : V) : Bool := lib.precedence a b = .gt

/-- Both libraries read strict versions, and what the crate has read it shows as it was. -/
structure Documented : Prop where
  shown : ∀ s v, lib.parse s = some v → lib.toString v = s
  strict : ∀ s, lib.strictNewVersion s = lib.parse s

end VersionLibraries

inductive Refusal where
  | badSignature
  | malformed (why : String)
  | unknownFormat
  | wrongUnit
  | wrongChannel
  | replayed
  | missingPart
  | badVersion (version : Text)
  deriving DecidableEq

def format : Nat := 1

def any : Text := "any".toList

/-! ### `luna-feed` -/

structure Verified where
  feed : Feed
  part : Part
  newer : Bool
  older : Bool

def validPublishedAt (i : Nat) (c : Char) : Bool :=
  if i = 4 ∨ i = 7 then c = '-'
  else if i = 10 then c = 'T'
  else if i = 13 ∨ i = 16 then c = ':'
  else if i = 19 then c = 'Z'
  else '0' ≤ c && c ≤ '9'

def validPublished (s : Text) : Bool := s.length = 20 && s.zipIdx.all fun (c, i) => validPublishedAt i c

def selectPart (parts : List Part) (name os arch : Text) : Option Part :=
  parts.find? fun p => p.name = name && (p.os = os || p.os = any) && (p.arch = arch || p.arch = any)

section

variable {V : Type} (lib : VersionLibraries V)

def parseVersion (s : Text) : Except Refusal V :=
  match lib.parse s with
  | some v => if lib.toString v = s then .ok v else .error (.badVersion s)
  | none => .error (.badVersion s)

def checkRust (signed : Bool) (feed : Feed) (req : Request) : Except Refusal Verified :=
  if !signed then .error .badSignature
  else if feed.format ≠ format then .error .unknownFormat
  else if feed.unit ≠ req.unit then .error .wrongUnit
  else if feed.channel ≠ req.channel then .error .wrongChannel
  else if !validPublished feed.published then .error (.malformed "published is not a UTC timestamp")
  else if req.newestPublishedSeen ≠ [] ∧ feed.published < req.newestPublishedSeen then .error .replayed
  else
    match selectPart feed.parts req.part req.os req.arch with
    | none => .error .missingPart
    | some part => do
      let latest ← parseVersion lib feed.version
      let installed ← parseVersion lib req.installedVersion
      return ⟨feed, part, lib.cmp latest installed = .gt, lib.cmp latest installed = .lt⟩

/-! ### Sol's `feed` -/

structure Result where
  feed : Feed
  part : Part
  update : Bool

def parseVersionGo (s : Text) : Except Refusal V :=
  match lib.strictNewVersion s with
  | some v => .ok v
  | none => .error (.badVersion s)

def checkGo (signed : Bool) (feed : Feed) (req : Request) : Except Refusal Result :=
  if !signed then .error .badSignature
  else if feed.format ≠ 1 then .error .unknownFormat
  else if feed.unit ≠ req.unit then .error .wrongUnit
  else if feed.channel ≠ req.channel then .error .wrongChannel
  else if req.newestPublishedSeen ≠ [] ∧ feed.published < req.newestPublishedSeen then .error .replayed
  else
    match feed.parts.find? fun p => p.name = req.part && (p.os = req.os || p.os = any) &&
        (p.arch = req.arch || p.arch = any) with
    | none => .error .missingPart
    | some part => do
      let installed ← parseVersionGo lib req.installedVersion
      let latest ← parseVersionGo lib feed.version
      return ⟨feed, part, lib.greaterThan latest installed⟩

/-! ### Agreement -/

/-- Both receivers refuse, or both take the same part and agree on whether the feed is newer. -/
def Alike : Except Refusal Verified → Except Refusal Result → Prop
  | .ok v, .ok r => v.feed = r.feed ∧ v.part = r.part ∧ v.newer = r.update
  | .error _, .error _ => True
  | _, _ => False

instance : ∀ a b, Decidable (Alike a b)
  | .ok _, .ok _ => inferInstanceAs (Decidable (_ ∧ _ ∧ _))
  | .error _, .error _ => .isTrue trivial
  | .ok _, .error _ => .isFalse id
  | .error _, .ok _ => .isFalse id

/-- The feed passes the rules that both receivers check. -/
structure Passes (signed : Bool) (feed : Feed) (req : Request) (part : Part) (latest installed : V) : Prop where
  signed : signed = true
  format : feed.format = 1
  unit : feed.unit = req.unit
  channel : feed.channel = req.channel
  fresh : ¬ (req.newestPublishedSeen ≠ [] ∧ feed.published < req.newestPublishedSeen)
  part : selectPart feed.parts req.part req.os req.arch = some part
  latest : lib.parse feed.version = some latest
  installed : lib.parse req.installedVersion = some installed

/-- Such a feed tells its time as documented, and its version does not differ from the installed one by later build
metadata alone. -/
def Plain (signed : Bool) (feed : Feed) (req : Request) : Prop :=
  ∀ part latest installed, Passes lib signed feed req part latest installed →
    validPublished feed.published = true ∧
      ¬ (lib.precedence latest installed = .eq ∧ lib.buildOrder latest installed = .gt)

variable {lib} {signed : Bool} {feed : Feed} {req : Request}

theorem parseVersion_eq (hdoc : lib.Documented) (s : Text) :
    parseVersion lib s = (lib.parse s).elim (.error (.badVersion s)) .ok := by
  rw [parseVersion]
  cases hparse : lib.parse s with
  | none => rfl
  | some v => exact if_pos (hdoc.shown s v hparse)

theorem parseVersionGo_eq (hdoc : lib.Documented) (s : Text) :
    parseVersionGo lib s = (lib.parse s).elim (.error (.badVersion s)) .ok := by
  rw [parseVersionGo, hdoc.strict]
  cases lib.parse s <;> rfl

theorem newer_iff (a b : V) : decide (lib.cmp a b = .gt) = lib.greaterThan a b ↔
    ¬ (lib.precedence a b = .eq ∧ lib.buildOrder a b = .gt) := by
  rw [VersionLibraries.cmp, VersionLibraries.greaterThan]
  cases lib.precedence a b <;> cases lib.buildOrder a b <;> decide

theorem checkRust_ok_iff (hdoc : lib.Documented) {v : Verified} : checkRust lib signed feed req = .ok v ↔
    ∃ part latest installed, Passes lib signed feed req part latest installed ∧ validPublished feed.published = true ∧
      v = ⟨feed, part, lib.cmp latest installed = .gt, lib.cmp latest installed = .lt⟩ := by
  constructor
  · intro h
    rw [checkRust] at h
    split_ifs at h with hsigned hformat hunit hchannel hpublished hreplayed
    cases hpart : selectPart feed.parts req.part req.os req.arch with
    | none =>
      rw [hpart] at h
      cases h
    | some part =>
      simp only [hpart, parseVersion_eq hdoc] at h
      cases hlatest : lib.parse feed.version with
      | none =>
        rw [hlatest] at h
        cases h
      | some latest =>
        cases hinstalled : lib.parse req.installedVersion with
        | none =>
          rw [hlatest, hinstalled] at h
          cases h
        | some installed =>
          rw [hlatest, hinstalled] at h
          cases h
          refine ⟨part, latest, installed, ?_, by simpa using hpublished, rfl⟩
          exact ⟨by simpa using hsigned, not_not.mp hformat, not_not.mp hunit, not_not.mp hchannel, hreplayed,
            hpart, hlatest, hinstalled⟩
  · rintro ⟨part, latest, installed, h, hpublished, rfl⟩
    have hformat : ¬ feed.format ≠ Receivers.format := not_not.mpr h.format
    rw [checkRust, if_neg (by simp [h.signed]), if_neg hformat, if_neg (not_not.mpr h.unit),
      if_neg (not_not.mpr h.channel), if_neg (by simp [hpublished]), if_neg h.fresh]
    simp only [h.part, parseVersion_eq hdoc, h.latest, h.installed]
    rfl

theorem checkGo_ok_iff (hdoc : lib.Documented) {r : Result} : checkGo lib signed feed req = .ok r ↔
    ∃ part latest installed, Passes lib signed feed req part latest installed ∧
      r = ⟨feed, part, lib.greaterThan latest installed⟩ := by
  have hselect : (feed.parts.find? fun p => p.name = req.part && (p.os = req.os || p.os = any) &&
      (p.arch = req.arch || p.arch = any)) = selectPart feed.parts req.part req.os req.arch := rfl
  rw [checkGo, hselect]
  constructor
  · intro h
    split_ifs at h with hsigned hformat hunit hchannel hreplayed
    cases hpart : selectPart feed.parts req.part req.os req.arch with
    | none =>
      rw [hpart] at h
      cases h
    | some part =>
      simp only [hpart, parseVersionGo_eq hdoc] at h
      cases hlatest : lib.parse feed.version with
      | none =>
        cases hinstalled : lib.parse req.installedVersion <;>
          · rw [hlatest, hinstalled] at h
            cases h
      | some latest =>
        cases hinstalled : lib.parse req.installedVersion with
        | none =>
          rw [hinstalled] at h
          cases h
        | some installed =>
          rw [hlatest, hinstalled] at h
          cases h
          refine ⟨part, latest, installed, ?_, rfl⟩
          exact ⟨by simpa using hsigned, not_not.mp hformat, not_not.mp hunit, not_not.mp hchannel, hreplayed,
            hpart, hlatest, hinstalled⟩
  · rintro ⟨part, latest, installed, h, rfl⟩
    rw [if_neg (by simp [h.signed]), if_neg (not_not.mpr h.format), if_neg (not_not.mpr h.unit),
      if_neg (not_not.mpr h.channel), if_neg h.fresh]
    simp only [h.part, parseVersionGo_eq hdoc, h.latest, h.installed]
    rfl

theorem Passes.unique {part part' : Part} {latest latest' installed installed' : V}
    (h : Passes lib signed feed req part latest installed) (h' : Passes lib signed feed req part' latest' installed') :
    part = part' ∧ latest = latest' ∧ installed = installed' :=
  ⟨some.inj (h.part.symm.trans h'.part), some.inj (h.latest.symm.trans h'.latest),
    some.inj (h.installed.symm.trans h'.installed)⟩

end

/-! ### A feed of every kind -/

/-- The libraries on numbers of fifteen digits at most. -/
def shortLibraries : VersionLibraries (Text × Text) where
  parse s :=
    let core := s.takeWhile (· ≠ '+')
    let build := (s.dropWhile (· ≠ '+')).drop 1
    if Publish.validSemver core ∧ (core = s ∨ (build.splitOn '.').all Publish.isIdent) then some (core, build) else none
  toString v := if v.2 = [] then v.1 else v.1 ++ '+' :: v.2
  strictNewVersion s :=
    let core := s.takeWhile (· ≠ '+')
    let build := (s.dropWhile (· ≠ '+')).drop 1
    if Publish.validSemver core ∧ (core = s ∨ (build.splitOn '.').all Publish.isIdent) then some (core, build) else none
  precedence a b := (Publish.compareSemver a.1 b.1).toOption.getD .eq
  buildOrder a b := if a.2 < b.2 then .lt else if a.2 = b.2 then .eq else .gt

theorem shortLibraries_documented : shortLibraries.Documented where
  shown := by
    intro s v h
    simp only [shortLibraries] at h ⊢
    split at h
    · rename_i hvalid
      cases h
      have hwhole := takeWhile_append_dropWhile (p := (· ≠ '+')) (l := s)
      cases hrest : s.dropWhile (· ≠ '+') with
      | nil =>
        rw [hrest, append_nil] at hwhole
        rw [drop_nil, if_pos rfl, hwhole]
      | cons ch build =>
        have hplus : ch = '+' := by
          have hhead := head?_dropWhile_not (· ≠ '+') s
          rw [hrest] at hhead
          simpa using hhead
        subst hplus
        rw [hrest] at hwhole hvalid
        have hbuild : build ≠ [] := by
          rintro rfl
          rcases hvalid.2 with hcore | hident
          · rw [hcore] at hwhole
            simpa using congrArg length hwhole
          · exact absurd hident (by decide)
        rw [drop_one, tail_cons, if_neg hbuild, hwhole]
    · cases h
  strict _ := rfl

def apkFeed (version published : String) : Feed where
  format := 1
  unit := "luna-android".toList
  channel := Publish.stable
  version := version.toList
  published := published.toList
  notes := []
  parts := [⟨"apk".toList, "android".toList, any, "luna-android.apk".toList, 5, [], []⟩]
  api := none

def apkRequest (installed : String) : Request where
  unit := "luna-android".toList
  channel := Publish.stable
  part := "apk".toList
  os := "android".toList
  arch := "arm64".toList
  installedVersion := installed.toList
  newestPublishedSeen := []

end LibreServ.Receivers
