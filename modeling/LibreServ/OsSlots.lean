import LibreServ.Runs

/-! An operating-system update on a box with two slots. Three programs change the same few variables: lunad writes the
spare slot and arms it, the boot loader picks a slot and counts the tries, and `luna-boot-ok` confirms a boot that
answers. The box can lose power between any two of their steps. -/

namespace LibreServ.OsSlots

inductive Slot where
  | A
  | B
  deriving DecidableEq, Repr

def Slot.other : Slot → Slot
  | .A => .B
  | .B => .A

theorem Slot.other_ne (s : Slot) : s.other ≠ s := by cases s <;> decide

/-- What the partition of a slot holds: the image that was written to it last, whether all of it arrived, whether
`e2fsck` passed since, and whether the filesystem has the ID that the boot menu looks for. `mixed` says that another
image was being written at the same time. -/
structure Content (Image : Type) where
  image : Image
  whole : Bool
  checked : Bool
  pinned : Bool
  mixed : Bool
  deriving DecidableEq, Repr

structure GrubEnv where
  luna_slot : Slot
  luna_boot_ok : Bool
  luna_tries : Nat
  deriving DecidableEq, Repr

/-- What the boot menu does before it starts an entry. -/
def GrubEnv.countDown (env : GrubEnv) : GrubEnv :=
  if env.luna_boot_ok then env
  else
    match env.luna_tries with
    | 0 => ⟨env.luna_slot.other, true, 3⟩
    | 1 => { env with luna_tries := 0 }
    | 2 => { env with luna_tries := 1 }
    | _ => { env with luna_tries := 2 }

structure Pending (Image : Type) where
  hash : Image
  slot : Slot
  boot_id : Nat
  version : String
  deriving DecidableEq, Repr

/-- `os-image.sha256`, `os-image.pending` and `os-image.failed`. An image is known by its hash. -/
structure OsFiles (Image : Type) where
  hash : Option Image
  pending : Option (Pending Image)
  failed : Option (Image × String)
  deriving DecidableEq, Repr

/-- A feed whose signature is good: the version, whether it is behind what runs, and the OS part. -/
structure Feed (Image : Type) where
  version : String
  older : Bool
  os : Option Image
  deriving DecidableEq, Repr

inductive Settle where
  | nothing
  | sameBoot
  | unconfirmed
  | booted
  | fellBack
  deriving DecidableEq, Repr

variable {Image : Type}

/-- `writes`: the verdict could be written; `unfails`, `unpends`: so could the removal of the other two files. -/
def OsFiles.settle_pending (files : OsFiles Image) (booted : Slot) (boot_id : Nat) (boot_ok writes unfails unpends : Bool) :
    OsFiles Image × Settle :=
  match files.pending with
  | none => (files, .nothing)
  | some p =>
    if p.boot_id = boot_id then (files, .sameBoot)
    else if booted = p.slot then
      if !boot_ok then (files, .unconfirmed)
      else if !writes then (files, .nothing)
      else
        (⟨some p.hash, if unpends then none else files.pending, if unfails then none else files.failed⟩, .booted)
    else if !writes then (files, .nothing)
    else (⟨files.hash, if unpends then none else files.pending, some (p.hash, p.version)⟩, .fellBack)

/-- The image to write, where `os_needed` holds. -/
def OsFiles.os_needed [DecidableEq Image] (files : OsFiles Image) (feed : Feed Image) : Option Image :=
  match feed.os, files.hash with
  | some part, some held =>
    if !feed.older ∧ held ≠ part ∧ files.pending.map Pending.hash ≠ some part ∧ files.failed.map Prod.fst ≠ some part then
      some part
    else none
  | _, _ => none

/-- How far an `apply` has come: the image is downloaded, the slot is being written, it is written, its filesystem is
checked, it has its ID; then the three writes of `arm`. -/
inductive Phase where
  | downloaded
  | writing
  | written
  | checked
  | identified
  | slotArmed
  | okArmed
  | armed
  | ended
  deriving DecidableEq, Repr

/-- Between the start of the write and `arm`. -/
def Phase.atWork : Phase → Bool
  | .writing | .written | .checked | .identified => true
  | _ => false

structure Updater (Image : Type) where
  image : Image
  version : String
  inactive : Slot
  phase : Phase
  deriving DecidableEq, Repr

/-- How far `luna-boot-ok` has come; `saved` as in the script. -/
inductive BootOk where
  | waiting
  | answered
  | slotRecorded
  | okRecorded (saved : Bool)
  | triesRecorded (saved : Bool)
  | ended
  deriving DecidableEq, Repr

/-- `running` is the slot the box has booted from, `marker` is `/run/luna/boot-ok`. The images that answered `luna-boot-ok`
are kept in `confirmed`, with the one from the factory. -/
structure State (Image : Type) where
  slots : Slot → Content Image
  env : GrubEnv
  running : Option Slot
  boot_id : Nat
  marker : Option Nat
  files : OsFiles Image
  updaters : List (Updater Image)
  bootOk : BootOk
  confirmed : List Image

/-- The factory writes one image to both slots. -/
def install (factory : Image) : State Image where
  slots _ := ⟨factory, true, true, true, false⟩
  env := ⟨.A, true, 3⟩
  running := none
  boot_id := 0
  marker := none
  files := ⟨some factory, none, none⟩
  updaters := []
  bootOk := .ended
  confirmed := [factory]

inductive Action (Image : Type) where
  | cut
  | start (first other : Bool)
  | check (up mounted : Bool)
  | record (done : Bool)
  | settle_os_boot (writes unfails unpends : Bool)
  | clear_os_failed
  | apply (feed : Feed Image)
  | advance (k : Nat)
  | giveUp (k : Nat)
  deriving DecidableEq, Repr

namespace State

section Boot

variable (st : State Image)

/-- The power goes, or the box restarts: `/run` is lost and so is every program under way. -/
def cut : State Image := { st with running := none, marker := none, updaters := [], bootOk := .ended }

/-- The boot loader. `first` and `other` say which of the two entries would load: an entry does not when no filesystem
has the ID it looks for. -/
def start (first other : Bool) : State Image :=
  let env := st.env.countDown
  let slot := env.luna_slot
  { st with
    env := env
    running :=
      if first && (st.slots slot).pinned then some slot
      else if other && (st.slots slot.other).pinned then some slot.other
      else none
    boot_id := st.boot_id + 1
    bootOk := .waiting }

/-- `luna-boot-ok` has asked lunad, and mounted the boot loader's partition. Where lunad does not answer under a try
count, the script restarts the box. -/
def check (running : Slot) (up mounted : Bool) : State Image :=
  if up && mounted then { st with bootOk := .answered, confirmed := (st.slots running).image :: st.confirmed }
  else if !up && mounted && !st.env.luna_boot_ok then st.cut
  else { st with bootOk := .ended }

/-- The next write of `luna-boot-ok`. Only the second one counts as saved. -/
def record (running : Slot) (done : Bool) : Option (State Image) :=
  match st.bootOk with
  | .answered =>
    some { st with bootOk := .slotRecorded, env := if done then { st.env with luna_slot := running } else st.env }
  | .slotRecorded =>
    some { st with bootOk := .okRecorded done, env := if done then { st.env with luna_boot_ok := true } else st.env }
  | .okRecorded saved =>
    some { st with bootOk := .triesRecorded saved, env := if done then { st.env with luna_tries := 3 } else st.env }
  | .triesRecorded saved =>
    some { st with bootOk := .ended, marker := if saved && done then some st.boot_id else st.marker }
  | _ => none

def settle_os_boot (running : Slot) (writes unfails unpends : Bool) : State Image :=
  { st with
    files := (st.files.settle_pending running st.boot_id (st.marker = some st.boot_id) writes unfails unpends).1 }

end Boot

variable [DecidableEq Image] (st : State Image)

/-- `apply`, up to the download of the image. The boot loader's and the settled files are read before. -/
def apply (running : Slot) (feed : Feed Image) : State Image :=
  match st.files.os_needed feed with
  | some image => { st with updaters := st.updaters ++ [⟨image, feed.version, running.other, .downloaded⟩] }
  | none => st

def setContent (slot : Slot) (f : Content Image → Content Image) : State Image :=
  { st with slots := Function.update st.slots slot (f (st.slots slot)) }

def setPhase (k : Nat) (u : Updater Image) (phase : Phase) : State Image :=
  { st with updaters := st.updaters.set k { u with phase := phase } }

/-- Somebody is writing another image to the spare slot, or is still writing after that. -/
def mixes (image : Image) (slot : Slot) : Bool :=
  st.updaters.any fun v => v.phase = .writing ∧ (v.image ≠ image ∨ (st.slots slot).mixed)

/-- The next step of `write_os_slot`, or `mark_os_pending` after it. -/
def advance (running : Slot) (k : Nat) (u : Updater Image) : Option (State Image) :=
  match u.phase with
  | .downloaded =>
    some ((st.setContent u.inactive fun _ =>
      ⟨u.image, false, false, false, st.mixes u.image u.inactive⟩).setPhase k u .writing)
  | .writing => some ((st.setContent u.inactive fun c => { c with whole := !c.mixed }).setPhase k u .written)
  | .written => some ((st.setContent u.inactive fun c => { c with checked := true }).setPhase k u .checked)
  | .checked => some ((st.setContent u.inactive fun c => { c with pinned := true }).setPhase k u .identified)
  | .identified => some (({ st with env := { st.env with luna_slot := u.inactive } }).setPhase k u .slotArmed)
  | .slotArmed => some (({ st with env := { st.env with luna_boot_ok := false } }).setPhase k u .okArmed)
  | .okArmed => some (({ st with env := { st.env with luna_tries := 3 } }).setPhase k u .armed)
  | .armed =>
    some (({ st with
      files := { st.files with pending := some ⟨u.image, running.other, st.boot_id, u.version⟩ } }).setPhase k u .ended)
  | .ended => none

/-- Only a box that is off is started; everything else but a power cut takes one that runs. -/
def step : Action Image → Option (State Image)
  | .cut => some st.cut
  | .start first other => if st.running = none then some (st.start first other) else none
  | .check up mounted => if st.bootOk = .waiting then st.running.map fun running => st.check running up mounted else none
  | .record done => st.running.bind fun running => st.record running done
  | .settle_os_boot writes unfails unpends =>
    st.running.map fun running => st.settle_os_boot running writes unfails unpends
  | .clear_os_failed => st.running.map fun _ => { st with files := { st.files with failed := none } }
  | .apply feed => st.running.map fun running => st.apply running feed
  | .advance k => st.running.bind fun running => st.updaters[k]?.bind fun u => st.advance running k u
  | .giveUp k => st.updaters[k]?.map fun u => st.setPhase k u .ended

end State

end LibreServ.OsSlots
