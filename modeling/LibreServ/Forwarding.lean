import LibreServ.PrivateItems
import LibreServ.Runs
import LibreServ.Trails

/-! Forwarding addresses for moved files, from `files/forwarding.rs`. Every move or rename of a file or a folder leaves
an entry from its old place to its new one; a link to an old path follows the entries, the one of the longest path
first, until something is there. -/

namespace LibreServ.Files.Forwarding

open List Option Table

variable {old q : Place} {moves : PathMoves} {entry : Forward}

/-- A path on one of the drives. -/
structure Place where
  drive : Text
  path : Text
  deriving DecidableEq

structure Forward where
  newPlace : Place
  movedAt : Int
  deriving DecidableEq

/-- The table `path_moves`, by drive and old path. -/
abbrev PathMoves := Table Place Forward

def forwardTtlSecs : Int := 365 * 24 * 60 * 60

def maxHops : Nat := 16

def isTrashPath (path : Text) : Bool := path = trashApiAlias || (trashApiAlias ++ ['/']).isPrefixOf path

def record (now : Int) (old new : Place) (moves : PathMoves) : PathMoves :=
  let old := { old with path := normalizeSubjectPath old.path }
  let new := { new with path := normalizeSubjectPath new.path }
  if old.path = [] ∨ new.path = [] ∨ isTrashPath old.path ∨ isTrashPath new.path ∨ old = new then moves
  else (moves.put old ⟨new, now⟩).keep fun _ entry => ¬ entry.movedAt < now - forwardTtlSecs

/-- The path itself, or a folder above it. -/
def covers (old q : Place) : Bool :=
  old.drive = q.drive && (old.path = q.path || (old.path ++ ['/']).isPrefixOf q.path)

/-- The rest of the path, carried over. -/
def carryOver (old new q : Place) : Place := ⟨new.drive, new.path ++ q.path.drop old.path.length⟩

def nextHop (moves : PathMoves) (q : Place) : Option Place :=
  ((moves.select fun old _ => covers old q).argmax fun r => r.1.path.length).map fun r => carryOver r.1 r.2.newPlace q

def resolve (moves : PathMoves) (isThere : Place → Bool) (q : Place) : Option Place :=
  let q := { q with path := normalizeSubjectPath q.path }
  if q.path = [] then none else Trail.follow (nextHop moves) isThere maxHops [q] q

/-! ### Files and folders that move -/

/-- A move or a rename, and when it is recorded. -/
structure Move where
  src : Place
  dst : Place
  now : Int
  deriving DecidableEq

/-- Where something is after the move. -/
def Move.carry (m : Move) (p : Place) : Place := if covers m.src p then carryOver m.src m.dst p else p

/-- Where every file and folder is, and the entries left behind. -/
structure Whereabouts (ι : Type) where
  items : Table ι Place
  moves : PathMoves

section Moving

variable {ι : Type}

/-- Something moves with all it holds to a path that is free and not its own. -/
def Whereabouts.step (w : Whereabouts ι) (m : Move) : Option (Whereabouts ι) :=
  if (w.items.any fun _ p => p = m.src) ∧ (w.items.any fun _ p => covers m.dst p) = false ∧
      covers m.src m.dst = false then
    some ⟨w.items.update fun _ p => m.carry p, record m.now m.src m.dst w.moves⟩
  else none

variable [DecidableEq ι]

/-- Where an item is after the first `i` moves. -/
def Whereabouts.placeAfter (w : Whereabouts ι) (ms : List Move) (i : Nat) (x : ι) : Option Place :=
  (Runs.run Whereabouts.step (ms.take i) w).bind fun u => u.items.get? x

def Whereabouts.holds (w : Whereabouts ι) (q : Place) : Bool := w.items.any fun _ p => p = q

/-- No other item is ever at a path the item has had. -/
def Whereabouts.Alone (w : Whereabouts ι) (ms : List Move) (x : ι) : Prop :=
  ∀ i j y q, i ≤ ms.length → j ≤ ms.length → w.placeAfter ms i x = some q → w.placeAfter ms j y = some q → y = x

/-- Move `t` takes the item away from `q`, and it never comes back there. -/
def Whereabouts.Leaves (w : Whereabouts ι) (ms : List Move) (x : ι) (t : Nat) (q : Place) : Prop :=
  t < ms.length ∧ w.placeAfter ms t x = some q ∧ ∀ i, t < i → i ≤ ms.length → w.placeAfter ms i x ≠ some q

/-- Of the moves that took anything away from a place the item has left for good, or from a folder above it, only the
one it left with and earlier ones from the same folder were as close to that place. -/
def Whereabouts.Clear (w : Whereabouts ι) (ms : List Move) (x : ι) : Prop :=
  ∀ t q m, w.Leaves ms x t q → ms[t]? = some m → ∀ j m', ms[j]? = some m' → covers m'.src q = true →
    m'.src.path.length < m.src.path.length ∨ (m'.src = m.src ∧ j ≤ t)

end Moving

/-- A path that is recorded as it stands. -/
def Plain (p : Place) : Prop := normalizeSubjectPath p.path = p.path ∧ p.path ≠ [] ∧ isTrashPath p.path = false

instance (p : Place) : Decidable (Plain p) := inferInstanceAs (Decidable (_ ∧ _))

/-- Nothing goes into the trash or comes out of it. -/
def Outside (ms : List Move) : Prop := ∀ m ∈ ms, Plain m.src ∧ Plain m.dst

/-- Recorded within the retention time. -/
def Retained (ms : List Move) : Prop := ms.Pairwise fun a b => b.now - forwardTtlSecs ≤ a.now

/-! ### The entries of a run -/

theorem covers_self (q : Place) : covers q q = true := by
  rw [covers, decide_eq_true rfl, decide_eq_true rfl]
  rfl

theorem isPrefixOf_cover (h : covers old q = true) : old.drive = q.drive ∧ old.path <+: q.path := by
  rw [covers, Bool.and_eq_true, Bool.or_eq_true, decide_eq_true_eq, decide_eq_true_eq, isPrefixOf_iff_prefix] at h
  refine ⟨h.1, ?_⟩
  rcases h.2 with heq | hpre
  · rw [heq]
  · exact (prefix_append _ _).trans hpre

/-- Two entries that cover one path are told apart by the length of theirs. -/
theorem eq_of_cover {a b : Place} (ha : covers a q = true) (hb : covers b q = true)
    (hlen : a.path.length = b.path.length) : a = b := by
  obtain ⟨hda, hpa⟩ := isPrefixOf_cover ha
  obtain ⟨hdb, hpb⟩ := isPrefixOf_cover hb
  have hpath : a.path = b.path := (prefix_of_prefix_length_le hpa hpb (Nat.le_of_eq hlen)).eq_of_length hlen
  cases a
  cases b
  simp_all

/-- The hop follows the entry of the longest path. -/
theorem nextHop_eq (hget : moves.get? old = some entry)
    (hcover : covers old q = true) (hlong : ∀ old' entry', moves.get? old' = some entry' → covers old' q = true →
      old'.path.length ≤ old.path.length) : nextHop moves q = some (carryOver old entry.newPlace q) := by
  have hmem : (old, entry) ∈ moves.select fun old _ => covers old q := mem_select.mpr ⟨hget, hcover⟩
  rw [nextHop]
  cases hmax : (moves.select fun old _ => covers old q).argmax fun r => r.1.path.length with
  | none =>
    rw [argmax_eq_none] at hmax
    rw [hmax] at hmem
    cases hmem
  | some r =>
    obtain ⟨hget', hcover'⟩ := mem_select.mp (argmax_mem hmax)
    have hle : (old, entry).1.path.length ≤ r.1.path.length :=
      le_of_mem_argmax (f := fun r : Place × Forward => r.1.path.length) hmem hmax
    have hsame := eq_of_cover hcover' hcover (Nat.le_antisymm (hlong _ _ hget' hcover') hle)
    rw [hsame, hget] at hget'
    rw [map_some, hsame, some.inj hget']

theorem record_plain {now : Int} {new : Place} (hold : Plain old) (hnew : Plain new) (hne : old ≠ new)
    (moves : PathMoves) : record now old new moves =
      (moves.put old ⟨new, now⟩).keep fun _ entry => ¬ entry.movedAt < now - forwardTtlSecs := by
  have ho : ({ old with path := normalizeSubjectPath old.path } : Place) = old := by rw [hold.1]
  have hn : ({ new with path := normalizeSubjectPath new.path } : Place) = new := by rw [hnew.1]
  rw [record, ho, hn, if_neg]
  rintro (h | h | h | h | h)
  · exact hold.2.1 h
  · exact hnew.2.1 h
  · rw [hold.2.2] at h
    cases h
  · rw [hnew.2.2] at h
    cases h
  · exact hne h

def recordAll (ms : List Move) (moves : PathMoves) : PathMoves :=
  ms.foldl (fun moves m => record m.now m.src m.dst moves) moves

/-- Every move of the run is recorded. -/
def Recorded (ms : List Move) : Prop := ∀ m ∈ ms, Plain m.src ∧ Plain m.dst ∧ m.src ≠ m.dst

theorem get?_recordAll_kept {ms : List Move} (hms : Recorded ms)
    (hget : moves.get? old = some entry) (hother : ∀ m ∈ ms, m.src ≠ old ∧ m.now - forwardTtlSecs ≤ entry.movedAt) :
    (recordAll ms moves).get? old = some entry := by
  induction ms generalizing moves with
  | nil => exact hget
  | cons m ms ih =>
    obtain ⟨hsrc, hdst, hne⟩ := hms m mem_cons_self
    obtain ⟨hold, hnow⟩ := hother m mem_cons_self
    refine ih (fun m' hm' => hms m' (mem_cons_of_mem m hm')) ?_
      fun m' hm' => hother m' (mem_cons_of_mem m hm')
    show (record m.now m.src m.dst moves).get? old = some entry
    rw [record_plain hsrc hdst hne, Table.get?_keep, get?_put_of_ne _ _ (Ne.symm hold), hget, filter_some, if_pos]
    rw [decide_eq_true_eq]
    omega

theorem get?_recordAll_src {ms : List Move} (hms : Recorded ms)
    (hget : (recordAll ms moves).get? old = some entry) : (∃ entry, moves.get? old = some entry) ∨ ∃ m ∈ ms, m.src = old := by
  induction ms generalizing moves with
  | nil => exact .inl ⟨entry, hget⟩
  | cons m ms ih =>
    obtain ⟨hsrc, hdst, hne⟩ := hms m mem_cons_self
    rcases ih (fun m' hm' => hms m' (mem_cons_of_mem m hm')) hget with ⟨found, hfound⟩ | ⟨m', hm', heq⟩
    · have hput : (record m.now m.src m.dst moves).get? old = some found := hfound
      rw [record_plain hsrc hdst hne, Table.get?_keep, filter_eq_some_iff, get?_put] at hput
      by_cases hsame : old = m.src
      · exact .inr ⟨m, mem_cons_self, hsame.symm⟩
      · rw [if_neg hsame] at hput
        exact .inl ⟨found, hput.1⟩
    · exact .inr ⟨m', mem_cons_of_mem m hm', heq⟩

/-! ### Where things are in a run -/

section Moving

variable {ι : Type} [DecidableEq ι] {w w' : Whereabouts ι} {ms : List Move} {x : ι}

def carryAll (ms : List Move) (p : Place) : Place := ms.foldl (fun p m => m.carry p) p

omit [DecidableEq ι] in
theorem step_some {m : Move} (h : w.step m = some w') :
    w'.items = (w.items.update fun _ p => m.carry p) ∧ w'.moves = record m.now m.src m.dst w.moves ∧
      covers m.src m.dst = false := by
  rw [Whereabouts.step] at h
  split at h
  · rename_i hgo
    obtain rfl := some.inj h
    exact ⟨rfl, rfl, hgo.2.2⟩
  · cases h

theorem run_some (h : Runs.run Whereabouts.step ms w = some w') :
    (∀ x, w'.items.get? x = (w.items.get? x).map (carryAll ms)) ∧ w'.moves = recordAll ms w.moves ∧
      ∀ m ∈ ms, covers m.src m.dst = false := by
  induction ms generalizing w with
  | nil =>
    obtain rfl := some.inj h
    refine ⟨fun x => ?_, rfl, fun m hm => (nomatch hm)⟩
    cases hget : w.items.get? x <;> rfl
  | cons m ms ih =>
    obtain ⟨u, hstep, hrest⟩ := bind_eq_some_iff.mp h
    obtain ⟨hitems, hmoves, hout⟩ := step_some hstep
    obtain ⟨hplaces, hentries, hothers⟩ := ih hrest
    refine ⟨fun x => ?_, ?_, fun m' hm' => ?_⟩
    · rw [hplaces, hitems, get?_update, Option.map_map]
      rfl
    · rw [hentries, hmoves]
      rfl
    · rcases mem_cons.mp hm' with rfl | hm'
      · exact hout
      · exact hothers m' hm'

section

variable (h : Runs.run Whereabouts.step ms w = some w')

include h

omit [DecidableEq ι] in
theorem run_take (i : Nat) :
    ∃ u, Runs.run Whereabouts.step (ms.take i) w = some u := by
  induction ms generalizing w i with
  | nil => exact ⟨w, by rw [take_nil]; rfl⟩
  | cons m ms ih =>
    cases i with
    | zero => exact ⟨w, rfl⟩
    | succ i =>
      obtain ⟨u, hstep, hrest⟩ := bind_eq_some_iff.mp h
      obtain ⟨v, hv⟩ := ih hrest i
      exact ⟨v, by rw [take_succ_cons, Runs.run, hstep, bind_some, hv]⟩

theorem placeAfter_eq (i : Nat) (x : ι) :
    w.placeAfter ms i x = (w.items.get? x).map (carryAll (ms.take i)) := by
  obtain ⟨u, hu⟩ := run_take h i
  rw [Whereabouts.placeAfter, hu, bind_some, (run_some hu).1]

end

theorem carryAll_take_succ {t : Nat} {m : Move} (hm : ms[t]? = some m) (p : Place) :
    carryAll (ms.take (t + 1)) p = m.carry (carryAll (ms.take t) p) := by
  rw [carryAll, take_add_one, hm, foldl_append]
  rfl

/-- The entry of the move an item left a place with leads to where it went. -/
theorem nextHop_of_leaves (hempty : w.moves = Table.empty) (hrun : Runs.run Whereabouts.step ms w = some w')
    (hms : Recorded ms) (hkept : Retained ms) (hclear : w.Clear ms x) {t : Nat} {m : Move}
    (hleaves : w.Leaves ms x t q) (hm : ms[t]? = some m) : nextHop w'.moves q = some (m.carry q) := by
  obtain ⟨hlt, hthere, hgone⟩ := hleaves
  have hcover : covers m.src q = true := by
    by_contra hnot
    rw [placeAfter_eq hrun] at hthere
    obtain ⟨p, hp, hq⟩ := map_eq_some_iff.mp hthere
    have hstay : w.placeAfter ms (t + 1) x = some q := by
      rw [placeAfter_eq hrun, hp, map_some, carryAll_take_succ hm, hq, Move.carry, if_neg hnot]
    exact hgone (t + 1) (Nat.lt_succ_self t) hlt hstay
  have hsplit : ms = ms.take t ++ m :: ms.drop (t + 1) := by
    obtain ⟨ht, rfl⟩ := List.getElem?_eq_some_iff.mp hm
    rw [← drop_eq_getElem_cons ht, take_append_drop]
  obtain ⟨hsrc, hdst, hne⟩ := hms m (mem_of_getElem? hm)
  have hentry : w'.moves.get? m.src = some ⟨m.dst, m.now⟩ := by
    rw [(run_some hrun).2.1, hsplit, recordAll, foldl_append, foldl_cons]
    apply get?_recordAll_kept fun m' hm' => hms m' (drop_subset _ _ hm')
    · rw [record_plain hsrc hdst hne, Table.get?_keep, get?_put_self, filter_some, if_pos]
      rw [decide_eq_true_eq]
      show ¬ m.now < m.now - 365 * 24 * 60 * 60
      omega
    · intro m' hm'
      constructor
      · intro heq
        obtain ⟨k, hk⟩ := mem_iff_getElem?.mp hm'
        rw [getElem?_drop] at hk
        rcases hclear t q m ⟨hlt, hthere, hgone⟩ hm _ m' hk (heq ▸ hcover) with hshort | ⟨-, hle⟩
        · rw [heq] at hshort
          exact absurd hshort (Nat.lt_irrefl _)
        · omega
      · have hpairs : (m :: ms.drop (t + 1)).Pairwise fun a b => b.now - forwardTtlSecs ≤ a.now := by
          rw [hsplit] at hkept
          exact (pairwise_append.mp hkept).2.1
        exact (pairwise_cons.mp hpairs).1 m' hm'
  rw [Move.carry, if_pos hcover]
  refine nextHop_eq hentry hcover fun old entry hget hold => ?_
  rw [(run_some hrun).2.1, hempty] at hget
  rcases get?_recordAll_src hms hget with ⟨entry', hnone⟩ | ⟨m', hm', rfl⟩
  · cases hnone
  · obtain ⟨j, hj⟩ := mem_iff_getElem?.mp hm'
    rcases hclear t q m ⟨hlt, hthere, hgone⟩ hm j m' hj hold with hshort | ⟨heq, -⟩
    · exact Nat.le_of_lt hshort
    · rw [heq]

/-- **Moved files stay findable.** -/
theorem moved_stay_findable {q p : Place} {i : Nat} (hempty : w.moves = Table.empty)
    (hrun : Runs.run Whereabouts.step ms w = some w') (hcount : ms.length ≤ maxHops) (hout : Outside ms)
    (hkept : Retained ms) (halone : w.Alone ms x) (hclear : w.Clear ms x) (hi : i ≤ ms.length)
    (hhad : w.placeAfter ms i x = some q) (hq : Plain q) (hnow : w'.items.get? x = some p) (hne : p ≠ q) :
    resolve w'.moves w'.holds q = some p := by
  have hms : Recorded ms := by
    intro m hm
    refine ⟨(hout m hm).1, (hout m hm).2, fun heq => ?_⟩
    have hinto := (run_some hrun).2.2 m hm
    rw [← heq, covers_self] at hinto
    cases hinto
  rw [placeAfter_eq hrun] at hhad
  obtain ⟨start, hstart, hcarried⟩ := map_eq_some_iff.mp hhad
  have hplace : ∀ i, w.placeAfter ms i x = some (carryAll (ms.take i) start) := fun i => by
    rw [placeAfter_eq hrun, hstart, map_some]
  have hend : carryAll (ms.take ms.length) start = p := by
    rw [(run_some hrun).1, hstart] at hnow
    rw [take_length]
    exact some.inj hnow
  have hleaves : ∀ t q, Trail.LeftForGood (fun i => carryAll (ms.take i) start) ms.length t q → w.Leaves ms x t q := by
    intro t q hleft
    refine ⟨hleft.early, by rw [hplace]; exact congrArg some hleft.there, fun i hti hin heq => ?_⟩
    rw [hplace] at heq
    exact hleft.gone i hti hin (some.inj heq)
  have hhop : ∀ t q, Trail.LeftForGood (fun i => carryAll (ms.take i) start) ms.length t q →
      nextHop w'.moves q = some (carryAll (ms.take (t + 1)) start) := by
    intro t q hleft
    obtain ⟨m, hm⟩ : ∃ m, ms[t]? = some m := ⟨_, getElem?_eq_getElem hleft.early⟩
    rw [nextHop_of_leaves hempty hrun hms hkept hclear (hleaves t q hleft) hm, carryAll_take_succ hm]
    exact congrArg some (congrArg _ hleft.there.symm)
  have hthere : w'.holds p = true := any_iff.mpr ⟨x, p, hnow, decide_eq_true rfl⟩
  -- Nothing else is where the item once was.
  have hfree : ∀ i, i ≤ ms.length → carryAll (ms.take i) start ≠ p → w'.holds (carryAll (ms.take i) start) = false := by
    intro i hi hne
    rw [← Bool.not_eq_true]
    intro hheld
    obtain ⟨y, p', hy, hp'⟩ := any_iff.mp hheld
    have hlast : w.placeAfter ms ms.length y = some (carryAll (ms.take i) start) := by
      rw [placeAfter_eq hrun, take_length, ← (run_some hrun).1, hy, of_decide_eq_true hp']
    have hsame := halone i ms.length y _ hi (Nat.le_refl _) (hplace i) hlast
    rw [hsame, hnow] at hy
    exact hne ((of_decide_eq_true hp').symm.trans (some.inj hy).symm)
  obtain ⟨t, -, hleft⟩ := Trail.exists_leftForGood (c := fun i => carryAll (ms.take i) start) hi hcarried (hend ▸ hne)
  have hnormal : ({ q with path := normalizeSubjectPath q.path } : Place) = q := by rw [hq.1]
  have hfuel : ms.length ≤ t + maxHops := by omega
  have hseen : ∀ s ∈ [q], ∀ i, t < i → i ≤ ms.length → carryAll (ms.take i) start ≠ s := by
    intro s hs i hti hin
    rw [mem_singleton.mp hs]
    exact hleft.gone i hti hin
  have hfound := Trail.follow_finds hhop (hend.symm ▸ hthere) (hend.symm ▸ hfree) hfuel hleft hseen
  rw [resolve, hnormal, if_neg hq.2.1, hfound, hend]

/-! ### A trail that is followed and one that is not -/

instance (t : Nat) (q : Place) : Decidable (w.Leaves ms x t q) :=
  decidable_of_iff (t < ms.length ∧ w.placeAfter ms t x = some q ∧
    ∀ i, i ≤ ms.length → t < i → w.placeAfter ms i x ≠ some q)
    ⟨fun h => ⟨h.1, h.2.1, fun i hti hin => h.2.2 i hin hti⟩, fun h => ⟨h.1, h.2.1, fun i hin hti => h.2.2 i hti hin⟩⟩

theorem clear_iff : w.Clear ms x ↔ ∀ t, t < ms.length → ∀ q ∈ w.placeAfter ms t x, w.Leaves ms x t q → ∀ m ∈ ms[t]?,
    ∀ j, j < ms.length → ∀ m' ∈ ms[j]?, covers m'.src q = true →
      m'.src.path.length < m.src.path.length ∨ (m'.src = m.src ∧ j ≤ t) := by
  constructor
  · intro h t _ q _ hleaves m hm j _ m' hm' hcover
    exact h t q m hleaves hm j m' hm' hcover
  · intro h t q m hleaves hm j m' hm' hcover
    obtain ⟨hj, -⟩ := List.getElem?_eq_some_iff.mp hm'
    exact h t hleaves.1 q hleaves.2.1 hleaves m hm j hj m' hm' hcover

set_option synthInstance.maxSize 256 in
instance : Decidable (w.Clear ms x) := decidable_of_iff' _ clear_iff

theorem alone_of_keys (hrun : Runs.run Whereabouts.step ms w = some w')
    (h : ∀ i, i ≤ ms.length → ∀ j, j ≤ ms.length → ∀ y ∈ w.items.keys, ∀ q ∈ w.placeAfter ms i x,
      w.placeAfter ms j y = some q → y = x) : w.Alone ms x := by
  intro i j y q hi hj hx hy
  refine h i hi j hj y ?_ q hx hy
  rw [placeAfter_eq hrun] at hy
  obtain ⟨p, hp, -⟩ := map_eq_some_iff.mp hy
  exact Table.mem_keys.mpr ⟨p, hp⟩

end Moving

def on (path : String) : Place := ⟨"d".toList, path.toList⟩

def moved (src dst : String) (now : Int) : Move := ⟨on src, on dst, now⟩

/-- Two folders and a file in one of them. -/
def twoFolders : Whereabouts Nat :=
  ⟨((Table.empty.put 0 (on "A")).put 1 (on "A/f")).put 2 (on "Z"), Table.empty⟩

/-- The file is renamed, its folder moves, and the file goes back to its old name. -/
def renamedAndBack : List Move := [moved "A/f" "A/g" 5, moved "A" "Z/A" 6, moved "Z/A/g" "Z/A/f" 7]

theorem renamed_and_back_found : ∃ w', Runs.run Whereabouts.step renamedAndBack twoFolders = some w' ∧
    resolve w'.moves w'.holds (on "A/g") = some (on "Z/A/f") := by
  have hrun : ((Runs.run Whereabouts.step renamedAndBack twoFolders).bind fun w' => w'.items.get? 1) =
      some (on "Z/A/f") := by decide +kernel
  obtain ⟨w', hw', hnow⟩ := bind_eq_some_iff.mp hrun
  have hout : Outside renamedAndBack := by
    rw [Outside]
    decide +kernel
  have hkept : Retained renamedAndBack := by
    rw [Retained]
    decide +kernel
  exact ⟨w', hw', moved_stay_findable (x := 1) (i := 1) rfl hw' (by decide) hout hkept
    (alone_of_keys hw' (by decide +kernel)) (by decide +kernel) (by decide) (by decide +kernel) (by decide +kernel) hnow
    (by decide +kernel)⟩

/-- Another folder takes the old name of the first one and moves on, and its entry takes the place of the older one. -/
def nameReused : List Move := [moved "A" "B" 5, moved "Z" "A" 6, moved "A" "Y" 7]

theorem reused_name_hides_trail : ∃ w', Runs.run Whereabouts.step nameReused twoFolders = some w' ∧
    twoFolders.moves = Table.empty ∧ nameReused.length ≤ maxHops ∧ Outside nameReused ∧ Retained nameReused ∧
    twoFolders.Alone nameReused 1 ∧ twoFolders.placeAfter nameReused 0 1 = some (on "A/f") ∧ Plain (on "A/f") ∧
    w'.items.get? 1 = some (on "B/f") ∧ w'.holds (on "A/f") = false ∧ resolve w'.moves w'.holds (on "A/f") = none := by
  have hrun : ((Runs.run Whereabouts.step nameReused twoFolders).map fun w' =>
      (w'.items.get? 1, w'.holds (on "A/f"), resolve w'.moves w'.holds (on "A/f"))) =
      some (some (on "B/f"), false, none) := by decide +kernel
  obtain ⟨w', hw', hends⟩ := map_eq_some_iff.mp hrun
  obtain ⟨hnow, hends⟩ := Prod.mk.inj hends
  obtain ⟨hgone, hlost⟩ := Prod.mk.inj hends
  have hout : Outside nameReused := by
    rw [Outside]
    decide +kernel
  have hkept : Retained nameReused := by
    rw [Retained]
    decide +kernel
  exact ⟨w', hw', rfl, by decide, hout, hkept, alone_of_keys hw' (by decide +kernel), by decide +kernel,
    by decide +kernel, hnow, hgone, hlost⟩

end LibreServ.Files.Forwarding
