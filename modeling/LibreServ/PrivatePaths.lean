import LibreServ.PrivateTrash

/-! The translation between real paths and paths on disk as `private.rs` runs it: walks over the segments of a text
that look every real path up among the rows. They do to texts what `diskIn`, `boundaryFor` and `logicalIn` do to
segments, and so the translation is exact. -/

namespace LibreServ.Files

open List Option Table Drive

variable {seg : Text} {d : Path}

/-- The segments a walk goes over. -/
def steps (rel : Text) : List Text := (split rel).filter kept

def joinPath (parent name : Text) : Text := if parent = [] then name else parent ++ '/' :: name

/-- The private items of a drive, by the one spelling of their real paths. -/
structure Rows where
  layout : Layout
  byPath : Table Text Item
  canonical : ∀ path item, byPath.get? path = some item → Files.canonical path = path
  ids : ∀ path path' item item', byPath.get? path = some item → byPath.get? path' = some item' →
    item.id = item'.id → path = path'

namespace Rows

structure Boundary where
  path : Text
  owner : Text
  deriving DecidableEq

variable (r : Rows)

/-- What a segment is called on disk. -/
def onDisk (logical seg : Text) : Text :=
  match r.byPath.get? logical with
  | some item => r.layout.diskName item.id
  | none => seg

def diskStep (walked : Text × Text) (seg : Text) : Text × Text :=
  let logical := joinPath walked.1 seg
  (logical, joinPath walked.2 (r.onDisk logical seg))

def diskIn (rel : Text) : Text := ((steps rel).foldl r.diskStep ([], [])).2

/-- The loop of `boundary_in`. -/
def boundaryLoop : List Text → Text → Option Boundary → Option Boundary
  | [], _, found => found
  | seg :: rest, logical, found =>
    if r.layout.isDiskName seg then some ⟨joinPath logical seg, ['\x00']⟩
    else
      match r.byPath.get? (joinPath logical seg) with
      | some item => boundaryLoop rest (joinPath logical seg) (some ⟨joinPath logical seg, item.owner⟩)
      | none => boundaryLoop rest (joinPath logical seg) found

def boundaryIn (rel : Text) : Option Boundary :=
  if r.byPath.rows = [] then none else r.boundaryLoop (steps rel) [] none

/-- The row a name on disk belongs to. -/
def byDiskName (seg : Text) : Option (Text × Item) :=
  if r.layout.lead.isPrefixOf seg then
    r.byPath.rows.find? fun row => row.2.id.1 = seg.drop r.layout.lead.length
  else none

def logicalStep (out seg : Text) : Text :=
  match r.byDiskName seg with
  | some row => row.1
  | none => joinPath out seg

def logicalIn (disk : Text) : Text :=
  if r.byPath.rows = [] then disk else (steps disk).foldl r.logicalStep []

/-! ### Texts and segments -/

/-- The same rows, by segments. -/
def drive : Drive where
  layout := r.layout
  disk := Table.empty
  items := Table.ofList (r.byPath.rows.map fun row => (segments row.1, row.2))
  trashMeta := Table.empty

end Rows

theorem reverse_segments (path : Text) : (segments path).reverse = steps path := reverse_reverse _

theorem steps_spelled {p : Path} (h : Folded p) : steps (spelled p) = p.reverse := by
  rw [← reverse_segments, segments_spelled h]

theorem spelled_eq_nil {p : Path} (h : Folded p) : spelled p = [] ↔ p = [] := by
  constructor
  · intro hnil
    have hsegs := segments_spelled h
    rw [hnil] at hsegs
    exact hsegs.symm
  · rintro rfl
    rfl

theorem Folded.cons {p : Path} (hseg : kept seg = true ∧ '/' ∉ seg) (h : Folded p) : Folded (seg :: p) := by
  intro seg' hseg'
  rcases mem_cons.mp hseg' with rfl | hseg'
  · exact hseg
  · exact h seg' hseg'

theorem Folded.tail {p : Path} (h : Folded (seg :: p)) : Folded p :=
  fun seg' hseg' => h seg' (mem_cons_of_mem seg hseg')

/-- A walk spells the path it has come along. -/
theorem joinPath_spelled {p : Path} (h : Folded p) : joinPath (spelled p) seg = spelled (seg :: p) := by
  by_cases hnil : p = []
  · rw [hnil]
    show joinPath [] seg = join [seg]
    rw [joinPath, if_pos rfl, join, intercalate_singleton]
  · have hne : spelled p ≠ [] := fun heq => hnil ((spelled_eq_nil h).mp heq)
    have hrev : p.reverse ≠ [] := by simpa using hnil
    rw [joinPath, if_neg hne, spelled, spelled, reverse_cons, join_concat hrev]

/-! ### The names on disk are segments -/

theorem slash_not_mem_of_isUuid {name : Text} (h : isUuid name = true) : '/' ∉ name := by
  intro hmem
  rw [isUuid, Bool.and_eq_true, List.all_eq_true] at h
  obtain ⟨i, hi, hch⟩ := getElem_of_mem hmem
  have hat := h.2 ('/', i) (mem_zipIdx_iff_getElem?.mpr (List.getElem?_eq_some_iff.mpr ⟨hi, hch⟩))
  split at hat
  · have hdash : '/' = '-' := of_decide_eq_true hat
    exact absurd hdash (by decide)
  · have hhex : isHexDigit '/' = true := hat
    exact absurd hhex (by decide)

theorem Layout.slash_not_mem_pfx (l : Layout) : '/' ∉ l.pfx := by
  obtain ⟨hlead, huuid, hpfx⟩ := extractPrefix_eq_some l.valid
  obtain ⟨rest, hrest⟩ := isPrefixOf_iff_prefix.mp hlead
  have htake : l.pfx = markerLead ++ (rest.take 36) := by
    conv_lhs => rw [hpfx, ← hrest]
    rfl
  rw [← hrest] at huuid
  have hslash : '/' ∉ rest.take 36 := slash_not_mem_of_isUuid huuid
  rw [htake, mem_append, not_or]
  exact ⟨by decide, hslash⟩

theorem Layout.folded_diskName (l : Layout) (id : ItemId) :
    kept (l.diskName id) = true ∧ '/' ∉ l.diskName id := by
  have hlen := length_of_isLunaName (l.isLunaName_diskName id)
  constructor
  · rw [kept, Bool.and_eq_true, decide_eq_true_eq, decide_eq_true_eq]
    constructor <;> intro heq <;> rw [heq] at hlen <;> exact absurd hlen (by decide)
  · rw [Layout.diskName, Layout.lead, mem_append, mem_append, not_or, not_or]
    exact ⟨⟨l.slash_not_mem_pfx, by decide⟩, not_mem_of_isDiskId id.2 '/' (by decide)⟩

/-! ### The walks, segment by segment -/

namespace Rows

variable {r : Rows} {p : Path}

theorem segments_inj {a b : Text} (ha : Files.canonical a = a) (hb : Files.canonical b = b)
    (h : segments a = segments b) : a = b := by
  rw [← ha, ← hb, ← spelled_segments, ← spelled_segments, h]

theorem get?_drive {item : Item} :
    r.drive.items.get? p = some item ↔ ∃ path, p = segments path ∧ r.byPath.get? path = some item := by
  have hmem : ∀ p item, (p, item) ∈ r.byPath.rows.map (fun row => (segments row.1, row.2)) ↔
      ∃ path, p = segments path ∧ r.byPath.get? path = some item := by
    intro p item
    rw [List.mem_map]
    constructor
    · rintro ⟨row, hrow, heq⟩
      obtain ⟨rfl, rfl⟩ := Prod.mk.inj heq
      exact ⟨row.1, rfl, mem_rows.mp hrow⟩
    · rintro ⟨path, rfl, hget⟩
      exact ⟨(path, item), mem_rows.mpr hget, rfl⟩
  have huniq : ∀ p item item', (p, item) ∈ r.byPath.rows.map (fun row => (segments row.1, row.2)) →
      (p, item') ∈ r.byPath.rows.map (fun row => (segments row.1, row.2)) → item = item' := by
    intro p item item' h h'
    obtain ⟨path, rfl, hget⟩ := (hmem p item).mp h
    obtain ⟨path', hpath, hget'⟩ := (hmem _ item').mp h'
    have hsame := segments_inj (r.canonical _ _ hget) (r.canonical _ _ hget') hpath
    rw [← hsame, hget] at hget'
    exact some.inj hget'
  rw [drive, get?_ofList huniq, hmem]

/-- A row is found by its segments as it is by its text. -/
theorem get?_drive_folded (h : Folded p) : r.drive.items.get? p = r.byPath.get? (spelled p) := by
  apply Option.ext
  intro item
  rw [get?_drive]
  constructor
  · rintro ⟨path, rfl, hget⟩
    rw [spelled_segments, r.canonical _ _ hget]
    exact hget
  · intro hget
    exact ⟨spelled p, (segments_spelled h).symm, hget⟩

theorem folded_of_row {item : Item} (h : r.drive.items.get? p = some item) : Folded p := by
  obtain ⟨path, rfl, -⟩ := get?_drive.mp h
  exact folded_segments path

theorem idsDiffer_drive : r.drive.IdsDiffer := by
  intro p p' item item' h h' hid
  obtain ⟨path, rfl, hget⟩ := get?_drive.mp h
  obtain ⟨path', rfl, hget'⟩ := get?_drive.mp h'
  rw [r.ids _ _ _ _ hget hget' hid]

theorem rows_drive : r.drive.items.rows = [] ↔ r.byPath.rows = [] := by
  constructor
  · intro hnil
    apply eq_nil_iff_forall_not_mem.mpr
    intro row hrow
    have hget : r.drive.items.get? (segments row.1) = some row.2 := get?_drive.mpr ⟨row.1, rfl, mem_rows.mp hrow⟩
    have hmem := mem_rows.mpr hget
    rw [hnil] at hmem
    cases hmem
  · intro hnil
    rw [drive, hnil]
    rfl

theorem onDisk_spelled (h : Folded (seg :: d)) :
    r.onDisk (spelled (seg :: d)) seg = (r.drive.diskLeaf (seg :: d)).getD seg := by
  rw [onDisk, ← get?_drive_folded h]
  cases hget : r.drive.items.get? (seg :: d) with
  | none =>
    rw [diskLeaf_none hget]
    rfl
  | some item =>
    rw [diskLeaf_some hget]
    rfl

theorem folded_diskIn (h : Folded p) : Folded (r.drive.diskIn p) := by
  induction p with
  | nil => exact h
  | cons seg d ih =>
    refine Folded.cons ?_ (ih h.tail)
    cases hget : r.drive.items.get? (seg :: d) with
    | none =>
      rw [Drive.diskLeaf_none hget]
      exact h seg mem_cons_self
    | some item =>
      rw [Drive.diskLeaf_some hget]
      exact r.layout.folded_diskName item.id

/-- Both halves of the walk at once: the real path so far, and where it is on disk. -/
theorem foldl_diskStep (h : Folded p) :
    p.reverse.foldl r.diskStep ([], []) = (spelled p, spelled (r.drive.diskIn p)) := by
  induction p with
  | nil => rfl
  | cons seg d ih =>
    rw [reverse_cons, foldl_append, ih h.tail]
    show (joinPath (spelled d) seg, joinPath (spelled (r.drive.diskIn d)) (r.onDisk (joinPath (spelled d) seg) seg)) = _
    rw [joinPath_spelled h.tail, onDisk_spelled h, joinPath_spelled (folded_diskIn h.tail), Drive.diskIn]

theorem diskIn_eq (r : Rows) (rel : Text) : r.diskIn rel = spelled (r.drive.diskIn (segments rel)) := by
  rw [diskIn, ← reverse_segments, foldl_diskStep (folded_segments rel)]

theorem byDiskName_eq (seg : Text) :
    r.byDiskName seg = r.byPath.rows.find? fun row => r.layout.diskName row.2.id = seg := by
  rw [byDiskName]
  split
  · rename_i hlead
    obtain ⟨id, rfl⟩ := isPrefixOf_iff_prefix.mp hlead
    congr 1
    funext row
    rw [drop_left, decide_eq_decide]
    exact (append_cancel_left_eq ..).symm ▸ Iff.rfl
  · rename_i hlead
    symm
    rw [find?_eq_none]
    intro row _ hname
    apply hlead
    rw [← of_decide_eq_true hname]
    exact isPrefixOf_iff_prefix.mpr (prefix_append _ _)

theorem byDiskName_of_rowOf {row : Path × Item} (h : r.drive.rowOf seg = some row) :
    r.byDiskName seg = some (spelled row.1, row.2) := by
  obtain ⟨hget, hname⟩ := mem_of_rowOf h
  rw [get?_drive_folded (folded_of_row hget)] at hget
  rw [byDiskName_eq]
  cases hfind : r.byPath.rows.find? (fun row' => r.layout.diskName row'.2.id = seg) with
  | none =>
    have hno := find?_eq_none.mp hfind _ (mem_rows.mpr hget)
    exact absurd (decide_eq_true hname) hno
  | some row' =>
    have hget' := mem_rows.mp (mem_of_find?_eq_some hfind)
    have hname' : r.layout.diskName row'.2.id = seg := by
      have := find?_some hfind
      rwa [decide_eq_true_eq] at this
    have hid : row'.2.id = row.2.id := Subtype.ext (Layout.diskName_inj (hname'.trans hname.symm))
    have hpath := r.ids _ _ _ _ hget' hget hid
    rw [hpath, hget] at hget'
    exact congrArg some (Prod.ext hpath (some.inj hget').symm)

theorem byDiskName_of_none (h : r.drive.rowOf seg = none) : r.byDiskName seg = none := by
  rw [byDiskName_eq, find?_eq_none]
  intro row hrow hname
  have hget : r.drive.items.get? (segments row.1) = some row.2 := get?_drive.mpr ⟨row.1, rfl, mem_rows.mp hrow⟩
  exact rowOf_eq_none h hget (of_decide_eq_true hname)

theorem folded_logicalIn (h : Folded d) : Folded (r.drive.logicalIn d) := by
  induction d with
  | nil => exact h
  | cons seg d ih =>
    rw [Drive.logicalIn]
    cases hrow : r.drive.rowOf seg with
    | none => exact Folded.cons (h seg mem_cons_self) (ih h.tail)
    | some row => exact folded_of_row (Drive.mem_of_rowOf hrow).1

theorem foldl_logicalStep (h : Folded d) :
    d.reverse.foldl r.logicalStep [] = spelled (r.drive.logicalIn d) := by
  induction d with
  | nil => rfl
  | cons seg d ih =>
    rw [reverse_cons, foldl_append, ih h.tail, Drive.logicalIn]
    show r.logicalStep (spelled (r.drive.logicalIn d)) seg = _
    cases hrow : r.drive.rowOf seg with
    | none =>
      rw [logicalStep, byDiskName_of_none hrow]
      exact joinPath_spelled (folded_logicalIn h.tail)
    | some row => rw [logicalStep, byDiskName_of_rowOf hrow]

theorem logicalIn_eq (r : Rows) {disk : Text} (h : Files.canonical disk = disk) :
    r.logicalIn disk = spelled (r.drive.logicalIn (segments disk)) := by
  rw [logicalIn]
  split
  · rename_i hnil
    have hsame : ∀ d : Path, r.drive.logicalIn d = d := by
      intro d
      induction d with
      | nil => rfl
      | cons seg d ih =>
        have hrow : r.drive.rowOf seg = none := by
          rw [Drive.rowOf, rows_drive.mpr hnil]
          rfl
        rw [Drive.logicalIn, hrow, ih]
    rw [hsame, spelled_segments, h]
  · rw [← reverse_segments, foldl_logicalStep (folded_segments disk)]

/-! ### The boundary -/

def spell (b : Files.Boundary) : Boundary := ⟨spelled b.path, b.owner⟩

theorem boundaryRec_append_sealed {s : Drive} (h : s.boundaryRec d = some (.sealedOff p)) (q : Path) :
    s.boundaryRec (q ++ d) = some (.sealedOff p) := by
  induction q with
  | nil => exact h
  | cons seg q ih => rw [cons_append, boundaryRec, ih]

/-- The rest of the loop, from wherever the walk has come without meeting a name on disk. -/
theorem boundaryLoop_eq {segs : Path} (hd : Folded d) (hsegs : Folded segs) (hplain : r.layout.Unsealed d) :
    r.boundaryLoop segs (spelled d) ((r.drive.boundaryRec d).map spell) =
      (r.drive.boundaryRec (segs.reverse ++ d)).map spell := by
  induction segs generalizing d with
  | nil => rfl
  | cons seg segs ih =>
    have hfolded : Folded (seg :: d) := hd.cons (hsegs seg mem_cons_self)
    rw [reverse_cons, append_assoc, singleton_append, boundaryLoop, joinPath_spelled hd]
    by_cases hseg : r.layout.isDiskName seg = true
    · rw [if_pos hseg, boundaryRec_append_sealed (boundaryRec_cons_sealed hplain hseg)]
      rfl
    have hnext := hplain.cons (Bool.not_eq_true _ ▸ hseg)
    have hrest := ih hfolded hsegs.tail hnext
    rw [if_neg hseg, ← get?_drive_folded hfolded]
    cases hget : r.drive.items.get? (seg :: d) with
    | none =>
      rw [boundaryRec_cons_none (Bool.not_eq_true _ ▸ hseg) hget] at hrest
      exact hrest
    | some item =>
      rw [boundaryRec_cons_some hnext hget] at hrest
      exact hrest

theorem boundaryIn_eq (r : Rows) (rel : Text) : r.boundaryIn rel = (r.drive.boundaryFor (segments rel)).map spell := by
  rw [boundaryIn, boundaryFor]
  split
  · rename_i hnil
    rw [if_pos (rows_drive.mpr hnil)]
    rfl
  rename_i hrows
  have hsteps : Folded (steps rel) := folded_filter rel
  have hnil : Folded ([] : Path) := fun seg hseg => absurd hseg not_mem_nil
  have hloop := boundaryLoop_eq (r := r) hnil hsteps Layout.unsealed_nil
  rw [append_nil] at hloop
  rw [if_neg (mt rows_drive.mp hrows)]
  exact hloop

end Rows

/-! ### The translation is exact -/

theorem Drive.getElem?_diskIn (s : Drive) (p : Path) (k : Nat) :
    (s.diskIn p)[k]? = p[k]?.map fun seg => (s.diskLeaf (p.drop k)).getD seg := by
  induction p generalizing k with
  | nil => rfl
  | cons seg d ih =>
    cases k with
    | zero => rfl
    | succ k =>
      exact ih k

/-- The boundary is the first row on the way up. -/
theorem Drive.boundaryRec_iff {s : Drive} {p : Path} (hp : s.layout.Unsealed p) {b : Files.Boundary} :
    s.boundaryRec p = some b ↔ ∃ k item, k < p.length ∧ s.items.get? (p.drop k) = some item ∧
      b = .item (p.drop k) item.owner ∧ ∀ j, j < k → s.items.get? (p.drop j) = none := by
  induction p with
  | nil =>
    constructor
    · rintro ⟨⟩
    · rintro ⟨k, item, hk, -⟩
      exact absurd hk (Nat.not_lt_zero k)
  | cons seg d ih =>
    cases hget : s.items.get? (seg :: d) with
    | some item =>
      rw [boundaryRec_cons_some hp hget]
      constructor
      · intro hb
        refine ⟨0, item, Nat.succ_pos _, hget, (some.inj hb).symm, fun j hj => absurd hj (Nat.not_lt_zero j)⟩
      · rintro ⟨k, item', -, hget', rfl, hnone⟩
        cases k with
        | zero =>
          obtain rfl := some.inj (hget.symm.trans hget')
          rfl
        | succ k =>
          have := hnone 0 (Nat.succ_pos k)
          rw [drop_zero, hget] at this
          cases this
    | none =>
      rw [boundaryRec_cons_none (hp seg mem_cons_self) hget, ih hp.tail]
      constructor
      · rintro ⟨k, item, hk, hitem, rfl, hnone⟩
        refine ⟨k + 1, item, Nat.succ_lt_succ hk, hitem, rfl, fun j hj => ?_⟩
        cases j with
        | zero => exact hget
        | succ j => exact hnone j (Nat.lt_of_succ_lt_succ hj)
      · rintro ⟨k, item, hk, hitem, rfl, hnone⟩
        cases k with
        | zero =>
          rw [drop_zero, hget] at hitem
          cases hitem
        | succ k =>
          exact ⟨k, item, Nat.lt_of_succ_lt_succ hk, hitem, rfl, fun j hj => hnone (j + 1) (Nat.succ_lt_succ hj)⟩

theorem Drive.boundaryRec_eq_none {s : Drive} {p : Path} (hp : s.layout.Unsealed p) (h : s.boundaryRec p = none) (k : Nat)
    (hk : k < p.length) : s.items.get? (p.drop k) = none := by
  induction p generalizing k with
  | nil => exact absurd hk (Nat.not_lt_zero k)
  | cons seg d ih =>
    cases hget : s.items.get? (seg :: d) with
    | some item =>
      rw [boundaryRec_cons_some hp hget] at h
      cases h
    | none =>
      rw [boundaryRec_cons_none (hp seg mem_cons_self) hget] at h
      cases k with
      | zero => exact hget
      | succ k => exact ih hp.tail h k (Nat.lt_of_succ_lt_succ hk)

namespace Rows

variable {r : Rows} {p q : Text}

/-- The real path of a segment: everything from the top down to it. -/
def upTo (p : Text) (i : Nat) : Text := join ((steps p).take (i + 1))

/-- A canonical real path that names nothing by its name on disk. -/
def Plain (r : Rows) (p : Text) : Prop := Files.canonical p = p ∧ ∀ seg ∈ steps p, r.layout.isDiskName seg = false

theorem Plain.unsealed (h : r.Plain p) : r.layout.Unsealed (segments p) :=
  fun seg hseg => h.2 seg (reverse_segments p ▸ mem_reverse.mpr hseg)

theorem steps_diskIn (r : Rows) (p : Text) : steps (r.diskIn p) = (r.drive.diskIn (segments p)).reverse := by
  rw [diskIn_eq, steps_spelled (folded_diskIn (folded_segments p))]

theorem length_steps_diskIn (r : Rows) (p : Text) : (steps (r.diskIn p)).length = (steps p).length := by
  rw [steps_diskIn, length_reverse, length_diskIn, ← reverse_segments, length_reverse]

theorem length_segments (p : Text) : (segments p).length = (steps p).length := by
  rw [← reverse_segments, length_reverse]

theorem upTo_eq {i : Nat} (hi : i < (steps p).length) :
    upTo p i = spelled ((segments p).drop ((steps p).length - 1 - i)) := by
  have hlen := length_segments p
  have hcount : (segments p).length - ((steps p).length - 1 - i) = i + 1 := by omega
  rw [upTo, spelled, reverse_drop, reverse_segments, hcount]

theorem get?_upTo (r : Rows) {i : Nat} (hi : i < (steps p).length) :
    r.byPath.get? (upTo p i) = r.drive.items.get? ((segments p).drop ((steps p).length - 1 - i)) := by
  rw [upTo_eq hi, get?_drive_folded ((folded_segments p).of_suffix (drop_suffix _ _))]

/-- Every segment is swapped by the row of its own real path. -/
theorem getElem?_steps_diskIn (r : Rows) {i : Nat} (hi : i < (steps p).length) :
    (steps (r.diskIn p))[i]? = (steps p)[i]?.map (r.onDisk (upTo p i)) := by
  have hlen := length_segments p
  have hdisk : (r.drive.diskIn (segments p)).length = (steps p).length := by rw [length_diskIn, hlen]
  rw [steps_diskIn, getElem?_reverse (by omega), getElem?_diskIn, hdisk, ← reverse_segments p,
    getElem?_reverse (by omega), length_reverse, hlen]
  congr 1
  funext seg
  rw [onDisk, get?_upTo r hi, diskLeaf]
  cases r.drive.items.get? ((segments p).drop ((steps p).length - 1 - i)) <;> rfl

section

variable (h : r.Plain p)

include h

theorem logicalIn_diskIn : r.logicalIn (r.diskIn p) = p := by
  have hfolded := folded_diskIn (r := r) (folded_segments p)
  have hcanonical : Files.canonical (r.diskIn p) = r.diskIn p := by
    rw [diskIn_eq, ← spelled_segments, segments_spelled hfolded]
  rw [logicalIn_eq r hcanonical, diskIn_eq, segments_spelled hfolded,
    idsDiffer_drive.logicalIn_diskIn h.unsealed, spelled_segments, h.1]

theorem swapped_iff {i : Nat} (hi : i < (steps p).length) :
    (steps (r.diskIn p))[i]? ≠ (steps p)[i]? ↔ (r.byPath.get? (upTo p i)).isSome = true := by
  obtain ⟨seg, hseg⟩ : ∃ seg, (steps p)[i]? = some seg := ⟨_, getElem?_eq_getElem hi⟩
  rw [getElem?_steps_diskIn r hi, hseg, map_some, onDisk]
  cases hget : r.byPath.get? (upTo p i) with
  | none => simp
  | some item =>
    -- What stands there on disk is a name no segment of the path has.
    have hname : r.layout.diskName item.id ≠ seg := by
      intro heq
      have hplain := h.2 seg (mem_of_getElem? hseg)
      rw [← heq, Layout.isDiskName_diskName] at hplain
      cases hplain
    simpa using hname

theorem boundaryIn_plain : r.boundaryIn p = (r.drive.boundaryRec (segments p)).map spell := by
  rw [boundaryIn_eq, boundaryFor]
  split
  · rw [boundaryRec_eq_none_of_no_rows h.unsealed ‹_›]
  · rfl

theorem boundaryIn_iff {b : Boundary} :
    r.boundaryIn p = some b ↔ ∃ i item, i < (steps p).length ∧ r.byPath.get? (upTo p i) = some item ∧
      b = ⟨upTo p i, item.owner⟩ ∧ ∀ j, i < j → j < (steps p).length → r.byPath.get? (upTo p j) = none := by
  have hlen := length_segments p
  rw [boundaryIn_plain h, map_eq_some_iff]
  constructor
  · rintro ⟨b', hb, rfl⟩
    obtain ⟨k, item, hk, hget, rfl, hnone⟩ := (boundaryRec_iff h.unsealed).mp hb
    have hi : (steps p).length - 1 - k < (steps p).length := by omega
    have hback : (steps p).length - 1 - ((steps p).length - 1 - k) = k := by omega
    refine ⟨(steps p).length - 1 - k, item, hi, ?_, ?_, fun j hj hjlen => ?_⟩
    · rw [get?_upTo r hi, hback]
      exact hget
    · rw [upTo_eq hi, hback]
      rfl
    · rw [get?_upTo r hjlen]
      exact hnone _ (by omega)
  · rintro ⟨i, item, hi, hget, rfl, hnone⟩
    rw [get?_upTo r hi] at hget
    refine ⟨.item ((segments p).drop ((steps p).length - 1 - i)) item.owner,
      (boundaryRec_iff h.unsealed).mpr ⟨_, item, by omega, hget, rfl, fun j hj => ?_⟩, ?_⟩
    · have hj' : (steps p).length - 1 - j < (steps p).length := by omega
      have hback : (steps p).length - 1 - ((steps p).length - 1 - j) = j := by omega
      rw [← hback, ← get?_upTo r hj']
      exact hnone _ (by omega) hj'
    · rw [upTo_eq hi]
      rfl

theorem boundaryIn_eq_none_iff :
    r.boundaryIn p = none ↔ ∀ i, i < (steps p).length → r.byPath.get? (upTo p i) = none := by
  have hlen := length_segments p
  constructor
  · intro hnone i hi
    rw [boundaryIn_plain h, map_eq_none_iff] at hnone
    rw [get?_upTo r hi]
    exact boundaryRec_eq_none h.unsealed hnone _ (by omega)
  · intro hnone
    cases hb : r.boundaryIn p with
    | none => rfl
    | some b =>
      obtain ⟨i, item, hi, hget, -⟩ := (boundaryIn_iff h).mp hb
      rw [hnone i hi] at hget
      cases hget

end

/-- **Exact translation.** On canonical real paths that name nothing by its name on disk, the translation is undone by
its inverse and tells two paths apart; it changes a segment exactly if the real path down to it has a row; and the
boundary is the row furthest down. -/
theorem translation_exact (r : Rows) {p : Text} (h : r.Plain p) :
    r.logicalIn (r.diskIn p) = p ∧ (∀ q, r.Plain q → r.diskIn q = r.diskIn p → q = p) ∧
      ((steps (r.diskIn p)).length = (steps p).length ∧ ∀ i, i < (steps p).length →
        ((steps (r.diskIn p))[i]? ≠ (steps p)[i]? ↔ (r.byPath.get? (upTo p i)).isSome = true)) ∧
      (∀ b, r.boundaryIn p = some b ↔ ∃ i item, i < (steps p).length ∧ r.byPath.get? (upTo p i) = some item ∧
        b = ⟨upTo p i, item.owner⟩ ∧ ∀ j, i < j → j < (steps p).length → r.byPath.get? (upTo p j) = none) ∧
      (r.boundaryIn p = none ↔ ∀ i, i < (steps p).length → r.byPath.get? (upTo p i) = none) := by
  refine ⟨logicalIn_diskIn h, fun q hq heq => ?_, ⟨length_steps_diskIn r p, fun i hi => swapped_iff h hi⟩,
    fun b => boundaryIn_iff h, boundaryIn_eq_none_iff h⟩
  rw [← logicalIn_diskIn hq, heq, logicalIn_diskIn h]

def docs : Item := ⟨⟨List.replicate 26 'a', by decide⟩, "u-ann".toList⟩

def taxes : Item := ⟨⟨List.replicate 26 'b', by decide⟩, "u-bob".toList⟩

def nestedRows : Table Text Item := (Table.empty.put "Docs".toList docs).put "Docs/Taxes/2024".toList taxes

theorem of_nestedRows {path : Text} {item : Item} (h : nestedRows.get? path = some item) :
    (path = "Docs/Taxes/2024".toList ∧ item = taxes) ∨ (path = "Docs".toList ∧ item = docs) := by
  rw [nestedRows, get?_put, get?_put] at h
  split at h
  · exact .inl ⟨‹_›, (some.inj h).symm⟩
  · split at h
    · exact .inr ⟨‹_›, (some.inj h).symm⟩
    · cases h

/-- A private folder inside a private folder. -/
def nested : Rows where
  layout := freshLayout
  byPath := nestedRows
  canonical := by
    intro path item h
    rcases of_nestedRows h with ⟨rfl, -⟩ | ⟨rfl, -⟩ <;> decide
  ids := by
    intro path path' item item' h h' hid
    rcases of_nestedRows h with ⟨rfl, rfl⟩ | ⟨rfl, rfl⟩ <;> rcases of_nestedRows h' with ⟨rfl, rfl⟩ | ⟨rfl, rfl⟩
    · rfl
    · exact absurd hid (by decide)
    · exact absurd hid (by decide)
    · rfl

theorem nested_exact : nested.Plain "Docs/Taxes/2024/f.pdf".toList ∧ nested.diskIn "Docs/Taxes/2024/f.pdf".toList =
      freshLayout.diskName docs.id ++ "/Taxes/".toList ++ freshLayout.diskName taxes.id ++ "/f.pdf".toList ∧
    nested.logicalIn (nested.diskIn "Docs/Taxes/2024/f.pdf".toList) = "Docs/Taxes/2024/f.pdf".toList ∧
    nested.boundaryIn "Docs/Taxes/2024/f.pdf".toList = some ⟨"Docs/Taxes/2024".toList, "u-bob".toList⟩ := by
  have hplain : nested.Plain "Docs/Taxes/2024/f.pdf".toList := by
    rw [Plain]
    decide +kernel
  obtain ⟨hback, -, -, hboundary, -⟩ := translation_exact nested hplain
  refine ⟨hplain, by decide +kernel, hback, (hboundary _).mpr ⟨2, taxes, by decide +kernel, by decide +kernel, by decide +kernel, ?_⟩⟩
  intro j hj hlen
  have hfour : (steps "Docs/Taxes/2024/f.pdf".toList).length = 4 := by decide +kernel
  obtain rfl : j = 3 := by omega
  decide +kernel

end Rows

end LibreServ.Files
