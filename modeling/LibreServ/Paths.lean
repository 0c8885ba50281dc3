import Mathlib

/-! Paths inside a drive. Three functions bring a path to its one spelling: `canonical_rel` in
`files/mod.rs`, `normalize_subject_path` in `access.rs` and `canonical` in `private.rs`. All three fold empty
and `.` segments away; the first two also trim white space, before they trim slashes. A string is the list of
its characters here. -/

namespace LibreServ.Files

open List Option

variable {seg : Text}

abbrev Text := List Char

instance : LawfulBEq Text := inferInstance

instance : LawfulBEq (List Text) := inferInstance

/-! ### The functions -/

/-- `char::is_whitespace`: the characters with the Unicode property `White_Space`. -/
def isWhitespace (ch : Char) : Bool :=
  let n := ch.toNat
  0x09 ≤ n && n ≤ 0x0D || n = 0x20 || n = 0x85 || n = 0xA0 || n = 0x1680 || 0x2000 ≤ n && n ≤ 0x200A ||
    n = 0x2028 || n = 0x2029 || n = 0x202F || n = 0x205F || n = 0x3000

def isSlash (ch : Char) : Bool := ch = '/'

/-- `str::trim_matches`. -/
def trimMatches (p : Char → Bool) (s : Text) : Text := (s.dropWhile p).rdropWhile p

def trim : Text → Text := trimMatches isWhitespace

def split (s : Text) : List Text := s.splitOn '/'

def join (segs : List Text) : Text := ['/'].intercalate segs

/-- A segment that stays. -/
def kept (seg : Text) : Bool := seg ≠ [] && seg ≠ ['.']

inductive FilesError where
  | io (message : String)
  | escape
  deriving DecidableEq

/-- The loop of `canonical_rel` over the segments. -/
def foldSegments : List Text → Except FilesError (List Text)
  | [] => .ok []
  | seg :: rest =>
    if seg = [] ∨ seg = ['.'] then foldSegments rest
    else if seg = ['.', '.'] then .error .escape
    else do
      let out ← foldSegments rest
      return seg :: out

/-- Empty and `.` segments fold away; `..` and a backslash are refused. -/
def canonicalRel (rel : Text) : Except FilesError Text :=
  if '\\' ∈ rel then .error (.io "invalid path")
  else do
    let out ← foldSegments (split (trimMatches isSlash (trim rel)))
    return join out

/-- The spelling of a path that access is granted on. -/
def normalizeSubjectPath (raw : Text) : Text :=
  let cleaned := trimMatches isSlash (trim raw)
  if cleaned = [] then [] else join ((split cleaned).filter kept)

/-- The spelling of the path of a private row. -/
def canonical (path : Text) : Text := join ((split path).filter kept)

/-- `path_contains` of `access.rs`. -/
def containsText (parent child : Text) : Bool :=
  parent = [] || parent = child || (parent.isPrefixOf child && child[parent.length]? = some '/')

/-! ### Segments -/

variable {segs : List Text} {s : Text}

theorem split_nil : split [] = [[]] := rfl

theorem split_append_slash (s : Text) : split (s ++ ['/']) = split s ++ [[]] :=
  splitOn_append_cons_self s []

theorem slash_not_mem_of_split (h : seg ∈ split s) : '/' ∉ seg := by
  induction s generalizing seg with
  | nil =>
    rw [split_nil, mem_singleton] at h
    rw [h]
    exact not_mem_nil
  | cons ch s ih =>
    rw [split, splitOn_cons_eq_if_modifyHead] at h
    split at h
    · rcases mem_cons.mp h with rfl | h
      · exact not_mem_nil
      · exact ih h
    rename_i hch
    cases hsplit : splitOn '/' s with
    | nil => exact absurd hsplit (splitOn_ne_nil '/' s)
    | cons first rest =>
      rw [hsplit] at h
      rcases mem_cons.mp h with rfl | h
      · have hfirst : '/' ∉ first := ih (show first ∈ splitOn '/' s by simp [hsplit])
        rw [beq_iff_eq] at hch
        simp [hfirst, Ne.symm hch]
      · exact ih (show seg ∈ splitOn '/' s by simp [hsplit, h])

/-- Slashes at the ends only add empty segments. -/
theorem kept_split_trimSlashes (s : Text) :
    (split (trimMatches isSlash s)).filter kept = (split s).filter kept := by
  have hleft : ∀ s : Text, (split (s.dropWhile isSlash)).filter kept = (split s).filter kept := by
    intro s
    induction s with
    | nil => rfl
    | cons ch s ih =>
      by_cases hch : ch = '/'
      · subst hch
        rw [dropWhile_cons_of_pos (by decide), ih]
        rfl
      · rw [dropWhile_cons_of_neg (by simpa [isSlash] using hch)]
  have hright : ∀ s : Text, (split (s.rdropWhile isSlash)).filter kept = (split s).filter kept := by
    intro s
    induction s using reverseRecOn with
    | nil => rfl
    | append_singleton s ch ih =>
      by_cases hch : ch = '/'
      · subst hch
        rw [rdropWhile_concat_pos _ _ _ (by decide), ih, split_append_slash, filter_append]
        exact (append_nil _).symm
      · rw [rdropWhile_concat_neg _ _ _ (by simpa [isSlash] using hch)]
  rw [trimMatches, hright, hleft]

/-- Segments as the loop leaves them. -/
def Folded (segs : List Text) : Prop := ∀ seg ∈ segs, kept seg = true ∧ '/' ∉ seg

theorem folded_filter (s : Text) : Folded ((split s).filter kept) := fun _ hseg =>
  ⟨(mem_filter.mp hseg).2, slash_not_mem_of_split (mem_filter.mp hseg).1⟩

theorem Folded.ne_nil (h : Folded segs) (hseg : seg ∈ segs) : seg ≠ [] := by
  rintro rfl
  exact absurd (h [] hseg).1 (by decide)

/-- Joined and split again, such segments are the same. -/
theorem Folded.canonical_join (h : Folded segs) : canonical (join segs) = join segs := by
  unfold canonical
  by_cases hnil : segs = []
  · subst hnil
    rfl
  · have hsplit : split (join segs) = segs := splitOn_intercalate '/' (fun seg hseg => (h seg hseg).2) hnil
    rw [hsplit, filter_eq_self.mpr fun seg hseg => (h seg hseg).1]

/-! ### The loop -/

theorem foldSegments_ok {out : List Text} (h : foldSegments segs = .ok out) :
    out = segs.filter kept ∧ ['.', '.'] ∉ segs := by
  induction segs generalizing out with
  | nil =>
    obtain rfl := Except.ok.inj h
    exact ⟨rfl, not_mem_nil⟩
  | cons seg segs ih =>
    unfold foldSegments at h
    split at h
    · rename_i hseg
      obtain ⟨rfl, hnot⟩ := ih h
      rcases hseg with rfl | rfl
      · exact ⟨rfl, fun hmem => hnot ((mem_cons.mp hmem).resolve_left (by decide))⟩
      · exact ⟨rfl, fun hmem => hnot ((mem_cons.mp hmem).resolve_left (by decide))⟩
    · rename_i hseg
      split at h
      · cases h
      rename_i hdots
      cases hrest : foldSegments segs with
      | error e => simp [hrest, bind, Except.bind] at h
      | ok rest =>
        rw [hrest] at h
        obtain rfl := Except.ok.inj h
        obtain ⟨rfl, hnot⟩ := ih hrest
        rw [not_or] at hseg
        refine ⟨?_, fun hmem => ?_⟩
        · rw [filter_cons_of_pos (by simp [kept, hseg])]
        · exact hnot ((mem_cons.mp hmem).resolve_left (Ne.symm hdots))

theorem foldSegments_of_folded (h : Folded segs) (hdots : ['.', '.'] ∉ segs) : foldSegments segs = .ok segs := by
  induction segs with
  | nil => rfl
  | cons seg segs ih =>
    have hseg : ¬ (seg = [] ∨ seg = ['.']) := by
      have := (h seg mem_cons_self).1
      simpa [kept] using this
    rw [mem_cons, not_or] at hdots
    rw [foldSegments, if_neg hseg, if_neg (Ne.symm hdots.1),
      ih (fun seg' hseg' => h seg' (mem_cons_of_mem _ hseg')) hdots.2]
    rfl

/-- An accepted path: the kept segments of the trimmed path, joined. -/
theorem canonicalRel_ok {rel p : Text} (h : canonicalRel rel = .ok p) :
    '\\' ∉ rel ∧ p = join ((split (trim rel)).filter kept) ∧ ['.', '.'] ∉ (split (trim rel)).filter kept := by
  unfold canonicalRel at h
  split at h
  · cases h
  rename_i hslash
  cases hfold : foldSegments (split (trimMatches isSlash (trim rel))) with
  | error e => simp [hfold, bind, Except.bind] at h
  | ok out =>
    rw [hfold] at h
    obtain rfl := Except.ok.inj h
    obtain ⟨rfl, hdots⟩ := foldSegments_ok hfold
    have hsame := kept_split_trimSlashes (trim rel)
    exact ⟨hslash, by rw [hsame], fun hmem => hdots (mem_filter.mp (hsame.symm ▸ hmem)).1⟩

/-! ### The edges of a path -/

theorem Folded.join_ne_nil (h : Folded segs) (hne : segs ≠ []) : join segs ≠ [] := by
  intro hjoin
  have hsplit : split (join segs) = segs := splitOn_intercalate '/' (fun seg hseg => (h seg hseg).2) hne
  rw [hjoin, split_nil] at hsplit
  exact h.ne_nil (hsplit ▸ mem_singleton_self []) rfl

/-- A joined path starts as its first segment does. -/
theorem Folded.head?_join (h : Folded segs) : (join segs).head? = segs.head?.bind head? := by
  cases segs with
  | nil => rfl
  | cons seg segs =>
    have hseg := h.ne_nil mem_cons_self
    cases segs with
    | nil => rw [join, intercalate_singleton, head?_cons, bind_some]
    | cons seg' segs =>
      rw [join, intercalate_cons_cons, append_assoc, head?_append_of_ne_nil _ hseg, head?_cons, bind_some]

/-- And it ends as its last segment does. -/
theorem Folded.getLast?_join (h : Folded segs) : (join segs).getLast? = segs.getLast?.bind getLast? := by
  induction segs with
  | nil => rfl
  | cons seg segs ih =>
    cases segs with
    | nil => rw [join, intercalate_singleton, getLast?_singleton, bind_some]
    | cons seg' segs =>
      have htail : Folded (seg' :: segs) := fun x hx => h x (mem_cons_of_mem _ hx)
      have hne : join (seg' :: segs) ≠ [] := htail.join_ne_nil (cons_ne_nil _ _)
      have hjoin : join (seg :: seg' :: segs) = seg ++ ['/'] ++ join (seg' :: segs) :=
        intercalate_cons_cons
      rw [hjoin, getLast?_append_of_ne_nil _ hne, getLast?_cons_cons]
      exact ih htail

theorem trimMatches_eq_self {p : Char → Bool} (hhead : ∀ ch ∈ s.head?, p ch = false)
    (hlast : ∀ ch ∈ s.getLast?, p ch = false) : trimMatches p s = s := by
  have hleft : s.dropWhile p = s := by
    cases s with
    | nil => rfl
    | cons ch s => exact dropWhile_cons_of_neg (by simpa using hhead ch rfl)
  rw [trimMatches, hleft, rdropWhile_eq_self_iff]
  intro hne
  simpa using hlast _ (getLast?_eq_some_getLast hne)

theorem edges_of_trimMatches {p : Char → Bool} (h : trimMatches p s = s) :
    (∀ ch ∈ s.head?, p ch = false) ∧ ∀ ch ∈ s.getLast?, p ch = false := by
  have hright := (List.rdropWhile_prefix p (s.dropWhile p)).length_le
  have hleft : s.dropWhile p = s := by
    refine (dropWhile_suffix p).eq_of_length_le ?_
    rwa [← trimMatches, h] at hright
  refine ⟨fun ch hch => ?_, fun ch hch => ?_⟩
  · cases s with
    | nil => cases hch
    | cons ch' s =>
      obtain rfl := some.inj hch
      by_contra hp
      have hshort := (dropWhile_suffix p (l := s)).length_le
      rw [dropWhile_cons_of_pos (by simpa using hp)] at hleft
      rw [hleft, length_cons] at hshort
      omega
  · rw [trimMatches, hleft, rdropWhile_eq_self_iff] at h
    obtain ⟨init, rfl⟩ := getLast?_eq_some_iff.mp hch
    simpa using h (by simp)

/-! ### One spelling -/

/-- Leaving out empty and `.` segments, and the white space around the whole path, its first segment does not
start and its last segment does not end with white space. -/
def BareEdges (rel : Text) : Prop :=
  (∀ ch ∈ ((split (trim rel)).filter kept).head?.bind List.head?, isWhitespace ch = false) ∧
    ∀ ch ∈ ((split (trim rel)).filter kept).getLast?.bind List.getLast?, isWhitespace ch = false

instance (rel : Text) : Decidable (BareEdges rel) := inferInstanceAs (Decidable (_ ∧ _))

theorem join_cons (h : segs ≠ []) : join (seg :: segs) = seg ++ '/' :: join segs := by
  rw [join, intercalate_cons_of_ne_nil h, append_assoc]
  rfl

theorem join_concat {segs : List Text} (h : segs ≠ []) : join (segs ++ [seg]) = join segs ++ '/' :: seg := by
  induction segs with
  | nil => exact absurd rfl h
  | cons first segs ih =>
    rw [cons_append, join_cons (append_ne_nil_of_right_ne_nil _ (cons_ne_nil _ _))]
    by_cases hnil : segs = []
    · rw [hnil, nil_append, join, join, intercalate_singleton, intercalate_singleton]
    · rw [ih hnil, join_cons hnil, append_assoc, cons_append]

/-- Folding segments away only takes characters out. -/
theorem join_filter_sublist (segs : List Text) : (join (segs.filter kept)).Sublist (join segs) := by
  induction segs with
  | nil => exact List.Sublist.refl _
  | cons seg segs ih =>
    by_cases hnil : segs = []
    · subst hnil
      by_cases hseg : kept seg = true
      · rw [filter_cons_of_pos hseg]
        exact List.Sublist.refl _
      · rw [filter_cons_of_neg hseg]
        exact nil_sublist _
    rw [join_cons hnil]
    by_cases hseg : kept seg = true
    · rw [filter_cons_of_pos hseg]
      by_cases hrest : segs.filter kept = []
      · rw [hrest, join, intercalate_singleton]
        exact sublist_append_left ..
      · rw [join_cons hrest]
        exact (ih.cons_cons '/').append_left seg
    · rw [filter_cons_of_neg hseg]
      exact (ih.cons '/').trans (sublist_append_right ..)

theorem canonical_sublist (s : Text) : (canonical s).Sublist s := by
  have hjoin : join (split s) = s := intercalate_splitOn '/'
  have hsub := join_filter_sublist (split s)
  rwa [hjoin] at hsub

theorem trimMatches_sublist (p : Char → Bool) (s : Text) : (trimMatches p s).Sublist s :=
  (List.rdropWhile_prefix _ _).sublist.trans (dropWhile_suffix _).sublist

/-- The trimmed path, with its segments folded. -/
theorem normalizeSubjectPath_eq (raw : Text) : normalizeSubjectPath raw = canonical (trim raw) := by
  have hsame : canonical (trim raw) = canonical (trimMatches isSlash (trim raw)) :=
    congrArg join (kept_split_trimSlashes (trim raw)).symm
  rw [hsame, normalizeSubjectPath]
  split
  · rename_i hnil
    rw [hnil]
    rfl
  · rfl

/-- Folded segments, joined and found bare, are accepted as they are. -/
theorem canonicalRel_join (h : Folded segs) (hdots : ['.', '.'] ∉ segs) (hback : '\\' ∉ join segs)
    (htrim : trim (join segs) = join segs) : canonicalRel (join segs) = .ok (join segs) := by
  by_cases hnil : segs = []
  · subst hnil
    rfl
  have hslash : trimMatches isSlash (join segs) = join segs := by
    refine trimMatches_eq_self (fun ch hch => ?_) fun ch hch => ?_
    · rw [h.head?_join] at hch
      obtain ⟨seg, hseg, hch⟩ := bind_eq_some_iff.mp hch
      refine decide_eq_false ?_
      rintro rfl
      exact (h seg (mem_of_head? hseg)).2 (mem_of_head? hch)
    · rw [h.getLast?_join] at hch
      obtain ⟨seg, hseg, hch⟩ := bind_eq_some_iff.mp hch
      refine decide_eq_false ?_
      rintro rfl
      exact (h seg (mem_of_getLast? hseg)).2 (mem_of_getLast? hch)
  have hsplit : split (join segs) = segs := splitOn_intercalate '/' (fun seg hseg => (h seg hseg).2) hnil
  rw [canonicalRel, if_neg hback, htrim, hslash, hsplit, foldSegments_of_folded h hdots]
  rfl

/-- **One spelling.** An accepted path is left alone by all three functions exactly if its edges are bare. -/
theorem canonicalRel_fixed_iff {rel p : Text} (h : canonicalRel rel = .ok p) :
    (canonicalRel p = .ok p ∧ normalizeSubjectPath p = p ∧ canonical p = p ∧ normalizeSubjectPath rel = p) ↔
      BareEdges rel := by
  obtain ⟨hslash, rfl, hdots⟩ := canonicalRel_ok h
  have hfolded := folded_filter (trim rel)
  constructor
  · rintro ⟨hfixed, -, -, -⟩
    -- Neither trimming nor folding makes a path longer, so nothing was trimmed.
    have hagain := (canonicalRel_ok hfixed).2.1
    have hlong := (canonical_sublist (trim (join ((split (trim rel)).filter kept)))).length_le
    rw [canonical, ← hagain] at hlong
    have hedges := edges_of_trimMatches ((trimMatches_sublist _ _).eq_of_length_le hlong)
    rwa [hfolded.head?_join, hfolded.getLast?_join] at hedges
  · intro hbare
    have htrim : trim (join ((split (trim rel)).filter kept)) = join ((split (trim rel)).filter kept) := by
      refine trimMatches_eq_self ?_ ?_
      · rw [hfolded.head?_join]
        exact hbare.1
      · rw [hfolded.getLast?_join]
        exact hbare.2
    have hsub : (join ((split (trim rel)).filter kept)).Sublist rel :=
      (canonical_sublist _).trans (trimMatches_sublist _ _)
    refine ⟨canonicalRel_join hfolded hdots (fun hmem => hslash (hsub.mem hmem)) htrim, ?_,
      hfolded.canonical_join, normalizeSubjectPath_eq rel⟩
    rw [normalizeSubjectPath_eq, htrim]
    exact hfolded.canonical_join

theorem photos_fixed : canonicalRel "/Photos//./2024 trip/".toList = .ok "Photos/2024 trip".toList ∧
    (canonicalRel "Photos/2024 trip".toList = .ok "Photos/2024 trip".toList ∧
      normalizeSubjectPath "Photos/2024 trip".toList = "Photos/2024 trip".toList ∧
      canonical "Photos/2024 trip".toList = "Photos/2024 trip".toList ∧
      normalizeSubjectPath "/Photos//./2024 trip/".toList = "Photos/2024 trip".toList) := by
  have haccepted : canonicalRel "/Photos//./2024 trip/".toList = .ok "Photos/2024 trip".toList := by decide
  have hkept : (split (trim "/Photos//./2024 trip/".toList)).filter kept =
      ["Photos".toList, "2024 trip".toList] := by decide
  have hbare : BareEdges "/Photos//./2024 trip/".toList := by
    rw [BareEdges, hkept]
    constructor <;> rintro ch ⟨⟩ <;> decide
  exact ⟨haccepted, (canonicalRel_fixed_iff haccepted).mpr hbare⟩

/-- Trimming slashes uncovers a blank, which the next trim takes away. -/
theorem blank_behind_slash_not_fixed : canonicalRel "/ a".toList = .ok " a".toList ∧
    canonicalRel " a".toList = .ok "a".toList ∧ normalizeSubjectPath " a".toList = "a".toList := by
  decide

end LibreServ.Files
