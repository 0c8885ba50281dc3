import LibreServ.Paths

/-! Versions of releases, from `release/publish/publish.go`. `CompareSemver` is the order of keys: three numbers, then
the parts of the prerelease, where having none comes last. -/

namespace LibreServ.Publish

open List
open Files (Text)

variable {o o' : Ordering}

def isDigit (c : Char) : Bool := '0' ≤ c && c ≤ '9'

def isNum (s : Text) : Bool := s.all isDigit && s ≠ []

/-- `0|[1-9][0-9]{0,14}`. -/
def isNumber : Text → Bool
  | [] => false
  | c :: rest => (c = '0' && rest = []) || (isDigit c && c ≠ '0' && rest.all isDigit && rest.length ≤ 14)

/-- `[0-9A-Za-z-]+`. -/
def isIdent (s : Text) : Bool :=
  s ≠ [] && s.all fun c => isDigit c || ('A' ≤ c && c ≤ 'Z') || ('a' ≤ c && c ≤ 'z') || c = '-'

/-- What `semverRE` finds: the three numbers and the prerelease. -/
def semverRE (v : Text) : Option (Text × Text × Text × Text) :=
  match (v.takeWhile (· ≠ '-')).splitOn '.' with
  | [major, minor, patch] =>
    if isNumber major && isNumber minor && isNumber patch then
      match v.dropWhile (· ≠ '-') with
      | [] => some (major, minor, patch, [])
      | _ :: pre => if (pre.splitOn '.').all isIdent then some (major, minor, patch, pre) else none
    else none
  | _ => none

/-- A part of the prerelease that is a number is short and has no zero in front. -/
def identOk (id : Text) : Bool := !(isNum id && (15 < id.length || (1 < id.length && id.head? = some '0')))

def validSemver (v : Text) : Bool :=
  match semverRE v with
  | none => false
  | some (_, _, _, pre) => pre = [] || (pre.splitOn '.').all identOk

def digitVal (c : Char) : Nat := c.toNat - '0'.toNat

/-- `strconv.ParseUint` on digits. -/
def parseUint (s : Text) : Nat := s.foldl (fun n c => 10 * n + digitVal c) 0

/-- Two parts of a prerelease that differ. -/
def compareIdent (x y : Text) : Ordering :=
  if isNum x && isNum y then if parseUint x < parseUint y then .lt else .gt
  else if isNum x then .lt
  else if isNum y then .gt
  else if x < y then .lt
  else .gt

def compareIdents : List Text → List Text → Ordering
  | [], [] => .eq
  | [], _ :: _ => .lt
  | _ :: _, [] => .gt
  | x :: xs, y :: ys => if x = y then compareIdents xs ys else compareIdent x y

def comparePre (a b : Text) : Ordering :=
  if a = b then .eq
  else if a = [] then .gt
  else if b = [] then .lt
  else compareIdents (a.splitOn '.') (b.splitOn '.')

def compareNumbers : List Text → List Text → Ordering
  | x :: xs, y :: ys =>
    if parseUint x ≠ parseUint y then if parseUint x < parseUint y then .lt else .gt else compareNumbers xs ys
  | _, _ => .eq

/-- `CompareSemver`; the error names what is no version. -/
def compareSemver (a b : Text) : Except Text Ordering :=
  if validSemver a = false then .error a
  else if validSemver b = false then .error b
  else
    match semverRE a, semverRE b with
    | some (a₁, a₂, a₃, preA), some (b₁, b₂, b₃, preB) =>
      .ok ((compareNumbers [a₁, a₂, a₃] [b₁, b₂, b₃]).then (comparePre preA preB))
    | _, _ => .error a

/-! ### The order behind it -/

/-- A number comes before anything else. -/
abbrev IdentKey := Nat ⊕ₗ Text

def identKey (x : Text) : IdentKey := if isNum x then toLex (Sum.inl (parseUint x)) else toLex (Sum.inr x)

/-- No prerelease comes after every prerelease. -/
def preKey (pre : Text) : WithTop (List IdentKey) := if pre = [] then ⊤ else ↑((pre.splitOn '.').map identKey)

abbrev VersionKey := Nat ×ₗ (Nat ×ₗ (Nat ×ₗ WithTop (List IdentKey)))

def versionKey (v : Text) : VersionKey :=
  match semverRE v with
  | none => toLex (0, toLex (0, toLex (0, ⊤)))
  | some (a, b, c, pre) => toLex (parseUint a, toLex (parseUint b, toLex (parseUint c, preKey pre)))

/-- An outcome of a comparison says how the keys stand. -/
def Tells {α : Type} [LT α] (o : Ordering) (x y : α) : Prop :=
  match o with
  | .lt => x < y
  | .eq => x = y
  | .gt => y < x

section

variable {α : Type} [LinearOrder α]

theorem Tells.le_iff {x y : α} (h : Tells o x y) : o ≠ .gt ↔ x ≤ y := by
  cases o with
  | lt => exact ⟨fun _ => le_of_lt h, fun _ => nofun⟩
  | eq => exact ⟨fun _ => le_of_eq h, fun _ => nofun⟩
  | gt => exact ⟨fun hne => absurd rfl hne, fun hle => absurd h (not_lt_of_ge hle)⟩

theorem Tells.unique {x y : α} (h : Tells o x y) (h' : Tells o' x y) : o = o' := by
  cases o <;> cases o' <;> simp only [Tells] at h h' <;> grind

theorem Tells.swap {x y : α} (h : Tells o x y) : Tells o.swap y x := by
  cases o with
  | lt => exact h
  | eq => exact Eq.symm h
  | gt => exact h

theorem Tells.eq_iff {x y : α} (h : Tells o x y) : o = .eq ↔ x = y := by
  constructor
  · rintro rfl
    exact h
  · intro heq
    exact h.unique (show Tells .eq x y from heq)

theorem Tells.trans {x y z : α} (h : Tells .lt x y) (h' : Tells .lt y z) (h'' : Tells o x z) : o = .lt :=
  h''.unique (show Tells .lt x z from lt_trans h h')

end

/-- The first difference decides. -/
theorem Tells.then {α β : Type} [LinearOrder α] [LinearOrder β] {x y : α} {x' y' : β} (h : Tells o x y)
    (h' : Tells o' x' y') : Tells (o.then o') (toLex (x, x')) (toLex (y, y')) := by
  cases o with
  | lt | gt => exact Prod.Lex.toLex_lt_toLex.mpr (.inl h)
  | eq =>
    have hxy : x = y := h
    subst hxy
    cases o' with
    | lt | gt => exact Prod.Lex.toLex_lt_toLex.mpr (.inr ⟨rfl, h'⟩)
    | eq =>
      have hxy' : x' = y' := h'
      subst hxy'
      rfl

theorem Tells.map_iff {α β : Type} [LinearOrder α] [LinearOrder β] {f : α → β} (hf : StrictMono f) {x y : α} :
    Tells o (f x) (f y) ↔ Tells o x y := by
  cases o with
  | lt => exact hf.lt_iff_lt
  | eq => exact hf.injective.eq_iff
  | gt => exact hf.lt_iff_lt

theorem Tells.cons {α : Type} [LinearOrder α] {x y : α} {xs ys : List α} (h : Tells o x y)
    (h' : Tells o' xs ys) : Tells (o.then o') (x :: xs) (y :: ys) := by
  cases o with
  | lt | gt => exact cons_lt_cons_iff.mpr (.inl h)
  | eq =>
    have hxy : x = y := h
    subst hxy
    cases o' with
    | lt | gt => exact cons_lt_cons_iff.mpr (.inr ⟨rfl, h'⟩)
    | eq => exact congrArg (x :: ·) h'

/-! ### Numbers -/

theorem parseUint_snoc (s : Text) (c : Char) : parseUint (s ++ [c]) = 10 * parseUint s + digitVal c := by
  simp [parseUint]

theorem digitVal_of_isDigit {c : Char} (h : isDigit c = true) : c.toNat = 48 + digitVal c ∧ digitVal c < 10 := by
  unfold isDigit at h
  rw [Bool.and_eq_true, decide_eq_true_eq, decide_eq_true_eq] at h
  have hlow : ('0' : Char).toNat ≤ c.toNat := h.1
  have hhigh : c.toNat ≤ ('9' : Char).toNat := h.2
  have h0 : ('0' : Char).toNat = 48 := rfl
  have h9 : ('9' : Char).toNat = 57 := rfl
  unfold digitVal
  omega

theorem digitChar_digitVal {c : Char} (h : isDigit c = true) : Nat.digitChar (digitVal c) = c := by
  obtain ⟨hc, hlt⟩ := digitVal_of_isDigit h
  apply Char.toNat_inj.mp
  rw [Nat.toNat_digitChar_of_lt_ten hlt, hc]

/-- A number without a zero in front has the digits of its value. -/
theorem toDigits_parseUint {s : Text} (hs : isNum s = true) (hzero : ¬ (1 < s.length ∧ s.head? = some '0')) :
    Nat.toDigits 10 (parseUint s) = s := by
  induction s using reverseRecOn with
  | nil => cases hs
  | append_singleton t c ih =>
    simp only [isNum, all_append, all_cons, all_nil, Bool.and_true, Bool.and_eq_true] at hs
    obtain ⟨⟨ht, hc⟩, -⟩ := hs
    have hlast : Nat.toDigits 10 (digitVal c) = [c] := by
      rw [Nat.toDigits_of_lt_base (digitVal_of_isDigit hc).2, digitChar_digitVal hc]
    rw [parseUint_snoc]
    cases t with
    | nil => simpa [parseUint] using hlast
    | cons d t =>
      have hhead : d ≠ '0' := by
        rintro rfl
        exact hzero (by simp)
      have hinit := ih (by simp [isNum, ht]) (by simp [hhead])
      have hpos : 0 < parseUint (d :: t) := by
        apply Nat.pos_of_ne_zero
        intro h0
        rw [h0] at hinit
        exact hhead (cons.inj hinit).1.symm
      rw [← Nat.toDigits_append_toDigits (by omega) hpos (digitVal_of_isDigit hc).2, hinit, hlast]

theorem parseUint_injective {s t : Text} (hs : isNum s = true) (ht : isNum t = true) (hsok : identOk s = true)
    (htok : identOk t = true) (h : parseUint s = parseUint t) : s = t := by
  have hzero : ∀ {u : Text}, isNum u = true → identOk u = true → ¬ (1 < u.length ∧ u.head? = some '0') := by
    intro u hu hok hlead
    simp [identOk, hu, hlead] at hok
  rw [← toDigits_parseUint hs (hzero hs hsok), h, toDigits_parseUint ht (hzero ht htok)]

/-! ### Comparing -/

theorem tells_compareIdent {x y : Text} (hx : identOk x = true) (hy : identOk y = true) (hne : x ≠ y) :
    compareIdent x y ≠ .eq ∧ Tells (compareIdent x y) (identKey x) (identKey y) := by
  unfold compareIdent identKey
  cases hxn : isNum x with
  | true =>
    cases hyn : isNum y with
    | true =>
      have hval : parseUint x ≠ parseUint y := fun h => hne (parseUint_injective hxn hyn hx hy h)
      by_cases hlt : parseUint x < parseUint y
      · simp only [if_pos hlt]
        exact ⟨nofun, Sum.Lex.inl_lt_inl_iff.mpr hlt⟩
      · simp only [if_neg hlt]
        exact ⟨nofun, Sum.Lex.inl_lt_inl_iff.mpr (by omega)⟩
    | false => exact ⟨nofun, Sum.Lex.inl_lt_inr _ _⟩
  | false =>
    cases hyn : isNum y with
    | true => exact ⟨nofun, Sum.Lex.inl_lt_inr _ _⟩
    | false =>
      by_cases hlt : x < y
      · simp only [Bool.false_eq_true, if_pos hlt]
        exact ⟨nofun, Sum.Lex.inr_lt_inr_iff.mpr hlt⟩
      · simp only [Bool.false_eq_true, if_neg hlt]
        exact ⟨nofun, Sum.Lex.inr_lt_inr_iff.mpr (lt_of_le_of_ne (not_lt.mp hlt) (Ne.symm hne))⟩

theorem tells_compareIdents {xs ys : List Text} (hxs : xs.all identOk = true) (hys : ys.all identOk = true) :
    Tells (compareIdents xs ys) (xs.map identKey) (ys.map identKey) := by
  induction xs generalizing ys with
  | nil =>
    cases ys with
    | nil => rfl
    | cons y ys => exact nil_lt_cons _ _
  | cons x xs ih =>
    cases ys with
    | nil => exact nil_lt_cons _ _
    | cons y ys =>
      rw [all_cons, Bool.and_eq_true] at hxs hys
      unfold compareIdents
      by_cases hxy : x = y
      · rw [if_pos hxy, hxy]
        have hsame : Tells .eq (identKey y) (identKey y) := rfl
        exact hsame.cons (ih hxs.2 hys.2)
      rw [if_neg hxy]
      obtain ⟨hne, htells⟩ := tells_compareIdent hxs.1 hys.1 hxy
      have hfirst : compareIdent x y = (compareIdent x y).then (compareIdents xs ys) := by
        cases hc : compareIdent x y with
        | lt | gt => rfl
        | eq => exact absurd hc hne
      rw [hfirst]
      exact htells.cons (ih hxs.2 hys.2)

theorem tells_comparePre {a b : Text} (ha : a = [] ∨ (a.splitOn '.').all identOk = true)
    (hb : b = [] ∨ (b.splitOn '.').all identOk = true) : Tells (comparePre a b) (preKey a) (preKey b) := by
  unfold comparePre preKey
  by_cases hab : a = b
  · rw [if_pos hab, hab]
    rfl
  rw [if_neg hab]
  by_cases ha0 : a = []
  · have hb0 : b ≠ [] := fun h => hab (ha0.trans h.symm)
    rw [if_pos ha0, if_pos ha0, if_neg hb0]
    exact WithTop.coe_lt_top _
  rw [if_neg ha0, if_neg ha0]
  by_cases hb0 : b = []
  · rw [if_pos hb0, if_pos hb0]
    exact WithTop.coe_lt_top _
  · rw [if_neg hb0, if_neg hb0]
    exact (Tells.map_iff WithTop.coe_strictMono).mpr (tells_compareIdents (ha.resolve_left ha0) (hb.resolve_left hb0))

def compareNumber (x y : Text) : Ordering :=
  if parseUint x ≠ parseUint y then if parseUint x < parseUint y then .lt else .gt else .eq

theorem tells_compareNumber (x y : Text) : Tells (compareNumber x y) (parseUint x) (parseUint y) := by
  unfold compareNumber
  split
  · rename_i hne
    split
    · rename_i hlt
      exact hlt
    · rename_i hge
      show parseUint y < parseUint x
      omega
  · rename_i heq
    exact not_not.mp heq

theorem compareNumbers_cons (x y : Text) (xs ys : List Text) :
    compareNumbers (x :: xs) (y :: ys) = (compareNumber x y).then (compareNumbers xs ys) := by
  unfold compareNumber
  rw [compareNumbers]
  split
  · split
    · rfl
    · rfl
  · rfl

theorem versionKey_eq {v a b c pre : Text} (h : semverRE v = some (a, b, c, pre)) :
    versionKey v = toLex (parseUint a, toLex (parseUint b, toLex (parseUint c, preKey pre))) := by
  unfold versionKey
  rw [h]

theorem pre_of_valid {v a b c pre : Text} (hvalid : validSemver v = true) (h : semverRE v = some (a, b, c, pre)) :
    pre = [] ∨ (pre.splitOn '.').all identOk = true := by
  unfold validSemver at hvalid
  rw [h] at hvalid
  rw [Bool.or_eq_true, decide_eq_true_eq] at hvalid
  exact hvalid

/-- `CompareSemver` goes by the keys. -/
theorem tells_compareSemver {a b : Text} (h : compareSemver a b = .ok o) :
    Tells o (versionKey a) (versionKey b) := by
  unfold compareSemver at h
  split at h
  · cases h
  rename_i hva
  split at h
  · cases h
  rename_i hvb
  split at h
  · rename_i a₁ a₂ a₃ preA b₁ b₂ b₃ preB ha hb
    injection h with h
    rw [Bool.not_eq_false] at hva hvb
    have hpre := tells_comparePre (pre_of_valid hva ha) (pre_of_valid hvb hb)
    have hall := (tells_compareNumber a₁ b₁).then
      ((tells_compareNumber a₂ b₂).then ((tells_compareNumber a₃ b₃).then hpre))
    have horder : o = (compareNumber a₁ b₁).then
        ((compareNumber a₂ b₂).then ((compareNumber a₃ b₃).then (comparePre preA preB))) := by
      rw [← h, compareNumbers_cons, compareNumbers_cons, compareNumbers_cons, Ordering.then_assoc,
        Ordering.then_assoc, Ordering.then_assoc]
      rfl
    rw [versionKey_eq ha, versionKey_eq hb, horder]
    exact hall
  · cases h

theorem exists_semverRE {v : Text} (h : validSemver v = true) : ∃ a b c pre, semverRE v = some (a, b, c, pre) := by
  unfold validSemver at h
  split at h
  · cases h
  · rename_i a b c pre hv
    exact ⟨a, b, c, pre, hv⟩

theorem exists_compareSemver {a b : Text} (ha : validSemver a = true) (hb : validSemver b = true) :
    ∃ o, compareSemver a b = .ok o := by
  obtain ⟨a₁, a₂, a₃, preA, hga⟩ := exists_semverRE ha
  obtain ⟨b₁, b₂, b₃, preB, hgb⟩ := exists_semverRE hb
  unfold compareSemver
  rw [if_neg (by rw [ha]; exact nofun), if_neg (by rw [hb]; exact nofun), hga, hgb]
  exact ⟨_, rfl⟩

/-- The version `a` is not after `b`. -/
def NotAfter (a b : Text) : Prop := ∃ o, compareSemver a b = .ok o ∧ o ≠ .gt

theorem notAfter_iff {a b : Text} (ha : validSemver a = true) (hb : validSemver b = true) :
    NotAfter a b ↔ versionKey a ≤ versionKey b := by
  constructor
  · rintro ⟨o, ho, hne⟩
    exact (tells_compareSemver ho).le_iff.mp hne
  · intro hle
    obtain ⟨o, ho⟩ := exists_compareSemver ha hb
    exact ⟨o, ho, (tells_compareSemver ho).le_iff.mpr hle⟩

end LibreServ.Publish
