import LibreServ.Semver

/-! The version rules of the release tool, from `release/version/version.go`, beside the order of `publish.go`. -/

namespace LibreServ.Versions

open Files (Text)
open Publish List

variable {n : Int64}

structure Version where
  major : Int64
  minor : Int64
  patch : Int64
  pre : List Text
  deriving DecidableEq

inductive ParseError where
  | empty
  | metadata
  | notThreeNumbers
  | notNumber
  | leadingZero
  | outOfRange
  | emptyPre
  | emptyIdent
  | badCharacter (r : Char)
  deriving DecidableEq

def isNumeric (s : Text) : Bool := if s = [] then false else s.all isDigit

/-- `strconv.Atoi` on digits. -/
def atoi (s : Text) : Option Int64 := if parseUint s < 2 ^ 63 then some (Int64.ofNat (parseUint s)) else none

/-- `strconv.Itoa`. -/
def itoa (n : Int64) : Text := if n < 0 then '-' :: Nat.toDigits 10 n.toInt.natAbs else Nat.toDigits 10 n.toInt.natAbs

def parseNumeric (s : Text) : Except ParseError Int64 :=
  if isNumeric s = false then .error .notNumber
  else if 1 < s.length ∧ s.head? = some '0' then .error .leadingZero
  else
    match atoi s with
    | none => .error .outOfRange
    | some n => .ok n

def isIdentChar (r : Char) : Bool := isDigit r || ('a' ≤ r && r ≤ 'z') || ('A' ≤ r && r ≤ 'Z') || r = '-'

/-- What `Parse` asks of a part of the prerelease. -/
def checkIdent (id : Text) : Except ParseError Unit :=
  if id = [] then .error .emptyIdent
  else
    match id.find? fun r => !isIdentChar r with
    | some r => .error (.badCharacter r)
    | none => if isNumeric id then (parseNumeric id).map fun _ => () else .ok ()

def checkIdents : List Text → Except ParseError Unit
  | [] => .ok ()
  | id :: rest => (checkIdent id).bind fun _ => checkIdents rest

/-- The prerelease behind the numbers, with its hyphen. -/
def parsePre : Text → Except ParseError (List Text)
  | [] => .ok []
  | _ :: pre => if pre = [] then .error .emptyPre else (checkIdents (pre.splitOn '.')).map fun _ => pre.splitOn '.'

def parse (s : Text) : Except ParseError Version :=
  if s = [] then .error .empty
  else if s.any (fun r => r ∈ ['+', ' ', '\t', '\r', '\n']) then .error .metadata
  else
    match (s.takeWhile (· ≠ '-')).splitOn '.' with
    | [a, b, c] => do
      let major ← parseNumeric a
      let minor ← parseNumeric b
      let patch ← parseNumeric c
      let pre ← parsePre (s.dropWhile (· ≠ '-'))
      pure ⟨major, minor, patch, pre⟩
    | _ => .error .notThreeNumbers

def cmpInt (a b : Int64) : Ordering := if a < b then .lt else if b < a then .gt else .eq

/-- The number `Atoi` gives when its error is dropped. -/
def atoiValue (s : Text) : Int64 := (atoi s).getD Int64.maxValue

def compareIdent (a b : Text) : Ordering :=
  if isNumeric a && isNumeric b then cmpInt (atoiValue a) (atoiValue b)
  else if isNumeric a then .lt
  else if isNumeric b then .gt
  else if a < b then .lt
  else if b < a then .gt
  else .eq

def compareIdents : List Text → List Text → Ordering
  | [], [] => .eq
  | [], _ :: _ => .lt
  | _ :: _, [] => .gt
  | x :: xs, y :: ys => (compareIdent x y).then (compareIdents xs ys)

def comparePre : List Text → List Text → Ordering
  | [], [] => .eq
  | [], _ :: _ => .gt
  | _ :: _, [] => .lt
  | xs, ys => compareIdents xs ys

inductive RuleError where
  | coreTooBig
  | noVersionCode
  | cannotBetaBump
  | unknownBump
  deriving DecidableEq

namespace Version

variable (v o : Version)

def string : Text :=
  itoa v.major ++ '.' :: itoa v.minor ++ '.' :: itoa v.patch ++ if v.pre = [] then [] else '-' :: ['.'].intercalate v.pre

def isPrerelease : Bool := v.pre ≠ []

def compare : Ordering :=
  (cmpInt v.major o.major).then ((cmpInt v.minor o.minor).then ((cmpInt v.patch o.patch).then (comparePre v.pre o.pre)))

def betaNumber : Option Int64 :=
  match v.pre with
  | [beta, n] => if beta = "beta".toList ∧ isNumeric n = true then atoi n else none
  | _ => none

def androidVersionCode : Except RuleError Int64 :=
  if 99 < v.minor ∨ 99 < v.patch then .error .coreTooBig
  else if v.isPrerelease then
    match v.betaNumber with
    | some b =>
      if b < 1 ∨ 98 < b then .error .noVersionCode
      else .ok ((v.major * 10000 + v.minor * 100 + v.patch) * 100 + b)
    | none => .error .noVersionCode
  else .ok ((v.major * 10000 + v.minor * 100 + v.patch) * 100 + 99)

def next (kind : Text) : Except RuleError Version :=
  if kind = "patch".toList then
    if v.isPrerelease then .ok { v with pre := [] } else .ok ⟨v.major, v.minor, v.patch + 1, []⟩
  else if kind = "minor".toList then .ok ⟨v.major, v.minor + 1, 0, []⟩
  else if kind = "major".toList then .ok ⟨v.major + 1, 0, 0, []⟩
  else if kind = "beta".toList then
    match v.betaNumber with
    | some n => .ok { v with pre := ["beta".toList, itoa (n + 1)] }
    | none =>
      if v.isPrerelease then .error .cannotBetaBump
      else .ok ⟨v.major, v.minor, v.patch + 1, ["beta".toList, ['1']]⟩
  else .error .unknownBump

def dev (last : Version) (commits : Int64) : Version :=
  { last with
    patch := if last.isPrerelease then last.patch else last.patch + 1
    pre := ["0".toList, "dev".toList, itoa commits] }

/-- The number that `Next` counts up is not the largest `int`. -/
def Counts (kind : Text) : Prop :=
  (kind = "minor".toList → v.minor ≠ Int64.maxValue) ∧ (kind = "major".toList → v.major ≠ Int64.maxValue) ∧
    (kind ∈ ["patch".toList, "beta".toList] → v.isPrerelease = false → v.patch ≠ Int64.maxValue)

end Version

/-- `Compare` on strings. -/
def compare (a b : Text) : Except ParseError Ordering := do
  let x ← parse a
  let y ← parse b
  pure (x.compare y)

/-! ### Numbers -/

theorem isNumeric_eq (s : Text) : isNumeric s = isNum s := by
  unfold isNumeric isNum
  split <;> simp_all

theorem atoi_some {s : Text} (h : atoi s = some n) : n.toInt = parseUint s := by
  unfold atoi at h
  split at h
  · cases h
    exact Int64.toInt_ofNat_of_lt ‹_›
  · cases h

theorem parseNumeric_ok {s : Text} (h : parseNumeric s = .ok n) :
    n.toInt = parseUint s ∧ itoa n = s ∧ isNum s = true := by
  unfold parseNumeric at h
  split at h
  · cases h
  · rename_i hnum
    rw [isNumeric_eq, Bool.not_eq_false] at hnum
    split at h
    · cases h
    · rename_i hzero
      split at h
      · cases h
      · rename_i n' hn
        cases h
        have hval := atoi_some hn
        have hpos : ¬ n < 0 := by
          rw [Int64.lt_iff_toInt_lt, hval]
          exact not_lt.mpr (Int.natCast_nonneg _)
        refine ⟨hval, ?_, hnum⟩
        rw [itoa, if_neg hpos, hval, Int.natAbs_natCast, toDigits_parseUint hnum hzero]

theorem parseUint_lt {s : Text} (hs : s.all isDigit = true) : parseUint s < 10 ^ s.length := by
  induction s using reverseRecOn with
  | nil => decide
  | append_singleton t c ih =>
    rw [all_append, Bool.and_eq_true] at hs
    have hlt := ih hs.1
    have hc := (digitVal_of_isDigit (all_eq_true.mp hs.2 c mem_cons_self)).2
    rw [parseUint_snoc, length_append, length_singleton]
    omega

/-- Digits that are few and have no zero in front are read. -/
theorem parseNumeric_of {s : Text} (hs : isNum s = true) (hlen : s.length ≤ 15)
    (hzero : ¬ (1 < s.length ∧ s.head? = some '0')) : ∃ n, parseNumeric s = .ok n := by
  have hlt : parseUint s < 2 ^ 63 := by
    have hpow : 10 ^ s.length ≤ 10 ^ 15 := Nat.pow_le_pow_right (by omega) hlen
    have hall := parseUint_lt (Bool.and_eq_true _ _ ▸ hs).1
    omega
  refine ⟨Int64.ofNat (parseUint s), ?_⟩
  rw [parseNumeric, isNumeric_eq, hs, if_neg nofun, if_neg hzero, atoi, if_pos hlt]

theorem cmpInt_self (n : Int64) : cmpInt n n = .eq := by
  simp [cmpInt]

theorem tells_cmpInt (a b : Int64) : Tells (cmpInt a b) a.toInt b.toInt := by
  unfold cmpInt
  simp only [Int64.lt_iff_toInt_lt]
  split
  · assumption
  · split
    · assumption
    · show a.toInt = b.toInt
      omega

theorem toInt_succ (h : n ≠ Int64.maxValue) : (n + 1).toInt = n.toInt + 1 := by
  have hlt := n.toInt_lt
  have hle := n.le_toInt
  have hne : n.toInt ≠ 2 ^ 63 - 1 := fun heq => h (Int64.toInt_inj.mp heq)
  rw [Int64.toInt_add]
  exact Int.bmod_eq_of_le (by simp; omega) (by simp; omega)

theorem cmpInt_succ (n : Int64) (o : Ordering) : (cmpInt n (n + 1)).then o = .lt ↔ n ≠ Int64.maxValue := by
  by_cases h : n = Int64.maxValue
  · have hgt : cmpInt Int64.maxValue (Int64.maxValue + 1) = .gt := by decide
    simp [h, hgt]
  · have hsucc := toInt_succ h
    have hlt : cmpInt n (n + 1) = .lt := if_pos (Int64.lt_iff_toInt_lt.mpr (by omega))
    simp [h, hlt]

/-! ### Parts of a prerelease -/

/-- If the part is a number, it is one that `Parse` takes. -/
def Read (id : Text) : Prop := isNum id = true → ∃ n, parseNumeric id = .ok n

variable {x y : Text} {xs ys : List Text} {v w : Version} {s a b : Text}

theorem checkIdent_ok (h : checkIdent x = .ok ()) : Read x := by
  intro hnum
  rw [← isNumeric_eq] at hnum
  unfold checkIdent at h
  split at h
  · cases h
  · split at h
    · cases h
    · cases hp : parseNumeric x with
      | error e =>
        rw [hp] at h
        cases h
      | ok n => exact ⟨n, rfl⟩

theorem checkIdents_ok (h : checkIdents xs = .ok ()) : ∀ id ∈ xs, Read id := by
  induction xs with
  | nil => simp
  | cons id rest ih =>
    cases hid : checkIdent id with
    | error e =>
      rw [checkIdents, hid] at h
      cases h
    | ok u =>
      rw [checkIdents, hid] at h
      exact forall_mem_cons.mpr ⟨checkIdent_ok hid, ih h⟩

/-- The parts that `ValidSemver` takes. -/
theorem checkIdents_of_valid (hident : xs.all isIdent = true) (hok : xs.all identOk = true) :
    checkIdents xs = .ok () := by
  induction xs with
  | nil => rfl
  | cons id rest ih =>
    simp only [all_cons, Bool.and_eq_true] at hident hok
    have hid : checkIdent id = .ok () := by
      obtain ⟨⟨hne, hchars⟩, -⟩ := And.imp_left (Bool.and_eq_true _ _ ▸ ·) hident
      have hgood : (id.find? fun r => !isIdentChar r) = none := by
        rw [find?_eq_none]
        intro r hr
        have hall := all_eq_true.mp hchars r hr
        simp only [isIdentChar]
        grind
      rw [checkIdent, if_neg (of_decide_eq_true hne), hgood]
      by_cases hnum : isNumeric id = true
      · have hshort := hok.1
        have hnum' : isNum id = true := isNumeric_eq id ▸ hnum
        rw [identOk, hnum'] at hshort
        obtain ⟨n, hn⟩ := parseNumeric_of hnum' (by simp at hshort; omega) (by simp at hshort ⊢; grind)
        simp only [if_pos hnum, hn]
        rfl
      · simp only [if_neg hnum]
    rw [checkIdents, hid]
    exact ih hident.2 hok.2

theorem identKey_injective (hx : Read x) (hy : Read y) (h : identKey x = identKey y) : x = y := by
  unfold identKey at h
  split at h
  · rename_i hxn
    split at h
    · rename_i hyn
      obtain ⟨m, hm⟩ := hx hxn
      obtain ⟨n, hn⟩ := hy hyn
      have hval : parseUint x = parseUint y := Sum.inl.inj (toLex_inj.mp h)
      have hsame : m = n := by
        apply Int64.toInt_inj.mp
        rw [(parseNumeric_ok hm).1, (parseNumeric_ok hn).1, hval]
      rw [← (parseNumeric_ok hm).2.1, hsame, (parseNumeric_ok hn).2.1]
    · cases toLex_inj.mp h
  · split at h
    · cases toLex_inj.mp h
    · exact Sum.inr.inj (toLex_inj.mp h)

theorem atoiValue_of (h : parseNumeric x = .ok n) : (atoiValue x).toInt = parseUint x := by
  unfold parseNumeric at h
  split at h
  · cases h
  · split at h
    · cases h
    · split at h
      · cases h
      · rename_i hn
        rw [atoiValue, hn, Option.getD_some, atoi_some hn]

theorem tells_compareIdent (hx : Read x) (hy : Read y) : Tells (compareIdent x y) (identKey x) (identKey y) := by
  unfold compareIdent identKey
  rw [isNumeric_eq, isNumeric_eq]
  cases hxn : isNum x with
  | true =>
    cases hyn : isNum y with
    | true =>
      obtain ⟨m, hm⟩ := hx hxn
      obtain ⟨n, hn⟩ := hy hyn
      have htells := tells_cmpInt (atoiValue x) (atoiValue y)
      rw [atoiValue_of hm, atoiValue_of hn] at htells
      exact (Tells.map_iff Sum.Lex.inl_strictMono).mpr ((Tells.map_iff fun _ _ => Int.ofNat_lt.mpr).mp htells)
    | false => exact Sum.Lex.inl_lt_inr _ _
  | false =>
    cases hyn : isNum y with
    | true => exact Sum.Lex.inl_lt_inr _ _
    | false =>
      rcases lt_trichotomy x y with hlt | rfl | hlt
      · rw [if_pos hlt]
        exact Sum.Lex.inr_lt_inr_iff.mpr hlt
      · rw [if_neg (lt_irrefl x), if_neg (lt_irrefl x)]
        rfl
      · rw [if_neg (lt_asymm hlt), if_pos hlt]
        exact Sum.Lex.inr_lt_inr_iff.mpr hlt

theorem tells_compareIdents (hxs : ∀ id ∈ xs, Read id) (hys : ∀ id ∈ ys, Read id) :
    Tells (compareIdents xs ys) (xs.map identKey) (ys.map identKey) := by
  induction xs generalizing ys with
  | nil =>
    cases ys with
    | nil => rfl
    | cons y ys => exact nil_lt_cons _ _
  | cons x xs ih =>
    cases ys with
    | nil => exact nil_lt_cons _ _
    | cons y ys =>
      rw [forall_mem_cons] at hxs hys
      exact (tells_compareIdent hxs.1 hys.1).cons (ih hxs.2 hys.2)

/-- No parts come after all parts. -/
def partsKey (xs : List Text) : WithTop (List IdentKey) := if xs = [] then ⊤ else ↑(xs.map identKey)

theorem tells_comparePre (hxs : ∀ id ∈ xs, Read id) (hys : ∀ id ∈ ys, Read id) :
    Tells (comparePre xs ys) (partsKey xs) (partsKey ys) := by
  cases xs with
  | nil =>
    cases ys with
    | nil => rfl
    | cons y ys => exact WithTop.coe_lt_top _
  | cons x xs =>
    cases ys with
    | nil => exact WithTop.coe_lt_top _
    | cons y ys =>
      have htells := tells_compareIdents hxs hys
      rw [← Tells.map_iff (WithTop.coe_strictMono (α := List IdentKey))] at htells
      exact htells

/-! ### Versions -/

/-- A version as `Parse` gives it. -/
def Version.Parsed (v : Version) : Prop := ∀ id ∈ v.pre, Read id

def Version.key (v : Version) : Int ×ₗ (Int ×ₗ (Int ×ₗ WithTop (List IdentKey))) :=
  toLex (v.major.toInt, toLex (v.minor.toInt, toLex (v.patch.toInt, partsKey v.pre)))

theorem tells_compare (hv : v.Parsed) (hw : w.Parsed) : Tells (v.compare w) v.key w.key :=
  (tells_cmpInt _ _).then ((tells_cmpInt _ _).then ((tells_cmpInt _ _).then (tells_comparePre hv hw)))

theorem partsKey_injective (hxs : ∀ id ∈ xs, Read id) (hys : ∀ id ∈ ys, Read id) (h : partsKey xs = partsKey ys) : xs = ys := by
  have hmap : ∀ {as bs : List Text}, (∀ id ∈ as, Read id) → (∀ id ∈ bs, Read id) → as.map identKey = bs.map identKey →
      as = bs := by
    intro as
    induction as with
    | nil =>
      intro bs _ _ h
      exact (map_eq_nil_iff.mp h.symm).symm
    | cons a as ih =>
      intro bs has hbs h
      cases bs with
      | nil => cases h
      | cons b bs =>
        rw [forall_mem_cons] at has hbs
        obtain ⟨hhead, htail⟩ := cons.inj h
        rw [identKey_injective has.1 hbs.1 hhead, ih has.2 hbs.2 htail]
  unfold partsKey at h
  split at h
  · rename_i hnil
    split at h
    · rename_i hnil'
      rw [hnil, hnil']
    · cases h
  · split at h
    · cases h
    · exact hmap hxs hys (WithTop.coe_inj.mp h)

theorem key_injective (hv : v.Parsed) (hw : w.Parsed) (h : v.key = w.key) : v = w := by
  simp only [Version.key, toLex_inj, Prod.mk.injEq, Int64.toInt_inj] at h
  obtain ⟨hmajor, hminor, hpatch, hpre⟩ := h
  have hparts : v.pre = w.pre := partsKey_injective hv hw hpre
  cases v
  cases w
  simp_all

theorem parsePre_ok (h : parsePre s = .ok xs) :
    (∀ id ∈ xs, Read id) ∧ (s = [] ∧ xs = [] ∨ ∃ c pre, s = c :: pre ∧ xs = pre.splitOn '.') := by
  cases s with
  | nil =>
    cases h
    simp
  | cons c pre =>
    simp only [parsePre] at h
    split at h
    · cases h
    · cases hc : checkIdents (pre.splitOn '.') with
      | error e =>
        rw [hc] at h
        cases h
      | ok u =>
        rw [hc] at h
        cases h
        exact ⟨checkIdents_ok hc, .inr ⟨c, pre, rfl, rfl⟩⟩

/-- What `Parse` has read. -/
theorem parse_ok (h : parse s = .ok v) : ∃ a b c, (s.takeWhile (· ≠ '-')).splitOn '.' = [a, b, c] ∧
    parseNumeric a = .ok v.major ∧ parseNumeric b = .ok v.minor ∧ parseNumeric c = .ok v.patch ∧
    parsePre (s.dropWhile (· ≠ '-')) = .ok v.pre := by
  unfold parse at h
  split at h
  · cases h
  · split at h
    · cases h
    · split at h
      · rename_i a b c hcore
        refine ⟨a, b, c, hcore, ?_⟩
        cases ha : parseNumeric a with
        | error e => simp [ha, bind, Except.bind] at h
        | ok major =>
          cases hb : parseNumeric b with
          | error e => simp [ha, hb, bind, Except.bind] at h
          | ok minor =>
            cases hc : parseNumeric c with
            | error e => simp [ha, hb, hc, bind, Except.bind] at h
            | ok patch =>
              cases hp : parsePre (s.dropWhile (· ≠ '-')) with
              | error e => simp only [ha, hb, hc, hp, bind, Except.bind, reduceCtorEq] at h
              | ok pre =>
                simp only [ha, hb, hc, hp, bind, Except.bind, pure, Except.pure, Except.ok.injEq] at h
                subst h
                exact ⟨rfl, rfl, rfl, rfl⟩
      · cases h

theorem parsed_of_parse (h : parse s = .ok v) : v.Parsed := by
  obtain ⟨_, _, _, -, -, -, -, hpre⟩ := parse_ok h
  exact (parsePre_ok hpre).1

theorem string_of_parse (h : parse s = .ok v) : v.string = s := by
  obtain ⟨a, b, c, hcore, ha, hb, hc, hpre⟩ := parse_ok h
  have hjoin : ['.'].intercalate [a, b, c] = s.takeWhile (· ≠ '-') := by
    rw [← hcore, intercalate_splitOn]
  have hrest : (if v.pre = [] then [] else '-' :: ['.'].intercalate v.pre) = s.dropWhile (· ≠ '-') := by
    rcases (parsePre_ok hpre).2 with ⟨hnil, hxs⟩ | ⟨d, pre, hd, hxs⟩
    · rw [hnil, if_pos hxs]
    · have hhyphen : d = '-' := by
        have hnot := head?_dropWhile_not (· ≠ '-') s
        rw [hd] at hnot
        simpa using hnot
      have hne : v.pre ≠ [] := by
        rw [hxs]
        exact splitOn_ne_nil _ _
      rw [if_neg hne, hxs, intercalate_splitOn, hd, hhyphen]
  have hall := takeWhile_append_dropWhile (p := (· ≠ '-')) (l := s)
  rw [← hjoin] at hall
  rw [Version.string, (parseNumeric_ok ha).2.1, (parseNumeric_ok hb).2.1, (parseNumeric_ok hc).2.1, hrest]
  simpa [intercalate] using hall

/-! ### What `ValidSemver` takes -/

theorem isNumber_digits (h : isNumber s = true) :
    isNum s = true ∧ s.length ≤ 15 ∧ ¬ (1 < s.length ∧ s.head? = some '0') := by
  cases s with
  | nil => cases h
  | cons c rest =>
    simp only [isNumber, Bool.or_eq_true, Bool.and_eq_true, decide_eq_true_eq] at h
    rcases h with ⟨rfl, rfl⟩ | ⟨⟨⟨hc, hne⟩, hrest⟩, hlen⟩
    · decide
    · refine ⟨by simp [isNum, hc, hrest], ?_, by simp [hne]⟩
      rw [length_cons]
      omega

theorem mem_of_splitOn {r : Char} (h : r ∈ s) (hdot : r ≠ '.') : ∃ id ∈ s.splitOn '.', r ∈ id := by
  unfold splitOn
  induction s with
  | nil => cases h
  | cons c s ih =>
    rw [splitOnP_cons_eq_if_modifyHead]
    obtain ⟨first, rest, hsplit⟩ := exists_cons_of_ne_nil (splitOnP_ne_nil (· == '.') s)
    simp only [hsplit, mem_cons] at h ih ⊢
    split
    · rename_i hc
      rcases h with rfl | h
      · exact absurd (eq_of_beq hc) hdot
      · obtain ⟨id, hid, hr⟩ := ih h
        exact ⟨id, mem_cons_of_mem _ (mem_cons.mpr hid), hr⟩
    · rcases h with rfl | h
      · exact ⟨r :: first, mem_cons_self, mem_cons_self⟩
      · obtain ⟨id, rfl | hid, hr⟩ := ih h
        · exact ⟨c :: id, mem_cons_self, mem_cons_of_mem c hr⟩
        · exact ⟨id, mem_cons_of_mem _ hid, hr⟩

theorem not_mem_of_parts {r : Char} (hr : isIdentChar r = false ∧ r ≠ '.')
    (h : ∀ id ∈ s.splitOn '.', ∀ c ∈ id, isIdentChar c = true) : r ∉ s := by
  intro hs
  obtain ⟨id, hid, hmem⟩ := mem_of_splitOn hs hr.2
  rw [h id hid r hmem] at hr
  cases hr.1

theorem identChar_of_number (h : isNumber s = true) : ∀ c ∈ s, isIdentChar c = true := by
  intro c hc
  have hnum := (isNumber_digits h).1
  simp only [isNum, Bool.and_eq_true] at hnum
  simp [isIdentChar, all_eq_true.mp hnum.1 c hc]

theorem identChar_of_ident (h : isIdent s = true) : ∀ c ∈ s, isIdentChar c = true := by
  intro c hc
  simp only [isIdent, Bool.and_eq_true] at h
  have hall := all_eq_true.mp h.2 c hc
  simp only [isIdentChar]
  grind

/-- What `semverRE` finds, beside what `Parse` looks at. -/
theorem semverRE_some {c pre : Text} (h : semverRE s = some (a, b, c, pre)) :
    (s.takeWhile (· ≠ '-')).splitOn '.' = [a, b, c] ∧ (isNumber a = true ∧ isNumber b = true ∧ isNumber c = true) ∧
      (s.dropWhile (· ≠ '-') = [] ∧ pre = [] ∨
        (∃ d, s.dropWhile (· ≠ '-') = d :: pre) ∧ (pre.splitOn '.').all isIdent = true) := by
  unfold semverRE at h
  split at h
  · rename_i hcore
    split at h
    · rename_i hnums
      simp only [Bool.and_eq_true] at hnums
      split at h
      · rename_i hdrop
        cases h
        exact ⟨hcore, ⟨hnums.1.1, hnums.1.2, hnums.2⟩, .inl ⟨hdrop, rfl⟩⟩
      · rename_i d rest hdrop
        split at h
        · rename_i hident
          cases h
          exact ⟨hcore, ⟨hnums.1.1, hnums.1.2, hnums.2⟩, .inr ⟨⟨d, hdrop⟩, hident⟩⟩
        · cases h
    · cases h
  · cases h

/-- What `ValidSemver` takes `Parse` reads, with the same numbers and the same parts. -/
theorem parse_of_valid {c pre : Text} (hvalid : validSemver s = true) (h : semverRE s = some (a, b, c, pre)) :
    ∃ v, parse s = .ok v ∧ v.major.toInt = parseUint a ∧ v.minor.toInt = parseUint b ∧ v.patch.toInt = parseUint c ∧
      partsKey v.pre = preKey pre := by
  obtain ⟨hcore, ⟨ha, hb, hc⟩, hrest⟩ := semverRE_some h
  have hread : ∀ {t : Text}, isNumber t = true → ∃ n, parseNumeric t = .ok n := fun ht =>
    parseNumeric_of (isNumber_digits ht).1 (isNumber_digits ht).2.1 (isNumber_digits ht).2.2
  obtain ⟨⟨major, hmajor⟩, ⟨minor, hminor⟩, ⟨patch, hpatch⟩⟩ := And.intro (hread ha) (And.intro (hread hb) (hread hc))
  -- nothing that `Parse` forbids is in a part
  have hcoreNot : ∀ {r : Char}, isIdentChar r = false ∧ r ≠ '.' → r ∉ s.takeWhile (· ≠ '-') := by
    intro r hr
    apply not_mem_of_parts hr
    rw [hcore]
    simpa using ⟨identChar_of_number ha, identChar_of_number hb, identChar_of_number hc⟩
  have hrestNot : ∀ {r : Char}, isIdentChar r = false ∧ r ≠ '.' → r ∉ s.dropWhile (· ≠ '-') := by
    intro r hr
    rcases hrest with ⟨hnil, -⟩ | ⟨⟨d, hd⟩, hident⟩
    · rw [hnil]
      exact not_mem_nil
    · have hhyphen := head?_dropWhile_not (· ≠ '-') s
      rw [hd] at hhyphen ⊢
      intro hmem
      rcases mem_cons.mp hmem with rfl | hmem
      · obtain rfl : r = '-' := by simpa using hhyphen
        exact absurd hr.1 (by decide)
      · exact not_mem_of_parts hr (fun id hid => identChar_of_ident (all_eq_true.mp hident id hid)) hmem
  have hany : s.any (fun r => r ∈ ['+', ' ', '\t', '\r', '\n']) = false := by
    rw [any_eq_false]
    intro r hs hr
    have hbad : isIdentChar r = false ∧ r ≠ '.' := by
      simp only [mem_cons, not_mem_nil, or_false, decide_eq_true_eq] at hr
      rcases hr with rfl | rfl | rfl | rfl | rfl <;> decide
    rw [← takeWhile_append_dropWhile (p := (· ≠ '-')) (l := s), mem_append] at hs
    exact hs.elim (hcoreNot hbad) (hrestNot hbad)
  have hne : s ≠ [] := by
    rintro rfl
    cases hcore
  have hparts : ∃ parts, parsePre (s.dropWhile (· ≠ '-')) = .ok parts ∧ partsKey parts = preKey pre := by
    rcases hrest with ⟨hnil, rfl⟩ | ⟨⟨d, hd⟩, hident⟩
    · exact ⟨[], by rw [hnil]; rfl, rfl⟩
    · have hpre : pre ≠ [] := by
        rintro rfl
        cases hident
      have hok := (pre_of_valid hvalid h).resolve_left hpre
      refine ⟨pre.splitOn '.', ?_, ?_⟩
      · rw [hd, parsePre, if_neg hpre, checkIdents_of_valid hident hok]
        rfl
      · rw [partsKey, preKey, if_neg hpre, if_neg (splitOn_ne_nil _ _)]
  obtain ⟨parts, hparts, hkey⟩ := hparts
  refine ⟨⟨major, minor, patch, parts⟩, ?_, (parseNumeric_ok hmajor).1, (parseNumeric_ok hminor).1, (parseNumeric_ok hpatch).1, hkey⟩
  rw [parse, if_neg hne, hany, if_neg nofun, hcore]
  simp only [hmajor, hminor, hpatch, hparts, bind, Except.bind, pure, Except.pure]

theorem exists_parse_of_valid (h : validSemver s = true) : ∃ v, parse s = .ok v := by
  obtain ⟨a, b, c, pre, hre⟩ := exists_semverRE h
  obtain ⟨v, hv, -⟩ := parse_of_valid h hre
  exact ⟨v, hv⟩

theorem compare_ok (ha : parse a = .ok v) (hb : parse b = .ok w) : compare a b = .ok (v.compare w) := by
  rw [compare, ha, hb]
  rfl

/-- Both comparisons go by the same numbers and the same parts. -/
theorem compare_eq_compareSemver (ha : validSemver a = true) (hb : validSemver b = true) :
    ∃ o, compareSemver a b = .ok o ∧ compare a b = .ok o := by
  obtain ⟨a₁, a₂, a₃, preA, hra⟩ := exists_semverRE ha
  obtain ⟨b₁, b₂, b₃, preB, hrb⟩ := exists_semverRE hb
  obtain ⟨v, hv, hv₁, hv₂, hv₃, hvp⟩ := parse_of_valid ha hra
  obtain ⟨w, hw, hw₁, hw₂, hw₃, hwp⟩ := parse_of_valid hb hrb
  have hnumber : ∀ {m n : Int64} {x y : Text}, m.toInt = parseUint x → n.toInt = parseUint y →
      Tells (cmpInt m n) (parseUint x) (parseUint y) := by
    intro m n x y hm hn
    have htells := tells_cmpInt m n
    rw [hm, hn] at htells
    exact (Tells.map_iff fun _ _ => Int.ofNat_lt.mpr).mp htells
  have hpre := tells_comparePre (parsed_of_parse hv) (parsed_of_parse hw)
  rw [hvp, hwp] at hpre
  have htells : Tells (v.compare w) (versionKey a) (versionKey b) := by
    rw [versionKey_eq hra, versionKey_eq hrb]
    exact (hnumber hv₁ hw₁).then ((hnumber hv₂ hw₂).then ((hnumber hv₃ hw₃).then hpre))
  obtain ⟨o, ho⟩ := exists_compareSemver ha hb
  obtain rfl : o = v.compare w := (tells_compareSemver ho).unique htells
  exact ⟨_, ho, compare_ok hv hw⟩

/-- Of two strings that `Parse` takes, the one is after the other, or they are the same. -/
theorem compare_swap (ha : parse a = .ok v) (hb : parse b = .ok w) :
    w.compare v = (v.compare w).swap ∧ (v.compare w = .eq ↔ a = b) := by
  have hv := parsed_of_parse ha
  have hw := parsed_of_parse hb
  have htells := tells_compare hv hw
  refine ⟨(tells_compare hw hv).unique htells.swap, htells.eq_iff.trans ⟨fun hkey => ?_, ?_⟩⟩
  · rw [← string_of_parse ha, ← string_of_parse hb, key_injective hv hw hkey]
  · rintro rfl
    rw [Except.ok.inj (ha.symm.trans hb)]

theorem compare_trans {x : Version} (hv : v.Parsed) (hw : w.Parsed) (hx : x.Parsed) (h : v.compare w = .lt)
    (h' : w.compare x = .lt) : v.compare x = .lt :=
  (h ▸ tells_compare hv hw).trans (h' ▸ tells_compare hw hx) (tells_compare hv hx)

/-! ### What follows a version -/

theorem compareIdent_self (x : Text) : compareIdent x x = .eq := by
  cases h : isNumeric x <;> simp [compareIdent, cmpInt_self, h]

theorem compareIdent_numbers {m : Int64} (hx : isNumeric x = true) (hy : isNumeric y = true) (hm : atoi x = some m)
    (hn : atoi y = some n) : compareIdent x y = cmpInt m n := by
  simp [compareIdent, hx, hy, atoiValue, hm, hn]

theorem itoa_of_nonneg (h : 0 ≤ n.toInt) : isNumeric (itoa n) = true ∧ atoi (itoa n) = some n := by
  have hlt := n.toInt_lt
  have hitoa : itoa n = Nat.toDigits 10 n.toInt.natAbs := by
    rw [itoa, if_neg]
    rw [Int64.lt_iff_toInt_lt]
    exact not_lt.mpr h
  have hval : parseUint (itoa n) = n.toInt.natAbs := by
    rw [hitoa]
    exact Nat.ofDigitChars_ten_toDigits
  constructor
  · rw [isNumeric, hitoa, if_neg Nat.toDigits_ne_nil, all_eq_true]
    intro c hc
    have hdigit := Char.isDigit_iff_toNat.mp (Nat.isDigit_of_mem_toDigits (by omega) (by omega) hc)
    simp only [isDigit, Bool.and_eq_true, decide_eq_true_eq]
    exact hdigit
  · rw [atoi, if_pos (by omega), Option.some.injEq, ← Int64.toInt_inj, Int64.toInt_ofNat_of_lt (by omega)]
    omega

/-- The number of a beta counts up, or stops being a number and comes after all numbers. -/
theorem compareIdent_succ {x : Text} (hx : isNumeric x = true) (hn : atoi x = some n) :
    compareIdent x (itoa (n + 1)) = .lt := by
  by_cases hmax : n = Int64.maxValue
  · subst hmax
    have hno : isNumeric (itoa (Int64.maxValue + 1)) = false := by decide
    simp [compareIdent, hx, hno]
  · have hval := atoi_some hn
    have hsucc := toInt_succ hmax
    obtain ⟨hnum, hread⟩ := itoa_of_nonneg (n := n + 1) (by omega)
    rw [compareIdent_numbers hx hnum hn hread]
    simpa using (cmpInt_succ n .eq).mpr hmax

theorem betaNumber_some (h : v.betaNumber = some n) :
    ∃ x, v.pre = ["beta".toList, x] ∧ isNumeric x = true ∧ atoi x = some n := by
  unfold Version.betaNumber at h
  split at h
  · rename_i beta x hpre
    split at h
    · rename_i hbeta
      exact ⟨x, by rw [hpre, hbeta.1], hbeta.2, h⟩
    · cases h
  · cases h

/-- What `Next` gives comes after the version it is given. -/
theorem next_rises {kind : Text} (h : v.next kind = .ok w) : v.compare w = .lt ↔ v.Counts kind := by
  unfold Version.next at h
  split at h
  · rename_i hk
    split at h
    · cases h
      cases hp : v.pre <;> simp_all [Version.compare, Version.Counts, Version.isPrerelease, cmpInt_self, comparePre]
    · cases h
      simp_all [Version.compare, Version.Counts, cmpInt_self, cmpInt_succ]
  · split at h
    · rename_i hk
      cases h
      simp [Version.compare, Version.Counts, hk, cmpInt_self, cmpInt_succ]
    · split at h
      · rename_i hk
        cases h
        simp [Version.compare, Version.Counts, hk, cmpInt_succ]
      · split at h
        · rename_i hk
          split at h
          · rename_i n hn
            obtain ⟨x, hpre, hx, hread⟩ := betaNumber_some hn
            cases h
            simp [Version.compare, Version.Counts, Version.isPrerelease, hk, cmpInt_self, comparePre, compareIdents, hpre,
              compareIdent_self, compareIdent_succ hx hread]
          · split at h
            · cases h
            · cases h
              simp_all [Version.compare, Version.Counts, cmpInt_self, cmpInt_succ]
        · cases h

section Dev

variable (last : Version)

/-- A development version comes before every beta and before the release of its numbers. -/
theorem dev_below (n : Int64) (beta : Text) :
    (Version.dev last n).compare { Version.dev last n with pre := ["beta".toList, beta] } = .lt ∧
      (Version.dev last n).compare { Version.dev last n with pre := [] } = .lt := by
  simp [Version.compare, Version.dev, cmpInt_self, comparePre, compareIdents, compareIdent, isNumeric, isDigit]

theorem dev_rises {m : Int64} (hm : 0 ≤ m) (h : m < n) : (Version.dev last m).compare (Version.dev last n) = .lt := by
  rw [Int64.le_iff_toInt_le] at hm
  have hlt := Int64.lt_iff_toInt_lt.mp h
  have hm0 : (0 : Int64).toInt = 0 := rfl
  obtain ⟨hmnum, hmread⟩ := itoa_of_nonneg (n := m) (by omega)
  obtain ⟨hnnum, hnread⟩ := itoa_of_nonneg (n := n) (by omega)
  have hcount : compareIdent (itoa m) (itoa n) = .lt := by
    rw [compareIdent_numbers hmnum hnnum hmread hnread, cmpInt, if_pos h]
  simp [Version.compare, Version.dev, cmpInt_self, comparePre, compareIdents, compareIdent_self, hcount]

end Dev

/-! ### Version codes of Android -/

theorem toInt_code {major minor patch : Int64} (hmajor : 0 ≤ major.toInt ∧ major.toInt < 10 ^ 6)
    (hminor : 0 ≤ minor.toInt ∧ minor.toInt ≤ 99) (hpatch : 0 ≤ patch.toInt ∧ patch.toInt ≤ 99)
    (hn : 1 ≤ n.toInt ∧ n.toInt ≤ 99) :
    ((major * 10000 + minor * 100 + patch) * 100 + n).toInt =
      (major.toInt * 10000 + minor.toInt * 100 + patch.toInt) * 100 + n.toInt := by
  have h100 : (100 : Int64).toInt = 100 := rfl
  have h10000 : (10000 : Int64).toInt = 10000 := rfl
  simp only [Int64.toInt_add, Int64.toInt_mul]
  simp only [Int.add_bmod_bmod, Int.bmod_add_bmod, Int.bmod_mul_bmod]
  exact Int.bmod_eq_of_le (by simp; omega) (by simp; omega)

/-- The code of a version with these numbers is made of them and of the number of the beta, or 99. -/
theorem androidVersionCode_ok {code : Int64} (h : v.androidVersionCode = .ok code)
    (hnonneg : 0 ≤ v.major.toInt ∧ 0 ≤ v.minor.toInt ∧ 0 ≤ v.patch.toInt) (hmajor : v.major.toInt < 10 ^ 6) :
    v.minor.toInt ≤ 99 ∧ v.patch.toInt ≤ 99 ∧ ∃ n : Int64, 1 ≤ n.toInt ∧ n.toInt ≤ 99 ∧
      code.toInt = (v.major.toInt * 10000 + v.minor.toInt * 100 + v.patch.toInt) * 100 + n.toInt ∧
      (v.pre = [] ∧ n.toInt = 99 ∨
        n.toInt ≤ 98 ∧ ∃ x, v.pre = ["beta".toList, x] ∧ isNumeric x = true ∧ atoi x = some n) := by
  have h99 : (99 : Int64).toInt = 99 := rfl
  unfold Version.androidVersionCode at h
  split at h
  · cases h
  · rename_i hsmall
    simp only [Int64.lt_iff_toInt_lt, not_or, not_lt] at hsmall
    refine ⟨hsmall.1, hsmall.2, ?_⟩
    split at h
    · split at h
      · rename_i b hb
        split at h
        · cases h
        · rename_i hrange
          have h1 : (1 : Int64).toInt = 1 := rfl
          have h98 : (98 : Int64).toInt = 98 := rfl
          simp only [Int64.lt_iff_toInt_lt, not_or, not_lt] at hrange
          cases h
          obtain ⟨x, hpre, hx, hread⟩ := betaNumber_some hb
          exact ⟨b, hrange.1, by omega, toInt_code ⟨hnonneg.1, hmajor⟩ ⟨hnonneg.2.1, hsmall.1⟩ ⟨hnonneg.2.2, hsmall.2⟩
            ⟨hrange.1, by omega⟩, .inr ⟨hrange.2, x, hpre, hx, hread⟩⟩
      · cases h
    · rename_i hfinal
      cases h
      exact ⟨99, by decide, by decide, toInt_code ⟨hnonneg.1, hmajor⟩ ⟨hnonneg.2.1, hsmall.1⟩ ⟨hnonneg.2.2, hsmall.2⟩ (by decide),
        .inl ⟨by simpa [Version.isPrerelease] using hfinal, by decide⟩⟩

theorem nonneg_of_parse (h : parse s = .ok v) : 0 ≤ v.major.toInt ∧ 0 ≤ v.minor.toInt ∧ 0 ≤ v.patch.toInt := by
  obtain ⟨a, b, c, -, ha, hb, hc, -⟩ := parse_ok h
  rw [(parseNumeric_ok ha).1, (parseNumeric_ok hb).1, (parseNumeric_ok hc).1]
  omega

theorem androidVersionCode_rises {m : Int64} (hv : parse a = .ok v) (hw : parse b = .ok w) (hvmajor : v.major.toInt < 10 ^ 6)
    (hwmajor : w.major.toInt < 10 ^ 6) (hm : v.androidVersionCode = .ok m) (hn : w.androidVersionCode = .ok n)
    (h : v.compare w = .lt) : m < n := by
  obtain ⟨hvminor, hvpatch, i, hi1, hi99, hcode, hvpre⟩ := androidVersionCode_ok hm (nonneg_of_parse hv) hvmajor
  obtain ⟨hwminor, hwpatch, j, hj1, hj99, hcode', hwpre⟩ := androidVersionCode_ok hn (nonneg_of_parse hw) hwmajor
  obtain ⟨hv1, hv2, hv3⟩ := nonneg_of_parse hv
  obtain ⟨hw1, hw2, hw3⟩ := nonneg_of_parse hw
  rw [Int64.lt_iff_toInt_lt]
  have hmajor := tells_cmpInt v.major w.major
  have hminor := tells_cmpInt v.minor w.minor
  have hpatch := tells_cmpInt v.patch w.patch
  have hbeta := tells_cmpInt i j
  have hpre : comparePre v.pre w.pre = .lt → i.toInt < j.toInt := by
    intro hlt
    rcases hvpre with ⟨hvnil, hi⟩ | ⟨hi98, x, hvbeta, hx, hxi⟩
    · rcases hwpre with ⟨hwnil, -⟩ | ⟨-, y, hwbeta, -⟩
      · rw [hvnil, hwnil] at hlt
        cases hlt
      · rw [hvnil, hwbeta] at hlt
        cases hlt
    · rcases hwpre with ⟨-, hj⟩ | ⟨-, y, hwbeta, hy, hyj⟩
      · omega
      · rw [hvbeta, hwbeta] at hlt
        simp only [comparePre, compareIdents, compareIdent_numbers hx hy hxi hyj, Ordering.then_eq] at hlt
        have hlt : cmpInt i j = .lt := hlt
        rw [hlt] at hbeta
        exact hbeta
  unfold Version.compare at h
  cases hc1 : cmpInt v.major w.major <;> cases hc2 : cmpInt v.minor w.minor <;> cases hc3 : cmpInt v.patch w.patch <;>
    simp_all [Tells] <;> omega

/-! ### One order -/

theorem compare_ok_iff {o : Ordering} :
    compare a b = .ok o ↔ ∃ v w, parse a = .ok v ∧ parse b = .ok w ∧ v.compare w = o := by
  unfold compare
  cases parse a with
  | error e => simp [bind, Except.bind]
  | ok v =>
    cases parse b with
    | error e => simp [bind, Except.bind]
    | ok w => simp [bind, Except.bind, pure, Except.pure]

/-- Both packages put the versions in one order, and it is total. `Next` goes up in it exactly if the number it counts
up is not the largest `int`; development versions and version codes go by it. -/
theorem versions_in_order (v w : Version) (kind : Text) :
    (∀ s, validSemver s = true → ∃ v, parse s = .ok v ∧ v.string = s) ∧
      (∀ a b, validSemver a = true → validSemver b = true → ∃ o, compareSemver a b = .ok o ∧ compare a b = .ok o) ∧
      (∀ a b v w, parse a = .ok v → parse b = .ok w → ∃ o, compare a b = .ok o ∧ compare b a = .ok o.swap ∧
        (o = .eq ↔ a = b)) ∧
      (∀ a b c, compare a b = .ok .lt → compare b c = .ok .lt → compare a c = .ok .lt) ∧
      (v.next kind = .ok w → (v.compare w = .lt ↔ v.Counts kind)) ∧
      (∀ last n beta, (Version.dev last n).compare { Version.dev last n with pre := ["beta".toList, beta] } = .lt ∧
        (Version.dev last n).compare { Version.dev last n with pre := [] } = .lt) ∧
      (∀ (last : Version) m n, 0 ≤ m → m < n → (Version.dev last m).compare (Version.dev last n) = .lt) ∧
      ∀ a b v w m n, parse a = .ok v → parse b = .ok w → v.major.toInt < 10 ^ 6 → w.major.toInt < 10 ^ 6 →
        v.androidVersionCode = .ok m → w.androidVersionCode = .ok n → v.compare w = .lt → m < n := by
  refine ⟨fun s h => ?_, fun a b ha hb => compare_eq_compareSemver ha hb, fun a b v w ha hb => ?_, fun a b c hab hbc => ?_,
    next_rises, dev_below, fun last m n hm h => dev_rises last hm h,
    fun a b v w m n hv hw hvmajor hwmajor hm hn h => androidVersionCode_rises hv hw hvmajor hwmajor hm hn h⟩
  · obtain ⟨v, hv⟩ := exists_parse_of_valid h
    exact ⟨v, hv, string_of_parse hv⟩
  · obtain ⟨hswap, heq⟩ := compare_swap ha hb
    exact ⟨v.compare w, compare_ok ha hb, by rw [compare_ok hb ha, hswap], heq⟩
  · obtain ⟨v, w, hv, hw, hvw⟩ := compare_ok_iff.mp hab
    obtain ⟨w', x, hw', hx, hwx⟩ := compare_ok_iff.mp hbc
    obtain rfl := Except.ok.inj (hw.symm.trans hw')
    exact compare_ok_iff.mpr ⟨v, x, hv, hx,
      compare_trans (parsed_of_parse hv) (parsed_of_parse hw) (parsed_of_parse hx) hvw hwx⟩

/-- The patch of this version is the largest `int`, and the next one is the smallest. -/
theorem next_wraps : parse "0.0.9223372036854775807".toList = .ok ⟨0, 0, Int64.maxValue, []⟩ ∧
      (⟨0, 0, Int64.maxValue, []⟩ : Version).next "patch".toList = .ok ⟨0, 0, Int64.minValue, []⟩ ∧
      ¬ ∀ (v w : Version) kind, v.next kind = .ok w → v.compare w = .lt := by
  refine ⟨by decide +kernel, by decide +kernel, fun hall => ?_⟩
  have hnext : (⟨0, 0, Int64.maxValue, []⟩ : Version).next "patch".toList = .ok ⟨0, 0, Int64.minValue, []⟩ := by
    decide +kernel
  exact absurd (hall _ _ _ hnext) (by decide +kernel)

end LibreServ.Versions
