import Mathlib

/-! The values `JSON.parse` makes, and the language's conversions of them to integers. A number is a double;
a text is a list of code points in which a surrogate without its partner stands for itself. -/

namespace LibreServ.Js

open Option

/-! ### Numbers -/

/-- A finite double, `mant * 2 ^ exp`. The two zeros are one. -/
structure Double where
  mant : ℤ
  exp : ℤ
  mant_lt : mant.natAbs < 2 ^ 53
  exp_mem : -1074 ≤ exp ∧ exp ≤ 971
  deriving DecidableEq

namespace Double

/-- The integer a double is, if it is one. -/
def integer? (x : Double) : Option ℤ :=
  if 0 ≤ x.exp then some (x.mant * 2 ^ x.exp.toNat)
  else if (2 : ℤ) ^ (-x.exp).toNat ∣ x.mant then some (x.mant / 2 ^ (-x.exp).toNat)
  else none

/-- The integer next to it on the side of zero. -/
def trunc (x : Double) : ℤ :=
  if 0 ≤ x.exp then x.mant * 2 ^ x.exp.toNat else x.mant.tdiv (2 ^ (-x.exp).toNat)

def ofInt (z : ℤ) (h : z.natAbs < 2 ^ 53) : Double := ⟨z, 0, h, by decide⟩

theorem trunc_of_integer? {x : Double} {z : ℤ} (h : x.integer? = some z) : x.trunc = z := by
  unfold integer? at h
  rw [trunc]
  split at h
  · rename_i hexp
    rw [if_pos hexp]
    exact some.inj h
  rename_i hexp
  rw [if_neg hexp]
  split at h
  · rename_i hdvd
    rw [Int.tdiv_eq_ediv_of_dvd hdvd]
    exact some.inj h
  · cases h

end Double

/-- What a number of a document can be: a literal too large for a double reads as an infinity. -/
inductive Number where
  | finite (x : Double)
  | infinite (negative : Bool)
  deriving DecidableEq

/-- Every double is a multiple of `2 ^ -1074`. -/
def Double.less (x y : Double) : Bool :=
  x.mant * 2 ^ (x.exp + 1074).toNat < y.mant * 2 ^ (y.exp + 1074).toNat

def Number.less : Number → Number → Bool
  | .finite x, .finite y => x.less y
  | .finite _, .infinite negative => !negative
  | .infinite negative, .finite _ => negative
  | .infinite negative, .infinite negative' => negative && !negative'

theorem Double.mant_of_integer? {x : Double} {z : ℤ} (h : x.integer? = some z) :
    x.mant * 2 ^ (x.exp + 1074).toNat = z * 2 ^ 1074 := by
  have hexp := x.exp_mem.1
  unfold integer? at h
  split at h
  · have hz : x.mant * 2 ^ x.exp.toNat = z := some.inj h
    have hsum : (x.exp + 1074).toNat = x.exp.toNat + 1074 := by omega
    rw [← hz, hsum, pow_add, mul_assoc]
  split at h
  · rename_i hneg hdvd
    have hz : x.mant / 2 ^ (-x.exp).toNat = z := some.inj h
    have hsum : 1074 = (-x.exp).toNat + (x.exp + 1074).toNat := by omega
    have hmant : x.mant = z * 2 ^ (-x.exp).toNat := by rw [← hz, Int.ediv_mul_cancel hdvd]
    calc x.mant * 2 ^ (x.exp + 1074).toNat
        = z * (2 ^ (-x.exp).toNat * 2 ^ (x.exp + 1074).toNat) := by rw [hmant, mul_assoc]
      _ = z * 2 ^ 1074 := by rw [← pow_add, ← hsum]
  · cases h

theorem Double.less_iff {x y : Double} {a b : ℤ} (hx : x.integer? = some a) (hy : y.integer? = some b) :
    x.less y = true ↔ a < b := by
  have hpos : (0 : ℤ) < 2 ^ 1074 := Int.pow_pos (by decide)
  rw [less, decide_eq_true_iff, mant_of_integer? hx, mant_of_integer? hy]
  exact Int.mul_lt_mul_right hpos

def roundHalfEven (n d : ℕ) : ℕ :=
  let q := n / d
  let r := n % d
  if 2 * r < d then q else if d < 2 * r then q + 1 else q + q % 2

/-- The double nearest to `n / d`, the one with the even significand on a tie. -/
def Number.round (negative : Bool) (n d : ℕ) : Number :=
  let top : ℤ := n.log2 - d.log2
  -- `2 ^ log ≤ n / d < 2 ^ (log + 1)`
  let log := if n * 2 ^ (-top).toNat < d * 2 ^ top.toNat then top - 1 else top
  let exp := max (log - 52) (-1074)
  let m := roundHalfEven (n * 2 ^ (-exp).toNat) (d * 2 ^ exp.toNat)
  let sign : ℤ := if negative then -1 else 1
  if h : (sign * m).natAbs < 2 ^ 53 ∧ -1074 ≤ exp ∧ exp ≤ 971 then .finite ⟨sign * m, exp, h.1, h.2⟩
  else if h : (sign * 2 ^ 52).natAbs < 2 ^ 53 ∧ -1074 ≤ exp + 1 ∧ exp + 1 ≤ 971 then
    .finite ⟨sign * 2 ^ 52, exp + 1, h.1, h.2⟩
  else .infinite negative

/-- The number `digits * 10 ^ power`. -/
def Number.decimal (negative : Bool) (digits : ℕ) (power : ℤ) : Number :=
  .round negative (digits * 10 ^ power.toNat) (10 ^ (-power).toNat)

def decimalText (n : ℕ) : List Char := Nat.toDigits 10 n

/-- The smallest `p` with `n / d < 10 ^ p`, found from `p` upwards. -/
def decimalPoint (n d : ℕ) : ℕ → ℤ → ℤ
  | 0, p => p
  | fuel + 1, p => if n * 10 ^ (-p).toNat < d * 10 ^ p.toNat then p else decimalPoint n d fuel (p + 1)

/-- The shortest digits that read back as `n / d`, with the place of the decimal point: `k` digits are
tried, then one more. -/
def shortest (n d : ℕ) (p : ℤ) : ℕ → ℕ → ℕ × ℤ
  | 0, _ => (0, p)
  | fuel + 1, k =>
    let shift : ℤ := p - k
    let scaled := n * 10 ^ (-shift).toNat
    let unit := d * 10 ^ shift.toNat
    let low := scaled / unit
    let near := if 2 * (scaled % unit) ≤ unit then [low, low + 1] else [low + 1, low]
    match near.filter fun s => Number.decimal false s shift = Number.round false n d with
    | s :: _ => if s = 10 ^ k then (10 ^ (k - 1), p + 1) else (s, p)
    | [] => shortest n d p fuel (k + 1)

/-- `Number::toString` of `n / d`, not zero. -/
def positiveText (n d : ℕ) : List Char :=
  let (s, p) := shortest n d (decimalPoint n d 640 (-324)) 17 1
  let digits := decimalText s
  let k : ℤ := digits.length
  if k ≤ p ∧ p ≤ 21 then digits ++ List.replicate (p - k).toNat '0'
  else if 0 < p ∧ p ≤ 21 then digits.take p.toNat ++ '.' :: digits.drop p.toNat
  else if -6 < p ∧ p ≤ 0 then '0' :: '.' :: List.replicate (-p).toNat '0' ++ digits
  else
    let power := (if 0 < p then '+' else '-') :: decimalText (p - 1).natAbs
    match digits with
    | [first] => first :: 'e' :: power
    | first :: rest => first :: '.' :: rest ++ 'e' :: power
    | [] => []

def Number.text : Number → List Char
  | .infinite negative => (if negative then ['-'] else []) ++ "Infinity".toList
  | .finite x =>
    if x.mant = 0 then ['0']
    else
      (if x.mant < 0 then ['-'] else []) ++
        positiveText (x.mant.natAbs * 2 ^ x.exp.toNat) (2 ^ (-x.exp).toNat)

/-! ### Texts -/

/-- A code point: a character, or the surrogate `U+D800 + n` with no partner. -/
inductive Point where
  | char (c : Char)
  | lone (n : Fin 2048)
  deriving DecidableEq

def Point.isLead : Point → Bool
  | .char _ => false
  | .lone n => n < 1024

def Point.isTrail : Point → Bool
  | .char _ => false
  | .lone n => 1024 ≤ n

/-- A string. Two surrogates that meet are one character; no engine holds `2 ^ 30` code points. -/
structure Text where
  points : List Point
  paired : points.IsChain fun a b => ¬ (a.isLead ∧ b.isTrail)
  short : points.length < 2 ^ 30
  deriving DecidableEq

def pointsOf (s : String) : List Point := s.toList.map .char

theorem isChain_char (cs : List Char) :
    (cs.map Point.char).IsChain fun a b => ¬ (a.isLead ∧ b.isTrail) := by
  induction cs with
  | nil => exact .nil
  | cons c cs ih =>
    cases cs with
    | nil => exact .singleton _
    | cons d cs => exact .cons_cons (fun h => Bool.false_ne_true h.1) ih

def Text.ofString (s : String) (h : s.toList.length < 2 ^ 30) : Text :=
  ⟨pointsOf s, isChain_char _, by rwa [pointsOf, List.length_map]⟩

/-- No surrogate stands alone. -/
def Text.WellFormed (t : Text) : Prop := ∀ p ∈ t.points, ∃ c, p = .char c

def Point.char? : Point → Option Char
  | .char c => some c
  | .lone _ => none

/-- What `TextEncoder` writes for it. -/
def Point.encoded : Point → Char
  | .char c => c
  | .lone _ => '\uFFFD'

def isSpace (c : Char) : Bool :=
  "\t\n\x0b\x0c\r \u00a0\u1680\u2000\u2001\u2002\u2003\u2004\u2005\u2006\u2007\u2008\u2009\u200a\u2028\u2029\u202f\u205f\u3000\ufeff".toList.contains c

def trim (cs : List Char) : List Char := ((cs.dropWhile isSpace).reverse.dropWhile isSpace).reverse

def digitOf (base : ℕ) (c : Char) : Option ℕ :=
  let n := c.toNat
  let d :=
    if '0' ≤ c ∧ c ≤ '9' then n - 48
    else if 'a' ≤ c ∧ c ≤ 'z' then n - 87
    else if 'A' ≤ c ∧ c ≤ 'Z' then n - 55
    else base
  if d < base then some d else none

def digitsOf (base : ℕ) (cs : List Char) : Option (List ℕ) := cs.mapM (digitOf base)

def ofDigits (base : ℕ) (ds : List ℕ) : ℕ := ds.foldl (fun n d => n * base + d) 0

def naturalOf (base : ℕ) (cs : List Char) : Option ℕ :=
  if cs = [] then none else (digitsOf base cs).map (ofDigits base)

def signed : List Char → Bool × List Char
  | '-' :: cs => (true, cs)
  | '+' :: cs => (false, cs)
  | cs => (false, cs)

/-- `0x`, `0o` and `0b` literals, which have no sign. -/
def radixLiteral : List Char → Option (ℕ × List Char)
  | '0' :: c :: cs =>
    if c = 'x' ∨ c = 'X' then some (16, cs)
    else if c = 'o' ∨ c = 'O' then some (8, cs)
    else if c = 'b' ∨ c = 'B' then some (2, cs)
    else none
  | _ => none

/-- `StringToBigInt`: `none` is a `SyntaxError`. -/
def bigIntOfText (ps : List Point) : Option ℤ := do
  let cs := trim (← ps.mapM Point.char?)
  match radixLiteral cs with
  | some (base, ds) => (naturalOf base ds).map Int.ofNat
  | none =>
    if cs = [] then some 0
    else
      let (negative, ds) := signed cs
      (naturalOf 10 ds).map fun n => if negative then -(n : ℤ) else n

/-- An unsigned decimal literal: its digits and the power of ten behind them. -/
def decimalLiteral (cs : List Char) : Option (ℕ × ℤ) := do
  let (mantissa, rest) := cs.span fun c => c ≠ 'e' ∧ c ≠ 'E'
  let power ←
    match rest with
    | [] => some 0
    | _ :: rest =>
      let (negative, ds) := signed rest
      (naturalOf 10 ds).map fun n => if negative then -(n : ℤ) else n
  let (whole, rest) := mantissa.span (· ≠ '.')
  let fraction := rest.drop 1
  if whole = [] ∧ fraction = [] then none
  else
    let ds ← digitsOf 10 (whole ++ fraction)
    return (ofDigits 10 ds, power - fraction.length)

/-- `StringToNumber`: `none` is `NaN`. -/
def numberOfText (ps : List Point) : Option Number := do
  let cs := trim (← ps.mapM Point.char?)
  match radixLiteral cs with
  | some (base, ds) => (naturalOf base ds).map fun n => .round false n 1
  | none =>
    if cs = [] then some (.round false 0 1)
    else
      let (negative, ds) := signed cs
      if ds = "Infinity".toList then some (.infinite negative)
      else (decimalLiteral ds).map fun (n, power) => .decimal negative n power

/-! ### Documents -/

inductive Doc where
  | null
  | bool (b : Bool)
  | number (n : Number)
  | string (s : Text)
  | array (items : List Doc)
  | object (fields : List (Text × Doc))

/-- A value a program meets: `none` is `undefined`. -/
abbrev Value := Option Doc

def lookup (key : String) : List (Text × Doc) → Value
  | [] => none
  | (k, v) :: fields =>
    match lookup key fields with
    | some found => some found
    | none => if k.points = pointsOf key then some v else none

/-- `v.key`. It throws on `null` and `undefined`; only an object has properties of its own. -/
def property (key : String) : Value → Option Value
  | none => none
  | some .null => none
  | some (.object fields) => some (lookup key fields)
  | some _ => some none

def Doc.isNull : Doc → Bool
  | .null => true
  | _ => false

mutual

/-- `ToString`. An object's `toString` is the language's unless the document has a field of that name,
which cannot be called. -/
def Doc.text : Doc → Option (List Point)
  | .null => some (pointsOf "null")
  | .bool b => some (pointsOf (if b then "true" else "false"))
  | .number n => some (n.text.map .char)
  | .string s => some s.points
  | .array items => (itemTexts items).map fun texts => (pointsOf ",").intercalate texts
  | .object fields =>
    if (lookup "toString" fields).isSome then none else some (pointsOf "[object Object]")

/-- The parts of `Array.prototype.join`. -/
def itemTexts : List Doc → Option (List (List Point))
  | [] => some []
  | item :: items =>
    match item.text, itemTexts items with
    | some text, some texts => some ((if item.isNull then [] else text) :: texts)
    | _, _ => none

end

/-- `BigInt(v)`. -/
def toBigInt : Value → Option ℤ
  | none => none
  | some .null => none
  | some (.bool b) => some b.toNat
  | some (.number (.finite x)) => x.integer?
  | some (.number (.infinite _)) => none
  | some (.string s) => bigIntOfText s.points
  | some v => v.text.bind bigIntOfText

/-- `ToNumber`: the outer `none` throws, the inner one is `NaN`. -/
def toNumber : Value → Option (Option Number)
  | none => some none
  | some .null => some (some (.round false 0 1))
  | some (.bool b) => some (some (.round false b.toNat 1))
  | some (.number n) => some (some n)
  | some (.string s) => some (numberOfText s.points)
  | some v => v.text.map numberOfText

/-- `ToUint32`, as the setters of a `DataView` take their number. -/
def toUint32 : Option Number → ℕ
  | some (.finite x) => (x.trunc % 2 ^ 32).toNat
  | _ => 0

theorem toUint32_lt (n : Option Number) : toUint32 n < 2 ^ 32 := by
  unfold toUint32
  split
  · rename_i x
    have hmod := Int.emod_lt_of_pos x.trunc (show (0 : ℤ) < 2 ^ 32 by decide)
    omega
  · decide

/-- The integer a value is, when it is a number and an integer. -/
def Doc.integer? : Doc → Option ℤ
  | .number (.finite x) => x.integer?
  | _ => none

end LibreServ.Js
