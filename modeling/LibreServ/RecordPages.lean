import LibreServ.Keyset
import LibreServ.PrivateSessions

/-! The paged listing of a Luna's records (`ListRecords` of `handlers/storage.go`) and the client that follows it
(`request_record_page` of `backup/cloud/store.rs`). Names are compared byte by byte, as their characters are all
ASCII. Following the cursors gives every name of the kind that begins with the prefix, in order and once. -/

namespace LibreServ.Records

open List Option Table Keyset
open Files (Text)
open PrivateOpen (atoi)

variable {name : Text}

def maxStorageRecordPageSize : Nat := 256

/-! ### Names and numbers -/

def nameChar (c : Char) : Bool := c.isLower || c.isDigit || c = '.' || c = '_' || c = '-'

/-- `[a-z0-9._-]{1,128}`, and no step up. -/
def validStorageName (t : Text) : Bool :=
  1 ≤ t.length && t.length ≤ 128 && t.all nameChar && t ≠ ['.'] && !decide (['.', '.'] <:+: t)

/-- The first text after all that begin with this one, which ends in a dot. -/
def storageNamePrefixEnd (start : Text) : Text := start.dropLast ++ ['/']

/-- `strconv.ParseUint` with base 10 and 64 bits. -/
def parseUint64 (t : Text) : Option Nat :=
  if t = [] then none
  else (Js.digitsOf 10 t).bind fun ds => if Js.ofDigits 10 ds < 2 ^ 64 then some (Js.ofDigits 10 ds) else none

/-! ### A page request -/

/-- The values of the query, by name. -/
structure Query where
  limit : List Text
  after : List Text
  start : List Text
  version : List Text
  total : List Text
  deriving DecidableEq

structure PageRequest where
  limit : Nat
  after : Text
  start : Text
  version : Option Nat
  total : Option Nat
  deriving DecidableEq

def cursorOf : List Text → Option Text
  | [] => some []
  | [v] => if validStorageName v then some v else none
  | _ => none

def startOf (after : Text) : List Text → Option Text
  | [] => some []
  | [v] =>
    if validStorageName v && v.getLast? = some '.' && (after = [] || v.isPrefixOf after) then some v else none
  | _ => none

def numberOf : List Text → Option (Option Nat)
  | [] => some none
  | [v] => (parseUint64 v).map some
  | _ => none

def parseStorageRecordPage (q : Query) : Option PageRequest :=
  match q.limit with
  | [text] => do
    let limit ← atoi text
    if limit < 1 ∨ maxStorageRecordPageSize < limit then none
    else
      let after ← cursorOf q.after
      let start ← startOf after q.start
      let version ← numberOf q.version
      let total ← numberOf q.total
      if version.isSome ≠ total.isSome ∨ after ≠ [] ∧ version = none then none
      else some ⟨limit.toNat, after, start, version, total⟩
  | _ => none

/-! ### The listing -/

/-- What is kept of one Luna: `storage_records`, by kind and name, with the size, and its row of
`storage_record_versions`, if it has one. -/
structure Db where
  records : Table (Text × Text) Nat
  version : Option Nat

def storageRecordVersion (db : Db) : Nat := db.version.getD 0

/-- `SELECT name … ORDER BY name`. -/
def namesOf (records : Table (Text × Text) Nat) (kind : Text) : List Text :=
  ((records.rows.filter fun r => r.1.1 = kind).map fun r => r.1.2).insertionSort (· ≤ ·)

/-- `name >= prefix AND name < prefixEnd`, where there is a prefix. -/
def inRange (start name : Text) : Bool := start = [] || (start ≤ name && name < storageNamePrefixEnd start)

def rangeOf (records : Table (Text × Text) Nat) (kind start : Text) : List Text :=
  (namesOf records kind).filter (inRange start)

structure RecordPage where
  names : List Text
  total : Nat
  nextAfter : Option Text
  version : Nat
  deriving DecidableEq

/-- The page a request gets, where the version is the one it asks for. -/
def pageOf (records : Table (Text × Text) Nat) (version : Nat) (kind : Text) (req : PageRequest) : RecordPage :=
  let found := Keyset.page (rangeOf records kind req.start) req.limit req.after
  ⟨found.keys, req.total.getD (rangeOf records kind req.start).length, found.next, version⟩

inductive Answer where
  | error (status : Nat) (message : String)
  | all (names : List Text)
  | page (page : RecordPage)
  deriving DecidableEq

def kindMessage : String :=
  "That record kind is not valid. Use only lowercase letters, numbers, dots, dashes and underscores."

def pageMessage : String := "That backup listing page is not valid. Try again."

def changedMessage : String := "The cloud backup list changed during restore. Try restoring again."

def Query.paged (q : Query) : Bool :=
  q.limit ≠ [] || q.after ≠ [] || q.start ≠ [] || q.version ≠ [] || q.total ≠ []

/-- `ListRecords`, while nothing else happens. -/
def listRecords (db : Db) (kind : Text) (q : Query) : Answer :=
  if validStorageName kind = false then .error 400 kindMessage
  else if q.paged then
    match parseStorageRecordPage q with
    | none => .error 400 pageMessage
    | some req =>
      if ∃ v ∈ req.version, v ≠ storageRecordVersion db then .error 409 changedMessage
      else .page (pageOf db.records (storageRecordVersion db) kind req)
  else .all (namesOf db.records kind)

/-! ### The client -/

def validToken (t : Text) (max : Nat) : Bool := t ≠ [] && t.length ≤ max && t.all nameChar

def validateRecordPage (kind : Text) (after : Option Text) (limit : Nat) : Bool :=
  validToken kind 128 && (after.all fun cursor => validToken cursor 128) && limit ≠ 0 &&
    limit ≤ maxStorageRecordPageSize

def validateRecordPagePrefix (kind start : Text) (after : Option Text) (limit : Nat) : Bool :=
  validateRecordPage kind after limit && validToken start 128 && start.getLast? = some '.' &&
    after.all fun cursor => start.isPrefixOf cursor

/-- Every name is a good one and comes after the one before. -/
def namesAscend : Text → List Text → Bool
  | _, [] => true
  | previous, name :: names => validToken name 128 && previous < name && namesAscend name names

def validatePageResponse (kind : Text) (after : Option Text) (limit : Nat) (page : RecordPage) : Bool :=
  validateRecordPage kind after limit && namesAscend (after.getD []) page.names && page.names.length ≤ limit &&
    !(page.names = [] && page.nextAfter.isSome) && !(page.nextAfter.isSome && page.names.length ≠ limit) &&
    page.nextAfter.all fun cursor => validToken cursor 128 && page.names.getLast? = some cursor

def validatePrefixPageResponse (kind start : Text) (after : Option Text) (limit : Nat) (page : RecordPage) : Bool :=
  validateRecordPagePrefix kind start after limit && validatePageResponse kind after limit page &&
    (page.names.all fun name => start.isPrefixOf name) && page.names.length ≤ page.total

def validRequest (kind : Text) (start after : Option Text) (limit : Nat) : Bool :=
  match start with
  | some start => validateRecordPagePrefix kind start after limit
  | none => validateRecordPage kind after limit

def validResponse (kind : Text) (start after : Option Text) (limit : Nat) (page : RecordPage) : Bool :=
  match start with
  | some start => validatePrefixPageResponse kind start after limit page
  | none => validatePageResponse kind after limit page

def decimal (n : Nat) : Text := Nat.toDigits 10 n

def pageQuery (start after : Option Text) (limit : Nat) (version total : Option Nat) : Query :=
  ⟨[decimal limit], after.toList, start.toList, version.toList.map decimal, total.toList.map decimal⟩

/-- `request_record_page`: one page, where Connect answers `serve` and every check passes. -/
def requestRecordPage (serve : Text → Query → Answer) (kind : Text) (start after : Option Text) (limit : Nat)
    (version total : Option Nat) : Option RecordPage :=
  if version.isSome ≠ total.isSome ∨ after.isSome ∧ version = none then none
  else if validRequest kind start after limit = false then none
  else
    match serve kind (pageQuery start after limit version total) with
    | .page page =>
      if (∃ v ∈ version, page.version ≠ v) ∨ ∃ t ∈ total, page.total ≠ t then none
      else if validResponse kind start after limit page then some page
      else none
    | _ => none

/-- The names of all pages, and the total: each page after the first is asked for with the first one's version and
total. -/
def followPages (serve : Text → Query → Answer) (kind : Text) (start : Option Text) (limit : Nat) :
    Nat → Option Text → Option (Nat × Nat) → Option (List Text × Nat)
  | 0, _, _ => none
  | fuel + 1, after, first => do
    let page ← requestRecordPage serve kind start after limit (first.map Prod.fst) (first.map Prod.snd)
    let first := first.getD (page.version, page.total)
    match page.nextAfter with
    | none => some (page.names, first.2)
    | some next => do
      let (names, total) ← followPages serve kind start limit fuel (some next) (some first)
      some (page.names ++ names, total)

/-! ### Numbers in a query -/

theorem digitOf_digitChar : ∀ d < 10, Js.digitOf 10 (Nat.digitChar d) = some d := by decide

theorem digitsOf_decimal (n : Nat) : ∃ ds, Js.digitsOf 10 (decimal n) = some ds ∧ Js.ofDigits 10 ds = n := by
  induction n using Nat.strong_induction_on with
  | _ n ih =>
    rw [decimal, Nat.toDigits_eq_if (by decide)]
    by_cases hlt : n < 10
    · refine ⟨[n], ?_, by simp [Js.ofDigits]⟩
      simp [if_pos hlt, Js.digitsOf, digitOf_digitChar n hlt]
    obtain ⟨ds, hds, hn⟩ := ih (n / 10) (by omega)
    have hmod : n % 10 < 10 := Nat.mod_lt _ (by decide)
    refine ⟨ds ++ [n % 10], ?_, ?_⟩
    · rw [decimal, Js.digitsOf] at hds
      rw [if_neg hlt, Js.digitsOf, mapM_append, hds]
      simp [digitOf_digitChar _ hmod]
    · rw [Js.ofDigits, foldl_append]
      rw [Js.ofDigits] at hn
      rw [foldl_cons, foldl_nil]
      omega

theorem decimal_ne_nil (n : Nat) : decimal n ≠ [] := Nat.toDigits_ne_nil

theorem parseUint64_decimal {n : Nat} (h : n < 2 ^ 64) : parseUint64 (decimal n) = some n := by
  obtain ⟨ds, hds, hn⟩ := digitsOf_decimal n
  rw [parseUint64, if_neg (decimal_ne_nil n), hds, bind_some, hn, if_pos h]

theorem atoi_decimal (n : Nat) : atoi (decimal n) = if (n : Int) < 2 ^ 63 then some (n : Int) else none := by
  obtain ⟨ds, hds, hn⟩ := digitsOf_decimal n
  have hdigit : ∀ c ∈ decimal n, c.isDigit = true := fun c hc =>
    Nat.isDigit_of_mem_toDigits (by decide) (by decide) hc
  unfold atoi
  split
  rename_i negative digits heq
  have hplain : negative = false ∧ digits = decimal n := by
    split at heq
    · rename_i rest hcons
      have hminus := hdigit '-' (by rw [hcons]; exact mem_cons_self)
      exact absurd hminus (by decide)
    · rename_i rest hcons
      have hplus := hdigit '+' (by rw [hcons]; exact mem_cons_self)
      exact absurd hplus (by decide)
    · obtain ⟨rfl, rfl⟩ := Prod.mk.inj heq
      exact ⟨rfl, rfl⟩
  obtain ⟨rfl, rfl⟩ := hplain
  rw [if_neg (decimal_ne_nil n), hds, bind_eq_bind, bind_some]
  have hz : (if false = true then -(Js.ofDigits 10 ds : Int) else (Js.ofDigits 10 ds : Int)) = n := by
    rw [if_neg Bool.false_ne_true, hn]
  have hlow : (-2 ^ 63 : Int) ≤ n := by omega
  dsimp only
  rw [hz]
  simp only [hlow, true_and]

/-! ### The names -/

/-- Between a text that ends in a dot and the same text with a slash stand the texts that begin with it. -/
theorem inRange_dot (p name : Text) : inRange (p ++ ['.']) name = true ↔ (p ++ ['.']) <+: name := by
  have hne : ¬ p ++ ['.'] = [] := by simp
  simp only [inRange, storageNamePrefixEnd, hne, dropLast_concat, decide_false, Bool.false_or, Bool.and_eq_true,
    decide_eq_true_eq]
  clear hne
  induction p generalizing name with
  | nil =>
    cases name with
    | nil => simp
    | cons c rest =>
      simp only [nil_append, cons_prefix_cons, nil_prefix, and_true]
      rw [← not_lt, cons_lt_cons_iff, cons_lt_cons_iff]
      simp only [not_lt_nil, and_false, or_false, not_lt]
      constructor
      · rintro ⟨hle, hlt⟩
        have hle' : '.'.toNat ≤ c.toNat := hle
        have hlt' : c.toNat < '/'.toNat := hlt
        have hdot : '.'.toNat = 46 := rfl
        have hslash : '/'.toNat = 47 := rfl
        exact Char.toNat_inj.mp (by omega)
      · rintro rfl
        decide
  | cons a p ih =>
    cases name with
    | nil => simp
    | cons c rest =>
      simp only [cons_append, cons_prefix_cons]
      rw [← not_lt, cons_lt_cons_iff, cons_lt_cons_iff]
      constructor
      · rintro ⟨hnot, hlt⟩
        rw [not_or, not_and] at hnot
        obtain hca | ⟨rfl, hlt⟩ := hlt
        · exact absurd hca hnot.1
        · exact ⟨rfl, (ih rest).mp ⟨not_lt.mp (hnot.2 rfl), hlt⟩⟩
      · rintro ⟨rfl, hpre⟩
        obtain ⟨hle, hlt⟩ := (ih rest).mpr hpre
        simp [not_lt.mpr hle, hlt]

variable {records : Table (Text × Text) Nat} {kind : Text}

theorem mem_namesOf : name ∈ namesOf records kind ↔ ∃ bytes, records.get? (kind, name) = some bytes := by
  rw [namesOf, mem_insertionSort, List.mem_map]
  constructor
  · rintro ⟨⟨⟨k, n⟩, bytes⟩, hmem, rfl⟩
    rw [mem_filter, decide_eq_true_eq] at hmem
    obtain ⟨hrow, rfl⟩ := hmem
    exact ⟨bytes, mem_rows.mp hrow⟩
  · rintro ⟨bytes, hget⟩
    refine ⟨((kind, name), bytes), ?_, rfl⟩
    rw [mem_filter]
    exact ⟨mem_rows.mpr hget, decide_eq_true rfl⟩

theorem namesOf_sorted (records : Table (Text × Text) Nat) (kind : Text) :
    (namesOf records kind).Pairwise (· < ·) := by
  have hnodup : ((records.rows.filter fun r => r.1.1 = kind).map fun r => r.1.2).Nodup := by
    have hkeys := records.nodup.sublist (filter_sublist (p := fun r => decide (r.1.1 = kind)).map Prod.fst)
    rw [List.Nodup, pairwise_map] at hkeys ⊢
    refine hkeys.imp_of_mem ?_
    intro r r' hr hr' hne heq
    have hk := of_decide_eq_true (mem_filter.mp hr).2
    have hk' := of_decide_eq_true (mem_filter.mp hr').2
    exact hne (Prod.ext (hk.trans hk'.symm) heq)
  have hsorted : (namesOf records kind).Pairwise (· ≤ ·) := pairwise_insertionSort _ _
  have hnodup' : (namesOf records kind).Nodup := (perm_insertionSort _ _).nodup_iff.mpr hnodup
  exact (hsorted.and hnodup').imp fun h => lt_of_le_of_ne h.1 h.2

theorem rangeOf_sorted (records : Table (Text × Text) Nat) (kind start : Text) :
    (rangeOf records kind start).Pairwise (· < ·) := (namesOf_sorted records kind).sublist filter_sublist

theorem length_rangeOf_le (start : Text) : (rangeOf records kind start).length ≤ records.rows.length := by
  calc (rangeOf records kind start).length
      ≤ (namesOf records kind).length := length_filter_le _ _
    _ = (records.rows.filter fun r => r.1.1 = kind).length := by
        rw [namesOf, length_insertionSort, length_map]
    _ ≤ records.rows.length := length_filter_le _ _

/-- What `parseStorageRecordPage` asks of a prefix. -/
def GoodStart (start : Option Text) : Prop := ∀ s ∈ start, validStorageName s = true ∧ s.getLast? = some '.'

theorem mem_rangeOf {start : Option Text} (hstart : GoodStart start) :
    name ∈ rangeOf records kind (start.getD []) ↔ name ∈ namesOf records kind ∧ ∀ s ∈ start, s <+: name := by
  rw [rangeOf, mem_filter]
  cases start with
  | none => simp [inRange]
  | some s =>
    obtain ⟨_, hlast⟩ := hstart s rfl
    obtain ⟨p, rfl⟩ := getLast?_eq_some_iff.mp hlast
    simp only [getD_some, inRange_dot, mem_def, some.injEq, forall_eq']

theorem validToken_of_name (h : validStorageName name = true) : validToken name 128 = true := by
  simp only [validStorageName, Bool.and_eq_true, decide_eq_true_eq] at h
  simp only [validToken, Bool.and_eq_true, decide_eq_true_eq]
  obtain ⟨⟨⟨⟨hpos, hlen⟩, hall⟩, _⟩, _⟩ := h
  refine ⟨⟨?_, hlen⟩, hall⟩
  rintro rfl
  simp at hpos

theorem ne_nil_of_name (h : validStorageName name = true) : name ≠ [] := by
  rintro rfl
  simp [validStorageName] at h

/-! ### One page -/

/-- What the client asks for where a page is to come: `first` is the first page's version and total. -/
structure Asks (db : Db) (kind : Text) (start : Option Text) (limit : Nat) (after : Option Text)
    (first : Option (Nat × Nat)) : Prop where
  names_valid : ∀ k n bytes, db.records.get? (k, n) = some bytes → validStorageName n = true
  fits : storageRecordVersion db < 2 ^ 63 ∧ db.records.rows.length < 2 ^ 63
  kind_valid : validStorageName kind = true
  start_good : GoodStart start
  limit_ok : 1 ≤ limit ∧ limit ≤ maxStorageRecordPageSize
  after_mem : ∀ a ∈ after, a ∈ rangeOf db.records kind (start.getD [])
  continued : after.isSome → first.isSome
  first_eq : ∀ f ∈ first, f = (storageRecordVersion db, (rangeOf db.records kind (start.getD [])).length)

variable {db : Db} {start after : Option Text} {limit : Nat} {first : Option (Nat × Nat)}

theorem Asks.valid_of_mem (h : Asks db kind start limit after first)
    (hname : name ∈ rangeOf db.records kind (start.getD [])) :
    validStorageName name = true ∧ ∀ s ∈ start, s <+: name := by
  obtain ⟨hmem, hstart⟩ := (mem_rangeOf h.start_good).mp hname
  obtain ⟨bytes, hget⟩ := mem_namesOf.mp hmem
  exact ⟨h.names_valid kind name bytes hget, hstart⟩

theorem Asks.total_lt (h : Asks db kind start limit after first) :
    (rangeOf db.records kind (start.getD [])).length < 2 ^ 63 :=
  lt_of_le_of_lt (length_rangeOf_le _) h.fits.2

theorem numberOf_decimal {n : Option Nat} (h : ∀ k ∈ n, k < 2 ^ 64) : numberOf (n.toList.map decimal) = some n := by
  cases n with
  | none => rfl
  | some n =>
    have hn := parseUint64_decimal (h n rfl)
    simp [numberOf, hn]

theorem parse_pageQuery (h : Asks db kind start limit after first) :
    parseStorageRecordPage (pageQuery start after limit (first.map Prod.fst) (first.map Prod.snd)) =
      some ⟨limit, after.getD [], start.getD [], first.map Prod.fst, first.map Prod.snd⟩ := by
  have hlimit := h.limit_ok
  rw [maxStorageRecordPageSize] at hlimit
  have hatoi : atoi (decimal limit) = some (limit : Int) := by
    rw [atoi_decimal, if_pos (by omega)]
  have hcursor : cursorOf after.toList = some (after.getD []) := by
    cases after with
    | none => rfl
    | some a => simp [cursorOf, (h.valid_of_mem (h.after_mem a rfl)).1]
  have hstart : startOf (after.getD []) start.toList = some (start.getD []) := by
    cases start with
    | none => rfl
    | some s =>
      obtain ⟨hname, hlast⟩ := h.start_good s rfl
      cases after with
      | none => simp [startOf, hname, hlast]
      | some a =>
        have hprefix := (h.valid_of_mem (h.after_mem a rfl)).2 s rfl
        simp [startOf, hname, hlast, hprefix]
  have hversion : numberOf ((first.map Prod.fst).toList.map decimal) = some (first.map Prod.fst) := by
    apply numberOf_decimal
    intro k hk
    obtain ⟨f, hf, rfl⟩ := map_eq_some_iff.mp hk
    have hfit := h.fits.1
    rw [h.first_eq f hf]
    omega
  have htotal : numberOf ((first.map Prod.snd).toList.map decimal) = some (first.map Prod.snd) := by
    apply numberOf_decimal
    intro k hk
    obtain ⟨f, hf, rfl⟩ := map_eq_some_iff.mp hk
    have hfit := h.total_lt
    rw [h.first_eq f hf]
    omega
  have hsome : ¬ ((first.map Prod.fst).isSome ≠ (first.map Prod.snd).isSome ∨
      after.getD [] ≠ [] ∧ first.map Prod.fst = none) := by
    cases first with
    | some f => simp
    | none =>
      have hafter : after = none := by
        cases after with
        | none => rfl
        | some a => exact absurd (h.continued rfl) (by simp)
      simp [hafter]
  simp only [parseStorageRecordPage, pageQuery, hatoi, hcursor, hstart, hversion, htotal, bind_eq_bind, bind_some]
  rw [if_neg (by rw [maxStorageRecordPageSize]; omega), if_neg hsome, Int.toNat_natCast]

theorem validateRecordPage_of_asks (h : Asks db kind start limit after first) :
    validateRecordPage kind after limit = true := by
  have hkind := validToken_of_name h.kind_valid
  have hlimit := h.limit_ok
  have hafter : (after.all fun cursor => validToken cursor 128) = true := by
    rw [Option.all_eq_true]
    intro a ha
    exact validToken_of_name (h.valid_of_mem (h.after_mem a ha)).1
  simp only [validateRecordPage, hkind, hafter, Bool.true_and, Bool.and_eq_true, decide_eq_true_eq]
  omega

theorem validateRecordPagePrefix_of_asks {s : Text} (h : Asks db kind (some s) limit after first) :
    validateRecordPagePrefix kind s after limit = true := by
  obtain ⟨hname, hlast⟩ := h.start_good s rfl
  have hafter : (after.all fun cursor => s.isPrefixOf cursor) = true := by
    rw [Option.all_eq_true]
    intro a ha
    exact isPrefixOf_iff_prefix.mpr ((h.valid_of_mem (h.after_mem a ha)).2 s rfl)
  simp [validateRecordPagePrefix, validateRecordPage_of_asks h, validToken_of_name hname, hlast, hafter]

theorem validRequest_of_asks (h : Asks db kind start limit after first) :
    validRequest kind start after limit = true := by
  cases start with
  | none => exact validateRecordPage_of_asks h
  | some s => exact validateRecordPagePrefix_of_asks h

theorem namesAscend_of_sorted {names : List Text} {previous : Text} (hvalid : ∀ n ∈ names, validToken n 128 = true)
    (hprevious : ∀ n ∈ names, previous < n) (hsorted : names.Pairwise (· < ·)) :
    namesAscend previous names = true := by
  induction names generalizing previous with
  | nil => rfl
  | cons n names ih =>
    rw [pairwise_cons] at hsorted
    have htail := ih (fun m hm => hvalid m (mem_cons_of_mem _ hm)) hsorted.1 hsorted.2
    simp [namesAscend, hvalid n mem_cons_self, hprevious n mem_cons_self, htail]

/-- A page of good names, well asked for, is taken. -/
theorem validatePageResponse_page {keys : List Text} {after : Option Text} {limit : Nat} (total version : Nat)
    (hpage : validateRecordPage kind after limit = true) (hvalid : ∀ n ∈ keys, validToken n 128 = true)
    (hsorted : keys.Pairwise (· < ·)) :
    validatePageResponse kind after limit ⟨(page keys limit (after.getD [])).keys, total,
      (page keys limit (after.getD [])).next, version⟩ = true := by
  have hsub : (page keys limit (after.getD [])).keys.Sublist (rest keys (after.getD [])) :=
    page_keys_sublist
  have hvalid' : ∀ n ∈ (page keys limit (after.getD [])).keys, validToken n 128 = true :=
    fun n hn => hvalid n (mem_rest.mp (hsub.subset hn)).1
  have hlater : ∀ n ∈ (page keys limit (after.getD [])).keys, after.getD [] < n :=
    fun n hn => (mem_rest.mp (hsub.subset hn)).2
  have hascend := namesAscend_of_sorted hvalid' hlater ((rest_sorted hsorted).sublist hsub)
  have hlength : (page keys limit (after.getD [])).keys.length ≤ limit := length_page_le
  cases hnext : (page keys limit (after.getD [])).next with
  | none => simp [validatePageResponse, hpage, hascend, hlength]
  | some a =>
    obtain ⟨hfull, hlast⟩ := page_next hnext
    have hne : (page keys limit (after.getD [])).keys ≠ [] := by
      intro hnil
      rw [hnil] at hlast
      cases hlast
    have ha := hvalid' a (mem_of_getLast? hlast)
    simp [validatePageResponse, hpage, hascend, hfull, hne, ha, hlast]

/-- The names between two cursors. -/
abbrev pageKeys (db : Db) (kind : Text) (start : Option Text) (limit : Nat) (after : Option Text) : Keyset.Page Text :=
  Keyset.page (rangeOf db.records kind (start.getD [])) limit (after.getD [])

/-- The page a following client gets. -/
def nextPage (db : Db) (kind : Text) (start : Option Text) (limit : Nat) (after : Option Text) : RecordPage :=
  ⟨(pageKeys db kind start limit after).keys, (rangeOf db.records kind (start.getD [])).length,
    (pageKeys db kind start limit after).next, storageRecordVersion db⟩

section

variable (h : Asks db kind start limit after first)
include h

theorem validatePageResponse_of_asks :
    validatePageResponse kind after limit (nextPage db kind start limit after) = true :=
  validatePageResponse_page _ _ (validateRecordPage_of_asks h)
    (fun _ hn => validToken_of_name (h.valid_of_mem hn).1) (rangeOf_sorted _ _ _)

theorem validResponse_of_asks : validResponse kind start after limit (nextPage db kind start limit after) = true := by
  cases start with
  | none => exact validatePageResponse_of_asks h
  | some s =>
    have hsub : (pageKeys db kind (some s) limit after).keys.Sublist
        (rangeOf db.records kind ((some s).getD [])) :=
      page_keys_sublist.trans filter_sublist
    have hstarts : ((pageKeys db kind (some s) limit after).keys.all fun name => s.isPrefixOf name) = true := by
      rw [List.all_eq_true]
      intro n hn
      exact isPrefixOf_iff_prefix.mpr ((h.valid_of_mem (hsub.subset hn)).2 s rfl)
    have htotal := hsub.length_le
    simp only [validResponse, validatePrefixPageResponse, validateRecordPagePrefix_of_asks h,
      validatePageResponse_of_asks h, Bool.and_self, Bool.true_and, Bool.and_eq_true, decide_eq_true_eq]
    exact ⟨hstarts, htotal⟩

/-- Asked well, Connect sends the next page and the client takes it. -/
theorem requestRecordPage_of_asks :
    requestRecordPage (listRecords db) kind start after limit (first.map Prod.fst) (first.map Prod.snd) =
      some (nextPage db kind start limit after) := by
  have hcontinued : ¬ ((first.map Prod.fst).isSome ≠ (first.map Prod.snd).isSome ∨
      after.isSome ∧ first.map Prod.fst = none) := by
    cases first with
    | some f => simp
    | none =>
      intro hor
      obtain hne | ⟨hafter, _⟩ := hor
      · exact hne rfl
      · exact absurd (h.continued hafter) (by simp)
  have hversion : ¬ ∃ v ∈ first.map Prod.fst, v ≠ storageRecordVersion db := by
    rintro ⟨v, hv, hne⟩
    obtain ⟨f, hf, rfl⟩ := map_eq_some_iff.mp hv
    exact hne (by rw [h.first_eq f hf])
  have htotal : (first.map Prod.snd).getD (rangeOf db.records kind (start.getD [])).length =
      (rangeOf db.records kind (start.getD [])).length := by
    cases first with
    | none => rfl
    | some f => rw [h.first_eq f rfl]; rfl
  have hanswer : listRecords db kind (pageQuery start after limit (first.map Prod.fst) (first.map Prod.snd)) =
      .page (nextPage db kind start limit after) := by
    have hpaged : (pageQuery start after limit (first.map Prod.fst) (first.map Prod.snd)).paged = true := by
      simp [Query.paged, pageQuery]
    rw [listRecords, if_neg (by simp [h.kind_valid]), if_pos hpaged, parse_pageQuery h]
    dsimp only
    rw [if_neg hversion, pageOf, nextPage, htotal]
  have hsame : ¬ ((∃ v ∈ first.map Prod.fst, (nextPage db kind start limit after).version ≠ v) ∨
      ∃ t ∈ first.map Prod.snd, (nextPage db kind start limit after).total ≠ t) := by
    rintro (⟨v, hv, hne⟩ | ⟨v, hv, hne⟩)
    · obtain ⟨f, hf, rfl⟩ := map_eq_some_iff.mp hv
      exact hne (by rw [h.first_eq f hf]; rfl)
    · obtain ⟨f, hf, rfl⟩ := map_eq_some_iff.mp hv
      exact hne (by rw [h.first_eq f hf]; rfl)
  rw [requestRecordPage, if_neg hcontinued, if_neg (by simp [validRequest_of_asks h]), hanswer]
  dsimp only
  rw [if_neg hsame, if_pos (validResponse_of_asks h)]

end

/-- A first page is asked for well where its query is accepted. -/
theorem asks_of_accepted (hnames : ∀ k n bytes, db.records.get? (k, n) = some bytes → validStorageName n = true)
    (hfits : storageRecordVersion db < 2 ^ 63 ∧ db.records.rows.length < 2 ^ 63)
    (hkind : validStorageName kind = true)
    (haccepted : (parseStorageRecordPage (pageQuery start none limit none none)).isSome = true) :
    Asks db kind start limit none none := by
  obtain ⟨req, hparse⟩ := isSome_iff_exists.mp haccepted
  simp only [parseStorageRecordPage, pageQuery, atoi_decimal, bind_eq_bind, bind_eq_some_iff] at hparse
  obtain ⟨z, hz, hparse⟩ := hparse
  split at hz
  · obtain rfl := some.inj hz
    split at hparse
    · cases hparse
    rename_i hlimit
    simp only [bind_eq_some_iff] at hparse
    obtain ⟨after, hafter, begins, hbegins, _⟩ := hparse
    refine ⟨hnames, hfits, hkind, ?_, by omega, fun _ h => (nomatch h), fun h => (nomatch h), fun _ h => (nomatch h)⟩
    intro s hs
    obtain rfl := mem_def.mp hs
    simp only [toList_some, startOf] at hbegins
    split at hbegins
    · rename_i hgood
      simp only [Bool.and_eq_true, decide_eq_true_eq] at hgood
      exact hgood.1
    · cases hbegins
  · cases hz

/-! ### All pages -/

section

variable (h : Asks db kind start limit after first)
include h

/-- The first page's version and total, which the later pages are asked for with. -/
theorem Asks.first_getD :
    first.getD ((nextPage db kind start limit after).version, (nextPage db kind start limit after).total) =
      (storageRecordVersion db, (rangeOf db.records kind (start.getD [])).length) := by
  cases first with
  | none => rfl
  | some f => exact h.first_eq f rfl

theorem Asks.next {a : Text} (ha : a ∈ rangeOf db.records kind (start.getD [])) : Asks db kind start limit (some a)
      (some (storageRecordVersion db, (rangeOf db.records kind (start.getD [])).length)) where
  names_valid := h.names_valid
  fits := h.fits
  kind_valid := h.kind_valid
  start_good := h.start_good
  limit_ok := h.limit_ok
  after_mem a' ha' := by
    obtain rfl := some.inj ha'
    exact ha
  continued _ := rfl
  first_eq f hf := (some.inj hf).symm

/-- From a cursor on, the client gathers the names behind it. -/
theorem followPages_of_asks {fuel : Nat}
    (hfuel : (rest (rangeOf db.records kind (start.getD [])) (after.getD [])).length < fuel) :
    followPages (listRecords db) kind start limit fuel after first =
      some (rest (rangeOf db.records kind (start.getD [])) (after.getD []),
        (rangeOf db.records kind (start.getD [])).length) := by
  have hlimit : 0 < limit := h.limit_ok.1
  have hkeys := rangeOf_sorted db.records kind (start.getD [])
  generalize hcursor : after.getD [] = cursor at hfuel ⊢
  induction cursor using cursor_induction hkeys hlimit generalizing after first fuel with
  | last cursor hle =>
    obtain ⟨fuel, rfl⟩ : ∃ n, fuel = n + 1 := ⟨fuel - 1, by omega⟩
    have hpage : pageKeys db kind start limit after =
        ⟨rest (rangeOf db.records kind (start.getD [])) cursor, none⟩ := by
      rw [pageKeys, hcursor, page_of_le hle]
    have hfirst := h.first_getD
    simp only [followPages, requestRecordPage_of_asks h, bind_eq_bind, bind_some]
    rw [hfirst]
    simp only [nextPage, hpage]
  | full cursor a hlt hlast hmem hdrop ih =>
    obtain ⟨fuel, rfl⟩ : ∃ n, fuel = n + 1 := ⟨fuel - 1, by omega⟩
    have hpage : pageKeys db kind start limit after =
        ⟨(rest (rangeOf db.records kind (start.getD [])) cursor).take limit, some a⟩ := by
      rw [pageKeys, hcursor, page_of_lt hlt, hlast]
    have hfirst := h.first_getD
    have hless : (rest (rangeOf db.records kind (start.getD [])) a).length < fuel := by
      rw [hdrop, length_drop]
      omega
    have hrest := ih (h.next (mem_rest.mp hmem).1) rfl hless
    simp only [followPages, requestRecordPage_of_asks h, bind_eq_bind, bind_some]
    rw [hfirst]
    simp only [nextPage, hpage, hrest, bind_some]
    rw [hdrop, take_append_drop]

end

/-- Following the cursors of an unchanged inventory: the names of the kind with the prefix, in order and each once, and
their number. -/
theorem followPages_exact (h : Asks db kind start limit none none) : ∃ names : List Text, names.Pairwise (· < ·) ∧
      (∀ name, name ∈ names ↔ (∃ bytes, db.records.get? (kind, name) = some bytes) ∧ ∀ s ∈ start, s <+: name) ∧
      ∀ fuel, names.length < fuel →
        followPages (listRecords db) kind start limit fuel none none = some (names, names.length) := by
  have hall : rest (rangeOf db.records kind (start.getD [])) [] = rangeOf db.records kind (start.getD []) := by
    rw [rest, filter_eq_self]
    intro name hname
    have hne := ne_nil_of_name (h.valid_of_mem hname).1
    cases name with
    | nil => exact absurd rfl hne
    | cons c rest => exact decide_eq_true (nil_lt_cons c rest)
  refine ⟨rangeOf db.records kind (start.getD []), rangeOf_sorted _ _ _, ?_, ?_⟩
  · intro name
    rw [mem_rangeOf h.start_good, mem_namesOf]
  · intro fuel hfuel
    rw [← hall] at hfuel
    have hfollow := followPages_of_asks h hfuel
    rwa [getD_none, hall] at hfollow

end LibreServ.Records
