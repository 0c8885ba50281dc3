import LibreServ.Forms

/-! The answers file of a form as a list of lines, the records that count in it, and what calls do to the folders of
its attachments. -/

namespace LibreServ.Forms

open List Option Table
open Files (Text trim)

variable {F C : Type}

/-! ### The file is its lines -/

/-- A record is written as one line with something on it. -/
structure Codec.OneLine (codec : Codec F) : Prop where
  noNewline : ∀ r, '\n' ∉ codec.print r
  trimmed : ∀ r, trim (codec.print r) = codec.print r
  nonempty : ∀ r, codec.print r ≠ []

/-- The records of the file, one line each. -/
def textOf (codec : Codec F) (records : List (Record F)) : Text := records.flatMap (line codec)

section Reading

variable {codec : Codec F} {records : List (Record F)} {folder : Folder}

theorem decode_encode (t : Text) : decode (encode t) = some t := by
  have hbytes : (encode t).toByteArray = t.utf8Encode := rfl
  rw [decode, hbytes, utf8Decode?_utf8Encode, map_some]

theorem encode_append (t t' : Text) : encode (t ++ t') = encode t ++ encode t' := flatMap_append

theorem encode_eq_nil {t : Text} (h : encode t = []) : t = [] := by
  have ht := decode_encode t
  rw [h] at ht
  have hnil := decode_encode []
  exact some.inj (ht.symm.trans hnil)

theorem parse_line (hcodec : codec.OneLine) {r : Record F} (hr : codec.parse (codec.print r) = some r) (rest : Text) :
    parseResponseRecords codec (line codec r ++ rest) = r :: parseResponseRecords codec rest := by
  have hsplit : (line codec r ++ rest).splitOn '\n' = codec.print r :: rest.splitOn '\n' := by
    have hassoc : line codec r ++ rest = codec.print r ++ '\n' :: rest := by
      rw [line, append_assoc]
      rfl
    rw [hassoc, splitOn_append_cons_self, splitOn_eq_singleton (hcodec.noNewline r)]
    rfl
  unfold parseResponseRecords
  rw [hsplit, map_cons, filterMap_cons, hcodec.trimmed]
  rw [if_neg (hcodec.nonempty r), hr]

theorem parse_textOf (hcodec : codec.OneLine) (h : ∀ r ∈ records, codec.parse (codec.print r) = some r) :
    parseResponseRecords codec (textOf codec records) = records := by
  induction records with
  | nil => rfl
  | cons r rest ih =>
    rw [textOf, flatMap_cons, parse_line hcodec (h r mem_cons_self)]
    congr 1
    exact ih fun r' hr' => h r' (mem_cons_of_mem _ hr')

/-- The file holds these records, and they can be read. -/
structure Written (codec : Codec F) (records : List (Record F)) (folder : Folder) : Prop where
  bytes : folder.answers.getD [] = encode (textOf codec records)
  parses : ∀ r ∈ records, codec.parse (codec.print r) = some r
  fits : (encode (textOf codec records)).length ≤ maxResponsesReadBytes

theorem Written.of_same {folder' : Folder} (h : Written codec records folder)
    (hsame : folder'.answers.getD [] = folder.answers.getD []) : Written codec records folder' :=
  ⟨hsame.trans h.bytes, h.parses, h.fits⟩

theorem Written.eq_nil (h : Written codec records folder) (hnone : folder.answers = none) :
    records = [] := by
  have hbytes := h.bytes
  rw [hnone] at hbytes
  have htext := encode_eq_nil hbytes.symm
  cases records with
  | nil => rfl
  | cons r rest =>
    rw [textOf, flatMap_cons, line] at htext
    simp at htext

theorem Written.contents {bytes : List UInt8} (hcodec : codec.OneLine) (h : Written codec records folder)
    (hsome : folder.answers = some bytes) :
    ¬ maxResponsesReadBytes < bytes.length ∧ (decode bytes).map (parseResponseRecords codec) = some records := by
  have hbytes : bytes = encode (textOf codec records) := by
    have hb := h.bytes
    rw [hsome] at hb
    exact hb
  constructor
  · rw [hbytes]
    exact Nat.not_lt.mpr h.fits
  · rw [hbytes, decode_encode, map_some, parse_textOf hcodec h.parses]

theorem Written.read (hcodec : codec.OneLine) (h : Written codec records folder) :
    readResponseRecords codec folder = .ok records := by
  unfold readResponseRecords
  cases hfile : folder.answers with
  | none => rw [h.eq_nil hfile]
  | some bytes =>
    obtain ⟨hsize, hparse⟩ := h.contents hcodec hfile
    obtain ⟨text, htext, hrecords⟩ := map_eq_some_iff.mp hparse
    simp only
    rw [if_neg hsize, htext]
    exact congrArg Except.ok hrecords

theorem Written.readGuarded (hcodec : codec.OneLine) (h : Written codec records folder) :
    readResponseRecordsGuarded codec folder = .ok records := by
  unfold readResponseRecordsGuarded
  cases hfile : folder.answers with
  | none => rw [h.eq_nil hfile]
  | some bytes =>
    obtain ⟨hsize, hparse⟩ := h.contents hcodec hfile
    obtain ⟨text, htext, hrecords⟩ := map_eq_some_iff.mp hparse
    simp only
    rw [if_neg hsize, htext]
    exact congrArg Except.ok hrecords

/-- An append that goes adds its record. -/
theorem Written.append {r : Record F} (h : Written codec records folder)
    (hparse : codec.parse (codec.print r) = some r)
    (hfits : (folder.answers.getD []).length + (encode (line codec r)).length ≤ maxResponsesReadBytes) :
    Written codec (records ++ [r])
      { folder with answers := some (folder.answers.getD [] ++ encode (line codec r)) } := by
  have htext : textOf codec (records ++ [r]) = textOf codec records ++ line codec r := by
    rw [textOf, flatMap_append, flatMap_singleton]
    rfl
  refine ⟨?_, ?_, ?_⟩
  · rw [htext, encode_append, ← h.bytes]
    rfl
  · intro r' hr'
    rcases mem_append.mp hr' with hold | hnew
    · exact h.parses r' hold
    · rw [mem_singleton.mp hnew]
      exact hparse
  · rw [htext, encode_append, length_append, ← h.bytes]
    exact hfits

end Reading

/-! ### The latest record of each response -/

section Latest

variable {records : List (Record F)} {r : Record F}

theorem latestById_append : latestById (records ++ [r]) = supersede (latestById records) r := by
  rw [latestById, foldl_append]
  rfl

/-- What is latest is a record that stands under its own id and is no tombstone. -/
theorem latestById_mem {id : Text} (h : (latestById records).get? id = some r) :
    r ∈ records ∧ r.id = id ∧ r.deleted = false := by
  induction records using reverseRecOn with
  | nil => cases h
  | append_singleton records r' ih =>
    rw [latestById_append, supersede] at h
    split at h
    · obtain ⟨-, h⟩ := get?_erase_some.mp h
      obtain ⟨hmem, hid, hdel⟩ := ih h
      exact ⟨mem_append_left _ hmem, hid, hdel⟩
    · rename_i hlive
      rcases get?_put_some.mp h with ⟨hid, rfl⟩ | ⟨-, h⟩
      · exact ⟨mem_append_right _ (mem_singleton.mpr rfl), hid.symm, Bool.eq_false_iff.mpr hlive⟩
      · obtain ⟨hmem, hid, hdel⟩ := ih h
        exact ⟨mem_append_left _ hmem, hid, hdel⟩

theorem firstSent_isSome {latest : Table Text (Record F)} (hlive : (latest.get? r.id).isSome) (hr : r ∈ records) :
    ((firstSent latest records).get? r.id).isSome := by
  induction records using reverseRecOn with
  | nil => cases hr
  | append_singleton records r' ih =>
    have hstep : firstSent latest (records ++ [r']) =
        if (latest.get? r'.id).isNone || ((firstSent latest records).get? r'.id).isSome then firstSent latest records
        else (firstSent latest records).put r'.id (r'.time.getD 0) := by
      rw [firstSent, foldl_append]
      rfl
    rw [hstep]
    rcases mem_append.mp hr with hold | hnew
    · have hsome := ih hold
      split
      · exact hsome
      · rw [get?_put]
        split
        · rfl
        · exact hsome
    · rw [mem_singleton] at hnew
      subst hnew
      split
      · rename_i hskip
        rcases Bool.or_eq_true_iff.mp hskip with hnone | hsent
        · rw [isNone_iff_eq_none] at hnone
          rw [hnone] at hlive
          cases hlive
        · exact hsent
      · rw [get?_put_self]
        rfl

/-- Every live response is shown. -/
theorem shown_of_latest {id : Text} (h : (latestById records).get? id = some r) :
    ∃ shown ∈ latestInOrder records, shown.id = id ∧ shown.answers = r.answers := by
  obtain ⟨hmem, hid, -⟩ := latestById_mem h
  have hlive : ((latestById records).get? r.id).isSome := by
    rw [hid, h]
    rfl
  obtain ⟨sent, hsent⟩ := isSome_iff_exists.mp (firstSent_isSome hlive hmem)
  rw [hid] at hsent
  refine ⟨⟨r.id, r.time, r.answers, sent⟩, ?_, hid, rfl⟩
  unfold latestInOrder
  rw [mem_filterMap]
  exact ⟨(id, sent), mem_rows.mpr hsent, by rw [h]; rfl⟩

end Latest

/-! ### Attachments -/

section Attachments

variable {form : Form C} {kit : Kit F C} {answers : Answers F} {canAttach : Text → Bool} {name : Text}

theorem trim_ne_nil {t : Text} {ch : Char} (hch : ch ∈ t) (hblack : Files.isWhitespace ch = false) : trim t ≠ [] := by
  intro hnil
  rw [trim, Files.trimMatches, rdropWhile_eq_nil_iff] at hnil
  have hdrop : t.dropWhile Files.isWhitespace = [] := by
    rw [eq_nil_iff_forall_not_mem]
    intro c hc
    have hhead : (t.dropWhile Files.isWhitespace).head? ≠ none := by
      rw [Ne, head?_eq_none_iff]
      exact ne_nil_of_mem hc
    obtain ⟨c', hc'⟩ := ne_none_iff_exists'.mp hhead
    have hfirst := head?_dropWhile_not Files.isWhitespace t
    rw [hc'] at hfirst
    have hwhite := hnil c' (mem_of_mem_head? hc')
    simp only at hfirst
    rw [hwhite] at hfirst
    cases hfirst
  have hall := dropWhile_eq_nil_iff.mp hdrop ch hch
  rw [hblack] at hall
  cases hall

theorem uploadName_answered (h : uploadNameOk name = true) : isAnswered (some (.str name : Value F)) = true := by
  have hdot : '.' ∈ name := by
    by_contra hnot
    rw [uploadNameOk, splitOn_eq_singleton hnot] at h
    cases h
  exact decide_eq_true (trim_ne_nil hdot rfl)

/-- A valid answer names only files it may have. -/
theorem canAttach_of_valid (h : validateAnswers kit form answers canAttach = none)
    (hname : name ∈ attachmentsIn form answers) : canAttach name = true := by
  rw [attachmentsIn, mem_dedup, mem_filterMap] at hname
  obtain ⟨q, hq, hfile⟩ := hname
  split at hfile
  · rename_i htype
    split at hfile
    · rename_i name' hvalue
      split at hfile
      · rename_i hok
        obtain rfl := some.inj hfile
        obtain ⟨id, hid, hget⟩ := bind_eq_some_iff.mp hvalue
        have hcheck := findSome?_eq_none_iff.mp h q hq
        rw [checkQuestion, hid] at hcheck
        simp only [hget] at hcheck
        split at hcheck
        · cases hcheck
        · rw [if_neg (by rw [uploadName_answered hok]; decide)] at hcheck
          split at hcheck
          · rename_i hboth
            exact (Bool.and_eq_true_iff.mp hboth).2
          · cases hcheck
      · cases hfile
    · cases hfile
  · cases hfile

/-- What a call that leaves the answers alone may do to the folders. -/
structure Settles (folder folder' : Folder) : Prop where
  answers : folder'.answers.getD [] = folder.answers.getD []
  pending : ∀ n ∈ folder'.pending, n ∈ folder.pending
  files : ∀ n ∈ folder.files, n ∉ folder.pending → n ∈ folder'.files

namespace Settles

variable {folder folder' : Folder} {env : Env} {claimed : List Text}

theorem rfl' : Settles folder folder := ⟨rfl, fun _ hn => hn, fun _ hn _ => hn⟩

variable (h : Settles folder folder')

include h

theorem claim (name : Text) : Settles folder (folder'.claim name) where
  answers := h.answers
  pending := fun n hn => h.pending n (mem_filter.mp hn).1
  files := by
    intro n hn hp
    by_cases hname : n = name
    · rw [hname]
      exact mem_cons_self
    · exact mem_cons_of_mem _ (mem_filter.mpr ⟨h.files n hn hp, decide_eq_true hname⟩)

theorem putBack (hname : name ∈ folder.pending) :
    Settles folder (folder'.putBack name) where
  answers := h.answers
  pending := by
    intro n hn
    rcases mem_cons.mp hn with rfl | hn
    · exact hname
    · exact h.pending n (mem_filter.mp hn).1
  files := by
    intro n hn hp
    have hne : n ≠ name := by
      rintro rfl
      exact hp hname
    exact mem_filter.mpr ⟨h.files n hn hp, decide_eq_true hne⟩

variable (hclaimed : ∀ n ∈ claimed, n ∈ folder.pending)

include hclaimed

theorem release :
    Settles folder (Forms.release env claimed folder') := by
  unfold Forms.release
  have hback : ∀ n ∈ claimed.filter env.putsBack, n ∈ folder.pending := fun n hn =>
    hclaimed n (mem_filter.mp hn).1
  generalize claimed.filter env.putsBack = names at hback
  induction names generalizing folder' with
  | nil => exact h
  | cons n rest ih =>
    exact ih (h.putBack (hback n mem_cons_self)) fun n' hn' => hback n' (mem_cons_of_mem _ hn')

/-- Whatever stopped the claims, the rest of the folders is as it was. -/
theorem claimAll {names : List Text} :
    Settles folder (Forms.claimAll env claimed names folder').2 := by
  induction names generalizing folder' claimed with
  | nil => exact h
  | cons name rest ih =>
    rw [Forms.claimAll]
    split
    · rename_i hgo
      have hpending : name ∈ folder'.pending := by
        rw [Bool.and_eq_true, contains_iff_mem] at hgo
        exact hgo.1
      refine ih (h.claim name) ?_
      intro n hn
      rcases mem_append.mp hn with hold | hnew
      · exact hclaimed n hold
      · rw [mem_singleton.mp hnew]
        exact h.pending name hpending
    · exact h.release hclaimed

end Settles

/-- Files that were claimed are there, and wait no more. -/
theorem claimAll_ok {env : Env} {names claimed : List Text} {folder folder' : Folder} {u : Unit}
    (h : claimAll env claimed names folder = (.ok u, folder')) :
    (∀ n ∈ names, n ∈ folder'.files) ∧ (∀ n ∈ folder'.pending, n ∈ folder.pending ∧ n ∉ names) ∧
      (∀ n ∈ names, n ∈ folder.pending) ∧ (∀ n ∈ folder.files, n ∈ folder'.files) ∧
      folder'.answers = folder.answers := by
  induction names generalizing folder claimed with
  | nil =>
    obtain ⟨-, rfl⟩ := Prod.mk.inj h
    exact ⟨nofun, fun n hn => ⟨hn, nofun⟩, nofun, fun n hn => hn, rfl⟩
  | cons name rest ih =>
    rw [claimAll] at h
    split at h
    · rename_i hgo
      obtain ⟨hfiles, hpending, hwere, hstay, hanswers⟩ := ih h
      have hname : name ∈ folder.pending := by
        rw [Bool.and_eq_true, contains_iff_mem] at hgo
        exact hgo.1
      refine ⟨?_, ?_, ?_, ?_, hanswers⟩
      · intro n hn
        rcases mem_cons.mp hn with rfl | hn
        · exact hstay n mem_cons_self
        · exact hfiles n hn
      · intro n hn
        obtain ⟨hin, hout⟩ := hpending n hn
        have hin := mem_filter.mp hin
        refine ⟨hin.1, fun hmem => ?_⟩
        rcases mem_cons.mp hmem with heq | hmem
        · exact of_decide_eq_true hin.2 heq
        · exact hout hmem
      · intro n hn
        rcases mem_cons.mp hn with rfl | hn
        · exact hname
        · exact (mem_filter.mp (hwere n hn)).1
      · intro n hn
        apply hstay
        by_cases heq : n = name
        · rw [heq]
          exact mem_cons_self
        · exact mem_cons_of_mem _ (mem_filter.mpr ⟨hn, decide_eq_true heq⟩)
    · cases h

end Attachments

end LibreServ.Forms
