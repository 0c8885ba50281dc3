import LibreServ.Paths
import LibreServ.Table

/-! Answers to a form, from `api/forms.rs`. They are kept as lines of JSON in a file that only ever grows: the last
line of a response counts, and a line that says so removes it. Attachments wait in a folder of their own until an
answer names them. What JSON looks like, hashes, and the checks of the single question types are parameters. -/

namespace LibreServ.Forms

open Files (Text trim)

def maxResponsesReadBytes : Nat := 64 * 1024 * 1024

def maxAnswerKeys : Nat := 500

structure ApiError where
  status : Nat
  message : Text

def jsonError (status : Nat) (message : String) : ApiError := ⟨status, message.toList⟩

/-- What stands in a list that was sent. -/
inductive Item (F : Type) where
  | str (s : Text)
  | number (n : F)
  | bool (b : Bool)
  | other
  deriving DecidableEq

/-- An answer as it was sent. -/
inductive Value (F : Type) where
  | str (s : Text)
  | number (n : F)
  | bool (b : Bool)
  | null
  | array (items : List (Item F))
  | object
  deriving DecidableEq

abbrev Answers (F : Type) := Table Text (Value F)

/-- A question; `C` is what its type and its place in the form ask for beyond this. -/
structure Question (C : Type) where
  id : Option Text
  type : Text
  label : Option Text
  required : Bool
  image : Option Text
  config : C

structure Form (C : Type) where
  allowEdits : Bool
  maxResponses : Option Nat
  questions : List (Question C)

/-- A line of the answers file, with the fields that are read. -/
structure Record (F : Type) where
  id : Text
  edit : Option Text
  time : Option Int
  answers : Option (Answers F)
  deleted : Bool

/-- `serde_json` on the lines of the answers file; `parse` also asks for an `id` that is a string. -/
structure Codec (F : Type) where
  print : Record F → Text
  parse : Text → Option (Record F)

/-- What is computed elsewhere. -/
structure Kit (F C : Type) where
  codec : Codec F
  hashEditToken : Text → Text
  questionSkipped : List (Question C) → Question C → Answers F → Bool
  /-- The answer suits its question, which is not one for a file. -/
  shapeOk : Question C → Value F → Bool

/-- The answers file, none before the first answer; the attachments; the uploads that wait. -/
structure Folder where
  answers : Option (List UInt8)
  files : List Text
  pending : List Text

variable {F C : Type}

/-! ### Reading the file -/

/-- A text in UTF-8. -/
def encode (t : Text) : List UInt8 := t.flatMap String.utf8EncodeChar

/-- `read_to_string`. -/
def decode (bytes : List UInt8) : Option Text := bytes.toByteArray.utf8Decode?.map Array.toList

def parseResponseRecords (codec : Codec F) (text : Text) : List (Record F) :=
  ((text.splitOn '\n').map trim).filterMap fun line => if line = [] then none else codec.parse line

/-- Every anomaly but a text that is no text is "no answers". -/
def readResponseRecords (codec : Codec F) (folder : Folder) : Except ApiError (List (Record F)) :=
  match folder.answers with
  | none => .ok []
  | some bytes =>
    if maxResponsesReadBytes < bytes.length then .ok []
    else
      match decode bytes with
      | none => .error (jsonError 500 "Luna couldn't read this form's answers. Try again.")
      | some text => .ok (parseResponseRecords codec text)

def readResponseRecordsGuarded (codec : Codec F) (folder : Folder) : Except ApiError (List (Record F)) :=
  match folder.answers with
  | none => .ok []
  | some bytes =>
    if maxResponsesReadBytes < bytes.length then
      .error (jsonError 413 "This form's answers file is too large to open.")
    else
      match decode bytes with
      | none => .error (jsonError 500 "Luna couldn't read this form's answers. Try again.")
      | some text => .ok (parseResponseRecords codec text)

/-- One more line. -/
def supersede (latest : Table Text (Record F)) (r : Record F) : Table Text (Record F) :=
  if r.deleted then latest.erase r.id else latest.put r.id r

def latestById (records : List (Record F)) : Table Text (Record F) := records.foldl supersede Table.empty

/-- A response as it is shown. -/
structure Shown (F : Type) where
  id : Text
  time : Option Int
  answers : Option (Answers F)
  sentAt : Int

/-- When each live response was sent first, in that order. -/
def firstSent (latest : Table Text (Record F)) (records : List (Record F)) : Table Text Int :=
  records.foldl
    (fun sent r =>
      if (latest.get? r.id).isNone || (sent.get? r.id).isSome then sent else sent.put r.id (r.time.getD 0))
    Table.empty

def latestInOrder (records : List (Record F)) : List (Shown F) :=
  let latest := latestById records
  (firstSent latest records).rows.filterMap fun sent =>
    (latest.get? sent.1).map fun r => ⟨r.id, r.time, r.answers, sent.2⟩

/-! ### Attachments -/

def isLowerHex (ch : Char) : Bool := ('0' ≤ ch && ch ≤ '9') || ('a' ≤ ch && ch ≤ 'f')

/-- Sixteen hex digits, a dot, and the ending of a picture or a PDF. -/
def uploadNameOk (name : Text) : Bool :=
  match name.splitOn '.' with
  | [stem, ext] =>
    stem.length = 16 && stem.all isLowerHex && ["jpg", "jpeg", "png", "gif", "webp", "pdf"].any fun e => e.toList = ext
  | _ => false

def questionImages (form : Form C) : List Text := form.questions.filterMap Question.image

def attachmentsIn (form : Form C) (answers : Answers F) : List Text :=
  (form.questions.filterMap fun q =>
    if q.type = "file".toList then
      match q.id.bind answers.get? with
      | some (.str name) => if uploadNameOk name then some name else none
      | _ => none
    else none).dedup

def recordAttachments (form : Form C) (r : Record F) : List Text := (r.answers.map (attachmentsIn form)).getD []

def removeAttachments (form : Form C) (names : List Text) (folder : Folder) : Folder :=
  { folder with files := folder.files.filter fun f => !(names.contains f && !(questionImages form).contains f && uploadNameOk f) }

/-- `rename` from the uploads to the attachments. -/
def Folder.claim (folder : Folder) (name : Text) : Folder :=
  { folder with files := name :: folder.files.filter (· ≠ name), pending := folder.pending.filter (· ≠ name) }

/-- Back again. -/
def Folder.putBack (folder : Folder) (name : Text) : Folder :=
  { folder with pending := name :: folder.pending.filter (· ≠ name), files := folder.files.filter (· ≠ name) }

/-! ### Writing the file -/

/-- How an append goes: in full, or it fails with so many bytes written. -/
inductive Append where
  | goes
  | fails (written : Nat)

def line (codec : Codec F) (r : Record F) : Text := codec.print r ++ ['\n']

def appendRecord (codec : Codec F) (how : Append) (r : Record F) (folder : Folder) : Except ApiError Unit × Folder :=
  let bytes := encode (line codec r)
  match how with
  | .goes => (.ok (), { folder with answers := some (folder.answers.getD [] ++ bytes) })
  | .fails written =>
    (.error (jsonError 500 "Luna couldn't save the answers file. Try again."),
      { folder with answers := some (folder.answers.getD [] ++ bytes.take written) })

/-! ### Sending an answer -/

/-- The body of a submission; `answers` is there when it is an object. -/
structure RespondSubmit (F : Type) where
  answers : Option (Answers F)
  editToken : Option Text
  responseId : Option Text

/-- What a call meets: the clock, what is drawn at random, and how its steps on the disk go. -/
structure Env where
  now : Int
  /-- `hard_closed_message` today. -/
  hardClosed : Option Text
  newResponseId : Text
  newEditToken : Text
  /-- Uploads that have waited too long. -/
  expired : Text → Bool
  claims : Text → Bool
  putsBack : Text → Bool
  append : Append

def RespondSubmit.presentedToken (body : RespondSubmit F) : Option Text := (body.editToken.map trim).filter (· ≠ [])

def RespondSubmit.namesResponse (body : RespondSubmit F) : Bool := body.responseId.any fun id => trim id ≠ []

def itemOk : Item F → Bool
  | .other => false
  | _ => true

def answerValueOk : Value F → Bool
  | .array items => items.all itemOk
  | .object => false
  | _ => true

def isAnswered : Option (Value F) → Bool
  | some (.str s) => trim s ≠ []
  | some (.array items) => items ≠ []
  | some .null => false
  | none => false
  | some _ => true

def keepKnownAnswers (form : Form C) (answers : Answers F) : Answers F :=
  answers.keep fun id _ => form.questions.any fun q => q.id = some id && id ≠ []

def questionLabel (q : Question C) : Text := (q.label.filter fun l => trim l ≠ []).getD "A question".toList

/-- What is wrong with the answer to one question. -/
def checkQuestion (kit : Kit F C) (form : Form C) (answers : Answers F) (canAttach : Text → Bool) (q : Question C) :
    Option ApiError :=
  match q.id with
  | none => none
  | some id =>
    let value := answers.get? id
    if q.required && !kit.questionSkipped form.questions q answers && !isAnswered value then
      some ⟨400, ['"'] ++ questionLabel q ++ "\" still needs an answer.".toList⟩
    else
      match value with
      | none => none
      | some v =>
        if !isAnswered (some v) then none
        else
          let ok := if q.type = "file".toList then
              match v with
              | .str name => uploadNameOk name && canAttach name
              | _ => false
            else kit.shapeOk q v
          if ok then none
          else
            some ⟨400, "The answer for \"".toList ++ questionLabel q ++
              "\" isn't in a shape Luna can store. Try again.".toList⟩

def validateAnswers (kit : Kit F C) (form : Form C) (answers : Answers F) (canAttach : Text → Bool) : Option ApiError :=
  form.questions.findSome? (checkQuestion kit form answers canAttach)

def noEditMatch : ApiError := jsonError 403 "This edit link doesn't match a saved answer on this form."

/-- The keys of a map in their order. -/
def sorted (latest : Table Text (Record F)) : List (Text × Record F) := latest.rows.mergeSort fun a b => a.1 ≤ b.1

def findEditable (latest : Table Text (Record F)) (responseId : Option Text) (hash : Text) :
    Except ApiError (Option Text) :=
  match responseId with
  | some id =>
    if (latest.get? id).any fun r => r.edit = some hash then .ok (some id) else .error noEditMatch
  | none => .ok (((sorted latest).find? fun r => r.2.edit = some hash).map Prod.fst)

/-- The response that is edited, if one is. -/
def editingId (kit : Kit F C) (body : RespondSubmit F) (latest : Table Text (Record F)) : Except ApiError (Option Text) :=
  match body.presentedToken with
  | some token => findEditable latest body.responseId (kit.hashEditToken token)
  | none => if body.namesResponse then .error noEditMatch else .ok none

def formMaxResponses (form : Form C) : Option Nat := form.maxResponses.filter (· ≠ 0)

/-- The record that will be written; an edit keeps its secret. -/
def newRecord (kit : Kit F C) (env : Env) (body : RespondSubmit F) (answers : Answers F) (editing : Option Text) :
    Record F :=
  match editing with
  | some id => ⟨id, some ((body.presentedToken.map kit.hashEditToken).getD []), some env.now, some answers, false⟩
  | none => ⟨env.newResponseId, some (kit.hashEditToken env.newEditToken), some env.now, some answers, false⟩

/-- Best effort: what was taken goes back. -/
def release (env : Env) (claimed : List Text) (folder : Folder) : Folder :=
  (claimed.filter env.putsBack).foldl Folder.putBack folder

/-- The uploads an answer names are taken one after the other; at the first that fails, those taken go back. -/
def claimAll (env : Env) (claimed : List Text) : List Text → Folder → Except ApiError Unit × Folder
  | [], folder => (.ok (), folder)
  | name :: rest, folder =>
    if folder.pending.contains name && env.claims name then claimAll env (claimed ++ [name]) rest (folder.claim name)
    else
      (.error (jsonError 500 "Luna couldn't keep that attachment. Attach it again and send."),
        release env claimed folder)

/-- What the response that is edited has attached. -/
def previousFiles (form : Form C) (latest : Table Text (Record F)) (editing : Option Text) : List Text :=
  ((editing.bind latest.get?).map (recordAttachments form)).getD []

/-- The last part: files are taken, the line is written, files no longer named go. -/
def storeAnswer (kit : Kit F C) (form : Form C) (env : Env) (r : Record F) (newFiles previous : List Text)
    (folder : Folder) : Except ApiError Text × Folder :=
  let wanted := newFiles.filter fun n => !previous.contains n
  match claimAll env [] wanted folder with
  | (.error e, folder) => (.error e, folder)
  | (.ok _, folder) =>
    match appendRecord kit.codec env.append r folder with
    | (.error e, folder) => (.error e, release env wanted folder)
    | (.ok _, folder) => (.ok r.id, removeAttachments form (previous.filter fun n => !newFiles.contains n) folder)

/-- What is done under the lock. -/
def respondLocked (kit : Kit F C) (form : Form C) (env : Env) (body : RespondSubmit F) (answers : Answers F)
    (folder : Folder) : Except ApiError Text × Folder :=
  match readResponseRecords kit.codec folder with
  | .error e => (.error e, folder)
  | .ok records =>
    let latest := latestById records
    match editingId kit body latest with
    | .error e => (.error e, folder)
    | .ok editing =>
      if editing = none ∧ (formMaxResponses form).any fun max => max ≤ latest.rows.length then
        (.error (jsonError 403 "This form has all the answers it can take."), folder)
      else
        let previous := previousFiles form latest editing
        match validateAnswers kit form answers (fun n => previous.contains n || folder.pending.contains n) with
        | some e => (.error e, folder)
        | none =>
          storeAnswer kit form env (newRecord kit env body answers editing) (attachmentsIn form answers) previous
            folder

/-- `sweep_pending`. -/
def sweepPending (env : Env) (folder : Folder) : Folder :=
  { folder with pending := folder.pending.filter fun n => !env.expired n }

def respondSubmitInner (kit : Kit F C) (form : Form C) (env : Env) (body : RespondSubmit F) (folder : Folder) :
    Except ApiError Text × Folder :=
  match env.hardClosed with
  | some message => (.error ⟨403, message⟩, folder)
  | none =>
    if ¬ form.allowEdits ∧ (body.presentedToken ≠ none ∨ body.namesResponse) then
      (.error (jsonError 403 "This form doesn't let you change answers after you send them."), folder)
    else
      match body.answers with
      | none => (.error (jsonError 400 "Those answers didn't come through whole. Try sending them again."), folder)
      | some answers =>
        if maxAnswerKeys < answers.rows.length ∨ ¬ answers.rows.all fun r => answerValueOk r.2 then
          (.error (jsonError 400 "Some answers are in a shape Luna can't store. Try again."), folder)
        else respondLocked kit form env body (keepKnownAnswers form answers) (sweepPending env folder)

/-! ### Deleting a response -/

def tombstone (env : Env) (id : Text) : Record F := ⟨id, none, some env.now, none, true⟩

def deleteResponse (kit : Kit F C) (form : Form C) (env : Env) (id : Option Text) (folder : Folder) :
    Except ApiError Text × Folder :=
  match (id.map trim).filter (· ≠ []) with
  | none =>
    (.error (jsonError 400 "Luna didn't get which response to delete. Reload the page and try again."), folder)
  | some id =>
    match readResponseRecordsGuarded kit.codec folder with
    | .error e => (.error e, folder)
    | .ok records =>
      if (latestById records).get? id = none then
        (.error (jsonError 404 "That response is already gone. Reload the page to see the latest answers."), folder)
      else
        match appendRecord kit.codec env.append (tombstone env id) folder with
        | (.error e, folder) => (.error e, folder)
        | (.ok _, folder) =>
          (.ok id,
            removeAttachments form
              ((records.filter fun r => r.id = id).flatMap (recordAttachments form)) folder)

/-! ### Runs -/

inductive Action (F : Type) where
  /-- Somebody attached a file to an answer not sent yet. -/
  | uploaded (name : Text)
  | submit (body : RespondSubmit F)
  | delete (id : Option Text)

/-- The folder, and for the record the answers of each response that were accepted last and not deleted since. -/
structure State (F : Type) where
  folder : Folder
  accepted : Table Text (Answers F)

def State.empty : State F := ⟨⟨none, [], []⟩, Table.empty⟩

/-- What is promised after a submission that was answered with its id. -/
def noteAccepted (form : Form C) (body : RespondSubmit F) (accepted : Table Text (Answers F)) :
    Except ApiError Text → Table Text (Answers F)
  | .error _ => accepted
  | .ok id => (body.answers.map fun a => accepted.put id (keepKnownAnswers form a)).getD accepted

def noteDeleted (accepted : Table Text (Answers F)) : Except ApiError Text → Table Text (Answers F)
  | .error _ => accepted
  | .ok id => accepted.erase id

def step (kit : Kit F C) (form : Form C) (env : Env) (s : State F) : Action F → Except ApiError Text × State F
  | .uploaded name => (.ok name, { s with folder := { s.folder with pending := name :: s.folder.pending } })
  | .submit body =>
    let r := respondSubmitInner kit form env body s.folder
    (r.1, ⟨r.2, noteAccepted form body s.accepted r.1⟩)
  | .delete id =>
    let r := deleteResponse kit form env id s.folder
    (r.1, ⟨r.2, noteDeleted s.accepted r.1⟩)

def run (kit : Kit F C) (form : Form C) : List (Env × Action F) → State F → State F
  | [], s => s
  | (env, a) :: rest, s => run kit form rest (step kit form env s a).2

end LibreServ.Forms
