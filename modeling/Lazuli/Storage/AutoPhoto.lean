import Lazuli.General.Program
import Lazuli.General.Text
import Lazuli.Runtime.Value

/-!
The photo of a user (`runtime/go/lazuli/auto_photo.go`, `storage/contract.go`).

The four calls are programs over an object store and a table. A client uploads straight to
the store, through a presigned URL that knows the key but neither size nor type, so an upload
is not an operation of a program but something that happens outside.
-/

namespace Lazuli.Storage

open Lazuli.General Lazuli.Runtime

/-! ### File contracts -/

structure MimeType where
  family : String
  subtype : String
  deriving DecidableEq

namespace MimeType

def text (m : MimeType) : String := m.family ++ "/" ++ m.subtype

/-- Two types intersect when each half is the same or a wildcard in one of them. -/
def «matches» (m other : MimeType) : Bool :=
  (m.family = other.family || m.family = "*" || other.family = "*") &&
    (m.subtype = other.subtype || m.subtype = "*" || other.subtype = "*")

end MimeType

structure FileContract where
  maxSize : Int
  accept : List MimeType
  deriving DecidableEq

structure FileRef where
  key : String
  contentType : String
  size : Int
  deriving DecidableEq

structure ObjectMeta where
  size : Int
  contentType : String
  deriving DecidableEq

/-- The text is cut at its first slash. -/
def splitMime (s : String) : Option (String × String) :=
  let (family, rest) := s.toList.span (· ≠ '/')
  match rest with
  | [] => none
  | _ :: subtype => some (String.ofList family, String.ofList subtype)

/-- An empty list accepts everything. -/
def contractAcceptsMime (contract : FileContract) (contentType : String) : Bool :=
  contract.accept.isEmpty ||
    match splitMime contentType with
    | none => false
    | some (family, subtype) => contract.accept.any (·.matches ⟨family, subtype⟩)

/-! ### Errors -/

def CodeFileSizeExceeded : String := "file_size_exceeded"
def CodeFileMimeRejected : String := "file_mime_rejected"
def CodeFileNotUploaded : String := "file_not_uploaded"
def CodeFileKeyMismatch : String := "file_key_mismatch"

inductive PhotoError where
  | text (message : String)
  | envelope (err : Error)
  deriving DecidableEq

def wrapped (message : String) : PhotoError := .text ("auto_photo: " ++ message)

def fileSizeExceededError (maxBytes gotBytes : Int) : PhotoError :=
  .envelope
    { status := 400
      code := CodeFileSizeExceeded
      messageKey := CodeFileSizeExceeded
      message := s!"file exceeds max size of {maxBytes} bytes (got {gotBytes})" }

/-- `quoted` is Go's way to write a text as a literal. -/
def fileMimeRejectedError (quoted : String → String) (accept : List MimeType) (got : String) :
    PhotoError :=
  let acceptList := " ".intercalate (accept.map MimeType.text)
  .envelope
    { status := 400
      code := CodeFileMimeRejected
      messageKey := CodeFileMimeRejected
      message := s!"content type {quoted got} not in accept list [{acceptList}]" }

def fileNotUploadedError : PhotoError :=
  .envelope
    { status := 409
      code := CodeFileNotUploaded
      messageKey := CodeFileNotUploaded
      message := "file not found in object store; the PUT did not complete" }

def fileKeyMismatchError : PhotoError :=
  .envelope
    { status := 400
      code := CodeFileKeyMismatch
      messageKey := CodeFileKeyMismatch
      message := "key does not match the one issued by the request handler" }

/-! ### Operations -/

inductive Method where
  | get
  | put
  deriving DecidableEq

structure PresignedURL where
  method : Method
  key : String
  expires : Int
  deriving DecidableEq

inductive StoreError where
  | fileNotFound
  | other (message : String)
  deriving DecidableEq

def StoreError.message : StoreError → String
  | .fileNotFound => "lazuli/storage: file_not_found"
  | .other message => message

/-- The rows of the site's table are found by their user and org. -/
structure Owner where
  user : Int
  org : Int
  deriving DecidableEq

inductive Op where
  | presignedURL (key : String) (ttl : Int) (method : Method)
  | headObject (key : String)
  | deleteObject (key : String)
  | updateField (value : Option FileRef) (owner : Owner)
  | selectField (owner : Owner)
  deriving DecidableEq

/-- An update answers with the number of rows, a select with the field of the row. -/
@[reducible] def Op.Res : Op → Type
  | .presignedURL .. => Except StoreError PresignedURL
  | .headObject _ => Except StoreError ObjectMeta
  | .deleteObject _ => Except StoreError Unit
  | .updateField .. => Except String Nat
  | .selectField _ => Except String (Option FileRef)

/-! ### The four calls -/

structure AutoPhotoSpec where
  table : String
  field : String
  storeBinding : String
  contract : FileContract
  putTTL : Int
  getTTL : Int
  deriving DecidableEq

/-- What is plugged in at boot: the object stores, by binding, and how a text is quoted. -/
structure Server where
  objectStore : String → Except String Unit
  quoted : String → String

structure AutoPhotoRequestArgs where
  contentType : String
  sizeBytes : Int
  deriving DecidableEq

structure AutoPhotoUploadIntent where
  url : PresignedURL
  headersContentType : String
  key : String
  deriving DecidableEq

structure AutoPhotoConfirmArgs where
  key : String
  deriving DecidableEq

def second : Int := 1000000000

def defaultAutoPhotoPutTTL : Int := 15 * 60 * second
def defaultAutoPhotoGetTTL : Int := 24 * 60 * 60 * second

def autoPhotoKey (spec : AutoPhotoSpec) (owner : Owner) : String :=
  s!"{spec.table}/{spec.field}/org-{owner.org}/user-{owner.user}"

/-- The user and the org of the caller. -/
def autoPhotoOwner (ctx : Option Ctx) : Except PhotoError Owner :=
  match ctx.bind (·.user) with
  | none => .error (wrapped "not_authenticated")
  | some user =>
      match ctx.bind (·.tenant) with
      | none => .error (.envelope tenantRequiredError)
      | some tenant => .ok ⟨user.id, tenant.orgID⟩

section Programs

variable (server : Server) (spec : AutoPhotoSpec)

def AutoPhotoRequest (ctx : Option Ctx) (args : AutoPhotoRequestArgs) :
    Program Op.Res (Except PhotoError AutoPhotoUploadIntent) :=
  match autoPhotoOwner ctx with
  | .error err => .done (.error err)
  | .ok owner =>
      if args.sizeBytes > spec.contract.maxSize then
        .done (.error (fileSizeExceededError spec.contract.maxSize args.sizeBytes))
      else if !contractAcceptsMime spec.contract args.contentType then
        .done (.error (fileMimeRejectedError server.quoted spec.contract.accept args.contentType))
      else
        let key := autoPhotoKey spec owner
        let ttl := if spec.putTTL = 0 then defaultAutoPhotoPutTTL else spec.putTTL
        match server.objectStore spec.storeBinding with
        | .error message => .done (.error (wrapped message))
        | .ok () =>
            .call (.presignedURL key ttl .put) fun
              | .error err => .done (.error (wrapped err.message))
              | .ok url =>
                  .done (.ok { url := url, headersContentType := args.contentType, key := key })

/-- Best effort; whether the object goes is not looked at. -/
def rejectObject (key : String) (err : PhotoError) : Program Op.Res (Except PhotoError Unit) :=
  .call (.deleteObject key) fun _ => .done (.error err)

def persistFileRef (ref : FileRef) (owner : Owner) : Program Op.Res (Except PhotoError Unit) :=
  .call (.updateField (some ref) owner) fun
    | .error message => .done (.error (wrapped message))
    | .ok 0 => .done (.error (wrapped "row_missing"))
    | .ok (_ + 1) => .done (.ok ())

/-- The upload as the store has it, whatever the client has declared. -/
def confirmUpload (key : String) (owner : Owner) :
    Except StoreError ObjectMeta → Program Op.Res (Except PhotoError Unit)
  | .error .fileNotFound => .done (.error fileNotUploadedError)
  | .error (.other message) => .done (.error (wrapped ("head_probe: " ++ message)))
  | .ok object =>
      if spec.contract.maxSize > 0 ∧ object.size > spec.contract.maxSize then
        rejectObject key (fileSizeExceededError spec.contract.maxSize object.size)
      else if !contractAcceptsMime spec.contract object.contentType then
        rejectObject key
          (fileMimeRejectedError server.quoted spec.contract.accept object.contentType)
      else persistFileRef ⟨key, object.contentType, object.size⟩ owner

def AutoPhotoConfirm (ctx : Option Ctx) (args : AutoPhotoConfirmArgs) :
    Program Op.Res (Except PhotoError Unit) :=
  match autoPhotoOwner ctx with
  | .error err => .done (.error err)
  | .ok owner =>
      if args.key ≠ autoPhotoKey spec owner then .done (.error fileKeyMismatchError)
      else
        match server.objectStore spec.storeBinding with
        | .error message => .done (.error (wrapped message))
        | .ok () => .call (.headObject args.key) (confirmUpload server spec args.key owner)

def deleteCleared (key : String) : Program Op.Res (Except PhotoError Unit) :=
  .call (.deleteObject key) fun _ => .done (.ok ())

/-- The row first, then the object; a store that is not there does not matter. -/
def AutoPhotoClear (ctx : Option Ctx) : Program Op.Res (Except PhotoError Unit) :=
  match autoPhotoOwner ctx with
  | .error err => .done (.error err)
  | .ok owner =>
      .call (.updateField none owner) fun
        | .error message => .done (.error (wrapped message))
        | .ok _ =>
            match server.objectStore spec.storeBinding with
            | .error _ => .done (.ok ())
            | .ok () => deleteCleared (autoPhotoKey spec owner)

def signDisplay (key : String) (ttl : Int) :
    Program Op.Res (Except PhotoError (Option PresignedURL)) :=
  .call (.presignedURL key ttl .get) fun
    | .error err => .done (.error (wrapped err.message))
    | .ok url => .done (.ok (some url))

/-- No URL when no file is set. The object is not looked at. -/
def AutoPhotoGetURL (ctx : Option Ctx) : Program Op.Res (Except PhotoError (Option PresignedURL)) :=
  match autoPhotoOwner ctx with
  | .error err => .done (.error err)
  | .ok owner =>
      .call (.selectField owner) fun
        | .error _ | .ok none => .done (.ok none)
        | .ok (some ref) =>
            if ref.key = "" then .done (.ok none)
            else
              let ttl := if spec.getTTL = 0 then defaultAutoPhotoGetTTL else spec.getTTL
              match server.objectStore spec.storeBinding with
              | .error _ => .done (.ok none)
              | .ok () => signDisplay ref.key ttl

end Programs

/-! ### One site -/

inductive Call where
  | request (ctx : Option Ctx) (args : AutoPhotoRequestArgs)
  | confirm (ctx : Option Ctx) (args : AutoPhotoConfirmArgs)
  | clear (ctx : Option Ctx)
  | getURL (ctx : Option Ctx)
  deriving DecidableEq

inductive Answer where
  | intent (res : Except PhotoError AutoPhotoUploadIntent)
  | confirmed (res : Except PhotoError Unit)
  | cleared (res : Except PhotoError Unit)
  | displayed (res : Except PhotoError (Option PresignedURL))

def Call.ctx : Call → Option Ctx
  | .request ctx _ | .confirm ctx _ | .clear ctx | .getURL ctx => ctx

def Call.program (server : Server) (spec : AutoPhotoSpec) : Call → Program Op.Res Answer
  | .request ctx args => (AutoPhotoRequest server spec ctx args).map .intent
  | .confirm ctx args => (AutoPhotoConfirm server spec ctx args).map .confirmed
  | .clear ctx => (AutoPhotoClear server spec ctx).map .cleared
  | .getURL ctx => (AutoPhotoGetURL server spec ctx).map .displayed

/-- The bucket and the table of the site. A row may be missing, and its field may be null. -/
structure Site where
  objects : String → Option ObjectMeta
  rows : Owner → Option (Option FileRef)
  issued : List PresignedURL
  clock : Int

namespace Site

def setObject (site : Site) (key : String) (object : Option ObjectMeta) : Site :=
  { site with objects := Function.update site.objects key object }

def setRow (site : Site) (owner : Owner) (value : Option FileRef) : Site :=
  { site with rows := Function.update site.rows owner (some value) }

@[simp] theorem setObject_rows (site : Site) (key : String) (object : Option ObjectMeta) :
    (site.setObject key object).rows = site.rows := rfl

@[simp] theorem setObject_objects (site : Site) (key : String) (object : Option ObjectMeta) :
    (site.setObject key object).objects = Function.update site.objects key object := rfl

@[simp] theorem setRow_rows (site : Site) (owner : Owner) (value : Option FileRef) :
    (site.setRow owner value).rows = Function.update site.rows owner (some value) := rfl

@[simp] theorem setRow_objects (site : Site) (owner : Owner) (value : Option FileRef) :
    (site.setRow owner value).objects = site.objects := rfl

/-- An operation that fails with a message does nothing. -/
def exec : (op : Op) → Option String → Site → Site × op.Res
  | .presignedURL .., some message, site => (site, .error (.other message))
  | .headObject _, some message, site => (site, .error (.other message))
  | .deleteObject _, some message, site => (site, .error (.other message))
  | .updateField .., some message, site => (site, .error message)
  | .selectField _, some message, site => (site, .error message)
  | .presignedURL key ttl method, none, site =>
      let url : PresignedURL := ⟨method, key, site.clock + ttl⟩
      ({ site with issued := url :: site.issued }, .ok url)
  | .headObject key, none, site =>
      match site.objects key with
      | none => (site, .error .fileNotFound)
      | some object => (site, .ok object)
  | .deleteObject key, none, site =>
      match site.objects key with
      | none => (site, .error .fileNotFound)
      | some _ => (site.setObject key none, .ok ())
  | .updateField value owner, none, site =>
      match site.rows owner with
      | none => (site, .ok 0)
      | some _ => (site.setRow owner value, .ok 1)
  | .selectField owner, none, site =>
      match site.rows owner with
      | none => (site, .error "no rows in result set")
      | some value => (site, .ok value)

inductive Event where
  | put (url : PresignedURL) (object : ObjectMeta)
  | tick (d : Nat)
  deriving DecidableEq

/-- The store takes an upload of any size and type through a URL that it has signed for
uploads, until that URL expires. -/
def outside : Event → Site → Site
  | .put url object, site =>
      if url ∈ site.issued ∧ url.method = .put ∧ site.clock < url.expires then
        site.setObject url.key (some object)
      else site
  | .tick d, site => { site with clock := site.clock + d }

end Site

def siteMachine : Machine Site Op.Res (Option String) Site.Event where
  exec := Site.exec
  outside := Site.outside

end Lazuli.Storage
