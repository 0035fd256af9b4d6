import Mathlib
import Lazuli.Storage.AutoPhoto

/-!
Uploads (`runtime/go/lazuli/storage/upload.go`).

A body is a stream: its bytes, then its end or an error. `Upload` cuts it behind `MaxSize`, checks
the declared type, makes a key of the site and the file's name, and hands the stream to an object
store. An `ObjectStore` is what adapters have in common; `localStore` is the one of this package.

The key depends on nothing else, so a second file of the same name replaces the first.
`uploads_respected` says what is kept.
-/

namespace Lazuli.Storage.Upload

/-! ### Streams -/

inductive UploadError where
  | fileSizeExceeded
  | fileMimeRejected
  | text (message : String)
  deriving DecidableEq

def UploadError.message : UploadError → String
  | .fileSizeExceeded => "lazuli/storage: file_size_exceeded"
  | .fileMimeRejected => "lazuli/storage: file_mime_rejected"
  | .text message => message

structure Stream where
  bytes : List UInt8
  failure : Option UploadError
  deriving DecidableEq

/-- `io.LimitReader`: the stream ends when the limit is reached. -/
def limitReader (n : Int) (s : Stream) : Stream :=
  if n.toNat ≤ s.bytes.length then ⟨s.bytes.take n.toNat, none⟩ else s

/-- `uploadSizeLimitReader`: it reads one byte more than allowed, and fails then. The limit is a
64-bit integer. -/
def sizeLimited (max : Int) (s : Stream) : Stream :=
  let limited := limitReader ((max + 1).bmod (2 ^ 64)) s
  if max < limited.bytes.length then ⟨limited.bytes, some .fileSizeExceeded⟩ else limited

/-! ### Stores -/

/-- What a Put did, how much of the body it read, and its error. -/
structure PutResult (State : Type) where
  state : State
  read : List UInt8
  error : Option UploadError

/-- An adapter. It touches the object of the key that it is given, stores what it read of the
body, and changes nothing when it fails. -/
structure ObjectStore where
  State : Type
  get : State → String → Option (List UInt8)
  put : State → String → Stream → String → PutResult State
  delete : State → String → State
  put_other : ∀ s key body contentType other, other ≠ key →
    get (put s key body contentType).state other = get s other
  put_reads : ∀ s key body contentType, (put s key body contentType).read <+: body.bytes
  put_stored : ∀ s key body contentType, (put s key body contentType).error = none →
    get (put s key body contentType).state key = some (put s key body contentType).read
  put_failed : ∀ s key body contentType, (put s key body contentType).error ≠ none →
    get (put s key body contentType).state key = get s key
  delete_other : ∀ s key other, other ≠ key → get (delete s key) other = get s other

/-- The adapter passes on an error of the body. -/
def ObjectStore.Reports (store : ObjectStore) : Prop :=
  ∀ s key body contentType, body.failure ≠ none → (store.put s key body contentType).error ≠ none

/-- The contents that `LocalStore` holds. -/
abbrev Contents := String → Option (List UInt8)

/-- `LocalStore.Put`. `writeFile` is what becomes of the file below `Root`; with no root there is
none. -/
def localPut (writeFile : String → List UInt8 → Option UploadError) (s : Contents) (key : String)
    (body : Stream) : PutResult Contents :=
  match body.failure with
  | some err => ⟨s, body.bytes, some err⟩
  | none =>
      match writeFile key body.bytes with
      | some err => ⟨s, body.bytes, some err⟩
      | none => ⟨Function.update s key (some body.bytes), body.bytes, none⟩

section Local

variable (writeFile : String → List UInt8 → Option UploadError)

/-- A Put that fails leaves the contents alone. -/
theorem localPut_cases (s : Contents) (key : String) (body : Stream) :
    (localPut writeFile s key body).read = body.bytes ∧
      ((localPut writeFile s key body).error ≠ none ∧ (localPut writeFile s key body).state = s ∨
        (localPut writeFile s key body).error = none ∧ body.failure = none ∧
          (localPut writeFile s key body).state = Function.update s key (some body.bytes)) := by
  unfold localPut
  cases hfailure : body.failure with
  | some err => exact ⟨rfl, .inl ⟨nofun, rfl⟩⟩
  | none =>
      dsimp only
      cases writeFile key body.bytes with
      | some err => exact ⟨rfl, .inl ⟨nofun, rfl⟩⟩
      | none => exact ⟨rfl, .inr ⟨rfl, rfl, rfl⟩⟩

def localStore : ObjectStore where
  State := Contents
  get s key := s key
  put s key body _ := localPut writeFile s key body
  delete s key := Function.update s key none
  put_other s key body _ other ne := by
    obtain ⟨-, ⟨-, same⟩ | ⟨-, -, set⟩⟩ := localPut_cases writeFile s key body
    · rw [same]
    · rw [set, Function.update_of_ne ne]
  put_reads s key body _ := by
    have read := (localPut_cases writeFile s key body).1
    simp only [read, List.prefix_rfl]
  put_stored s key body _ ok := by
    obtain ⟨read, ⟨failed, -⟩ | ⟨-, -, set⟩⟩ := localPut_cases writeFile s key body
    · exact absurd ok failed
    · rw [set, Function.update_self, read]
  put_failed s key body _ failed := by
    obtain ⟨-, ⟨-, same⟩ | ⟨ok, -, -⟩⟩ := localPut_cases writeFile s key body
    · rw [same]
    · exact absurd ok failed
  delete_other s key other ne := Function.update_of_ne ne ..

theorem localStore_reports : (localStore writeFile).Reports := by
  intro s key body _ broken
  obtain ⟨-, ⟨failed, -⟩ | ⟨-, fine, -⟩⟩ := localPut_cases writeFile s key body
  · exact failed
  · exact absurd fine broken

end Local

/-! ### Keys and checks -/

/-- A file contract and its site: a field of a resource, or an api. -/
structure SiteContract extends FileContract where
  resource : String
  field : String
  api : String
  deriving DecidableEq

structure Metadata where
  filename : String
  contentType : String
  size : Int
  deriving DecidableEq

/-- Parameters are cut off; a text without a slash is a family. -/
def parseMime (raw : String) : MimeType :=
  let raw := raw.toList.takeWhile (· ≠ ';')
  let (family, rest) := raw.span (· ≠ '/')
  match rest with
  | [] => ⟨String.ofList family, ""⟩
  | _ :: subtype => ⟨String.ofList family, String.ofList subtype⟩

/-- A type that is declared must be one of those listed, when there is a list. -/
def acceptsDeclared (contract : SiteContract) (contentType : String) : Bool :=
  contentType = "" || contract.accept.isEmpty ||
    contract.accept.any fun accept => accept.matches (parseMime contentType)

/-- `strings.Contains(name, "..")`. -/
def containsTraversal : List Char → Bool
  | '.' :: '.' :: _ => true
  | _ :: rest => containsTraversal rest
  | [] => false

def sanitizeFilename (name : String) : Except UploadError String :=
  if name = "" then .ok "default"
  else if name.toList.any fun c => c = '/' || c = '\\' then
    .error (.text "storage: filename contains path separator")
  else if name.toList.any fun c => "<>:\"|?*".toList.contains c then
    .error (.text "storage: filename contains unsafe char")
  else if containsTraversal name.toList then
    .error (.text "storage: filename contains parent traversal")
  else if name.toList.any fun c => c.toNat < 32 || 127 ≤ c.toNat then
    .error (.text "storage: filename contains control or non-ASCII char")
  else .ok name

def mintKey (contract : SiteContract) (metadata : Metadata) : Except UploadError String :=
  let site := contract.resource ++ "/" ++ contract.field
  let stem := if site = "/" then "api/" ++ contract.api else site
  if metadata.filename = "" then .ok stem
  else do
    let name ← sanitizeFilename metadata.filename
    .ok (stem ++ "/" ++ name)

/-! ### Upload -/

structure UploadCall where
  contract : SiteContract
  body : Stream
  metadata : Metadata

def UploadCall.limited (c : UploadCall) : Bool := 0 < c.contract.maxSize

def UploadCall.stream (c : UploadCall) : Stream :=
  if c.limited then sizeLimited c.contract.maxSize c.body else c.body

def UploadCall.key (c : UploadCall) : Except UploadError String := mintKey c.contract c.metadata

def UploadCall.put (store : ObjectStore) (s : store.State) (c : UploadCall) (key : String) :
    PutResult store.State :=
  store.put s key c.stream c.metadata.contentType

/-- The Put, and the Delete behind one that read too much. -/
def putChecked (store : ObjectStore) (s : store.State) (c : UploadCall) (key : String) :
    Except UploadError String × store.State :=
  let put := c.put store s key
  match put.error with
  | some err => (.error err, put.state)
  | none =>
      if c.limited && c.contract.maxSize < put.read.length then
        (.error .fileSizeExceeded, store.delete put.state key)
      else (.ok key, put.state)

def upload (store : ObjectStore) (s : store.State) (c : UploadCall) :
    Except UploadError String × store.State :=
  if 0 < c.metadata.size ∧ c.limited ∧ c.contract.maxSize < c.metadata.size then
    (.error .fileSizeExceeded, s)
  else if !acceptsDeclared c.contract c.metadata.contentType then (.error .fileMimeRejected, s)
  else
    match c.key with
    | .error err => (.error err, s)
    | .ok key => putChecked store s c key

/-- The state after a sequence of calls. -/
def uploads (store : ObjectStore) (s : store.State) : List UploadCall → store.State
  | [] => s
  | c :: calls => uploads store (upload store s c).2 calls

/-- What the calls return. -/
def results (store : ObjectStore) (s : store.State) :
    List UploadCall → List (Except UploadError String)
  | [] => []
  | c :: calls => (upload store s c).1 :: results store (upload store s c).2 calls

/-! ### What an upload keeps -/

/-- The declared type is one of those that the contract lists, if both are there. -/
def UploadCall.Accepted (c : UploadCall) : Prop :=
  c.metadata.contentType = "" ∨ c.contract.accept = [] ∨
    ∃ accept ∈ c.contract.accept, accept.matches (parseMime c.metadata.contentType) = true

theorem accepted_iff (c : UploadCall) :
    acceptsDeclared c.contract c.metadata.contentType = true ↔ c.Accepted := by
  unfold acceptsDeclared UploadCall.Accepted
  rw [Bool.or_eq_true, Bool.or_eq_true, decide_eq_true_iff, List.isEmpty_iff, List.any_eq_true,
    or_assoc]

/-- One call, from some state of the store. -/
structure Respects (store : ObjectStore) (s : store.State) (c : UploadCall) : Prop where
  bounded : ∀ key, (upload store s c).1 = .ok key →
    ∃ bytes, store.get (upload store s c).2 key = some bytes ∧ bytes <+: c.body.bytes ∧
      (0 < c.contract.maxSize → bytes.length ≤ c.contract.maxSize)
  accepted : ∀ key, (upload store s c).1 = .ok key → c.key = .ok key ∧ c.Accepted
  others : ∀ other, c.key ≠ .ok other →
    store.get (upload store s c).2 other = store.get s other
  rejected : store.Reports → ∀ err, (upload store s c).1 = .error err →
    ∀ key, store.get (upload store s c).2 key = store.get s key

section Uploads

variable {store : ObjectStore} {s : store.State} {c : UploadCall} {key : String}

theorem limitReader_within (n : Int) (body : Stream) :
    (limitReader n body).bytes <+: body.bytes := by
  unfold limitReader
  split
  · exact List.take_prefix ..
  · exact List.prefix_rfl

/-- What a stream gives beyond the limit, it gives with an error. -/
theorem sizeLimited_spec (max : Int) (body : Stream) :
    (sizeLimited max body).bytes <+: body.bytes ∧
      (max < (sizeLimited max body).bytes.length → (sizeLimited max body).failure ≠ none) := by
  unfold sizeLimited
  dsimp only
  split
  · exact ⟨limitReader_within .., fun _ => nofun⟩
  · rename_i within
    exact ⟨limitReader_within .., fun exceeds => absurd exceeds within⟩

theorem stream_within (c : UploadCall) : c.stream.bytes <+: c.body.bytes := by
  unfold UploadCall.stream
  split
  · exact (sizeLimited_spec ..).1
  · exact List.prefix_rfl

/-- All that a call can come to: it is refused before the store is asked, the Put fails, what the
Put stored is deleted, or the key is returned. -/
inductive Uploaded (store : ObjectStore) (s : store.State) (c : UploadCall) :
    Except UploadError String × store.State → Prop where
  | refused (err : UploadError) : Uploaded store s c (.error err, s)
  | failed {key : String} {err : UploadError} : c.key = .ok key →
      (c.put store s key).error = some err → Uploaded store s c (.error err, (c.put store s key).state)
  | deleted {key : String} : c.key = .ok key → (c.put store s key).error = none → c.limited = true →
      c.contract.maxSize < (c.put store s key).read.length →
      Uploaded store s c (.error .fileSizeExceeded, store.delete (c.put store s key).state key)
  | stored {key : String} : c.key = .ok key → c.Accepted → (c.put store s key).error = none →
      (0 < c.contract.maxSize → (c.put store s key).read.length ≤ c.contract.maxSize) →
      Uploaded store s c (.ok key, (c.put store s key).state)

theorem uploaded (store : ObjectStore) (s : store.State) (c : UploadCall) :
    Uploaded store s c (upload store s c) := by
  unfold upload
  split
  · exact .refused _
  · split
    · exact .refused _
    · rename_i accepted
      rw [Bool.not_eq_true', Bool.not_eq_false] at accepted
      split
      · exact .refused _
      · rename_i key hkey
        unfold putChecked
        dsimp only
        cases hput : (c.put store s key).error with
        | some err => exact .failed hkey hput
        | none =>
            dsimp only
            split
            · rename_i exceeds
              obtain ⟨limited, more⟩ := Bool.and_eq_true_iff.mp exceeds
              exact .deleted hkey hput limited (of_decide_eq_true more)
            · rename_i within
              refine .stored hkey ((accepted_iff c).mp accepted) hput fun limit => ?_
              by_contra more
              refine within (Bool.and_eq_true_iff.mpr ⟨decide_eq_true limit, decide_eq_true ?_⟩)
              exact Int.not_le.mp more

/-- A store that passes errors on never has to delete. -/
theorem not_deleted (reports : store.Reports) (ok : (c.put store s key).error = none)
    (limited : c.limited = true) : (c.put store s key).read.length ≤ c.contract.maxSize := by
  have reads := (store.put_reads s key c.stream c.metadata.contentType).length_le
  have spec := (sizeLimited_spec c.contract.maxSize c.body).2
  have stream : c.stream = sizeLimited c.contract.maxSize c.body := if_pos limited
  by_contra more
  refine reports s key c.stream c.metadata.contentType ?_ ok
  rw [stream]
  refine spec ?_
  rw [stream] at reads
  unfold UploadCall.put at more
  rw [stream] at more
  omega

theorem respects (store : ObjectStore) (s : store.State) (c : UploadCall) : Respects store s c := by
  have result := uploaded store s c
  generalize hresult : upload store s c = r at result
  constructor
  all_goals rw [hresult]
  · cases result with
    | stored hkey accepted ok within =>
        rintro key ⟨rfl⟩
        refine ⟨_, store.put_stored _ _ _ _ ok, ?_, within⟩
        exact (store.put_reads ..).trans (stream_within c)
    | _ => exact nofun
  · cases result with
    | stored hkey accepted ok within =>
        rintro key ⟨rfl⟩
        exact ⟨hkey, accepted⟩
    | _ => exact nofun
  · intro other ne
    cases result with
    | refused err => rfl
    | failed hkey _ => exact store.put_other _ _ _ _ _ fun same => ne (same ▸ hkey)
    | stored hkey _ _ _ => exact store.put_other _ _ _ _ _ fun same => ne (same ▸ hkey)
    | @deleted key hkey _ _ _ =>
        have apart : other ≠ key := fun same => ne (same ▸ hkey)
        exact (store.delete_other _ _ _ apart).trans (store.put_other _ _ _ _ _ apart)
  · intro reports err failed key
    cases result with
    | refused _ => rfl
    | @failed minted e hkey bad =>
        by_cases same : key = minted
        · subst same
          exact store.put_failed _ _ _ _ (by rw [UploadCall.put] at bad; rw [bad]; exact nofun)
        · exact store.put_other _ _ _ _ _ same
    | stored _ _ _ _ => cases failed
    | deleted hkey ok limited more => exact absurd (not_deleted reports ok limited) (by omega)

theorem uploads_append (store : ObjectStore) (s : store.State) (before after : List UploadCall) :
    uploads store s (before ++ after) = uploads store (uploads store s before) after := by
  induction before generalizing s with
  | nil => rfl
  | cons c before ih => exact ih _

/-- An object changes when a call returns its key, not otherwise. -/
theorem get_uploads (reports : store.Reports) {calls : List UploadCall}
    (other : .ok key ∉ results store s calls) :
    store.get (uploads store s calls) key = store.get s key := by
  induction calls generalizing s with
  | nil => rfl
  | cons c calls ih =>
      obtain ⟨now, later⟩ := not_or.mp (mt List.mem_cons.mpr other)
      refine (ih later).trans ?_
      cases result : (upload store s c).1 with
      | error err => exact (respects store s c).rejected reports err result key
      | ok minted =>
          refine (respects store s c).others key fun same => now ?_
          have minted' := ((respects store s c).accepted minted result).1
          rw [result, same.symm.trans minted']

/-- In every sequence of calls, each call respects its contract, and what it stored stays until a
later call returns the same key. -/
theorem uploads_respected (store : ObjectStore) (reports : store.Reports) (s : store.State)
    (before after : List UploadCall) (c : UploadCall) :
    Respects store (uploads store s before) c ∧
      ∀ key, (upload store (uploads store s before) c).1 = .ok key →
        .ok key ∉ results store (uploads store s (before ++ [c])) after →
          store.get (uploads store s (before ++ c :: after)) key =
            store.get (uploads store s (before ++ [c])) key := by
  refine ⟨respects .., fun key _ other => ?_⟩
  rw [← List.singleton_append, ← List.append_assoc, uploads_append store s (before ++ [c])]
  exact get_uploads reports other

end Uploads

/-! ### Photos of profiles -/

/-- A store with no root. -/
def memoryStore : ObjectStore := localStore fun _ _ => none

def photo (maxSize : Int) (filename contentType : String) (bytes : List UInt8) : UploadCall where
  contract :=
    { maxSize := maxSize, accept := [⟨"image", "jpeg"⟩], resource := "Profile", field := "photo"
      api := "" }
  body := ⟨bytes, none⟩
  metadata := ⟨filename, contentType, bytes.length⟩

theorem uploads_respected_photo :
    memoryStore.get (uploads memoryStore (fun _ => none)
      [photo 4 "a.jpg" "image/jpeg" [1, 2], photo 4 "b.jpg" "image/jpeg" [3]]) "Profile/photo/a.jpg" =
        some [1, 2] := by
  have kept := (uploads_respected memoryStore (localStore_reports _) (fun _ => none) []
    [photo 4 "b.jpg" "image/jpeg" [3]] (photo 4 "a.jpg" "image/jpeg" [1, 2])).2
    "Profile/photo/a.jpg" (by decide) (by decide)
  exact kept.trans (by decide)

/-- A second file of the same name replaces the first. Where only photos are accepted, a file
without a type or with a wildcard for one is stored, and without a maximal size any size is. -/
theorem photo_replaced :
    results memoryStore (fun _ => none)
        [photo 4 "a.jpg" "image/jpeg" [1, 2], photo 4 "a.jpg" "image/jpeg" [3],
          photo 4 "b.sh" "" [4], photo 4 "c.sh" "*/*" [5], photo 0 "d.jpg" "image/jpeg" [6]] =
      [.ok "Profile/photo/a.jpg", .ok "Profile/photo/a.jpg", .ok "Profile/photo/b.sh",
        .ok "Profile/photo/c.sh", .ok "Profile/photo/d.jpg"] ∧
    memoryStore.get (uploads memoryStore (fun _ => none) [photo 4 "a.jpg" "image/jpeg" [1, 2]])
      "Profile/photo/a.jpg" = some [1, 2] ∧
    memoryStore.get (uploads memoryStore (fun _ => none)
        [photo 4 "a.jpg" "image/jpeg" [1, 2], photo 4 "a.jpg" "image/jpeg" [3]])
      "Profile/photo/a.jpg" = some [3] := by
  refine ⟨?_, ?_, ?_⟩ <;> decide

end Lazuli.Storage.Upload
