import Lazuli.Storage.AutoPhoto

/-!
What a displayed photo is worth.

A key does not change, and its upload URL lives on after the photo is confirmed. So an upload
can replace an object that a row names, or that a call has just looked at; a clear can delete
an object that another call has meanwhile confirmed. In a run without such steps
(`Undisturbed`) every URL that is displayed leads to the object that the row describes, and a
confirmation that fails changes nothing.
-/

namespace Lazuli.Storage

open Lazuli.General Lazuli.Runtime

/-! ### The promise -/

abbrev Photos := Threads Site Nat Op.Res Answer

abbrev Step := Act Nat (Option String) Site.Event

def Photos.step (s : Photos) (a : Step) : Photos × Option (Nat × Answer) := s.act siteMachine a

def Satisfies (contract : FileContract) (object : ObjectMeta) : Prop :=
  object.size ≤ contract.maxSize ∧ contractAcceptsMime contract object.contentType

section Promise

variable (spec : AutoPhotoSpec) (calls : Nat → Call)

/-- The URL leads to an object of the caller that fits the contract and the caller's row. -/
def Served (site : Site) (c : Call) (url : PresignedURL) : Prop :=
  ∃ owner ref object, autoPhotoOwner c.ctx = .ok owner ∧ url.key = autoPhotoKey spec owner ∧
    site.rows owner = some (some ref) ∧ site.objects url.key = some object ∧
    Satisfies spec.contract object ∧ object.size = ref.size ∧
    object.contentType = ref.contentType

/-- The rows are the same, and so is every object that one of them names. -/
def Unharmed (before after : Site) : Prop :=
  after.rows = before.rows ∧ ∀ owner ref, before.rows owner = some (some ref) →
    after.objects ref.key = before.objects ref.key

/-- A URL that is displayed is good, and a step of a confirmation that has not (or not yet)
succeeded does no harm. -/
structure Upheld (s : Photos) (a : Step) : Prop where
  served : ∀ i url, (s.step a).2 = some (i, .displayed (.ok (some url))) →
    Served spec (s.step a).1.shared (calls i) url
  unharmed : ∀ i choice ctx args, a = .step i choice → calls i = .confirm ctx args →
    ((s.step a).1.programs i).result? ≠ some (.confirmed (.ok ())) →
    Unharmed s.shared (s.step a).1.shared

/-! ### Undisturbed steps -/

/-- A confirmation that has looked at the object of the owner, or a display that has looked at
the row, and that has not returned. -/
def Looked (owner : Owner) (c : Call) (p : Program Op.Res Answer) : Prop :=
  match c, p.next? with
  | .confirm .., some (.updateField (some _) at') => at' = owner
  | .confirm .., some (.deleteObject key) => key = autoPhotoKey spec owner
  | .getURL _, some (.presignedURL key _ _) => key = autoPhotoKey spec owner
  | _, _ => False

/-- No row names the object, and no call has just looked at it. -/
structure Free (s : Photos) (key : String) : Prop where
  row : ∀ owner ref, key = autoPhotoKey spec owner → s.shared.rows owner ≠ some (some ref)
  calls : ∀ owner i, key = autoPhotoKey spec owner → ¬ Looked spec owner (calls i) (s.programs i)

def Undisturbed (s : Photos) : Step → Prop
  | .outside (.put url object) =>
      s.shared.objects url.key = some object ∨ Free spec calls s url.key
  | .outside (.tick _) => True
  | .step i _ =>
      match calls i, (s.programs i).next? with
      | .clear _, some (.deleteObject key) =>
          s.shared.objects key = none ∨ Free spec calls s key
      | .clear _, some (.updateField _ owner) =>
          ∀ j ctx, calls j = .getURL ctx → ¬ Looked spec owner (calls j) (s.programs j)
      | _, _ => True

/-- All calls are still to be made, and no row has a photo. -/
structure Start (server : Server) (s : Photos) : Prop where
  programs : ∀ i, s.programs i = (calls i).program server spec
  rows : ∀ owner ref, s.shared.rows owner ≠ some (some ref)

end Promise

/-! ### The invariant -/

/-- The object is as the reference says, and fits the contract. -/
structure Accurate (spec : AutoPhotoSpec) (site : Site) (owner : Owner) (ref : FileRef) : Prop where
  key : ref.key = autoPhotoKey spec owner
  object : site.objects ref.key = some ⟨ref.size, ref.contentType⟩
  satisfies : Satisfies spec.contract ⟨ref.size, ref.contentType⟩

def RowsAccurate (spec : AutoPhotoSpec) (site : Site) : Prop :=
  ∀ owner ref, site.rows owner = some (some ref) → Accurate spec site owner ref

/-- Where the program of a call can be, and what it then knows. -/
inductive At (server : Server) (spec : AutoPhotoSpec) (site : Site) (c : Call)
    (p : Program Op.Res Answer) : Prop where
  | start : p = c.program server spec → At server spec site c p
  | returned (a : Answer) : p = .done a → At server spec site c p
  | storing (ctx : Option Ctx) (args : AutoPhotoConfirmArgs) (owner : Owner) (ref : FileRef) :
      c = .confirm ctx args → p = (persistFileRef ref owner).map .confirmed →
      Accurate spec site owner ref → At server spec site c p
  | rejecting (ctx : Option Ctx) (args : AutoPhotoConfirmArgs) (owner : Owner)
      (err : PhotoError) :
      c = .confirm ctx args → p = (rejectObject (autoPhotoKey spec owner) err).map .confirmed →
      (∀ object, site.objects (autoPhotoKey spec owner) = some object →
        ¬ Satisfies spec.contract object) → At server spec site c p
  | clearing (ctx : Option Ctx) (owner : Owner) :
      c = .clear ctx → p = (deleteCleared (autoPhotoKey spec owner)).map .cleared →
      At server spec site c p
  | signing (ctx : Option Ctx) (owner : Owner) (ref : FileRef) (ttl : Int) :
      c = .getURL ctx → autoPhotoOwner ctx = .ok owner →
      p = (signDisplay ref.key ttl).map .displayed → site.rows owner = some (some ref) →
      At server spec site c p

/-! ### What operations do -/

section Operations

variable (site : Site) (choice : Option String)

theorem exec_presignedURL (key : String) (ttl : Int) (method : Method) :
    (site.exec (.presignedURL key ttl method) choice).1.rows = site.rows ∧
      (site.exec (.presignedURL key ttl method) choice).1.objects = site.objects ∧
      ∀ url, (site.exec (.presignedURL key ttl method) choice).2 = .ok url → url.key = key := by
  cases choice with
  | none =>
      refine ⟨rfl, rfl, ?_⟩
      rintro url ⟨⟩
      rfl
  | some message => exact ⟨rfl, rfl, nofun⟩

theorem exec_headObject (key : String) :
    (site.exec (.headObject key) choice).1 = site ∧
      ∀ object, (site.exec (.headObject key) choice).2 = .ok object →
        site.objects key = some object := by
  cases choice with
  | some message => exact ⟨rfl, nofun⟩
  | none =>
      simp only [Site.exec]
      cases site.objects key with
      | none => exact ⟨rfl, nofun⟩
      | some object =>
          refine ⟨rfl, ?_⟩
          rintro object' ⟨⟩
          rfl

theorem exec_deleteObject (key : String) :
    (site.exec (.deleteObject key) choice).1 = site ∨
      site.objects key ≠ none ∧
        (site.exec (.deleteObject key) choice).1 = site.setObject key none := by
  cases choice with
  | some message => exact .inl rfl
  | none =>
      simp only [Site.exec]
      cases h : site.objects key with
      | none => exact .inl rfl
      | some object => exact .inr ⟨nofun, rfl⟩

theorem exec_updateField (value : Option FileRef) (owner : Owner) :
    ((site.exec (.updateField value owner) choice).1 = site ∧
        ∀ n, (site.exec (.updateField value owner) choice).2 ≠ .ok (n + 1)) ∨
      (site.exec (.updateField value owner) choice).1 = site.setRow owner value ∧
        (site.exec (.updateField value owner) choice).2 = .ok 1 := by
  cases choice with
  | some message => exact .inl ⟨rfl, nofun⟩
  | none =>
      simp only [Site.exec]
      cases site.rows owner with
      | none => exact .inl ⟨rfl, nofun⟩
      | some value => exact .inr ⟨rfl, rfl⟩

theorem exec_selectField (owner : Owner) :
    (site.exec (.selectField owner) choice).1 = site ∧
      ∀ value, (site.exec (.selectField owner) choice).2 = .ok value →
        site.rows owner = some value := by
  cases choice with
  | some message => exact ⟨rfl, nofun⟩
  | none =>
      simp only [Site.exec]
      cases site.rows owner with
      | none => exact ⟨rfl, nofun⟩
      | some value =>
          refine ⟨rfl, ?_⟩
          rintro value' ⟨⟩
          rfl

end Operations

/-! ### What the programs do first -/

section Programs

variable (server : Server) (spec : AutoPhotoSpec)

theorem request_cases (ctx : Option Ctx) (args : AutoPhotoRequestArgs) :
    (∃ a, AutoPhotoRequest server spec ctx args = .done a) ∨
      ∃ key ttl rest, AutoPhotoRequest server spec ctx args = .call (.presignedURL key ttl .put) rest ∧
        ∀ r, ∃ a, rest r = .done a := by
  unfold AutoPhotoRequest
  split
  · exact .inl ⟨_, rfl⟩
  · split
    · exact .inl ⟨_, rfl⟩
    · split
      · exact .inl ⟨_, rfl⟩
      · dsimp only
        split
        · exact .inl ⟨_, rfl⟩
        · refine .inr ⟨_, _, _, rfl, ?_⟩
          intro r
          cases r <;> exact ⟨_, rfl⟩

theorem confirm_cases (ctx : Option Ctx) (args : AutoPhotoConfirmArgs) :
    (∃ err, AutoPhotoConfirm server spec ctx args = .done (.error err)) ∨
      ∃ owner, AutoPhotoConfirm server spec ctx args =
        .call (.headObject (autoPhotoKey spec owner))
          (confirmUpload server spec (autoPhotoKey spec owner) owner) := by
  unfold AutoPhotoConfirm
  split
  · exact .inl ⟨_, rfl⟩
  next owner _ =>
    split
    · exact .inl ⟨_, rfl⟩
    next key =>
      rw [not_not] at key
      split
      · exact .inl ⟨_, rfl⟩
      · exact .inr ⟨owner, by rw [key]⟩

/-- A contract with a size limit is checked in full. -/
theorem confirmUpload_cases (limit : 0 < spec.contract.maxSize) (key : String) (owner : Owner)
    (head : Except StoreError ObjectMeta) :
    (∃ err, confirmUpload server spec key owner head = .done (.error err)) ∨
      ∃ object, head = .ok object ∧
        ((¬ Satisfies spec.contract object ∧
            ∃ err, confirmUpload server spec key owner head = rejectObject key err) ∨
          (Satisfies spec.contract object ∧ confirmUpload server spec key owner head =
            persistFileRef ⟨key, object.contentType, object.size⟩ owner)) := by
  unfold confirmUpload Satisfies
  split
  · exact .inl ⟨_, rfl⟩
  · exact .inl ⟨_, rfl⟩
  next object =>
    refine .inr ⟨object, rfl, ?_⟩
    split
    next large => exact .inl ⟨fun fits => absurd large.2 (Int.not_lt.mpr fits.1), _, rfl⟩
    next small =>
      split
      next rejected =>
        refine .inl ⟨?_, _, rfl⟩
        rintro ⟨-, accepted⟩
        rw [accepted] at rejected
        cases rejected
      next accepted =>
        refine .inr ⟨⟨?_, by simpa using accepted⟩, rfl⟩
        exact Int.not_lt.mp fun large => small ⟨limit, large⟩

theorem clear_cases (ctx : Option Ctx) :
    (∃ err, AutoPhotoClear server spec ctx = .done (.error err)) ∨
      ∃ owner rest, AutoPhotoClear server spec ctx = .call (.updateField none owner) rest ∧
        ∀ r, (∃ a, rest r = .done a) ∨ rest r = deleteCleared (autoPhotoKey spec owner) := by
  unfold AutoPhotoClear
  split
  · exact .inl ⟨_, rfl⟩
  next owner _ =>
    refine .inr ⟨owner, _, rfl, ?_⟩
    intro r
    split
    · exact .inl ⟨_, rfl⟩
    · split
      · exact .inl ⟨_, rfl⟩
      · exact .inr rfl

theorem getURL_cases (ctx : Option Ctx) :
    (∃ err, AutoPhotoGetURL server spec ctx = .done (.error err)) ∨
      ∃ owner rest, autoPhotoOwner ctx = .ok owner ∧
        AutoPhotoGetURL server spec ctx = .call (.selectField owner) rest ∧
        ∀ r, rest r = .done (.ok none) ∨
          ∃ ref ttl, r = .ok (some ref) ∧ rest r = signDisplay ref.key ttl := by
  unfold AutoPhotoGetURL
  split
  · exact .inl ⟨_, rfl⟩
  next owner howner =>
    refine .inr ⟨owner, _, howner, rfl, ?_⟩
    intro r
    dsimp only
    split
    · exact .inl rfl
    · exact .inl rfl
    next ref =>
      split
      · exact .inl rfl
      · split
        · exact .inl rfl
        · exact .inr ⟨ref, _, rfl, rfl⟩

end Programs

/-! ### One step of a call -/

/-- What an operation `op` of the call `c` did when it went from `site` to `site'` and left `p`
of the program. -/
inductive Effect (spec : AutoPhotoSpec) (site : Site) (c : Call) (op : Op) (site' : Site)
    (p : Program Op.Res Answer) : Prop where
  | read : site'.rows = site.rows → site'.objects = site.objects → Effect spec site c op site' p
  | stored (owner : Owner) (ref : FileRef) : Accurate spec site owner ref →
      site' = site.setRow owner (some ref) → p = .done (.confirmed (.ok ())) →
      Effect spec site c op site' p
  | cleared (ctx : Option Ctx) (owner : Owner) : c = .clear ctx → op = .updateField none owner →
      site' = site.setRow owner none → Effect spec site c op site' p
  | rejected (key : String) :
      (∀ object, site.objects key = some object → ¬ Satisfies spec.contract object) →
      site' = site.setObject key none → Effect spec site c op site' p
  | deleted (ctx : Option Ctx) (key : String) : c = .clear ctx → op = .deleteObject key →
      site.objects key ≠ none → site' = site.setObject key none → Effect spec site c op site' p

structure Sound (server : Server) (spec : AutoPhotoSpec) (site : Site) (c : Call) (op : Op)
    (site' : Site) (p : Program Op.Res Answer) : Prop where
  effect : Effect spec site c op site' p
  at' : At server spec site' c p
  served : RowsAccurate spec site → ∀ url, p.result? = some (.displayed (.ok (some url))) →
    Served spec site' c url

section OwnStep

variable {server : Server} {spec : AutoPhotoSpec} {site : Site} {c : Call} {op : Op}

/-- A call that returns and has changed nothing. -/
theorem Sound.returned {a : Answer} (noURL : ∀ url, a ≠ .displayed (.ok (some url))) :
    Sound server spec site c op site (.done a) where
  effect := .read rfl rfl
  at' := .returned a rfl
  served _ url h := absurd (Option.some.inj h) (noURL url)

/-- A call that goes on and has changed nothing. -/
theorem Sound.next {p : Program Op.Res Answer} (at' : At server spec site c p)
    (running : p.result? = none) : Sound server spec site c op site p where
  effect := .read rfl rfl
  at' := at'
  served _ url h := by
    rw [running] at h
    cases h

variable {rest : op.Res → Program Op.Res Answer} {choice : Option String}

theorem At.step_start (limit : 0 < spec.contract.maxSize)
    (h : .call op rest = c.program server spec) :
    Sound server spec site c op (site.exec op choice).1 (rest (site.exec op choice).2) := by
  cases c with
  | request ctx args =>
      rcases request_cases server spec ctx args with
        ⟨a, done⟩ | ⟨key, ttl, rest', start, finish⟩
      · rw [Call.program, done] at h
        cases h
      · rw [Call.program, start] at h
        cases h
        obtain ⟨rows, objects, -⟩ :=
          exec_presignedURL site choice key ttl .put
        obtain ⟨a, last⟩ := finish (site.exec (.presignedURL key ttl .put) choice).2
        beta_reduce
        rw [last]
        exact ⟨.read rows objects, .returned _ rfl, nofun⟩
  | confirm ctx args =>
      rcases confirm_cases server spec ctx args with
        ⟨err, done⟩ | ⟨owner, start⟩
      · rw [Call.program, done] at h
        cases h
      · rw [Call.program, start] at h
        cases h
        obtain ⟨same, seen⟩ :=
          exec_headObject site choice (autoPhotoKey spec owner)
        rw [same]
        beta_reduce
        rcases confirmUpload_cases server spec limit (autoPhotoKey spec owner) owner
          (site.exec (.headObject (autoPhotoKey spec owner)) choice).2 with
          ⟨err, failed⟩ | ⟨object, head, ⟨unfit, err, reject⟩ | ⟨fits, persist⟩⟩
        · rw [failed]
          exact Sound.returned nofun
        · rw [reject]
          refine Sound.next (.rejecting ctx args owner err rfl rfl ?_) rfl
          intro object' there
          rw [seen object head] at there
          cases there
          exact unfit
        · rw [persist]
          refine Sound.next (.storing ctx args owner _ rfl rfl ?_) rfl
          exact ⟨rfl, seen object head, fits⟩
  | clear ctx =>
      rcases clear_cases server spec ctx with
        ⟨err, done⟩ | ⟨owner, rest', start, finish⟩
      · rw [Call.program, done] at h
        cases h
      · rw [Call.program, start] at h
        cases h
        have effect (p : Program Op.Res Answer) : Effect spec site (.clear ctx)
            (.updateField none owner) (site.exec (.updateField none owner) choice).1 p := by
          rcases exec_updateField site choice none owner with
            ⟨same, -⟩ | ⟨set, -⟩
          · rw [same]
            exact .read rfl rfl
          · exact .cleared ctx owner rfl rfl set
        beta_reduce
        rcases finish (site.exec (.updateField none owner) choice).2 with ⟨a, last⟩ | delete
        · rw [last]
          exact ⟨effect _, .returned _ rfl, nofun⟩
        · rw [delete]
          exact ⟨effect _, .clearing ctx owner rfl rfl, nofun⟩
  | getURL ctx =>
      rcases getURL_cases server spec ctx with
        ⟨err, done⟩ | ⟨owner, rest', howner, start, finish⟩
      · rw [Call.program, done] at h
        cases h
      · rw [Call.program, start] at h
        cases h
        obtain ⟨same, seen⟩ := exec_selectField site choice owner
        rw [same]
        beta_reduce
        rcases finish (site.exec (.selectField owner) choice).2 with last | ⟨ref, ttl, row, sign⟩
        · rw [last]
          exact Sound.returned nofun
        · rw [sign]
          exact Sound.next (.signing ctx owner ref ttl rfl howner rfl (seen _ row)) rfl

variable (choice) in
theorem At.step (limit : 0 < spec.contract.maxSize) (h : At server spec site c (.call op rest)) :
    Sound server spec site c op (site.exec op choice).1 (rest (site.exec op choice).2) := by
  cases h with
  | start h => exact At.step_start limit h
  | returned a h => cases h
  | storing ctx args owner ref hc h accurate =>
      cases h
      rcases exec_updateField site choice (some ref) owner with
        ⟨same, answer⟩ | ⟨set, answer⟩
      · rw [same]
        beta_reduce
        cases hr : (site.exec (.updateField (some ref) owner) choice).2 with
        | error message => exact Sound.returned nofun
        | ok n =>
            cases n with
            | zero => exact Sound.returned nofun
            | succ n => exact absurd hr (answer n)
      · rw [set]
        beta_reduce
        rw [answer]
        exact ⟨.stored owner ref accurate rfl rfl, .returned _ rfl, nofun⟩
  | rejecting ctx args owner err hc h unfit =>
      cases h
      refine ⟨?_, .returned _ rfl, nofun⟩
      rcases exec_deleteObject site choice (autoPhotoKey spec owner) with
        same | ⟨-, gone⟩
      · rw [same]
        exact .read rfl rfl
      · exact .rejected _ unfit gone
  | clearing ctx owner hc h =>
      cases h
      refine ⟨?_, .returned _ rfl, nofun⟩
      rcases exec_deleteObject site choice (autoPhotoKey spec owner) with
        same | ⟨there, gone⟩
      · rw [same]
        exact .read rfl rfl
      · exact .deleted ctx _ hc rfl there gone
  | signing ctx owner ref ttl hc howner h row =>
      cases h
      obtain ⟨rows, objects, signed⟩ :=
        exec_presignedURL site choice ref.key ttl .get
      beta_reduce
      cases hr : (site.exec (.presignedURL ref.key ttl .get) choice).2 with
      | error err => exact ⟨.read rows objects, .returned _ rfl, nofun⟩
      | ok url =>
          refine ⟨.read rows objects, .returned _ rfl, ?_⟩
          rintro accurate url' ⟨⟩
          obtain ⟨key, object, satisfies⟩ := accurate owner ref row
          have named : url.key = ref.key := signed url hr
          refine ⟨owner, ref, _, by rw [hc]; exact howner, named.trans key, ?_, ?_, satisfies, rfl,
            rfl⟩
          · rw [rows]
            exact row
          · rw [objects, named]
            exact object

end OwnStep

/-! ### What it means for the rows -/

section Rows

variable {spec : AutoPhotoSpec} {site site' : Site}

theorem RowsAccurate.congr (h : RowsAccurate spec site) (rows : site'.rows = site.rows)
    (objects : site'.objects = site.objects) : RowsAccurate spec site' := by
  intro owner ref hrow
  rw [rows] at hrow
  obtain ⟨key, object, satisfies⟩ := h owner ref hrow
  exact ⟨key, by rw [objects]; exact object, satisfies⟩

/-- No row names an object that does not fit the contract. -/
theorem RowsAccurate.not_named (h : RowsAccurate spec site) {key : String}
    (unfit : ∀ object, site.objects key = some object → ¬ Satisfies spec.contract object)
    (owner : Owner) (ref : FileRef) (hrow : site.rows owner = some (some ref)) : ref.key ≠ key := by
  rintro rfl
  have accurate := h owner ref hrow
  exact unfit _ accurate.object accurate.satisfies

/-- An object that no row names can change. -/
theorem RowsAccurate.setObject (h : RowsAccurate spec site) {key : String}
    (object : Option ObjectMeta)
    (unnamed : ∀ owner ref, site.rows owner = some (some ref) → ref.key ≠ key) :
    RowsAccurate spec (site.setObject key object) := by
  intro owner ref hrow
  have accurate := h owner ref hrow
  refine ⟨accurate.key, ?_, accurate.satisfies⟩
  rw [Site.setObject_objects, Function.update_of_ne (unnamed owner ref hrow)]
  exact accurate.object

theorem RowsAccurate.setRow (h : RowsAccurate spec site) (owner : Owner) (value : Option FileRef)
    (accurate : ∀ ref, value = some ref → Accurate spec site owner ref) :
    RowsAccurate spec (site.setRow owner value) := by
  intro owner' ref hrow
  rw [Site.setRow_rows] at hrow
  by_cases same : owner' = owner
  · subst same
    rw [Function.update_self] at hrow
    obtain ⟨key, object, satisfies⟩ := accurate ref (Option.some.inj hrow)
    exact ⟨key, object, satisfies⟩
  · rw [Function.update_of_ne same] at hrow
    obtain ⟨key, object, satisfies⟩ := h owner' ref hrow
    exact ⟨key, object, satisfies⟩

variable {calls : Nat → Call} {s : Photos}

theorem Free.unnamed {key : String} (free : Free spec calls s key)
    (h : RowsAccurate spec s.shared) (owner : Owner) (ref : FileRef)
    (hrow : s.shared.rows owner = some (some ref)) : ref.key ≠ key := by
  rintro rfl
  exact free.row owner ref (h owner ref hrow).key hrow

variable {c : Call} {op : Op} {p : Program Op.Res Answer}

theorem Effect.rowsAccurate (e : Effect spec s.shared c op site' p)
    (h : RowsAccurate spec s.shared)
    (free : ∀ ctx key, c = .clear ctx → op = .deleteObject key →
      s.shared.objects key = none ∨ Free spec calls s key) : RowsAccurate spec site' := by
  cases e with
  | read rows objects => exact h.congr rows objects
  | stored owner ref accurate set hp =>
      rw [set]
      apply h.setRow
      rintro ref' ⟨⟩
      exact accurate
  | cleared ctx owner hc hop set =>
      rw [set]
      exact h.setRow owner none nofun
  | rejected key unfit set =>
      rw [set]
      exact h.setObject none (h.not_named unfit)
  | deleted ctx key hc hop there set =>
      rw [set]
      rcases free ctx key hc hop with gone | free
      · exact absurd gone there
      · exact h.setObject none (free.unnamed h)

/-- A confirmation only writes what it has found to fit, and then it succeeds. -/
theorem Effect.unharmed {ctx : Option Ctx} {args : AutoPhotoConfirmArgs}
    (e : Effect spec site (.confirm ctx args) op site' p) (h : RowsAccurate spec site)
    (unsuccessful : p.result? ≠ some (.confirmed (.ok ()))) : Unharmed site site' := by
  cases e with
  | read rows objects => exact ⟨rows, fun _ _ _ => by rw [objects]⟩
  | stored owner ref accurate set hp =>
      rw [hp] at unsuccessful
      exact absurd rfl unsuccessful
  | cleared ctx owner hc hop set => cases hc
  | rejected key unfit set =>
      rw [set]
      refine ⟨rfl, ?_⟩
      intro owner ref hrow
      exact Function.update_of_ne (h.not_named unfit owner ref hrow) _ _
  | deleted ctx key hc hop there set => cases hc

end Rows

/-! ### What it means for the other calls -/

section Others

variable {server : Server} {spec : AutoPhotoSpec} {site site' : Site} {c : Call}
  {p : Program Op.Res Answer}

theorem At.congr (h : At server spec site c p) (rows : site'.rows = site.rows)
    (objects : site'.objects = site.objects) : At server spec site' c p := by
  cases h with
  | start h => exact .start h
  | returned a h => exact .returned a h
  | storing ctx args owner ref hc h accurate =>
      obtain ⟨key, object, satisfies⟩ := accurate
      exact .storing ctx args owner ref hc h ⟨key, by rw [objects]; exact object, satisfies⟩
  | rejecting ctx args owner err hc h unfit =>
      exact .rejecting ctx args owner err hc h (by rw [objects]; exact unfit)
  | clearing ctx owner hc h => exact .clearing ctx owner hc h
  | signing ctx owner ref ttl hc howner h row =>
      exact .signing ctx owner ref ttl hc howner h (by rw [rows]; exact row)

/-- An object can change while no call has looked at it; one that does not fit can go. -/
theorem At.setObject (h : At server spec site c p) {key : String} {object : Option ObjectMeta}
    (looked : ∀ owner, key = autoPhotoKey spec owner → Looked spec owner c p → object = none ∧
      ∀ old, site.objects key = some old → ¬ Satisfies spec.contract old) :
    At server spec (site.setObject key object) c p := by
  cases h with
  | start h => exact .start h
  | returned a h => exact .returned a h
  | storing ctx args owner ref hc h accurate =>
      have other : ref.key ≠ key := by
        rintro rfl
        have here : Looked spec owner c p := by
          rw [hc, h]
          exact rfl
        obtain ⟨-, unfit⟩ := looked owner accurate.key here
        exact unfit _ accurate.object accurate.satisfies
      refine .storing ctx args owner ref hc h ⟨accurate.key, ?_, accurate.satisfies⟩
      rw [Site.setObject_objects, Function.update_of_ne other]
      exact accurate.object
  | rejecting ctx args owner err hc h unfit =>
      refine .rejecting ctx args owner err hc h ?_
      intro object' there
      rw [Site.setObject_objects] at there
      by_cases same : autoPhotoKey spec owner = key
      · have here : Looked spec owner c p := by
          rw [hc, h]
          exact rfl
        obtain ⟨rfl, -⟩ := looked owner same.symm here
        rw [same, Function.update_self] at there
        cases there
      · rw [Function.update_of_ne same] at there
        exact unfit object' there
  | clearing ctx owner hc h => exact .clearing ctx owner hc h
  | signing ctx owner ref ttl hc howner h row =>
      exact .signing ctx owner ref ttl hc howner h row

/-- A row can change while no display has looked at it. -/
theorem At.setRow (h : At server spec site c p) (accurate : RowsAccurate spec site)
    {owner : Owner} {value : Option FileRef}
    (looked : ∀ ctx ref, c = .getURL ctx → Looked spec owner c p →
      site.rows owner = some (some ref) → value = some ref) :
    At server spec (site.setRow owner value) c p := by
  cases h with
  | start h => exact .start h
  | returned a h => exact .returned a h
  | storing ctx args owner ref hc h accurate =>
      obtain ⟨key, object, satisfies⟩ := accurate
      exact .storing ctx args owner ref hc h ⟨key, object, satisfies⟩
  | rejecting ctx args owner err hc h unfit => exact .rejecting ctx args owner err hc h unfit
  | clearing ctx owner hc h => exact .clearing ctx owner hc h
  | signing ctx owner' ref ttl hc howner h row =>
      refine .signing ctx owner' ref ttl hc howner h ?_
      rw [Site.setRow_rows]
      by_cases same : owner' = owner
      · subst same
        have here : Looked spec owner' c p := by
          rw [hc, h]
          exact (accurate owner' ref row).key
        rw [Function.update_self, looked ctx ref hc here row]
      · rw [Function.update_of_ne same]
        exact row

/-- Two references that describe the object of one owner are the same. -/
theorem Accurate.unique {owner : Owner} {ref ref' : FileRef} (h : Accurate spec site owner ref)
    (h' : Accurate spec site owner ref') : ref = ref' := by
  obtain ⟨key, contentType, size⟩ := ref
  obtain ⟨key', contentType', size'⟩ := ref'
  have same : key = key' := h.key.trans h'.key.symm
  have object := h.object.symm.trans ((congrArg site.objects same).trans h'.object)
  cases object
  rw [same]

variable {calls : Nat → Call} {s : Photos} {d : Call} {op : Op} {q : Program Op.Res Answer}

theorem Effect.others {j : Nat} (e : Effect spec s.shared d op site' q)
    (accurate : RowsAccurate spec s.shared)
    (free : ∀ ctx key, d = .clear ctx → op = .deleteObject key →
      s.shared.objects key = none ∨ Free spec calls s key)
    (undisplayed : ∀ ctx owner, d = .clear ctx → op = .updateField none owner →
      ∀ j ctx, calls j = .getURL ctx → ¬ Looked spec owner (calls j) (s.programs j))
    (h : At server spec s.shared (calls j) (s.programs j)) :
    At server spec site' (calls j) (s.programs j) := by
  cases e with
  | read rows objects => exact h.congr rows objects
  | stored owner ref stored set hp =>
      rw [set]
      apply h.setRow accurate
      intro ctx ref' _ _ row
      exact congrArg some (stored.unique (accurate owner ref' row))
  | cleared ctx owner hc hop set =>
      rw [set]
      apply h.setRow accurate
      intro ctx' ref hj looked _
      exact absurd looked (undisplayed ctx owner hc hop j ctx' hj)
  | rejected key unfit set =>
      rw [set]
      exact h.setObject fun _ _ _ => ⟨rfl, unfit⟩
  | deleted ctx key hc hop there set =>
      rw [set]
      rcases free ctx key hc hop with gone | free
      · exact absurd gone there
      · exact h.setObject fun owner hkey looked => absurd looked (free.calls owner j hkey)

end Others

/-! ### Runs -/

section Runs

variable {server : Server} {spec : AutoPhotoSpec} {calls : Nat → Call} {s : Photos}

theorem Undisturbed.deletes {i : Nat} {choice : Option String} {op : Op}
    {rest : op.Res → Program Op.Res Answer} (h : Undisturbed spec calls s (.step i choice))
    (hp : s.programs i = .call op rest) (ctx : Option Ctx) (key : String)
    (hc : calls i = .clear ctx) (hop : op = .deleteObject key) :
    s.shared.objects key = none ∨ Free spec calls s key := by
  subst hop
  simpa [Undisturbed, hc, hp] using h

theorem Undisturbed.clears {i : Nat} {choice : Option String} {op : Op}
    {rest : op.Res → Program Op.Res Answer} (h : Undisturbed spec calls s (.step i choice))
    (hp : s.programs i = .call op rest) (ctx : Option Ctx) (owner : Owner)
    (hc : calls i = .clear ctx) (hop : op = .updateField none owner) :
    ∀ j ctx, calls j = .getURL ctx → ¬ Looked spec owner (calls j) (s.programs j) := by
  subst hop
  simpa [Undisturbed, hc, hp] using h

/-- The rows are accurate, and every call knows what it should. -/
def Inv (server : Server) (spec : AutoPhotoSpec) (calls : Nat → Call) (s : Photos) : Prop :=
  RowsAccurate spec s.shared ∧ ∀ i, At server spec s.shared (calls i) (s.programs i)

theorem Start.inv (h : Start spec calls server s) : Inv server spec calls s :=
  ⟨fun owner ref row => absurd row (h.rows owner ref), fun i => .start (h.programs i)⟩

theorem outside_put (site : Site) (url : PresignedURL) (object : ObjectMeta) :
    site.outside (.put url object) = site ∨
      site.outside (.put url object) = site.setObject url.key (some object) := by
  simp only [Site.outside]
  split
  · exact .inr rfl
  · exact .inl rfl

theorem outside_inv (accurate : RowsAccurate spec s.shared) (event : Site.Event)
    (h : Undisturbed spec calls s (.outside event)) :
    RowsAccurate spec (s.shared.outside event) ∧
      ∀ j, At server spec s.shared (calls j) (s.programs j) →
        At server spec (s.shared.outside event) (calls j) (s.programs j) := by
  cases event with
  | tick d => exact ⟨accurate.congr rfl rfl, fun j hj => hj.congr rfl rfl⟩
  | put url object =>
      rcases outside_put s.shared url object with refused | taken
      · rw [refused]
        exact ⟨accurate, fun j hj => hj⟩
      · rw [taken]
        rcases h with same | free
        · have unchanged : (s.shared.setObject url.key (some object)).objects =
              s.shared.objects := by
            rw [Site.setObject_objects, ← same, Function.update_eq_self]
          exact ⟨accurate.congr rfl unchanged, fun j hj => hj.congr rfl unchanged⟩
        · refine ⟨accurate.setObject _ (free.unnamed accurate), ?_⟩
          intro j hj
          exact hj.setObject fun owner hkey looked => absurd looked (free.calls owner j hkey)

theorem Inv.step (limit : 0 < spec.contract.maxSize) (inv : Inv server spec calls s) (a : Step)
    (h : Undisturbed spec calls s a) : Inv server spec calls (s.step a).1 := by
  apply Threads.act_inv (RowsAccurate spec) (fun i site p => At server spec site (calls i) p)
    (Undisturbed spec calls) _ _ _ inv a h
  · intro s i choice op rest rows here hp h
    have sound := here.step choice limit
    exact ⟨sound.effect.rowsAccurate rows (h.deletes hp), sound.at'⟩
  · intro s i choice op rest j rows here hp h _ there
    have sound := here.step choice limit
    exact sound.effect.others rows (h.deletes hp) (h.clears hp) there
  · intro s event rows h
    exact outside_inv rows event h

theorem Inv.upheld (limit : 0 < spec.contract.maxSize) (inv : Inv server spec calls s) (a : Step) :
    Upheld spec calls s a := by
  cases a with
  | outside event => exact ⟨nofun, nofun⟩
  | step i choice =>
      cases hp : s.programs i with
      | done r =>
          have still : s.step (.step i choice) = (s, none) := Threads.act_done hp
          constructor
          · rw [still]
            exact nofun
          · intro i' choice' ctx args h hc unsuccessful
            rw [still]
            exact ⟨rfl, fun _ _ _ => rfl⟩
      | call op rest =>
          have ran : s.step (.step i choice) = _ := Threads.act_call (M := siteMachine) hp
          have here := inv.2 i
          rw [hp] at here
          have sound := here.step choice limit
          constructor
          · intro j url finished
            rw [ran] at finished ⊢
            obtain ⟨answer, hanswer, eq⟩ := Option.map_eq_some_iff.mp finished
            cases eq
            exact sound.served inv.1 url hanswer
          · intro j choice' ctx args eq hc unsuccessful
            cases eq
            rw [ran] at unsuccessful ⊢
            simp only [Function.update_self] at unsuccessful
            have effect := sound.effect
            rw [hc] at effect
            exact effect.unharmed inv.1 unsuccessful

/-- In an undisturbed run every step keeps the promise. -/
theorem served_along (server : Server) (spec : AutoPhotoSpec) (calls : Nat → Call)
    (limit : 0 < spec.contract.maxSize) (s : Photos) (start : Start spec calls server s)
    (as : List Step) (undisturbed : Along Photos.step (Undisturbed spec calls) s as) :
    Along Photos.step (Upheld spec calls) s as := by
  apply Along.strengthen (I := Inv server spec calls) _ start.inv undisturbed
  intro s a inv h
  exact ⟨inv.step limit a h, inv.upheld limit a⟩

/-- The condition on uploads cannot be left out: whatever else replaces an object that a row
names is displayed to the next who asks. -/
theorem not_upheld_of_replaced {i : Nat} {ctx : Option Ctx} {owner : Owner} {ref : FileRef}
    {url : PresignedURL} {object : ObjectMeta}
    (bound : server.objectStore spec.storeBinding = .ok ()) (hi : calls i = .getURL ctx)
    (howner : autoPhotoOwner ctx = .ok owner)
    (hp : s.programs i = (AutoPhotoGetURL server spec ctx).map .displayed)
    (row : s.shared.rows owner = some (some ref)) (named : ref.key ≠ "")
    (same : url.key = ref.key) (issued : url ∈ s.shared.issued) (put : url.method = .put) (live : s.shared.clock < url.expires)
    (other : object ≠ ⟨ref.size, ref.contentType⟩) :
    ¬ Along Photos.step (Upheld spec calls) s
      [.outside (.put url object), .step i none, .step i none] := by
  intro along
  obtain ⟨-, -, last, -⟩ := along
  have taken : s.step (.outside (.put url object)) =
      (⟨s.shared.setObject url.key (some object), s.programs⟩, none) := by
    simp [Photos.step, Threads.act, siteMachine, Site.outside, issued, put, live]
  let ttl := if spec.getTTL = 0 then defaultAutoPhotoGetTTL else spec.getTTL
  let site := s.shared.setObject url.key (some object)
  have selected : Photos.step ⟨site, s.programs⟩ (.step i none) =
      (⟨site, Function.update s.programs i ((signDisplay ref.key ttl).map .displayed)⟩, none) := by
    simp [Photos.step, Threads.act, hp, AutoPhotoGetURL, howner, siteMachine, Site.exec, site, row,
      named, bound, signDisplay, ttl]
  let signing : Photos :=
    ⟨site, Function.update s.programs i ((signDisplay ref.key ttl).map .displayed)⟩
  have signed : (signing.step (.step i none)).2 =
      some (i, .displayed (.ok (some ⟨.get, ref.key, s.shared.clock + ttl⟩))) := by
    simp [Photos.step, Threads.act, signDisplay, siteMachine, Site.exec, signing, site,
      Site.setObject]
  have unchanged : (signing.step (.step i none)).1.shared.rows = s.shared.rows ∧
      (signing.step (.step i none)).1.shared.objects ref.key = some object := by
    simp [Photos.step, Threads.act, signDisplay, siteMachine, Site.exec, signing, site, same]
  rw [taken, selected] at last
  obtain ⟨owner', ref', object', howner', -, row', there, -, size, contentType⟩ :=
    last.served i _ signed
  have caller : owner' = owner := by
    rw [hi] at howner'
    exact Except.ok.inj (howner'.symm.trans howner)
  have named' : ref' = ref := by
    rw [unchanged.1, caller, row] at row'
    exact (Option.some.inj (Option.some.inj row')).symm
  have found : object' = object := Option.some.inj (there.symm.trans unchanged.2)
  apply other
  rw [← found, ← named', ← size, ← contentType]

end Runs

/-! ### A host's profile photo -/

def profilePhoto : AutoPhotoSpec :=
  { table := "host"
    field := "profile_photo"
    storeBinding := "object_store"
    contract := { maxSize := 2000000, accept := [⟨"image", "*"⟩] }
    putTTL := 0
    getTTL := 0 }

def pilot : Server := { objectStore := fun _ => .ok (), quoted := id }

def host : Ctx :=
  { actor := ActorUser, user := some ⟨1, 1, []⟩, tenant := some ⟨1⟩, now := none }

def photoKey : String := "host/profile_photo/org-1/user-1"

def upload : PresignedURL := ⟨.put, photoKey, defaultAutoPhotoPutTTL⟩

/-- The host uploads a photo, confirms it and displays it. -/
def hostCalls : Nat → Call
  | 0 => .request host ⟨"image/png", 1000⟩
  | 1 => .confirm host ⟨photoKey⟩
  | _ => .getURL host

def onboarded : Photos where
  shared := { objects := fun _ => none, rows := fun _ => some none, issued := [], clock := 0 }
  programs i := (hostCalls i).program pilot profilePhoto

def confirmed : List Step :=
  [.step 0 none, .outside (.put upload ⟨1000, "image/png"⟩), .step 1 none, .step 1 none]

def displayed : List Step := [.step 2 none, .step 2 none]

theorem served_along_host :
    Along Photos.step (Upheld profilePhoto hostCalls) onboarded (confirmed ++ displayed) := by
  apply served_along pilot profilePhoto hostCalls
  · decide
  · exact ⟨fun _ => rfl, nofun⟩
  · refine ⟨trivial, .inr ⟨nofun, ?_⟩, trivial, trivial, trivial, trivial, trivial⟩
    intro owner i _ looked
    match i with
    | 0 | 1 | _ + 2 => exact looked

/-- The same with another upload through the URL that is still good. -/
def replaced : List Step := confirmed ++ .outside (.put upload ⟨90000000, "text/html"⟩) :: displayed

theorem replaced_photo_displayed :
    ¬ ∀ (server : Server) (spec : AutoPhotoSpec) (calls : Nat → Call) (s : Photos) (as : List Step),
      0 < spec.contract.maxSize → spec.contract.accept ≠ [] → Start spec calls server s →
        Along Photos.step (Upheld spec calls) s as := by
  intro promise
  have along := promise pilot profilePhoto hostCalls onboarded replaced (by decide) nofun
    ⟨fun _ => rfl, nofun⟩
  obtain ⟨-, -, -, -, -, -, last, -⟩ := along
  obtain ⟨owner, ref, object, -, -, -, there, ⟨small, -⟩, -, -⟩ :=
    last.served 2 ⟨.get, photoKey, defaultAutoPhotoGetTTL⟩ rfl
  obtain rfl : ⟨90000000, "text/html"⟩ = object := Option.some.inj there
  revert small
  decide

end Lazuli.Storage
