import Lazuli.General.Text
import Lazuli.Runtime.Value

/-!
Keys of the query cache (`runtime/go/lazuli/cache_key.go`).

A key is the query's name, the tenant, the kind of actor, the user and a hash of the
arguments, joined with `|`. Encoding and hash are a parameter: they may fail, two
arguments with one hash are equal, and a hash is written in hexadecimal digits, hence
without `|`. The name of a query is an identifier and has none either, so a key can be read
back from both ends, whatever text the actor is.
-/

namespace Lazuli.Runtime

open Lazuli.General

/-- `hashArgs`: `none` is an argument that does not encode. -/
structure ArgsHash (A : Type) where
  hashArgs : A → Option String
  injective : ∀ a b h, hashArgs a = some h → hashArgs b = some h → a = b
  noBar : ∀ a h, hashArgs a = some h → '|' ∉ h.toList

/-- A query's name. -/
structure QueryName where
  text : String
  noBar : '|' ∉ text.toList

def keyTenant (ctx : Option Ctx) : String :=
  match ctx.bind Ctx.tenant with
  | some tenant => "t" ++ toString tenant.orgID
  | none => "t-"

/-- A context that nobody filled in counts as anonymous. -/
def keyActor (ctx : Option Ctx) : String :=
  match ctx with
  | some ctx => if ctx.actor ≠ "" then ctx.actor else ActorAnonymous
  | none => ActorAnonymous

def keyUser (ctx : Option Ctx) : String :=
  match ctx.bind Ctx.user with
  | some user => "u" ++ toString user.id
  | none => "u-"

def cacheKeyFor {A : Type} (H : ArgsHash A) (ctx : Option Ctx) (queryName : QueryName)
    (args : A) : Option String :=
  (H.hashArgs args).map fun argsHash =>
    queryName.text ++ "|" ++ keyTenant ctx ++ "|" ++ keyActor ctx ++ "|" ++ keyUser ctx ++ "|" ++
      argsHash

/-! ### Reading a key back -/

section Key

variable {A : Type} {H : ArgsHash A} {ctx ctx' : Option Ctx} {q q' : QueryName} {a a' : A}
  {key : String}

/-- The part of a key before the first `|`. -/
def keyName (key : String) : List Char := key.toList.takeWhile (· ≠ '|')

theorem keyName_cacheKeyFor (h : cacheKeyFor H ctx q a = some key) :
    keyName key = q.text.toList := by
  obtain ⟨hash, -, rfl⟩ := Option.map_eq_some_iff.mp h
  have hname : ∀ c ∈ q.text.toList, decide (c ≠ '|') = true := by
    intro c hc
    apply decide_eq_true
    rintro rfl
    exact q.noBar hc
  unfold keyName
  simp only [String.toList_append, List.append_assoc]
  rw [List.takeWhile_append_of_pos hname]
  simp

/-- Two queries with a common key have the same name. -/
theorem queryName_eq_of_key (h : cacheKeyFor H ctx q a = some key)
    (h' : cacheKeyFor H ctx' q' a' = some key) : q.text = q'.text :=
  String.toList_injective ((keyName_cacheKeyFor h).symm.trans (keyName_cacheKeyFor h'))

theorem QueryName.eq_of_text {q q' : QueryName} (h : q.text = q'.text) : q = q' := by
  cases q
  cases h
  rfl

theorem bar_notMem_toString (n : Int) : '|' ∉ (toString n).toList := by
  intro h
  rcases Text.isDigit_of_mem_toString_int h with digit | sign
  · cases digit
  · cases sign

theorem bar_notMem_keyTenant (ctx : Option Ctx) : '|' ∉ (keyTenant ctx).toList := by
  unfold keyTenant
  split
  · rw [String.toList_append, List.mem_append, not_or]
    exact ⟨by decide, bar_notMem_toString _⟩
  · decide

theorem bar_notMem_keyUser (ctx : Option Ctx) : '|' ∉ (keyUser ctx).toList := by
  unfold keyUser
  split
  · rw [String.toList_append, List.mem_append, not_or]
    exact ⟨by decide, bar_notMem_toString _⟩
  · decide

/-- A number behind a letter is not the letter with a dash. -/
theorem letter_number_ne_dash (letter : String) (n : Int) : letter ++ toString n ≠ letter ++ "-" := by
  intro h
  have digits := String.append_right_inj letter |>.mp h
  exact Text.toString_int_ne_sign n (congrArg String.toList digits)

theorem tenant_eq_of_keyTenant (h : keyTenant ctx = keyTenant ctx') :
    ctx.bind Ctx.tenant = ctx'.bind Ctx.tenant := by
  unfold keyTenant at h
  cases hctx : ctx.bind Ctx.tenant with
  | none =>
      cases hctx' : ctx'.bind Ctx.tenant with
      | none => rfl
      | some tenant =>
          rw [hctx, hctx'] at h
          exact absurd h.symm (letter_number_ne_dash "t" _)
  | some tenant =>
      cases hctx' : ctx'.bind Ctx.tenant with
      | none =>
          rw [hctx, hctx'] at h
          exact absurd h (letter_number_ne_dash "t" _)
      | some tenant' =>
          rw [hctx, hctx'] at h
          have orgs := Text.toString_int_injective (String.append_right_inj "t" |>.mp h)
          cases tenant
          cases tenant'
          exact congrArg (fun n => some (Tenant.mk n)) orgs

theorem userID_eq_of_keyUser (h : keyUser ctx = keyUser ctx') :
    (ctx.bind Ctx.user).map User.id = (ctx'.bind Ctx.user).map User.id := by
  unfold keyUser at h
  cases hctx : ctx.bind Ctx.user with
  | none =>
      cases hctx' : ctx'.bind Ctx.user with
      | none => rfl
      | some user =>
          rw [hctx, hctx'] at h
          exact absurd h.symm (letter_number_ne_dash "u" _)
  | some user =>
      cases hctx' : ctx'.bind Ctx.user with
      | none =>
          rw [hctx, hctx'] at h
          exact absurd h (letter_number_ne_dash "u" _)
      | some user' =>
          rw [hctx, hctx'] at h
          exact congrArg some (Text.toString_int_injective (String.append_right_inj "u" |>.mp h))

/-- What two contexts with a common key have in common. -/
structure SameKey (ctx ctx' : Option Ctx) : Prop where
  tenant : ctx.bind Ctx.tenant = ctx'.bind Ctx.tenant
  actor : keyActor ctx = keyActor ctx'
  userID : (ctx.bind Ctx.user).map User.id = (ctx'.bind Ctx.user).map User.id

theorem toList_joined (name tenant actor user hash : String) :
    (name ++ "|" ++ tenant ++ "|" ++ actor ++ "|" ++ user ++ "|" ++ hash).toList =
      name.toList ++ '|' :: (tenant.toList ++ '|' :: (actor.toList ++ '|' ::
        (user.toList ++ '|' :: hash.toList))) := by
  simp

/-- A key of one query, read back: name and tenant from the left, hash and user from the
right, and the actor is what is left in between. -/
theorem eq_of_key (h : cacheKeyFor H ctx q a = some key)
    (h' : cacheKeyFor H ctx' q a' = some key) : a = a' ∧ SameKey ctx ctx' := by
  obtain ⟨hash, hhash, rfl⟩ := Option.map_eq_some_iff.mp h
  obtain ⟨hash', hhash', heq⟩ := Option.map_eq_some_iff.mp h'
  have hlist := congrArg String.toList heq
  rw [toList_joined, toList_joined] at hlist
  obtain ⟨htenant, hrest⟩ := Text.append_cons_inj_left (bar_notMem_keyTenant ctx')
    (bar_notMem_keyTenant ctx) (List.cons.inj (List.append_cancel_left hlist)).2
  have hright : ((keyActor ctx').toList ++ '|' :: (keyUser ctx').toList) ++ '|' :: hash'.toList =
      ((keyActor ctx).toList ++ '|' :: (keyUser ctx).toList) ++ '|' :: hash.toList := by
    simpa using hrest
  obtain ⟨hmiddle, hhashes⟩ := Text.append_cons_inj_right (H.noBar a' hash' hhash')
    (H.noBar a hash hhash) hright
  obtain ⟨hactor, huser⟩ := Text.append_cons_inj_right (bar_notMem_keyUser ctx')
    (bar_notMem_keyUser ctx) hmiddle
  rw [← String.toList_injective hhashes] at hhash
  exact ⟨H.injective a a' hash' hhash hhash',
    { tenant := (tenant_eq_of_keyTenant (String.toList_injective htenant)).symm
      actor := (String.toList_injective hactor).symm
      userID := (userID_eq_of_keyUser (String.toList_injective huser)).symm }⟩

end Key

end Lazuli.Runtime
