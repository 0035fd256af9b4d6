import Mathlib
import Lazuli.General.Transition

/-!
Automatic refresh of the access token (`runtime/ts/lazuli/src/client.ts`).

Any number of requests share one client. A request that is answered with an expired token waits
for the refresh that is running, or starts one, and is sent again with the token of the client.
Answers, the end of a refresh, the clearing of its promise and the requests that wake up are
separate steps, in any order; the application may set the token between any two of them.

The client does not look whether the token that expired is still its own. So an answer that comes
late starts a refresh for a token that has had one, and a request that wakes up after a logout is
sent with the token that expired.
-/

namespace Lazuli.Sdk.AutoRefresh

open General

/-! ### The client -/

/-- One call of `fetch`: the token it carries, and that of the client at that moment. -/
structure Send (Token : Type) where
  carried : Option Token
  current : Option Token

/-- The response of a send, or the error that it was answered with. -/
inductive Answer where
  | ok (send : Nat)
  | error (request send : Nat)
  deriving DecidableEq

inductive RequestPhase where
  | sent
  | waiting (refresh : Nat)
  | resent
  | answered (answer : Answer)
  deriving DecidableEq

/-- `waited` is the refresh that the request has waited for, if any. -/
structure Request (Token : Type) where
  sends : List (Send Token)
  phase : RequestPhase
  waited : Option Nat

/-- `settled` until the promise is cleared; `ok` says whether there is a new token. -/
inductive RefreshPhase where
  | calling
  | settled (ok : Bool)
  | done (ok : Bool)
  deriving DecidableEq

/-- `rejected` is the token of the request that has started the refresh. -/
structure Refresh (Token : Type) where
  rejected : Option Token
  phase : RefreshPhase

/-- All requests and refreshes so far. `refreshPromise` is the number of the last refresh. -/
structure Client (Token : Type) where
  authToken : Option Token := none
  refreshPromise : Option Nat := none
  refreshes : List (Refresh Token) := []
  requests : List (Request Token) := []

/-- `expired` is a 401 with the code `token_expired`, `failed` any other error. -/
inductive Reply where
  | ok
  | expired
  | unauthorized
  | failed
  deriving DecidableEq

/-- `accepted` unless `onRefresh` throws. -/
inductive RefreshReply (Token : Type) where
  | token (t : Token) (accepted : Bool)
  | failed

inductive Event (Token : Type) where
  | setAuthToken (token : Option Token)
  /-- A request, perhaps with a token in its own headers. -/
  | post (header : Option Token)
  | reply (request : Nat) (reply : Reply)
  | refreshReply (reply : RefreshReply Token)
  /-- The `finally` of the refresh. -/
  | clear
  /-- A waiting request goes on. -/
  | wake (request : Nat)
  | retryReply (request : Nat) (reply : Reply)

variable {Token : Type}

def Client.modify (c : Client Token) (i : Nat) (f : Request Token → Request Token) : Client Token :=
  { c with requests := c.requests.modify i f }

def Request.answer (answer : Answer) (r : Request Token) : Request Token :=
  { r with phase := .answered answer }

def Request.wait (k : Nat) (r : Request Token) : Request Token :=
  { r with phase := .waiting k, waited := some k }

/-- The second send: the token of the client goes over that of the first. -/
def Request.resend (current : Option Token) (r : Request Token) : Request Token :=
  { r with
    sends := r.sends ++ [⟨current.or (r.sends.head?.bind (·.carried)), current⟩]
    phase := .resent }

/-- The running refresh, or a new one that the request starts. -/
def Client.refreshAuthToken (c : Client Token) (rejected : Option Token) : Nat × Client Token :=
  match c.refreshPromise with
  | some k => (k, c)
  | none => (c.refreshes.length,
      { c with
        refreshPromise := some c.refreshes.length
        refreshes := c.refreshes ++ [⟨rejected, .calling⟩] })

def Client.setPhase (c : Client Token) (k : Nat) (phase : RefreshPhase) : Client Token :=
  { c with refreshes := c.refreshes.modify k fun r => { r with phase := phase } }

def firstReply (autoRefresh : Bool) (c : Client Token) (i : Nat) (r : Request Token) :
    Reply → Client Token
  | .ok => c.modify i (·.answer (.ok 0))
  | .expired =>
      if autoRefresh then
        let (k, c) := c.refreshAuthToken (r.sends.head?.bind (·.carried))
        c.modify i (·.wait k)
      else c.modify i (·.answer (.error i 0))
  | .unauthorized | .failed => c.modify i (·.answer (.error i 0))

def settleRefresh (c : Client Token) (k : Nat) : RefreshReply Token → Client Token
  | .token t accepted => { c.setPhase k (.settled accepted) with authToken := some t }
  | .failed => c.setPhase k (.settled false)

def wake (c : Client Token) (i : Nat) (ok : Bool) : Client Token :=
  if ok then c.modify i (·.resend c.authToken) else c.modify i (·.answer (.error i 0))

/-- A second 401 is answered with the first error. -/
def secondReply (c : Client Token) (i : Nat) : Reply → Client Token
  | .ok => c.modify i (·.answer (.ok 1))
  | .expired | .unauthorized => c.modify i (·.answer (.error i 0))
  | .failed => c.modify i (·.answer (.error i 1))

def refreshPhase (c : Client Token) (k : Nat) : Option RefreshPhase :=
  (c.refreshes[k]?).map (·.phase)

def requestPhase (c : Client Token) (i : Nat) : Option RequestPhase :=
  (c.requests[i]?).map (·.phase)

/-- An event that cannot happen changes nothing. -/
def next (autoRefresh : Bool) (c : Client Token) : Event Token → Client Token
  | .setAuthToken token => { c with authToken := token }
  | .post header =>
      { c with requests := c.requests ++ [⟨[⟨header.or c.authToken, c.authToken⟩], .sent, none⟩] }
  | .reply i reply =>
      match c.requests[i]? with
      | some r => if r.phase = .sent then firstReply autoRefresh c i r reply else c
      | none => c
  | .refreshReply reply =>
      match c.refreshPromise with
      | some k => if refreshPhase c k = some .calling then settleRefresh c k reply else c
      | none => c
  | .clear =>
      match c.refreshPromise with
      | some k =>
          match refreshPhase c k with
          | some (.settled ok) => { c.setPhase k (.done ok) with refreshPromise := none }
          | _ => c
      | none => c
  | .wake i =>
      match requestPhase c i with
      | some (.waiting k) =>
          match refreshPhase c k with
          | some (.done ok) => wake c i ok
          | _ => c
      | _ => c
  | .retryReply i reply =>
      match c.requests[i]? with
      | some r => if r.phase = .resent then secondReply c i reply else c
      | none => c

def step (autoRefresh : Bool) (c : Client Token) (e : Event Token) : Client Token × Unit :=
  (next autoRefresh c e, ())

/-! ### Safety -/

/-- The token that a refresh was started for. -/
def rejectedAt (c : Client Token) (k : Nat) : Option (Option Token) :=
  (c.refreshes[k]?).map (·.rejected)

/-- The refresh has not brought a token. -/
def Failed (c : Client Token) (k : Nat) : Prop :=
  refreshPhase c k = some (.settled false) ∨ refreshPhase c k = some (.done false)

/-- Two refreshes for one token. -/
def Repeated (c : Client Token) : Prop :=
  ∃ j k t, j ≠ k ∧ rejectedAt c j = some (some t) ∧ rejectedAt c k = some (some t)

/-- A second send with a token that is not the client's. -/
def Stale (c : Client Token) : Prop :=
  ∃ (i : Nat) (r : Request Token) (first second : Send Token) (rest : List (Send Token)),
    c.requests[i]? = some r ∧ r.sends = first :: second :: rest ∧ second.carried ≠ second.current

structure Safe (autoRefresh : Bool) (c : Client Token) : Prop where
  single : ∀ j k, refreshPhase c j = some .calling → refreshPhase c k = some .calling → j = k
  once : ¬ Repeated c
  twice : ∀ r ∈ c.requests, r.sends.length ≤ 2
  current : ¬ Stale c
  /-- Who has waited for a refresh that failed waits still, or has been answered with the first
  error. -/
  failed : ∀ (i : Nat) (r : Request Token) (k : Nat), c.requests[i]? = some r → r.waited = some k →
    Failed c k → r.phase = .waiting k ∨ r.phase = .answered (.error i 0)
  /-- And who waits still will be, once the refresh is cleared. -/
  cleared : ∀ k ok, refreshPhase c k = some (.settled ok) →
    refreshPhase (next autoRefresh c .clear) k = some (.done ok)
  answered : ∀ i k, requestPhase c i = some (.waiting k) → refreshPhase c k = some (.done false) →
    requestPhase (next autoRefresh c (.wake i)) i = some (.answered (.error i 0))

/-- The token of the first send. -/
def Request.token (r : Request Token) : Option Token := r.sends.head?.bind (·.carried)

/-- An answer that a token is expired comes while no refresh is running only if there has been none
for this token; and a request with a token wakes up after a refresh only if the client has one. -/
def Timely (autoRefresh : Bool) (c : Client Token) : Event Token → Prop
  | .reply i .expired => autoRefresh = true → c.refreshPromise = none →
      ∀ (r : Request Token) (t : Token), c.requests[i]? = some r → r.phase = .sent →
        r.token = some t → ∀ k, rejectedAt c k ≠ some (some t)
  | .wake i => ∀ (r : Request Token) (k : Nat), c.requests[i]? = some r → r.phase = .waiting k →
      refreshPhase c k = some (.done true) → c.authToken = none → r.token = none
  | _ => True

/-! ### The invariant -/

def SentOnce (r : Request Token) : Prop := ∃ first, r.sends = [first]

def SentAgain (r : Request Token) : Prop :=
  ∃ first second, r.sends = [first, second] ∧ second.carried = second.current

/-- What is known of a request in each of its phases. -/
def RequestOk (c : Client Token) (i : Nat) (r : Request Token) : Prop :=
  match r.phase with
  | .sent => SentOnce r ∧ r.waited = none
  | .waiting k => SentOnce r ∧ r.waited = some k
  | .resent => SentAgain r ∧ ∃ k, r.waited = some k ∧ refreshPhase c k = some (.done true)
  | .answered answer => (SentOnce r ∨ SentAgain r) ∧
      ∀ k, r.waited = some k → refreshPhase c k = some (.done true) ∨
        refreshPhase c k = some (.done false) ∧ answer = .error i 0

structure Inv (c : Client Token) : Prop where
  /-- A refresh that is not done is the one that is promised. -/
  promised : ∀ k phase, refreshPhase c k = some phase → (∀ ok, phase ≠ .done ok) →
    c.refreshPromise = some k
  requests : ∀ i r, c.requests[i]? = some r → RequestOk c i r
  once : ¬ Repeated c

section Phases

variable {c d : Client Token} {i j k : Nat} {r : Request Token} {phase : RefreshPhase}
  {f : Request Token → Request Token}

theorem refreshPhase_setPhase : refreshPhase (c.setPhase k phase) j =
    if k = j then (refreshPhase c j).map fun _ => phase else refreshPhase c j := by
  unfold refreshPhase Client.setPhase
  rw [List.getElem?_modify]
  split <;> cases c.refreshes[j]? <;> rfl

theorem rejectedAt_setPhase : rejectedAt (c.setPhase k phase) j = rejectedAt c j := by
  unfold rejectedAt Client.setPhase
  rw [List.getElem?_modify]
  cases c.refreshes[j]? <;> by_cases h : k = j <;> simp [h]

theorem requests_modify : (c.modify i f).requests[j]? =
    if i = j then (c.requests[j]?).map f else c.requests[j]? := by
  unfold Client.modify
  rw [List.getElem?_modify]
  split <;> simp

theorem requestPhase_modify : requestPhase (c.modify i f) i =
    (c.requests[i]?).map fun r => (f r).phase := by
  unfold requestPhase
  rw [requests_modify, if_pos rfl, Option.map_map]
  rfl

/-- What is done of the refreshes stays done. -/
def Grows (c d : Client Token) : Prop :=
  ∀ k ok, refreshPhase c k = some (.done ok) → refreshPhase d k = some (.done ok)

theorem RequestOk.grows (h : RequestOk c i r) (hgrows : Grows c d) : RequestOk d i r := by
  unfold RequestOk at h ⊢
  cases hphase : r.phase with
  | sent => simpa only [hphase] using h
  | waiting k => simpa only [hphase] using h
  | resent =>
      simp only [hphase] at h ⊢
      obtain ⟨hsends, k, hwaited, hdone⟩ := h
      exact ⟨hsends, k, hwaited, hgrows k true hdone⟩
  | answered answer =>
      simp only [hphase] at h ⊢
      obtain ⟨hsends, hwaited⟩ := h
      refine ⟨hsends, fun k hk => ?_⟩
      rcases hwaited k hk with hdone | ⟨hdone, hanswer⟩
      · exact .inl (hgrows k true hdone)
      · exact .inr ⟨hgrows k false hdone, hanswer⟩

theorem RequestOk.sends (h : RequestOk c i r) : SentOnce r ∨ SentAgain r := by
  unfold RequestOk at h
  split at h
  · exact .inl h.1
  · exact .inl h.1
  · exact .inr h.1
  · exact h.1

end Phases

/-- **What the invariant gives.** -/
theorem Inv.safe {autoRefresh : Bool} {c : Client Token} (h : Inv c) : Safe autoRefresh c where
  single j k hj hk := by
    have hj := h.promised j _ hj (by simp)
    have hk := h.promised k _ hk (by simp)
    exact Option.some_inj.mp (hj.symm.trans hk)
  once := h.once
  twice r hr := by
    obtain ⟨i, hi⟩ := List.mem_iff_getElem?.mp hr
    rcases (h.requests i r hi).sends with ⟨first, hsends⟩ | ⟨first, second, hsends, -⟩
    · simp [hsends]
    · simp [hsends]
  current := by
    rintro ⟨i, r, first, second, rest, hi, hsends, hne⟩
    rcases (h.requests i r hi).sends with ⟨x, hx⟩ | ⟨x, y, hxy, hcarried⟩
    · cases hsends.symm.trans hx
    · cases hsends.symm.trans hxy
      exact hne hcarried
  failed i r k hi hwaited hfailed := by
    have hok := h.requests i r hi
    unfold RequestOk at hok
    unfold Failed at hfailed
    split at hok
    · cases hok.2.symm.trans hwaited
    · cases hok.2.symm.trans hwaited
      exact .inl ‹_›
    · obtain ⟨-, j, hj, hdone⟩ := hok
      obtain rfl := Option.some_inj.mp (hj.symm.trans hwaited)
      simp [hdone] at hfailed
    · rcases hok.2 k hwaited with hdone | ⟨-, rfl⟩
      · simp [hdone] at hfailed
      · exact .inr ‹_›
  cleared k ok hsettled := by
    have hpromise := h.promised k _ hsettled (by simp)
    have hphase : refreshPhase (c.setPhase k (.done ok)) k = some (.done ok) := by
      rw [refreshPhase_setPhase, if_pos rfl, hsettled, Option.map_some]
    simp only [next, hpromise, hsettled]
    exact hphase
  answered i k hwaiting hdone := by
    simp only [next, hwaiting, hdone, wake]
    obtain ⟨r, hr, -⟩ := Option.map_eq_some_iff.mp hwaiting
    rw [if_neg (by simp), requestPhase_modify, hr]
    rfl

/-! ### Steps -/

/-- What an event does that can happen. -/
inductive Move (autoRefresh : Bool) (c : Client Token) : Event Token → Client Token → Prop where
  | setAuthToken (token : Option Token) :
      Move autoRefresh c (.setAuthToken token) { c with authToken := token }
  | post (header : Option Token) :
      Move autoRefresh c (.post header) { c with
        requests := c.requests ++ [⟨[⟨header.or c.authToken, c.authToken⟩], .sent, none⟩] }
  | reply {i : Nat} {r : Request Token} {reply : Reply} :
      c.requests[i]? = some r → r.phase = .sent →
      Move autoRefresh c (.reply i reply) (firstReply autoRefresh c i r reply)
  | refreshReply {k : Nat} {reply : RefreshReply Token} :
      c.refreshPromise = some k → refreshPhase c k = some .calling →
      Move autoRefresh c (.refreshReply reply) (settleRefresh c k reply)
  | clear {k : Nat} {ok : Bool} :
      c.refreshPromise = some k → refreshPhase c k = some (.settled ok) →
      Move autoRefresh c .clear { c.setPhase k (.done ok) with refreshPromise := none }
  | wake {i k : Nat} {r : Request Token} {ok : Bool} :
      c.requests[i]? = some r → r.phase = .waiting k → refreshPhase c k = some (.done ok) →
      Move autoRefresh c (.wake i) (wake c i ok)
  | retryReply {i : Nat} {r : Request Token} {reply : Reply} :
      c.requests[i]? = some r → r.phase = .resent →
      Move autoRefresh c (.retryReply i reply) (secondReply c i reply)

theorem next_move (autoRefresh : Bool) (c : Client Token) (e : Event Token) :
    next autoRefresh c e = c ∨ Move autoRefresh c e (next autoRefresh c e) := by
  cases e with
  | setAuthToken token => exact .inr (.setAuthToken token)
  | post header => exact .inr (.post header)
  | reply i reply =>
      simp only [next]
      cases hr : c.requests[i]? with
      | none => exact .inl rfl
      | some r =>
          dsimp only
          split
          · exact .inr (.reply hr ‹_›)
          · exact .inl rfl
  | refreshReply reply =>
      simp only [next]
      cases hpromise : c.refreshPromise with
      | none => exact .inl rfl
      | some k =>
          dsimp only
          split
          · exact .inr (.refreshReply hpromise ‹_›)
          · exact .inl rfl
  | clear =>
      simp only [next]
      cases hpromise : c.refreshPromise with
      | none => exact .inl rfl
      | some k =>
          dsimp only
          split
          · exact .inr (.clear hpromise ‹_›)
          · exact .inl rfl
  | wake i =>
      simp only [next]
      split
      · rename_i k hwaiting
        obtain ⟨r, hr, hphase⟩ := Option.map_eq_some_iff.mp hwaiting
        split
        · exact .inr (.wake hr hphase ‹_›)
        · exact .inl rfl
      · exact .inl rfl
  | retryReply i reply =>
      simp only [next]
      cases hr : c.requests[i]? with
      | none => exact .inl rfl
      | some r =>
          dsimp only
          split
          · exact .inr (.retryReply hr ‹_›)
          · exact .inl rfl


section Steps

variable {autoRefresh : Bool} {c d : Client Token} {i j k : Nat} {r : Request Token}
  {f : Request Token → Request Token} {phase : RefreshPhase}

/-- One request changes. -/
theorem Inv.modify (h : Inv c) (hok : ∀ r, c.requests[i]? = some r → RequestOk c i (f r)) :
    Inv (c.modify i f) where
  promised := h.promised
  once := h.once
  requests j r hr := by
    rw [requests_modify] at hr
    split at hr
    · rename_i hij
      subst hij
      obtain ⟨old, hold, rfl⟩ := Option.map_eq_some_iff.mp hr
      exact hok old hold
    · exact h.requests j r hr

/-- The refreshes change. -/
theorem Inv.refresh (h : Inv c) (hrequests : d.requests = c.requests) (hgrows : Grows c d)
    (hpromised : ∀ k phase, refreshPhase d k = some phase → (∀ ok, phase ≠ .done ok) →
      d.refreshPromise = some k) (honce : ¬ Repeated d) : Inv d where
  promised := hpromised
  once := honce
  requests i r hr := (h.requests i r (hrequests ▸ hr)).grows hgrows

theorem sent_ok (h : RequestOk c i r) (hphase : r.phase = .sent) : SentOnce r ∧ r.waited = none := by
  unfold RequestOk at h
  simpa only [hphase] using h

theorem waiting_ok (h : RequestOk c i r) (hphase : r.phase = .waiting k) :
    SentOnce r ∧ r.waited = some k := by
  unfold RequestOk at h
  simpa only [hphase] using h

theorem resent_ok (h : RequestOk c i r) (hphase : r.phase = .resent) :
    SentAgain r ∧ ∃ k, r.waited = some k ∧ refreshPhase c k = some (.done true) := by
  unfold RequestOk at h
  simpa only [hphase] using h

/-- A request that has not waited is answered with anything. -/
theorem answer_sent (h : RequestOk c i r) (hphase : r.phase = .sent) (answer : Answer) :
    RequestOk c i (r.answer answer) := by
  obtain ⟨hsends, hwaited⟩ := sent_ok h hphase
  refine ⟨.inl hsends, fun k hk => ?_⟩
  cases hwaited.symm.trans hk

theorem answer_resent (h : RequestOk c i r) (hphase : r.phase = .resent) (answer : Answer) :
    RequestOk c i (r.answer answer) := by
  obtain ⟨hsends, k, hwaited, hdone⟩ := resent_ok h hphase
  refine ⟨.inr hsends, fun j hj => .inl ?_⟩
  obtain rfl := Option.some_inj.mp (hwaited.symm.trans hj)
  exact hdone

theorem refreshAuthToken_requests (rejected : Option Token) :
    (c.refreshAuthToken rejected).2.requests = c.requests := by
  unfold Client.refreshAuthToken
  split <;> rfl

theorem getElem?_concat {α : Type} (l : List α) (a : α) (j : Nat) :
    (l ++ [a])[j]? = if j = l.length then some a else l[j]? := by
  rcases Nat.lt_trichotomy j l.length with h | h | h
  · rw [List.getElem?_append_left h, if_neg h.ne]
  · subst h
    rw [List.getElem?_concat_length, if_pos rfl]
  · rw [if_neg h.ne', List.getElem?_eq_none h.le, List.getElem?_eq_none]
    simpa using h

/-- The phases after a refresh has begun. -/
theorem refreshPhase_begin {rejected : Option Token} (hnone : c.refreshPromise = none) :
    refreshPhase (c.refreshAuthToken rejected).2 j =
      if j = c.refreshes.length then some .calling else refreshPhase c j := by
  unfold refreshPhase Client.refreshAuthToken
  simp only [hnone]
  rw [getElem?_concat]
  split <;> rfl

theorem rejectedAt_begin {rejected : Option Token} (hnone : c.refreshPromise = none) :
    rejectedAt (c.refreshAuthToken rejected).2 j =
      if j = c.refreshes.length then some rejected else rejectedAt c j := by
  unfold rejectedAt Client.refreshAuthToken
  simp only [hnone]
  rw [getElem?_concat]
  split <;> rfl

theorem refreshPhase_length : refreshPhase c c.refreshes.length = none := by
  rw [refreshPhase, List.getElem?_eq_none (Nat.le_refl _), Option.map_none]

theorem Inv.begin (h : Inv c) {rejected : Option Token}
    (hfirst : c.refreshPromise = none → ∀ t, rejected = some t →
      ∀ k, rejectedAt c k ≠ some (some t)) :
    Inv (c.refreshAuthToken rejected).2 := by
  cases hpromise : c.refreshPromise with
  | some k =>
      have hsame : (c.refreshAuthToken rejected).2 = c := by
        rw [Client.refreshAuthToken, hpromise]
      rwa [hsame]
  | none =>
      refine h.refresh (refreshAuthToken_requests rejected) (fun k ok hdone => ?_)
        (fun k phase hphase hnot => ?_) ?_
      · rw [refreshPhase_begin hpromise, if_neg, hdone]
        rintro rfl
        cases refreshPhase_length.symm.trans hdone
      · rw [refreshPhase_begin hpromise] at hphase
        have hlast : (c.refreshAuthToken rejected).2.refreshPromise = some c.refreshes.length := by
          simp only [Client.refreshAuthToken, hpromise]
        split at hphase
        · rename_i hk
          rw [hlast, hk]
        · cases hpromise.symm.trans (h.promised k phase hphase hnot)
      · rintro ⟨j, k, t, hne, hj, hk⟩
        rw [rejectedAt_begin hpromise] at hj hk
        have hnew := hfirst hpromise t
        split at hj
        · split at hk
          · rename_i hj' hk'
            exact hne (hj'.trans hk'.symm)
          · exact hnew (Option.some_inj.mp hj) k hk
        · split at hk
          · exact hnew (Option.some_inj.mp hk) j hj
          · exact h.once ⟨j, k, t, hne, hj, hk⟩

/-- A phase of the refresh that is promised. -/
theorem Inv.setPhase (h : Inv c) (hpromise : c.refreshPromise = some k)
    (hnot : ∀ ok, refreshPhase c k ≠ some (.done ok)) : Inv (c.setPhase k phase) := by
  refine h.refresh rfl (fun j ok hdone => ?_) (fun j other hphase hopen => ?_) ?_
  · rw [refreshPhase_setPhase, if_neg, hdone]
    rintro rfl
    exact hnot ok hdone
  · rw [refreshPhase_setPhase] at hphase
    split at hphase
    · rename_i hkj
      subst hkj
      exact hpromise
    · exact h.promised j other hphase hopen
  · rintro ⟨i, j, t, hne, hi, hj⟩
    rw [rejectedAt_setPhase] at hi hj
    exact h.once ⟨i, j, t, hne, hi, hj⟩

/-- The promise is cleared with the refresh. -/
theorem Inv.clear (h : Inv c) {ok : Bool} (hpromise : c.refreshPromise = some k)
    (hsettled : refreshPhase c k = some (.settled ok)) :
    Inv { c.setPhase k (.done ok) with refreshPromise := none } := by
  have hset : Inv (c.setPhase k (.done ok)) :=
    h.setPhase hpromise fun ok' hdone => by cases hsettled.symm.trans hdone
  refine ⟨fun j phase hphase hopen => ?_, hset.requests, hset.once⟩
  have hj := hset.promised j phase hphase hopen
  obtain rfl : k = j := Option.some_inj.mp (hpromise.symm.trans hj)
  have hdone : refreshPhase (c.setPhase k (.done ok)) k = some (.done ok) := by
    rw [refreshPhase_setPhase, if_pos rfl, hsettled, Option.map_some]
  exact absurd (Option.some_inj.mp (hphase.symm.trans hdone)) (hopen ok)

theorem Inv.post (h : Inv c) (header : Option Token) :
    Inv { c with requests := c.requests ++ [⟨[⟨header.or c.authToken, c.authToken⟩], .sent, none⟩] } := by
  refine ⟨h.promised, fun i r hr => ?_, h.once⟩
  rw [getElem?_concat] at hr
  split at hr
  · obtain rfl := Option.some_inj.mp hr
    exact ⟨⟨_, rfl⟩, rfl⟩
  · exact h.requests i r hr

theorem Inv.firstReply (h : Inv c) (hr : c.requests[i]? = some r) (hphase : r.phase = .sent)
    (reply : Reply) (htimely : Timely autoRefresh c (.reply i reply)) :
    Inv (firstReply autoRefresh c i r reply) := by
  have hanswer (answer : Answer) : Inv (c.modify i (·.answer answer)) :=
    h.modify fun other hother => by
      obtain rfl := Option.some_inj.mp (hr.symm.trans hother)
      exact answer_sent (h.requests i r hr) hphase answer
  cases reply with
  | ok => exact hanswer _
  | unauthorized => exact hanswer _
  | failed => exact hanswer _
  | expired =>
      cases hauto : autoRefresh with
      | false => exact hanswer _
      | true =>
          have hbegin : Inv (c.refreshAuthToken r.token).2 :=
            h.begin fun hnone t htoken => htimely hauto hnone r t hr hphase htoken
          refine hbegin.modify fun other hother => ?_
          rw [refreshAuthToken_requests] at hother
          obtain rfl := Option.some_inj.mp (hr.symm.trans hother)
          exact ⟨(sent_ok (h.requests i r hr) hphase).1, rfl⟩

theorem Inv.wake (h : Inv c) {ok : Bool} (hr : c.requests[i]? = some r)
    (hphase : r.phase = .waiting k) (hdone : refreshPhase c k = some (.done ok))
    (htimely : Timely autoRefresh c (.wake i)) : Inv (wake c i ok) := by
  obtain ⟨⟨first, hsends⟩, hwaited⟩ := waiting_ok (h.requests i r hr) hphase
  cases ok with
  | false =>
      refine h.modify fun other hother => ?_
      obtain rfl := Option.some_inj.mp (hr.symm.trans hother)
      refine ⟨.inl ⟨first, hsends⟩, fun j hj => .inr ⟨?_, rfl⟩⟩
      obtain rfl := Option.some_inj.mp (hwaited.symm.trans hj)
      exact hdone
  | true =>
      refine h.modify fun other hother => ?_
      obtain rfl := Option.some_inj.mp (hr.symm.trans hother)
      refine ⟨⟨first, _, by rw [Request.resend, hsends]; rfl, ?_⟩, k, hwaited, hdone⟩
      cases hcurrent : c.authToken with
      | some t => rfl
      | none =>
          have htoken := htimely r k hr hphase hdone hcurrent
          rwa [Request.token, hsends] at htoken

theorem Inv.secondReply (h : Inv c) (hr : c.requests[i]? = some r) (hphase : r.phase = .resent)
    (reply : Reply) : Inv (secondReply c i reply) := by
  have hanswer (answer : Answer) : Inv (c.modify i (·.answer answer)) :=
    h.modify fun other hother => by
      obtain rfl := Option.some_inj.mp (hr.symm.trans hother)
      exact answer_resent (h.requests i r hr) hphase answer
  cases reply <;> exact hanswer _

/-- A timely event keeps the invariant. -/
theorem Inv.next (h : Inv c) (e : Event Token) (htimely : Timely autoRefresh c e) :
    Inv (next autoRefresh c e) := by
  have hmove := next_move autoRefresh c e
  generalize AutoRefresh.next autoRefresh c e = d at hmove ⊢
  rcases hmove with rfl | hmove
  · exact h
  · cases hmove with
    | setAuthToken token => exact ⟨h.promised, h.requests, h.once⟩
    | post header => exact h.post header
    | reply hr hphase => exact h.firstReply hr hphase _ htimely
    | refreshReply hpromise hcalling =>
        have hset (phase : RefreshPhase) : Inv (c.setPhase _ phase) :=
          h.setPhase hpromise fun ok hdone => by cases hcalling.symm.trans hdone
        rename_i reply
        cases reply with
        | token t accepted => exact ⟨(hset _).promised, (hset _).requests, (hset _).once⟩
        | failed => exact hset _
    | clear hpromise hsettled => exact h.clear hpromise hsettled
    | wake hr hphase hdone => exact h.wake hr hphase hdone htimely
    | retryReply hr hphase => exact h.secondReply hr hphase _

/-- Refreshes stay, and the sends of a request. -/
structure Extends (c d : Client Token) : Prop where
  refreshes : ∀ k rejected, rejectedAt c k = some rejected → rejectedAt d k = some rejected
  requests : ∀ (i : Nat) (r : Request Token), c.requests[i]? = some r →
    ∃ s : Request Token, d.requests[i]? = some s ∧ r.sends <+: s.sends

theorem Extends.refl (c : Client Token) : Extends c c :=
  ⟨fun _ _ h => h, fun _ r h => ⟨r, h, List.prefix_refl _⟩⟩

theorem extends_modify (hf : ∀ r, r.sends <+: (f r).sends) : Extends c (c.modify i f) := by
  refine ⟨fun _ _ h => h, fun j r hr => ?_⟩
  rw [requests_modify]
  split
  · exact ⟨f r, by rw [hr, Option.map_some], hf r⟩
  · exact ⟨r, hr, List.prefix_refl _⟩

theorem extends_setPhase : Extends c (c.setPhase k phase) :=
  ⟨fun j rejected h => by rwa [rejectedAt_setPhase], fun _ r h => ⟨r, h, List.prefix_refl _⟩⟩

theorem extends_begin (rejected : Option Token) : Extends c (c.refreshAuthToken rejected).2 := by
  refine ⟨fun k other h => ?_, fun i r h => ⟨r, ?_, List.prefix_refl _⟩⟩
  · cases hpromise : c.refreshPromise with
    | some k => simpa only [Client.refreshAuthToken, hpromise] using h
    | none =>
        rw [rejectedAt_begin hpromise, if_neg, h]
        rintro rfl
        rw [rejectedAt, List.getElem?_eq_none (Nat.le_refl _)] at h
        cases h
  · rwa [refreshAuthToken_requests]

theorem Extends.trans {e : Client Token} (h : Extends c d) (h' : Extends d e) : Extends c e := by
  refine ⟨fun k rejected hk => h'.refreshes k rejected (h.refreshes k rejected hk), fun i r hr => ?_⟩
  obtain ⟨s, hs, hprefix⟩ := h.requests i r hr
  obtain ⟨u, hu, hprefix'⟩ := h'.requests i s hs
  exact ⟨u, hu, hprefix.trans hprefix'⟩

theorem extends_next (autoRefresh : Bool) (c : Client Token) (e : Event Token) :
    Extends c (next autoRefresh c e) := by
  have hanswer (i : Nat) (answer : Answer) : Extends c (c.modify i (·.answer answer)) :=
    extends_modify fun r => List.prefix_refl _
  have hset (k : Nat) (phase : RefreshPhase) : Extends c (c.setPhase k phase) := extends_setPhase
  have hmove := next_move autoRefresh c e
  generalize AutoRefresh.next autoRefresh c e = d at hmove ⊢
  rcases hmove with rfl | hmove
  · exact .refl _
  · cases hmove with
    | setAuthToken token => exact ⟨fun _ _ h => h, fun _ r h => ⟨r, h, List.prefix_refl _⟩⟩
    | post header =>
        refine ⟨fun _ _ h => h, fun i r h => ⟨r, ?_, List.prefix_refl _⟩⟩
        obtain ⟨hlt, -⟩ := List.getElem?_eq_some_iff.mp h
        exact (List.getElem?_append_left hlt).trans h
    | @reply i r reply hr hphase =>
        cases reply with
        | ok => exact hanswer i _
        | unauthorized => exact hanswer i _
        | failed => exact hanswer i _
        | expired =>
            cases autoRefresh with
            | false => exact hanswer i _
            | true => exact (extends_begin _).trans (extends_modify fun r => List.prefix_refl _)
    | @refreshReply k reply hpromise hcalling =>
        cases reply with
        | token t accepted =>
            exact ⟨(hset k (.settled accepted)).refreshes, (hset k (.settled accepted)).requests⟩
        | failed => exact hset k _
    | @clear k ok hpromise hsettled =>
        exact ⟨(hset k (.done ok)).refreshes, (hset k (.done ok)).requests⟩
    | @wake i k r ok hr hphase hdone =>
        cases ok with
        | true => exact extends_modify fun r => List.prefix_append _ _
        | false => exact hanswer i _
    | @retryReply i r reply hr hphase => cases reply <;> exact hanswer i _

/-- What a state does not recover from. -/
def Bad (c : Client Token) : Prop := Repeated c ∨ Stale c

theorem Bad.extends (h : Bad c) (hext : Extends c d) : Bad d := by
  rcases h with ⟨j, k, t, hne, hj, hk⟩ | ⟨i, r, first, second, rest, hr, hsends, hne⟩
  · exact .inl ⟨j, k, t, hne, hext.refreshes j _ hj, hext.refreshes k _ hk⟩
  · obtain ⟨s, hs, tail, htail⟩ := hext.requests i r hr
    rw [hsends] at htail
    exact .inr ⟨i, s, first, second, rest ++ tail, hs, htail.symm, hne⟩

/-- An event that is not timely leaves one of the two behind. -/
theorem bad_next (h : Inv c) {e : Event Token} (hnot : ¬ Timely autoRefresh c e) :
    Bad (next autoRefresh c e) := by
  cases e with
  | reply i reply =>
      cases reply with
      | expired =>
          simp only [Timely] at hnot
          push Not at hnot
          obtain ⟨hauto, hnone, r, t, hr, hphase, htoken, k, hk⟩ := hnot
          have hne : k ≠ c.refreshes.length := by
            rintro rfl
            rw [rejectedAt, List.getElem?_eq_none (Nat.le_refl _)] at hk
            cases hk
          have hbegin : Repeated (c.refreshAuthToken r.token).2 := by
            refine ⟨k, c.refreshes.length, t, hne, ?_, ?_⟩
            · rw [rejectedAt_begin hnone, if_neg hne, hk]
            · rw [rejectedAt_begin hnone, if_pos rfl, htoken]
          have hnext : next autoRefresh c (.reply i .expired) =
              (c.refreshAuthToken r.token).2.modify i
                (·.wait (c.refreshAuthToken r.token).1) := by
            simp only [next, hr, if_pos hphase, firstReply, hauto, if_true]
            rfl
          rw [hnext]
          exact .inl hbegin
      | ok => exact absurd trivial hnot
      | unauthorized => exact absurd trivial hnot
      | failed => exact absurd trivial hnot
  | wake i =>
      simp only [Timely] at hnot
      push Not at hnot
      obtain ⟨r, k, hr, hphase, hdone, hcurrent, htoken⟩ := hnot
      obtain ⟨⟨first, hsends⟩, -⟩ := waiting_ok (h.requests i r hr) hphase
      have hwaiting : requestPhase c i = some (.waiting k) := by
        rw [requestPhase, hr, Option.map_some, hphase]
      have hnext : next autoRefresh c (.wake i) = c.modify i (·.resend c.authToken) := by
        simp only [next, hwaiting, hdone, wake, if_true]
      rw [hnext]
      refine .inr ⟨i, r.resend c.authToken, first, ⟨r.token, none⟩, [], ?_, ?_, htoken⟩
      · rw [requests_modify, if_pos rfl, hr, Option.map_some]
      · rw [Request.resend, hsends, hcurrent, Request.token, hsends]
        rfl
  | setAuthToken token => exact absurd trivial hnot
  | post header => exact absurd trivial hnot
  | refreshReply reply => exact absurd trivial hnot
  | clear => exact absurd trivial hnot
  | retryReply i reply => exact absurd trivial hnot

end Steps

/-! ### Runs -/

theorem inv_init : Inv ({} : Client Token) where
  promised k phase hphase := by cases hphase
  requests i r hr := by cases hr
  once := by
    rintro ⟨j, k, t, -, hj, -⟩
    cases hj

/-- **In every run whose events are timely every state is safe; and a run with an event that is not
ends in a state that is not.** -/
theorem auto_refresh_safe_iff (autoRefresh : Bool) (events : List (Event Token)) :
    Along (step autoRefresh) (Timely autoRefresh) {} events ↔
      ∀ earlier, earlier <+: events → Safe autoRefresh (runState (step autoRefresh) {} earlier) := by
  have hiff (events : List (Event Token)) :
      Along (step autoRefresh) (Timely autoRefresh) {} events ↔
        ¬ Bad (runState (step autoRefresh) {} events) :=
    along_iff_not_bad Inv Bad (fun c e h htimely => h.next e htimely)
      (fun c e h hnot => bad_next h hnot) (fun c e h => h.extends (extends_next autoRefresh c e))
      (fun c h hbad => hbad.elim h.once (h.safe : Safe autoRefresh c).current) inv_init
  constructor
  · rintro htimely earlier ⟨later, rfl⟩
    have hinv : Inv (runState (step autoRefresh) {} earlier) :=
      htimely.append.1.inv (fun c e h htimely => h.next e htimely) inv_init
    exact hinv.safe
  · intro hsafe
    have hend := hsafe events (List.prefix_refl _)
    exact (hiff events).mpr fun hbad => hbad.elim hend.once hend.current

/-- Two requests are sent with one token. The second is answered when the refresh for the first is
over. -/
def lateAnswer : List (Event String) :=
  [.setAuthToken (some "old"), .post none, .post none, .reply 0 .expired,
    .refreshReply (.token "new" true), .clear, .reply 1 .expired]

/-- It starts a second refresh for the token, while the client has the new one. -/
theorem late_answer_refreshes_again :
    (runState (step true) {} lateAnswer).authToken = some "new" ∧
      rejectedAt (runState (step true) {} lateAnswer) 0 = some (some "old") ∧
      rejectedAt (runState (step true) {} lateAnswer) 1 = some (some "old") ∧
      ¬ Safe true (runState (step true) {} lateAnswer) := by
  have hfirst : rejectedAt (runState (step true) {} lateAnswer) 0 = some (some "old") := rfl
  have hsecond : rejectedAt (runState (step true) {} lateAnswer) 1 = some (some "old") := rfl
  exact ⟨rfl, hfirst, hsecond, fun h => h.once ⟨0, 1, "old", by decide, hfirst, hsecond⟩⟩

end Lazuli.Sdk.AutoRefresh
