import Lazuli.Webhooks.Freshness

/-!
What an idempotency checker makes of deliveries that come again.

The checker records a key when it is asked for it, before the handler runs, and nothing takes
the key back. So a delivery that comes again after its handler has failed, or while the handler
is still to run, is answered with 200 although nothing was done. No handler runs twice for a
key.
-/

namespace Lazuli.Webhooks

open Lazuli.General

variable {P : Type}

/-! ### Deliveries beside each other -/

structure Key where
  feature : String
  name : String
  id : String
  deriving DecidableEq

/-- An atomic check-and-record. A check that fails records nothing. -/
def record (key : Key) (pass : Pass) (recorded : List Key) : List Key × Except String Bool :=
  match pass.seen with
  | .error message => (recorded, .error message)
  | .ok _ => (key :: recorded, .ok (decide (key ∈ recorded)))

def exec : (op : Op P) → Pass → List Key → List Key × op.Res
  | .checkIdempotency feature name id, pass, recorded => record ⟨feature, name, id⟩ pass recorded
  | op, pass, recorded => (recorded, pass.answer op)

def checker (P : Type) : Machine (List Key) (Op.Res : Op P → Type) Pass Empty where
  exec := exec
  outside := fun event _ => event.elim

abbrev Past (P : Type) := List (Nat × Program.Answered (Op.Res : Op P → Type))

abbrev Step := Act Nat Pass Empty

/-- The status of a delivery, with what had been done by then. -/
structure Response (P : Type) where
  delivery : Nat
  status : Status
  past : Past P

structure Traffic (P : Type) where
  calls : Recorded (List Key) Nat (Op.Res : Op P → Type) Status
  responses : List (Response P)

def Traffic.step (t : Traffic P) (a : Step) : Traffic P × Unit :=
  let next := t.calls.act (checker P) a
  let responses := next.2.map fun answer => ⟨answer.1, answer.2, next.1.past⟩
  (⟨next.1, responses.toList ++ t.responses⟩, ())

/-- Nothing is recorded yet. -/
structure Start (lib : Library P) (hooks : Hooks) (contracts : Nat → WebhookContract)
    (requests : Nat → Request) (t : Traffic P) : Prop where
  programs : ∀ i, t.calls.threads.programs i = handleOne lib hooks (contracts i) (requests i)
  recorded : t.calls.threads.shared = []
  past : t.calls.past = []
  responses : t.responses = []

/-! ### The promise -/

section Promise

variable (past : Past P) (i : Nat) (key : Key)

def Checked : Prop :=
  ∃ r, (i, ⟨.checkIdempotency key.feature key.name key.id, r⟩) ∈ past

/-- A handler was invoked for the key, with this result. -/
def Handled (e : Program.Answered (Op.Res : Op P → Type)) (key : Key) (r : Except String Unit) :
    Prop :=
  ∃ envelope : Envelope P, envelope.id = key.id ∧ e = ⟨.handler key.feature key.name envelope, r⟩

def Succeeded : Prop := ∃ i e, (i, e) ∈ past ∧ Handled e key (.ok ())

def Acknowledged (response : Response P) : Prop :=
  response.status = .ok →
    ∃ key, Checked response.past response.delivery key ∧ Succeeded response.past key

structure Delivered (t : Traffic P) : Prop where
  acknowledged : ∀ response ∈ t.responses, Acknowledged response
  once : ∀ later i e earlier key r, t.calls.past = later ++ (i, e) :: earlier →
    Handled e key r → ¬ Succeeded earlier key

end Promise

/-! ### One delivery -/

/-- How far a delivery has come. -/
inductive Stage where
  | unchecked
  | refused
  | seen (key : Key)
  | claimed (key : Key)
  | failed (key : Key)
  | succeeded (key : Key)
  deriving DecidableEq

/-- A delivery checks once, and invokes the handler once for a key that nobody has seen. -/
def deliveries (P : Type) : Program.Discipline (Op.Res : Op P → Type) Stage where
  Allows
    | .seen _, _ => False
    | k, .checkIdempotency .. => k = .unchecked
    | k, .handler feature name envelope => k = .claimed ⟨feature, name, envelope.id⟩
    | _, _ => True
  learn k
    | .checkIdempotency feature name id, .ok true => .seen ⟨feature, name, id⟩
    | .checkIdempotency feature name id, .ok false => .claimed ⟨feature, name, id⟩
    | .checkIdempotency .., .error _ => .refused
    | .handler feature name envelope, .ok _ => .succeeded ⟨feature, name, envelope.id⟩
    | .handler feature name envelope, .error _ => .failed ⟨feature, name, envelope.id⟩
    | _, _ => k

/-- Only a success and a key that was seen are answered with 200. -/
def Ends (k : Stage) (status : Status) : Prop :=
  match k with
  | .seen _ => status = .ok
  | .succeeded _ => True
  | _ => status ≠ .ok

section Obeys

variable {lib : Library P} {hooks : Hooks} {contract : WebhookContract} {req : Request}

theorem publishAll_obeys {key : Key} (payload : Option P) (now : Int) (events : List String) :
    (publishAll payload now events).Obeys (deliveries P) Ends (.succeeded key) := by
  induction events with
  | nil => exact trivial
  | cons event events ih => exact ⟨trivial, fun _ => ih⟩

theorem dispatch_obeys (envelope : Envelope P) :
    (dispatch hooks contract envelope).Obeys (deliveries P) Ends
      (.claimed ⟨contract.feature, contract.name, envelope.id⟩) := by
  have published (key : Key) : (publishEmits hooks contract envelope.parsedPayload).Obeys
      (deliveries P) Ends (.succeeded key) := by
    unfold publishEmits
    split
    · exact ⟨trivial, fun now => publishAll_obeys _ now _⟩
    · exact trivial
  refine ⟨rfl, ?_⟩
  rintro (message | ⟨⟩)
  · exact nofun
  · show (runIncrement hooks contract _).Obeys _ _ _
    unfold runIncrement
    split
    · exact published _
    · exact ⟨trivial, fun _ => published _⟩

theorem checkIdempotency_obeys (installed : hooks.idempotencyChecker = true)
    (envelope : Envelope P) : (checkIdempotency hooks contract envelope).Obeys (deliveries P) Ends
      .unchecked := by
  unfold checkIdempotency
  rw [if_pos installed]
  refine ⟨rfl, ?_⟩
  rintro (message | seen | seen)
  · exact nofun
  · exact dispatch_obeys envelope
  · exact rfl

theorem accept_obeys (installed : hooks.idempotencyChecker = true) (body : Bytes) :
    (accept lib hooks contract req body).Obeys (deliveries P) Ends .unchecked := by
  unfold accept
  split
  · exact nofun
  · split
    · exact nofun
    · exact checkIdempotency_obeys installed _

theorem denyReplay_obeys (body : Bytes) {rest : Receiver P Status}
    (obeys : rest.Obeys (deliveries P) Ends .unchecked) :
    (denyReplay lib contract body rest).Obeys (deliveries P) Ends .unchecked := by
  unfold denyReplay
  split
  · split
    · exact obeys
    · split
      · refine ⟨trivial, fun now => ?_⟩
        show (if _ then _ else _ : Receiver P Status).Obeys _ _ _
        split
        · exact nofun
        · exact obeys
      · exact obeys
  · exact obeys

theorem receive_obeys (installed : hooks.idempotencyChecker = true) :
    (receive lib hooks contract req).Obeys (deliveries P) Ends .unchecked := by
  refine ⟨trivial, ?_⟩
  rintro (message | body)
  · exact nofun
  · refine ⟨trivial, fun secret => ?_⟩
    show (if _ then _ else if _ then _ else _ : Receiver P Status).Obeys _ _ _
    split
    · exact nofun
    · split
      · exact denyReplay_obeys body (accept_obeys installed body)
      · exact nofun

theorem handleOne_obeys (installed : hooks.idempotencyChecker = true) :
    (handleOne lib hooks contract req).Obeys (deliveries P) Ends .unchecked := by
  unfold handleOne
  split
  · exact receive_obeys installed
  · refine ⟨trivial, ?_⟩
    rintro (message | ⟨⟩)
    · exact nofun
    · exact receive_obeys installed

end Obeys

/-! ### What has been done -/

/-- The key that a delivery was the first to check. -/
def Stage.claims : Stage → Option Key
  | .claimed key | .failed key | .succeeded key => some key
  | _ => none

def Stage.checked (key : Key) : Except String Bool → Stage
  | .error _ => .refused
  | .ok true => .seen key
  | .ok false => .claimed key

def Stage.after (key : Key) : Except String Unit → Stage
  | .error _ => .failed key
  | .ok _ => .succeeded key

section InOrder

variable {past : Past P} {i : Nat} {key : Key} {e : Program.Answered (Op.Res : Op P → Type)}

abbrev stage (past : Past P) (i : Nat) : Stage := (deliveries P).learned .unchecked i past

theorem stage_here (i : Nat) (op : Op P) (r : op.Res) (past : Past P) :
    stage ((i, ⟨op, r⟩) :: past) i = (deliveries P).learn (stage past i) op r :=
  Program.Discipline.learned_cons_self _

theorem stage_elsewhere {j : Nat} (ne : j ≠ i) (e : Program.Answered (Op.Res : Op P → Type))
    (past : Past P) : stage ((j, e) :: past) i = stage past i :=
  Program.Discipline.learned_cons_of_ne ne e

@[simp] theorem allows_handler {k : Stage} {feature name : String} {envelope : Envelope P} :
    (deliveries P).Allows k (.handler feature name envelope) ↔
      k = .claimed ⟨feature, name, envelope.id⟩ := by
  cases k <;> simp [deliveries]

@[simp] theorem allows_checkIdempotency {k : Stage} {feature name id : String} :
    (deliveries P).Allows k (.checkIdempotency feature name id) ↔ k = .unchecked := by
  cases k <;> simp [deliveries]

/-- What an operation lets a delivery come to. -/
inductive Moves (k : Stage) (e : Program.Answered (Op.Res : Op P → Type)) : Stage → Prop where
  | stays : Moves k e k
  | checks (key : Key) (r : Except String Bool) : k = .unchecked →
      e = ⟨.checkIdempotency key.feature key.name key.id, r⟩ → Moves k e (.checked key r)
  | handles (key : Key) (r : Except String Unit) : k = .claimed key → Handled e key r →
      Moves k e (.after key r)

theorem moves {k : Stage} {op : Op P} (r : op.Res) (allowed : (deliveries P).Allows k op) :
    ∃ k', (deliveries P).learn k op r = k' ∧ Moves k ⟨op, r⟩ k' := by
  refine ⟨_, rfl, ?_⟩
  cases op with
  | checkIdempotency feature name id =>
      have checks := Moves.checks (e := ⟨.checkIdempotency feature name id, r⟩) ⟨feature, name, id⟩ r
        (allows_checkIdempotency.mp allowed) rfl
      rcases r with message | (_ | _) <;> exact checks
  | handler feature name envelope =>
      have handles := Moves.handles (e := ⟨.handler feature name envelope, r⟩)
        ⟨feature, name, envelope.id⟩ r (allows_handler.mp allowed) ⟨envelope, rfl, rfl⟩
      rcases r with message | ⟨⟩ <;> exact handles
  | _ => exact .stays

theorem Handled.learn {k : Stage} {r : Except String Unit} (handled : Handled e key r) :
    (deliveries P).learn k e.op e.answer = .after key r := by
  obtain ⟨envelope, same, rfl⟩ := handled
  cases r <;> simp [deliveries, Stage.after, same]

theorem Handled.allows {k : Stage} {r : Except String Unit} (handled : Handled e key r)
    (allowed : (deliveries P).Allows k e.op) : k = .claimed key := by
  obtain ⟨envelope, same, rfl⟩ := handled
  simpa [same] using allowed

/-- After its handler a delivery goes on as it is. -/
theorem learn_after {r : Except String Unit} {op : Op P} {x : op.Res}
    (allowed : (deliveries P).Allows (.after key r) op) :
    (deliveries P).learn (.after key r) op x = .after key r := by
  cases r <;> cases op <;> first | rfl | cases allowed

theorem stage_of_handled (inOrder : (deliveries P).InOrder .unchecked past) (mem : (i, e) ∈ past)
    {r : Except String Unit} (handled : Handled e key r) : stage past i = .after key r := by
  induction inOrder with
  | nil => cases mem
  | @cons j e' past before allowed ih =>
      rcases List.mem_cons.mp mem with here | earlier
      · cases here
        rw [stage_here]
        exact handled.learn
      · by_cases same : j = i
        · subst same
          rw [stage_here]
          have allowed : (deliveries P).Allows (stage past j) e'.op := allowed
          rw [ih earlier] at allowed ⊢
          exact learn_after allowed
        · rw [stage_elsewhere same]
          exact ih earlier

theorem learn_seen {k : Stage} {op : Op P} {r : op.Res} (allowed : (deliveries P).Allows k op)
    (learnt : (deliveries P).learn k op r = .seen key) : k = .unchecked ∧
      (⟨op, r⟩ : Program.Answered (Op.Res : Op P → Type)) =
        ⟨.checkIdempotency key.feature key.name key.id, .ok true⟩ := by
  obtain ⟨k', learnt', moved⟩ := moves r allowed
  have same : k' = .seen key := learnt'.symm.trans learnt
  cases moved with
  | stays =>
      subst same
      exact allowed.elim
  | checks key' r' unchecked check =>
      rcases r' with message | (_ | _) <;> cases same
      exact ⟨unchecked, check⟩
  | handles key' r' => rcases r' with message | ⟨⟩ <;> cases same

/-- What a delivery claims or has seen, it has checked. -/
theorem checked_of_stage (inOrder : (deliveries P).InOrder .unchecked past)
    (known : (stage past i).claims = some key ∨ stage past i = .seen key) : Checked past i key := by
  induction inOrder with
  | nil => rcases known with known | known <;> cases known
  | @cons j e past before allowed ih =>
      have later (h : Checked past i key) : Checked ((j, e) :: past) i key := by
        obtain ⟨r, mem⟩ := h
        exact ⟨r, List.mem_cons_of_mem _ mem⟩
      by_cases same : j = i
      · subst same
        rw [stage_here] at known
        obtain ⟨k, learnt, moved⟩ := moves e.answer allowed
        rw [learnt] at known
        cases moved with
        | stays => exact later (ih known)
        | checks key' r _ check =>
            obtain rfl : key' = key := by
              rcases r with message | (_ | _) <;> rcases known with known | known <;> cases known <;> rfl
            exact ⟨r, List.mem_cons.mpr (.inl (congrArg (Prod.mk j) check.symm))⟩
        | handles key' r claimed handled =>
            obtain rfl : key' = key := by
              cases r <;> rcases known with known | known <;> cases known <;> rfl
            have claimed : stage past j = .claimed key' := claimed
            exact later (ih (.inl (by rw [claimed]; rfl)))
      · rw [stage_elsewhere same] at known
        exact later (ih known)

/-- A delivery that has not checked is not known to have. -/
theorem not_checked_of_stage (inOrder : (deliveries P).InOrder .unchecked past)
    (unchecked : stage past i = .unchecked) : ¬ Checked past i key := by
  induction inOrder with
  | nil => simp [Checked]
  | @cons j e past before allowed ih =>
      rintro ⟨r, mem⟩
      by_cases same : j = i
      · subst same
        rw [stage_here] at unchecked
        obtain ⟨k, learnt, moved⟩ := moves e.answer allowed
        rw [learnt] at unchecked
        cases moved with
        | stays =>
            rcases List.mem_cons.mp mem with here | earlier
            · cases here
              rcases r with message | (_ | _) <;> cases learnt.trans unchecked
            · exact ih unchecked ⟨r, earlier⟩
        | checks key' r => rcases r with message | (_ | _) <;> cases unchecked
        | handles key' r => rcases r with message | ⟨⟩ <;> cases unchecked
      · rw [stage_elsewhere same] at unchecked
        rcases List.mem_cons.mp mem with here | earlier
        · exact same (congrArg Prod.fst here).symm
        · exact ih unchecked ⟨r, earlier⟩

theorem succeeded_of_stage (inOrder : (deliveries P).InOrder .unchecked past)
    (known : stage past i = .succeeded key) : Succeeded past key := by
  induction inOrder with
  | nil => cases known
  | @cons j e past before allowed ih =>
      have later (h : Succeeded past key) : Succeeded ((j, e) :: past) key := by
        obtain ⟨i, e', mem, handled⟩ := h
        exact ⟨i, e', List.mem_cons_of_mem _ mem, handled⟩
      by_cases same : j = i
      · subst same
        rw [stage_here] at known
        obtain ⟨k, learnt, moved⟩ := moves e.answer allowed
        rw [learnt] at known
        cases moved with
        | stays => exact later (ih known)
        | checks key' r => rcases r with message | (_ | _) <;> cases known
        | handles key' r claimed handled =>
            rcases r with message | ⟨⟩ <;> cases known
            exact ⟨j, e, List.mem_cons_self, handled⟩
      · rw [stage_elsewhere same] at known
        exact later (ih known)

end InOrder

/-! ### Runs -/

section Runs

variable {lib : Library P} {hooks : Hooks} {contracts : Nat → WebhookContract}
  {requests : Nat → Request} {t : Traffic P}

/-- A recorded key is claimed by one delivery. -/
structure Inv (t : Traffic P) : Prop where
  disciplined : t.calls.Disciplined (deliveries P) Ends .unchecked
  recorded : ∀ key, key ∈ t.calls.threads.shared ↔ ∃ i, (stage t.calls.past i).claims = some key
  unique : ∀ i j key, (stage t.calls.past i).claims = some key →
    (stage t.calls.past j).claims = some key → i = j

/-- When a check finds its key recorded, the delivery that claimed it has not failed and is not
still to come to its handler. -/
def Timely (t : Traffic P) : Step → Prop
  | .step i pass =>
      match t.calls.threads.programs i with
      | .call (.checkIdempotency feature name id) _ =>
          (∃ seen, pass.seen = .ok seen) → ∀ j,
            stage t.calls.past j ≠ .claimed ⟨feature, name, id⟩ ∧
              stage t.calls.past j ≠ .failed ⟨feature, name, id⟩
      | _ => True
  | .outside _ => True

theorem record_seen {key : Key} {pass : Pass} {recorded : List Key} :
    (record key pass recorded).2 = .ok true ↔ (∃ b, pass.seen = .ok b) ∧ key ∈ recorded := by
  unfold record
  cases pass.seen <;> simp

/-- An operation records nothing new, or a key that its delivery claims. -/
inductive Records (k k' : Stage) (s s' : List Key) : Prop where
  | same : k'.claims = k.claims → (∀ key, key ∈ s' ↔ key ∈ s) → Records k k' s s'
  | fresh (key : Key) : key ∉ s → k.claims = none → k'.claims = some key → s' = key :: s →
      Records k k' s s'

theorem records {k : Stage} {op : Op P} (allowed : (deliveries P).Allows k op) (pass : Pass)
    (s : List Key) :
    Records k ((deliveries P).learn k op (exec op pass s).2) s (exec op pass s).1 := by
  cases op with
  | checkIdempotency feature name id =>
      obtain rfl := allows_checkIdempotency.mp allowed
      cases seen : pass.seen with
      | error message =>
          simp only [exec, record, seen]
          exact .same rfl fun _ => .rfl
      | ok b =>
          by_cases known : (⟨feature, name, id⟩ : Key) ∈ s
          · simp only [exec, record, seen, known, decide_true]
            exact .same rfl fun key => by
              simp only [List.mem_cons, or_iff_right_iff_imp]
              rintro rfl
              exact known
          · simp only [exec, record, seen, known, decide_false]
            exact .fresh _ known rfl rfl rfl
  | handler feature name envelope =>
      obtain rfl := allows_handler.mp allowed
      refine .same ?_ fun _ => .rfl
      cases handled : pass.handled <;> simp [exec, Pass.answer, deliveries, handled, Stage.claims]
  | _ => exact .same rfl fun _ => .rfl

theorem Start.inv (start : Start lib hooks contracts requests t)
    (installed : hooks.idempotencyChecker = true) : Inv t := by
  have unchecked (i : Nat) : stage t.calls.past i = .unchecked := by
    rw [start.past]
    rfl
  refine ⟨⟨?_, ?_⟩, ?_, ?_⟩
  · intro i
    show (t.calls.threads.programs i).Obeys _ _ (stage t.calls.past i)
    rw [start.programs i, unchecked i]
    exact handleOne_obeys installed
  · rw [start.past]
    exact .nil
  · simp [start.recorded, unchecked, Stage.claims]
  · intro i j key claims
    rw [unchecked i] at claims
    cases claims

theorem Traffic.step_past {i : Nat} {pass : Pass} {op : Op P} {rest : op.Res → Receiver P Status}
    (hp : t.calls.threads.programs i = .call op rest) :
    (t.step (.step i pass)).1.calls.past =
      (i, ⟨op, (exec op pass t.calls.threads.shared).2⟩) :: t.calls.past := by
  have ran : (t.step (.step i pass)).1.calls = _ := Recorded.act_call hp
  rw [ran]
  rfl

theorem Inv.step (inv : Inv t) (a : Step) : Inv (t.step a).1 := by
  have disciplined := inv.disciplined.act (M := checker P) a
  cases a with
  | outside event => exact event.elim
  | step i pass =>
      cases hp : t.calls.threads.programs i with
      | done status =>
          have still : (t.step (.step i pass)).1.calls = t.calls := by
            simp only [Traffic.step, Recorded.act_done hp]
          exact ⟨disciplined, still ▸ inv.recorded, still ▸ inv.unique⟩
      | call op rest =>
          have own := inv.disciplined.programs i
          rw [hp] at own
          have ran : (t.step (.step i pass)).1.calls = _ := Recorded.act_call hp
          have other {j : Nat} (ne : j ≠ i) : stage (t.step (.step i pass)).1.calls.past j =
              stage t.calls.past j := by
            rw [Traffic.step_past hp]
            exact stage_elsewhere (Ne.symm ne) _ _
          have here : stage (t.step (.step i pass)).1.calls.past i = (deliveries P).learn
              (stage t.calls.past i) op (exec op pass t.calls.threads.shared).2 := by
            rw [Traffic.step_past hp]
            exact stage_here _ _ _ _
          have kept : (t.step (.step i pass)).1.calls.threads.shared =
              (exec op pass t.calls.threads.shared).1 := by
            rw [ran]
            rfl
          have step := records own.1 pass t.calls.threads.shared
          rw [← here, ← kept] at step
          cases step with
          | same claims known =>
              have claims (j : Nat) : (stage (t.step (.step i pass)).1.calls.past j).claims =
                  (stage t.calls.past j).claims := by
                by_cases same : j = i
                · rw [same, claims]
                · rw [other same]
              refine ⟨disciplined, ?_, ?_⟩
              · simpa only [known, claims] using inv.recorded
              · simpa only [claims] using inv.unique
          | fresh key new before claims recorded =>
              -- nobody else claims the key, which was not recorded
              have first {j : Nat} (claims' : (stage t.calls.past j).claims = some key) : False :=
                new ((inv.recorded key).mpr ⟨j, claims'⟩)
              refine ⟨disciplined, ?_, ?_⟩
              · intro key'
                rw [recorded, List.mem_cons, inv.recorded]
                constructor
                · rintro (rfl | ⟨j, claims'⟩)
                  · exact ⟨i, claims⟩
                  · have ne : j ≠ i := by
                      rintro rfl
                      rw [before] at claims'
                      cases claims'
                    exact ⟨j, other ne ▸ claims'⟩
                · rintro ⟨j, claims'⟩
                  by_cases same : j = i
                  · subst same
                    exact .inl (Option.some.inj (claims'.symm.trans claims))
                  · exact .inr ⟨j, other same ▸ claims'⟩
              · intro j k key' hj hk
                by_cases samej : j = i
                · by_cases samek : k = i
                  · rw [samej, samek]
                  · subst samej
                    obtain rfl : key = key' := Option.some.inj (claims.symm.trans hj)
                    exact (first (other samek ▸ hk)).elim
                · by_cases samek : k = i
                  · subst samek
                    obtain rfl : key = key' := Option.some.inj (claims.symm.trans hk)
                    exact (first (other samej ▸ hj)).elim
                  · exact inv.unique j k key' (other samej ▸ hj) (other samek ▸ hk)

theorem Inv.once (inv : Inv t) {later earlier : Past P} {i : Nat}
    {e : Program.Answered (Op.Res : Op P → Type)} {key : Key} {r : Except String Unit}
    (past : t.calls.past = later ++ (i, e) :: earlier) (handled : Handled e key r) :
    ¬ Succeeded earlier key := by
  rintro ⟨j, e', mem, handled'⟩
  have inOrder := inv.disciplined.past
  have mine : stage t.calls.past i = .after key r :=
    stage_of_handled inOrder (past ▸ List.mem_append_right _ List.mem_cons_self) handled
  have theirs : stage t.calls.past j = .succeeded key :=
    stage_of_handled inOrder
      (past ▸ List.mem_append_right _ (List.mem_cons_of_mem _ mem)) handled'
  obtain rfl : i = j := by
    apply inv.unique i j key
    · rw [mine]
      cases r <;> rfl
    · rw [theirs]
      rfl
  -- one delivery would have come to its handler twice
  rw [past] at inOrder
  cases inOrder.of_append with
  | cons before allowed =>
      have claimed := handled.allows allowed
      have succeeded := stage_of_handled before mem handled'
      rw [stage, claimed] at succeeded
      cases succeeded

/-- A response tells what had been done by the end of its step. -/
theorem Traffic.step_responses (t : Traffic P) (a : Step) (response : Response P) :
    response ∈ (t.step a).1.responses ↔ response ∈ t.responses ∨
      (t.calls.act (checker P) a).2 = some (response.delivery, response.status) ∧
        response.past = (t.step a).1.calls.past := by
  obtain ⟨delivery, status, past⟩ := response
  simp only [Traffic.step, List.mem_append, Option.mem_toList, Option.map_eq_some_iff, Prod.exists,
    Response.mk.injEq]
  constructor
  · rintro (⟨i, answer, answered, rfl, rfl, rfl⟩ | earlier)
    · exact .inr ⟨answered, rfl⟩
    · exact .inl earlier
  · rintro (earlier | ⟨answered, rfl⟩)
    · exact .inr earlier
    · exact .inl ⟨_, _, answered, rfl, rfl, rfl⟩

/-- The check of a key that is recorded ends its delivery with 200. -/
theorem Inv.acknowledged (inv : Inv t) {a : Step} (timely : Timely t a)
    (before : ∀ response ∈ t.responses, Acknowledged response) :
    ∀ response ∈ (t.step a).1.responses, Acknowledged response := by
  intro response mem ok
  have next := inv.step a
  rcases (t.step_responses a response).mp mem with earlier | ⟨answered, past⟩
  · exact before response earlier ok
  · cases a with
    | outside event => exact event.elim
    | step i pass =>
        obtain ⟨mine, ⟨op, rest, hp⟩, done⟩ := Recorded.act_answers.mp answered
        have own := inv.disciplined.programs i
        have ends := next.disciplined.programs i
        have done : (t.step (.step i pass)).1.calls.threads.programs i = .done .ok := ok ▸ done
        rw [hp] at own
        rw [done] at ends
        rw [past, mine]
        have inOrder := next.disciplined.past
        have ends : Ends (stage (t.step (.step i pass)).1.calls.past i) .ok := ends
        cases known : stage (t.step (.step i pass)).1.calls.past i with
        | succeeded key =>
            exact ⟨key, checked_of_stage inOrder (.inl (known ▸ rfl)),
              succeeded_of_stage inOrder known⟩
        | seen key =>
            refine ⟨key, checked_of_stage inOrder (.inr known), ?_⟩
            have learnt := known
            rw [Traffic.step_past hp, stage_here] at learnt
            obtain ⟨unchecked, check⟩ := learn_seen own.1 learnt
            obtain ⟨rfl, answer⟩ := Program.Answered.mk.inj check
            obtain ⟨asked, recorded⟩ := record_seen.mp (eq_of_heq answer)
            simp only [Timely, hp] at timely
            obtain ⟨j, claims⟩ := (inv.recorded key).mp recorded
            have succeeded : stage t.calls.past j = .succeeded key := by
              obtain ⟨run, kept⟩ := timely asked j
              cases other : stage t.calls.past j <;> rw [other] at claims <;> cases claims
              · exact absurd other run
              · exact absurd other kept
              · rfl
            have ne : j ≠ i := by
              rintro rfl
              cases unchecked.symm.trans succeeded
            apply succeeded_of_stage inOrder (i := j)
            rw [Traffic.step_past hp, stage_elsewhere (Ne.symm ne)]
            exact succeeded
        | _ => exact absurd rfl (known ▸ ends)

theorem Inv.not_acknowledged (inv : Inv t) {a : Step} (late : ¬ Timely t a) :
    ∃ response ∈ (t.step a).1.responses, ¬ Acknowledged response := by
  cases a with
  | outside event => exact event.elim
  | step i pass =>
      simp only [Timely] at late
      split at late
      case h_2 => exact absurd trivial late
      case h_1 feature name id rest hp =>
        let key : Key := ⟨feature, name, id⟩
        obtain ⟨asked, j, other⟩ : (∃ seen, pass.seen = .ok seen) ∧ ∃ j,
            stage t.calls.past j = .claimed key ∨ stage t.calls.past j = .failed key := by
          by_contra none
          refine late fun asked j => ⟨fun run => none ⟨asked, j, .inl run⟩, fun failed => ?_⟩
          exact none ⟨asked, j, .inr failed⟩
        have claims : (stage t.calls.past j).claims = some key := by
          rcases other with other | other <;> rw [other] <;> rfl
        have recorded : key ∈ t.calls.threads.shared := (inv.recorded key).mpr ⟨j, claims⟩
        have answer : (record key pass t.calls.threads.shared).2 = .ok true :=
          record_seen.mpr ⟨asked, recorded⟩
        have next := inv.step (.step i pass)
        have own := inv.disciplined.programs i
        rw [hp] at own
        have unchecked : stage t.calls.past i = .unchecked := allows_checkIdempotency.mp own.1
        have ne : i ≠ j := by
          rintro rfl
          rw [unchecked] at claims
          cases claims
        have past : (t.step (.step i pass)).1.calls.past = _ := Traffic.step_past hp
        have done : (t.step (.step i pass)).1.calls.threads.programs i = .done .ok := by
          have ran : (t.step (.step i pass)).1.calls = _ := Recorded.act_call hp
          have ends : (rest (.ok true)).Obeys (deliveries P) Ends (.seen key) := own.2 (.ok true)
          have rests : (t.step (.step i pass)).1.calls.threads.programs i = rest (.ok true) := by
            rw [ran, ← answer]
            exact Function.update_self ..
          rw [rests]
          cases last : rest (.ok true) with
          | done status =>
              rw [last] at ends
              exact congrArg _ ends
          | call op rest =>
              rw [last] at ends
              exact ends.1.elim
        refine ⟨⟨i, .ok, (t.step (.step i pass)).1.calls.past⟩, ?_, fun acknowledged => ?_⟩
        · exact (t.step_responses _ _).mpr
            (.inr ⟨Recorded.act_answers.mpr ⟨rfl, ⟨_, _, hp⟩, done⟩, rfl⟩)
        · obtain ⟨key', ⟨r, checked⟩, k, e, mem, handled⟩ := acknowledged rfl
          obtain rfl : key = key' := by
            rw [past] at checked
            rcases List.mem_cons.mp checked with here | earlier
            · cases here
              rfl
            · exact absurd ⟨r, earlier⟩ (not_checked_of_stage inv.disciplined.past unchecked)
          have succeeded := stage_of_handled next.disciplined.past mem handled
          have still : stage (t.step (.step i pass)).1.calls.past j = stage t.calls.past j := by
            rw [past, stage_elsewhere ne]
          obtain rfl : k = j := next.unique k j key (succeeded ▸ rfl) (still ▸ claims)
          rw [still] at succeeded
          rcases other with other | other <;> cases other.symm.trans succeeded

/-- **No delivery is lost or doubled** just when every check that finds its key recorded comes
after the handler of that key has succeeded. -/
theorem delivered_iff_timely (lib : Library P) (hooks : Hooks) (contracts : Nat → WebhookContract)
    (requests : Nat → Request) (t : Traffic P) (installed : hooks.idempotencyChecker = true)
    (start : Start lib hooks contracts requests t) (as : List Step) :
    Delivered (runState Traffic.step t as) ↔ Along Traffic.step Timely t as := by
  have init : Inv t := start.inv installed
  have inv : Inv (runState Traffic.step t as) :=
    (Along.trivial Traffic.step t as).inv (fun t a inv _ => inv.step a) init
  have timely : Along Traffic.step Timely t as ↔ ¬ ∃ response ∈
      (runState Traffic.step t as).responses, ¬ Acknowledged response :=
    along_iff_not_bad (fun t => Inv t ∧ ∀ response ∈ t.responses, Acknowledged response)
      (fun t => ∃ response ∈ t.responses, ¬ Acknowledged response)
      (fun t a inv timely => ⟨inv.1.step a, inv.1.acknowledged timely inv.2⟩)
      (fun t a inv late => inv.1.not_acknowledged late)
      (fun t a ⟨response, mem, bad⟩ =>
        ⟨response, (t.step_responses a response).mpr (.inl mem), bad⟩)
      (fun t inv ⟨response, mem, bad⟩ => bad (inv.2 response mem))
      ⟨init, by simp [start.responses]⟩
  rw [timely]
  constructor
  · rintro delivered ⟨response, mem, bad⟩
    exact bad (delivered.acknowledged response mem)
  · intro good
    refine ⟨?_, fun later i e earlier key r past handled => inv.once past handled⟩
    intro response mem
    by_contra bad
    exact good ⟨response, mem, bad⟩

end Runs

/-! ### An envelope that comes again -/

def checkingHooks : Hooks := { noHooks with idempotencyChecker := true }

def redelivered : Traffic Unit :=
  { calls :=
      { threads :=
          { shared := []
            programs := fun _ => handleOne inboundLibrary checkingHooks inboundContract
              (signedRequest stampedSignature) }
        past := [] }
    responses := [] }

theorem redelivered_start : Start inboundLibrary checkingHooks (fun _ => inboundContract)
    (fun _ => signedRequest stampedSignature) redelivered :=
  ⟨fun _ => rfl, rfl, rfl, rfl⟩

theorem not_pending {k : Stage} {key : Key} (settled : k = .unchecked ∨ ∃ key, k = .succeeded key) :
    k ≠ .claimed key ∧ k ≠ .failed key := by
  obtain rfl | ⟨key, rfl⟩ := settled <;> exact ⟨nofun, nofun⟩

/-- A delivery that is handled to its end, and then another one up to its check. -/
def secondDelivery (handled : Except String Unit) : List Step :=
  let pass : Pass := { inboundPass stampedBody with handled := handled }
  List.replicate 5 (.step 0 pass) ++ List.replicate 4 (.step 1 pass)

theorem delivered_second :
    Delivered (runState Traffic.step redelivered (secondDelivery (.ok ()))) ∧
      checkingHooks.idempotencyChecker = true := by
  refine ⟨(delivered_iff_timely inboundLibrary checkingHooks (fun _ => inboundContract)
    (fun _ => signedRequest stampedSignature) redelivered rfl redelivered_start _).mpr
    ⟨trivial, trivial, trivial, ?_, trivial, trivial, trivial, trivial, ?_, trivial⟩, rfl⟩
  · rintro - (_ | j) <;> exact not_pending (.inl rfl)
  · rintro - (_ | _ | j)
    · exact not_pending (.inr ⟨_, rfl⟩)
    · exact not_pending (.inl rfl)
    · exact not_pending (.inl rfl)

theorem failed_delivery_acknowledged :
    ¬ ∀ (lib : Library Unit) (hooks : Hooks) (contracts : Nat → WebhookContract)
      (requests : Nat → Request) (t : Traffic Unit), hooks.idempotencyChecker = true →
        Start lib hooks contracts requests t → ∀ as, Delivered (runState Traffic.step t as) := by
  intro promise
  let as := secondDelivery (.error "out of stock")
  have delivered := promise inboundLibrary checkingHooks (fun _ => inboundContract)
    (fun _ => signedRequest stampedSignature) redelivered rfl redelivered_start as
  have inv : Inv (runState Traffic.step redelivered as) :=
    (Along.trivial Traffic.step redelivered as).inv (fun t a inv _ => inv.step a)
      (redelivered_start.inv rfl)
  obtain ⟨key, -, i, e, mem, handled⟩ := delivered.acknowledged _ (.head _) rfl
  have succeeded := stage_of_handled inv.disciplined.past mem handled
  rcases i with _ | _ | i <;> cases succeeded

end Lazuli.Webhooks
