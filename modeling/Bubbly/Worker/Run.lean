import Mathlib.Logic.Relation
import Mathlib.Data.List.OfFn

/-!
# The worker: polling, and `Run` with its goroutine

`Worker.Run` makes a channel `ch` of capacity one, starts `run` in a goroutine, and waits in a
`select` for an error on `ch` or for the agent's context to be done. It returns whichever comes
first, and its deferred `close(ch)` closes the channel on the way out. `run` polls the data store
until it answers with pipeline runs, forms a resource of each, and hands them to the interval
worker. At each check that fails it sends an error on `ch`, and carries on.

**Polling.** `pollResources` asks again until a reply unmarshals, without an error, into a
non-empty list: it returns the first such reply, with a nil error (`pollResources_eq_some_iff`,
from the search `pollResources_eq`). So `run` never
sends its polling or unmarshalling error, and what it sends is one error for each failed check of
its loop over the blocks, then the interval worker's (`run_eq`, `formResources_eq`).

**The channel.** `Step` is one move of `Run` or of its goroutine under Go's rules for a buffered
channel: a send waits while the buffer is full and panics once the channel is closed, and a
goroutine waiting to send panics when the channel is closed. In every interleaving at most two
sends get through and `Run` returns the first error sent or the context's error
(`Reachable.inv`); every run of moves is finite (`step_wf`) and stops only with `Run` returned and
the goroutine done or panicking (`terminal_cases`). From a third error on a panic is certain, and
one error is enough for a panic to be possible (`worker_run_panics`).

**The worker as a whole.** With the sends of `run` on `ch`: when every block forms and the
interval worker returns nil, `run` sends nothing, so no interleaving panics and `Run` returns only
once the agent's context is done (`worker_run_healthy`).
-/

namespace Bubbly

namespace Worker

/-! ## Polling the data store -/

/-- What `json.Unmarshal(data, &blocks)` leaves, with `blocks` made as an empty slice: the slice
(`none` for nil, which a JSON `null` gives; with an error, what was decoded before it) and the
error. -/
structure Unmarshalled (B : Type) where
  blocks : Option (List B)
  err : Option String

/-- The checks of `pollResources` on an unmarshalled reply, in their order: a nil slice, an
error, and a slice `reflect.DeepEqual` to the empty one. A reply that passes all three is
returned. -/
def accepts {B : Type} : Unmarshalled B → Bool
  | ⟨none, _⟩ => false
  | ⟨some _, some _⟩ => false
  | ⟨some bs, none⟩ => !bs.isEmpty

section Poll

variable {D B : Type} (request : Nat → Except String D) (unmarshal : D → Unmarshalled B)

/-- `w.pollResources`, from the `n`-th request on and for at most `fuel` requests. A reply is
modelled by its data, the only part of it `run` reads, and `request n` is what the `n`-th call of
`w.Request` returns. The loop's only exit returns the reply with a nil error; after any other
answer it logs, sleeps `defaultPollTimeout` seconds and asks again, so the `return &pub, nil`
after the loop is never reached. -/
def pollResources : Nat → Nat → Option (D × Option String)
  | 0, _ => none
  | fuel + 1, n =>
    match request n with
    | .ok reply =>
      if accepts (unmarshal reply) then some (reply, none) else pollResources fuel (n + 1)
    | .error _ => pollResources fuel (n + 1)

def acceptedAt (n : Nat) : Bool :=
  match request n with
  | .ok reply => accepts (unmarshal reply)
  | .error _ => false

/-- The polling loop is the search for the first request, from the `n`-th on, whose reply passes
its checks; it returns that reply with a nil error. -/
theorem pollResources_eq : ∀ fuel n, pollResources request unmarshal fuel n =
    ((List.range' n fuel).find? (acceptedAt request unmarshal)).bind
      fun k => (request k).toOption.map (·, none)
  | 0, n => rfl
  | fuel + 1, n => by
    rw [List.range'_succ, List.find?_cons, pollResources]
    cases h : request n with
    | error => simp [acceptedAt, h, pollResources_eq fuel (n + 1)]
    | ok reply =>
      by_cases ha : accepts (unmarshal reply) <;>
        simp [acceptedAt, h, ha, Except.toOption, pollResources_eq fuel (n + 1)]

theorem accepts_iff (u : Unmarshalled B) :
    accepts u = true ↔ ∃ bs, u.blocks = some bs ∧ u.err = none ∧ bs ≠ [] := by
  rcases u with ⟨_ | bs, _ | e⟩ <;> simp [accepts]

/-- The `k`-th request is answered without an error, with a reply whose data unmarshals, without
an error, into a non-nil and non-empty list of blocks. -/
def Answered (k : Nat) (reply : D) : Prop :=
  request k = .ok reply ∧
    ∃ bs, (unmarshal reply).blocks = some bs ∧ (unmarshal reply).err = none ∧ bs ≠ []

theorem acceptedAt_iff (k : Nat) :
    acceptedAt request unmarshal k = true ↔ ∃ reply, Answered request unmarshal k reply := by
  unfold acceptedAt Answered
  cases request k <;> simp [accepts_iff]

theorem accepts_of_pollResources {fuel n : Nat} {reply : D} {err : Option String}
    (h : pollResources request unmarshal fuel n = some (reply, err)) :
    err = none ∧ ∃ bs, (unmarshal reply).blocks = some bs ∧ (unmarshal reply).err = none ∧
      bs ≠ [] := by
  rw [pollResources_eq, Option.bind_eq_some] at h
  obtain ⟨k, hk, hr⟩ := h
  obtain ⟨r, hreq, hacc⟩ := (acceptedAt_iff request unmarshal k).mp (List.find?_some hk)
  simp only [hreq, Except.toOption, Option.map_some', Option.some.injEq, Prod.mk.injEq] at hr
  obtain ⟨rfl, rfl⟩ := hr
  exact ⟨rfl, hacc⟩

/-- **Polling.** `pollResources` returns, with a nil error, exactly the reply of the first request
from the `n`-th on, among the next `fuel`, that is answered without an error and unmarshals,
without an error, into a non-nil and non-empty list of blocks. -/
theorem pollResources_eq_some_iff (fuel n : Nat) (reply : D) (err : Option String) :
    pollResources request unmarshal fuel n = some (reply, err) ↔
      err = none ∧ ∃ k, n ≤ k ∧ k < n + fuel ∧ Answered request unmarshal k reply ∧
        ∀ j, n ≤ j → j < k → ∀ r, ¬ Answered request unmarshal j r := by
  have hfirst : ∀ k, (List.range' n fuel).find? (acceptedAt request unmarshal) = some k ↔
      (n ≤ k ∧ k < n + fuel) ∧ (∃ r, Answered request unmarshal k r) ∧
        ∀ j, n ≤ j → j < k → ∀ r, ¬ Answered request unmarshal j r := fun k => by
    simp only [List.find?_range'_eq_some, List.mem_range'_1, acceptedAt_iff, Bool.not_eq_true',
      Bool.eq_false_iff, ne_eq, not_exists]
    tauto
  rw [pollResources_eq, Option.bind_eq_some]
  constructor
  · rintro ⟨k, hk, hr⟩
    obtain ⟨hkn, ⟨r, hreq, hacc⟩, hbefore⟩ := (hfirst k).mp hk
    simp only [hreq, Except.toOption, Option.map_some', Option.some.injEq, Prod.mk.injEq] at hr
    obtain ⟨rfl, rfl⟩ := hr
    exact ⟨rfl, k, hkn.1, hkn.2, ⟨hreq, hacc⟩, hbefore⟩
  · rintro ⟨rfl, k, h₁, h₂, ⟨hreq, hacc⟩, hbefore⟩
    exact ⟨k, (hfirst k).mpr ⟨⟨h₁, h₂⟩, ⟨reply, hreq, hacc⟩, hbefore⟩, by simp [hreq, Except.toOption]⟩

end Poll

/-! ## What `run` sends -/

section Run

variable {D B RB R : Type} (request : Nat → Except String D) (unmarshal : D → Unmarshalled B)
  (resourceBlock : B → RB × Option String) (newResource : RB → R × Option String)
  (workerRun : List R → Option String)

/-- The body of `run`'s loop over the unmarshalled blocks: the errors sent so far, and the
resources appended. A failed check does not stop the loop: the block `ResourceBlock` returned
with its error still goes to `NewResource`, and the resource `NewResource` returned with its
error is still appended. -/
def formResource (acc : List String × List R) (b : B) : List String × List R :=
  let (rb, e₁) := resourceBlock b
  let (res, e₂) := newResource rb
  (acc.1 ++ (e₁.map ("failed to form resourceBlock: " ++ ·)).toList
      ++ (e₂.map ("failed to form resource: " ++ ·)).toList,
    acc.2 ++ [res])

/-- The errors `w.run` sends on `ch`, in order, when `pollResources` returns within `fuel`
requests; none while it still polls. `ResourceBlock`, `NewResource` and
`ResourceWorker.Run` are not among the sources and are parameters; a call of `ResourceWorker.Run`
that never returns sends nothing after the loop, which is a prefix of this list. -/
def run (fuel : Nat) : List String :=
  match pollResources request unmarshal fuel 0 with
  | none => []
  | some (reply, err) =>
    let u := unmarshal reply
    let (sent, resources) :=
      (u.blocks.getD []).foldl (formResource resourceBlock newResource) ([], [])
    (err.map ("worker failed while polling for resources: " ++ ·)).toList
      ++ (u.err.map ("failed to unmarshal pipeline_run resources from data store: " ++ ·)).toList
      ++ sent ++ ((workerRun resources).map ("interval worker failure: " ++ ·)).toList

def blockErrors (b : B) : List String :=
  ((resourceBlock b).2.map ("failed to form resourceBlock: " ++ ·)).toList
    ++ ((newResource (resourceBlock b).1).2.map ("failed to form resource: " ++ ·)).toList

theorem formResources_eq (bs : List B) : ∀ acc : List String × List R,
    bs.foldl (formResource resourceBlock newResource) acc =
      (acc.1 ++ bs.flatMap (blockErrors resourceBlock newResource),
        acc.2 ++ bs.map fun b => (newResource (resourceBlock b).1).1) := by
  induction bs with
  | nil => simp
  | cons b bs ih => intro acc; simp [ih, formResource, blockErrors]

/-- Once `pollResources` has returned a reply, `run` sends, in order, the errors of each of its
blocks and then the interval worker's error, if any; it never sends its polling or its
unmarshalling error, since the reply it unmarshals again is one `pollResources` checked. -/
theorem run_eq {fuel : Nat} {reply : D} {err : Option String}
    (h : pollResources request unmarshal fuel 0 = some (reply, err)) :
    ∃ bs, (unmarshal reply).blocks = some bs ∧ bs ≠ [] ∧
      run request unmarshal resourceBlock newResource workerRun fuel =
        bs.flatMap (blockErrors resourceBlock newResource) ++
          ((workerRun (bs.map fun b => (newResource (resourceBlock b).1).1)).map
            ("interval worker failure: " ++ ·)).toList := by
  obtain ⟨rfl, bs, hbs, herr, hne⟩ := accepts_of_pollResources request unmarshal h
  refine ⟨bs, hbs, hne, ?_⟩
  simp [run, h, hbs, herr, formResources_eq]

/-- The store answers the second request with one block, which fails to form a resource block,
and the interval worker stops: `run` sends both errors. -/
theorem run_eq_second :
    ∃ bs, (⟨some [()], none⟩ : Unmarshalled Unit).blocks = some bs ∧ bs ≠ [] ∧
      run (fun n => if n = 0 then .error "no responders" else .ok ()) (fun _ => ⟨some [()], none⟩)
          (fun b => (b, some "bad block")) (fun _ => ((), none)) (fun _ => some "stopped") 2 =
        bs.flatMap (blockErrors (fun b => (b, some "bad block")) fun _ => ((), none)) ++
          ["interval worker failure: " ++ "stopped"] :=
  @run_eq Unit Unit Unit Unit (fun n => if n = 0 then .error "no responders" else .ok ())
    (fun _ => ⟨some [()], none⟩) (fun b => (b, some "bad block")) (fun _ => ((), none))
    (fun _ => some "stopped") 2 () none rfl

end Run

/-! ## `Run` and its goroutine over `ch` -/

/-- `make(chan error, 1)`. -/
def chanCap : Nat := 1

/-- Where `Run` is: in its `select`, returning its result with its deferred `close(ch)` still to
run, or returned. -/
inductive RunStage
  | selecting
  | returning (result : String)
  | returned (result : String)
  deriving DecidableEq, Repr

/-- The state of `Run`, its goroutine and `ch`: the errors the goroutine has still to send, the
channel's buffer, whether it is closed, where `Run` is, and whether a send has panicked. An
unrecovered panic ends the program. -/
structure RunState where
  pending : List String
  buf : List String
  closed : Bool
  stage : RunStage
  panicked : Bool
  deriving DecidableEq, Repr

/-- After `go w.run(bCtx, ch)`: the goroutine has all its errors to send, `ch` is empty and
open, and `Run` is at its `select`. -/
def RunState.init (sends : List String) : RunState :=
  ⟨sends, [], false, .selecting, false⟩

/-- One move of `Run` or of its goroutine, under Go's rules for channels, with `ctxErr` for
`agentContext.Err()`: the goroutine's `ch <- err` with room in the buffer, or once `ch` is closed
(a panic, also for a goroutine that was waiting to send); `Run`'s `case err := <-ch` or
`case <-agentContext.Done()`, the context being done at any time; and the deferred `close(ch)` as
`Run` returns. Nothing moves after a panic. -/
inductive Step (ctxErr : String) : RunState → RunState → Prop
  | send {s : RunState} {e : String} {rest : List String} : s.panicked = false →
      s.closed = false → s.buf.length < chanCap → s.pending = e :: rest →
      Step ctxErr s { s with pending := rest, buf := s.buf ++ [e] }
  | sendClosed {s : RunState} {e : String} {rest : List String} : s.panicked = false →
      s.closed = true → s.pending = e :: rest → Step ctxErr s { s with panicked := true }
  | receive {s : RunState} {e : String} {rest : List String} : s.panicked = false →
      s.stage = .selecting → s.buf = e :: rest →
      Step ctxErr s { s with stage := .returning ("error while running Worker: " ++ e), buf := rest }
  | done {s : RunState} : s.panicked = false → s.stage = .selecting →
      Step ctxErr s { s with stage := .returning ctxErr }
  | close {s : RunState} {r : String} : s.panicked = false → s.stage = .returning r →
      Step ctxErr s { s with stage := .returned r, closed := true }

def Reachable (ctxErr : String) (sends : List String) (s : RunState) : Prop :=
  Relation.ReflTransGen (Step ctxErr) (RunState.init sends) s

def Terminal (ctxErr : String) (s : RunState) : Prop :=
  ∀ t, ¬ Step ctxErr s t

/-- What `Run` has taken from `ch`, by where it is: nothing while it selects; once it returns,
nothing if it returns the context's error, and otherwise the error it returns. -/
def Taken (ctxErr : String) : RunStage → List String → Prop
  | .selecting, taken => taken = []
  | .returning r, taken | .returned r, taken =>
    taken = [] ∧ r = ctxErr ∨ ∃ e, taken = [e] ∧ r = "error while running Worker: " ++ e

/-- What holds in every reachable state: the buffer holds at most one error, `ch` is closed
exactly once `Run` has returned, and the errors sent are, in order, the one `Run` took if any,
the buffered ones and those still to send. -/
structure Inv (ctxErr : String) (sends : List String) (s : RunState) : Prop where
  buf_le : s.buf.length ≤ chanCap
  closed_iff : s.closed = true ↔ ∃ r, s.stage = .returned r
  sent : ∃ taken, Taken ctxErr s.stage taken ∧ sends = taken ++ s.buf ++ s.pending

section Protocol

variable {ctxErr : String} {sends : List String} {s t : RunState}

theorem Inv.init : Inv ctxErr sends (RunState.init sends) :=
  ⟨by simp [RunState.init, chanCap], by simp [RunState.init], [], rfl, by simp [RunState.init]⟩

theorem Inv.step (hi : Inv ctxErr sends s) (h : Step ctxErr s t) : Inv ctxErr sends t := by
  obtain ⟨hb, hc, taken, ht, hs⟩ := hi
  cases h with
  | send _ _ hlt hp =>
    refine ⟨?_, hc, taken, ht, by simp [hs, hp]⟩
    simp only [chanCap, List.length_append, List.length_singleton] at hlt ⊢
    omega
  | sendClosed => exact ⟨hb, hc, taken, ht, hs⟩
  | @receive e rest _ hst hbuf =>
    simp only [hst, Taken] at ht hc
    subst ht
    refine ⟨?_, by simpa using hc, [e], Or.inr ⟨e, rfl, rfl⟩, by simp [hs, hbuf]⟩
    simp only [hbuf, List.length_cons] at hb
    simp only [chanCap] at hb ⊢
    omega
  | done _ hst =>
    simp only [hst, Taken] at ht hc
    exact ⟨hb, by simpa using hc, taken, Or.inl ⟨ht, rfl⟩, hs⟩
  | close _ hst =>
    rw [hst] at ht
    exact ⟨hb, by simp, taken, ht, hs⟩

theorem Reachable.inv (h : Reachable ctxErr sends s) : Inv ctxErr sends s := by
  induction h with
  | refl => exact Inv.init
  | tail _ hst ih => exact ih.step hst

def RunStage.rank : RunStage → Nat
  | .selecting => 2
  | .returning _ => 1
  | .returned _ => 0

def RunState.measure (s : RunState) : Nat :=
  s.pending.length + s.stage.rank + if s.panicked then 0 else 1

theorem measure_lt_of_step (h : Step ctxErr s t) : t.measure < s.measure := by
  cases h with
  | send _ _ _ hp => simp [RunState.measure, hp]
  | sendClosed hpan => simp [RunState.measure, hpan]
  | receive _ hst => simp [RunState.measure, hst, RunStage.rank]
  | done _ hst => simp [RunState.measure, hst, RunStage.rank]
  | close _ hst => simp [RunState.measure, hst, RunStage.rank]

/-- Every run of moves is finite, from any state. -/
theorem step_wf : WellFounded fun t s => Step ctxErr s t :=
  Subrelation.wf measure_lt_of_step (measure RunState.measure).wf

/-- A state from which nothing moves has `Run` returned and the goroutine done, or a panic. -/
theorem terminal_cases (hi : Inv ctxErr sends s) (ht : Terminal ctxErr s) :
    s.panicked = true ∨ ∃ r, s.stage = .returned r ∧ s.pending = [] := by
  cases hp : s.panicked
  · right
    cases hst : s.stage with
    | selecting => exact absurd (Step.done hp hst) (ht _)
    | returning r => exact absurd (Step.close hp hst) (ht _)
    | returned r =>
      refine ⟨r, rfl, ?_⟩
      cases hpend : s.pending with
      | nil => rfl
      | cons e rest =>
        exact absurd (Step.sendClosed hp (hi.closed_iff.mpr ⟨r, hst⟩) hpend) (ht _)
  · exact Or.inl rfl

theorem Taken.length_le {st : RunStage} {taken : List String} (h : Taken ctxErr st taken) :
    taken.length ≤ 1 := by
  cases st <;> simp only [Taken] at h
  · simp [h]
  all_goals rcases h with ⟨rfl, -⟩ | ⟨e, rfl, -⟩ <;> simp

theorem Inv.length_taken (hi : Inv ctxErr sends s) :
    sends.length ≤ s.pending.length + 2 := by
  obtain ⟨hb, -, taken, ht, hs⟩ := hi
  have := ht.length_le
  simp only [chanCap] at hb
  simp only [hs, List.length_append]
  omega

/-- **Run and its goroutine.** In every interleaving, at most two of the goroutine's errors get
through; `Run` returns the first error sent, wrapped, or the context's error; and every run of
moves is finite and stops only with `Run` returned and the goroutine done or panicking. -/
theorem worker_run_safety (ctxErr : String) (sends : List String) :
    WellFounded (fun t s => Step ctxErr s t) ∧
    ∀ s, Reachable ctxErr sends s →
      sends.length ≤ s.pending.length + 2 ∧
      (∀ r, (s.stage = .returning r ∨ s.stage = .returned r) →
        r = ctxErr ∨ ∃ e rest, sends = e :: rest ∧ r = "error while running Worker: " ++ e) ∧
      (Terminal ctxErr s → s.panicked = true ∨ ∃ r, s.stage = .returned r ∧ s.pending = []) := by
  refine ⟨step_wf, fun s hs => ?_⟩
  have hi := hs.inv
  refine ⟨hi.length_taken, fun r hr => ?_, terminal_cases hi⟩
  obtain ⟨-, -, taken, ht, hsends⟩ := hi
  rcases hr with hr | hr <;> simp only [hr, Taken] at ht <;>
    rcases ht with ⟨-, rfl⟩ | ⟨e, rfl, rfl⟩ <;> simp [hsends]

/-- Three errors: `Run` takes `a`, `b` waits in the buffer, `Run` returns and closes `ch`, and
the goroutine's send of `c` panics. -/
def threeSendsPanicked : RunState :=
  ⟨["c"], ["b"], true, .returned "error while running Worker: a", true⟩

theorem worker_run_safety_three :
    Reachable "context canceled" ["a", "b", "c"] threeSendsPanicked ∧
      (["a", "b", "c"].length ≤ threeSendsPanicked.pending.length + 2 ∧
      (∀ r, (threeSendsPanicked.stage = .returning r ∨ threeSendsPanicked.stage = .returned r) →
        r = "context canceled" ∨ ∃ e rest, ["a", "b", "c"] = e :: rest ∧
          r = "error while running Worker: " ++ e) ∧
      (Terminal "context canceled" threeSendsPanicked → threeSendsPanicked.panicked = true ∨
        ∃ r, threeSendsPanicked.stage = .returned r ∧ threeSendsPanicked.pending = [])) :=
  have hs : Reachable "context canceled" ["a", "b", "c"] threeSendsPanicked :=
    .tail (.tail (.tail (.tail (.tail .refl (Step.send rfl rfl (by decide) rfl))
      (Step.receive rfl rfl rfl)) (Step.send rfl rfl (by decide) rfl)) (Step.close rfl rfl))
      (Step.sendClosed rfl rfl rfl)
  ⟨hs, (worker_run_safety "context canceled" ["a", "b", "c"]).2 _ hs⟩

theorem not_panicked_of_nil (h : Reachable ctxErr [] s) : s.panicked = false := by
  induction h with
  | refl => rfl
  | @tail u v hu hst ih =>
    obtain ⟨-, -, taken, -, hsends⟩ := Reachable.inv hu
    have hpend : u.pending = [] := by simpa using (List.append_eq_nil.mp hsends.symm).2
    cases hst with
    | sendClosed _ _ hp => simp [hpend] at hp
    | _ => exact ih

/-- **The panic.** Once `Run` has returned, the goroutine's next error panics. So with three
errors or more every interleaving ends in a panic; one error is enough for some interleaving to
panic (the context is done first); and with none no interleaving panics. -/
theorem worker_run_panics (ctxErr : String) (sends : List String) :
    (3 ≤ sends.length → ∀ s, Reachable ctxErr sends s → Terminal ctxErr s → s.panicked = true) ∧
    (sends ≠ [] → ∃ s, Reachable ctxErr sends s ∧ s.panicked = true) ∧
    (sends = [] → ∀ s, Reachable ctxErr sends s → s.panicked = false) := by
  refine ⟨fun h3 s hs ht => ?_, fun hne => ?_, fun h s hs => not_panicked_of_nil (h ▸ hs)⟩
  · rcases terminal_cases hs.inv ht with hp | ⟨r, -, hpend⟩
    · exact hp
    · have := hs.inv.length_taken
      rw [hpend, List.length_nil] at this
      omega
  · obtain ⟨e, rest, rfl⟩ := List.exists_cons_of_ne_nil hne
    let s₁ : RunState := { RunState.init (e :: rest) with stage := .returning ctxErr }
    let s₂ : RunState := { s₁ with stage := .returned ctxErr, closed := true }
    have h₁ : Step ctxErr (RunState.init (e :: rest)) s₁ := Step.done rfl rfl
    have h₂ : Step ctxErr s₁ s₂ := Step.close rfl rfl
    have h₃ : Step ctxErr s₂ { s₂ with panicked := true } := Step.sendClosed rfl rfl rfl
    exact ⟨_, ((Relation.ReflTransGen.single h₁).tail h₂).tail h₃, rfl⟩

/-- One error is enough: the context is done first, `Run` returns and closes `ch`, and the send
panics. -/
theorem worker_run_panics_one :
    ∃ s, Reachable "context canceled" ["interval worker failure: x"] s ∧ s.panicked = true :=
  (worker_run_panics _ _).2.1 (List.cons_ne_nil _ _)

end Protocol

/-! ## The worker as a whole -/

section Whole

variable {D B RB R : Type} (request : Nat → Except String D) (unmarshal : D → Unmarshalled B)
  (resourceBlock : B → RB × Option String) (newResource : RB → R × Option String)
  (workerRun : List R → Option String)

theorem run_eq_nil (fuel : Nat)
    (hblocks : ∀ reply bs, (unmarshal reply).blocks = some bs → ∀ b ∈ bs,
      (resourceBlock b).2 = none ∧ (newResource (resourceBlock b).1).2 = none)
    (hworker : ∀ rs, workerRun rs = none) :
    run request unmarshal resourceBlock newResource workerRun fuel = [] := by
  cases hpoll : pollResources request unmarshal fuel 0 with
  | none => simp [run, hpoll]
  | some p =>
    obtain ⟨reply, err⟩ := p
    obtain ⟨bs, hbs, -, hrun⟩ := run_eq request unmarshal resourceBlock newResource workerRun hpoll
    have hnil : ∀ b ∈ bs, blockErrors resourceBlock newResource b = [] := fun b hb => by
      simp [blockErrors, (hblocks reply bs hbs b hb).1, (hblocks reply bs hbs b hb).2]
    simpa [hrun, hworker] using hnil

/-- **A healthy worker.** When every block forms and the interval worker returns nil, no
interleaving of `Run` with its goroutine panics, and `Run` returns only the context's error:
it returns once the agent's context is done, and not before. -/
theorem worker_run_healthy (fuel : Nat) (ctxErr : String)
    (hblocks : ∀ reply bs, (unmarshal reply).blocks = some bs → ∀ b ∈ bs,
      (resourceBlock b).2 = none ∧ (newResource (resourceBlock b).1).2 = none)
    (hworker : ∀ rs, workerRun rs = none) (s : RunState)
    (hs : Reachable ctxErr (run request unmarshal resourceBlock newResource workerRun fuel) s) :
    s.panicked = false ∧ ∀ r, (s.stage = .returning r ∨ s.stage = .returned r) → r = ctxErr := by
  rw [run_eq_nil request unmarshal resourceBlock newResource workerRun fuel hblocks hworker] at hs
  refine ⟨not_panicked_of_nil hs, fun r hr => ?_⟩
  obtain ⟨-, -, taken, ht, hsends⟩ := hs.inv
  obtain rfl := (List.append_eq_nil.mp (List.append_eq_nil.mp hsends.symm).1).1
  rcases hr with hr | hr <;> simp only [hr, Taken] at ht <;> simpa using ht

/-- A store that fails its first request, answers the second with no blocks and the third with
one: the block forms and the worker succeeds, so when the context is done `Run` returns its error
and closes `ch`, and nothing panics. -/
def healthyReturned : RunState :=
  ⟨[], [], true, .returned "context canceled", false⟩

theorem worker_run_healthy_one :
    Reachable "context canceled" (run (fun n => if n = 0 then .error "timeout" else .ok n)
        (fun n => if n = 1 then ⟨some [], none⟩ else ⟨some [()], none⟩) (fun b => (b, none))
        (fun _ => ((), none)) (fun _ => none) 3) healthyReturned ∧
      healthyReturned.panicked = false ∧ ∀ r, (healthyReturned.stage = .returning r ∨
        healthyReturned.stage = .returned r) → r = "context canceled" :=
  have hs : Reachable "context canceled" (run (fun n => if n = 0 then .error "timeout" else .ok n)
      (fun n => if n = 1 then ⟨some [], none⟩ else ⟨some [()], none⟩) (fun b => (b, none))
      (fun _ => ((), none)) (fun _ => none) 3) healthyReturned :=
    .tail (.tail .refl (Step.done rfl rfl)) (Step.close rfl rfl)
  ⟨hs, worker_run_healthy (fun n => if n = 0 then .error "timeout" else .ok n)
    (fun n => if n = 1 then ⟨some [], none⟩ else ⟨some [()], none⟩) (fun b => (b, none))
    (fun _ => ((), none)) (fun _ => none) 3 "context canceled" (fun _ _ _ _ _ => ⟨rfl, rfl⟩)
    (fun _ => rfl) _ hs⟩

end Whole

end Worker

end Bubbly
