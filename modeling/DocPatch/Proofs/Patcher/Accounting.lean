import DocPatch.Proofs.Patcher.Endings
import Mathlib.Algebra.GroupWithZero.Nat
import Mathlib.Logic.Function.Basic

/-! What is counted of the patches of several stores: each of them in exactly one of four counters,
    and the operations of those that succeeded. -/

namespace DocPatch

/-- What a patch is counted as. -/
inductive Tally where
  | patched
  | missed (phase : Phase)
  | failed
  deriving DecidableEq, Repr

namespace Tally

/-- What an answer is counted as. The failures that come from reading texts and files are no answers
    of a patch. -/
def of? : Except Failure Json → Option Tally
  | .ok _ => some .patched
  | .error (.notFound phase _) => some (.missed phase)
  -- A patch that was refused and a store that failed are counted alike.
  | .error (.store ..) | .error (.unsupportedShape _) => some .failed
  | .error _ => none

end Tally

namespace Counters

/-- The counter for patches of a kind. -/
def tallied : Tally → Counters → UInt64
  | .patched, counters => counters.patches
  | .missed .patch, counters => counters.missedWrites
  | .missed .get, counters => counters.missedReads
  | .failed, counters => counters.failures

/-- All patches, however they went. -/
def attempts (counters : Counters) : UInt64 :=
  counters.patches + counters.missedWrites + counters.missedReads + counters.failures

/-- One counter is raised by one, and with that for successes the number of operations. -/
structure Raised (tally : Tally) (operations : Nat) (before after : Counters) : Prop where
  tallied : ∀ other, after.tallied other = before.tallied other + if other = tally then 1 else 0
  operations : after.operations =
    before.operations + UInt64.ofNat (if tally = .patched then operations else 0)

/-- A success raises its counter. -/
theorem raised_countPatch (operations : Nat) (counters : Counters) :
    Raised .patched operations counters (counters.countPatch operations) where
  -- There are four counters, and one of them is raised.
  tallied other := by rcases other with _ | (_ | _) | _ <;> simp [countPatch, Counters.tallied]
  operations := by simp [countPatch]

/-- A miss raises the counter of its phase. -/
theorem raised_countMiss (phase : Phase) (operations : Nat) (counters : Counters) :
    Raised (.missed phase) operations counters (counters.countMiss phase) where
  -- The phase says which of the four counters is raised.
  tallied other := by
    cases phase <;> rcases other with _ | (_ | _) | _ <;> simp [countMiss, Counters.tallied]
  operations := by cases phase <;> simp [countMiss]

/-- Any other failure raises its counter. -/
theorem raised_countFailure (operations : Nat) (counters : Counters) :
    Raised .failed operations counters counters.countFailure where
  -- There are four counters, and one of them is raised.
  tallied other := by rcases other with _ | (_ | _) | _ <;> simp [countFailure, Counters.tallied]
  operations := by simp [countFailure]

/-- Whichever counter is raised, there is one attempt more. -/
theorem Raised.attempts {tally : Tally} {operations : Nat} {before after : Counters}
    (raised : Raised tally operations before after) : after.attempts = before.attempts + 1 := by
  -- The four counters are added up, of which one is raised.
  have patched := raised.tallied .patched
  have writes := raised.tallied (.missed .patch)
  have reads := raised.tallied (.missed .get)
  have failed := raised.tallied .failed
  simp only [Counters.tallied] at patched writes reads failed
  simp only [Counters.attempts, patched, writes, reads, failed]
  rcases tally with _ | (_ | _) | _ <;>
    simp only [reduceCtorEq, Tally.missed.injEq, ↓reduceIte, UInt64.add_zero] <;> ac_rfl

end Counters

namespace Patcher

variable {patcher : Patcher} {filter : Fields} {instruction : Instruction}
  {projection : Option Fields} {time : Timestamp}

/-- An answer is counted as what it is. -/
def Counted (operations : Nat) (before : Counters) (called : Except Failure Json × Patcher) :
    Prop :=
  ∃ tally, Tally.of? called.1 = some tally ∧
    Counters.Raised tally operations before called.2.counters

/-- A read that ends a patch counts the patch. -/
theorem readBack_counted (operations : Nat) :
    Counted operations patcher.counters (patcher.readBack filter projection operations) := by
  -- The read fails, finds nothing or finds the document, and each of these has its counter.
  unfold readBack
  rcases patcher.collection.findOne filter projection with ⟨_ | _ | _, _⟩
  · exact ⟨.failed, rfl, Counters.raised_countFailure _ _⟩
  · exact ⟨.missed .get, rfl, Counters.raised_countMiss _ _ _⟩
  · exact ⟨.patched, rfl, Counters.raised_countPatch _ _⟩

/-- A batch that ends a patch counts the patch; otherwise the read counts it. -/
theorem write_counted (batch : List Operation) :
    Counted batch.length patcher.counters (patcher.write filter projection batch) := by
  -- The batch fails, matches nothing or leads on to the read.
  simp only [write]
  rcases patcher.collection.bulkUpdate batch with ⟨error | outcome, after⟩
  · exact ⟨.failed, rfl, Counters.raised_countFailure _ _⟩
  · by_cases none_matched : outcome.matched = 0
    · simp only [none_matched, ↓reduceIte]
      exact ⟨.missed .patch, rfl, Counters.raised_countMiss _ _ _⟩
    · simp only [none_matched, ↓reduceIte]
      exact readBack_counted batch.length

/-- The number of operations that a patch is planned with; a refused one has none. -/
def planned (filter : Fields) (instruction : Instruction) (time : Timestamp) (patcher : Patcher) :
    Nat :=
  ((patcher.plan filter instruction time).toOption.getD []).length

/-- Every patch is counted once, as what its answer is. -/
theorem patch_counted :
    Counted (patcher.planned filter instruction time) patcher.counters
      (patcher.patch filter instruction projection time) := by
  unfold patch planned
  cases made : patcher.plan filter instruction time with
  | error failure =>
    -- Nothing but an unsupported shape stops a plan.
    obtain ⟨path, rfl⟩ := plan_eq_error made
    exact ⟨.failed, rfl, Counters.raised_countFailure _ _⟩
  | ok batch => exact write_counted batch

end Patcher

/-- A call to patch: for which documents, what, and what is to be shown; and the reading
    of the clock. -/
structure Request where
  filter : Fields
  instruction : Instruction
  projection : Option Fields
  time : Timestamp

/-- A patch that was made: how many operations it was planned with, its answer, and the counters
    before and after it. -/
structure Attempt where
  operations : Nat
  answer : Except Failure Json
  before : Counters
  after : Counters

/-- Stores by number, each with its settings, that share their counters. -/
structure Service where
  stores : Nat → Collection × Settings
  counters : Counters

/-- What happens to one of the stores: it is patched, or anything else, which is not counted. -/
inductive Event where
  | patch (store : Nat) (request : Request)
  | other (store : Nat) (becomes : Collection × Settings)

namespace Event

/-- Whether a store is patched. -/
def isPatch : Event → Bool
  | .patch .. => true
  | .other .. => false

end Event

namespace Service

/-- The service after an event, and the patch if it was one. -/
def step (service : Service) : Event → List Attempt × Service
  | .patch store ⟨filter, instruction, projection, time⟩ =>
    -- All stores share the counters of the service.
    let (collection, settings) := service.stores store
    let patcher : Patcher := ⟨collection, service.counters, settings⟩
    let (answer, after) := patcher.patch filter instruction projection time
    let stores := Function.update service.stores store (after.collection, settings)
    ([⟨patcher.planned filter instruction time, answer, service.counters, after.counters⟩],
      ⟨stores, after.counters⟩)
  -- Anything else may happen to a store, but it counts nothing.
  | .other store becomes =>
    ([], { service with stores := Function.update service.stores store becomes })

/-- The service after events, and the patches among them, in their order. -/
def run (service : Service) : List Event → List Attempt × Service
  | [] => ([], service)
  | event :: rest =>
    -- The next event meets the counters and stores that this one left.
    let (here, next) := service.step event
    let (later, last) := next.run rest
    (here ++ later, last)

end Service

namespace Attempt

/-- The patch has raised exactly the counter for its answer. -/
def Counted (attempt : Attempt) : Prop :=
  ∃ tally, Tally.of? attempt.answer = some tally ∧
    Counters.Raised tally attempt.operations attempt.before attempt.after

/-- The number of operations if the patch succeeded. -/
def succeeded (attempt : Attempt) : Nat := if attempt.answer.isOk then attempt.operations else 0

/-- What successful patches add up to is the sum over those that succeeded. -/
theorem sum_succeeded (attempts : List Attempt) :
    (attempts.map succeeded).sum =
      ((attempts.filter fun attempt => attempt.answer.isOk).map Attempt.operations).sum := by
  -- An attempt without success adds nothing.
  induction attempts with
  | nil => rfl
  | cons attempt rest ih => by_cases ok : attempt.answer.isOk = true <;> simp [succeeded, ok, ih]

/-- A patch that was counted has raised the number of operations if it succeeded. -/
theorem Counted.operations {attempt : Attempt} (counted : attempt.Counted) :
    attempt.after.operations = attempt.before.operations + UInt64.ofNat attempt.succeeded := by
  obtain ⟨tally, told, raised⟩ := counted
  rw [raised.operations, succeeded]
  -- An answer is counted as a success just when it is one.
  congr 2
  cases answer : attempt.answer with
  | ok shown =>
    rw [answer] at told
    simp [← Option.some.inj told, Except.isOk, Except.toBool]
  | error failure =>
    rw [answer] at told
    have other : tally ≠ .patched := by
      rintro rfl
      cases failure <;> simp [Tally.of?] at told
    simp [other, Except.isOk, Except.toBool]

end Attempt

namespace Service

/-- A patch of a store is counted, and nothing else is. -/
theorem step_counted (service : Service) (event : Event) :
    (∃ attempt, event.isPatch = true ∧ (service.step event).1 = [attempt] ∧ attempt.Counted ∧
      attempt.before = service.counters ∧ attempt.after = (service.step event).2.counters) ∨
    (event.isPatch = false ∧ (service.step event).1 = [] ∧
      (service.step event).2.counters = service.counters) := by
  -- Only a patch makes an attempt, and every other event leaves the counters.
  cases event with
  | other store becomes => exact .inr ⟨rfl, rfl, rfl⟩
  | patch store request => exact .inl ⟨_, rfl, rfl, Patcher.patch_counted, rfl, rfl⟩

/-- All patches of a run are counted. -/
theorem run_counted (service : Service) (events : List Event) :
    ∀ attempt ∈ (service.run events).1, attempt.Counted := by
  -- The attempts of a run are those of its first event and those of the rest.
  induction events generalizing service with
  | nil => simp [run]
  | cons event rest ih =>
    simp only [run, List.forall_mem_append]
    refine ⟨?_, ih _⟩
    rcases service.step_counted event with ⟨attempt, -, made, counted, -, -⟩ | ⟨-, none_made, -⟩
    · simpa [made] using counted
    · simp [none_made]

/-- A counter that every patch raises by some number is raised by their sum in a run. -/
theorem run_raises (reading : Counters → UInt64) (amount : Attempt → Nat)
    (each : ∀ attempt : Attempt, attempt.Counted →
      reading attempt.after = reading attempt.before + UInt64.ofNat (amount attempt))
    (service : Service) (events : List Event) :
    reading (service.run events).2.counters =
      reading service.counters + UInt64.ofNat ((service.run events).1.map amount).sum := by
  -- The induction is on the events, from the counters that the first one leaves.
  induction events generalizing service with
  | nil => simp [run]
  | cons event rest ih =>
    simp only [run, List.map_append, List.sum_append, ih]
    rcases service.step_counted event with
      ⟨attempt, -, made, counted, before, after⟩ | ⟨-, none_made, kept⟩
    · -- The first patch raises the counter, and the others raise it from there.
      rw [← after, each attempt counted, before, made]
      simp [UInt64.add_assoc]
    · simp [none_made, kept]

/-- A run makes as many attempts as there are patches among its events. -/
theorem length_run (service : Service) (events : List Event) :
    (service.run events).1.length = events.countP Event.isPatch := by
  -- Each event makes one attempt if it is a patch, and none otherwise.
  induction events generalizing service with
  | nil => rfl
  | cons event rest ih =>
    simp only [run, List.length_append, ih, List.countP_cons]
    rcases service.step_counted event with ⟨attempt, is, made, -⟩ | ⟨is, none_made, -⟩
    · simp [made, is, Nat.add_comm]
    · simp [none_made, is]

/-- Every patch is counted exactly once. Whatever happens to the stores of a service, each patch
    raises just the counter for its answer; the four counters together grow by the number of
    patches, and the counter of operations by the operations of those that succeeded. -/
theorem run_accounts (service : Service) (events : List Event) :
    (∀ attempt ∈ (service.run events).1, attempt.Counted) ∧
      (service.run events).2.counters.attempts =
        service.counters.attempts + UInt64.ofNat (events.countP Event.isPatch) ∧
      (service.run events).2.counters.operations = service.counters.operations +
        UInt64.ofNat (((service.run events).1.filter fun attempt => attempt.answer.isOk).map
          Attempt.operations).sum := by
  refine ⟨service.run_counted events, ?_, ?_⟩
  · -- Every patch is one attempt.
    have one := run_raises Counters.attempts (fun _ => 1) (fun attempt counted => by
      obtain ⟨tally, -, raised⟩ := counted
      exact raised.attempts) service events
    simpa [length_run] using one
  · have sums := run_raises Counters.operations Attempt.succeeded
      (fun attempt counted => counted.operations) service events
    rw [sums, Attempt.sum_succeeded]

end Service

end DocPatch
