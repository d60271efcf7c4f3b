import ChipEight.Fault
import ChipEight.Log

/-!
# Outcomes

An operation leaves a state behind whether it fails or not, and may report on its way. Its
outcome holds all three: what comes after, the fault if there was one, and the reports in order.

* `Outcome` : state, fault and log;
* `Outcome.done`, `Outcome.failed` : success and failure without a report;
* `Outcome.andThen` : one operation after another, the second only if the first succeeds;
* `Outcome.map` : the same outcome seen as one of a larger state.
-/

namespace ChipEight

/-- What an operation leaves behind. -/
structure Outcome (σ : Type) where
  /-- The state afterwards, also after a failure. -/
  state : σ
  /-- The fault, if the operation failed. -/
  fault : Option Fault
  /-- The reports, in order. -/
  log : List Event

namespace Outcome

variable {σ τ : Type}

/-- Success without a report. -/
def done (s : σ) : Outcome σ := ⟨s, none, []⟩

/-- Success with reports. -/
def reported (s : σ) (log : List Event) : Outcome σ := ⟨s, none, log⟩

/-- Failure without a report, in the state reached so far. -/
def failed (s : σ) (f : Fault) : Outcome σ := ⟨s, some f, []⟩

/-- The same outcome seen as one of another state. -/
def map (g : σ → τ) (o : Outcome σ) : Outcome τ := ⟨g o.state, o.fault, o.log⟩

/-- The outcome with reports made before the operation. -/
def after (log : List Event) (o : Outcome σ) : Outcome σ := { o with log := log ++ o.log }

/-- The first operation and, if it succeeds, the second one from where it ended. -/
def andThen (o : Outcome σ) (g : σ → Outcome σ) : Outcome σ :=
  match o.fault with
  | none => (g o.state).after o.log
  | some _ => o

/-! ### The three parts of an outcome -/

@[simp] theorem state_done (s : σ) : (done s).state = s := rfl

@[simp] theorem fault_done (s : σ) : (done s).fault = none := rfl

@[simp] theorem state_reported (s : σ) (log : List Event) : (reported s log).state = s := rfl

@[simp] theorem fault_reported (s : σ) (log : List Event) : (reported s log).fault = none := rfl

@[simp] theorem log_reported (s : σ) (log : List Event) : (reported s log).log = log := rfl

@[simp] theorem state_failed (s : σ) (f : Fault) : (failed s f).state = s := rfl

@[simp] theorem fault_failed (s : σ) (f : Fault) : (failed s f).fault = some f := rfl

@[simp] theorem state_map (g : σ → τ) (o : Outcome σ) : (o.map g).state = g o.state := rfl

@[simp] theorem fault_map (g : σ → τ) (o : Outcome σ) : (o.map g).fault = o.fault := rfl

@[simp] theorem log_map (g : σ → τ) (o : Outcome σ) : (o.map g).log = o.log := rfl

@[simp] theorem state_after (log : List Event) (o : Outcome σ) : (o.after log).state = o.state :=
  rfl

@[simp] theorem fault_after (log : List Event) (o : Outcome σ) : (o.after log).fault = o.fault :=
  rfl

@[simp] theorem log_after (log : List Event) (o : Outcome σ) : (o.after log).log = log ++ o.log :=
  rfl

end Outcome

end ChipEight
