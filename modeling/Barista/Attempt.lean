/-
What comes of asking a machine for something: a report or a fault, and the
machine afterwards.
-/
import Barista.Conditions
import Barista.Machine.Basic

namespace Barista

structure Attempt (α : Type) where
  result : Except Fault α
  machine : Machine

namespace Attempt

def done {α : Type} (report : α) (m : Machine) : Attempt α := ⟨.ok report, m⟩

def refused {α : Type} (fault : Fault) (m : Machine) : Attempt α := ⟨.error fault, m⟩

/-- What a computation that may fail has made of a machine, or the machine as it was. -/
def ofExcept {α : Type} (m : Machine) : Except Fault (α × Machine) → Attempt α
  | .ok (report, m') => done report m'
  | .error fault => refused fault m

/-- An operation behind its preconditions: refused with the names of those that are not met, and
carried out if all are. -/
def guarded {α : Type} (operation : Operation) (required : Conditions) (m : Machine)
    (carriedOut : Except Fault (α × Machine)) : Attempt α :=
  if required.allMet then ofExcept m carriedOut
  else refused (.preconditionsFailed operation required.failed) m

/-- The report was given. -/
def succeeded {α : Type} (a : Attempt α) : Bool := a.result.isOk

end Attempt

end Barista
