/-
The brew timer: how far the brew in progress has come.

Instants are nanoseconds on one clock. A running timer knows when it was
started; an update measures the time since then and ends the brew once the
whole time has passed. An instant before the start counts as the start.
-/
import Barista.Binary64.Decimal

namespace Barista

structure BrewTimer where
  running : Bool
  elapsed : Binary64
  total : Binary64
  startedAt : Option Nat
deriving DecidableEq

namespace BrewTimer

def idle : BrewTimer := ⟨false, 0, 0, none⟩

/-- Whole seconds and the nanoseconds left over, added as doubles. -/
def seconds (nanoseconds : Nat) : Binary64 :=
  Binary64.ofNat (nanoseconds / 1000000000) + Binary64.ofNat (nanoseconds % 1000000000) / 1000000000

/-- A positive number of seconds to the nearest nanosecond, a half to the even one. -/
def nanoseconds : Binary64 → Nat
  | .finite false units _ => roundHalfEven (units * 1000000000) Binary64.one
  | _ => 0

def started (total : Binary64) (now : Nat) : BrewTimer := ⟨true, 0, total, some now⟩

/-- Ends the brew as if its whole time had passed. -/
def complete (t : BrewTimer) : BrewTimer := ⟨false, t.total, t.total, none⟩

/-- Measures the time since the start, and ends the brew when nothing is left of it. -/
def update (now : Nat) (t : BrewTimer) : BrewTimer :=
  if t.running then
    match t.startedAt with
    | none => t
    | some started =>
      let t := { t with elapsed := (seconds (now - started)).least t.total }
      if t.total ≤ t.elapsed then t.complete else t
  else t

/-- Moves the clock on by `step` again and again, until the brew is over or `limit` is used up. -/
def drive (step : Nat) : (limit : Nat) → (now : Nat) → BrewTimer → BrewTimer
  | 0, _, t => t
  | limit + 1, now, t =>
    if t.running then drive step limit (now + step) (t.update (now + step)) else t

/-- A brew from start to end: one jump over its whole time, and a second one in case the first
fell short by the part of a nanosecond that rounding the time took away. -/
def run (total : Binary64) (now : Nat) : BrewTimer :=
  (started total now).drive (nanoseconds total) 2 now

/-- How much of the brew is done, in percent. -/
def progress (t : BrewTimer) : Binary64 :=
  if 0 < t.total then t.elapsed / t.total * 100 else 0

theorem update_of_not_running {t : BrewTimer} (h : t.running = false) (now : Nat) :
    t.update now = t := by
  simp [update, h]

end BrewTimer

end Barista
