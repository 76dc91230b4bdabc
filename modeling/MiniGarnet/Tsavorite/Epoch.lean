import Mathlib.Data.List.Basic

/-! # Epoch protection

    `LightEpoch` as its users see it: each call is one step.  `table` lists the
    threads that are protected with the epoch each has published, `drain` the
    registered actions with the epoch they were registered in.  An action is
    data here (`α`); running it is up to the log that owns the epoch.
-/

namespace Tsavorite

structure LightEpoch (α : Type*) where
  current : ℕ
  table : List (ℕ × ℕ)
  drain : List (ℕ × α)
  deriving DecidableEq, Repr

namespace LightEpoch

variable {α : Type*}

/-- `LightEpoch::new` -/
def new : LightEpoch α := ⟨1, [], []⟩

/-- Leave the epoch. -/
def unprotect (e : LightEpoch α) (thread : ℕ) : LightEpoch α :=
  { e with table := e.table.filter fun x => x.1 ≠ thread }

/-- Enter the current epoch. -/
def protect (e : LightEpoch α) (thread : ℕ) : LightEpoch α :=
  { e with table := (thread, e.current) :: (e.unprotect thread).table }

/-- (min protected epoch) - 1, or current - 1 if no thread is protected. -/
def computeSafeEpoch (e : LightEpoch α) : ℕ :=
  e.table.foldl (fun m x => if x.2 < m then x.2 else m) e.current - 1

/-- Split off the actions that have become safe, in registration order. -/
def takeReady (e : LightEpoch α) : List α × LightEpoch α :=
  let safe := e.computeSafeEpoch
  (((e.drain.filter fun x => x.1 ≤ safe).map (·.2)),
    { e with drain := e.drain.filter fun x => ¬ x.1 ≤ safe })

/-- `bump_current_epoch` up to the drain it starts. -/
def bump (e : LightEpoch α) : LightEpoch α := { e with current := e.current + 1 }

/-- `bump_with_action` up to the drain it starts. -/
def register (e : LightEpoch α) (a : α) : LightEpoch α :=
  { e with drain := e.drain ++ [(e.current, a)], current := e.current + 1 }

end LightEpoch

end Tsavorite
