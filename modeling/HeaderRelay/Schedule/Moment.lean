/-!
# Moments

Several things may happen at one time, one after the other. Tasks run only when whoever directs them
gives way, so a moment is a time together with a turn at that time: the direction takes a new turn
whenever it has given way. Sleeping for some time leads to the first turn of a later time, sleeping for
no time stays in the turn.
-/
namespace HeaderRelay.Schedule

/-- A time in milliseconds and a turn at that time. -/
structure Moment where
  time : Nat
  turn : Nat
  deriving DecidableEq, Repr, Inhabited

namespace Moment

def first : Moment := ⟨0, 0⟩

/-- Moments are ordered by time, and at one time by turn. -/
instance : LE Moment := ⟨fun a b => a.time < b.time ∨ (a.time = b.time ∧ a.turn ≤ b.turn)⟩

instance : LT Moment := ⟨fun a b => a.time < b.time ∨ (a.time = b.time ∧ a.turn < b.turn)⟩

theorem le_def (a b : Moment) : a ≤ b ↔ a.time < b.time ∨ (a.time = b.time ∧ a.turn ≤ b.turn) := Iff.rfl

theorem lt_def (a b : Moment) : a < b ↔ a.time < b.time ∨ (a.time = b.time ∧ a.turn < b.turn) := Iff.rfl

instance (a b : Moment) : Decidable (a ≤ b) := decidable_of_iff _ (le_def a b).symm

instance (a b : Moment) : Decidable (a < b) := decidable_of_iff _ (lt_def a b).symm

def latest (a b : Moment) : Moment := if a < b then b else a

/-- The moment at which a sleep from `m` on ends. -/
def afterSleep (m : Moment) (ms : Nat) : Moment := if ms = 0 then m else ⟨m.time + ms, 0⟩

def nextTurn (m : Moment) : Moment := ⟨m.time, m.turn + 1⟩

theorem not_lt {a b : Moment} : ¬ a < b ↔ b ≤ a := by simp only [lt_def, le_def]; omega

theorem le_refl (a : Moment) : a ≤ a := .inr ⟨rfl, Nat.le_refl _⟩

theorem le_of_lt {a b : Moment} (h : a < b) : a ≤ b := by simp only [lt_def, le_def] at *; omega

theorem le_trans {a b c : Moment} (hab : a ≤ b) (hbc : b ≤ c) : a ≤ c := by
  simp only [le_def] at *; omega

theorem le_latest_left (a b : Moment) : a ≤ latest a b := by
  unfold latest; split
  · next h => exact le_of_lt h
  · exact le_refl a

theorem le_latest_right (a b : Moment) : b ≤ latest a b := by
  unfold latest; split
  · exact le_refl b
  · next h => exact not_lt.1 h

theorem lt_nextTurn (m : Moment) : m < m.nextTurn := .inr ⟨rfl, Nat.lt_succ_self _⟩

theorem le_afterSleep (m : Moment) (ms : Nat) : m ≤ m.afterSleep ms := by
  unfold afterSleep; split
  · exact le_refl m
  · exact .inl (by simp only; omega)

@[simp] theorem time_afterSleep (m : Moment) (ms : Nat) : (m.afterSleep ms).time = m.time + ms := by
  unfold afterSleep; split <;> simp [*]

end Moment

end HeaderRelay.Schedule
