import HeaderRelay.Arith

/-!
# What a machine grants

A cycle asks for room for the headers that it is about to read before it reads the first of them, and it counts heights
in words of 64 bits. A machine says how many headers it has room for and what comes above a height. A program that asks
for more breaks down: that is no error of its own, and nobody handles it.
-/
namespace HeaderRelay.Sync

/-- A machine, with room for so many headers at once. Where the next height does not fit a word, `above` is up to the
build: one that checks its arithmetic breaks down. -/
structure Machine where
  room : Nat
  above : Nat → Option Nat
  above_eq : ∀ {height}, height + 1 < twoPow 64 → above height = some (height + 1)

namespace Machine

/-- A consensus header in memory: a height and four hashes. -/
def headerSize : Nat := 8 + 4 * 32

/-- No allocation takes more than half of the addresses. -/
def mostRoom : Nat := (twoPow 63 - 1) / headerSize

/-- The machine that checks its arithmetic. -/
def checked (room : Nat) : Machine where
  room
  above height := if height + 1 < twoPow 64 then some (height + 1) else none
  above_eq h := if_pos h

/-- The machine whose heights start again at zero. -/
def wrapping (room : Nat) : Machine where
  room
  above height := some ((height + 1) % twoPow 64)
  above_eq h := by rw [Nat.mod_eq_of_lt h]

end Machine

end HeaderRelay.Sync
