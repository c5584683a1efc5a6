import HeaderRelay.Arith

/-!
# Bytes and hashes

A `Hash` is 32 bytes in internal order, with the length in the type, so that no reader of a hash has
to check it again.
-/
namespace HeaderRelay

/-- A byte string. -/
abbrev Bytes := List UInt8

/-- The eight bytes of a 64-bit number, most significant first. -/
def eightBytes (n : Nat) : Bytes := (List.range 8).map fun i => UInt8.ofNat (n / twoPow (8 * (7 - i)))

/-- A 32-byte hash, bytes in internal order. -/
structure Hash where
  bytes : Bytes
  length_eq : bytes.length = 32
  deriving DecidableEq

namespace Hash

/-- The hash whose bytes are given, if there are 32 of them. -/
def ofBytes? (b : Bytes) : Option Hash :=
  if h : b.length = 32 then some ⟨b, h⟩ else none

/-- The hash that repeats one byte. -/
def replicate (b : UInt8) : Hash := ⟨List.replicate 32 b, by simp⟩

def zero : Hash := replicate 0

def reverse (h : Hash) : Hash := ⟨h.bytes.reverse, by simp [h.length_eq]⟩

/-- The 32 bytes of `b` that start at `start`, when `b` reaches that far. -/
def slice (b : Bytes) (start : Nat) (h : start + 32 ≤ b.length) : Hash :=
  ⟨(b.drop start).take 32, by simp; omega⟩

instance : Inhabited Hash := ⟨zero⟩

theorem ext_bytes {a b : Hash} (h : a.bytes = b.bytes) : a = b := by
  cases a; cases b; cases h; rfl

@[simp] theorem ofBytes?_bytes (h : Hash) : ofBytes? h.bytes = some h := by
  simp [ofBytes?, h.length_eq]

theorem ofBytes?_eq_some_iff {b : Bytes} {h : Hash} : ofBytes? b = some h ↔ b = h.bytes := by
  constructor
  · intro e
    unfold ofBytes? at e
    split at e
    · cases e; rfl
    · cases e
  · rintro rfl
    simp

@[simp] theorem reverse_reverse (h : Hash) : h.reverse.reverse = h :=
  ext_bytes (by simp [reverse])

end Hash

end HeaderRelay
