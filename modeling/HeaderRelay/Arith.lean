/-!
# Powers and sums

Powers of two bound the words that numbers travel in and say where trees are cut; powers of ten place
the digits of decimals.
-/
namespace HeaderRelay

/-- Two to the power `n`, the number of values of a word of `n` bits. -/
def twoPow (n : Nat) : Nat := Nat.pow 2 n

/-- Ten to the power `n`. -/
def tenPow (n : Nat) : Nat := Nat.pow 10 n

/-- The sum of numbers. -/
def total (ns : List Nat) : Nat := ns.foldr (· + ·) 0

theorem twoPow_succ (n : Nat) : twoPow (n + 1) = 2 * twoPow n := by
  simp [twoPow, Nat.pow_succ, Nat.mul_comm]

theorem twoPow_pos (n : Nat) : 0 < twoPow n := Nat.two_pow_pos n

@[simp] theorem total_nil : total [] = 0 := rfl

@[simp] theorem total_cons (n : Nat) (ns : List Nat) : total (n :: ns) = n + total ns := rfl

theorem total_append (ms ns : List Nat) : total (ms ++ ns) = total ms + total ns := by
  induction ms with
  | nil => simp
  | cons m ms ih =>
    rw [List.cons_append, total_cons, total_cons, ih]
    omega

theorem total_eq_zero_iff {ns : List Nat} : total ns = 0 ↔ ∀ n ∈ ns, n = 0 := by
  induction ns with
  | nil => simp
  | cons n ns ih =>
    rw [total_cons, List.forall_mem_cons, ← ih]
    omega

end HeaderRelay
