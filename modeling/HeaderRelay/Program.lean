import HeaderRelay.Log
import HeaderRelay.Peer

/-!
# Programs over the peers

What the relayer does is written as a program: a tree of calls to the peers, in which each answer, or
the error in its place, chooses how to go on. A program says in which way a call is made, but not when
it is answered, how often it is tried, or by whom: that is for a run to say. So a statement about a
program holds for every peer.
-/
namespace HeaderRelay

open Peer (Call)

/-- How a call is made. -/
inductive Mode where
  /-- With a deadline per attempt, and again after transient errors; the name is for the log. -/
  | read (operation : String)
  /-- Once, with a deadline. -/
  | submit
  /-- Once, without a deadline. -/
  | direct
  deriving DecidableEq, Repr

/-- A computation that calls peers and writes log events. -/
inductive Program (α : Type) where
  | done (a : α)
  | note (e : Log.Event) (next : Program α)
  | ask (mode : Mode) (call : Call) (next : Relayed call.Answer → Program α)

namespace Program

variable {α β : Type}

def andThen : Program α → (α → Program β) → Program β
  | .done a, f => f a
  | .note e next, f => .note e (next.andThen f)
  | .ask mode call next, f => .ask mode call fun r => (next r).andThen f

instance : Monad Program where
  pure := .done
  bind := andThen

@[simp] theorem pure_eq (a : α) : (pure a : Program α) = .done a := rfl

@[simp] theorem bind_eq (p : Program α) (f : α → Program β) : p >>= f = p.andThen f := rfl

theorem andThen_done (p : Program α) : p.andThen .done = p := by
  induction p with
  | done a => rfl
  | note e next ih => simp [andThen, ih]
  | ask mode call next ih => simp [andThen, ih]

theorem andThen_assoc {γ : Type} (p : Program α) (f : α → Program β) (g : β → Program γ) :
    (p.andThen f).andThen g = p.andThen fun a => (f a).andThen g := by
  induction p with
  | done a => rfl
  | note e next ih => simp [andThen, ih]
  | ask mode call next ih => simp [andThen, ih]

instance : LawfulMonad Program := .mk' Program andThen_done (fun _ _ => rfl) andThen_assoc

/-- A call whose outcome, good or bad, is the result. -/
def outcome (mode : Mode) (call : Call) : Program (Relayed call.Answer) := .ask mode call .done

def log (e : Log.Event) : Program Unit := .note e (.done ())

end Program

/-- A program that keeps a state, also when it fails. -/
abbrev Cycle (σ : Type) := ExceptT RelayError (StateT σ Program)

namespace Cycle

variable {σ α : Type}

/-- A call whose outcome, good or bad, is the result. -/
def outcome (mode : Mode) (call : Call) : Cycle σ (Relayed call.Answer) :=
  ExceptT.mk fun s => .ask mode call fun r => .done (.ok r, s)

def call (mode : Mode) (c : Call) : Cycle σ c.Answer :=
  ExceptT.mk fun s => .ask mode c fun r => .done (r, s)

/-- A read whose error ends the cycle. -/
def read (operation : String) (c : Call) : Cycle σ c.Answer := call (.read operation) c

def log (e : Log.Event) : Cycle σ Unit := ExceptT.mk fun s => .note e (.done (.ok (), s))

def ofRelayed (r : Relayed α) : Cycle σ α := ExceptT.mk fun s => .done (r, s)

def lift (p : Program (Relayed α)) : Cycle σ α := ExceptT.mk fun s => p.andThen fun r => .done (r, s)

end Cycle

end HeaderRelay
