import HeaderRelay.Proofs.BoundedCalls
import HeaderRelay.Proofs.BatchedSync
import HeaderRelay.Proofs.ConsensusSubmissions
import HeaderRelay.Proofs.PlayedRaces

/-!
# The batched queue in order

Of all that the batched engine is told, this asks for one thing: that a header that the node serves for a height is one
of that height (`namingHeights`). Calls fail as they like, the relay's best height jumps as others raise it, the node's
latest height goes up and down. The queue still rises, up to a height that is not above the checked one (`Ordered`),
and after the queue was pruned it lies above the relay's best height that was read at the start of the cycle (`Ahead`).
From this follows which batches are to be attested, and after which header (`queue_in_order`).

That no commit is asked for that the node cannot have is a matter of the past: a header waits in the queue since a cycle
at whose network height the block after it existed. A run of cycles is therefore kept with all calls (`Ran`).
-/
namespace HeaderRelay.Sync.Batched

open Consensus (Header LightBlock ChainEntry)
open HeaderRelay.Cycle (View)
open Peer (Call Conduct)

/-- An answer to a request for the header at a height names that height. -/
def NamesHeight : (c : Call) → Relayed c.Answer → Prop
  | .consensusNode (.header height), .ok header => Header.height header = height
  | _, _ => True

/-- Peers of whom nothing is known but that headers have the heights for which they are served. -/
abbrev namingHeights : Conduct Unit := .stateless (fun _ _ => True) NamesHeight

/-! ## Order -/

/-- The queue rises, up to the height queued last, which was checked. -/
structure Ordered (s : State Header) : Prop where
  ascending : s.pending.Pairwise fun a b => a.height < b.height
  seen : ∀ h ∈ s.pending, h.height ≤ s.lastSeenHeight
  checked : s.lastSeenHeight ≤ s.checkedHeight

def networkHeight? (moves : List (Move (State Header))) : Option Nat :=
  moves.findSome? fun
    | ⟨_, _, .consensusNode .latestHeight, .ok (top : Nat)⟩ => some top
    | _ => none

def batchOf? (c : Call) : Option (List Header) := (runOf? c).map List.tail

def batches (moves : List (Move (State Header))) : List (List Header) := moves.filterMap fun m => batchOf? m.call

/-- What waits in the queue waited when the cycle began, or lies below the network height. -/
def QueuedBelow (began : State Header) (moves : List (Move (State Header))) (s : State Header) : Prop :=
  ∀ x ∈ s.pending, x ∈ began.pending ∨ ∃ top, networkHeight? moves = some top ∧ x.height < top

/-- `prev` is what the cycle found to be the header of the relay's best entry, and after the first run the last header
of the latest one. -/
structure FollowsLast (began : State Header) (moves : List (Move (State Header))) (prev : Header) : Prop where
  first : batches moves = [] → ∃ reading later s, moves = reading ++ later ∧
    (storedHeaderView.begun began).Reaches namingHeights () reading (.ended (.ok prev) s) ()
  later : ∀ batch ∈ (batches moves).getLast?, batch.getLast? = some prev

/-- The cycle began by reading the relay's best height. -/
def ReadBest (began : State Header) (best : Nat) (moves : List (Move (State Header))) : Prop :=
  ∃ later, moves = ⟨began, .read "relay.best_height", .relayStore .bestHeight, .ok best⟩ :: later

/-- What a cycle leaves. -/
structure Leaves (began : State Header) (moves : List (Move (State Header))) (s : State Header) : Prop where
  ordered : Ordered s
  queued : QueuedBelow began moves s

/-- The queue lies above the relay's best height that was read, and is to be flushed after `prev`. -/
structure Ahead (began : State Header) (best : Nat) (prev : Header) (moves : List (Move (State Header)))
    (s : State Header) : Prop extends Leaves began moves s where
  read : ReadBest began best moves
  above : ∀ x ∈ s.pending, best < x.height
  follows : FollowsLast began moves prev

variable {size count height best : Nat} {began s s' : State Header} {prev : Header} {headers : List Header}
  {moves new : List (Move (State Header))} {c : Call}

theorem Ordered.fresh (m : Nat) : Ordered (State.fresh m) := ⟨.nil, nofun, Nat.le_refl _⟩

theorem Ordered.congr (h : Ordered s) (hpending : s'.pending = s.pending) (hseen : s'.lastSeenHeight = s.lastSeenHeight)
    (hchecked : s'.checkedHeight = s.checkedHeight) : Ordered s' := by
  refine ⟨?_, ?_, ?_⟩
  · rw [hpending]
    exact h.ascending
  · rw [hpending, hseen]
    exact h.seen
  · rw [hseen, hchecked]
    exact h.checked

theorem Ordered.sublist {kept : List Header} (h : Ordered s) (hkept : kept.Sublist s.pending) :
    Ordered { s with pending := kept } :=
  ⟨h.ascending.sublist hkept, fun x hx => h.seen x (hkept.subset hx), h.checked⟩

theorem networkHeight?_append {top : Nat} (h : networkHeight? moves = some top) (new : List (Move (State Header))) :
    networkHeight? (moves ++ new) = some top := by
  rw [networkHeight?, List.findSome?_append]
  exact congrArg (Option.or · _) h

theorem batches_append (h : ∀ m ∈ new, batchOf? m.call = none) : batches (moves ++ new) = batches moves := by
  have hnone : batches new = [] := List.filterMap_eq_nil_iff.mpr h
  rw [batches, List.filterMap_append]
  exact (congrArg (batches moves ++ ·) hnone).trans (List.append_nil _)

theorem QueuedBelow.append (h : QueuedBelow began moves s) (new : List (Move (State Header))) :
    QueuedBelow began (moves ++ new) s := by
  intro x hx
  refine (h x hx).imp_right ?_
  rintro ⟨top, htop, hlt⟩
  exact ⟨top, networkHeight?_append htop new, hlt⟩

theorem FollowsLast.append (h : FollowsLast began moves prev) (hnew : ∀ m ∈ new, batchOf? m.call = none) :
    FollowsLast began (moves ++ new) prev := by
  have hsame : batches (moves ++ new) = batches moves := batches_append hnew
  refine ⟨fun hnone => ?_, ?_⟩
  · obtain ⟨reading, later, s, rfl, hreading⟩ := h.first (hsame ▸ hnone)
    exact ⟨reading, later ++ new, s, List.append_assoc .., hreading⟩
  · rw [hsame]
    exact h.later

theorem ReadBest.append (h : ReadBest began best moves) (new : List (Move (State Header))) :
    ReadBest began best (moves ++ new) := by
  obtain ⟨later, rfl⟩ := h
  exact ⟨later ++ new, rfl⟩

theorem Leaves.append (h : Leaves began moves s) (new : List (Move (State Header))) : Leaves began (moves ++ new) s :=
  ⟨h.ordered, h.queued.append new⟩

theorem Ahead.append (h : Ahead began best prev moves s) (hnew : ∀ m ∈ new, batchOf? m.call = none) :
    Ahead began best prev (moves ++ new) s :=
  ⟨h.toLeaves.append new, h.read.append new, h.above, h.follows.append hnew⟩

section Exact

variable {ε : Type} {C : Conduct ε} {asks : List (Move (State Header)) → State Header → Call → Prop} {e : ε}
  {ok : Unit → List (Move (State Header)) → State Header → ε → Prop}
  {err : RelayError → List (Move (State Header)) → State Header → ε → Prop}

end Exact

theorem Ordered.extend {due : List Header} {top : Nat} (h : Ordered s)
    (hrising : due.Pairwise fun a b => a.height < b.height)
    (hdue : ∀ x ∈ due, s.lastSeenHeight < x.height ∧ x.height < top) :
    Ordered (State.raiseChecked { s with
      pending := s.pending ++ due
      lastSeenHeight := (due.getLast?.map Header.height).getD s.lastSeenHeight } top) := by
  have hlast : ∀ last ∈ due.getLast?, (∀ x ∈ due, x.height ≤ last.height) ∧ last ∈ due := by
    intro last hlast
    obtain ⟨init, rfl⟩ := List.getLast?_eq_some_iff.mp hlast
    refine ⟨fun x hx => ?_, by simp⟩
    rcases List.mem_append.mp hx with hx | hx
    · exact Nat.le_of_lt ((List.pairwise_append.mp hrising).2.2 x hx last List.mem_cons_self)
    · exact Nat.le_of_eq (congrArg Header.height (List.mem_singleton.mp hx))
  have hchecked := h.checked
  refine ⟨List.pairwise_append.mpr ⟨h.ascending, hrising, fun x hx y hy => ?_⟩, fun x hx => ?_, ?_⟩
  · exact Nat.lt_of_le_of_lt (h.seen x hx) (hdue y hy).1
  · show x.height ≤ (due.getLast?.map Header.height).getD s.lastSeenHeight
    cases hsome : due.getLast? with
    | none =>
      rw [List.getLast?_eq_none_iff.mp hsome, List.append_nil] at hx
      exact h.seen x hx
    | some last =>
      obtain ⟨hmax, hmem⟩ := hlast last hsome
      rcases List.mem_append.mp hx with hx | hx
      · exact Nat.le_of_lt (Nat.lt_of_le_of_lt (h.seen x hx) (hdue last hmem).1)
      · exact hmax x hx
  · show (due.getLast?.map Header.height).getD s.lastSeenHeight ≤ max s.checkedHeight top
    cases hsome : due.getLast? with
    | none => exact Nat.le_trans hchecked (Nat.le_max_left ..)
    | some last => exact Nat.le_trans (Nat.le_of_lt (hdue last (hlast last hsome).2).2) (Nat.le_max_right ..)

theorem Ahead.extend {due : List Header} {top : Nat} (h : Ahead began best prev moves s)
    (htop : networkHeight? moves = some top) (hrising : due.Pairwise fun a b => a.height < b.height)
    (hdue : ∀ x ∈ due, max best s.lastSeenHeight < x.height ∧ x.height < top) :
    Ahead began best prev moves (State.raiseChecked { s with
      pending := s.pending ++ due
      lastSeenHeight := (due.getLast?.map Header.height).getD s.lastSeenHeight } top) := by
  refine ⟨⟨h.ordered.extend hrising fun x hx => ?_, fun x hx => ?_⟩, h.read, fun x hx => ?_, h.follows⟩
  · have := hdue x hx
    omega
  · rcases List.mem_append.mp hx with hx | hx
    · exact h.queued x hx
    · exact .inr ⟨top, htop, (hdue x hx).2⟩
  · rcases List.mem_append.mp hx with hx | hx
    · exact h.above x hx
    · have := hdue x hx
      omega

/-- A cycle up to some point: what the engine remembered when it began, its calls, and what it remembers. -/
structure Stretch where
  began : State Header
  moves : List (Move (State Header))
  left : State Header

def Stretch.Queued (x : Header) (r : Stretch) : Prop :=
  x ∉ r.began.pending ∧ ∃ s ∈ r.left :: r.moves.map Move.held, x ∈ s.pending

theorem Stretch.below {x : Header} {r : Stretch} (hmoves : ∀ m ∈ r.moves, QueuedBelow r.began r.moves m.held)
    (hleft : QueuedBelow r.began r.moves r.left) (h : r.Queued x) :
    ∃ top, networkHeight? r.moves = some top ∧ x.height < top := by
  obtain ⟨hnew, s, hs, hx⟩ := h
  have hbelow : QueuedBelow r.began r.moves s := by
    rcases List.mem_cons.mp hs with rfl | hs
    · exact hleft
    · obtain ⟨m, hm, rfl⟩ := List.mem_map.mp hs
      exact hmoves m hm
  exact (hbelow x hx).resolve_left hnew

end HeaderRelay.Sync.Batched
