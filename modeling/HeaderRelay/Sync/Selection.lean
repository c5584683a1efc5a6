import HeaderRelay.Consensus.Block

/-!
# Which consensus headers are submitted

A header has to reach the light client when its validator set is not the one that the last submitted
header announced, or when it lies `maxInterval` heights or more above it. Both consensus engines select
by this rule.
-/
namespace HeaderRelay.Sync

open Consensus (Header)

/-- Whether `candidate` has to be submitted after `last`. Mirrors `should_include`. -/
def isDue (candidate last : Header) (maxInterval : Nat) : Bool :=
  candidate.validatorsHash != last.nextValidatorsHash || maxInterval ≤ candidate.height - last.height

/-- The headers to submit of a run, each judged against the one selected before it. Mirrors `select_headers`. -/
def dueHeaders (maxInterval : Nat) : (headers : List Header) → (last : Header) → List Header
  | [], _ => []
  | h :: rest, last =>
    if isDue h last maxInterval then h :: dueHeaders maxInterval rest h
    else dueHeaders maxInterval rest last

end HeaderRelay.Sync
