import HeaderRelay.Proofs.Progress
import HeaderRelay.Sync.Batched
import HeaderRelay.Sync.Bitcoin
import HeaderRelay.Sync.Sequential

/-!
# The engines at work

The views of the three engines' cycles, function by function: what each of them remembers at each of its calls, and
that it yields. A view follows its function, so that one whose function submits inside a loop that tries again, or
goes on after a submission that failed, does not exist.
-/
namespace HeaderRelay.Sync

open Consensus (Header LightBlock)
open HeaderRelay.Cycle (View)
open Peer (Call Conduct)

variable {σ : Type}

/-! ## Light blocks -/

def readHeaderView (height : Nat) : (readHeader height : Cycle σ Header).View := .read rfl

theorem ensures_readHeaderView {ε : Type} {C : Conduct ε} {asks : List (Move σ) → σ → Call → Prop}
    {moves : List (Move σ)} {s : σ} {e : ε} {height : Nat} {ok : Header → List (Move σ) → σ → ε → Prop}
    {err : RelayError → List (Move σ) → σ → ε → Prop} :
    (readHeaderView height).Ensures C asks moves s e ok err ↔
      (C.attends (.read "consensus.header") (.consensusNode (.header height)) ∧
        asks moves s (.consensusNode (.header height))) ∧
      (∀ (a : Header) e', C.answers (.consensusNode (.header height)) e (.ok a) e' →
        ok a (moves ++ [⟨s, .read "consensus.header", .consensusNode (.header height), .ok a⟩]) s e') ∧
      ∀ x e', C.answers (.consensusNode (.header height)) e (.error x) e' →
        err x (moves ++ [⟨s, .read "consensus.header", .consensusNode (.header height), .error x⟩]) s e' := by
  unfold readHeaderView View.read
  exact View.ensures_call

def lightBlockOfView (header : Header) : (lightBlockOf header : Cycle σ LightBlock).View :=
  .bind (.read rfl) fun _ => .bind (.read rfl) fun _ => .ite (.throw _) (.pure _)

/-! ## The sequential engine -/

namespace Sequential

def trustedHeaderView : trustedHeader.View :=
  .bind (.read rfl) fun _ => .bind (.read rfl) fun _ => .bind .get fun _ => by
    generalize Option.filter _ _ = known
    exact match known with
    | some _ => .pure _
    | none => .bind (.read rfl) fun _ => .ite (.throw _) (.bind (.change _) fun _ => .pure _)

def submitHeaderView (height : Nat) (header last : Header) : (submitHeader height header last).View :=
  .bind (lightBlockOfView header) fun _ => .bind (.call fun _ => rfl) fun _ => .bind (.log _) fun _ => .change _

def examineView : (count height : Nat) → (last : Header) → (report : Report) →
    (examine count height last report).View
  | 0, _, _, report => .pure report
  | count + 1, height, last, report =>
    .bind (readHeaderView height) fun header => .bind .get fun _ =>
      .ite (.bind (submitHeaderView height header last) fun _ => examineView count (height + 1) header _)
        (examineView count (height + 1) last report)

def view : runCycle.View :=
  .bind trustedHeaderView fun _ => .bind (.read rfl) fun _ => .bind (readHeaderView _) fun _ =>
    .bind (.change _) fun _ => .bind .get fun _ => .bind (.log _) fun _ => .bind (examineView ..) fun _ =>
      .bind (.change _) fun _ => .bind .get fun _ => .bind (.log _) fun _ => .bind (.log _) fun _ => .pure _

end Sequential

/-! ## The batched engine -/

namespace Batched

def storedHeaderView : storedHeader.View :=
  .bind (.read rfl) fun _ => .bind .get fun _ => by
    generalize Option.filter _ _ = known
    exact match known with
    | some _ => .pure _
    | none =>
      .bind (.read rfl) fun _ => .bind (readHeaderView _) fun _ =>
        .ite (.throw _) (.bind (.change _) fun _ => .pure _)

def dropStoredView (relayHeight : Nat) : (dropStored relayHeight).View :=
  .bind .get fun _ => .bind (.change _) fun _ => .ite (.log _) (.pure _)

def readHeadersView : (count height : Nat) → (readHeaders count height).View
  | 0, _ => .pure []
  | count + 1, height =>
    .bind (readHeaderView height) fun _ => .bind (readHeadersView count (height + 1)) fun _ => .pure _

def enqueueView : (headers : List Header) → (enqueue headers).View
  | [] => .pure _
  | _ :: rest => .bind (.log _) fun _ => .bind (.change _) fun _ => enqueueView rest

def lightBlocksOfView : (headers : List Header) → (lightBlocksOf headers).View
  | [] => .pure []
  | h :: rest => .bind (lightBlockOfView h) fun _ => .bind (lightBlocksOfView rest) fun _ => .pure _

def sendBatchView (batchSize : Nat) (prev : Header) : (sendBatch batchSize prev).View :=
  .bind .get fun _ => .bind (lightBlocksOfView _) fun _ => .bind (.read rfl) fun _ => by
    generalize List.head? _ = first, List.getLast? (List.take _ _) = last
    exact match first, last with
    | some _, some _ =>
      .ite (.throw _) (.submission (fun
        | .error _ => .bind (.log _) fun _ => .throw _
        | .ok _ => .bind (.log _) fun _ => .bind (.change _) fun _ => .pure _) fun _ _ => ⟨rfl, rfl⟩)
    | some _, none => .throw _
    | none, some _ => .throw _
    | none, none => .throw _

def sendBatchesView (batchSize : Nat) : (count : Nat) → (prev : Header) → (report : Report) →
    (sendBatches batchSize count prev report).View
  | 0, _, report => .pure report
  | count + 1, prev, _ =>
    .bind .get fun _ => .bind (sendBatchView batchSize prev) fun tip => .bind .get fun _ =>
      .bind (.change _) fun _ => sendBatchesView batchSize count tip _

def view (batchSize : Nat) : (runCycle batchSize).View :=
  .bind storedHeaderView fun _ => .bind (dropStoredView _) fun _ => .bind (.read rfl) fun _ =>
    .bind (readHeaderView _) fun _ => .bind (.change _) fun _ => .bind .get fun _ => .bind (.log _) fun _ =>
      .bind (readHeadersView ..) fun _ => .bind (enqueueView _) fun _ => .bind (.change _) fun _ =>
        .bind .get fun _ => .bind (sendBatchesView ..) fun _ => .bind .get fun _ => .bind (.log _) fun _ =>
          .pure _

end Batched

/-! ## The Bitcoin engine -/

namespace Bitcoin

def contractAtView (ends : Ends) (height : Nat) : (contractAt ends height : Cycle σ (Option Hash)).View :=
  .ite (.read rfl) (.pure _)

/-- One step of a walk, before the walk from the header below. -/
def walkStepView (ends : Ends) (height : Nat) (cursor : Hash) (trail : Trail HeaderRelay.Bitcoin.Header)
    (below : ∀ height', height = height' + 1 → (cursor : Hash) → (trail : Trail HeaderRelay.Bitcoin.Header) →
      (walk ends height' cursor trail : Cycle σ (Option Gap)).View) :
    (walk ends height cursor trail : Cycle σ (Option Gap)).View :=
  .ofEq (walk.eq_def ends height cursor trail) <| .bind (contractAtView ends height) fun _ => by
    generalize walkEnd .. = stop
    exact match stop with
    | some .alreadyHeld => .bind (.log _) fun _ => .pure _
    | some .linearExtension | some .forkConvergence => .bind (.log _) fun _ => .pure _
    | none =>
      .ite (.throw _) <| .bind (.read rfl) fun header =>
        match height, below with
        | 0, _ => .throw _
        | height' + 1, below => below height' rfl (HeaderRelay.Bitcoin.Header.prevHash header) (trail.push header)

def walkView (ends : Ends) : (height : Nat) → (cursor : Hash) → (trail : Trail HeaderRelay.Bitcoin.Header) →
    (walk ends height cursor trail : Cycle σ (Option Gap)).View
  | 0, cursor, trail => walkStepView ends 0 cursor trail nofun
  | height + 1, cursor, trail => walkStepView ends (height + 1) cursor trail fun
    | _, rfl => walkView ends height

def findGapView (config : Config) : (findGap config : Cycle σ (Option Gap)).View :=
  .bind (.read rfl) fun _ => .bind (.read rfl) fun _ => .bind (.read rfl) fun _ =>
    .ite (.pure _) <| .bind (.read rfl) fun _ => walkView ..

def firstGasView (config : Config) : (firstGas config : Cycle σ (Option Nat)).View :=
  .ite (.pure _) <| .bind (.outcome rfl) fun r =>
    match r with
    | .ok _ => .pure _
    | .error _ => .bind (.log _) fun _ => .pure _

def submitAllView (config : Config) : (batches : List (Batch HeaderRelay.Bitcoin.Header)) → (gas : Option Nat) →
    (report : Report) → (submitAll config batches gas report : Cycle σ Report).View
  | [], _, report => .pure report
  | _ :: rest, _, _ => .submission (fun
    | .error _ => .bind (.log _) fun _ => .throw _
    | .ok _ => .bind (.log _) fun _ => submitAllView config rest _ _) fun _ _ => ⟨rfl, rfl⟩

def view (config : Config) : (runCycle config).View :=
  .bind (.log _) fun _ => .bind (findGapView config) fun gap =>
    match gap with
    | none => .bind (.log _) fun _ => .bind .get fun _ => .pure _
    | some _ =>
      .bind (.ofRelayed _) fun _ => .bind (firstGasView config) fun _ => .bind .get fun _ =>
        .bind (submitAllView config ..) fun _ => .bind (.replace _) fun _ => .bind (.log _) fun _ => .pure _

end Bitcoin

end HeaderRelay.Sync
