import HeaderRelay.Proofs.EngineViews
import HeaderRelay.Proofs.Selection
import HeaderRelay.Proofs.Submissions

/-!
# What the consensus engines submit in one cycle

The plans of the consensus engines: the full batches of the queue with which a batched cycle starts to flush, and
the headers that the rule selects from those that a sequential cycle has read so far. Each engine submits the next of
its plan only, whatever it is told (`Batched.next_view`, `Sequential.next_view`).
-/
namespace HeaderRelay.Sync

open Consensus (Header LightBlock ChainEntry)
open HeaderRelay.Cycle (View)
open Peer (Call Conduct)

variable {σ : Type}

/-! ## Reading -/

section Reading

variable {ε : Type} {C : Conduct ε} {P : Call → Prop} {s : σ} {e : ε}

theorem ensures_lightBlockOf_reads {header : Header}
    (hcommit : ∀ op height, C.attends (.read op) (.consensusNode (.commit height)) ∧
      P (.consensusNode (.commit height)))
    (hvalidators : ∀ op height, C.attends (.read op) (.consensusNode (.validatorSet height)) ∧
      P (.consensusNode (.validatorSet height))) :
    (lightBlockOf header).Ensures (C.asking P) s e (fun b s' e' => (s' = s ∧ e' = e) ∧ b.header = header)
      fun _ s' e' => s' = s ∧ e' = e := by
  refine Cycle.ensures_bind.mpr (ensures_read_stays (hcommit _ _) (fun commit => ?_) fun _ => ⟨rfl, rfl⟩)
  refine Cycle.ensures_bind.mpr (ensures_read_stays (hvalidators _ _) (fun validators => ?_) fun _ => ⟨rfl, rfl⟩)
  exact Cycle.ensures_ite (fun _ => ⟨rfl, rfl⟩) fun _ => ⟨⟨rfl, rfl⟩, rfl⟩

theorem Batched.ensures_lightBlocksOf_reads {s : State Header} {headers : List Header}
    (hcommit : ∀ op height, C.attends (.read op) (.consensusNode (.commit height)) ∧
      P (.consensusNode (.commit height)))
    (hvalidators : ∀ op height, C.attends (.read op) (.consensusNode (.validatorSet height)) ∧
      P (.consensusNode (.validatorSet height))) :
    (lightBlocksOf headers).Ensures (C.asking P) s e
      (fun bs s' e' => (s' = s ∧ e' = e) ∧ bs.map (fun b : LightBlock => b.header) = headers)
      fun _ s' e' => s' = s ∧ e' = e := by
  induction headers with
  | nil => exact ⟨⟨rfl, rfl⟩, rfl⟩
  | cons h headers ih =>
    refine Cycle.ensures_bind.mpr (Cycle.Ensures.mono (ensures_lightBlockOf_reads hcommit hvalidators) ?_
      fun _ _ _ h => h)
    rintro b _ _ ⟨⟨rfl, rfl⟩, hb⟩
    refine Cycle.ensures_bind.mpr (Cycle.Ensures.mono ih ?_ fun _ _ _ h => h)
    rintro bs _ _ ⟨hstay, hbs⟩
    exact ⟨hstay, by rw [List.map_cons, hb, hbs]⟩

end Reading

/-! ## The batched engine -/

namespace Batched

def isVerification : Call → Bool
  | .consensusClient (.verifyLightBlocks ..) => true
  | _ => false

/-- The headers of a run that is to be attested, after the one that it follows. -/
def runOf? : Call → Option (List Header)
  | .consensusClient (.verifyLightBlocks prev blocks) => some (prev :: blocks.map fun b : LightBlock => b.header)
  | _ => none

theorem exists_of_runOf? {c : Call} {run : List Header} (h : runOf? c = some run) :
    ∃ prev blocks, c = .consensusClient (.verifyLightBlocks prev blocks) ∧
      (prev :: blocks.map fun b : LightBlock => b.header) = run := by
  unfold runOf? at h
  split at h
  · exact ⟨_, _, rfl, Option.some.inj h⟩
  · cases h

/-- The queue when the first run was to be attested. -/
def flushed? (moves : List (Move (State Header))) : Option (List Header) :=
  (moves.find? fun m => isVerification m.call).map fun m => m.held.pending

def firstBatches (size : Nat) : (count : Nat) → (queue : List Header) → List (List Header)
  | 0, _ => []
  | count + 1, queue => queue.take size :: firstBatches size count (queue.drop size)

def fullBatches (size : Nat) (queue : List Header) : List (List Header) :=
  firstBatches size (queue.length / size) queue

/-- All full batches of the queue are to be submitted, each as a chain that ends with its last header. -/
def plan (batchSize : Nat) : Plan (State Header) (List Header) where
  planned moves := fullBatches (max 1 batchSize) ((flushed? moves).getD [])
  carries batch c := ∃ chain last, c = .relayStore (.submitHashChain chain) ∧ batch.getLast? = some last ∧
    chain.getLast? = some last.entry

def Prepares (c : Call) : Prop := c.isSubmission = false ∧ isVerification c = false

variable {batchSize size count : Nat} {moves new : List (Move (State Header))} {s : State Header}

theorem flushed?_append (h : ∀ m ∈ new, isVerification m.call = false) : flushed? (moves ++ new) = flushed? moves := by
  rw [flushed?, List.find?_append, find?_aside h, Option.or_none]
  rfl

theorem flushed?_verified {m : Move (State Header)} (hm : isVerification m.call = true) :
    flushed? (moves ++ [m]) = some ((flushed? moves).getD m.held.pending) := by
  rw [flushed?, List.find?_append, flushed?]
  cases moves.find? fun m => isVerification m.call with
  | some m' => rfl
  | none => simp [hm]

/-- `count` batches are left of a flush. -/
def Flushing (batchSize count : Nat) (moves : List (Move (State Header))) (s : State Header) : Prop :=
  ∃ done, fullBatches (max 1 batchSize) ((flushed? moves).getD s.pending) =
      done ++ firstBatches (max 1 batchSize) count s.pending ∧
    List.Forall₂ (plan batchSize).carries done (submissionsOf (moves.map Move.call))

theorem drop_length_take (n : Nat) (l : List Header) : l.drop (l.take n).length = l.drop n := by
  rw [List.length_take]
  rcases Nat.le_total n l.length with h | h
  · rw [Nat.min_eq_left h]
  · rw [Nat.min_eq_right h, List.drop_length, List.drop_eq_nil_of_le h]

/-- **A batch.** After the light blocks of the first headers of the queue have been read, they are to be attested after
`prev`; what is attested is submitted if it ends with the last of them. The peers are as they were until then. An error
leaves the engine as it was. -/
theorem ensures_sendBatchView_of_blocks {ε : Type} {C : Conduct ε}
    {asks : List (Move (State Header)) → State Header → Call → Prop}
    {prev : Header} {e : ε} {ok : Header → List (Move (State Header)) → State Header → ε → Prop}
    {err : RelayError → List (Move (State Header)) → State Header → ε → Prop}
    (hblocks : (lightBlocksOfView (s.pending.take size)).Ensures C asks moves s e
      (fun blocks moves' s' e' => ((s' = s ∧ e' = e) ∧
        blocks.map (fun b : LightBlock => b.header) = s.pending.take size) ∧
          ∃ new, moves' = moves ++ new ∧ ∀ m ∈ new, Prepares m.call) err)
    (herr : ∀ x new, err x (moves ++ new) s e)
    (hbatch : ∀ (blocks : List LightBlock) (new : List (Move (State Header))),
      blocks.map (fun b => b.header) = s.pending.take size → (∀ m ∈ new, Prepares m.call) →
      (C.attends (.read "consensus_lc.verify_light_blocks") (.consensusClient (.verifyLightBlocks prev blocks)) ∧
        asks (moves ++ new) s (.consensusClient (.verifyLightBlocks prev blocks))) ∧
      ∀ (chain : List ChainEntry) (first last : Header) (verified : Move (State Header)),
        C.answers (.consensusClient (.verifyLightBlocks prev blocks)) e (.ok chain) e →
        verified = ⟨s, .read "consensus_lc.verify_light_blocks", .consensusClient (.verifyLightBlocks prev blocks),
          .ok chain⟩ →
        (s.pending.take size).getLast? = some last → chain.getLast? = some last.entry →
        (C.attends .submit (.relayStore (.submitHashChain chain)) ∧
          asks (moves ++ new ++ [verified]) s (.relayStore (.submitHashChain chain))) ∧
        (∀ response e', C.answers (.relayStore (.submitHashChain chain)) e (.ok response) e' →
          ok last (moves ++ new ++ [verified] ++ [⟨s, .submit, .relayStore (.submitHashChain chain), .ok response⟩])
            { s with pending := s.pending.drop (s.pending.take size).length }
            (C.hears (chainAppended first last chain) e')) ∧
        ∀ x new e', C.answers (.relayStore (.submitHashChain chain)) e (.error x) e' →
          err x (moves ++ new) s (C.hears (chainRejected first last x) e')) :
    (sendBatchView size prev).Ensures C asks moves s e ok err := by
  refine View.ensures_bind.mpr (View.ensures_bind.mpr (hblocks.mono ?_ fun _ _ _ _ h => h))
  rintro blocks _ s e ⟨⟨⟨rfl, rfl⟩, hheaders⟩, new, rfl, hnew⟩
  obtain ⟨hverify, hsubmit⟩ := hbatch blocks new hheaders hnew
  refine View.ensures_bind.mpr (View.ensures_call.mpr ⟨hverify, fun chain e' hchain => ?_, fun x e' hx => ?_⟩)
  case refine_2 =>
    obtain rfl := C.reads hverify.1 hx
    rw [List.append_assoc]
    exact herr ..
  obtain rfl := C.reads hverify.1 hchain
  have hstop : ∀ {x : RelayError}, err x (moves ++ new ++ [⟨s, .read "consensus_lc.verify_light_blocks",
      .consensusClient (.verifyLightBlocks prev blocks), .ok chain⟩]) s e' := by
    intro x
    rw [List.append_assoc]
    exact herr ..
  dsimp only
  cases hfirst : (s.pending.take size).head? with
  | none => cases (s.pending.take size).getLast? <;> exact hstop
  | some first =>
  cases hlast : (s.pending.take size).getLast? with
  | none => exact hstop
  | some last =>
  refine View.ensures_ite (fun _ => hstop) fun hends => ?_
  obtain ⟨hasks, hok, hrejected⟩ := hsubmit chain first last _ hchain rfl hlast (Decidable.not_not.mp hends)
  refine View.ensures_submission.mpr ⟨hasks, fun r e'' hr => ?_⟩
  cases r with
  | error x =>
    rw [List.append_assoc, List.append_assoc]
    exact hrejected x _ e'' hr
  | ok response => exact hok response e'' hr

theorem ensures_lightBlocksOfView {ε : Type} {C : Conduct ε}
    {asks : List (Move (State Header)) → State Header → Call → Prop} {e : ε}
    {err : RelayError → List (Move (State Header)) → State Header → ε → Prop} {headers : List Header}
    (hreads : ∀ moves s c, Prepares c → asks moves s c)
    (hcommit : ∀ op height, C.attends (.read op) (.consensusNode (.commit height)))
    (hvalidators : ∀ op height, C.attends (.read op) (.consensusNode (.validatorSet height)))
    (herr : ∀ x moves', err x moves' s e) :
    (lightBlocksOfView headers).Ensures C asks moves s e
      (fun blocks moves' s' e' => ((s' = s ∧ e' = e) ∧ blocks.map (fun b : LightBlock => b.header) = headers) ∧
        ∃ new, moves' = moves ++ new ∧ ∀ m ∈ new, Prepares m.call) err := by
  refine (View.ensures_of_reads hreads (ensures_lightBlocksOf_reads (fun op height => ⟨hcommit op height, rfl, rfl⟩)
    fun op height => ⟨hvalidators op height, rfl, rfl⟩)).mono (fun _ _ _ _ h => h) ?_
  rintro x moves' _ _ ⟨⟨rfl, rfl⟩, -⟩
  exact herr x moves'

theorem ensures_sendBatchView {ε : Type} {C : Conduct ε}
    {asks : List (Move (State Header)) → State Header → Call → Prop}
    {prev : Header} {e : ε} {ok : Header → List (Move (State Header)) → State Header → ε → Prop}
    {err : RelayError → List (Move (State Header)) → State Header → ε → Prop}
    (hreads : ∀ moves s c, Prepares c → asks moves s c)
    (hcommit : ∀ op height, C.attends (.read op) (.consensusNode (.commit height)))
    (hvalidators : ∀ op height, C.attends (.read op) (.consensusNode (.validatorSet height)))
    (herr : ∀ x moves' e', err x moves' s e')
    (hbatch : ∀ (blocks : List LightBlock) (new : List (Move (State Header))),
      blocks.map (fun b => b.header) = s.pending.take size → (∀ m ∈ new, Prepares m.call) →
      (C.attends (.read "consensus_lc.verify_light_blocks") (.consensusClient (.verifyLightBlocks prev blocks)) ∧
        asks (moves ++ new) s (.consensusClient (.verifyLightBlocks prev blocks))) ∧
      ∀ (chain : List ChainEntry) (last : Header) (e' : ε) (verified : Move (State Header)),
        C.answers (.consensusClient (.verifyLightBlocks prev blocks)) e (.ok chain) e' →
        verified = ⟨s, .read "consensus_lc.verify_light_blocks", .consensusClient (.verifyLightBlocks prev blocks),
          .ok chain⟩ →
        (s.pending.take size).getLast? = some last → chain.getLast? = some last.entry →
        (C.attends .submit (.relayStore (.submitHashChain chain)) ∧
          asks (moves ++ new ++ [verified]) s (.relayStore (.submitHashChain chain))) ∧
        ∀ response e'', ok last
          (moves ++ new ++ [verified] ++ [⟨s, .submit, .relayStore (.submitHashChain chain), .ok response⟩])
          { s with pending := s.pending.drop (s.pending.take size).length } e'') :
    (sendBatchView size prev).Ensures C asks moves s e ok err := by
  refine ensures_sendBatchView_of_blocks (ensures_lightBlocksOfView hreads hcommit hvalidators fun x moves' =>
    herr x moves' e) (fun x new => herr x _ e) fun blocks new hblocks hnew => ?_
  obtain ⟨hverify, hsubmit⟩ := hbatch blocks new hblocks hnew
  refine ⟨hverify, fun chain first last verified hchain hverified hlast hends => ?_⟩
  obtain ⟨hasks, hok⟩ := hsubmit chain last e verified hchain hverified hlast hends
  exact ⟨hasks, fun response _ _ => hok response _, fun x new _ _ => herr x _ _⟩

theorem next_sendBatch {prev : Header} (h : Flushing batchSize (count + 1) moves s) :
    (sendBatchView (max 1 batchSize) prev).Ensures .everyone (fun moves _ c => (plan batchSize).Next moves c) moves s ()
      (fun _ moves' s' _ => Flushing batchSize count moves' s') fun _ _ _ _ => True := by
  obtain ⟨done, hplanned, hdone⟩ := h
  refine ensures_sendBatchView (fun _ _ _ hc => Plan.next_of_read hc.1) (fun _ _ => trivial) (fun _ _ => trivial)
    (fun _ _ _ => trivial) fun blocks new _ hnew => ⟨⟨trivial, Plan.next_of_read rfl⟩, ?_⟩
  rintro chain last _ verified - hverified hlast hends
  have hreads : ∀ m ∈ new ++ [verified], m.call.isSubmission = false := by
    intro m hm
    rcases List.mem_append.mp hm with hm | hm
    · exact (hnew m hm).1
    · rw [List.mem_singleton.mp hm, hverified]
      rfl
  -- the queue is the one with which the flush started, and no submission was made since the last batch
  have hflushed : flushed? (moves ++ new ++ [verified]) = some ((flushed? moves).getD s.pending) := by
    rw [flushed?_verified (by rw [hverified]; rfl), flushed?_append fun m hm => (hnew m hm).2, hverified]
  have hsubmissions : submissionsOf ((moves ++ new ++ [verified]).map Move.call) =
      submissionsOf (moves.map Move.call) := by
    rw [List.append_assoc, submissionsOf_moves hreads]
  have hcarries : (plan batchSize).carries (s.pending.take (max 1 batchSize)) (.relayStore (.submitHashChain chain)) :=
    ⟨chain, last, rfl, hlast, hends⟩
  refine ⟨⟨trivial, fun _ => ⟨done, s.pending.take (max 1 batchSize),
    firstBatches (max 1 batchSize) count (s.pending.drop (max 1 batchSize)), ?_, by rwa [hsubmissions], hcarries⟩⟩,
    fun response _ => ⟨done ++ [s.pending.take (max 1 batchSize)], ?_, ?_⟩⟩
  · show fullBatches _ ((flushed? (moves ++ new ++ [verified])).getD []) = _
    rw [hflushed]
    exact hplanned
  · show fullBatches _ ((flushed? (moves ++ new ++ [verified] ++ [_])).getD _) =
      _ ++ firstBatches _ count (s.pending.drop (s.pending.take (max 1 batchSize)).length)
    rw [flushed?_append (List.forall_mem_singleton.mpr rfl), hflushed, drop_length_take, List.append_assoc]
    exact hplanned
  · rw [List.map_append, submissionsOf_append, hsubmissions]
    exact List.rel_append hdone (.cons hcarries .nil)

theorem next_sendBatches {prev : Header} {report : Report} (h : Flushing batchSize count moves s) :
    (sendBatchesView (max 1 batchSize) count prev report).Ensures .everyone
      (fun moves _ c => (plan batchSize).Next moves c) moves s () (fun _ _ _ _ => True) fun _ _ _ _ => True := by
  induction count generalizing prev report moves s with
  | zero => exact trivial
  | succ count ih =>
    refine View.ensures_bind.mpr (View.ensures_bind.mpr ((next_sendBatch h).mono ?_ fun _ _ _ _ h => h))
    rintro tip moves' s' ⟨⟩ h'
    exact View.ensures_bind.mpr (View.ensures_bind.mpr (ih h'))

/-! ### Before a flush -/

theorem everyone_storedHeader :
    storedHeader.Ensures (Conduct.everyone.asking Prepares) s () (fun _ _ _ => True) fun _ _ _ => True := by
  refine Cycle.ensures_bind.mpr (everyone_read ⟨rfl, rfl⟩ (fun (height : Nat) => ?_) fun _ => trivial)
  refine Cycle.ensures_bind.mpr (Cycle.ensures_get.mpr ?_)
  split
  · exact trivial
  · refine Cycle.ensures_bind.mpr (everyone_read ⟨rfl, rfl⟩ (fun (hash : Hash) => ?_) fun _ => trivial)
    refine Cycle.ensures_bind.mpr (everyone_read ⟨rfl, rfl⟩ (fun (header : Header) => ?_) fun _ => trivial)
    exact Cycle.ensures_ite (fun _ => trivial) fun _ => trivial

theorem everyone_dropStored {height : Nat} :
    (dropStored height).Ensures (Conduct.everyone.asking Prepares) s () (fun _ _ _ => True) fun _ _ _ => True :=
  Cycle.ensures_bind.mpr (Cycle.ensures_bind.mpr (Cycle.ensures_ite (fun _ => trivial) fun _ => trivial))

theorem everyone_readHeaders {count height : Nat} :
    (readHeaders count height).Ensures (Conduct.everyone.asking Prepares) s () (fun _ _ _ => True)
      fun _ _ _ => True := by
  induction count generalizing height with
  | zero => exact trivial
  | succ count ih =>
    refine Cycle.ensures_bind.mpr (everyone_read ⟨rfl, rfl⟩ (fun header => ?_) fun _ => trivial)
    exact Cycle.ensures_bind.mpr (Cycle.Ensures.mono ih (fun _ _ _ _ => trivial) fun _ _ _ h => h)

theorem everyone_enqueue {headers : List Header} :
    (enqueue headers).Ensures (Conduct.everyone.asking Prepares) s () (fun _ _ _ => True) fun _ _ _ => True := by
  induction headers generalizing s with
  | nil => exact trivial
  | cons h headers ih => exact Cycle.ensures_bind.mpr (Cycle.ensures_bind.mpr ih)

theorem next_prepare {α : Type} {x : Cycle (State Header) α} {v : x.View}
    {ok : α → List (Move (State Header)) → State Header → Unit → Prop}
    (hx : x.Ensures (Conduct.everyone.asking Prepares) s () (fun _ _ _ => True) fun _ _ _ => True)
    (hmoves : ∀ m ∈ moves, Prepares m.call)
    (hok : ∀ a moves s, (∀ m ∈ moves, Prepares m.call) → ok a moves s ()) :
    v.Ensures .everyone (fun moves _ c => (plan batchSize).Next moves c) moves s () ok fun _ _ _ _ => True := by
  refine (View.ensures_of_reads (P := Prepares) ?_ hx).mono ?_ fun _ _ _ _ _ => trivial
  · exact fun _ _ _ hc => Plan.next_of_read hc.1
  · rintro a _ s ⟨⟩ ⟨-, new, rfl, hnew⟩
    refine hok a _ s fun m hm => ?_
    rcases List.mem_append.mp hm with hm | hm
    · exact hmoves m hm
    · exact hnew m hm

/-- **The batched engine.** It submits the full batches of its queue, one after the other. -/
theorem next_view :
    (view batchSize).Ensures .everyone (fun moves _ c => (plan batchSize).Next moves c) [] s ()
      (fun _ _ _ _ => True) fun _ _ _ _ => True := by
  refine View.ensures_bind.mpr (next_prepare everyone_storedHeader (by simp) fun relayBest moves s hmoves => ?_)
  refine View.ensures_bind.mpr (next_prepare everyone_dropStored hmoves fun _ moves s hmoves => ?_)
  refine View.ensures_bind.mpr (next_prepare (everyone_read ⟨rfl, rfl⟩ (fun _ => trivial) fun _ => trivial) hmoves
    fun (top : Nat) moves s hmoves => ?_)
  refine View.ensures_bind.mpr (next_prepare (everyone_read ⟨rfl, rfl⟩ (fun _ => trivial) fun _ => trivial) hmoves
    fun (networkBest : Header) moves s hmoves => ?_)
  refine View.ensures_bind.mpr (View.ensures_bind.mpr (View.ensures_bind.mpr (View.ensures_bind.mpr ?_)))
  refine next_prepare everyone_readHeaders hmoves fun examined moves s hmoves => ?_
  refine View.ensures_bind.mpr (next_prepare everyone_enqueue hmoves fun _ moves s hmoves => ?_)
  refine View.ensures_bind.mpr (View.ensures_bind.mpr (View.ensures_bind.mpr ?_))
  -- all of the queue is left
  have hstart : Flushing batchSize (s.pending.length / max 1 batchSize) moves (s.raiseChecked top) := by
    have hnone : flushed? ([] ++ moves) = none := flushed?_append fun m hm => (hmoves m hm).2
    have hsubmissions : submissionsOf (([] ++ moves).map Move.call) = [] :=
      submissionsOf_moves fun m hm => (hmoves m hm).1
    rw [List.nil_append] at hnone hsubmissions
    exact ⟨[], by rw [hnone]; rfl, by rw [hsubmissions]; exact .nil⟩
  exact (next_sendBatches hstart).mono (fun _ _ _ _ _ => trivial) fun _ _ _ _ h => h

end Batched

/-! ## The sequential engine -/

namespace Sequential

def headersRead (moves : List (Move σ)) : List Header :=
  moves.filterMap fun
    | ⟨_, _, .consensusNode (.header _), .ok header⟩ => some header
    | _ => none

def asksTop : Call → Bool
  | .consensusNode .latestHeight => true
  | _ => false

/-- The trusted header and the largest gap when the node was asked for its latest height. -/
def origin? (moves : List (Move (State Header))) : Option (Header × Nat) :=
  (moves.find? fun m => asksTop m.call).bind fun m => m.held.contractBest.map (·, m.held.maxInterval)

/-- What the rule selects from the headers read so far, after the network's best, is to be submitted, each as one
light block. -/
def plan : Plan (State Header) Header where
  planned moves :=
    match origin? moves with
    | some (first, m) => dueHeaders m (headersRead moves).tail first
    | none => []
  carries header c := ∃ prev block, c = .consensusClient (.submitLightBlocks prev [block]) ∧ block.header = header

/-- Calls other than those of which the plan is made. -/
def Aside (c : Call) : Prop :=
  c.isSubmission = false ∧ asksTop c = false ∧ ∀ height, c ≠ .consensusNode (.header height)

variable {moves new : List (Move (State Header))} {s : State Header} {last : Header}

theorem headersRead_append (moves new : List (Move σ)) :
    headersRead (moves ++ new) = headersRead moves ++ headersRead new := List.filterMap_append ..

theorem headersRead_aside (h : ∀ m ∈ new, ∀ height, m.call ≠ .consensusNode (.header height)) :
    headersRead (moves ++ new) = headersRead moves := by
  have hnone : headersRead new = [] := by
    rw [headersRead, List.filterMap_eq_nil_iff]
    intro m hm
    split
    · rename_i height header
      exact absurd rfl (h _ hm height)
    · rfl
  rw [headersRead_append, hnone, List.append_nil]

theorem origin?_append (h : ∀ m ∈ new, asksTop m.call = false) : origin? (moves ++ new) = origin? moves := by
  rw [origin?, List.find?_append, find?_aside h, Option.or_none]
  rfl

/-- All of what was planned so far is submitted, `last` being the last of it. -/
def Examined (moves : List (Move (State Header))) (s : State Header) (last : Header) : Prop :=
  ∃ first networkBest read, origin? moves = some (first, s.maxInterval) ∧
    headersRead moves = networkBest :: read ∧
    (dueHeaders s.maxInterval read first).getLast?.getD first = last ∧
    List.Forall₂ plan.carries (dueHeaders s.maxInterval read first) (submissionsOf (moves.map Move.call))

theorem next_submitHeader {height : Nat} {header : Header} {first networkBest : Header} {read : List Header}
    (horigin : origin? moves = some (first, s.maxInterval))
    (hread : headersRead moves = networkBest :: (read ++ [header]))
    (hdue : dueHeaders s.maxInterval (read ++ [header]) first = dueHeaders s.maxInterval read first ++ [header])
    (hdone : List.Forall₂ plan.carries (dueHeaders s.maxInterval read first) (submissionsOf (moves.map Move.call))) :
    (submitHeaderView height header last).Ensures .everyone (fun moves _ c => plan.Next moves c) moves s ()
      (fun _ moves' s' _ => Examined moves' s' header) fun _ _ _ _ => True := by
  refine View.ensures_bind.mpr ((View.ensures_of_reads (P := Aside) ?_
    (ensures_lightBlockOf_reads (fun _ _ => ⟨trivial, rfl, rfl, nofun⟩) fun _ _ => ⟨trivial, rfl, rfl, nofun⟩)).mono ?_
    fun _ _ _ _ _ => trivial)
  · exact fun _ _ _ hc => Plan.next_of_read hc.1
  rintro block _ s' ⟨⟩ ⟨⟨⟨rfl, -⟩, hblock⟩, new, rfl, hnew⟩
  have horigin' : origin? (moves ++ new) = some (first, s'.maxInterval) := by
    rw [origin?_append fun m hm => (hnew m hm).2.1, horigin]
  have hread' : headersRead (moves ++ new) = networkBest :: (read ++ [header]) := by
    rw [headersRead_aside fun m hm => (hnew m hm).2.2, hread]
  rw [← submissionsOf_moves fun m hm => (hnew m hm).1] at hdone
  generalize moves ++ new = moves' at horigin' hread' hdone ⊢
  have hcarries : plan.carries header (.consensusClient (.submitLightBlocks last [block])) := ⟨last, block, rfl, hblock⟩
  have hplanned : plan.planned moves' = dueHeaders s'.maxInterval read first ++ [header] := by
    show (match origin? moves' with | some (first, m) => _ | none => _) = _
    rw [horigin']
    show dueHeaders s'.maxInterval (headersRead moves').tail first = _
    rw [hread']
    exact hdue
  refine View.ensures_bind.mpr (View.ensures_call.mpr ⟨⟨trivial, fun _ => ⟨_, _, _, hplanned, hdone, hcarries⟩⟩,
    fun response _ _ => ?_, fun _ _ _ => trivial⟩)
  refine View.ensures_bind.mpr ⟨first, networkBest, read ++ [header], ?_, ?_, ?_, ?_⟩
  · rw [origin?_append (List.forall_mem_singleton.mpr rfl)]
    exact horigin'
  · rw [headersRead_aside fun m hm => by rw [List.mem_singleton.mp hm]; exact nofun]
    exact hread'
  · show (dueHeaders s'.maxInterval (read ++ [header]) first).getLast?.getD first = header
    rw [hdue, List.getLast?_concat]
    rfl
  · show List.Forall₂ _ (dueHeaders s'.maxInterval (read ++ [header]) first) _
    rw [hdue, List.map_append, submissionsOf_append]
    exact List.rel_append hdone (.cons hcarries .nil)

/-- **Examination.** What is submitted is the next of the plan. -/
theorem next_examine {count height : Nat} {report : Report} (h : Examined moves s last) :
    (examineView count height last report).Ensures .everyone (fun moves _ c => plan.Next moves c) moves s ()
      (fun _ _ _ _ => True) fun _ _ _ _ => True := by
  induction count generalizing height last report moves s with
  | zero => exact trivial
  | succ count ih =>
    obtain ⟨first, networkBest, read, horigin, hread, hlast, hdone⟩ := h
    refine View.ensures_bind.mpr (ensures_readHeaderView.mpr ⟨⟨trivial, nofun⟩, fun header _ _ => ?_,
      fun _ _ _ => trivial⟩)
    generalize hmoves : moves ++ [_] = moves'
    have horigin' : origin? moves' = some (first, s.maxInterval) := by
      rw [← hmoves, origin?_append (List.forall_mem_singleton.mpr rfl), horigin]
    have hread' : headersRead moves' = networkBest :: (read ++ [header]) := by
      rw [← hmoves, headersRead_append, hread]
      rfl
    have hsubmissions : submissionsOf (moves'.map Move.call) = submissionsOf (moves.map Move.call) := by
      rw [← hmoves]
      exact submissionsOf_moves (List.forall_mem_singleton.mpr rfl)
    rw [← hsubmissions] at hdone
    have happend := dueHeaders_append s.maxInterval read [header] first
    rw [hlast] at happend
    refine View.ensures_bind.mpr (View.ensures_ite (fun hdue => ?_) fun hdue => ?_)
    · have hone : dueHeaders s.maxInterval [header] last = [header] := if_pos hdue
      rw [hone] at happend
      refine View.ensures_bind.mpr ((next_submitHeader horigin' hread' happend hdone).mono ?_ fun _ _ _ _ h => h)
      rintro _ moves'' s'' ⟨⟩ h''
      exact ih h''
    · have hnone : dueHeaders s.maxInterval [header] last = [] := if_neg hdue
      rw [hnone, List.append_nil] at happend
      exact ih ⟨first, networkBest, read ++ [header], horigin', hread', by rw [happend, hlast], by rwa [happend]⟩

theorem everyone_trustedHeader :
    trustedHeader.Ensures (Conduct.everyone.asking Aside) s () (fun last s' _ => s'.contractBest = some last)
      fun _ _ _ => True := by
  refine Cycle.ensures_bind.mpr (everyone_read ⟨rfl, rfl, nofun⟩ (fun (hash : Hash) => ?_) fun _ => trivial)
  refine Cycle.ensures_bind.mpr (everyone_read ⟨rfl, rfl, nofun⟩ (fun (height : Nat) => ?_) fun _ => trivial)
  refine Cycle.ensures_bind.mpr (Cycle.ensures_get.mpr ?_)
  split
  · rename_i known hknown
    exact (Option.filter_eq_some_iff.mp hknown).1
  · refine Cycle.ensures_bind.mpr (everyone_read ⟨rfl, rfl, nofun⟩ (fun (header : Header) => ?_) fun _ => trivial)
    exact Cycle.ensures_ite (fun _ => trivial) fun _ => rfl

/-- **The sequential engine.** It submits what the rule selects from the headers that it reads, one after the
other. -/
theorem next_view :
    view.Ensures .everyone (fun moves _ c => plan.Next moves c) [] s () (fun _ _ _ _ => True)
      fun _ _ _ _ => True := by
  refine View.ensures_bind.mpr ((View.ensures_of_reads (P := Aside) ?_ everyone_trustedHeader).mono ?_
    fun _ _ _ _ _ => trivial)
  · exact fun _ _ _ hc => Plan.next_of_read hc.1
  rintro last moves s ⟨⟩ ⟨htrusted, _, rfl, hmoves⟩
  refine View.ensures_bind.mpr (View.ensures_call.mpr ⟨⟨trivial, nofun⟩, fun (top : Nat) _ _ => ?_,
    fun _ _ _ => trivial⟩)
  refine View.ensures_bind.mpr (ensures_readHeaderView.mpr ⟨⟨trivial, nofun⟩, fun networkBest _ _ => ?_,
    fun _ _ _ => trivial⟩)
  refine View.ensures_bind.mpr (View.ensures_bind.mpr (View.ensures_bind.mpr (View.ensures_bind.mpr ?_)))
  have hread : headersRead ([] ++ moves) = [] := headersRead_aside fun m hm => (hmoves m hm).2.2
  have hsubmissions : submissionsOf (([] ++ moves).map Move.call) = [] :=
    submissionsOf_moves fun m hm => (hmoves m hm).1
  rw [List.nil_append] at hread hsubmissions
  refine (next_examine ⟨last, networkBest, [], ?_, ?_, rfl, ?_⟩).mono (fun _ _ _ _ _ => trivial) fun _ _ _ _ h => h
  · rw [origin?_append (List.forall_mem_singleton.mpr rfl), origin?, List.find?_append,
      find?_aside fun m hm => (hmoves m hm).2.1]
    show s.contractBest.map _ = _
    rw [htrusted]
    rfl
  · rw [headersRead_append, headersRead_append, hread]
    rfl
  · rw [submissionsOf_moves (List.forall_mem_singleton.mpr rfl),
      submissionsOf_moves (List.forall_mem_singleton.mpr rfl), hsubmissions]
    exact .nil

end Sequential

end HeaderRelay.Sync
