import HeaderRelay.Proofs.EngineViews
import HeaderRelay.Proofs.Submissions

/-!
# What the Bitcoin engine submits in one cycle

The plan of a Bitcoin cycle: the headers that its walk has read, oldest first, cut into batches. It submits the next
of its plan only, whatever it is told (`next_view`).
-/
namespace HeaderRelay.Sync.Bitcoin

open HeaderRelay.Bitcoin (Header)
open HeaderRelay.Cycle (View)
open Peer (Call Conduct)

variable {σ : Type}

def headersRead (moves : List (Move σ)) : List Header :=
  moves.filterMap fun
    | ⟨_, _, .bitcoinNode (.header _), .ok header⟩ => some header
    | _ => none

def heightRead? (moves : List (Move σ)) : Option Nat :=
  moves.findSome? fun
    | ⟨_, _, .bitcoinNode (.headerHeight _), .ok height⟩ => some height
    | _ => none

/-- The headers that were read are to be submitted in batches, oldest first, from the height that is left when they
are all taken off the node's best. -/
def plan (config : Config) : Plan State (Batch Header) where
  planned moves :=
    match heightRead? moves with
    | some top =>
      match Sync.batchesOf (headersRead moves).reverse (top - (headersRead moves).length) config.batchSize with
      | .ok batches => batches
      | .error _ => []
    | none => []
  carries b c := ∃ gas, c = .bitcoinClient (.submitHeaders b.tipHeight b.headers gas)

def Aside (c : Call) : Prop :=
  c.isSubmission = false ∧ (∀ hash, c ≠ .bitcoinNode (.header hash)) ∧ ∀ hash, c ≠ .bitcoinNode (.headerHeight hash)

variable {τ : Type} {config : Config} {moves new : List (Move τ)} {s : τ}

theorem headersRead_append (moves new : List (Move τ)) :
    headersRead (moves ++ new) = headersRead moves ++ headersRead new := List.filterMap_append ..

theorem headersRead_aside (h : ∀ m ∈ new, ∀ hash, m.call ≠ .bitcoinNode (.header hash)) :
    headersRead (moves ++ new) = headersRead moves := by
  have hnone : headersRead new = [] := by
    rw [headersRead, List.filterMap_eq_nil_iff]
    intro m hm
    split
    · rename_i hash header
      exact absurd rfl (h _ hm hash)
    · rfl
  rw [headersRead_append, hnone, List.append_nil]

theorem heightRead?_aside (h : ∀ m ∈ new, ∀ hash, m.call ≠ .bitcoinNode (.headerHeight hash)) :
    heightRead? (moves ++ new) = heightRead? moves := by
  have hnone : heightRead? new = none := by
    rw [heightRead?, List.findSome?_eq_none_iff]
    intro m hm
    split
    · rename_i hash height
      exact absurd rfl (h _ hm hash)
    · rfl
  rw [heightRead?, List.findSome?_append]
  exact (congrArg _ hnone).trans (Option.or_none ..)

/-- What a walk has read when it is at `height`: `read`, from the node's best down. -/
structure Walked (moves : List (Move τ)) (height : Nat) (oldestFirst : List Header) : Prop where
  read : headersRead moves = oldestFirst.reverse
  top : heightRead? moves = some (height + oldestFirst.length)
  submissions : submissionsOf (moves.map Move.call) = []

theorem Walked.aside {height : Nat} {oldestFirst : List Header} (h : Walked moves height oldestFirst)
    (hnew : ∀ m ∈ new, Aside m.call) : Walked (moves ++ new) height oldestFirst where
  read := by rw [headersRead_aside fun m hm => (hnew m hm).2.1, h.read]
  top := by rw [heightRead?_aside fun m hm => (hnew m hm).2.2, h.top]
  submissions := by rw [submissionsOf_moves fun m hm => (hnew m hm).1, h.submissions]

theorem Walked.read_header {op : String} {hash : Hash} {height : Nat} {oldestFirst : List Header}
    (h : Walked moves (height + 1) oldestFirst) (header : Header) :
    Walked (moves ++ [⟨s, .read op, .bitcoinNode (.header hash), .ok header⟩]) height (header :: oldestFirst) where
  read := by
    rw [headersRead_append, h.read]
    exact List.reverse_cons.symm
  top := by
    rw [heightRead?_aside fun m hm => by rw [List.mem_singleton.mp hm]; exact nofun, h.top, List.length_cons]
    congr 1
    omega
  submissions := by rw [submissionsOf_moves (List.forall_mem_singleton.mpr rfl), h.submissions]

def onlyReads (_ : List (Move τ)) (_ : τ) (c : Call) : Prop := c.isSubmission = false

theorem everyone_contractAt {ends : Ends} {height : Nat} :
    (contractAt ends height : Cycle τ (Option Hash)).Ensures (Conduct.everyone.asking Aside) s ()
      (fun _ s' _ => s' = s) fun _ _ _ => True :=
  Cycle.ensures_ite (fun _ => everyone_read ⟨rfl, nofun, nofun⟩ (fun _ => rfl) fun _ => trivial) fun _ => rfl

/-- A step of a walk ends it with what was read so far, or reads one more header. -/
theorem walked_walkStep {ends : Ends} {height : Nat} {cursor : Hash} {trail : Trail Header}
    {below : ∀ height', height = height' + 1 → (cursor : Hash) → (trail : Trail Header) →
      (walk ends height' cursor trail : Cycle τ (Option Gap)).View} (h : Walked moves height trail.oldestFirst)
    (hbelow : ∀ height' heq (header : Header) moves, Walked moves height' (trail.push header).oldestFirst →
      (below height' heq header.prevHash (trail.push header)).Ensures .everyone onlyReads moves s ()
        (fun found moves' _ _ => ∀ gap, found = some gap → Walked moves' gap.tipHeight gap.headers)
        fun _ _ _ _ => True) :
    (walkStepView ends height cursor trail below).Ensures .everyone onlyReads moves s ()
      (fun found moves' _ _ => ∀ gap, found = some gap → Walked moves' gap.tipHeight gap.headers)
      fun _ _ _ _ => True := by
  refine View.ensures_ofEq.mpr (View.ensures_bind.mpr ((View.ensures_of_reads (P := Aside) (fun _ _ _ hc => hc.1)
    everyone_contractAt).mono ?_ fun _ _ _ _ _ => trivial))
  rintro held _ s ⟨⟩ ⟨rfl, new, rfl, hnew⟩
  have h' := h.aside hnew
  cases hend : walkEnd cursor height trail.size ends.contractBest ends.contractHeight held with
  | some stop =>
    cases stop with
    | alreadyHeld => exact nofun
    | linearExtension | forkConvergence =>
      rintro gap ⟨⟩
      exact h'
  | none =>
    refine View.ensures_ite (fun _ => trivial) fun _ => ?_
    refine View.ensures_bind.mpr (View.ensures_call.mpr ⟨⟨trivial, rfl⟩, fun (header : Header) _ _ => ?_,
      fun _ _ _ => trivial⟩)
    cases height with
    | zero => exact trivial
    | succ height' =>
      exact hbelow height' rfl header _ (h'.read_header header)

theorem walked_walk {ends : Ends} {height : Nat} {cursor : Hash} {trail : Trail Header}
    (h : Walked moves height trail.oldestFirst) :
    (walkView ends height cursor trail).Ensures .everyone onlyReads moves s ()
      (fun found moves' _ _ => ∀ gap, found = some gap → Walked moves' gap.tipHeight gap.headers)
      fun _ _ _ _ => True := by
  induction height generalizing cursor trail moves with
  | zero => exact walked_walkStep h nofun
  | succ height ih =>
    refine walked_walkStep h fun height' heq header moves h' => ?_
    cases heq
    exact ih h'

theorem walked_findGap :
    (findGapView config).Ensures .everyone onlyReads [] s ()
      (fun found moves' _ _ => ∀ gap, found = some gap → Walked moves' gap.tipHeight gap.headers)
      fun _ _ _ _ => True := by
  refine View.ensures_bind.mpr (View.ensures_call.mpr ⟨⟨trivial, rfl⟩, fun (contractBest : Hash) _ _ => ?_,
    fun _ _ _ => trivial⟩)
  refine View.ensures_bind.mpr (View.ensures_call.mpr ⟨⟨trivial, rfl⟩, fun (contractHeight : Nat) _ _ => ?_,
    fun _ _ _ => trivial⟩)
  refine View.ensures_bind.mpr (View.ensures_call.mpr ⟨⟨trivial, rfl⟩, fun (chainBest : Hash) _ _ => ?_,
    fun _ _ _ => trivial⟩)
  refine View.ensures_ite (fun _ => nofun) fun _ => ?_
  refine View.ensures_bind.mpr (View.ensures_call.mpr ⟨⟨trivial, rfl⟩, fun (chainHeight : Nat) _ _ => ?_,
    fun _ _ _ => trivial⟩)
  exact walked_walk ⟨rfl, rfl, rfl⟩

theorem everyone_firstGas :
    (firstGas config : Cycle τ (Option Nat)).Ensures (Conduct.everyone.asking Aside) s () (fun _ _ _ => True)
      fun _ _ _ => True := by
  refine Cycle.ensures_ite (fun _ => trivial) fun _ => ?_
  refine Cycle.ensures_bind.mpr (Cycle.ensures_outcome.mpr ⟨⟨trivial, rfl, nofun, nofun⟩, fun r _ _ => ?_⟩)
  cases r <;> exact trivial

/-- All of the plan but these batches is submitted. -/
def Left (config : Config) (moves : List (Move State)) (batches : List (Batch Header)) : Prop :=
  ∃ done, (plan config).planned moves = done ++ batches ∧
    List.Forall₂ (plan config).carries done (submissionsOf (moves.map Move.call))

theorem next_submitAll {batches : List (Batch Header)} {gas : Option Nat} {report : Report} {s : State}
    {moves : List (Move State)} (h : Left config moves batches) :
    (submitAllView config batches gas report).Ensures .everyone (fun moves _ c => (plan config).Next moves c) moves s ()
      (fun _ _ _ _ => True) fun _ _ _ _ => True := by
  induction batches generalizing gas report moves with
  | nil => exact trivial
  | cons b batches ih =>
    obtain ⟨done, hplanned, hdone⟩ := h
    have hcarries : (plan config).carries b (.bitcoinClient (.submitHeaders b.tipHeight b.headers gas)) := ⟨gas, rfl⟩
    refine View.ensures_submission.mpr ⟨⟨trivial, fun _ => ⟨done, b, batches, hplanned, hdone, hcarries⟩⟩,
      fun r _ _ => ?_⟩
    cases r with
    | error x => exact trivial
    | ok response =>
      refine View.ensures_bind.mpr (ih ⟨done ++ [b], ?_, ?_⟩)
      · rw [List.append_assoc, plan]
        dsimp only
        rw [heightRead?_aside fun m hm => by rw [List.mem_singleton.mp hm]; exact nofun,
          headersRead_aside fun m hm => by rw [List.mem_singleton.mp hm]; exact nofun]
        exact hplanned
      · rw [List.map_append, submissionsOf_append]
        exact List.rel_append hdone (.cons hcarries .nil)

/-- **The Bitcoin engine.** It submits the batches of what it has read, one after the other. -/
theorem next_view {s : State} :
    (view config).Ensures .everyone (fun moves _ c => (plan config).Next moves c) [] s () (fun _ _ _ _ => True)
      fun _ _ _ _ => True := by
  refine View.ensures_bind.mpr (View.ensures_bind.mpr (InProgress.Ensures.mono walked_findGap ?_ ?_))
  · exact fun _ _ _ hc => Plan.next_of_read hc
  rintro (x | found) moves s ⟨⟩ h
  · exact trivial
  cases found with
  | none => exact trivial
  | some gap =>
  have hwalked := h gap rfl
  refine View.ensures_bind.mpr ?_
  cases hbatches : Sync.batchesOf gap.headers gap.tipHeight config.batchSize with
  | error x => exact trivial
  | ok batches =>
    refine View.ensures_bind.mpr ((View.ensures_of_reads (P := Aside) ?_ everyone_firstGas).mono ?_
      fun _ _ _ _ _ => trivial)
    · exact fun _ _ _ hc => Plan.next_of_read hc.1
    rintro gas _ s ⟨⟩ ⟨-, new, rfl, hnew⟩
    have hwalked' := hwalked.aside hnew
    have hplanned : (plan config).planned (moves ++ new) = batches := by
      simp only [plan, hwalked'.top, hwalked'.read, List.reverse_reverse, List.length_reverse,
        Nat.add_sub_cancel, hbatches]
    refine View.ensures_bind.mpr (View.ensures_bind.mpr ((next_submitAll ⟨[], hplanned, ?_⟩).mono
      (fun _ _ _ _ _ => trivial) fun _ _ _ _ h => h))
    rw [hwalked'.submissions]
    exact .nil

end HeaderRelay.Sync.Bitcoin
