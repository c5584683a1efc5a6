import HeaderRelay.Proofs.BitcoinSubmissions
import HeaderRelay.Proofs.BitcoinWalk
import HeaderRelay.Proofs.BoundedCalls
import HeaderRelay.Proofs.ConsensusDeadlines

/-!
# The walk is bounded

A walk ends because of what it counts, not because of what it is told. Each header that is read takes it one height
down, from the height at which the node puts its best header, and adds one to the headers collected, of which there may
only be so many. So it does not matter what the headers say: parent links may form a cycle, and hashes and heights may
be wrong.

`Allowed` is what a walk may ask for after the calls made so far, `Halfway` is what it has read when it turns to a
height, and from there `ReadWithin` bounds what it reads on any path.

A read is put off for as long as it is answered by requests for pauses, of which there is no limit. So a search ends if
its reads do: it is over when it is followed for all attempts of a read and as many calls more as pauses were asked for
(`Program.Bounded.ends`). Peers that never stop asking for pauses keep it from its end (`endless_pauses_unfollowed`).

Result: `walk_back_bounded`, for every timed run of a search.
-/
namespace HeaderRelay

open Peer (Call Conduct Exchange Handler)

variable {α β : Type}

/-- If each item of a kind comes after fewer than `n` of them, there are at most `n`. -/
theorem length_filterMap_le_of_fewer {f : α → Option β} {n : Nat} {l : List α}
    (h : ∀ before a after, l = before ++ a :: after → (f a).isSome → (before.filterMap f).length < n) :
    (l.filterMap f).length ≤ n := by
  induction l using List.reverseRecOn with
  | nil => exact Nat.zero_le _
  | append_singleton l a ih =>
    have hbefore := ih fun before b after heq => h before b (after ++ [a]) (by rw [heq, List.append_assoc]; rfl)
    have hlast := h l a [] rfl
    cases ha : f a with
    | none => simpa [ha] using hbefore
    | some b =>
      rw [ha] at hlast
      simpa [ha] using Nat.succ_le_of_lt (hlast rfl)

/-! ## Runs with pauses -/

section Pauses

variable {ρ : Type} {H : Handler ρ} {c : Call} {followed : Nat} {policy : Policy}
  {w w' : World (ρ × List (Exchange ρ))}

/-- How many of the exchanges ended with a request for a pause. -/
def pausesAsked (l : List (Exchange ρ)) : Nat := (l.filterMap Exchange.limit?).length

theorem pausesAsked_append (l l' : List (Exchange ρ)) : pausesAsked (l ++ l') = pausesAsked l + pausesAsked l' := by
  rw [pausesAsked, List.filterMap_append, List.length_append]
  rfl

theorem Timed.within_asked {limit : Nat} {deadline : Option Nat} {o : Outcome (Relayed c.Answer)} (hH : H.Punctual)
    (h : Timed.within limit (H.recorded c) deadline w = (o, w')) :
    ∃ e, w'.record = e :: w.record ∧ ∀ seconds, o = .done (.error (.rateLimited seconds)) → pausesAsked [e] = 1 := by
  obtain ⟨d, o₁, after, -, -, rfl, ho⟩ := Peer.Handler.within_recorded_cases hH h
  refine ⟨_, rfl, fun seconds hlimited => ?_⟩
  obtain rfl : o₁ = .done (.error (.rateLimited seconds)) := by
    rcases ho with rfl | ⟨-, rfl⟩
    · exact hlimited
    · cases hlimited
  rfl

/-- Who still calls after so many calls was asked for pauses by all but the failed attempts. -/
theorem Retry.Runs.paused {op : String} {limit attempts fuel failures : Nat} {delay : Nat → Nat} {deadline : Option Nat}
    {o : Outcome (Relayed c.Answer)} (hH : H.Punctual)
    (h : Retry.Runs op attempts delay (Timed.within limit (H.recorded c)) deadline fuel failures w o w')
    (hfailures : failures < attempts) :
    ∃ sent, w'.record = sent ++ w.record ∧ (o = .unfollowed → fuel + failures < attempts + pausesAsked sent) := by
  induction h with
  | final hcall | exhausted hcall | cut hcall | unanswered hcall =>
    obtain ⟨e, he, -⟩ := Timed.within_asked hH hcall
    exact ⟨[e], he, nofun⟩
  | lost hcall => exact absurd rfl (((hH.recorded c).within limit).followed hcall)
  | @again fuel failures w x w₁ ev pause failures' o w' hcall hagain _ _ ih =>
    obtain ⟨e, he, hasked⟩ := Timed.within_asked hH hcall
    have hsent {later} (hlater : w'.record = later ++ w₁.record) : w'.record = (later ++ [e]) ++ w.record := by
      rw [hlater, he, List.append_assoc]
      rfl
    cases hagain with
    | limited seconds =>
      obtain ⟨later, hlater, hless⟩ := ih hfailures
      refine ⟨later ++ [e], hsent hlater, fun ho => ?_⟩
      rw [pausesAsked_append, hasked seconds rfl]
      have := hless ho
      omega
    | failed _ _ hlast =>
      obtain ⟨later, hlater, hless⟩ := ih hlast
      refine ⟨later ++ [e], hsent hlater, fun ho => ?_⟩
      rw [pausesAsked_append]
      have := hless ho
      omega
  | unfollowed => exact ⟨[], rfl, fun _ => by rw [Nat.zero_add]; exact Nat.lt_add_right _ hfailures⟩

theorem Mode.carry_paused {mode : Mode} {o : Outcome (Relayed c.Answer)} (hH : H.Punctual) (hmode : mode ≠ .direct)
    (h : mode.carry followed policy (H.recorded c) none w = (o, w')) :
    ∃ sent, w'.record = sent ++ w.record ∧
      (policy.attempts + pausesAsked sent ≤ followed → ∃ r, o = .done r) := by
  cases mode with
  | read op =>
    have hruns := Policy.read_runs h
    obtain ⟨sent, hsent, hless⟩ := hruns.paused hH policy.attempts_pos
    refine ⟨sent, hsent, fun hfollowed => ?_⟩
    cases o with
    | done r => exact ⟨r, rfl⟩
    | unanswered => exact absurd rfl (hruns.answered (fun h => Timed.within_none_ne_unanswered h) rfl)
    | unfollowed => exact absurd (hless rfl) (Nat.not_lt.mpr hfollowed)
  | submit =>
    obtain ⟨hdone, e, he, -⟩ := Timed.within_recorded hH h
    exact ⟨[e], he, fun _ => hdone⟩
  | direct => exact absurd rfl hmode

/-- **Runs.** A program that makes no direct calls ends if it is followed for the attempts of a read and as many calls
more as pauses are asked for. -/
theorem Program.Bounded.ends {p : Program α} (hp : p.Bounded) (hH : H.Punctual) {o : Outcome α}
    (h : p.run followed policy H.recorded none w = (o, w')) :
    ∃ sent, w'.record = sent ++ w.record ∧
      (policy.attempts + pausesAsked sent ≤ followed → ∃ a, o = .done a) := by
  induction p generalizing w with
  | done a =>
    cases h
    exact ⟨[], rfl, fun _ => ⟨a, rfl⟩⟩
  | note ev next ih => exact ih hp (w := { w with log := ev :: w.log }) h
  | ask mode c next ih =>
    obtain ⟨hmode, hnext⟩ := hp
    cases hcarry : mode.carry followed policy (H.recorded c) none w with
    | mk o₁ w₁ =>
      obtain ⟨first, hfirst, hends⟩ := Mode.carry_paused hH hmode hcarry
      simp only [run, bind, Timed.andThen, hcarry] at h
      cases o₁ with
      | done r =>
        obtain ⟨later, hlater, hdone⟩ := ih r (hnext r) h
        refine ⟨later ++ first, by rw [hlater, hfirst, List.append_assoc], fun hfollowed => hdone ?_⟩
        rw [pausesAsked_append] at hfollowed
        omega
      | unanswered | unfollowed =>
        cases h
        refine ⟨first, hfirst, fun hfollowed => ?_⟩
        obtain ⟨r, hr⟩ := hends hfollowed
        cases hr

end Pauses

namespace Sync.Bitcoin

open HeaderRelay.Bitcoin (Header)
open HeaderRelay.Cycle (View)

variable {τ : Type} {max top height : Nat} {moves : List (Move τ)} {oldestFirst : List Header} {s : τ}

/-! ## What a walk reads -/

/-- The heights at which the contract has told what it holds. -/
def heightsHeld (moves : List (Move τ)) : List Nat :=
  moves.filterMap fun
    | ⟨_, _, .bitcoinClient (.headerHashAt height), .ok _⟩ => some height
    | _ => none

/-- What a walk of at most `max` headers may ask for: a header while it has room for it, and what the contract holds at
the height that the headers read so far lead to. -/
def Allowed (max : Nat) (moves : List (Move τ)) (_ : τ) : Call → Prop
  | .bitcoinNode (.header _) => ∃ top, heightRead? moves = some top ∧ (headersRead moves).length < min max (top + 1)
  | .bitcoinClient (.headerHashAt height) => ∃ top, heightRead? moves = some top ∧
      height + (headersRead moves).length = top ∧ (heightsHeld moves).length ≤ min max top
  | _ => True

/-- What a search of at most `max` headers has read if the node puts its best header at height `top`. -/
structure ReadWithin (max top : Nat) (moves : List (Move τ)) : Prop where
  headers : (headersRead moves).length ≤ min max (top + 1)
  held : (heightsHeld moves).length ≤ min max top + 1
  /-- The contract is asked about the height that the headers read before lead to, which is never below zero. -/
  descends : ∀ before m after height, moves = before ++ m :: after →
    m.call = .bitcoinClient (.headerHashAt height) → height + (headersRead before).length = top

theorem heightRead?_prefix {before after : List (Move τ)} (h : heightRead? before = some top) :
    heightRead? (before ++ after) = some top := by
  rw [heightRead?, List.findSome?_append]
  exact congrArg (Option.or · _) h

theorem readWithin_of_allowed
    (h : ∀ before m after, moves = before ++ m :: after → Allowed max before m.held m.call)
    (htop : heightRead? moves = some top) : ReadWithin max top moves := by
  have hsame {before after : List (Move τ)} {top' : Nat} (heq : moves = before ++ after)
      (h' : heightRead? before = some top') : top' = top := by
    rw [heq, heightRead?_prefix h'] at htop
    exact Option.some.inj htop
  refine ⟨length_filterMap_le_of_fewer fun before m after heq hm => ?_,
    length_filterMap_le_of_fewer fun before m after heq hm => ?_, fun before m after height heq hm => ?_⟩
  · have hallowed := h before m after heq
    split at hm
    · obtain ⟨top', htop', hless⟩ := hallowed
      obtain rfl := hsame heq htop'
      exact hless
    · cases hm
  · have hallowed := h before m after heq
    split at hm
    · obtain ⟨top', htop', -, hle⟩ := hallowed
      obtain rfl := hsame heq htop'
      exact Nat.lt_succ_of_le hle
    · cases hm
  · have hallowed := h before m after heq
    rw [hm] at hallowed
    obtain ⟨top', htop', hheight, -⟩ := hallowed
    obtain rfl := hsame heq htop'
    exact hheight

theorem unread_of_allowed
    (h : ∀ before m after, moves = before ++ m :: after → Allowed max before m.held m.call)
    (hnone : heightRead? moves = none) : headersRead moves = [] ∧ heightsHeld moves = [] := by
  have hunknown : ∀ m ∈ moves, ∃ before, Allowed max before m.held m.call ∧ ∀ top, heightRead? before ≠ some top := by
    intro m hm
    obtain ⟨before, after, heq⟩ := List.append_of_mem hm
    refine ⟨before, h before m after heq, fun top htop => ?_⟩
    rw [heq, heightRead?_prefix htop] at hnone
    cases hnone
  constructor <;> refine List.filterMap_eq_nil_iff.mpr fun m hm => ?_
  all_goals
    obtain ⟨before, hallowed, hbefore⟩ := hunknown m hm
    split
    · obtain ⟨top, htop, -⟩ := hallowed
      exact absurd htop (hbefore top)
    · rfl

/-! ## Walking -/

/-- How a walk stands that turns to a height with these headers collected. -/
structure Halfway (max : Nat) (moves : List (Move τ)) (height : Nat) (oldestFirst : List Header) : Prop
    extends Walked moves height oldestFirst where
  held : (heightsHeld moves).length ≤ oldestFirst.length
  room : oldestFirst.length ≤ max

/-- What is found is not empty, is no longer than it may be, and reaches up to the node's best header. -/
structure Fits (max : Nat) (moves : List (Move τ)) (gap : Gap) : Prop where
  top : heightRead? moves = some (gap.tipHeight + gap.headers.length)
  nonempty : 0 < gap.headers.length
  room : gap.headers.length ≤ max

theorem Halfway.length_headersRead (h : Halfway max moves height oldestFirst) :
    (headersRead moves).length = oldestFirst.length := by
  rw [h.read, List.length_reverse]

theorem halfway_contractAt {ends : Ends} (h : Halfway max moves height oldestFirst) :
    (contractAtView ends height).Ensures .everyone (Allowed max) moves s ()
      (fun _ moves' s' _ => s' = s ∧ Walked moves' height oldestFirst ∧
        (heightsHeld moves').length ≤ oldestFirst.length + 1) fun _ _ _ _ => True := by
  refine View.ensures_ite (fun _ => View.ensures_call.mpr ⟨⟨trivial, ?_⟩, fun (held : Option Hash) _ _ => ?_,
    fun _ _ _ => trivial⟩) fun _ => ⟨rfl, h.toWalked, Nat.le_succ_of_le h.held⟩
  · refine ⟨_, h.top, by rw [h.length_headersRead], ?_⟩
    have hheld := h.held
    have hroom := h.room
    omega
  · refine ⟨rfl, h.toWalked.aside (List.forall_mem_singleton.mpr ⟨rfl, nofun, nofun⟩), ?_⟩
    rw [heightsHeld, List.filterMap_append, List.length_append]
    exact Nat.add_le_add_right h.held 1

/-- A step of a walk ends it with a gap that fits, or reads one more header while there is room for it. -/
theorem fits_walkStep {ends : Ends} {cursor : Hash} {trail : Trail Header}
    {below : ∀ height', height = height' + 1 → (cursor : Hash) → (trail : Trail Header) →
      (walk ends height' cursor trail : Cycle τ (Option Gap)).View}
    (h : Halfway ends.maxWalkBack moves height trail.oldestFirst)
    (hfirst : trail.size = 0 → cursor ≠ ends.contractBest)
    (hbelow : ∀ height' heq (header : Header) moves,
      Halfway ends.maxWalkBack moves height' (trail.push header).oldestFirst →
      (below height' heq header.prevHash (trail.push header)).Ensures .everyone (Allowed ends.maxWalkBack) moves s ()
        (fun found moves' _ _ => ∀ gap, found = some gap → Fits ends.maxWalkBack moves' gap) fun _ _ _ _ => True) :
    (walkStepView ends height cursor trail below).Ensures .everyone (Allowed ends.maxWalkBack) moves s ()
      (fun found moves' _ _ => ∀ gap, found = some gap → Fits ends.maxWalkBack moves' gap) fun _ _ _ _ => True := by
  refine View.ensures_ofEq.mpr (View.ensures_bind.mpr ((halfway_contractAt h).mono ?_ fun _ _ _ _ h => h))
  rintro held moves' _ ⟨⟩ ⟨rfl, hwalked, hheld⟩
  cases hend : walkEnd cursor height trail.size ends.contractBest ends.contractHeight held with
  | some stop =>
    have hstart := stop_eq_alreadyHeld_iff hfirst hend
    cases stop with
    | alreadyHeld => exact nofun
    | linearExtension | forkConvergence =>
      rintro gap ⟨⟩
      exact ⟨hwalked.top, Nat.pos_of_ne_zero (mt hstart.mpr nofun), h.room⟩
  | none =>
    refine View.ensures_ite (fun _ => trivial) fun hmax => ?_
    have hroom : trail.oldestFirst.length < ends.maxWalkBack := Nat.not_le.mp hmax
    refine View.ensures_bind.mpr (View.ensures_call.mpr ⟨⟨trivial, _, hwalked.top, ?_⟩,
      fun (header : Header) _ _ => ?_, fun _ _ _ => trivial⟩)
    · rw [hwalked.read, List.length_reverse]
      omega
    · cases height with
      | zero => exact trivial
      | succ height' =>
        refine hbelow height' rfl header _ ⟨hwalked.read_header header, ?_, hroom⟩
        rw [heightsHeld, List.filterMap_append, List.length_append]
        exact hheld

/-- A walk finds a gap that fits. The induction is on the height, which is one less after each header. -/
theorem fits_walk {ends : Ends} {cursor : Hash} {trail : Trail Header}
    (h : Halfway ends.maxWalkBack moves height trail.oldestFirst)
    (hfirst : trail.size = 0 → cursor ≠ ends.contractBest) :
    (walkView ends height cursor trail).Ensures .everyone (Allowed ends.maxWalkBack) moves s ()
      (fun found moves' _ _ => ∀ gap, found = some gap → Fits ends.maxWalkBack moves' gap) fun _ _ _ _ => True := by
  induction height generalizing cursor trail moves with
  | zero => exact fits_walkStep h hfirst nofun
  | succ height ih =>
    refine fits_walkStep h hfirst fun height' heq header moves h' => ?_
    cases heq
    exact ih h' nofun

/-- A search reads what it is allowed to read, and what it finds fits. -/
theorem fits_findGap {config : Config} :
    (findGapView config).Ensures .everyone (Allowed config.maxWalkBack) [] s ()
      (fun found moves' _ _ => ∀ gap, found = some gap → Fits config.maxWalkBack moves' gap) fun _ _ _ _ => True := by
  refine View.ensures_bind.mpr (View.ensures_call.mpr ⟨⟨trivial, trivial⟩, fun (contractBest : Hash) _ _ => ?_,
    fun _ _ _ => trivial⟩)
  refine View.ensures_bind.mpr (View.ensures_call.mpr ⟨⟨trivial, trivial⟩, fun (contractHeight : Nat) _ _ => ?_,
    fun _ _ _ => trivial⟩)
  refine View.ensures_bind.mpr (View.ensures_call.mpr ⟨⟨trivial, trivial⟩, fun (chainBest : Hash) _ _ => ?_,
    fun _ _ _ => trivial⟩)
  refine View.ensures_ite (fun _ => nofun) fun hne => ?_
  refine View.ensures_bind.mpr (View.ensures_call.mpr ⟨⟨trivial, trivial⟩, fun (chainHeight : Nat) _ _ => ?_,
    fun _ _ _ => trivial⟩)
  exact fits_walk ⟨⟨rfl, rfl, rfl⟩, Nat.zero_le _, Nat.zero_le _⟩ fun _ => hne

/-! ## Searches in time -/

theorem bounded_walkStep {ends : Ends} {cursor : Hash} {trail : Trail Header}
    (hbelow : ∀ height', height = height' + 1 → ∀ header : Header,
      (walk ends height' header.prevHash (trail.push header) : Cycle τ (Option Gap)).Bounded) :
    (walk ends height cursor trail : Cycle τ (Option Gap)).Bounded := by
  have hheld : (contractAt ends height : Cycle τ (Option Hash)).Bounded :=
    .ite Cycle.bounded_read (Cycle.bounded_pure _)
  unfold walk
  refine hheld.bind fun held => ?_
  split
  · exact .bind (Cycle.bounded_log _) fun _ => Cycle.bounded_pure _
  · exact .bind (Cycle.bounded_log _) fun _ => Cycle.bounded_pure _
  · refine .ite (fun _ => trivial) (.bind Cycle.bounded_read fun header => ?_)
    cases height with
    | zero => exact Cycle.bounded_throw _
    | succ height' => exact hbelow height' rfl header

theorem bounded_walk {ends : Ends} {cursor : Hash} {trail : Trail Header} :
    (walk ends height cursor trail : Cycle τ (Option Gap)).Bounded := by
  induction height generalizing cursor trail with
  | zero => exact bounded_walkStep nofun
  | succ height ih =>
    refine bounded_walkStep fun height' heq header => ?_
    cases heq
    exact ih

theorem bounded_findGap {config : Config} : (findGap config : Cycle τ (Option Gap)).Bounded :=
  .bind Cycle.bounded_read fun _ => .bind Cycle.bounded_read fun _ => .bind Cycle.bounded_read fun _ =>
    .ite (Cycle.bounded_pure _) (.bind Cycle.bounded_read fun _ => bounded_walk)

/-- **The walk is bounded.** Whatever the node and the contract answer, a search reads a header for each height at most,
down from the one at which the node puts its best header, and no more headers than it may collect; the contract tells
what it holds at one height more, at most, each of them a height that the headers read before lead to. What is found is
not empty, is no longer than it may be, and reaches up to the node's best header. The search ends unless it is put off
by requests for pauses without end: it is over if it is followed far enough beyond those that were made. -/
theorem walk_back_bounded {ρ : Type} {H : Handler ρ} {followed : Nat} {policy : Policy} {config : Config}
    {w w' : World (ρ × List (Exchange ρ))} {o : Outcome (Relayed (Option Gap) × τ)}
    (h : ((findGap config : Cycle τ (Option Gap)).start s).run followed policy H.recorded none w = (o, w')) :
    ∃ moves exchanges, w'.record = exchanges ++ w.record ∧
      ((findGapView config).begun s).Went H policy.timeout moves exchanges o ∧
      (heightRead? moves = none → headersRead moves = [] ∧ heightsHeld moves = []) ∧
      (∀ top, heightRead? moves = some top → ReadWithin config.maxWalkBack top moves) ∧
      (∀ gap s', o = .done (.ok (some gap), s') → Fits config.maxWalkBack moves gap) ∧
      (H.Punctual → policy.attempts + pausesAsked exchanges ≤ followed → ∃ r, o = .done r) := by
  have hrun := h
  rw [← (findGapView config).program_begun] at hrun
  obtain ⟨moves, exchanges, hexchanges, hwent⟩ := InProgress.run_went hrun
  obtain ⟨t', hreaches⟩ := hwent.reaches
  have hallowed : ∀ before m after, moves = before ++ m :: after →
      Allowed config.maxWalkBack before m.held m.call := by
    rintro before m after rfl
    exact fits_findGap.asked hreaches
  refine ⟨moves, exchanges, hexchanges, hwent, unread_of_allowed hallowed, fun top => readWithin_of_allowed hallowed,
    fun gap s' ho => ?_, fun hH hfollowed => ?_⟩
  · subst ho
    cases hwent with
    | ended hend => exact fits_findGap.of_reaches hend gap rfl
    | stopped _ _ _ hnone => exact absurd rfl (hnone _)
  · obtain ⟨sent, hsent, hends⟩ := (bounded_findGap s).ends hH h
    obtain rfl : sent = exchanges := List.append_cancel_right (hsent.symm.trans hexchanges)
    exact hends hfollowed

def cyclicHeader (hash : Hash) : Header :=
  ⟨hash, if hash = .replicate 5 then .replicate 4 else .replicate 5, .zero, []⟩

/-- A node with two headers in a cycle, and a contract that holds one of them at height 0. -/
def cyclicPeers : (c : Call) → Option (Relayed c.Answer)
  | .bitcoinNode .bestBlockHash => some (.ok (.replicate 5))
  | .bitcoinNode (.headerHeight _) => some (.ok (2 : Nat))
  | .bitcoinNode (.header hash) => some (.ok (cyclicHeader hash))
  | .bitcoinClient .bestHeaderHash => some (.ok (.replicate 9))
  | .bitcoinClient .bestHeight => some (.ok (2 : Nat))
  | .bitcoinClient (.headerHashAt height) => some (.ok (if height = 0 then some (.replicate 5) else none))
  | _ => none

/-- The walk goes around the cycle once, down to height 0, with the two headers that it may collect. -/
theorem cyclic_links_bounded :
    ∃ moves w', ((findGap ⟨10, 2, ⟨0⟩, none⟩ : Cycle Unit (Option Gap)).start ()).run 1 ⟨1000, 1, 10⟩
        (Handler.scripted cyclicPeers).recorded none (World.start ((), [])) =
          (.done (.ok (some ⟨0, [cyclicHeader (.replicate 4), cyclicHeader (.replicate 5)]⟩), ()), w') ∧
      ((findGapView ⟨10, 2, ⟨0⟩, none⟩).begun ()).Went (Handler.scripted cyclicPeers) 1000 moves w'.record
        (.done (.ok (some ⟨0, [cyclicHeader (.replicate 4), cyclicHeader (.replicate 5)]⟩), ())) ∧
      ReadWithin 2 2 moves := by
  have hfound : (((findGap ⟨10, 2, ⟨0⟩, none⟩ : Cycle Unit (Option Gap)).start ()).run 1 ⟨1000, 1, 10⟩
      (Handler.scripted cyclicPeers).recorded none (World.start ((), []))).1.success? =
        some (some ⟨0, [cyclicHeader (.replicate 4), cyclicHeader (.replicate 5)]⟩, ()) := by decide +kernel
  obtain ⟨w', hrun⟩ := Outcome.exists_of_success? hfound
  obtain ⟨moves, exchanges, hexchanges, hwent, -, hwithin, hfits, -⟩ := walk_back_bounded hrun
  obtain rfl : w'.record = exchanges := hexchanges.trans (List.append_nil exchanges)
  exact ⟨moves, w', hrun, hwent, hwithin 2 (hfits _ _ rfl).top⟩

theorem loop_of_limited {σ : Type} {op : String} {limit fuel failures seconds : Nat} {delay : Nat → Nat}
    {call : Timed σ (Relayed α)} (hcall : ∀ w, call none w = (.done (.error (.rateLimited seconds)), w)) (w : World σ) :
    ∃ w', Retry.loop op limit delay call fuel failures none w = (.unfollowed, w') := by
  induction fuel generalizing w with
  | zero => exact ⟨w, rfl⟩
  | succ fuel ih =>
    obtain ⟨w', hw'⟩ := ih (w.paused (Retry.pausing op seconds) (w.now + sleepTime (seconds * 1000)))
    refine ⟨w', ?_⟩
    simp only [Retry.loop, bind, Timed.andThen, hcall]
    exact hw'

/-- A contract that asks for a pause of one second whenever it is asked for its best header. -/
def pausingContract : (c : Call) → Option (Relayed c.Answer)
  | .bitcoinClient .bestHeaderHash => some (.error (.rateLimited 1))
  | _ => none

/-- It keeps a search from its end, however long that is followed. -/
theorem endless_pauses_unfollowed :
    (Handler.scripted pausingContract).Punctual ∧
    ∀ followed, ∃ w', ((findGap ⟨10, 2, ⟨0⟩, none⟩ : Cycle Unit (Option Gap)).start ()).run followed ⟨1000, 3, 10⟩
      (Handler.scripted pausingContract) none (World.start ()) = (.unfollowed, w') := by
  refine ⟨Handler.punctual_scripted, fun followed => ?_⟩
  have hcall (w : World Unit) : Timed.within 1000 (Handler.scripted pausingContract (.bitcoinClient .bestHeaderHash))
      none w = (.done (.error (.rateLimited 1)), w) := rfl
  have hread : ∃ w', (Mode.read "btc_lc.best_header_hash").carry followed ⟨1000, 3, 10⟩
      (Handler.scripted pausingContract (.bitcoinClient .bestHeaderHash)) none (World.start ()) = (.unfollowed, w') :=
    loop_of_limited hcall _
  obtain ⟨w', hread⟩ := hread
  refine ⟨w', ?_⟩
  change Timed.andThen _ _ none _ = _
  simp only [Timed.andThen, hread]

end Sync.Bitcoin

end HeaderRelay
