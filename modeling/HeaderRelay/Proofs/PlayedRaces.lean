import HeaderRelay.Proofs.FaultyPeers
import HeaderRelay.Proofs.Races
import Mathlib.Data.List.Induction

/-!
# Races played out

A schedule and peers that answer each call in one way make a race that can be computed (`Race.play`), and if those
answers are among the ones that the peers may give, a race that is reached (`Race.reached_play`). So do the cycle of
one engine (`Program.play`) and its way to some call (`InProgress.playUntil`). Simulated peers of
the consensus engines answer so (`ConsensusPeers.respond`).
-/
namespace HeaderRelay

open Peer (Call Conduct)

variable {ι ε σ α : Type} [DecidableEq ι]

namespace Race

def turn (hears : Log.Event → ε → ε) (respond : (c : Call) → ε → Relayed c.Answer × ε)
    (begun : ι → σ → InProgress σ α) (race : Race ι ε σ α) (i : ι) : Race ι ε σ α :=
  match race.runners i with
  | ⟨_, _, .ended _ s⟩ => ⟨race.peers, Function.update race.runners i ⟨s, [], begun i s⟩⟩
  | ⟨began, made, .note ev next⟩ => ⟨hears ev race.peers, Function.update race.runners i ⟨began, made, next⟩⟩
  | ⟨began, made, .ask s mode c next⟩ =>
    let (r, e') := respond c race.peers
    ⟨e', Function.update race.runners i ⟨began, made ++ [(race.peers, ⟨s, mode, c, r⟩)], next r⟩⟩

/-- The race in which the engines take turns as the schedule says. -/
def play (hears : Log.Event → ε → ε) (respond : (c : Call) → ε → Relayed c.Answer × ε)
    (begun : ι → σ → InProgress σ α) (e : ε) (s : ι → σ) (schedule : List ι) : Race ι ε σ α :=
  schedule.foldl (turn hears respond begun) (start begun e s)

variable {C : Conduct ε} {respond : (c : Call) → ε → Relayed c.Answer × ε} {begun : ι → σ → InProgress σ α} {e : ε}
  {s : ι → σ} {race : Race ι ε σ α}

theorem step_turn (h : ∀ c e, C.answers c e (respond c e).1 (respond c e).2) (i : ι) :
    Step C begun race (turn C.hears respond begun race i) := by
  unfold turn
  split
  · rename_i hi
    exact .turn i (hi ▸ .again)
  · rename_i hi
    exact .turn i (hi ▸ .note)
  · rename_i c _ hi
    exact .turn i (hi ▸ .call (h c race.peers))

theorem step_play (h : ∀ c e, C.answers c e (respond c e).1 (respond c e).2) (schedule : List ι) (i : ι) :
    Step C begun (play C.hears respond begun e s schedule) (play C.hears respond begun e s (schedule ++ [i])) := by
  unfold play
  rw [List.foldl_append]
  exact step_turn h i

theorem reached_play (h : ∀ c e, C.answers c e (respond c e).1 (respond c e).2) (schedule : List ι) :
    Reached C begun e s (play C.hears respond begun e s schedule) := by
  induction schedule using List.reverseRecOn with
  | nil => exact .start
  | append_singleton schedule i ih => exact ih.step (step_play h schedule i)

end Race

/-- The run of a program whose calls are answered by `respond`. -/
def Program.play (hears : Log.Event → ε → ε) (respond : (c : Call) → ε → Relayed c.Answer × ε) :
    Program α → ε → α × ε
  | .done a, e => (a, e)
  | .note ev next, e => next.play hears respond (hears ev e)
  | .ask _ c next, e => (next (respond c e).1).play hears respond (respond c e).2

theorem Program.runs_play {C : Conduct ε} {respond : (c : Call) → ε → Relayed c.Answer × ε}
    (h : ∀ c e, C.answers c e (respond c e).1 (respond c e).2) (p : Program α) (e : ε) :
    p.Runs C e (p.play C.hears respond e).1 (p.play C.hears respond e).2 := by
  induction p generalizing e with
  | done a => exact .done a e
  | note ev next ih => exact .note (ih _)
  | ask mode c next ih => exact .ask (h c e) (ih _ _)

namespace InProgress

/-- The run of a cycle whose calls are answered by `respond`, up to the first call that `stop` tells: the moves, what is
left, and the peers. -/
def playUntil (hears : Log.Event → ε → ε) (respond : (c : Call) → ε → Relayed c.Answer × ε) (stop : Call → Bool) :
    InProgress σ α → ε → List (Move σ) × InProgress σ α × ε
  | .ended r s, e => ([], .ended r s, e)
  | .note ev next, e => next.playUntil hears respond stop (hears ev e)
  | .ask s mode c next, e =>
    if stop c then ([], .ask s mode c next, e)
    else
      let (r, e') := respond c e
      let (moves, left) := (next r).playUntil hears respond stop e'
      (⟨s, mode, c, r⟩ :: moves, left)

theorem reaches_playUntil {C : Conduct ε} {respond : (c : Call) → ε → Relayed c.Answer × ε}
    (h : ∀ c e, C.answers c e (respond c e).1 (respond c e).2) (stop : Call → Bool) (t : InProgress σ α) (e : ε) :
    t.Reaches C e (t.playUntil C.hears respond stop e).1 (t.playUntil C.hears respond stop e).2.1
      (t.playUntil C.hears respond stop e).2.2 := by
  induction t generalizing e with
  | ended r s => exact .here
  | note ev next ih => exact .note (ih _)
  | ask s mode c next ih =>
    unfold playUntil
    split
    · exact .here
    · exact .ask (h c e) (ih _ _)

end InProgress

/-! ## Simulated peers -/

namespace Sync

open Consensus (Header)

def ConsensusPeers.respond (node : Sim.ConsensusNode) : (c : Call) → ConsensusPeers → Relayed c.Answer × ConsensusPeers
  | .consensusNode c, e => (((node.serve c).1.getD (.error (.network "no answer"))), e)
  | .consensusClient (.verifyLightBlocks prev blocks), e => ((e.client.verify prev blocks).1, e)
  | .consensusClient c, e => ((e.client.serve c).1, { e with client := (e.client.serve c).2 })
  | .relayStore c, e => ((e.store.serve c).1, { e with store := (e.store.serve c).2 })
  | _, e => (.error (.network "not reached"), e)

def nodeUpTo (chain : Nat → Header) (top : Nat) : Sim.ConsensusNode :=
  ⟨(List.range' 1 top).map chain, [], top, [], false⟩

theorem serves_nodeUpTo (chain : Nat → Header) {top : Nat} (htop : 1 ≤ top) : Serves chain 1 top (nodeUpTo chain top) :=
  ⟨rfl, rfl, by rw [Nat.add_sub_cancel]; rfl, htop⟩

theorem answers_respond {chain : Nat → Header} {low top : Nat} {tops : Nat → Prop} {node : Sim.ConsensusNode}
    (hheight : ∀ h, (chain h).height = h) (hn : Serves chain low top node) (htop : tops top) (c : Call)
    (e : ConsensusPeers) :
    ((consensusPeers chain (fun h => low ≤ h ∧ h ≤ top) tops).failing True).answers c e
      (ConsensusPeers.respond node c e).1 (ConsensusPeers.respond node c e).2 := by
  have hfails : ∀ {c : Call} {r : Relayed c.Answer}, (∃ x, r = .error x) →
      ((consensusPeers chain (fun h => low ≤ h ∧ h ≤ top) tops).failing True).answers c e r e :=
    fun hr => .inr ⟨trivial, hr, .inl rfl⟩
  cases c with
  | consensusNode c =>
    obtain ⟨r, n', hserve, -, hans, -⟩ := hn.serve hheight c
    have hr : (ConsensusPeers.respond node (.consensusNode c) e).1 = r := by
      simp only [ConsensusPeers.respond, hserve]
      rfl
    rw [hr]
    refine .inl ⟨?_, rfl⟩
    cases c with
    | latestHeight =>
      cases r with
      | ok latest =>
        obtain rfl : latest = top := hans
        exact htop
      | error x => exact hans
    | _ => exact hans
  | consensusClient c =>
    cases c with
    | verifyLightBlocks prev blocks => exact .inl ⟨e.client, ⟨rfl, (served_verify e.client prev blocks).2⟩, rfl⟩
    | _ => exact .inl ⟨_, rfl, rfl⟩
  | relayStore c => exact .inl ⟨_, rfl, rfl⟩
  | bitcoinNode c => exact hfails ⟨_, rfl⟩
  | bitcoinClient c => exact hfails ⟨_, rfl⟩
  | messages c => exact hfails ⟨_, rfl⟩

/-- They do so, too, as peers of whom it is not known what they know. -/
theorem answers_respond_unreliable {chain : Nat → Header} {low top : Nat} {node : Sim.ConsensusNode}
    (hheight : ∀ h, (chain h).height = h) (hn : Serves chain low top node) (c : Call) (e : ConsensusPeers) :
    (unreliablePeers chain).answers c e (ConsensusPeers.respond node c e).1 (ConsensusPeers.respond node c e).2 := by
  obtain h | ⟨-, hr, h⟩ := answers_respond hheight hn (Eq.refl top) c e
  · exact answers_unreliablePeers h
  · exact .inr ⟨trivial, hr, h.elim .inl fun ⟨_, h⟩ => Conduct.reached_of_failing (answers_unreliablePeers h)⟩

end Sync

end HeaderRelay
