import HeaderRelay.Proofs.Conduct
import HeaderRelay.Sim.Network

/-!
# Runs without faults

The simulated network with no fault waiting answers a call at once, so a read is made once, no deadline
is met and the clock stands still: a program run under a policy is then one of its runs against the
peers that the network stands for. `Embodies C R` says that networks related by `R` to a state of the
peers serve each call as the conduct `C` allows, and `Embodies.run` carries `Program.Ensures` over to
`Program.run`, for every policy.
-/
namespace HeaderRelay

open Peer (Call Conduct)

variable {ε α σ : Type}

/-! ## Computations that do not wait -/

namespace Timed

variable {β : Type} {x : Timed σ α} {f : α → Timed σ β} {deadline : Option Nat} {w w' : World σ} {a : α}

theorem bind_of_done (h : x deadline w = (.done a, w')) : (x >>= f) deadline w = f a deadline w' := by
  simp only [bind, andThen, h]

theorem sleep_zero (hd : ∀ d, deadline = some d → w.now ≤ d) : sleep 0 deadline w = (.done (), w) := by
  cases deadline with
  | none => rfl
  | some d =>
    have hle : w.now + sleepTime 0 ≤ d := hd d rfl
    simp only [sleep, if_pos hle]
    rfl

end Timed

/-! ## Runs, one part after the other -/

section Runs

variable {β τ : Type} {followed : Nat} {policy : Policy} {H : Peer.Handler τ} {deadline : Option Nat} {w w' w₁ : World τ}

theorem Program.run_andThen (p : Program α) (f : α → Program β) :
    (p.andThen f).run followed policy H = p.run followed policy H >>= fun a => (f a).run followed policy H := by
  induction p with
  | done a => rfl
  | note ev next ih =>
    funext deadline w
    exact congrFun (congrFun ih deadline) { w with log := ev :: w.log }
  | ask mode c next ih =>
    funext deadline w
    simp only [andThen, run, ih, bind, Timed.andThen]
    cases mode.carry followed policy (H c) deadline w with
    | mk o w₁ => cases o <;> rfl

theorem Program.run_andThen_of_done {p : Program α} {a : α} (f : α → Program β)
    (h : p.run followed policy H deadline w = (.done a, w₁)) :
    (p.andThen f).run followed policy H deadline w = (f a).run followed policy H deadline w₁ := by
  rw [run_andThen]
  exact Timed.bind_of_done h

/-- A run of two programs one after the other is a run of the first and then one of the second, or it stops where the
first does. -/
theorem Program.run_andThen_cases {p : Program α} {f : α → Program β} {o : Outcome β}
    (h : (p.andThen f).run followed policy H deadline w = (o, w')) :
    (∃ a w₁, p.run followed policy H deadline w = (.done a, w₁) ∧
        (f a).run followed policy H deadline w₁ = (o, w')) ∨
      ∃ o₁, p.run followed policy H deadline w = (o₁, w') ∧ (∀ a, o₁ ≠ .done a) ∧ ∀ b, o ≠ .done b := by
  rw [run_andThen] at h
  simp only [bind, Timed.andThen] at h
  cases hp : p.run followed policy H deadline w with
  | mk o₁ w₁ =>
    rw [hp] at h
    cases o₁ with
    | done a => exact .inl ⟨a, w₁, rfl, h⟩
    | unanswered | unfollowed =>
      cases h
      exact .inr ⟨_, rfl, nofun, nofun⟩

/-- How a cycle goes on after its first part. -/
def Cycle.goOn (f : β → Cycle σ α) : Relayed β × σ → Program (Relayed α × σ)
  | (.ok b, s) => (f b).start s
  | (.error e, s) => .done (.error e, s)

theorem Cycle.start_bind (x : Cycle σ β) (f : β → Cycle σ α) (s : σ) :
    (x >>= f).start s = (x.start s).andThen (goOn f) := by
  refine congrArg (Program.andThen _) (funext ?_)
  rintro ⟨_ | _, _⟩ <;> rfl

theorem Cycle.run_bind_of_ok {x : Cycle σ β} {b : β} {s s₁ : σ} (f : β → Cycle σ α)
    (h : (x.start s).run followed policy H deadline w = (.done (.ok b, s₁), w₁)) :
    ((x >>= f).start s).run followed policy H deadline w =
      ((f b).start s₁).run followed policy H deadline w₁ :=
  Program.run_andThen_of_done _ h

theorem Cycle.run_bind_cases {x : Cycle σ β} {f : β → Cycle σ α} {s : σ} {o : Outcome (Relayed α × σ)}
    (h : ((x >>= f).start s).run followed policy H deadline w = (o, w')) :
    (∃ b s₁ w₁, (x.start s).run followed policy H deadline w = (.done (.ok b, s₁), w₁) ∧
        ((f b).start s₁).run followed policy H deadline w₁ = (o, w')) ∨
      (∃ e s₁, (x.start s).run followed policy H deadline w = (.done (.error e, s₁), w') ∧
        o = .done (.error e, s₁)) ∨
      ∃ o₁, (x.start s).run followed policy H deadline w = (o₁, w') ∧ (∀ a, o₁ ≠ .done a) ∧ ∀ a, o ≠ .done a := by
  obtain ⟨⟨e | b, s₁⟩, w₁, hx, hrest⟩ | hstopped := Program.run_andThen_cases h
  · cases hrest
    exact .inr (.inl ⟨e, s₁, hx, rfl⟩)
  · exact .inl ⟨b, s₁, w₁, hx, hrest⟩
  · exact .inr (.inr hstopped)

end Runs

/-! ## Quiet networks -/

namespace Sim.Network

def Quiet (n : Network) : Prop := n.faults = []

def noted (now : Nat) (c : Call) (n : Network) : Network := { n with calls := (now, c) :: n.calls }

theorem handler_eq {w : World Network} {c : Call} {r : Relayed c.Answer} {n' : Network}
    {deadline : Option Nat}
    (hq : w.peers.Quiet) (hs : (w.peers.noted w.now c).serve c = (some r, n'))
    (hd : ∀ d, deadline = some d → w.now ≤ d) :
    handler c deadline w = (.done r, { w with peers := n' }) := by
  have hbegin : Timed.onPeers (begin w.now c) deadline w =
      (.done .none, { w with peers := w.peers.noted w.now c }) := by
    unfold Quiet at hq
    simp [Timed.onPeers, begin, hq, noted]
  have hreply : reply c deadline { w with peers := w.peers.noted w.now c } =
      (.done r, { w with peers := n' }) := by
    have hserve : Timed.onPeers (fun n : Network => n.serve c) deadline
        { w with peers := w.peers.noted w.now c } = (.done (some r), { w with peers := n' }) := by
      simp [Timed.onPeers, hs]
    unfold reply
    rw [Timed.bind_of_done hserve]
    rfl
  unfold handler
  rw [Timed.bind_of_done (x := Timed.now) rfl, Timed.bind_of_done hbegin]
  show (Timed.sleep 0 >>= fun _ => reply c) deadline _ = _
  rw [Timed.bind_of_done (Timed.sleep_zero (w := { w with peers := w.peers.noted w.now c }) hd)]
  exact hreply

end Sim.Network

/-- Outcomes that no read is tried again after. -/
def Relayed.Final (r : Relayed α) : Prop := ∀ x, r = .error x → x.isTransient = false

theorem Relayed.final_ok (a : α) : Relayed.Final (.ok a) := by
  intro x hx
  cases hx

theorem Relayed.final_error {x : RelayError} (h : x.isTransient = false) : Relayed.Final (.error x : Relayed α) := by
  intro y hy
  cases hy
  exact h

/-- A call that is answered at once and for good is made once, whatever the policy. -/
theorem Mode.carry_eq {mode : Mode} {followed : Nat} {policy : Policy} {call : Timed σ (Relayed α)}
    {w w' : World σ} {r : Relayed α} (hf : 0 < followed) (hr : r.Final)
    (hc : ∀ deadline, (∀ d, deadline = some d → w.now ≤ d) → call deadline w = (.done r, w')) :
    mode.carry followed policy call none w = (.done r, w') := by
  have hwithin : Timed.within policy.timeout call none w = (.done r, w') := by
    have := hc (some (w.now + policy.timeout)) (by rintro d ⟨⟩; omega)
    simp [Timed.within, this]
  cases mode with
  | direct => exact hc none (by simp)
  | submit => exact hwithin
  | read op =>
    obtain ⟨k, rfl⟩ : ∃ k, followed = k + 1 := ⟨followed - 1, by omega⟩
    simp only [Mode.carry, Policy.read, retry, Retry.loop, bind, Timed.andThen, hwithin]
    cases r with
    | ok a => rfl
    | error x =>
      have hx := hr x rfl
      cases x <;> first | rfl | simp [RelayError.isTransient, RelayError.kind] at hx

/-! ## Networks that stand for peers -/

/-- Networks that `R` relates to a state of the peers answer each call at once, for good, and as the
conduct `C` allows. -/
structure Peer.Conduct.Embodies (C : Conduct ε) (R : Sim.Network → ε → Prop) : Prop where
  quiet : ∀ {n e}, R n e → n.Quiet
  noted : ∀ {n e} now c, R n e → R (n.noted now c) e
  hears : ∀ {n e ev}, R n e → R n (C.hears ev e)
  serves : ∀ {n e mode c}, R n e → C.attends mode c →
    ∃ r n' e', n.serve c = (some r, n') ∧ r.Final ∧ C.answers c e r e' ∧ R n' e'

/-- A program that is sure to end in `Q` does so on the simulated network, at the time at which it
started. -/
theorem Peer.Conduct.Embodies.run {C : Conduct ε} {R : Sim.Network → ε → Prop} (hC : C.Embodies R)
    {followed : Nat} (hf : 0 < followed) (policy : Policy) {p : Program α} {e : ε} {Q : α → ε → Prop}
    (h : p.Ensures C e Q) {w : World Sim.Network} (hw : R w.peers e) :
    ∃ a e' w', p.run followed policy Sim.Network.handler none w = (.done a, w') ∧ Q a e' ∧
      R w'.peers e' ∧ w'.now = w.now := by
  induction p generalizing e w with
  | done a => exact ⟨a, e, w, rfl, h, hw, rfl⟩
  | note ev next ih => exact ih h (w := { w with log := ev :: w.log }) (hC.hears hw)
  | ask mode c next ih =>
    obtain ⟨r, n', e₁, hs, hr, hans, hR⟩ := hC.serves (hC.noted w.now c hw) h.1
    obtain ⟨a, e', w', hrun, hQ, hR', hnow⟩ := ih r (h.2 r e₁ hans) (w := { w with peers := n' }) hR
    refine ⟨a, e', w', ?_, hQ, hR', hnow⟩
    have hcarry : mode.carry followed policy (Sim.Network.handler c) none w =
        (.done r, { w with peers := n' }) :=
      Mode.carry_eq hf hr fun _ hd => Sim.Network.handler_eq (hC.quiet hw) hs hd
    simp only [Program.run, bind, Timed.andThen, hcarry]
    exact hrun

def Sim.Network.cycle (followed : Nat) (policy : Policy) (x : Cycle σ α) (s : σ) (w : World Sim.Network) :
    Outcome (Relayed α × σ) × World Sim.Network :=
  (x.start s).run followed policy Sim.Network.handler none w

def Outcome.success? : Outcome (Relayed α × σ) → Option (α × σ)
  | .done (.ok a, s) => some (a, s)
  | _ => none

theorem Outcome.success?_eq_some {o : Outcome (Relayed α × σ)} {a : α} {s : σ} :
    o.success? = some (a, s) ↔ o = .done (.ok a, s) := by
  constructor
  · intro h
    match o, h with
    | .done (.ok _, _), rfl => rfl
  · rintro rfl
    rfl

theorem Outcome.exists_of_success? {ω : Type} {p : Outcome (Relayed α × σ) × ω} {a : α} {s : σ}
    (h : p.1.success? = some (a, s)) : ∃ w, p = (.done (.ok a, s), w) :=
  ⟨p.2, Prod.ext (success?_eq_some.mp h) rfl⟩

/-- A cycle that is sure to end in `ok` or in `err` does so on the simulated network. -/
theorem Peer.Conduct.Embodies.cycle {C : Conduct ε} {R : Sim.Network → ε → Prop} (hC : C.Embodies R)
    {followed : Nat} (hf : 0 < followed) (policy : Policy) {x : Cycle σ α} {s : σ} {e : ε}
    {ok : α → σ → ε → Prop} {err : RelayError → σ → ε → Prop} (h : x.Ensures C s e ok err)
    {w : World Sim.Network} (hw : R w.peers e) :
    ∃ r s' e' w', Sim.Network.cycle followed policy x s w = (.done (r, s'), w') ∧
      Cycle.ends ok err (r, s') e' ∧ R w'.peers e' ∧ w'.now = w.now := by
  obtain ⟨⟨r, s'⟩, e', w', hrun, hend, hR, hnow⟩ := hC.run hf policy h hw
  exact ⟨r, s', e', w', hrun, hend, hR, hnow⟩

end HeaderRelay
