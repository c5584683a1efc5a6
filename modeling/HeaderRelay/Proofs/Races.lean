import HeaderRelay.Proofs.Progress
import Mathlib.Logic.Function.Basic

/-!
# Engines that race

Any number of engines at work against the same peers, in any order and one call at a time (`Race`): between two calls
of one engine the others may make as many as they like, and an engine whose cycle has ended begins the next one
whenever it likes.

What holds of every race is shown for one engine at a time (`Keeps`). Each engine relies on the peers to answer
as they may in any state that all engines keep to (`Conduct.shared`), for it cannot know what the others have done
since its last call; and in such a state every call that an engine makes leaves such a state. Then all engines are
always on a path of their own cycles, and the peers in such a state (`Race.Reached.sound`).
-/
namespace HeaderRelay

open Peer (Call Conduct)

variable {ι ε σ α : Type}

/-! ## Races -/

/-- An engine in a cycle. -/
structure Runner (ε σ α : Type) where
  /-- What it remembered when the cycle began. -/
  began : σ
  /-- The calls that it has made in this cycle, each with the peers as it found them. -/
  made : List (ε × Move σ)
  /-- What is left of the cycle. -/
  rest : InProgress σ α

def Runner.moves (r : Runner ε σ α) : List (Move σ) := r.made.map Prod.snd

/-- What an engine can do next, and what becomes of the peers. -/
inductive Runner.Step (C : Conduct ε) (begun : σ → InProgress σ α) :
    Runner ε σ α → ε → Runner ε σ α → ε → Prop where
  | again {began s : σ} {made : List (ε × Move σ)} {r : Relayed α} {e : ε} :
    Step C begun ⟨began, made, .ended r s⟩ e ⟨s, [], begun s⟩ e
  | note {began : σ} {made : List (ε × Move σ)} {ev : Log.Event} {next : InProgress σ α} {e : ε} :
    Step C begun ⟨began, made, .note ev next⟩ e ⟨began, made, next⟩ (C.hears ev e)
  | call {began s : σ} {made : List (ε × Move σ)} {mode : Mode} {c : Call} {next : Relayed c.Answer → InProgress σ α}
    {r : Relayed c.Answer} {e e' : ε} :
    C.answers c e r e' →
    Step C begun ⟨began, made, .ask s mode c next⟩ e ⟨began, made ++ [(e, ⟨s, mode, c, r⟩)], next r⟩ e'

theorem Runner.Step.peers {C : Conduct ε} {begun : σ → InProgress σ α} {runner runner' : Runner ε σ α} {e e' : ε}
    (h : runner.Step C begun e runner' e') :
    e' = e ∨ (∃ ev, e' = C.hears ev e) ∨
      ∃ s mode c next r, runner.rest = .ask s mode c next ∧ C.answers c e r e' := by
  cases h with
  | again => exact .inl rfl
  | note => exact .inr (.inl ⟨_, rfl⟩)
  | call hans => exact .inr (.inr ⟨_, _, _, _, _, rfl, hans⟩)

/-- Engines at work against the same peers. -/
structure Race (ι ε σ α : Type) where
  peers : ε
  runners : ι → Runner ε σ α

namespace Race

variable [DecidableEq ι]

def start (begun : ι → σ → InProgress σ α) (e : ε) (s : ι → σ) : Race ι ε σ α :=
  ⟨e, fun i => ⟨s i, [], begun i (s i)⟩⟩

/-- One of the engines does what it can do next. -/
inductive Step (C : Conduct ε) (begun : ι → σ → InProgress σ α) : Race ι ε σ α → Race ι ε σ α → Prop where
  | turn {race : Race ι ε σ α} (i : ι) {runner : Runner ε σ α} {e' : ε} :
    (race.runners i).Step C (begun i) race.peers runner e' →
    Step C begun race ⟨e', Function.update race.runners i runner⟩

inductive Reached (C : Conduct ε) (begun : ι → σ → InProgress σ α) (e : ε) (s : ι → σ) : Race ι ε σ α → Prop where
  | start : Reached C begun e s (start begun e s)
  | step {race race' : Race ι ε σ α} : Reached C begun e s race → Step C begun race race' → Reached C begun e s race'

end Race

/-! ## One engine among others -/

theorem Peer.Conduct.answers_of_failing {C : Conduct ε} {faulty : Prop} {c : Call} {a : c.Answer} {e e' : ε}
    (h : (C.failing faulty).answers c e (.ok a) e') : C.answers c e (.ok a) e' := by
  obtain h | ⟨-, ⟨x, hx⟩, -⟩ := h
  · exact h
  · cases hx

theorem Peer.Conduct.reached_of_failing {C : Conduct ε} {faulty : Prop} {c : Call} {r : Relayed c.Answer} {e e' : ε}
    (h : (C.failing faulty).answers c e r e') : e' = e ∨ ∃ r', C.answers c e r' e' := by
  obtain h | ⟨-, -, h⟩ := h
  · exact .inr ⟨r, h⟩
  · exact h

/-- The peers as one of several engines finds them: they answer a call as they may in any of the states `I`. -/
def Peer.Conduct.shared (C : Conduct ε) (I : ε → Prop) : Conduct Unit where
  attends := C.attends
  answers c _ r _ := ∃ e e', I e ∧ C.answers c e r e'
  hears _ u := u
  reads _ _ := rfl

/-- An engine keeps what it remembers in `S` and makes calls that `asks` allows, as long as it finds the peers in `I`;
and calls that `asks` allows leave them there. -/
structure Keeps (C : Conduct ε) (I : ε → Prop) (S : σ → Prop) (asks : σ → List (Move σ) → σ → Call → Prop)
    (begun : σ → InProgress σ α) : Prop where
  cycle : ∀ {s}, S s → (begun s).Ensures (C.shared I) (asks s) [] () fun _ _ s' _ => S s'
  call : ∀ {began moves s c e r e'}, I e → asks began moves s c → C.answers c e r e' → I e'
  event : ∀ {e} ev, I e → I (C.hears ev e)

/-- The engine is on a path of a cycle that it began in `S`. -/
structure Runner.Sound (C : Conduct ε) (I : ε → Prop) (S : σ → Prop) (begun : σ → InProgress σ α)
    (r : Runner ε σ α) : Prop where
  began : S r.began
  path : (begun r.began).Reaches (C.shared I) () r.moves r.rest ()
  made : ∀ p ∈ r.made, ∃ e', C.answers p.2.call p.1 p.2.answer e'

section

variable {C : Conduct ε} {I : ε → Prop} {S : σ → Prop} {asks : σ → List (Move σ) → σ → Call → Prop}
  {begun : σ → InProgress σ α} {runner runner' : Runner ε σ α} {e e' : ε}

theorem InProgress.Reaches.trans {t t' t'' : InProgress σ α} {moves new : List (Move σ)} {e'' : ε}
    (h : t.Reaches C e moves t' e') (h' : t'.Reaches C e' new t'' e'') : t.Reaches C e (moves ++ new) t'' e'' := by
  induction h with
  | here => exact h'
  | note _ ih => exact .note (ih h')
  | ask hc _ ih => exact .ask hc (ih h')

/-- What is left of the engine's cycle. -/
theorem Runner.Sound.ensures (h : runner.Sound C I S begun) (hkeeps : Keeps C I S asks begun) :
    runner.rest.Ensures (C.shared I) (asks runner.began) runner.moves () fun _ _ s' _ => S s' :=
  (hkeeps.cycle h.began).of_reaches h.path

theorem Runner.Sound.allowed (h : runner.Sound C I S begun) (hkeeps : Keeps C I S asks begun) {s : σ} {mode : Mode}
    {c : Call} {next : Relayed c.Answer → InProgress σ α} (hrest : runner.rest = .ask s mode c next) :
    C.attends mode c ∧ asks runner.began runner.moves s c := by
  have hens := h.ensures hkeeps
  rw [hrest] at hens
  exact hens.1

theorem Runner.Sound.step (h : runner.Sound C I S begun) (hkeeps : Keeps C I S asks begun) (he : I e)
    (hstep : runner.Step C begun e runner' e') : runner'.Sound C I S begun ∧ I e' := by
  have hens := h.ensures hkeeps
  cases hstep with
  | again => exact ⟨⟨hens, .here, by simp⟩, he⟩
  | note =>
    have hpath := h.path.trans (.note .here)
    rw [List.append_nil] at hpath
    exact ⟨⟨h.began, hpath, h.made⟩, hkeeps.event _ he⟩
  | @call began s made mode c next r _ _ hans =>
    refine ⟨⟨h.began, ?_, fun p hp => ?_⟩, hkeeps.call he hens.1.2 hans⟩
    · rw [Runner.moves, List.map_append]
      exact h.path.trans (.ask ⟨e, e', he, hans⟩ .here)
    · rcases List.mem_append.mp hp with hp | hp
      · exact h.made p hp
      · obtain rfl := List.mem_singleton.mp hp
        exact ⟨e', hans⟩

end

/-! ## All engines together -/

namespace Race

variable [DecidableEq ι] {C : Conduct ε} {I : ε → Prop} {S : σ → Prop}
  {asks : ι → σ → List (Move σ) → σ → Call → Prop} {begun : ι → σ → InProgress σ α} {e : ε} {s : ι → σ}
  {race race' : Race ι ε σ α}

/-- The peers are in `I`, and every engine is on a path of a cycle that it began in `S`. -/
structure Sound (C : Conduct ε) (I : ε → Prop) (S : σ → Prop) (begun : ι → σ → InProgress σ α)
    (race : Race ι ε σ α) : Prop where
  peers : I race.peers
  runners : ∀ i, (race.runners i).Sound C I S (begun i)

theorem Sound.step (h : race.Sound C I S begun) (hkeeps : ∀ i, Keeps C I S (asks i) (begun i))
    (hstep : Step C begun race race') : race'.Sound C I S begun := by
  obtain ⟨i, hturn⟩ := hstep
  obtain ⟨hrunner, hpeers⟩ := (h.runners i).step (hkeeps i) h.peers hturn
  refine ⟨hpeers, fun j => ?_⟩
  dsimp only
  by_cases hj : j = i
  · subst hj
    rwa [Function.update_self]
  · rw [Function.update_of_ne hj]
    exact h.runners j

/-- **Races.** What each engine keeps among others is kept by all of them together. -/
theorem Reached.sound (h : Reached C begun e s race) (hkeeps : ∀ i, Keeps C I S (asks i) (begun i)) (he : I e)
    (hs : ∀ i, S (s i)) : race.Sound C I S begun := by
  induction h with
  | start => exact ⟨he, fun i => ⟨hs i, .here, fun _ hp => absurd hp List.not_mem_nil⟩⟩
  | step _ hstep ih => exact ih.step hkeeps hstep

end Race

end HeaderRelay
