import HeaderRelay.Proofs.Recording

/-!
# Cycles at work

A program shows the calls of a cycle, but not what the engine remembers when it makes them. A cycle in progress
(`InProgress`) shows both: it is the tree of the calls that are left, with the engine's state at each. A cycle that
is seen so has a `Cycle.View`, and the views of its parts, one for each former of a cycle, make the view of the
whole.

With its view a cycle carries the proof that it yields (`InProgress.Yields`): it makes a submission once, and after
one that fails it only writes events until it ends with that very error, the engine remembering what it remembered
when it made the submission.

`InProgress.Reaches` is the part of a run up to some point, with the calls made so far (`Move`).
`InProgress.Ensures` is what a cycle does whatever its peers answer: every call that it makes is one that `asks`
allows after the calls before it, from the state that the engine is in, and it ends in a postcondition; its rules
are those of `Cycle.Ensures`. Where a part of a cycle only reads, `Cycle.Ensures` is enough
(`Cycle.View.ensures_of_reads`).
-/
namespace HeaderRelay

open Peer (Call Conduct)

variable {ε σ α β : Type}

/-- What is left of a cycle, and what the engine remembers at each of its calls. -/
inductive InProgress (σ α : Type) where
  | ended (r : Relayed α) (s : σ)
  | note (ev : Log.Event) (next : InProgress σ α)
  | ask (s : σ) (mode : Mode) (call : Call) (next : Relayed call.Answer → InProgress σ α)

/-- A call that an engine has made, and what it was told. -/
structure Move (σ : Type) where
  /-- What the engine remembered when it made the call. -/
  held : σ
  mode : Mode
  call : Call
  answer : Relayed call.Answer

namespace InProgress

def program : InProgress σ α → Program (Relayed α × σ)
  | .ended r s => .done (r, s)
  | .note ev next => .note ev next.program
  | .ask _ mode c next => .ask mode c fun r => (next r).program

/-- Goes on with the result; an error is the end. -/
def andThen : InProgress σ β → (β → σ → InProgress σ α) → InProgress σ α
  | .ended (.ok b) s, f => f b s
  | .ended (.error x) s, _ => .ended (.error x) s
  | .note ev next, f => .note ev (next.andThen f)
  | .ask s mode c next, f => .ask s mode c fun r => (next r).andThen f

/-- Only events are left to be written before the cycle ends with `x` and the engine remembers `s`. -/
def Fails (x : RelayError) (s : σ) : InProgress σ α → Prop
  | .ended r s' => r = .error x ∧ s' = s
  | .note _ next => next.Fails x s
  | .ask .. => False

/-- Submissions are made once, and one that fails ends the cycle with its error, the engine remembering what it
remembered then. -/
def Yields : InProgress σ α → Prop
  | .ended _ _ => True
  | .note _ next => next.Yields
  | .ask s mode c next =>
    (c.isSubmission = true → mode = .submit ∧ ∀ x, (next (.error x)).Fails x s) ∧ ∀ r, (next r).Yields

theorem Fails.andThen {x : RelayError} {s : σ} {t : InProgress σ β} {f : β → σ → InProgress σ α}
    (h : t.Fails x s) : (t.andThen f).Fails x s := by
  induction t with
  | ended r s' =>
    obtain ⟨rfl, rfl⟩ := h
    exact ⟨rfl, rfl⟩
  | note ev next ih => exact ih h
  | ask s' mode c next ih => exact h

theorem Yields.andThen {t : InProgress σ β} {f : β → σ → InProgress σ α} (h : t.Yields)
    (hf : ∀ b s, (f b s).Yields) : (t.andThen f).Yields := by
  induction t with
  | ended r s =>
    cases r with
    | ok b => exact hf b s
    | error x => exact trivial
  | note ev next ih => exact ih h
  | ask s mode c next ih =>
    exact ⟨fun hc => ⟨(h.1 hc).1, fun x => ((h.1 hc).2 x).andThen⟩, fun r => ih r (h.2 r)⟩

def next? : InProgress σ α → Option Call
  | .ask _ _ c _ => some c
  | _ => none

def ended? : InProgress σ α → Option (Relayed α × σ)
  | .ended r s => some (r, s)
  | _ => none

theorem exists_of_next? {t : InProgress σ α} {c : Call} (h : t.next? = some c) :
    ∃ s mode next, t = .ask s mode c next := by
  cases t with
  | ask s mode c' next =>
    obtain rfl := Option.some.inj h
    exact ⟨s, mode, next, rfl⟩
  | ended r s => cases h
  | note ev next => cases h

theorem eq_of_ended? {t : InProgress σ α} {r : Relayed α} {s : σ} (h : t.ended? = some (r, s)) : t = .ended r s := by
  cases t with
  | ended r' s' =>
    cases h
    rfl
  | ask s mode c next => cases h
  | note ev next => cases h

/-! ## Runs -/

/-- `t.Reaches C e moves t' e'`: a run of `t` that finds the peers in state `e` comes to `t'`, `moves` having been
made, and leaves them in state `e'`. -/
inductive Reaches (C : Conduct ε) :
    InProgress σ α → ε → List (Move σ) → InProgress σ α → ε → Prop where
  | here {t : InProgress σ α} {e : ε} : Reaches C t e [] t e
  | note {ev : Log.Event} {next t' : InProgress σ α} {e e' : ε} {moves : List (Move σ)} :
    Reaches C next (C.hears ev e) moves t' e' → Reaches C (.note ev next) e moves t' e'
  | ask {s : σ} {mode : Mode} {c : Call} {next : Relayed c.Answer → InProgress σ α} {r : Relayed c.Answer}
    {t' : InProgress σ α} {e e₁ e' : ε} {moves : List (Move σ)} :
    C.answers c e r e₁ → Reaches C (next r) e₁ moves t' e' →
    Reaches C (.ask s mode c next) e (⟨s, mode, c, r⟩ :: moves) t' e'

/-- However the peers answer, each call comes after calls and from a state from which `asks` allows it, and the end
is in `Q`, with all calls made. -/
def Ensures (C : Conduct ε) (asks : List (Move σ) → σ → Call → Prop) :
    InProgress σ α → List (Move σ) → ε → (Relayed α → List (Move σ) → σ → ε → Prop) → Prop
  | .ended r s, moves, e, Q => Q r moves s e
  | .note ev next, moves, e, Q => next.Ensures C asks moves (C.hears ev e) Q
  | .ask s mode c next, moves, e, Q => (C.attends mode c ∧ asks moves s c) ∧
    ∀ r e', C.answers c e r e' → (next r).Ensures C asks (moves ++ [⟨s, mode, c, r⟩]) e' Q

variable {C : Conduct ε} {asks asks' : List (Move σ) → σ → Call → Prop} {t t' : InProgress σ α}
  {moves new : List (Move σ)} {e e' : ε} {Q Q' : Relayed α → List (Move σ) → σ → ε → Prop}

theorem Ensures.mono (h : t.Ensures C asks moves e Q) (hasks : ∀ moves s c, asks moves s c → asks' moves s c)
    (hQ : ∀ r moves s e, Q r moves s e → Q' r moves s e) : t.Ensures C asks' moves e Q' := by
  induction t generalizing moves e with
  | ended r s => exact hQ r moves s e h
  | note ev next ih => exact ih h
  | ask s mode c next ih => exact ⟨⟨h.1.1, hasks moves s c h.1.2⟩, fun r e' hr => ih r (h.2 r e' hr)⟩

theorem ensures_andThen {t : InProgress σ β} {f : β → σ → InProgress σ α} :
    (t.andThen f).Ensures C asks moves e Q ↔ t.Ensures C asks moves e fun
      | .ok b => fun moves s e => (f b s).Ensures C asks moves e Q
      | .error x => Q (.error x) := by
  induction t generalizing moves e with
  | ended r s => cases r <;> rfl
  | note ev next ih => exact ih
  | ask s mode c next ih =>
    exact and_congr_right fun _ => forall_congr' fun r => forall_congr' fun _ => imp_congr_right fun _ => ih r

theorem Ensures.of_reaches (h : t.Ensures C asks moves e Q) (hr : t.Reaches C e new t' e') :
    t'.Ensures C asks (moves ++ new) e' Q := by
  induction hr generalizing moves with
  | here => rwa [List.append_nil]
  | note _ ih => exact ih h
  | ask hc _ ih =>
    rw [List.append_cons]
    exact ih (h.2 _ _ hc)

theorem Yields.of_reaches (h : t.Yields) (hr : t.Reaches C e new t' e') : t'.Yields := by
  induction hr with
  | here => exact h
  | note _ ih => exact ih h
  | ask _ _ ih => exact ih (h.2 _)

theorem Fails.of_reaches {x : RelayError} {s : σ} (h : t.Fails x s) (hr : t.Reaches C e new t' e') :
    new = [] ∧ t'.Fails x s := by
  induction hr with
  | here => exact ⟨rfl, h⟩
  | note _ ih => exact ih h
  | ask => exact h.elim

theorem Ensures.program (h : t.Ensures C asks moves e Q) :
    t.program.Ensures C e fun a e' => ∃ moves', Q a.1 moves' a.2 e' := by
  induction t generalizing moves e with
  | ended r s => exact ⟨moves, h⟩
  | note ev next ih => exact ih h
  | ask s mode c next ih => exact ⟨h.1.1, fun r e' hr => ih r (h.2 r e' hr)⟩

theorem Ensures.asking {P : Call → Prop} (hP : ∀ moves s c, asks moves s c → P c) (h : t.Ensures C asks moves e Q) :
    t.program.Ensures (C.asking P) e fun a e' => ∃ moves', Q a.1 moves' a.2 e' := by
  induction t generalizing moves e with
  | ended r s => exact ⟨moves, h⟩
  | note ev next ih => exact ih h
  | ask s mode c next ih => exact ⟨⟨h.1.1, hP moves s c h.1.2⟩, fun r e' hr => ih r (h.2 r e' hr)⟩

/-- What the program of a cycle is sure of, if it makes calls of some kind only, the cycle is sure of, and those are
the calls that it has made. -/
theorem ensures_of_program {P : Call → Prop} {Q : Relayed α × σ → ε → Prop} (hP : ∀ moves s c, P c → asks moves s c)
    (h : t.program.Ensures (C.asking P) e Q) :
    t.Ensures C asks moves e fun r moves' s e' =>
      Q (r, s) e' ∧ ∃ new, moves' = moves ++ new ∧ ∀ m ∈ new, P m.call := by
  induction t generalizing moves e with
  | ended r s => exact ⟨h, [], (List.append_nil _).symm, by simp⟩
  | note ev next ih => exact ih h
  | ask s mode c next ih =>
    refine ⟨⟨h.1.1, hP moves s c h.1.2⟩, fun r e' hr => ?_⟩
    refine (ih r (h.2 r e' hr)).mono (fun _ _ _ ha => ha) ?_
    rintro r' moves' s' e₁ ⟨hQ, new, rfl, hnew⟩
    refine ⟨hQ, ⟨s, mode, c, r⟩ :: new, List.append_assoc .., ?_⟩
    simpa using ⟨h.1.2, hnew⟩

end InProgress

/-! ## Views -/

/-- A cycle with what the engine remembers at its calls in view. -/
structure Cycle.View (x : Cycle σ α) where
  begun : σ → InProgress σ α
  program_begun : ∀ s, (begun s).program = x.start s
  yields : ∀ s, (begun s).Yields

namespace Cycle.View

theorem program_andThen {x : Cycle σ β} {f : β → Cycle σ α} {t : InProgress σ β} {g : β → σ → InProgress σ α}
    {s : σ} (ht : t.program = x.start s) (hg : ∀ b s, (g b s).program = (f b).start s) :
    (t.andThen g).program = (x >>= f).start s := by
  have hgo : ∀ t : InProgress σ β, (t.andThen g).program = t.program.andThen (goOn f) := by
    intro t
    induction t with
    | ended r s =>
      cases r with
      | ok b => exact hg b s
      | error x => rfl
    | note ev next ih => exact congrArg (Program.note ev) ih
    | ask s mode c next ih => exact congrArg (Program.ask mode c) (funext ih)
  rw [hgo, ht, start_bind]

def ofEq {x y : Cycle σ α} (h : x = y) (v : y.View) : x.View where
  begun := v.begun
  program_begun s := by
    rw [h]
    exact v.program_begun s
  yields := v.yields

def pure (a : α) : (Pure.pure a : Cycle σ α).View where
  begun s := .ended (.ok a) s
  program_begun _ := rfl
  yields _ := trivial

def throw (x : RelayError) : (MonadExcept.throw x : Cycle σ α).View where
  begun s := .ended (.error x) s
  program_begun _ := rfl
  yields _ := trivial

def ofRelayed (r : Relayed α) : (Cycle.ofRelayed r : Cycle σ α).View where
  begun s := .ended r s
  program_begun _ := rfl
  yields _ := trivial

def get : (MonadState.get : Cycle σ σ).View where
  begun s := .ended (.ok s) s
  program_begun _ := rfl
  yields _ := trivial

def change (f : σ → σ) : (modify f : Cycle σ PUnit).View where
  begun s := .ended (.ok ()) (f s)
  program_begun _ := rfl
  yields _ := trivial

def replace (s' : σ) : (set s' : Cycle σ PUnit).View where
  begun _ := .ended (.ok ()) s'
  program_begun _ := rfl
  yields _ := trivial

def log (ev : Log.Event) : (Cycle.log ev : Cycle σ Unit).View where
  begun s := .note ev (.ended (.ok ()) s)
  program_begun _ := rfl
  yields _ := trivial

def call {mode : Mode} {c : Call} (hc : c.isSubmission = true → mode = .submit) :
    (Cycle.call mode c : Cycle σ c.Answer).View where
  begun s := .ask s mode c fun r => .ended r s
  program_begun _ := rfl
  yields _ := ⟨fun h => ⟨hc h, fun _ => ⟨rfl, rfl⟩⟩, fun _ => trivial⟩

def read {op : String} {c : Call} (hc : c.isSubmission = false) : (Cycle.read op c : Cycle σ c.Answer).View :=
  call fun h => absurd h (by simp [hc])

def outcome {mode : Mode} {c : Call} (hc : c.isSubmission = false) :
    (Cycle.outcome mode c : Cycle σ (Relayed c.Answer)).View where
  begun s := .ask s mode c fun r => .ended (.ok r) s
  program_begun _ := rfl
  yields _ := ⟨fun h => absurd h (by simp [hc]), fun _ => trivial⟩

def bind {x : Cycle σ β} {f : β → Cycle σ α} (v : x.View) (vs : ∀ b, (f b).View) : (x >>= f).View where
  begun s := (v.begun s).andThen fun b s => (vs b).begun s
  program_begun s := program_andThen (v.program_begun s) fun b s => (vs b).program_begun s
  yields s := (v.yields s).andThen fun b s => (vs b).yields s

/-- A submission whose outcome is looked at, if after an error only events are written before the error is the
cycle's. -/
def submission {c : Call} {f : Relayed c.Answer → Cycle σ α} (vs : ∀ r, (f r).View)
    (hfails : ∀ x s, ((vs (.error x)).begun s).Fails x s) : (Cycle.outcome .submit c >>= f).View where
  begun s := .ask s .submit c fun r => (vs r).begun s
  program_begun s := congrArg (Program.ask .submit c) (funext fun r => (vs r).program_begun s)
  yields s := ⟨fun _ => ⟨rfl, fun x => hfails x s⟩, fun r => (vs r).yields s⟩

def ite {p : Prop} [Decidable p] {x y : Cycle σ α} (v : x.View) (v' : y.View) : (if p then x else y).View where
  begun s := if p then v.begun s else v'.begun s
  program_begun s := by
    split
    · exact v.program_begun s
    · exact v'.program_begun s
  yields s := by
    split
    · exact v.yields s
    · exact v'.yields s

/-! ## Rules -/

def closes (ok : α → List (Move σ) → σ → ε → Prop) (err : RelayError → List (Move σ) → σ → ε → Prop) :
    Relayed α → List (Move σ) → σ → ε → Prop
  | .ok a => ok a
  | .error x => err x

/-- The cycle, in an engine that remembers `s`, makes calls that `asks` allows after `moves` and ends in `ok` or in
`err`, however peers in state `e` answer. -/
def Ensures {x : Cycle σ α} (v : x.View) (C : Conduct ε) (asks : List (Move σ) → σ → Call → Prop)
    (moves : List (Move σ)) (s : σ) (e : ε) (ok : α → List (Move σ) → σ → ε → Prop)
    (err : RelayError → List (Move σ) → σ → ε → Prop) : Prop :=
  (v.begun s).Ensures C asks moves e (closes ok err)

variable {x : Cycle σ α} {v : x.View} {C : Conduct ε} {asks : List (Move σ) → σ → Call → Prop}
  {moves : List (Move σ)} {s : σ} {e : ε} {ok ok' : α → List (Move σ) → σ → ε → Prop}
  {err err' : RelayError → List (Move σ) → σ → ε → Prop}

theorem Ensures.mono (h : v.Ensures C asks moves s e ok err)
    (hok : ∀ a moves s e, ok a moves s e → ok' a moves s e)
    (herr : ∀ x moves s e, err x moves s e → err' x moves s e) : v.Ensures C asks moves s e ok' err' :=
  InProgress.Ensures.mono h (fun _ _ _ ha => ha) fun
    | .ok a => hok a
    | .error x => herr x

theorem ensures_of_begun {D : Conduct ε}
    (h : (v.begun s).program.Ensures D e fun a e' => ∃ moves', closes ok err a.1 moves' a.2 e') :
    x.Ensures D s e (fun a s' e' => ∃ moves', ok a moves' s' e') fun y s' e' => ∃ moves', err y moves' s' e' := by
  show (x.start s).Ensures D e _
  rw [← v.program_begun]
  refine Program.Ensures.mono h ?_
  rintro ⟨y | a, s'⟩ e' hend
  · exact hend
  · exact hend

theorem Ensures.cycle (h : v.Ensures C asks moves s e ok err) :
    x.Ensures C s e (fun a s' e' => ∃ moves', ok a moves' s' e') fun y s' e' => ∃ moves', err y moves' s' e' :=
  ensures_of_begun (InProgress.Ensures.program h)

theorem Ensures.asking {P : Call → Prop} (hP : ∀ moves s c, asks moves s c → P c)
    (h : v.Ensures C asks moves s e ok err) :
    x.Ensures (C.asking P) s e (fun a s' e' => ∃ moves', ok a moves' s' e')
      fun y s' e' => ∃ moves', err y moves' s' e' :=
  ensures_of_begun (InProgress.Ensures.asking hP h)

theorem ensures_ofEq {x y : Cycle σ α} {h : x = y} {v : y.View} :
    (ofEq h v).Ensures C asks moves s e ok err ↔ v.Ensures C asks moves s e ok err := Iff.rfl

theorem ensures_get {ok : σ → List (Move σ) → σ → ε → Prop} :
    get.Ensures C asks moves s e ok err ↔ ok s moves s e := Iff.rfl

theorem ensures_bind {x : Cycle σ β} {f : β → Cycle σ α} {v : x.View} {vs : ∀ b, (f b).View} :
    (v.bind vs).Ensures C asks moves s e ok err ↔
      v.Ensures C asks moves s e (fun b moves s e => (vs b).Ensures C asks moves s e ok err) err := by
  refine InProgress.ensures_andThen.trans (iff_of_eq ?_)
  unfold Ensures
  congr 1

theorem ensures_ite {p : Prop} [Decidable p] {x y : Cycle σ α} {v : x.View} {v' : y.View}
    (h : p → v.Ensures C asks moves s e ok err) (h' : ¬ p → v'.Ensures C asks moves s e ok err) :
    (ite (p := p) v v').Ensures C asks moves s e ok err := by
  unfold Ensures ite
  dsimp only
  split
  · exact h ‹_›
  · exact h' ‹_›

theorem ensures_call {mode : Mode} {c : Call} {hc : c.isSubmission = true → mode = .submit}
    {ok : c.Answer → List (Move σ) → σ → ε → Prop} :
    (call hc).Ensures C asks moves s e ok err ↔ (C.attends mode c ∧ asks moves s c) ∧
      (∀ a e', C.answers c e (.ok a) e' → ok a (moves ++ [⟨s, mode, c, .ok a⟩]) s e') ∧
        ∀ x e', C.answers c e (.error x) e' → err x (moves ++ [⟨s, mode, c, .error x⟩]) s e' := by
  refine and_congr_right fun _ => ⟨fun h => ⟨fun a => h (.ok a), fun x => h (.error x)⟩, ?_⟩
  rintro ⟨hok, herr⟩ (x | a) e' hr
  · exact herr x e' hr
  · exact hok a e' hr

theorem ensures_submission {c : Call} {f : Relayed c.Answer → Cycle σ α} {vs : ∀ r, (f r).View}
    {hfails : ∀ x s, ((vs (.error x)).begun s).Fails x s} :
    (submission vs hfails).Ensures C asks moves s e ok err ↔ (C.attends .submit c ∧ asks moves s c) ∧
      ∀ r e', C.answers c e r e' → (vs r).Ensures C asks (moves ++ [⟨s, .submit, c, r⟩]) s e' ok err :=
  Iff.rfl

/-- A part of a cycle that makes calls of some kind only is seen well enough without its state. -/
theorem ensures_of_reads {P : Call → Prop} {ok : α → σ → ε → Prop} {err : RelayError → σ → ε → Prop}
    (hP : ∀ moves s c, P c → asks moves s c) (h : x.Ensures (C.asking P) s e ok err) :
    v.Ensures C asks moves s e
      (fun a moves' s' e' => ok a s' e' ∧ ∃ new, moves' = moves ++ new ∧ ∀ m ∈ new, P m.call)
      fun y moves' s' e' => err y s' e' ∧ ∃ new, moves' = moves ++ new ∧ ∀ m ∈ new, P m.call := by
  have hprogram : (v.begun s).program.Ensures (C.asking P) e (Cycle.ends ok err) := by
    rw [v.program_begun]
    exact h
  refine (InProgress.ensures_of_program hP hprogram).mono (fun _ _ _ ha => ha) ?_
  rintro (y | a) moves' s' e' h
  · exact h
  · exact h

end Cycle.View

end HeaderRelay
