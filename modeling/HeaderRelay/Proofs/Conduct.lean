import HeaderRelay.Program

/-!
# What a program does against peers of a kind

A `Conduct` says what peers in a given state may do with a call: which calls they attend to and how these
may be made, which outcomes a call may have and in which state it leaves them, and which of the log events
they take notice of; what may be read changes nothing. Nothing is said of time, of tries or of who the
peers are, so one conduct stands for every network, every policy and every schedule of failures that keeps
to it. `Conduct.failing` are the same peers on a connection on which any call may fail, before it has
reached its peer or after.

`Program.Runs C p e a e'` is one run of `p` against such peers, from `e` to `e'` with result `a`.
`Program.Ensures C p e Q` is the precondition of `p` for `Q`: it asks nothing of peers that `C` does not
attend to and looks at every outcome that `C` allows (`Ensures.of_runs`). `Cycle.Ensures` is the same
for a cycle of an engine, with one postcondition for each way it can end; its rules (`bind`, `call`,
`log`, `modify`, …) turn a `do` block into what is left to show.
-/
namespace HeaderRelay

open Peer (Call)

/-- What peers whose state is an `ε` may do. -/
structure Peer.Conduct (ε : Type) where
  /-- The calls that they know, each in the ways in which it may be made. -/
  attends : Mode → Call → Prop
  /-- The outcomes of a call and the states after it. -/
  answers : (c : Call) → ε → Relayed c.Answer → ε → Prop
  /-- What a log event of the program changes. -/
  hears : Log.Event → ε → ε
  /-- What may be read, and so be tried again, changes nothing. -/
  reads : ∀ {op c e r e'}, attends (.read op) c → answers c e r e' → e' = e

/-- The same peers on a bad connection: if `faulty`, any call may fail, before it has reached its peer or
after. -/
def Peer.Conduct.failing {ε : Type} (C : Conduct ε) (faulty : Prop) : Conduct ε where
  attends := C.attends
  answers c e r e' :=
    C.answers c e r e' ∨ faulty ∧ (∃ x, r = .error x) ∧ (e' = e ∨ ∃ r', C.answers c e r' e')
  hears := C.hears
  reads hc h := by
    rcases h with h | ⟨-, -, h | ⟨r', h⟩⟩
    · exact C.reads hc h
    · exact h
    · exact C.reads hc h

open Peer (Conduct)

variable {ε α β σ : Type}

/-- The outcomes of a call that is answered, if its peer is `able` to, by something `good`. -/
def Relayed.Served (able : Prop) (good : α → Prop) : Relayed α → Prop
  | .ok a => good a
  | .error _ => ¬ able

/-- In state `e` the call `c` may be read, and is answered, if its peer is `able` to, by something `good`. -/
structure Peer.Conduct.Reads (C : Conduct ε) (c : Call) (e : ε) (able : Prop)
    (good : c.Answer → Prop) : Prop where
  attends : ∀ op, C.attends (.read op) c
  answers : ∀ {r e'}, C.answers c e r e' → r.Served able good

@[simp] theorem Peer.Conduct.failing_false (C : Conduct ε) : C.failing False = C := by
  cases C
  simp [failing]

/-! ## Programs -/

namespace Program

/-- `Runs C p e a e'`: a run of `p` that finds the peers in state `e`, ends with `a` and leaves them in
state `e'`. -/
inductive Runs (C : Conduct ε) : Program α → ε → α → ε → Prop where
  | done (a : α) (e : ε) : Runs C (.done a) e a e
  | note {ev : Log.Event} {next : Program α} {e e' : ε} {a : α} :
    Runs C next (C.hears ev e) a e' → Runs C (.note ev next) e a e'
  | ask {mode : Mode} {c : Call} {next : Relayed c.Answer → Program α} {e e₁ e' : ε} {a : α}
    {r : Relayed c.Answer} :
    C.answers c e r e₁ → Runs C (next r) e₁ a e' → Runs C (.ask mode c next) e a e'

/-- `p` makes only calls that the peers attend to, and however they answer, it ends in `Q`. -/
def Ensures (C : Conduct ε) : Program α → ε → (α → ε → Prop) → Prop
  | .done a, e, Q => Q a e
  | .note ev next, e, Q => next.Ensures C (C.hears ev e) Q
  | .ask mode c next, e, Q => C.attends mode c ∧ ∀ r e', C.answers c e r e' → (next r).Ensures C e' Q

theorem Ensures.mono {C : Conduct ε} {p : Program α} {e : ε} {Q Q' : α → ε → Prop}
    (h : p.Ensures C e Q) (hQ : ∀ a e, Q a e → Q' a e) : p.Ensures C e Q' := by
  induction p generalizing e with
  | done a => exact hQ a e h
  | note ev next ih => exact ih h
  | ask mode c next ih => exact ⟨h.1, fun r e' hr => ih r (h.2 r e' hr)⟩

theorem ensures_andThen {C : Conduct ε} {p : Program α} {f : α → Program β} {e : ε}
    {Q : β → ε → Prop} :
    (p.andThen f).Ensures C e Q ↔ p.Ensures C e fun a e => (f a).Ensures C e Q := by
  induction p generalizing e with
  | done a => rfl
  | note ev next ih => exact ih
  | ask mode c next ih =>
    exact and_congr_right fun _ => forall_congr' fun r => forall_congr' fun _ => imp_congr_right fun _ => ih r

theorem Ensures.of_runs {C : Conduct ε} {p : Program α} {e e' : ε} {a : α} {Q : α → ε → Prop}
    (h : p.Ensures C e Q) (hr : p.Runs C e a e') : Q a e' := by
  induction hr with
  | done a e => exact h
  | note _ ih => exact ih h
  | ask hc _ ih => exact ih (h.2 _ _ hc)

theorem Ensures.exists_unique {C : Conduct ε} {p : Program α} {e : ε} {Q : α → ε → Prop}
    (hC : ∀ mode c e, C.attends mode c →
      ∃ r e₁, C.answers c e r e₁ ∧ ∀ r' e', C.answers c e r' e' → r' = r ∧ e' = e₁)
    (h : p.Ensures C e Q) : ∃ a e', Q a e' ∧ p.Ensures C e fun b e₁ => b = a ∧ e₁ = e' := by
  induction p generalizing e with
  | done a => exact ⟨a, e, h, rfl, rfl⟩
  | note ev next ih => exact ih h
  | ask mode c next ih =>
    obtain ⟨r, e₁, hr, huniq⟩ := hC mode c e h.1
    obtain ⟨a, e', hQ, hens⟩ := ih r (h.2 r e₁ hr)
    refine ⟨a, e', hQ, h.1, fun r' e₂ hr' => ?_⟩
    obtain ⟨rfl, rfl⟩ := huniq r' e₂ hr'
    exact hens

end Program

/-! ## Cycles -/

namespace Cycle

def start (x : Cycle σ α) (s : σ) : Program (Relayed α × σ) := StateT.run (ExceptT.run x) s

/-- How a cycle ends: with a result in `ok`, or with an error in `err`. -/
def ends (ok : α → σ → ε → Prop) (err : RelayError → σ → ε → Prop) : Relayed α × σ → ε → Prop
  | (.ok a, s), e => ok a s e
  | (.error x, s), e => err x s e

/-- The cycle, in an engine that remembers `s`, ends in `ok` or in `err` however peers in state `e`
answer. -/
def Ensures (C : Conduct ε) (x : Cycle σ α) (s : σ) (e : ε) (ok : α → σ → ε → Prop)
    (err : RelayError → σ → ε → Prop) : Prop :=
  (x.start s).Ensures C e (ends ok err)

variable {C : Conduct ε} {s : σ} {e : ε} {ok ok' : α → σ → ε → Prop} {err err' : RelayError → σ → ε → Prop}

theorem Ensures.mono {x : Cycle σ α} (h : x.Ensures C s e ok err) (hok : ∀ a s e, ok a s e → ok' a s e)
    (herr : ∀ x s e, err x s e → err' x s e) : x.Ensures C s e ok' err' :=
  Program.Ensures.mono h fun
    | (.ok a, s), e => hok a s e
    | (.error x, s), e => herr x s e

@[simp] theorem ensures_bind {x : Cycle σ β} {f : β → Cycle σ α} :
    (x >>= f).Ensures C s e ok err ↔ x.Ensures C s e (fun b s e => (f b).Ensures C s e ok err) err := by
  show (Program.andThen _ _).Ensures C e _ ↔ _
  rw [Program.ensures_andThen]
  refine ⟨fun h => Program.Ensures.mono h ?_, fun h => Program.Ensures.mono h ?_⟩ <;>
    rintro ⟨_ | b, s⟩ e h <;> exact h

theorem ensures_ite {p : Prop} [Decidable p] {x y : Cycle σ α} (hx : p → x.Ensures C s e ok err)
    (hy : ¬ p → y.Ensures C s e ok err) : (if p then x else y).Ensures C s e ok err := by
  split
  · exact hx ‹_›
  · exact hy ‹_›

@[simp] theorem ensures_get {ok : σ → σ → ε → Prop} :
    (get : Cycle σ σ).Ensures C s e ok err ↔ ok s s e := Iff.rfl

@[simp] theorem ensures_modify {ok : Unit → σ → ε → Prop} {f : σ → σ} :
    (modify f : Cycle σ PUnit).Ensures C s e ok err ↔ ok () (f s) e := Iff.rfl

@[simp] theorem ensures_log {ok : Unit → σ → ε → Prop} {ev : Log.Event} :
    (log ev : Cycle σ Unit).Ensures C s e ok err ↔ ok () s (C.hears ev e) := Iff.rfl

@[simp] theorem ensures_outcome {mode : Mode} {c : Call} {ok : Relayed c.Answer → σ → ε → Prop} :
    (outcome mode c : Cycle σ (Relayed c.Answer)).Ensures C s e ok err ↔
      C.attends mode c ∧ ∀ r e', C.answers c e r e' → ok r s e' := Iff.rfl

@[simp] theorem ensures_call {mode : Mode} {c : Call} {ok : c.Answer → σ → ε → Prop} :
    (call mode c : Cycle σ c.Answer).Ensures C s e ok err ↔
      C.attends mode c ∧ (∀ a e', C.answers c e (.ok a) e' → ok a s e') ∧
        ∀ x e', C.answers c e (.error x) e' → err x s e' := by
  refine and_congr_right fun _ => ⟨fun h => ⟨fun a => h (.ok a), fun x => h (.error x)⟩, ?_⟩
  rintro ⟨hok, herr⟩ (x | a) e' hr
  · exact herr x e' hr
  · exact hok a e' hr

@[simp] theorem ensures_read {op : String} {c : Call} {ok : c.Answer → σ → ε → Prop} :
    (read op c : Cycle σ c.Answer).Ensures C s e ok err ↔
      C.attends (.read op) c ∧ (∀ a e', C.answers c e (.ok a) e' → ok a s e') ∧
        ∀ x e', C.answers c e (.error x) e' → err x s e' := ensures_call

/-- A call on a bad connection may also end the cycle where it stands, or after its effect. -/
theorem ensures_call_failing {faulty : Prop} {mode : Mode} {c : Call} {ok : c.Answer → σ → ε → Prop} :
    (call mode c : Cycle σ c.Answer).Ensures (C.failing faulty) s e ok err ↔
      (call mode c : Cycle σ c.Answer).Ensures C s e ok err ∧
        (faulty → C.attends mode c → ∀ x, err x s e ∧ ∀ r e', C.answers c e r e' → err x s e') := by
  simp only [ensures_call, Conduct.failing]
  constructor
  · rintro ⟨hatt, hok, herr⟩
    refine ⟨⟨hatt, fun a e' h => hok a e' (.inl h), fun x e' h => herr x e' (.inl h)⟩, fun hf _ x => ⟨?_, ?_⟩⟩
    · exact herr x e (.inr ⟨hf, ⟨x, rfl⟩, .inl rfl⟩)
    · exact fun r e' h => herr x e' (.inr ⟨hf, ⟨x, rfl⟩, .inr ⟨r, h⟩⟩)
  · rintro ⟨⟨hatt, hok, herr⟩, hbad⟩
    refine ⟨hatt, fun a e' h => ?_, fun x e' h => ?_⟩
    · rcases h with h | ⟨-, ⟨x, hx⟩, -⟩
      · exact hok a e' h
      · cases hx
    · rcases h with h | ⟨hf, -, rfl | ⟨r, h⟩⟩
      · exact herr x e' h
      · exact (hbad hf hatt x).1
      · exact (hbad hf hatt x).2 r e' h

theorem ensures_read_failing {faulty able : Prop} {op : String} {c : Call} {good : c.Answer → Prop}
    {ok : c.Answer → σ → ε → Prop} (hc : C.Reads c e able good) (hok : ∀ a, good a → ok a s e)
    (herr : ∀ x, faulty ∨ ¬ able → err x s e) :
    (read op c : Cycle σ c.Answer).Ensures (C.failing faulty) s e ok err := by
  have hstays : ∀ {r e'}, C.answers c e r e' → e' = e := fun h => C.reads (hc.attends op) h
  refine ensures_call_failing.mpr ⟨ensures_call.mpr ⟨hc.attends op, fun a e' h => ?_, fun x e' h => ?_⟩, ?_⟩
  · obtain rfl := hstays h
    exact hok a (hc.answers h)
  · obtain rfl := hstays h
    exact herr x (.inr (hc.answers h))
  · refine fun hf _ x => ⟨herr x (.inl hf), fun r e' h => ?_⟩
    obtain rfl := hstays h
    exact herr x (.inl hf)

theorem Ensures.of_runs {x : Cycle σ α} (h : x.Ensures C s e ok err) {r : Relayed α × σ} {e' : ε}
    (hr : (x.start s).Runs C e r e') : ends ok err r e' :=
  Program.Ensures.of_runs h hr

end Cycle

end HeaderRelay
