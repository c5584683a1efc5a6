import HeaderRelay.Proofs.BoundedCalls
import HeaderRelay.Proofs.Progress

/-!
# Timed cycles as paths

A timed run of a cycle, under any policy and whatever the peers do, is a path through the view of the cycle
(`InProgress.run_went`): the calls that the engine made are carried one after the other by the exchanges on record
(`Transcript`), several exchanges only for a read (`Sent`), and the last exchange of a call gives the answer
(`Carries`). The path ends with the cycle, or at a call that has no answer (`InProgress.Went`).

From there, a submission that fails is the last call of its cycle (`InProgress.Went.last`), and the submissions on
record are those that the engine made (`InProgress.Went.submissions`).
-/
namespace HeaderRelay

open Peer (Call Conduct Handler Exchange)

variable {ρ σ α : Type}

/-- Peers that may do anything. -/
abbrev Peer.Conduct.everyone : Conduct Unit := .anyone fun _ _ => True

/-! ## The exchanges of a call -/

def Peer.Exchange.Of (H : Handler ρ) (e : Exchange ρ) : Prop :=
  H e.call e.deadline e.before = (e.outcome, e.after)

/-- What a call made in some mode sends, latest first: submissions and direct calls are sent once. -/
structure Sent (H : Handler ρ) (mode : Mode) (c : Call) (es : List (Exchange ρ)) : Prop where
  exchanged : ∀ e ∈ es, e.call = c ∧ e.Of H
  once : (∀ op, mode ≠ .read op) → es.length = 1

/-- The last exchange of a call gives the answer, which is an error if it was cut off. -/
structure Carries (H : Handler ρ) (limit : Nat) (m : Move σ) (es : List (Exchange ρ)) : Prop
    extends Sent H m.mode m.call es where
  answer : ∃ deadline before o after earlier, es = ⟨m.call, deadline, before, o, after⟩ :: earlier ∧
    (o = .done m.answer ∨ o = .unanswered ∧ m.answer = .error (.timeout limit))

section Calls

variable {H : Handler ρ} {c : Call} {mode : Mode} {limit : Nat} {deadline : Option Nat}
  {w w' : World (ρ × List (Exchange ρ))} {o : Outcome (Relayed c.Answer)}

theorem Sent.single {before after : World ρ} (hH : H c deadline before = (o, after)) :
    Sent H mode c [⟨c, deadline, before, o, after⟩] := by
  refine ⟨fun e he => ?_, fun _ => rfl⟩
  obtain rfl := List.mem_singleton.mp he
  exact ⟨rfl, hH⟩

theorem Timed.within_exchange (h : Timed.within limit (H.recorded c) deadline w = (o, w')) :
    ∃ d o₁ after, w'.record = ⟨c, d, w.bare, o₁, after⟩ :: w.record ∧ H c d w.bare = (o₁, after) ∧
      (o = o₁ ∨ o₁ = .unanswered ∧ o = .done (.error (.timeout limit))) := by
  obtain ⟨d, -, -, hcall⟩ | ⟨-, ⟨hcall, -⟩ | ⟨w₁, hcall, rfl, rfl⟩⟩ := Timed.within_cases h
  all_goals obtain ⟨after, hH, rfl⟩ := Peer.Handler.recorded_cases hcall
  · exact ⟨_, o, after, rfl, hH, .inl rfl⟩
  · exact ⟨_, o, after, rfl, hH, .inl rfl⟩
  · exact ⟨_, .unanswered, after, rfl, hH, .inr ⟨rfl, rfl⟩⟩

/-- What an attempt sends, and what it carries if it is the last. -/
theorem Timed.within_carries (h : Timed.within limit (H.recorded c) deadline w = (o, w')) (held : σ) (mode : Mode) :
    ∃ e, w'.record = e :: w.record ∧ Sent H mode c [e] ∧
      ∀ r, o = .done r → Carries H limit ⟨held, mode, c, r⟩ [e] := by
  obtain ⟨d, o₁, after, hrecord, hH, ho⟩ := within_exchange h
  refine ⟨_, hrecord, .single hH, ?_⟩
  rintro r rfl
  refine ⟨.single hH, _, _, _, _, _, rfl, ?_⟩
  obtain rfl | ⟨rfl, ho⟩ := ho
  · exact .inl rfl
  · exact .inr ⟨rfl, Outcome.done.inj ho⟩

/-- A loop sends one call again and again, until an exchange gives the answer. -/
theorem Retry.Runs.exchanges {op : String} {attempts fuel failures : Nat} {delay : Nat → Nat}
    (h : Retry.Runs op attempts delay (Timed.within limit (H.recorded c)) deadline fuel failures w o w')
    (hnone : deadline = none) (held : σ) :
    ∃ es, w'.record = es ++ w.record ∧ Sent H (.read op) c es ∧
      ∀ r, o = .done r → Carries H limit ⟨held, .read op, c, r⟩ es := by
  induction h with
  | final hcall | unanswered hcall | lost hcall | exhausted hcall =>
    obtain ⟨e, hrecord, hsent, hcarries⟩ := Timed.within_carries hcall held (.read op)
    exact ⟨[e], hrecord, hsent, hcarries⟩
  | again hcall _ _ _ ih =>
    obtain ⟨e, hrecord, hsent, -⟩ := Timed.within_carries hcall held (.read op)
    obtain ⟨es, hes, hsent', hcarries⟩ := ih
    rw [World.record_paused, hrecord, List.append_cons] at hes
    have hall : Sent H (.read op) c (es ++ [e]) := by
      refine ⟨fun e' he' => ?_, fun hne => absurd rfl (hne op)⟩
      rcases List.mem_append.mp he' with he' | he'
      · exact hsent'.exchanged e' he'
      · exact hsent.exchanged e' he'
    refine ⟨_, hes, hall, fun r hr => ⟨hall, ?_⟩⟩
    obtain ⟨d, before, o₁, after, earlier, rfl, hans⟩ := (hcarries r hr).answer
    exact ⟨d, before, o₁, after, _, rfl, hans⟩
  | cut _ _ hd _ =>
    rw [hnone] at hd
    cases hd
  | unfollowed => exact ⟨[], rfl, ⟨by simp, fun hne => absurd rfl (hne op)⟩, by rintro r ⟨⟩⟩

/-- **A call.** It is carried by exchanges; if it is no read, by one. -/
theorem Mode.carry_exchanges {followed : Nat} {policy : Policy}
    (h : mode.carry followed policy (H.recorded c) none w = (o, w')) (held : σ) :
    ∃ es, w'.record = es ++ w.record ∧ Sent H mode c es ∧
      ∀ r, o = .done r → Carries H policy.timeout ⟨held, mode, c, r⟩ es := by
  cases mode with
  | read op => exact (Policy.read_runs h).exchanges rfl held
  | submit =>
    have h : Timed.within policy.timeout (H.recorded c) none w = (o, w') := h
    obtain ⟨e, hrecord, hsent, hcarries⟩ := Timed.within_carries h held .submit
    exact ⟨[e], hrecord, hsent, hcarries⟩
  | direct =>
    obtain ⟨after, hH, rfl⟩ := Peer.Handler.recorded_cases h
    exact ⟨_, rfl, .single hH, fun r hr => ⟨.single hH, _, _, _, _, _, rfl, .inl hr⟩⟩

end Calls

/-! ## Runs -/

/-- The calls that an engine has made, and the exchanges that carried them, latest first. -/
inductive Transcript (H : Handler ρ) (limit : Nat) : List (Move σ) → List (Exchange ρ) → Prop where
  | nil : Transcript H limit [] []
  | cons {m : Move σ} {moves : List (Move σ)} {es later : List (Exchange ρ)} :
    Carries H limit m es → Transcript H limit moves later → Transcript H limit (m :: moves) (later ++ es)

theorem Transcript.exists_move {H : Handler ρ} {limit : Nat} {moves : List (Move σ)} {l : List (Exchange ρ)}
    (h : Transcript H limit moves l) : ∀ e ∈ l, ∃ m ∈ moves, e.call = m.call := by
  induction h with
  | nil => exact List.forall_mem_nil _
  | cons hcarries _ ih =>
    intro e he
    rcases List.mem_append.mp he with he | he
    · obtain ⟨m, hm, hcall⟩ := ih e he
      exact ⟨m, List.mem_cons_of_mem _ hm, hcall⟩
    · exact ⟨_, List.mem_cons_self, (hcarries.exchanged e he).1⟩

namespace InProgress

/-- How a run of `t` went: the calls made, the exchanges on record and the outcome. It ended with the cycle, or it
stopped at a call. -/
inductive Went (H : Handler ρ) (limit : Nat) (t : InProgress σ α) :
    List (Move σ) → List (Exchange ρ) → Outcome (Relayed α × σ) → Prop where
  | ended {moves : List (Move σ)} {l : List (Exchange ρ)} {r : Relayed α} {s : σ} :
    t.Reaches .everyone () moves (.ended r s) () → Transcript H limit moves l →
    Went H limit t moves l (.done (r, s))
  | stopped {moves : List (Move σ)} {l es : List (Exchange ρ)} {s : σ} {mode : Mode} {c : Call}
    {next : Relayed c.Answer → InProgress σ α} {o : Outcome (Relayed α × σ)} :
    t.Reaches .everyone () moves (.ask s mode c next) () → Transcript H limit moves l → Sent H mode c es →
    (∀ a, o ≠ .done a) → Went H limit t moves (es ++ l) o

variable {H : Handler ρ} {limit : Nat} {t : InProgress σ α} {o : Outcome (Relayed α × σ)}

/-- **Runs.** Every timed run is a path. -/
theorem run_went {followed : Nat} {policy : Policy} {w w' : World (ρ × List (Exchange ρ))}
    (h : t.program.run followed policy H.recorded none w = (o, w')) :
    ∃ moves l, w'.record = l ++ w.record ∧ Went H policy.timeout t moves l o := by
  induction t generalizing w with
  | ended r s =>
    cases h
    exact ⟨[], [], rfl, .ended .here .nil⟩
  | note ev next ih =>
    obtain ⟨moves, l, hl, hwent⟩ := ih (w := { w with log := ev :: w.log }) h
    refine ⟨moves, l, hl, ?_⟩
    cases hwent with
    | ended hreaches htranscript => exact .ended (.note hreaches) htranscript
    | stopped hreaches htranscript hsent ho => exact .stopped (.note hreaches) htranscript hsent ho
  | ask s mode c next ih =>
    cases hcarry : mode.carry followed policy (H.recorded c) none w with
    | mk o₁ w₁ =>
      simp only [program, Program.run, bind, Timed.andThen, hcarry] at h
      obtain ⟨es, hes, hsent, hcarries⟩ := Mode.carry_exchanges hcarry s
      cases o₁ with
      | done r =>
        obtain ⟨moves, l, hl, hwent⟩ := ih r h
        rw [hes, ← List.append_assoc] at hl
        cases hwent with
        | ended hreaches htranscript =>
          exact ⟨_, _, hl, .ended (.ask trivial hreaches) (.cons (hcarries r rfl) htranscript)⟩
        | stopped hreaches htranscript hsent' ho =>
          rw [List.append_assoc _ _ es] at hl
          exact ⟨_, _, hl, .stopped (.ask trivial hreaches) (.cons (hcarries r rfl) htranscript) hsent' ho⟩
      | unanswered =>
        cases h
        refine ⟨[], es ++ [], by rw [List.append_nil]; exact hes, .stopped .here .nil hsent (by simp)⟩
      | unfollowed =>
        cases h
        refine ⟨[], es ++ [], by rw [List.append_nil]; exact hes, .stopped .here .nil hsent (by simp)⟩

theorem Reaches.split {ε : Type} {C : Conduct ε} {before after : List (Move σ)} {m : Move σ} {t' : InProgress σ α}
    {e e' : ε} (h : t.Reaches C e (before ++ m :: after) t' e') :
    ∃ next e₁ e₂, t.Reaches C e before (.ask m.held m.mode m.call next) e₁ ∧ C.answers m.call e₁ m.answer e₂ ∧
      (next m.answer).Reaches C e₂ after t' e' := by
  generalize hmoves : before ++ m :: after = moves at h
  induction h generalizing before with
  | here => simp at hmoves
  | note _ ih =>
    obtain ⟨next, e₁, e₂, hto, hans, hfrom⟩ := ih hmoves
    exact ⟨next, e₁, e₂, .note hto, hans, hfrom⟩
  | @ask s mode c next r t' e e₁ e' moves hans hreaches ih =>
    cases before with
    | nil =>
      cases hmoves
      exact ⟨next, e, e₁, .here, hans, hreaches⟩
    | cons m' before =>
      cases hmoves
      obtain ⟨next', e₂, e₃, hto, hans', hfrom⟩ := ih rfl
      exact ⟨next', e₂, e₃, .ask hans hto, hans', hfrom⟩

/-- Each call on a path is one that could be asked after the calls before it. -/
theorem Ensures.asked {ε : Type} {C : Conduct ε} {asks : List (Move σ) → σ → Call → Prop} {t' : InProgress σ α}
    {before after : List (Move σ)} {m : Move σ} {e e' : ε} {Q : Relayed α → List (Move σ) → σ → ε → Prop}
    (h : t.Ensures C asks [] e Q) (hreaches : t.Reaches C e (before ++ m :: after) t' e') :
    asks before m.held m.call := by
  obtain ⟨next, e₁, e₂, hto, -, -⟩ := hreaches.split
  exact (h.of_reaches hto).1.2

theorem Went.reaches {moves : List (Move σ)} {l : List (Exchange ρ)} (h : Went H limit t moves l o) :
    ∃ t', t.Reaches .everyone () moves t' () := by
  cases h with
  | ended hreaches => exact ⟨_, hreaches⟩
  | stopped hreaches => exact ⟨_, hreaches⟩

theorem Went.asked {asks : Call → Prop} {moves : List (Move σ)} {l : List (Exchange ρ)}
    {Q : Relayed α → List (Move σ) → σ → Unit → Prop} (h : Went H limit t moves l o)
    (ht : t.Ensures .everyone (fun _ _ c => asks c) [] () Q) : ∀ e ∈ l, asks e.call := by
  have htranscript : ∀ {l : List (Exchange ρ)}, Transcript H limit moves l → ∀ e ∈ l, asks e.call := by
    intro l hl e he
    obtain ⟨m, hm, hcall⟩ := hl.exists_move e he
    obtain ⟨before, after, rfl⟩ := List.append_of_mem hm
    obtain ⟨t', hreaches⟩ := h.reaches
    rw [hcall]
    exact ht.asked hreaches
  intro e he
  cases h with
  | ended _ hl => exact htranscript hl e he
  | stopped hreaches hl hsent _ =>
    rcases List.mem_append.mp he with he | he
    · rw [(hsent.exchanged e he).1]
      exact (ht.of_reaches hreaches).1.2
    · exact htranscript hl e he

/-- **Failures.** A submission that fails is the last call of a cycle that yields: no exchange follows it, the cycle
ends with its error, and the engine remembers what it remembered when it made the submission. -/
theorem Went.last {before after : List (Move σ)} {m : Move σ} {l : List (Exchange ρ)} {x : RelayError}
    (h : Went H limit t (before ++ m :: after) l o) (ht : t.Yields) (hm : m.call.isSubmission = true)
    (hx : m.answer = .error x) :
    after = [] ∧ o = .done (.error x, m.held) ∧ ∃ e earlier, l = e :: earlier ∧ e.call = m.call := by
  have hfails : ∀ {t' : InProgress σ α}, t.Reaches .everyone () (before ++ m :: after) t' () →
      after = [] ∧ t'.Fails x m.held := by
    intro t' hreaches
    obtain ⟨next, _, _, hto, -, hfrom⟩ := hreaches.split
    rw [hx] at hfrom
    exact (((ht.of_reaches hto).1 hm).2 x).of_reaches hfrom
  cases h with
  | ended hreaches htranscript =>
    obtain ⟨rfl, rfl, rfl⟩ := hfails hreaches
    refine ⟨rfl, rfl, ?_⟩
    -- the last call's last exchange is the latest on record
    clear hreaches hfails
    induction before generalizing l with
    | nil =>
      cases htranscript with
      | cons hcarries hrest =>
        cases hrest
        obtain ⟨_, _, _, _, _, rfl, -⟩ := hcarries.answer
        exact ⟨_, _, rfl, rfl⟩
    | cons m' before ih =>
      cases htranscript with
      | cons _ hrest =>
        obtain ⟨e, earlier, rfl, he⟩ := ih hrest
        exact ⟨e, _, rfl, he⟩
  | stopped hreaches => exact (hfails hreaches).2.elim

/-! ## The submissions of a run -/

end InProgress

def submissionsOf (calls : List Call) : List Call := calls.filter Call.isSubmission

theorem submissionsOf_append (xs ys : List Call) : submissionsOf (xs ++ ys) = submissionsOf xs ++ submissionsOf ys :=
  List.filter_append ..

theorem Sent.submissions {H : Handler ρ} {mode : Mode} {c : Call} {es : List (Exchange ρ)} (h : Sent H mode c es)
    (hmode : c.isSubmission = true → mode = .submit) :
    submissionsOf (es.map Exchange.call).reverse = submissionsOf [c] := by
  cases hc : c.isSubmission with
  | true =>
    obtain ⟨e, rfl⟩ := List.length_eq_one_iff.mp (h.once fun op => by rw [hmode hc]; simp)
    rw [List.map_singleton, (h.exchanged e (by simp)).1]
    rfl
  | false =>
    have hnone : submissionsOf [c] = [] := by simp [submissionsOf, hc]
    rw [hnone, submissionsOf, List.filter_eq_nil_iff]
    intro c' hc'
    obtain ⟨e, he, rfl⟩ := List.mem_map.mp (List.mem_reverse.mp hc')
    rw [(h.exchanged e he).1]
    simp [hc]

theorem Transcript.submissions {H : Handler ρ} {limit : Nat} {moves : List (Move σ)} {l : List (Exchange ρ)}
    (h : Transcript H limit moves l) (hmode : ∀ m ∈ moves, m.call.isSubmission = true → m.mode = .submit) :
    submissionsOf (l.map Exchange.call).reverse = submissionsOf (moves.map Move.call) := by
  induction h with
  | nil => rfl
  | cons hcarries _ ih =>
    rw [List.map_append, List.reverse_append, submissionsOf_append, ih fun m hm => hmode m (List.mem_cons_of_mem _ hm),
      hcarries.submissions (hmode _ List.mem_cons_self), ← submissionsOf_append]
    rfl

/-- **Submissions.** Those on record, oldest first, are those that the engine has made, with the one that has no
answer, if the run stopped at one. -/
theorem InProgress.Went.submissions {H : Handler ρ} {limit : Nat} {t : InProgress σ α}
    {o : Outcome (Relayed α × σ)} {moves : List (Move σ)} {l : List (Exchange ρ)} (h : t.Went H limit moves l o)
    (ht : t.Yields) :
    submissionsOf (l.map Exchange.call).reverse = submissionsOf (moves.map Move.call) ∨
      ∃ s mode c next, t.Reaches .everyone () moves (.ask s mode c next) () ∧ c.isSubmission = true ∧
        submissionsOf (l.map Exchange.call).reverse = submissionsOf (moves.map Move.call) ++ [c] := by
  have hmode : ∀ m ∈ moves, m.call.isSubmission = true → m.mode = .submit := by
    intro m hm hsub
    obtain ⟨before, after, rfl⟩ := List.append_of_mem hm
    obtain ⟨t', hreaches⟩ := h.reaches
    obtain ⟨next, _, _, hto, -, -⟩ := hreaches.split
    exact ((ht.of_reaches hto).1 hsub).1
  cases h with
  | ended _ htranscript => exact .inl (htranscript.submissions hmode)
  | stopped hreaches htranscript hsent ho =>
    rename_i earlier es s mode c next
    have hnow : submissionsOf ((es ++ earlier).map Exchange.call).reverse =
        submissionsOf (moves.map Move.call) ++ submissionsOf [c] := by
      rw [List.map_append, List.reverse_append, submissionsOf_append, htranscript.submissions hmode,
        hsent.submissions fun hc => ((ht.of_reaches hreaches).1 hc).1]
    cases hc : c.isSubmission with
    | true => exact .inr ⟨s, mode, c, next, hreaches, hc, by rw [hnow]; simp [submissionsOf, hc]⟩
    | false => exact .inl (by rw [hnow]; simp [submissionsOf, hc])

end HeaderRelay
