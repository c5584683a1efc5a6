import HeaderRelay.Proofs.Faults
import HeaderRelay.Proofs.Prompt

/-!
# Runs on record

Peers on record (`Conduct.recording`) keep, beside their own state, the submissions that their contracts have
taken, in order: on a bad connection also those whose answers were lost. So what a program has brought about
in a run can be read off where the run ends, and a statement about peers on record is one about the peers
(`Ensures.of_recording`).

Two restrictions go with it: `Conduct.giving` are peers whose answers are moreover of some kind,
`Conduct.asking` are peers that attend to some of the calls only, so that a program that is sure of its end
against them asks no others (`Cycle.Asks`).

`Cycle.Aborted` are the states that cycles leave which all end in an error. The last section carries timed
runs over to peers on record.
-/
namespace HeaderRelay

open Peer (Call Conduct)

variable {ε α σ : Type}

/-! ## Records and restrictions -/

/-- The call, if it is a submission that was taken. -/
def Peer.Call.taken (c : Call) : Relayed c.Answer → List Call
  | .ok _ => if c.isSubmission then [c] else []
  | .error _ => []

theorem Peer.Call.taken_of_not_submission {c : Call} (hc : c.isSubmission = false) (r : Relayed c.Answer) :
    c.taken r = [] := by
  cases r with
  | ok a => simp [taken, hc]
  | error x => rfl

namespace Peer.Conduct

/-- The same peers and a record of the submissions that they have taken, oldest first. -/
def recording (C : Conduct ε) : Conduct (ε × List Call) where
  attends mode c := C.attends mode c ∧ (c.isSubmission = true → mode = .submit)
  answers c p r p' := C.answers c p.1 r p'.1 ∧ p'.2 = p.2 ++ c.taken r
  hears ev p := (C.hears ev p.1, p.2)
  reads {op c p r p'} hc h := by
    have hread : c.isSubmission = false := by
      cases hsub : c.isSubmission with
      | false => rfl
      | true => cases hc.2 hsub
    obtain ⟨hans, hrecord⟩ := h
    rw [Call.taken_of_not_submission hread, List.append_nil] at hrecord
    exact Prod.ext (C.reads hc.1 hans) hrecord

def giving (C : Conduct ε) (gives : (c : Call) → Relayed c.Answer → Prop) : Conduct ε where
  attends := C.attends
  answers c e r e' := C.answers c e r e' ∧ gives c r
  hears := C.hears
  reads hc h := C.reads hc h.1

def asking (C : Conduct ε) (asks : Call → Prop) : Conduct ε where
  attends mode c := C.attends mode c ∧ asks c
  answers := C.answers
  hears := C.hears
  reads hc h := C.reads hc.1 h

theorem giving_true (C : Conduct ε) : (C.giving fun _ _ => True) = C := by
  cases C
  simp [giving]

variable {C : Conduct ε} {c : Call} {e : ε} {able : Prop} {good : c.Answer → Prop}

theorem Reads.recording (h : C.Reads c e able good) (hc : c.isSubmission = false) (l : List Call) :
    C.recording.Reads c (e, l) able good where
  attends op := ⟨h.attends op, fun hsub => by rw [hc] at hsub; cases hsub⟩
  answers ha := h.answers ha.1

theorem Reads.giving {gives : (c : Call) → Relayed c.Answer → Prop} (h : C.Reads c e able good) :
    (C.giving gives).Reads c e able fun a => good a ∧ gives c (.ok a) where
  attends := h.attends
  answers {r e'} ha := by
    have hserved := h.answers ha.1
    cases r with
    | ok a => exact ⟨hserved, ha.2⟩
    | error x => exact hserved

theorem Reads.asking {asks : Call → Prop} (h : C.Reads c e able good) (hc : asks c) :
    (C.asking asks).Reads c e able good where
  attends op := ⟨h.attends op, hc⟩
  answers := h.answers

theorem Reads.mono {good' : c.Answer → Prop} (h : C.Reads c e able good) (hgood : ∀ a, good a → good' a) :
    C.Reads c e able good' where
  attends := h.attends
  answers {r e'} ha := by
    have hserved := h.answers ha
    cases r with
    | ok a => exact hgood a hserved
    | error x => exact hserved

end Peer.Conduct

namespace Program

variable {C : Conduct ε} {p : Program α} {faulty : Prop}

theorem Ensures.of_recording {e : ε} {l : List Call} {Q : α → ε × List Call → Prop}
    (h : p.Ensures (C.recording.failing faulty) (e, l) Q) :
    p.Ensures (C.failing faulty) e fun a e' => ∃ l', Q a (e', l') := by
  induction p generalizing e l with
  | done a => exact ⟨l, h⟩
  | note ev next ih => exact ih h
  | ask mode c next ih =>
    refine ⟨h.1.1, fun r e' hr => ?_⟩
    obtain hr | ⟨hf, hx, rfl | ⟨r', hr⟩⟩ := hr
    · exact ih r (h.2 r (e', l ++ c.taken r) (.inl ⟨hr, rfl⟩))
    · exact ih r (h.2 r (e', l) (.inr ⟨hf, hx, .inl rfl⟩))
    · exact ih r (h.2 r (e', l ++ c.taken r') (.inr ⟨hf, hx, .inr ⟨r', hr, rfl⟩⟩))

/-- A program that asks some calls only needs peers that attend to these. -/
theorem Ensures.of_asking {asks : Call → Prop} {e : ε} {Q : α → ε → Prop}
    (h : p.Ensures ((C.asking asks).failing faulty) e Q) : p.Ensures (C.failing faulty) e Q := by
  induction p generalizing e with
  | done a => exact h
  | note ev next ih => exact ih h
  | ask mode c next ih => exact ⟨h.1.1, fun r e' hr => ih r (h.2 r e' hr)⟩

/-- A program that only reads does on record what it does, and leaves the record as it is. -/
theorem Ensures.on_record {e : ε} {l : List Call} {Q : α → ε → Prop}
    (h : p.Ensures ((C.asking fun c => c.isSubmission = false).failing faulty) e Q) :
    p.Ensures (C.recording.failing faulty) (e, l) fun a q => Q a q.1 ∧ q.2 = l := by
  induction p generalizing e with
  | done a => exact ⟨h, rfl⟩
  | note ev next ih => exact ih h
  | ask mode c next ih =>
    obtain ⟨⟨hatt, hread⟩, hnext⟩ := h
    have hstays : ∀ r : Relayed c.Answer, l ++ c.taken r = l := by
      intro r
      rw [Call.taken_of_not_submission hread, List.append_nil]
    refine ⟨⟨hatt, fun hsub => absurd hsub (by simp [hread])⟩, fun r q hr => ?_⟩
    obtain ⟨hans, hrecord⟩ | ⟨hf, hx, rfl | ⟨r', hans, hrecord⟩⟩ := hr
    · obtain ⟨e', l'⟩ := q
      obtain rfl : l' = l := hrecord.trans (hstays r)
      exact ih r (hnext r e' (.inl hans))
    · exact ih r (hnext r e (.inr ⟨hf, hx, .inl rfl⟩))
    · obtain ⟨e', l'⟩ := q
      obtain rfl : l' = l := hrecord.trans (hstays r')
      exact ih r (hnext r e' (.inr ⟨hf, hx, .inr ⟨r', hans⟩⟩))

end Program

/-! ## Cycles -/

namespace Cycle

variable {C : Conduct ε} {x : Cycle σ α} {s : σ} {e : ε}

theorem Ensures.of_recording {faulty : Prop} {l : List Call} {ok : α → σ → ε × List Call → Prop}
    {err : RelayError → σ → ε × List Call → Prop}
    (h : x.Ensures (C.recording.failing faulty) s (e, l) ok err) :
    x.Ensures (C.failing faulty) s e (fun a s' e' => ∃ l', ok a s' (e', l'))
      fun y s' e' => ∃ l', err y s' (e', l') :=
  Program.Ensures.mono (Program.Ensures.of_recording h) fun
    | (.ok _, _), _, h => h
    | (.error _, _), _, h => h

theorem Ensures.on_record {faulty : Prop} {l : List Call} {ok : α → σ → ε → Prop}
    {err : RelayError → σ → ε → Prop}
    (h : x.Ensures ((C.asking fun c => c.isSubmission = false).failing faulty) s e ok err) :
    x.Ensures (C.recording.failing faulty) s (e, l) (fun a s' q => ok a s' q.1 ∧ q.2 = l)
      fun y s' q => err y s' q.1 ∧ q.2 = l :=
  Program.Ensures.mono (Program.Ensures.on_record h) fun
    | (.ok _, _), _, h => h
    | (.error _, _), _, h => h

theorem Ensures.of_asking {faulty : Prop} {asks : Call → Prop} {ok : α → σ → ε → Prop}
    {err : RelayError → σ → ε → Prop} (h : x.Ensures ((C.asking asks).failing faulty) s e ok err) :
    x.Ensures (C.failing faulty) s e ok err :=
  Program.Ensures.of_asking h

def Asks (C : Conduct ε) (asks : Call → Prop) (x : Cycle σ α) (s : σ) (e : ε) : Prop :=
  x.Ensures (C.asking asks) s e (fun _ _ _ => True) fun _ _ _ => True

/-- What cycles leave that each end in an error. -/
inductive Aborted (C : Conduct ε) (x : Cycle σ α) (s₀ : σ) (e₀ : ε) : σ → ε → Prop where
  | start : Aborted C x s₀ e₀ s₀ e₀
  | cycle {s e y s' e'} : Aborted C x s₀ e₀ s e → (x.start s).Runs C e (.error y, s') e' →
    Aborted C x s₀ e₀ s' e'

/-- **Invariants.** What a cycle that fails keeps, failing cycles keep. -/
theorem Aborted.keeps {s₀ : σ} {e₀ : ε} {I : σ → ε → Prop} {ok : σ → ε → α → σ → ε → Prop}
    (hstart : I s₀ e₀) (hcycle : ∀ s e, I s e → x.Ensures C s e (ok s e) fun _ s' e' => I s' e')
    (h : Aborted C x s₀ e₀ s e) : I s e := by
  induction h with
  | start => exact hstart
  | cycle _ hrun ih => exact (hcycle _ _ ih).of_runs hrun

end Cycle

/-! ## Timed runs -/

theorem Sim.Network.handler_late {w : World Network} {c : Call} {d : Nat} (hq : w.peers.Quiet)
    (hd : d < w.now) :
    handler c (some d) w = (.unanswered, { w with now := d, peers := w.peers.noted w.now c }) := by
  unfold Quiet at hq
  have hlate : ¬ w.now + sleepTime 0 ≤ d := by omega
  simp [handler, bind, Timed.andThen, Timed.now, Timed.onPeers, begin, hq, Fault.apply, Fault.none,
    Timed.sleep, hlate, noted]

/-- A quiet network keeps to the conduct that it embodies, also when calls come late. -/
theorem Peer.Conduct.Embodies.governs {C : Conduct ε} {R : Sim.Network → ε → Prop} (hC : C.Embodies R)
    (hpausing : ∀ {e} op seconds, C.hears (Retry.pausing op seconds) e = e)
    (hexhausted : ∀ {e} op attempts x, C.hears (Retry.exhausted op attempts x) e = e)
    (hfailed : ∀ {e} op attempt delay x, C.hears (Retry.failed op attempt delay x) e = e) :
    C.Governs Sim.Network.handler fun w e => R w.peers e := by
  have hcases : ∀ {w : World Sim.Network} {e mode c} deadline, R w.peers e → C.attends mode c →
      (∃ now, Sim.Network.handler c deadline w =
        (.unanswered, { w with now := now, peers := w.peers.noted w.now c })) ∨
      ∃ r n' e', Sim.Network.handler c deadline w = (.done r, { w with peers := n' }) ∧
        C.answers c e r e' ∧ R n' e' := by
    intro w e mode c deadline hw hc
    by_cases hlate : ∃ d, deadline = some d ∧ d < w.now
    · obtain ⟨d, rfl, hlt⟩ := hlate
      exact .inl ⟨d, Sim.Network.handler_late (hC.quiet hw) hlt⟩
    · have hintime : ∀ d, deadline = some d → w.now ≤ d :=
        fun d hd => Nat.le_of_not_lt fun hlt => hlate ⟨d, hd, hlt⟩
      obtain ⟨r, n', e', hs, -, hans, hR⟩ := hC.serves (hC.noted w.now c hw) hc
      exact .inr ⟨r, n', e', Sim.Network.handler_eq (hC.quiet hw) hs hintime, hans, hR⟩
  refine ⟨?_, ?_, fun _ hw => hw, fun _ hw => hw, fun _ hw => hC.hears hw, hpausing, hexhausted, hfailed⟩
  · intro w e mode c deadline r w' hw hc h
    obtain ⟨now, hlate⟩ | ⟨r', n', e', hdone, hans, hR⟩ := hcases deadline hw hc
    · cases hlate.symm.trans h
    · cases hdone.symm.trans h
      exact ⟨e', .inl hans, hR⟩
  · intro w e mode c deadline w' hw hc h
    obtain ⟨now, hlate⟩ | ⟨r', n', e', hdone, hans, hR⟩ := hcases deadline hw hc
    · cases hlate.symm.trans h
      exact ⟨e, .inl rfl, hC.noted w.now c hw⟩
    · cases hdone.symm.trans h

theorem Peer.Conduct.Governs.cycle {C : Conduct ε} {R : World Sim.Network → ε → Prop}
    (hC : C.Governs Sim.Network.handler R) {followed : Nat} {policy : Policy} {x : Cycle σ α} {s : σ} {e : ε}
    {w w' : World Sim.Network} {r : Relayed α × σ} {ok : α → σ → ε → Prop} {err : RelayError → σ → ε → Prop}
    (h : x.Ensures (C.failing True) s e ok err) (hw : R w e)
    (hrun : Sim.Network.cycle followed policy x s w = (.done r, w')) :
    ∃ e', (x.start s).Runs (C.failing True) e r e' ∧ R w' e' :=
  hC.runs h hw hrun

theorem Peer.Conduct.Governs.recording {C : Conduct ε} {H : Peer.Handler σ} {R : World σ → ε → Prop}
    (hC : C.Governs H R) : C.recording.Governs H fun w p => R w p.1 := by
  refine ⟨?_, ?_, fun now hw => hC.waits now hw, fun retries hw => hC.counts retries hw,
    fun ev hw => hC.notes ev hw, fun op seconds => ?_, fun op attempts x => ?_, fun op attempt delay x => ?_⟩
  · intro w p mode c deadline r w' hw hc h
    obtain ⟨e', hans, hw'⟩ := hC.done hw hc.1 h
    obtain hans | ⟨hf, hx, rfl | ⟨r', hans⟩⟩ := hans
    · exact ⟨(e', p.2 ++ c.taken r), .inl ⟨hans, rfl⟩, hw'⟩
    · exact ⟨p, .inr ⟨hf, hx, .inl rfl⟩, hw'⟩
    · exact ⟨(e', p.2 ++ c.taken r'), .inr ⟨hf, hx, .inr ⟨r', hans, rfl⟩⟩, hw'⟩
  · intro w p mode c deadline w' hw hc h
    obtain ⟨e', rfl | ⟨r, hans⟩, hw'⟩ := hC.unanswered hw hc.1 h
    · exact ⟨p, .inl rfl, hw'⟩
    · exact ⟨(e', p.2 ++ c.taken r), .inr ⟨r, hans, rfl⟩, hw'⟩
  · exact Prod.ext (hC.pausing op seconds) rfl
  · exact Prod.ext (hC.exhausted op attempts x) rfl
  · exact Prod.ext (hC.failed op attempt delay x) rfl

theorem Peer.Conduct.Embodies.giving {C : Conduct ε} {R : Sim.Network → ε → Prop} (hC : C.Embodies R)
    {gives : (c : Call) → Relayed c.Answer → Prop}
    (hgives : ∀ {n e c r n'}, R n e → n.serve c = (some r, n') → gives c r) :
    (C.giving gives).Embodies R where
  quiet := hC.quiet
  noted := hC.noted
  hears := hC.hears
  serves hw hc := by
    obtain ⟨r, n', e', hs, hfinal, hans, hR⟩ := hC.serves hw hc
    exact ⟨r, n', e', hs, hfinal, ⟨hans, hgives hw hs⟩, hR⟩

/-- A cycle in which the answers to submissions are lost, and another without faults: what the two leave, if
the first fails and the second does not. -/
def Sim.Network.lostThenSound (followed : Nat) (policy : Policy) (x : Cycle σ α) (s : σ)
    (w : World Sim.Network) : Option ((σ × World Sim.Network) × σ × World Sim.Network) :=
  match (x.start s).run followed policy (handler.losing Call.isSubmission (.timeout policy.timeout)) none w with
  | (.done (.error _, s₁), w₁) =>
    match cycle followed policy x s₁ w₁ with
    | (.done (.ok _, s₂), w₂) => some ((s₁, w₁), s₂, w₂)
    | _ => none
  | _ => none

/-- Two such cycles are cycles over peers on record. -/
theorem Peer.Conduct.Governs.lostThenSound {C : Conduct ε} {R : World Sim.Network → ε → Prop}
    (hC : C.Governs Sim.Network.handler R) {followed : Nat} {policy : Policy} {x : Cycle σ α} {s s₁ s₂ : σ}
    {e : ε} {w w₁ w₂ : World Sim.Network} {I : σ → ε × List Call → Prop} (hstart : I s (e, []))
    (hcycle : ∀ s p, I s p →
      x.Ensures (C.recording.failing True) s p (fun _ _ _ => True) fun _ s' p' => I s' p')
    (hw : R w e)
    (hrun : Sim.Network.lostThenSound followed policy x s w = some ((s₁, w₁), s₂, w₂)) :
    ∃ p₁ a p₂, Cycle.Aborted (C.recording.failing True) x s (e, []) s₁ p₁ ∧ R w₁ p₁.1 ∧
      (x.start s₁).Runs (C.recording.failing True) p₁ (.ok a, s₂) p₂ ∧ R w₂ p₂.1 := by
  unfold Sim.Network.lostThenSound at hrun
  split at hrun
  · rename_i y s₁' w₁' hlost
    split at hrun
    · rename_i a s₂' w₂' hsound
      cases hrun
      obtain ⟨p₁, hruns₁, hw₁⟩ := (hC.losing _ _).recording.runs (hcycle s (e, []) hstart) hw hlost
      have haborted : Cycle.Aborted (C.recording.failing True) x s (e, []) s₁ p₁ :=
        .cycle .start hruns₁
      obtain ⟨p₂, hruns₂, hw₂⟩ :=
        hC.recording.cycle (hcycle s₁ p₁ (haborted.keeps hstart hcycle)) hw₁ hsound
      exact ⟨p₁, a, p₂, haborted, hw₁, hruns₂, hw₂⟩
    · cases hrun
  · cases hrun

end HeaderRelay
