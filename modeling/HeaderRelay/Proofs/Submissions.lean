import HeaderRelay.Proofs.RunPaths
import Mathlib.Data.List.Forall2
import Mathlib.Data.List.Induction

/-!
# Submissions are made once

What a cycle has to submit is determined by the calls that it has made: a `Plan` says what that is after some calls,
and which call submits one item. A cycle of which every submission is the next of its plan submits each item at most
once, and in order (`Plan.Follows`); if it yields, the first submission that fails ends it. `Cycle.View.SubmitsOnce`
says so of every timed run, against all peers and under every policy.
-/
namespace HeaderRelay

open Peer (Call Conduct Handler Exchange)

variable {ρ σ α π : Type}

/-! ## Plans -/

/-- What is to be submitted, as far as the calls made so far determine it, and by which call. -/
structure Plan (σ π : Type) where
  planned : List (Move σ) → List π
  carries : π → Call → Prop

namespace Plan

variable {P : Plan σ π} {moves : List (Move σ)}

/-- After `moves`, a submission is the one of the first item that is left. -/
def Next (P : Plan σ π) (moves : List (Move σ)) (c : Call) : Prop :=
  c.isSubmission = true → ∃ done item rest, P.planned moves = done ++ item :: rest ∧
    List.Forall₂ P.carries done (submissionsOf (moves.map Move.call)) ∧ P.carries item c

/-- The calls submit, one each, the first items of what was planned when the last of them was made. -/
def Follows (P : Plan σ π) (moves : List (Move σ)) (calls : List Call) : Prop :=
  ∃ upTo done, upTo <+: moves ∧ done <+: P.planned upTo ∧ List.Forall₂ P.carries done calls

theorem next_of_read {c : Call} (h : c.isSubmission = false) : P.Next moves c :=
  fun hsub => absurd hsub (by simp [h])

theorem Next.follows {c : Call} (h : P.Next moves c) (hc : c.isSubmission = true) :
    P.Follows moves (submissionsOf (moves.map Move.call) ++ [c]) := by
  obtain ⟨done, item, rest, hplanned, hdone, hitem⟩ := h hc
  refine ⟨moves, done ++ [item], List.prefix_rfl, ⟨rest, by rw [hplanned, List.append_assoc]; rfl⟩, ?_⟩
  exact List.rel_append hdone (.cons hitem .nil)

theorem follows_of_next (h : ∀ before m after, moves = before ++ m :: after → P.Next before m.call) :
    P.Follows moves (submissionsOf (moves.map Move.call)) := by
  induction moves using List.reverseRecOn with
  | nil => exact ⟨[], [], List.prefix_rfl, List.nil_prefix, .nil⟩
  | append_singleton moves m ih =>
    rw [List.map_append, submissionsOf_append]
    cases hm : m.call.isSubmission with
    | true =>
      obtain ⟨upTo, done, hupTo, hdone, hcarries⟩ := (h moves m [] rfl).follows hm
      have hone : submissionsOf ([m].map Move.call) = [m.call] := by simp [submissionsOf, hm]
      exact ⟨upTo, done, hupTo.trans (List.prefix_append ..), hdone, by rwa [hone]⟩
    | false =>
      obtain ⟨upTo, done, hupTo, hdone, hcarries⟩ := ih fun before m' after heq =>
        h before m' (after ++ [m]) (by rw [heq, List.append_assoc]; rfl)
      have hnone : submissionsOf ([m].map Move.call) = [] := by simp [submissionsOf, hm]
      exact ⟨upTo, done, hupTo.trans (List.prefix_append ..), hdone, by rwa [hnone, List.append_nil]⟩

end Plan

/-- In every timed run of the cycle, whatever the peers do, the submissions on record are those of the plan, each
item's made at most once; and after a submission that fails there is no further exchange, its error is that of the
cycle, and the engine remembers what it remembered when it made that submission. -/
def Cycle.View.SubmitsOnce {x : Cycle σ α} (v : x.View) (P : Plan σ π) : Prop :=
  ∀ (ρ : Type) (H : Handler ρ) (followed : Nat) (policy : Policy) (s : σ) (w w' : World (ρ × List (Exchange ρ)))
    (o : Outcome (Relayed α × σ)), w.record = [] → (x.start s).run followed policy H.recorded none w = (o, w') →
    ∃ moves, (v.begun s).Went H policy.timeout moves w'.record o ∧
      P.Follows moves (submissionsOf (w'.record.map Exchange.call).reverse) ∧
      ∀ before m after e, moves = before ++ m :: after → m.call.isSubmission = true → m.answer = .error e →
        after = [] ∧ o = .done (.error e, m.held) ∧
          ∃ latest earlier, w'.record = latest :: earlier ∧ latest.call = m.call

/-- A cycle that is sure to submit the next of its plan only. -/
theorem Cycle.View.submitsOnce {x : Cycle σ α} {v : x.View} {P : Plan σ π}
    (h : ∀ s, v.Ensures .everyone (fun moves _ c => P.Next moves c) [] s () (fun _ _ _ _ => True)
      fun _ _ _ _ => True) : v.SubmitsOnce P := by
  intro ρ H followed policy s w w' o hw hrun
  rw [← v.program_begun] at hrun
  obtain ⟨moves, l, hl, hwent⟩ := InProgress.run_went hrun
  rw [hw, List.append_nil] at hl
  subst hl
  refine ⟨moves, hwent, ?_, fun before m after e heq hm he => ?_⟩
  · obtain hsub | ⟨s', mode, c, next, hto, hc, hsub⟩ := hwent.submissions (v.yields s)
    · rw [hsub]
      refine Plan.follows_of_next fun before m after heq => ?_
      obtain ⟨t', hreaches⟩ := hwent.reaches
      rw [heq] at hreaches
      exact (h s).asked hreaches
    · rw [hsub]
      have hnext : P.Next moves c := ((h s).of_reaches hto).1.2
      exact hnext.follows hc
  · subst heq
    exact hwent.last (v.yields s) hm he

/-! ## Calls that are no part of a plan -/

theorem submissionsOf_moves {moves new : List (Move σ)} (h : ∀ m ∈ new, m.call.isSubmission = false) :
    submissionsOf ((moves ++ new).map Move.call) = submissionsOf (moves.map Move.call) := by
  have hnone : submissionsOf (new.map Move.call) = [] := by
    rw [submissionsOf, List.filter_eq_nil_iff]
    intro c hc
    obtain ⟨m, hm, rfl⟩ := List.mem_map.mp hc
    simp [h m hm]
  rw [List.map_append, submissionsOf_append, hnone, List.append_nil]

theorem find?_aside {kind : Call → Bool} {new : List (Move σ)} (h : ∀ m ∈ new, kind m.call = false) :
    new.find? (fun m => kind m.call) = none := by
  rw [List.find?_eq_none]
  intro m hm
  simp [h m hm]

/-- Whatever they answer to a read, the peers stay as they are. -/
theorem ensures_read_stays {ε : Type} {C : Conduct ε} {P : Call → Prop} {s : σ} {e : ε} {op : String} {c : Call}
    {ok : c.Answer → σ → ε → Prop} {err : RelayError → σ → ε → Prop} (hc : C.attends (.read op) c ∧ P c)
    (hok : ∀ a, ok a s e) (herr : ∀ x, err x s e) :
    (Cycle.read op c : Cycle σ c.Answer).Ensures (C.asking P) s e ok err := by
  refine Cycle.ensures_read.mpr ⟨hc, fun a e' h => ?_, fun x e' h => ?_⟩
  · rw [C.reads hc.1 h]
    exact hok a
  · rw [C.reads hc.1 h]
    exact herr x

theorem everyone_read {P : Call → Prop} {s : σ} {op : String} {c : Call} {ok : c.Answer → σ → Unit → Prop}
    {err : RelayError → σ → Unit → Prop} (hc : P c) (hok : ∀ a, ok a s ()) (herr : ∀ x, err x s ()) :
    (Cycle.read op c : Cycle σ c.Answer).Ensures (Conduct.everyone.asking P) s () ok err :=
  ensures_read_stays ⟨trivial, hc⟩ hok herr

end HeaderRelay
