import HeaderRelay.Proofs.LayeredReads

/-!
# Pauses in two layers

When the channel asks for a pause, it is the adapter that waits, inside an attempt of the engine whose deadline
goes on running. `Follows` says what comes after a query that was answered so: the pause ends in time and the same
attempt goes on, or the deadline cuts it short, the attempt counts as failed and another one starts. A `Course` is a
record of queries in which each follows the one before in this way; every read leaves one (`course_of_read`).

So a pause is kept, by a query at its end and without an attempt being used up, exactly if it ends before the
deadline of the attempt in which it was asked for, and is not longer than any sleep can be (`pause_kept_iff`).
-/
namespace HeaderRelay

open Peer (Call Handler Exchange)

variable {σ α : Type}

namespace Channel

/-! ## What comes after a query -/

/-- After the query `e`, the next one is sent in the world `v` under a deadline. -/
inductive Follows (policy : Policy) (op : String) (e : Exchange σ) (v : World σ) : Option Nat → Prop where
  /-- In the same attempt: a pause that was asked for has been kept. -/
  | again : (∀ seconds, e.limit? = some seconds →
      InTime e.deadline (e.ended + sleepTime (seconds * 1000)) ∧
        ∃ action, v = e.after.paused (Retry.pausing action seconds) (e.ended + sleepTime (seconds * 1000))) →
    Follows policy op e v e.deadline
  /-- In the next attempt: a pause that was asked for has been cut short, and the attempt has failed. -/
  | attempt : (∀ seconds, e.limit? = some seconds →
      ∃ due action failures, e.deadline = some due ∧ due < e.ended + sleepTime (seconds * 1000) ∧
        failures + 1 < policy.attempts ∧
        v = (e.after.paused (Retry.pausing action seconds) due).paused
          (Retry.failed op (failures + 1) (pauseAfter policy.backoff (failures + 1)) (.timeout policy.timeout))
          (due + policy.pause (failures + 1))) →
    Follows policy op e v (some (v.now + policy.timeout))

/-- The next query may be sent in the world `v` under the deadline `d`. -/
def Ready (policy : Policy) (op : String) (record : List (Exchange σ)) (v : World σ) (d : Option Nat) : Prop :=
  match record with
  | [] => d = some (v.now + policy.timeout)
  | e :: _ => Follows policy op e v d

/-- The queries of a read, latest first. -/
inductive Course (policy : Policy) (op : String) : List (Exchange σ) → Prop where
  | nil : Course policy op []
  | sent {e l} : Ready policy op l e.before e.deadline → Course policy op l → Course policy op (e :: l)

section Course

variable {policy : Policy} {op : String} {l later : List (Exchange σ)} {e : Exchange σ}

theorem Course.of_append (h : Course policy op (later ++ l)) : Course policy op l := by
  induction later with
  | nil => exact h
  | cons e later ih =>
    cases h with
    | sent _ h => exact ih h

theorem Course.deadline (h : Course policy op (e :: l)) :
    ∃ due, e.deadline = some due ∧ ∃ g ∈ e :: l, g.deadline = some due ∧ due = g.sent + policy.timeout := by
  induction l generalizing e with
  | nil =>
    cases h with
    | sent hready _ => exact ⟨_, hready, e, by simp, hready, rfl⟩
  | cons e' l ih =>
    cases h with
    | sent hready h =>
      obtain ⟨due, hdue, g, hg, hgdue⟩ := ih h
      generalize hd : e.deadline = d at hready
      cases hready with
      | again => exact ⟨due, by rw [hdue], g, List.mem_cons_of_mem _ hg, hgdue⟩
      | attempt => exact ⟨_, rfl, e, by simp, hd, rfl⟩

end Course

/-! ## Reads leave courses -/

section Reads

variable {policy : Policy} {op action : String} {c : Call} {H : Handler σ} {w w' : World (σ × List (Exchange σ))}

theorem course_of_query {due : Nat} {o : Outcome (Relayed c.Answer)} (hH : H.Punctual)
    (h : Timed.within policy.timeout (H.recorded c) (some due) w = (o, w')) (hdue : due ≤ w.now + policy.timeout)
    (hcourse : Course policy op w.record) (hready : Ready policy op w.record w.bare (some due)) :
    ∃ e, w'.record = e :: w.record ∧ w'.bare = e.after ∧ w'.now = e.ended ∧ e.deadline = some due ∧
      Course policy op (e :: w.record) ∧
      ∀ seconds, e.limit? = some seconds → o = .done (.error (.rateLimited seconds)) := by
  obtain ⟨d, o₁, after, hd, hcall, rfl, ho⟩ := Peer.Handler.within_recorded_cases hH h
  obtain rfl : d = due := by
    obtain ⟨hown, hin⟩ | ⟨hd, -⟩ := hd
    · rw [inTime_some] at hin
      omega
    · exact (Option.some.inj hd).symm
  refine ⟨_, rfl, rfl, rfl, rfl, .sent hready hcourse, fun seconds hseconds => ?_⟩
  have ho₁ := Peer.Exchange.limit?_eq_some.mp hseconds
  obtain rfl | ⟨hun, -⟩ := ho
  · exact ho₁
  · cases hun.symm.trans ho₁

/-- The pause of `seconds` for which `e` asked was cut short. -/
def CutShort (seconds : Nat) (e : Exchange σ) (v : World σ) : Prop :=
  ∃ due action, e.deadline = some due ∧ due < e.ended + sleepTime (seconds * 1000) ∧
    v = e.after.paused (Retry.pausing action seconds) due

/-- One run of the adapter's loop: it goes on as long as pauses are kept. -/
theorem course_of_run {due fuel failures : Nat} {deadline : Option Nat} {o : Outcome (Relayed c.Answer)}
    (hH : H.Punctual)
    (h : Retry.Runs action policy.attempts (pauseAfter policy.backoff) (Timed.within policy.timeout (H.recorded c))
      deadline fuel failures w o w') (hdeadline : deadline = some due) (hin : InTime deadline w.now)
    (hdue : due ≤ w.now + policy.timeout) (hcourse : Course policy op w.record)
    (hready : Ready policy op w.record w.bare (some due)) :
    Course policy op w'.record ∧ (o = .unfollowed ∨ ∃ e l, w'.record = e :: l ∧
      ∀ seconds, e.limit? = some seconds → o = .unanswered ∧ CutShort seconds e { w'.bare with now := due }) := by
  subst hdeadline
  induction h with
  | @final fuel failures w r w₁ hcall hfinal =>
    obtain ⟨e, hrecord, -, -, -, hsent, hlimited⟩ := course_of_query hH hcall hdue hcourse hready
    refine ⟨hrecord ▸ hsent, .inr ⟨e, _, hrecord, fun seconds hseconds => ?_⟩⟩
    cases hlimited seconds hseconds
    exact absurd (hfinal _ rfl) (by simp [RelayError.isTransient, RelayError.kind])
  | @exhausted fuel failures w x w₁ hcall _ hne _ =>
    obtain ⟨e, hrecord, -, -, -, hsent, hlimited⟩ := course_of_query hH hcall hdue hcourse hready
    refine ⟨hrecord ▸ hsent, .inr ⟨e, _, hrecord, fun seconds hseconds => ?_⟩⟩
    cases hlimited seconds hseconds
    exact absurd rfl (hne seconds)
  | @again fuel failures w x w₁ ev pause failures' o w' hcall hagain hpause _ ih =>
    obtain ⟨e, hrecord, hbare, hnow, hown, hsent, hlimited⟩ := course_of_query hH hcall hdue hcourse hready
    have honward := ((hH.recorded c).within policy.timeout).onward hcall hin
    refine ih ?_ ?_ ?_ hpause
    · show due ≤ w₁.now + sleepTime pause + policy.timeout
      omega
    · rw [World.record_paused, hrecord]
      exact hsent
    · rw [World.record_paused, World.bare_paused, hrecord, hbare, ← hown]
      refine .again fun seconds hseconds => ?_
      cases hlimited seconds hseconds
      cases hagain with
      | limited => exact ⟨by rw [hown, ← hnow]; exact hpause, action, by rw [hnow]⟩
      | failed _ hne _ => exact absurd rfl (hne seconds)
  | @cut fuel failures w x w₁ ev pause failures' d hcall hagain hd hlate =>
    obtain ⟨e, hrecord, hbare, hnow, hown, hsent, hlimited⟩ := course_of_query hH hcall hdue hcourse hready
    rw [World.record_paused, World.bare_paused, hrecord, hbare]
    refine ⟨hsent, .inr ⟨e, _, rfl, fun seconds hseconds => ⟨rfl, ?_⟩⟩⟩
    cases hlimited seconds hseconds
    cases hd
    cases hagain with
    | limited => exact ⟨due, action, hown, by rw [← hnow]; exact hlate, rfl⟩
    | failed _ hne _ => exact absurd rfl (hne seconds)
  | @unanswered fuel failures w w₁ hcall =>
    obtain ⟨e, hrecord, -, -, -, hsent, hlimited⟩ := course_of_query hH hcall hdue hcourse hready
    refine ⟨hrecord ▸ hsent, .inr ⟨e, _, hrecord, fun seconds hseconds => ?_⟩⟩
    cases hlimited seconds hseconds
  | lost hcall => exact absurd rfl (((hH.recorded c).within policy.timeout).followed hcall)
  | unfollowed => exact ⟨hcourse, .inl rfl⟩

/-- One attempt of the engine. Only a pause that is cut short is left of it, and it is one more failure. -/
theorem course_of_attempt {finish : c.Answer → Relayed α} {followed : Nat} {o : Outcome (Relayed α)}
    (hH : H.Punctual) (hfinish : ∀ a, (finish a).Final)
    (h : Timed.within policy.timeout
      (policy.read followed action (H.recorded c) >>= fun r => pure (r >>= finish)) none w = (o, w'))
    (hcourse : Course policy op w.record)
    (hready : Ready policy op w.record w.bare (some (w.now + policy.timeout))) :
    Course policy op w'.record ∧ (o = .unfollowed ∨ ∃ e l, w'.record = e :: l ∧
      ∀ seconds, e.limit? = some seconds →
        o = .done (.error (.timeout policy.timeout)) ∧ CutShort seconds e w'.bare) := by
  obtain ⟨o₁, w₁, hruns, hattempted⟩ := attempt_runs hfinish h
  obtain ⟨hcourse₁, hend⟩ := course_of_run hH hruns rfl (inTime_some.mpr (Nat.le_add_right _ _)) (Nat.le_refl _)
    hcourse hready
  cases hattempted with
  | answered | failed =>
    obtain ho | ⟨e, l, hrecord, hlast⟩ := hend
    · cases ho
    · refine ⟨hcourse₁, .inr ⟨e, l, hrecord, fun seconds hseconds => ?_⟩⟩
      cases (hlast seconds hseconds).1
  | late =>
    obtain ho | ⟨e, l, hrecord, hlast⟩ := hend
    · cases ho
    · exact ⟨hcourse₁, .inr ⟨e, l, hrecord, fun seconds hseconds => ⟨rfl, (hlast seconds hseconds).2⟩⟩⟩
  | unfollowed => exact ⟨hcourse₁, .inl rfl⟩

/-- **A read.** Its queries are a course, and if the last of them was answered by a request for a pause, the read
ends because the pause was cut short. -/
theorem course_of_read {finish : c.Answer → Relayed α} {followed fuel failures : Nat} {o : Outcome (Relayed α)}
    (hH : H.Punctual) (hfinish : ∀ a, (finish a).Final)
    (h : Retry.Runs op policy.attempts (pauseAfter policy.backoff)
      (Timed.within policy.timeout
        (policy.read followed action (H.recorded c) >>= fun r => pure (r >>= finish))) none fuel failures w o w')
    (hcourse : Course policy op w.record)
    (hready : Ready policy op w.record w.bare (some (w.now + policy.timeout))) :
    Course policy op w'.record ∧ (o = .unfollowed ∨ ∃ e l, w'.record = e :: l ∧
      ∀ seconds, e.limit? = some seconds → o = .done (.error (.timeout policy.timeout)) ∧
        e.deadline = some w'.now ∧ w'.now < e.ended + sleepTime (seconds * 1000)) := by
  induction h with
  | @final fuel failures w r w₁ hcall hfinal =>
    obtain ⟨hcourse₁, ho | ⟨e, l, hrecord, hlast⟩⟩ := course_of_attempt hH hfinish hcall hcourse hready
    · cases ho
    · refine ⟨hcourse₁, .inr ⟨e, l, hrecord, fun seconds hseconds => ?_⟩⟩
      cases (hlast seconds hseconds).1
      exact absurd (hfinal _ rfl) (by simp [RelayError.isTransient, RelayError.kind])
  | @exhausted fuel failures w x w₁ hcall _ _ _ =>
    obtain ⟨hcourse₁, ho | ⟨e, l, hrecord, hlast⟩⟩ := course_of_attempt hH hfinish hcall hcourse hready
    · cases ho
    · refine ⟨hcourse₁, .inr ⟨e, l, hrecord, fun seconds hseconds => ?_⟩⟩
      obtain ⟨ho, due, action', hdue, hlate, hbare⟩ := hlast seconds hseconds
      have hnow : w₁.now = due := congrArg World.now hbare
      show _ ∧ e.deadline = some w₁.now ∧ w₁.now < _
      rw [hnow]
      exact ⟨ho, hdue, hlate⟩
  | @again fuel failures w x w₁ ev pause failures' o w' hcall hagain _ _ ih =>
    obtain ⟨hcourse₁, ho | ⟨e, l, hrecord, hlast⟩⟩ := course_of_attempt hH hfinish hcall hcourse hready
    · cases ho
    · refine ih hcourse₁ ?_
      rw [World.record_paused, World.bare_paused, hrecord]
      refine .attempt fun seconds hseconds => ?_
      obtain ⟨ho, due, action', hdue, hlate, hbare⟩ := hlast seconds hseconds
      have hnow : w₁.now = due := congrArg World.now hbare
      cases ho
      cases hagain with
      | failed _ _ hless => exact ⟨due, action', failures, hdue, hlate, hless, by rw [hbare, hnow]; rfl⟩
  | cut _ _ hd _ => cases hd
  | unanswered hcall => exact absurd rfl (Timed.within_none_ne_unanswered hcall)
  | lost hcall =>
    obtain ⟨hcourse₁, -⟩ := course_of_attempt hH hfinish hcall hcourse hready
    exact ⟨hcourse₁, .inl rfl⟩
  | unfollowed => exact ⟨hcourse, .inl rfl⟩

end Reads

theorem record_of_spot {policy : Policy} {op : String} {r : Relayed α} {fuel failures : Nat}
    {w w' : World (σ × List (Exchange σ))} {o : Outcome (Relayed α)} (hr : r.Final)
    (h : Retry.Runs op policy.attempts (pauseAfter policy.backoff) (Timed.within policy.timeout (pure r)) none fuel
      failures w o w') : w'.record = w.record := by
  have hspot : Timed.within policy.timeout (pure r) none w = (.done r, w) := rfl
  cases fuel with
  | zero =>
    cases h
    rfl
  | succ fuel => rw [(h.of_final hspot hr).2]

/-! ## Pauses that are kept -/

/-- The query `f` is sent `seconds` after the answer to `e`, and no attempt has failed in between. -/
def Resumes (seconds : Nat) (e f : Exchange σ) : Prop :=
  f.sent = e.ended + seconds * 1000 ∧ ∃ action, f.before.log = Retry.pausing action seconds :: e.after.log

/-- The query `f` belongs to the attempt after that of `e`, which failed because the pause of `seconds` lasted beyond
its deadline `due`. -/
def Restarts (policy : Policy) (op : String) (seconds due : Nat) (e f : Exchange σ) : Prop :=
  ∃ action failures, failures + 1 < policy.attempts ∧ f.sent = due + policy.pause (failures + 1) ∧
    f.before.log =
      Retry.failed op (failures + 1) (pauseAfter policy.backoff (failures + 1)) (.timeout policy.timeout) ::
        Retry.pausing action seconds :: e.after.log

theorem not_resumes_of_restarts {policy : Policy} {op : String} {seconds due : Nat} {e f : Exchange σ}
    (h : Restarts policy op seconds due e f) : ¬ Resumes seconds e f := by
  intro hresumes
  obtain ⟨action, failures, -, -, hlog⟩ := h
  obtain ⟨-, action', hlog'⟩ := hresumes
  have hlength := congrArg List.length (hlog.symm.trans hlog')
  simp at hlength

theorem Follows.cases_of_limited {policy : Policy} {op : String} {e f : Exchange σ} {seconds due : Nat}
    (h : Follows policy op e f.before f.deadline) (hlimited : e.limit? = some seconds) (hdue : e.deadline = some due) :
    (e.ended + sleepTime (seconds * 1000) ≤ due ∧ f.sent = e.ended + sleepTime (seconds * 1000) ∧
      ∃ action, f.before.log = Retry.pausing action seconds :: e.after.log) ∨
    (due < e.ended + sleepTime (seconds * 1000) ∧ Restarts policy op seconds due e f) := by
  generalize f.deadline = d at h
  cases h with
  | again hpause =>
    obtain ⟨hin, action, hbefore⟩ := hpause seconds hlimited
    rw [hdue, inTime_some] at hin
    exact .inl ⟨hin, congrArg World.now hbefore, action, congrArg World.log hbefore⟩
  | attempt hcut =>
    obtain ⟨due', action, failures, hdue', hlate, hless, hbefore⟩ := hcut seconds hlimited
    cases hdue.symm.trans hdue'
    exact .inr ⟨hlate, action, failures, hless, congrArg World.now hbefore, congrArg World.log hbefore⟩

/-- **Pauses.** For which the channel asks in an engine's read: the next query is sent when the pause is over, and
no attempt is used up, exactly if the pause ends before the deadline of the attempt and is no longer than any sleep
can be. A pause that lasts beyond the deadline is one more failed attempt, or the end of the read. -/
theorem pause_kept_iff {client : Client} {followed : Nat} {H : Handler σ} (hH : H.Punctual) {c : Call}
    (hc : c.readsContract = true) {op : String} {w w' : World (σ × List (Exchange σ))} {o : Outcome (Relayed c.Answer)}
    (h : layeredRead followed client H.recorded op c none w = (o, w')) (hw : w.record = [])
    {later earlier : List (Exchange σ)} {e : Exchange σ} (he : w'.record = later ++ e :: earlier)
    (hfollowed : later = [] → o ≠ .unfollowed) {seconds : Nat} (hlimited : e.limit? = some seconds) :
    ∃ due, e.deadline = some due ∧
      (∃ g ∈ e :: earlier, g.deadline = some due ∧ due = g.sent + client.config.policy.timeout) ∧
      ((∃ f, later.getLast? = some f ∧ Resumes seconds e f) ↔
        e.ended + seconds * 1000 ≤ due ∧ seconds * 1000 ≤ longestSleep) ∧
      (due < e.ended + sleepTime (seconds * 1000) →
        (∃ f, later.getLast? = some f ∧ Restarts client.config.policy op seconds due e f) ∨
          later = [] ∧ o = .done (.error (.timeout client.config.policy.timeout)) ∧ w'.now = due) := by
  obtain ⟨hcourse, hend⟩ : Course client.config.policy op w'.record ∧ (o = .unfollowed ∨ ∃ e l, w'.record = e :: l ∧
      ∀ seconds, e.limit? = some seconds → o = .done (.error (.timeout client.config.policy.timeout)) ∧
        e.deadline = some w'.now ∧ w'.now < e.ended + sleepTime (seconds * 1000)) := by
    have hreading := reading_overChannel followed client H.recorded hc
    unfold layeredRead at h
    generalize overChannel followed client H.recorded c = x at h hreading
    have hruns := Policy.read_runs h
    cases hreading with
    | spot hr =>
      rw [record_of_spot hr hruns, hw] at he
      exact absurd he.symm (by simp)
    | query action m finish hfinish =>
      exact course_of_read hH hfinish hruns (by rw [hw]; exact .nil) (by rw [hw]; rfl)
  rw [he] at hcourse
  obtain ⟨due, hdue, hfirst⟩ := hcourse.of_append.deadline
  refine ⟨due, hdue, hfirst, ?_⟩
  obtain rfl | ⟨newer, f, rfl⟩ := List.eq_nil_or_concat later
  · -- the last query of the read
    obtain ho | ⟨e', l, hrecord, hlast⟩ := hend
    · exact absurd ho (hfollowed rfl)
    · cases he.symm.trans hrecord
      obtain ⟨ho, hnow, hlate⟩ := hlast seconds hlimited
      cases hdue.symm.trans hnow
      refine ⟨?_, fun _ => .inr ⟨rfl, ho, rfl⟩⟩
      simp only [List.getLast?_nil, reduceCtorEq, false_and, exists_false, false_iff]
      intro hkept
      rw [sleepTime_of_le hkept.2] at hlate
      omega
  · rw [List.concat_eq_append, List.append_assoc] at hcourse
    have hfollows : Follows client.config.policy op e f.before f.deadline := by
      cases hcourse.of_append with
      | sent hready _ => exact hready
    simp only [List.concat_eq_append, List.getLast?_concat, Option.some.injEq, exists_eq_left']
    obtain ⟨hin, hsent, hlog⟩ | ⟨hlate, hrestarts⟩ := hfollows.cases_of_limited hlimited hdue
    · refine ⟨?_, fun hlate => absurd hin (Nat.not_le.mpr hlate)⟩
      constructor
      · intro hresumes
        have hsame := hresumes.1.symm.trans hsent
        unfold sleepTime at hsame hin
        omega
      · intro hkept
        exact ⟨by rw [hsent, sleepTime_of_le hkept.2], hlog⟩
    · refine ⟨?_, fun _ => .inl hrestarts⟩
      constructor
      · intro hresumes
        exact absurd hresumes (not_resumes_of_restarts hrestarts)
      · intro hkept
        rw [sleepTime_of_le hkept.2] at hlate
        omega

def restingPeers : Sim.Network :=
  { (default : Sim.Network) with
    messages := (Sim.Messages.new.failQueries 1 (.rateLimited 5)).answerQueries "best_header"
      (.answer (.obj [("height", .nat 7), ("hash", .str "00")])) }

def restingRead (limit : Nat) :
    Outcome (Relayed Nat) × World (Sim.Network × List (Exchange Sim.Network)) :=
  layeredRead 3 ⟨"contract", "relayer", ⟨256, 16, limit, 3, 10⟩⟩ Sim.Network.handler.recorded "btc_lc.best_height"
    (.bitcoinClient .bestHeight) none ⟨0, [], 0, (restingPeers, [])⟩

def times (e : Exchange σ) : Nat × Nat × Option Nat × Option Nat := (e.sent, e.ended, e.deadline, e.limit?)

theorem exists_of_restingRead {limit : Nat} {r : Outcome (Relayed Nat)}
    {a b : Nat × Nat × Option Nat × Option Nat} (hr : (restingRead limit).1 = r)
    (h : (restingRead limit).2.record.map times = [b, a]) :
    ∃ e f w', restingRead limit = (r, w') ∧ w'.record = [f, e] ∧ times e = a ∧ times f = b := by
  obtain ⟨f, l', hrecord, hf, hl'⟩ := List.map_eq_cons_iff.mp h
  obtain ⟨e, l'', rfl, he, hl''⟩ := List.map_eq_cons_iff.mp hl'
  obtain rfl := List.map_eq_nil_iff.mp hl''
  exact ⟨e, f, _, Prod.ext hr rfl, hrecord, he, hf⟩

/-- Five seconds fit into a deadline of ten. -/
theorem short_pause_kept :
    ∃ e f w', restingRead 10000 = (.done (.ok 7), w') ∧ w'.record = [f, e] ∧ e.limit? = some 5 ∧ Resumes 5 e f := by
  have hread : (restingRead 10000).1 = .done (.ok 7) := by decide +kernel
  have htimes : (restingRead 10000).2.record.map times =
      [(5000, 5000, some 10000, none), (0, 0, some 10000, some 5)] := by decide +kernel
  obtain ⟨e, f, w', hrun, hrecord, he, hf⟩ := exists_of_restingRead hread htimes
  obtain ⟨-, hended, hdue, hlimited⟩ : e.sent = 0 ∧ e.ended = 0 ∧ e.deadline = some 10000 ∧ e.limit? = some 5 := by
    simpa [times] using he
  have hsplit : w'.record = [f] ++ e :: [] := hrecord
  obtain ⟨due, hdue', -, hkept, -⟩ := pause_kept_iff Sim.Network.punctual_handler (c := .bitcoinClient .bestHeight) rfl
    hrun rfl hsplit (by simp) hlimited
  cases hdue.symm.trans hdue'
  obtain ⟨f', hf', hresumes⟩ := hkept.mpr ⟨by omega, by decide⟩
  cases hf'
  exact ⟨e, f, w', hrun, hrecord, hlimited, hresumes⟩

/-- They do not fit into a deadline of one: the next query comes long before they are over. -/
theorem long_pause_cut :
    ∃ e f w', restingRead 1000 = (.done (.ok 7), w') ∧ w'.record = [f, e] ∧ e.limit? = some 5 ∧
      f.sent = e.ended + 1010 ∧ ¬ Resumes 5 e f := by
  have hread : (restingRead 1000).1 = .done (.ok 7) := by decide +kernel
  have htimes : (restingRead 1000).2.record.map times =
      [(1010, 1010, some 2010, none), (0, 0, some 1000, some 5)] := by decide +kernel
  obtain ⟨e, f, w', hrun, hrecord, he, hf⟩ := exists_of_restingRead hread htimes
  obtain ⟨-, hended, -, hlimited⟩ : e.sent = 0 ∧ e.ended = 0 ∧ e.deadline = some 1000 ∧ e.limit? = some 5 := by
    simpa [times] using he
  obtain ⟨hsent, -⟩ : f.sent = 1010 ∧ f.ended = 1010 ∧ f.deadline = some 2010 ∧ f.limit? = none := by
    simpa [times] using hf
  refine ⟨e, f, w', hrun, hrecord, hlimited, by omega, ?_⟩
  intro hresumes
  have hkept := hresumes.1
  omega

end Channel

end HeaderRelay
