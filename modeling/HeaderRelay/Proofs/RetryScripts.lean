import HeaderRelay.Proofs.Deadlines
import HeaderRelay.Sim.Fault
import Mathlib.Data.Nat.Count

/-!
# Scripts of the retry loop

A `Retry.Script` tells of each call of a loop what the world was before it, what it came to, and what the world was
after it. A loop follows it up to a call (`Script.Follows`) if each call came to what the script says, if none before
that one was the last, each of these having been followed by its pause and by nothing else, and if that one is the last
(`Retry.Ends`): its outcome is final, or it is the last attempt that there is. A request for a pause is not counted
among the failed attempts, but a pause follows it as well.

The loop has a result just if some script ends with it (`Retry.loop_done_iff`). The induction is on the calls that are
followed: a script is its first call and the rest (`Script.follows_succ`), and the loop goes on from the first call to
the rest just if that call is not the last.

A computation that does not look at its deadline comes to what it would have come to without one if that is in time
(`Timed.Cuttable`), and to a timeout at the deadline otherwise (`Timed.within_none_cases`).

Results: `Retry.retry_follows_script`, for the loop and for reads; `Retry.long_pause_cut_short`, a pause that is longer
than the longest sleep.
-/
namespace HeaderRelay

variable {σ α : Type}

/-! ## Calls that a deadline cuts off -/

/-- A computation that does not look at its deadline: what ends by then ends so without one, and nothing else does. -/
structure Timed.Cuttable (x : Timed σ α) : Prop extends x.Punctual where
  done_iff : ∀ {d w a w'}, w.now ≤ d → (x (some d) w = (.done a, w') ↔ x none w = (.done a, w') ∧ w'.now ≤ d)

/-- A computation that counts no read that is tried again. -/
def Timed.Uncounted (x : Timed σ α) : Prop := ∀ deadline w o w', x deadline w = (o, w') → w'.retries = w.retries

namespace Timed

variable {β : Type} {w w' : World σ}

theorem Cuttable.of_now {x : Timed σ α}
    (h : ∀ w, ∃ a w', w'.now = w.now ∧ ∀ deadline, x deadline w = (.done a, w')) : x.Cuttable where
  toPunctual := .of_now fun deadline w => by
    obtain ⟨a, w', hnow, hx⟩ := h w
    exact ⟨a, w', hx deadline, hnow⟩
  done_iff {d w a w'} hd := by
    obtain ⟨b, v, hnow, hx⟩ := h w
    rw [hx, hx]
    constructor
    · rintro ⟨⟩
      exact ⟨rfl, hnow ▸ hd⟩
    · exact And.left

theorem cuttable_pure (a : α) : (pure a : Timed σ α).Cuttable := .of_now fun w => ⟨a, w, rfl, fun _ => rfl⟩

theorem cuttable_now : (now : Timed σ Nat).Cuttable := .of_now fun w => ⟨w.now, w, rfl, fun _ => rfl⟩

theorem cuttable_onPeers (f : σ → α × σ) : (onPeers f).Cuttable :=
  .of_now fun w => ⟨(f w.peers).1, { w with peers := (f w.peers).2 }, rfl, fun _ => rfl⟩

theorem cuttable_sleep (ms : Nat) : (sleep ms : Timed σ Unit).Cuttable where
  toPunctual := punctual_sleep ms
  done_iff {d w a w'} hd := by
    by_cases hle : w.now + sleepTime ms ≤ d
    · rw [sleep_of_inTime (inTime_some.mpr hle), sleep_of_inTime (inTime_none _)]
      constructor
      · rintro ⟨⟩
        exact ⟨rfl, hle⟩
      · exact And.left
    · rw [sleep_of_late (Nat.not_le.mp hle), sleep_of_inTime (inTime_none _)]
      constructor
      · rintro ⟨⟩
      · rintro ⟨⟨⟩, hle'⟩
        exact absurd hle' hle

theorem cuttable_forever : (forever : Timed σ α).Cuttable where
  toPunctual := punctual_forever
  done_iff {d w a w'} _ := by
    constructor
    · rintro ⟨⟩
    · rintro ⟨⟨⟩, -⟩

theorem bind_done_iff {x : Timed σ α} {f : α → Timed σ β} {deadline : Option Nat} {b : β} :
    (x >>= f) deadline w = (.done b, w') ↔
      ∃ a w₁, x deadline w = (.done a, w₁) ∧ f a deadline w₁ = (.done b, w') := by
  show andThen x f deadline w = _ ↔ _
  unfold andThen
  rcases x deadline w with ⟨a | _ | _, w₁⟩
  · constructor
    · intro h
      exact ⟨a, w₁, rfl, h⟩
    · rintro ⟨_, _, ⟨⟩, h⟩
      exact h
  · simp
  · simp

theorem Cuttable.bind {x : Timed σ α} {f : α → Timed σ β} (hx : x.Cuttable) (hf : ∀ a, (f a).Cuttable) :
    (x >>= f).Cuttable where
  toPunctual := hx.toPunctual.bind fun a => (hf a).toPunctual
  done_iff {d w b w'} hd := by
    rw [bind_done_iff, bind_done_iff]
    constructor
    · rintro ⟨a, w₁, hxa, hfa⟩
      obtain ⟨hxa, hle⟩ := (hx.done_iff hd).mp hxa
      obtain ⟨hfa, hle'⟩ := ((hf a).done_iff hle).mp hfa
      exact ⟨⟨a, w₁, hxa, hfa⟩, hle'⟩
    · rintro ⟨⟨a, w₁, hxa, hfa⟩, hle'⟩
      have hle := Nat.le_trans ((hf a).onward hfa (inTime_none _)) hle'
      exact ⟨a, w₁, (hx.done_iff hd).mpr ⟨hxa, hle⟩, ((hf a).done_iff hle).mpr ⟨hfa, hle'⟩⟩

theorem uncounted_pure (a : α) : (pure a : Timed σ α).Uncounted := by
  rintro deadline w o w' ⟨⟩
  rfl

theorem uncounted_now : (now : Timed σ Nat).Uncounted := by
  rintro deadline w o w' ⟨⟩
  rfl

theorem uncounted_onPeers (f : σ → α × σ) : (onPeers f).Uncounted := by
  rintro deadline w o w' ⟨⟩
  rfl

theorem uncounted_sleep (ms : Nat) : (sleep ms : Timed σ Unit).Uncounted := by
  intro deadline w o w' h
  by_cases hin : InTime deadline (w.now + sleepTime ms)
  · cases (sleep_of_inTime hin).symm.trans h
    rfl
  · obtain ⟨d, rfl, hd⟩ := not_inTime hin
    cases (sleep_of_late hd).symm.trans h
    rfl

theorem uncounted_forever : (forever : Timed σ α).Uncounted := by
  intro deadline w o w' h
  cases deadline <;> cases h <;> rfl

theorem Uncounted.bind {x : Timed σ α} {f : α → Timed σ β} (hx : x.Uncounted) (hf : ∀ a, (f a).Uncounted) :
    (x >>= f).Uncounted := by
  intro deadline w o w' h
  change andThen x f deadline w = _ at h
  unfold andThen at h
  split at h
  · rename_i a w₁ hxa
    exact (hf a _ _ _ _ h).trans (hx _ _ _ _ hxa)
  · rename_i w₁ hxa
    cases h
    exact hx _ _ _ _ hxa
  · rename_i w₁ hxa
    cases h
    exact hx _ _ _ _ hxa

theorem Uncounted.within {x : Timed σ (Relayed α)} (hx : x.Uncounted) (limit : Nat) :
    (Timed.within limit x).Uncounted := by
  intro deadline w o w' h
  obtain ⟨d, -, -, hxd⟩ | ⟨-, ⟨hxd, -⟩ | ⟨w₁, hxd, -, rfl⟩⟩ := within_cases h
  · exact hx _ _ _ _ hxd
  · exact hx _ _ _ _ hxd
  · exact hx _ _ _ w₁ hxd

/-- **A deadline.** The call comes to its own outcome if it ends at or before the deadline, and to a timeout at the
deadline if it does not. -/
theorem within_none_cases {x : Timed σ (Relayed α)} (hx : x.Cuttable) {limit : Nat} {r : Relayed α}
    (h : within limit x none w = (.done r, w')) :
    (x none w = (.done r, w') ∧ w'.now ≤ w.now + limit) ∨
      ((∀ own w₁, x none w = (.done own, w₁) → w.now + limit < w₁.now) ∧
        r = .error (.timeout limit) ∧ w'.now = w.now + limit) := by
  have hd : w.now ≤ w.now + limit := Nat.le_add_right _ _
  obtain ⟨d, hnone, -⟩ | ⟨-, ⟨hown, -⟩ | ⟨w₁, hcut, hr, rfl⟩⟩ := within_cases h
  · cases hnone
  · exact .inl ((hx.done_iff hd).mp hown)
  · cases hr
    refine .inr ⟨fun own w₂ hown => Nat.not_le.mp fun hle => ?_, rfl, rfl⟩
    -- what ends in time is not cut off
    rw [(hx.done_iff hd).mpr ⟨hown, hle⟩] at hcut
    cases hcut

end Timed

namespace Sim

theorem Fault.cuttable_apply {f : Fault α} {serve : Timed σ (Relayed α)} (h : serve.Cuttable) :
    (f.apply serve).Cuttable := by
  unfold Fault.apply
  split
  · exact Timed.cuttable_forever
  · refine (Timed.cuttable_sleep f.delay).bind fun _ => ?_
    split
    · exact Timed.cuttable_pure _
    · exact h

theorem Fault.uncounted_apply {f : Fault α} {serve : Timed σ (Relayed α)} (h : serve.Uncounted) :
    (f.apply serve).Uncounted := by
  unfold Fault.apply
  split
  · exact Timed.uncounted_forever
  · refine (Timed.uncounted_sleep f.delay).bind fun _ => ?_
    split
    · exact Timed.uncounted_pure _
    · exact h

theorem Scripted.cuttable_call : (Scripted.call : Timed (Scripted α) (Relayed α)).Cuttable := by
  refine Timed.cuttable_now.bind fun now => (Timed.cuttable_onPeers _).bind fun fault => ?_
  exact (Timed.cuttable_onPeers _).bind fun otherwise => Fault.cuttable_apply (Timed.cuttable_pure _)

theorem Scripted.uncounted_call : (Scripted.call : Timed (Scripted α) (Relayed α)).Uncounted := by
  refine Timed.uncounted_now.bind fun now => (Timed.uncounted_onPeers _).bind fun fault => ?_
  exact (Timed.uncounted_onPeers _).bind fun otherwise => Fault.uncounted_apply (Timed.uncounted_pure _)

end Sim

/-! ## Scripts -/

/-- The outcome uses up an attempt: it is a transient error and no request for a pause. -/
def Relayed.fails : Relayed α → Bool
  | .error (.rateLimited _) => false
  | .error x => x.isTransient
  | .ok _ => false

theorem Relayed.fails_error {x : RelayError} (hx : ∀ seconds, x ≠ .rateLimited seconds) :
    (Relayed.fails (.error x : Relayed α)) = x.isTransient := by
  cases x with
  | rateLimited seconds => exact absurd rfl (hx seconds)
  | _ => rfl

namespace Retry

/-- How long the loop pauses after an error that it goes on from, `failures` attempts having failed. -/
def pauseFor (delay : Nat → Nat) (failures : Nat) : RelayError → Nat
  | .rateLimited seconds => seconds * 1000
  | _ => delay failures

def notice (op : String) (delay : Nat → Nat) (failures : Nat) : RelayError → Log.Event
  | .rateLimited seconds => pausing op seconds
  | x => failed op failures (delay failures) x

def resumed (op : String) (delay : Nat → Nat) (failures : Nat) (x : RelayError) (w : World σ) : World σ :=
  w.paused (notice op delay failures x) (w.now + sleepTime (pauseFor delay failures x))

/-- The world after the last call: that the attempts are used up is put on record. -/
def closed (op : String) (attempts : Nat) (r : Relayed α) (w : World σ) : World σ :=
  match r with
  | .error x => if r.fails then { w with log := exhausted op attempts x :: w.log } else w
  | .ok _ => w

/-- One call of a loop. -/
structure Attempt (σ α : Type) where
  before : World σ
  outcome : Relayed α
  after : World σ

/-- The calls of a loop, the first of them numbered zero. -/
abbrev Script (σ α : Type) := Nat → Attempt σ α

/-- A call is the last, `failures` attempts having failed before: its outcome is final, or it is the last attempt. -/
def Ends (attempts failures : Nat) (r : Relayed α) : Prop := r.Final ∨ r.fails = true ∧ failures + 1 = attempts

theorem Ends.exists_error {attempts failures : Nat} {r : Relayed α} (h : ¬ Ends attempts failures r) :
    ∃ x, r = .error x := by
  cases r with
  | ok a => exact absurd (.inl fun x hx => nomatch hx) h
  | error x => exact ⟨x, rfl⟩

theorem Ends.isTransient_of_not {attempts failures : Nat} {x : RelayError}
    (h : ¬ Ends attempts failures (.error x : Relayed α)) : x.isTransient = true := by
  by_contra hx
  refine h (.inl fun y hy => ?_)
  cases hy
  exact Bool.eq_false_of_not_eq_true hx

theorem Ends.failures_lt {attempts failures : Nat} {r : Relayed α} (hlt : failures < attempts)
    (h : ¬ Ends attempts failures r) : failures + r.fails.toNat < attempts := by
  cases hfails : r.fails with
  | false => exact hlt
  | true => exact Nat.lt_of_le_of_ne hlt fun heq => h (.inr ⟨hfails, heq⟩)

namespace Script

def failures (c : Script σ α) (start i : Nat) : Nat := start + Nat.count (fun j => (c j).outcome.fails) i

def EndsAt (c : Script σ α) (attempts start i : Nat) : Prop := Ends attempts (c.failures start i) (c i).outcome

/-- A loop that starts in the world `w` follows the script up to the `n`-th call, and this is the last. -/
structure Follows (c : Script σ α) (op : String) (attempts : Nat) (delay : Nat → Nat) (call : Timed σ (Relayed α))
    (start : Nat) (w : World σ) (n : Nat) : Prop where
  first : (c 0).before = w
  called : ∀ i ≤ n, call none (c i).before = (.done (c i).outcome, (c i).after)
  goesOn : ∀ i < n, ¬ c.EndsAt attempts start i
  pauses : ∀ i < n, ∀ x, (c i).outcome = .error x →
    (c (i + 1)).before = resumed op delay (c.failures start i + 1) x (c i).after
  ends : c.EndsAt attempts start n

/-- Some script of at most `fuel` calls ends with the result `r` and in the world `w'`. -/
def Concludes (op : String) (attempts : Nat) (delay : Nat → Nat) (call : Timed σ (Relayed α)) (fuel start : Nat)
    (w : World σ) (r : Relayed α) (w' : World σ) : Prop :=
  ∃ n < fuel, ∃ c : Script σ α, c.Follows op attempts delay call start w n ∧ r = (c n).outcome ∧
    w' = closed op attempts r (c n).after

def cons (a : Attempt σ α) (c : Script σ α) : Script σ α
  | 0 => a
  | i + 1 => c i

def tail (c : Script σ α) : Script σ α := fun i => c (i + 1)

variable {c : Script σ α} {op : String} {attempts : Nat} {delay : Nat → Nat} {call : Timed σ (Relayed α)}
  {start n : Nat} {w : World σ}

@[simp] theorem failures_zero : c.failures start 0 = start := by
  simp [failures]

theorem failures_succ (c : Script σ α) (start i : Nat) :
    c.failures start (i + 1) = c.tail.failures (start + (c 0).outcome.fails.toNat) i := by
  have hcount : Nat.count (fun j => (c j).outcome.fails) (i + 1) =
      Nat.count (fun j => (c.tail j).outcome.fails) i + (c 0).outcome.fails.toNat := by
    refine (Nat.count_succ' _ i).trans (congrArg _ ?_)
    cases (c 0).outcome.fails <;> rfl
  unfold failures
  omega

theorem endsAt_succ {i : Nat} :
    c.EndsAt attempts start (i + 1) ↔ c.tail.EndsAt attempts (start + (c 0).outcome.fails.toNat) i := by
  unfold EndsAt
  rw [failures_succ]
  rfl

theorem follows_zero : c.Follows op attempts delay call start w 0 ↔
    (c 0).before = w ∧ call none w = (.done (c 0).outcome, (c 0).after) ∧ Ends attempts start (c 0).outcome := by
  constructor
  · intro h
    exact ⟨h.first, h.first ▸ h.called 0 (Nat.le_refl 0), by simpa [EndsAt] using h.ends⟩
  · rintro ⟨hfirst, hcall, hends⟩
    refine ⟨hfirst, fun i hi => ?_, by simp, by simp, by simpa [EndsAt] using hends⟩
    obtain rfl := Nat.le_zero.mp hi
    rwa [hfirst]

/-- To follow a script is to go through its first call and to follow the rest. -/
theorem follows_succ : c.Follows op attempts delay call start w (n + 1) ↔
    (c 0).before = w ∧ call none w = (.done (c 0).outcome, (c 0).after) ∧ ¬ Ends attempts start (c 0).outcome ∧
      ∃ x, (c 0).outcome = .error x ∧ c.tail.Follows op attempts delay call (start + (c 0).outcome.fails.toNat)
        (resumed op delay (start + 1) x (c 0).after) n := by
  constructor
  · intro h
    have hnot : ¬ Ends attempts start (c 0).outcome := by simpa [EndsAt] using h.goesOn 0 (Nat.succ_pos n)
    obtain ⟨x, hx⟩ := Ends.exists_error hnot
    refine ⟨h.first, h.first ▸ h.called 0 (Nat.zero_le _), hnot, x, hx, ?_,
      fun i hi => h.called _ (Nat.succ_le_succ hi), fun i hi => mt endsAt_succ.mpr (h.goesOn _ (Nat.succ_lt_succ hi)), fun i hi y hy => ?_, endsAt_succ.mp h.ends⟩
    · have hpause := h.pauses 0 (Nat.succ_pos n) x hx
      rwa [failures_zero] at hpause
    · rw [← failures_succ]
      exact h.pauses _ (Nat.succ_lt_succ hi) y hy
  · rintro ⟨hfirst, hcall, hnot, x, hx, h⟩
    refine ⟨hfirst, fun i hi => ?_, fun i hi => ?_, fun i hi y hy => ?_, endsAt_succ.mpr h.ends⟩
    · cases i with
      | zero => rwa [hfirst]
      | succ i => exact h.called i (Nat.le_of_succ_le_succ hi)
    · cases i with
      | zero => simpa [EndsAt] using hnot
      | succ i => exact mt endsAt_succ.mp (h.goesOn i (Nat.lt_of_succ_lt_succ hi))
    · cases i with
      | zero =>
        obtain rfl : x = y := Except.error.inj (hx.symm.trans hy)
        rw [failures_zero]
        exact h.first
      | succ i =>
        rw [failures_succ]
        exact h.pauses i (Nat.lt_of_succ_lt_succ hi) y hy

theorem Follows.retries (h : c.Follows op attempts delay call start w n) (hcall : call.Uncounted) :
    (c n).after.retries = w.retries + n := by
  induction n generalizing c start w with
  | zero =>
    obtain ⟨-, hcalled, -⟩ := follows_zero.mp h
    exact hcall _ _ _ _ hcalled
  | succ n ih =>
    obtain ⟨-, hcalled, -, x, -, hrest⟩ := follows_succ.mp h
    have hnext : (c (n + 1)).after.retries = (c 0).after.retries + 1 + n := ih hrest
    rw [hnext, hcall _ _ _ _ hcalled]
    omega

end Script

/-! ## The loop -/

section Loop

variable {op : String} {attempts : Nat} {delay : Nat → Nat} {call : Timed σ (Relayed α)} {failures fuel : Nat}
  {w w₁ w' : World σ} {r : Relayed α} {x : RelayError}

theorem loop_of_ends (hcall : call none w = (.done r, w₁)) (hends : Ends attempts failures r) :
    loop op attempts delay call (fuel + 1) failures none w = (.done r, closed op attempts r w₁) := by
  simp only [loop, bind, Timed.andThen, hcall]
  split
  · rfl
  · obtain hfinal | ⟨hfails, -⟩ := hends
    · cases hfinal _ rfl
    · cases hfails
  · rename_i x hx
    have hfails : Relayed.fails (.error x : Relayed α) = x.isTransient := Relayed.fails_error fun n hn => hx n hn
    obtain hfinal | ⟨hlast, rfl⟩ := hends
    · have hnot := hfinal x rfl
      simp only [closed, hfails, hnot]
      rfl
    · rw [hfails] at hlast
      simp only [closed, hfails, hlast, if_true, if_pos (Nat.le_refl _)]
      rfl

theorem loop_of_not_ends (hcall : call none w = (.done r, w₁)) (hr : r = .error x) (hfailures : failures < attempts)
    (hnot : ¬ Ends attempts failures r) :
    loop op attempts delay call (fuel + 1) failures none w =
      loop op attempts delay call fuel (failures + r.fails.toNat) none (resumed op delay (failures + 1) x w₁) := by
  simp only [loop, bind, Timed.andThen, hcall]
  split
  · cases hr
  · cases hr
    rfl
  · rename_i y hx
    cases hr
    have hfails : Relayed.fails (.error x : Relayed α) = x.isTransient := Relayed.fails_error fun n hn => hx n hn
    have htransient : x.isTransient = true := Ends.isTransient_of_not hnot
    have hmore : ¬ attempts ≤ failures + 1 := fun hle =>
      hnot (.inr ⟨hfails.trans htransient, Nat.le_antisymm hfailures hle⟩)
    have hresumed : resumed op delay (failures + 1) x w₁ =
        w₁.paused (failed op (failures + 1) (delay (failures + 1)) x) (w₁.now + sleepTime (delay (failures + 1))) := by
      cases x with
      | rateLimited seconds => exact absurd rfl (hx seconds)
      | _ => rfl
    rw [hresumed, hfails, htransient, if_pos rfl, if_neg hmore]
    rfl

@[simp] theorem peers_closed (r : Relayed α) (w : World σ) : (closed op attempts r w).peers = w.peers := by
  unfold closed
  split
  · split
    · rfl
    · rfl
  · rfl

/-- A call that always fails in the same way is given up, when the attempts are used up or before that. -/
theorem loop_of_failing {count : σ → Nat} {k : Nat} (hx : ∀ seconds, x ≠ .rateLimited seconds)
    (hcall : ∀ w, ∃ w₁, call none w = (.done (.error x), w₁) ∧ count w₁.peers = count w.peers + k)
    (hfailures : failures < attempts) (hfuel : attempts ≤ failures + fuel) :
    ∃ m, ∀ w, ∃ w', loop op attempts delay call fuel failures none w = (.done (.error x), w') ∧
      count w'.peers = count w.peers + m := by
  induction fuel generalizing failures with
  | zero => omega
  | succ fuel ih =>
    by_cases hends : Ends attempts failures (.error x : Relayed α)
    · refine ⟨k, fun w => ?_⟩
      obtain ⟨w₁, hcall, hcount⟩ := hcall w
      exact ⟨_, loop_of_ends hcall hends, by rw [peers_closed, hcount]⟩
    · have hfails : (Relayed.fails (.error x : Relayed α)) = true := by
        rw [Relayed.fails_error hx, Ends.isTransient_of_not hends]
      have hmore : failures + 1 < attempts := by
        have hlt := Ends.failures_lt hfailures hends
        rwa [hfails] at hlt
      obtain ⟨m, hrest⟩ := ih hmore (by omega)
      refine ⟨k + m, fun w => ?_⟩
      obtain ⟨w₁, hcall, hcount⟩ := hcall w
      obtain ⟨w', hloop, hcount'⟩ := hrest (resumed op delay (failures + 1) x w₁)
      have hpause : (resumed op delay (failures + 1) x w₁).peers = w₁.peers := rfl
      refine ⟨w', ?_, by rw [hcount', hpause, hcount, Nat.add_assoc]⟩
      rw [loop_of_not_ends hcall rfl hfailures hends, hfails]
      exact hloop

theorem concludes_of_ends {r₁ : Relayed α} (hcall : call none w = (.done r₁, w₁)) (hends : Ends attempts failures r₁) :
    Script.Concludes op attempts delay call (fuel + 1) failures w r w' ↔ r = r₁ ∧ w' = closed op attempts r w₁ := by
  constructor
  · rintro ⟨n, -, c, h, rfl, rfl⟩
    cases n with
    | zero =>
      obtain ⟨-, hcalled, -⟩ := Script.follows_zero.mp h
      cases hcall.symm.trans hcalled
      exact ⟨rfl, rfl⟩
    | succ n =>
      obtain ⟨-, hcalled, hnot, -⟩ := Script.follows_succ.mp h
      cases hcall.symm.trans hcalled
      exact absurd hends hnot
  · rintro ⟨rfl, rfl⟩
    exact ⟨0, Nat.succ_pos _, fun _ => ⟨w, r, w₁⟩, Script.follows_zero.mpr ⟨rfl, hcall, hends⟩, rfl, rfl⟩

theorem concludes_of_not_ends {r₁ : Relayed α} (hcall : call none w = (.done r₁, w₁)) (hr : r₁ = .error x)
    (hnot : ¬ Ends attempts failures r₁) :
    Script.Concludes op attempts delay call (fuel + 1) failures w r w' ↔
      Script.Concludes op attempts delay call fuel (failures + r₁.fails.toNat)
        (resumed op delay (failures + 1) x w₁) r w' := by
  constructor
  · rintro ⟨n, hn, c, h, rfl, rfl⟩
    cases n with
    | zero =>
      obtain ⟨-, hcalled, hends⟩ := Script.follows_zero.mp h
      cases hcall.symm.trans hcalled
      exact absurd hends hnot
    | succ n =>
      obtain ⟨-, hcalled, -, y, hy, hrest⟩ := Script.follows_succ.mp h
      cases hcall.symm.trans hcalled
      cases hr.symm.trans hy
      exact ⟨n, Nat.lt_of_succ_lt_succ hn, c.tail, hrest, rfl, rfl⟩
  · rintro ⟨n, hn, c, h, rfl, rfl⟩
    exact ⟨n + 1, Nat.succ_lt_succ hn, c.cons ⟨w, r₁, w₁⟩,
      Script.follows_succ.mpr ⟨rfl, hcall, hnot, x, hr, h⟩, rfl, rfl⟩

theorem Script.Concludes.answered (h : Script.Concludes op attempts delay call fuel failures w r w') :
    ∃ r₁ w₁, call none w = (.done r₁, w₁) := by
  obtain ⟨n, -, c, hc, -⟩ := h
  exact ⟨_, _, hc.first ▸ hc.called 0 (Nat.zero_le n)⟩

/-- **The loop.** It has a result just if some script ends with it, within the calls that are followed. -/
theorem loop_done_iff (hfailures : failures < attempts) :
    loop op attempts delay call fuel failures none w = (.done r, w') ↔
      Script.Concludes op attempts delay call fuel failures w r w' := by
  induction fuel generalizing failures w with
  | zero =>
    constructor
    · rintro ⟨⟩
    · rintro ⟨n, hn, -⟩
      cases hn
  | succ fuel ih =>
    by_cases hcall : ∃ r₁ w₁, call none w = (.done r₁, w₁)
    · obtain ⟨r₁, w₁, hcall⟩ := hcall
      by_cases hends : Ends attempts failures r₁
      · rw [loop_of_ends hcall hends, concludes_of_ends hcall hends, Prod.mk.injEq, Outcome.done.injEq]
        constructor
        · rintro ⟨rfl, rfl⟩
          exact ⟨rfl, rfl⟩
        · rintro ⟨rfl, rfl⟩
          exact ⟨rfl, rfl⟩
      · obtain ⟨x, hx⟩ := Ends.exists_error hends
        rw [loop_of_not_ends hcall hx hfailures hends, concludes_of_not_ends hcall hx hends]
        exact ih (Ends.failures_lt hfailures hends)
    · refine iff_of_false (fun h => hcall ?_) fun h => hcall h.answered
      obtain ⟨r₁, w₁, hcalled, -⟩ := Timed.bind_done_iff.mp h
      exact ⟨r₁, w₁, hcalled⟩

end Loop

/-! ## The contract of the loop -/

/-- The pause after a failure is a product of three numbers, and to keep the inner product within 64 bits as well makes
no difference. -/
theorem pauseAfter_eq (base i : Nat) :
    pauseAfter base i = min (base * i ^ 2) (2 ^ 64 - 1) ∧
      pauseAfter base i = min (base * min (i * i) (2 ^ 64 - 1)) (2 ^ 64 - 1) := by
  have hpow : i ^ 2 = i * i := Nat.pow_two i
  refine ⟨by rw [hpow]; rfl, ?_⟩
  show min (base * (i * i)) (2 ^ 64 - 1) = _
  obtain hle | hlt := Nat.le_total (i * i) (2 ^ 64 - 1)
  · rw [Nat.min_eq_left hle]
  · rw [Nat.min_eq_right hlt]
    obtain rfl | hbase := Nat.eq_zero_or_pos base
    · simp
    · rw [Nat.min_eq_right (Nat.le_trans hlt (Nat.le_mul_of_pos_left _ hbase)),
        Nat.min_eq_right (Nat.le_mul_of_pos_left _ hbase)]

/-- An attempt under a deadline comes to the call's own outcome if the call ends at or before the deadline, and to a
timeout at the deadline if it does not. -/
def Attempt.Within (a : Attempt σ α) (limit : Nat) (call : Timed σ (Relayed α)) : Prop :=
  (call none a.before = (.done a.outcome, a.after) ∧ a.after.now ≤ a.before.now + limit) ∨
    ((∀ own w, call none a.before = (.done own, w) → a.before.now + limit < w.now) ∧
      a.outcome = .error (.timeout limit) ∧ a.after.now = a.before.now + limit)

/-- **The contract of the loop.** It has a result just if some script ends with it. On the way it counts one read less
as tried again than there are calls; and for a read each attempt comes to its own outcome, or to a timeout. -/
theorem retry_follows_script (followed : Nat) (op : String) :
    (∀ maxAttempts delay (call : Timed σ (Relayed α)) w r w',
      retry followed op maxAttempts delay call none w = (.done r, w') ↔
        Script.Concludes op (max 1 maxAttempts) delay call followed 0 w r w') ∧
    (∀ attempts delay (call : Timed σ (Relayed α)) w n (c : Script σ α), call.Uncounted →
      c.Follows op attempts delay call 0 w n → (c n).after.retries = w.retries + n) ∧
    (∀ base i, pauseAfter base i = min (base * i ^ 2) (2 ^ 64 - 1)) ∧
    ∀ (p : Policy) (call : Timed σ (Relayed α)), call.Cuttable →
      (∀ w r w', p.read followed op call none w = (.done r, w') ↔
        Script.Concludes op (max 1 p.maxAttempts) (pauseAfter p.backoff) (Timed.within p.timeout call) followed 0 w
          r w') ∧
      ∀ w n (c : Script σ α), c.Follows op (max 1 p.maxAttempts) (pauseAfter p.backoff) (Timed.within p.timeout call) 0
        w n → ∀ i ≤ n, (c i).Within p.timeout call := by
  have hloop {maxAttempts : Nat} : 0 < max 1 maxAttempts := by omega
  refine ⟨fun _ _ _ _ _ _ => loop_done_iff hloop, fun _ _ _ _ _ _ hcall h => h.retries hcall,
    fun base i => (pauseAfter_eq base i).1, fun p call hcall => ⟨fun _ _ _ => loop_done_iff hloop, ?_⟩⟩
  intro w n c h i hi
  exact Timed.within_none_cases hcall (h.called i hi)

open Sim (Fault Scripted)

def slowRead : Outcome (Relayed Nat) × World (Scripted Nat) :=
  Policy.read ⟨250, 2, 10⟩ 3 "read" Scripted.call none
    (.start ⟨[⟨false, 300, none⟩, ⟨false, 0, some (.error (.rateLimited 5))⟩, ⟨false, 250, none⟩], 7, []⟩)

/-- It times out, is tried again twice, and comes to the answer. -/
theorem slow_read_follows_script :
    (Scripted.call : Timed (Scripted Nat) (Relayed Nat)).Cuttable ∧ slowRead.1 = .done (.ok 7) ∧
      slowRead.2.peers.calls = [5260, 260, 0] ∧ slowRead.2.now = 5510 ∧
      ∃ n < 3, ∃ c : Script (Scripted Nat) Nat, slowRead.2.retries = 0 + n ∧ (c n).outcome = .ok 7 ∧
        ∀ i ≤ n, (c i).Within 250 Scripted.call := by
  have hread : slowRead.1 = .done (.ok 7) := by decide +kernel
  obtain ⟨-, hretries, -, hpolicy⟩ := retry_follows_script (σ := Scripted Nat) (α := Nat) 3 "read"
  obtain ⟨hiff, hwithin⟩ := hpolicy ⟨250, 2, 10⟩ Scripted.call Scripted.cuttable_call
  have hrun : slowRead = (.done (.ok 7), slowRead.2) :=
    (Prod.eta slowRead).symm.trans (congrArg (fun o => (o, slowRead.2)) hread)
  obtain ⟨n, hn, c, hc, hr, hclosed⟩ := (hiff _ _ _).mp hrun
  refine ⟨Scripted.cuttable_call, hread, by decide +kernel, by decide +kernel, n, hn, c, ?_, hr.symm, hwithin _ _ _ hc⟩
  rw [hclosed]
  exact hretries _ _ _ _ _ _ (Scripted.uncounted_call.within 250) hc

/-- A call to a peer that asks for a pause of thirty years and a second. -/
def restedCall : Outcome (Relayed Nat) × World (Scripted Nat) :=
  retry 2 "call" 3 (pauseAfter 10) Scripted.call none
    (.start ⟨[⟨false, 0, some (.error (.rateLimited 946080001))⟩], 1, []⟩)

/-- **A pause that is too long.** The call is made again a second too soon. -/
theorem long_pause_cut_short :
    restedCall.1 = .done (.ok 1) ∧ restedCall.2.peers.calls = [946080000 * 1000, 0] ∧
      restedCall.2.now ≠ 946080001 * 1000 := by
  decide +kernel

end Retry

end HeaderRelay
