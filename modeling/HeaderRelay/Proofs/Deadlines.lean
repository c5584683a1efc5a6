import HeaderRelay.Clock.Run
import HeaderRelay.Proofs.Prompt

/-!
# Deadlines

A computation is `Punctual` if its clock only moves on, never beyond the deadline under which it runs, and
stands at the deadline when it is cut off. What the peers do is: they answer at once or late, they fail, or
they never answer.

`Retry.Runs` is one run of the loop that tries a call again, told by what each call comes to: an outcome that
is final, the last of the attempts, a pause and the next call, a pause that the deadline cuts short. A pause
that the peer asked for leaves the number of failed attempts as it is, a pause after a failure counts one more
(`Retry.Again`). Every run of the loop is of this form (`Retry.loop_runs`), and if no peer asks for a pause
there are no more calls than attempts (`Retry.Runs.followed`). So a read without a deadline from outside has a
result (`Policy.runs_done`).
-/
namespace HeaderRelay

variable {σ α : Type}

/-- The time is not past the deadline, if there is one. -/
def InTime (deadline : Option Nat) (now : Nat) : Prop := ∀ d, deadline = some d → now ≤ d

@[simp] theorem inTime_none (now : Nat) : InTime none now := by
  intro d hd
  cases hd

@[simp] theorem inTime_some {d now : Nat} : InTime (some d) now ↔ now ≤ d := by
  simp [InTime]

theorem not_inTime {deadline : Option Nat} {now : Nat} (h : ¬ InTime deadline now) :
    ∃ d, deadline = some d ∧ d < now := by
  cases deadline with
  | none => exact absurd (inTime_none now) h
  | some d => exact ⟨d, rfl, Nat.not_le.mp fun hle => h (inTime_some.mpr hle)⟩

def Outcome.map {β : Type} (f : α → β) : Outcome α → Outcome β
  | .done a => .done (f a)
  | .unanswered => .unanswered
  | .unfollowed => .unfollowed

/-! ## Punctual computations -/

/-- A computation that keeps to its deadline and is followed to its end. -/
structure Timed.Punctual (x : Timed σ α) : Prop where
  onward : ∀ {deadline w o w'}, x deadline w = (o, w') → InTime deadline w.now → w.now ≤ w'.now
  inTime : ∀ {deadline w o w'}, x deadline w = (o, w') → InTime deadline w.now → InTime deadline w'.now
  cut : ∀ {d w w'}, x (some d) w = (.unanswered, w') → w.now ≤ d → w'.now = d
  followed : ∀ {deadline w o w'}, x deadline w = (o, w') → o ≠ .unfollowed

/-- A call that is never answered by a request for a pause. -/
def Timed.Unlimited (x : Timed σ (Relayed α)) : Prop :=
  ∀ deadline w seconds w', x deadline w ≠ (.done (.error (.rateLimited seconds)), w')

namespace Timed

variable {deadline : Option Nat} {w w' : World σ}

theorem sleep_of_inTime {ms : Nat} (h : InTime deadline (w.now + sleepTime ms)) :
    sleep ms deadline w = (.done (), { w with now := w.now + sleepTime ms }) := by
  cases deadline with
  | none => rfl
  | some d => simp only [sleep, if_pos (inTime_some.mp h)]

theorem sleep_of_late {ms d : Nat} (h : d < w.now + sleepTime ms) :
    sleep ms (some d) w = (.unanswered, { w with now := d }) := by
  simp only [sleep, if_neg (Nat.not_le.mpr h)]

theorem Punctual.of_now {x : Timed σ α} (h : ∀ deadline w, ∃ a w', x deadline w = (.done a, w') ∧ w'.now = w.now) :
    x.Punctual := by
  have hout : ∀ {deadline w o w'}, x deadline w = (o, w') → (∃ a, o = .done a) ∧ w'.now = w.now := by
    intro deadline w o w' heq
    obtain ⟨a, w₁, hx, hnow⟩ := h deadline w
    cases hx.symm.trans heq
    exact ⟨⟨a, rfl⟩, hnow⟩
  refine ⟨?_, ?_, ?_, ?_⟩
  · intro deadline w o w' heq _
    exact Nat.le_of_eq (hout heq).2.symm
  · intro deadline w o w' heq hin
    rw [(hout heq).2]
    exact hin
  · intro d w w' heq
    obtain ⟨⟨a, ha⟩, -⟩ := hout heq
    cases ha
  · intro deadline w o w' heq
    obtain ⟨⟨a, rfl⟩, -⟩ := hout heq
    simp

theorem punctual_sleep (ms : Nat) : (sleep ms : Timed σ Unit).Punctual := by
  have hcases : ∀ {deadline : Option Nat} {w : World σ} {o w'}, sleep ms deadline w = (o, w') →
      (o = .done () ∧ w'.now = w.now + sleepTime ms ∧ InTime deadline w'.now) ∨
      o = .unanswered ∧ deadline = some w'.now := by
    intro deadline w o w' heq
    by_cases hin : InTime deadline (w.now + sleepTime ms)
    · rw [sleep_of_inTime hin] at heq
      cases heq
      exact .inl ⟨rfl, rfl, hin⟩
    · obtain ⟨d, rfl, hd⟩ := not_inTime hin
      rw [sleep_of_late hd] at heq
      cases heq
      exact .inr ⟨rfl, rfl⟩
  refine ⟨?_, ?_, ?_, ?_⟩
  · intro deadline w o w' heq hin
    obtain ⟨-, hnow, -⟩ | ⟨-, rfl⟩ := hcases heq
    · omega
    · exact inTime_some.mp hin
  · intro deadline w o w' heq _
    obtain ⟨-, -, hin'⟩ | ⟨-, rfl⟩ := hcases heq
    · exact hin'
    · simp
  · intro d w w' heq _
    obtain ⟨ho, -, -⟩ | ⟨-, hd⟩ := hcases heq
    · cases ho
    · exact (Option.some.inj hd).symm
  · intro deadline w o w' heq
    obtain ⟨rfl, -, -⟩ | ⟨rfl, -⟩ := hcases heq <;> simp

theorem punctual_forever : (forever : Timed σ α).Punctual := by
  have hcases : ∀ {deadline : Option Nat} {w : World σ} {o : Outcome α} {w'}, forever deadline w = (o, w') →
      o = .unanswered ∧ w'.now = deadline.getD w.now := by
    intro deadline w o w' heq
    cases deadline <;> cases heq <;> exact ⟨rfl, rfl⟩
  refine ⟨?_, ?_, ?_, ?_⟩
  · intro deadline w o w' heq hin
    rw [(hcases heq).2]
    cases deadline with
    | none => exact Nat.le_refl _
    | some d => exact inTime_some.mp hin
  · intro deadline w o w' heq _
    rw [(hcases heq).2]
    cases deadline <;> simp
  · intro d w w' heq _
    exact (hcases heq).2
  · intro deadline w o w' heq
    rw [(hcases heq).1]
    simp

theorem Punctual.bind {β : Type} {x : Timed σ α} {f : α → Timed σ β} (hx : x.Punctual) (hf : ∀ a, (f a).Punctual) :
    (x >>= f).Punctual := by
  -- either `x` ends and `f` goes on from there, or the whole ends as `x` does
  have hcases : ∀ {deadline w} {o : Outcome β} {w'}, (x >>= f) deadline w = (o, w') →
      (∃ a w₁, x deadline w = (.done a, w₁) ∧ f a deadline w₁ = (o, w')) ∨
      (x deadline w = (.unanswered, w') ∧ o = .unanswered) := by
    intro deadline w o w' heq
    simp only [Bind.bind, andThen] at heq
    split at heq
    · rename_i a w₁ hxa
      exact .inl ⟨a, w₁, hxa, heq⟩
    · rename_i w₁ hxa
      cases heq
      exact .inr ⟨hxa, rfl⟩
    · rename_i w₁ hxa
      exact absurd rfl (hx.followed hxa)
  refine ⟨?_, ?_, ?_, ?_⟩
  · intro deadline w o w' heq hin
    obtain ⟨a, w₁, hxa, hfa⟩ | ⟨hxa, -⟩ := hcases heq
    · exact Nat.le_trans (hx.onward hxa hin) ((hf a).onward hfa (hx.inTime hxa hin))
    · exact hx.onward hxa hin
  · intro deadline w o w' heq hin
    obtain ⟨a, w₁, hxa, hfa⟩ | ⟨hxa, -⟩ := hcases heq
    · exact (hf a).inTime hfa (hx.inTime hxa hin)
    · exact hx.inTime hxa hin
  · intro d w w' heq hle
    obtain ⟨a, w₁, hxa, hfa⟩ | ⟨hxa, -⟩ := hcases heq
    · exact (hf a).cut hfa (inTime_some.mp (hx.inTime hxa (inTime_some.mpr hle)))
    · exact hx.cut hxa hle
  · intro deadline w o w' heq
    obtain ⟨a, w₁, hxa, hfa⟩ | ⟨-, rfl⟩ := hcases heq
    · exact (hf a).followed hfa
    · simp

theorem bind_pure_cases {β : Type} {x : Timed σ α} {f : α → β} {o : Outcome β}
    (h : (x >>= fun a => pure (f a)) deadline w = (o, w')) : ∃ o₁, x deadline w = (o₁, w') ∧ o = o₁.map f := by
  simp only [Bind.bind, andThen] at h
  split at h
  · rename_i a w₁ hx
    cases h
    exact ⟨_, hx, rfl⟩
  · rename_i w₁ hx
    cases h
    exact ⟨_, hx, rfl⟩
  · rename_i w₁ hx
    cases h
    exact ⟨_, hx, rfl⟩

/-- What a deadline of its own comes to: the one from outside is earlier and counts, or the computation ends
in time, or it is cut off, which is an error. -/
theorem within_cases {limit : Nat} {x : Timed σ (Relayed α)} {o : Outcome (Relayed α)}
    (h : within limit x deadline w = (o, w')) :
    (∃ d, deadline = some d ∧ d < w.now + limit ∧ x (some d) w = (o, w')) ∨
    InTime deadline (w.now + limit) ∧
      ((x (some (w.now + limit)) w = (o, w') ∧ o ≠ .unanswered) ∨
        ∃ w₁, x (some (w.now + limit)) w = (.unanswered, w₁) ∧ o = .done (.error (.timeout limit)) ∧
          w' = { w₁ with now := w.now + limit }) := by
  unfold within at h
  dsimp only at h
  split at h
  · rename_i hany
    obtain ⟨d, rfl, hd⟩ : ∃ d, deadline = some d ∧ d < w.now + limit := by
      cases deadline with
      | none => cases hany
      | some d => exact ⟨d, rfl, by simpa using hany⟩
    exact .inl ⟨d, rfl, hd, h⟩
  · rename_i hany
    have hown : InTime deadline (w.now + limit) := by
      cases deadline with
      | none => exact inTime_none _
      | some d => exact inTime_some.mpr (by simpa using hany)
    refine .inr ⟨hown, ?_⟩
    split at h
    · rename_i w₁ hx
      cases h
      exact .inr ⟨w₁, hx, rfl, rfl⟩
    · rename_i hne
      exact .inl ⟨h, fun ho => hne w' (ho ▸ h)⟩

/-- A deadline of its own is never waited for in vain: it is an error. -/
theorem within_none_ne_unanswered {limit : Nat} {x : Timed σ (Relayed α)} {o : Outcome (Relayed α)}
    (h : within limit x none w = (o, w')) : o ≠ .unanswered := by
  obtain ⟨d, hd, -⟩ | ⟨-, ⟨-, hne⟩ | ⟨w₁, -, rfl, -⟩⟩ := within_cases h
  · cases hd
  · exact hne
  · simp

theorem Punctual.within {x : Timed σ (Relayed α)} (hx : x.Punctual) (limit : Nat) :
    (Timed.within limit x).Punctual := by
  refine ⟨?_, ?_, ?_, ?_⟩
  · intro deadline w o w' h hin
    obtain ⟨d, rfl, -, hxd⟩ | ⟨-, ⟨hxd, -⟩ | ⟨w₁, -, -, rfl⟩⟩ := within_cases h
    · exact hx.onward hxd hin
    · exact hx.onward hxd (inTime_some.mpr (Nat.le_add_right _ _))
    · exact Nat.le_add_right _ _
  · intro deadline w o w' h hin
    obtain ⟨d, rfl, -, hxd⟩ | ⟨hown, ⟨hxd, -⟩ | ⟨w₁, -, -, rfl⟩⟩ := within_cases h
    · exact hx.inTime hxd hin
    · have hle : w'.now ≤ w.now + limit :=
        inTime_some.mp (hx.inTime hxd (inTime_some.mpr (Nat.le_add_right _ _)))
      exact fun d hd => Nat.le_trans hle (hown d hd)
    · exact hown
  · intro d w w' h hle
    obtain ⟨d', hd, -, hxd⟩ | ⟨-, ⟨-, hne⟩ | ⟨w₁, -, ho, -⟩⟩ := within_cases h
    · cases hd
      exact hx.cut hxd hle
    · exact absurd rfl hne
    · cases ho
  · intro deadline w o w' h
    obtain ⟨d, -, -, hxd⟩ | ⟨-, ⟨hxd, -⟩ | ⟨w₁, -, rfl, -⟩⟩ := within_cases h
    · exact hx.followed hxd
    · exact hx.followed hxd
    · simp

theorem Unlimited.within {x : Timed σ (Relayed α)} (hx : x.Unlimited) (limit : Nat) :
    (Timed.within limit x).Unlimited := by
  intro deadline w seconds w' h
  obtain ⟨d, -, -, hxd⟩ | ⟨-, ⟨hxd, -⟩ | ⟨w₁, -, ho, -⟩⟩ := within_cases h
  · exact hx _ _ _ _ hxd
  · exact hx _ _ _ _ hxd
  · cases ho

end Timed

/-! ## Trying again -/

/-- The world after the program has given notice of a pause and has waited until `now`. -/
def World.paused (ev : Log.Event) (now : Nat) (w : World σ) : World σ :=
  { w with now := now, log := ev :: w.log, retries := w.retries + 1 }

namespace Retry

/-- After an error the call is made again: the notice of the pause, its length and the number of failed
attempts from then on. -/
inductive Again (op : String) (limit : Nat) (delay : Nat → Nat) (failures : Nat) :
    RelayError → Log.Event → (pause failures' : Nat) → Prop where
  | limited (seconds : Nat) :
    Again op limit delay failures (.rateLimited seconds) (pausing op seconds) (seconds * 1000) failures
  | failed {x : RelayError} : x.isTransient = true → (∀ seconds, x ≠ .rateLimited seconds) → failures + 1 < limit →
    Again op limit delay failures x (failed op (failures + 1) (delay (failures + 1)) x) (delay (failures + 1))
      (failures + 1)

/-- A run of the loop that follows at most `fuel` calls, `failures` attempts having failed before. -/
inductive Runs (op : String) (limit : Nat) (delay : Nat → Nat) (call : Timed σ (Relayed α))
    (deadline : Option Nat) : (fuel failures : Nat) → World σ → Outcome (Relayed α) → World σ → Prop where
  | final {fuel failures w r w₁} : call deadline w = (.done r, w₁) → r.Final →
    Runs op limit delay call deadline (fuel + 1) failures w (.done r) w₁
  | exhausted {fuel failures w x w₁} : call deadline w = (.done (.error x), w₁) → x.isTransient = true →
    (∀ seconds, x ≠ .rateLimited seconds) → limit ≤ failures + 1 →
    Runs op limit delay call deadline (fuel + 1) failures w (.done (.error x))
      { w₁ with log := exhausted op (failures + 1) x :: w₁.log }
  | again {fuel failures w x w₁ ev pause failures' o w'} : call deadline w = (.done (.error x), w₁) →
    Again op limit delay failures x ev pause failures' → InTime deadline (w₁.now + sleepTime pause) →
    Runs op limit delay call deadline fuel failures' (w₁.paused ev (w₁.now + sleepTime pause)) o w' →
    Runs op limit delay call deadline (fuel + 1) failures w o w'
  | cut {fuel failures w x w₁ ev pause failures' d} : call deadline w = (.done (.error x), w₁) →
    Again op limit delay failures x ev pause failures' → deadline = some d → d < w₁.now + sleepTime pause →
    Runs op limit delay call deadline (fuel + 1) failures w .unanswered (w₁.paused ev d)
  | unanswered {fuel failures w w₁} : call deadline w = (.unanswered, w₁) →
    Runs op limit delay call deadline (fuel + 1) failures w .unanswered w₁
  | lost {fuel failures w w₁} : call deadline w = (.unfollowed, w₁) →
    Runs op limit delay call deadline (fuel + 1) failures w .unfollowed w₁
  | unfollowed {failures w} : Runs op limit delay call deadline 0 failures w .unfollowed w

variable {op : String} {limit : Nat} {delay : Nat → Nat} {call : Timed σ (Relayed α)} {deadline : Option Nat}
  {failures fuel : Nat} {w w' : World σ} {o : Outcome (Relayed α)}

/-- **The loop.** What it does is one of its runs. -/
theorem loop_runs (h : loop op limit delay call fuel failures deadline w = (o, w')) :
    Runs op limit delay call deadline fuel failures w o w' := by
  induction fuel generalizing failures w with
  | zero =>
    cases h
    exact .unfollowed
  | succ fuel ih =>
    -- a pause ends in the next call or at the deadline
    have hpause : ∀ {x w₁ ev pause failures'}, call deadline w = (.done (.error x), w₁) →
        Again op limit delay failures x ev pause failures' →
        (Timed.sleep pause >>= fun _ => loop op limit delay call fuel failures') deadline
          { w₁ with log := ev :: w₁.log, retries := w₁.retries + 1 } = (o, w') →
        Runs op limit delay call deadline (fuel + 1) failures w o w' := by
      intro x w₁ ev pause failures' hcall hagain h
      by_cases hin : InTime deadline (w₁.now + sleepTime pause)
      · simp only [bind, Timed.andThen, Timed.sleep_of_inTime
          (w := { w₁ with log := ev :: w₁.log, retries := w₁.retries + 1 }) hin] at h
        exact .again hcall hagain hin (ih h)
      · obtain ⟨d, rfl, hd⟩ := not_inTime hin
        simp only [bind, Timed.andThen, Timed.sleep_of_late
          (w := { w₁ with log := ev :: w₁.log, retries := w₁.retries + 1 }) hd] at h
        cases h
        exact .cut hcall hagain rfl hd
    simp only [loop, bind, Timed.andThen] at h
    split at h
    · rename_i r w₁ hcall
      split at h
      · cases h
        exact .final hcall (by intro x hx; cases hx)
      · rename_i seconds
        exact hpause hcall (.limited seconds) h
      · rename_i x hx
        split at h
        · rename_i htransient
          split at h
          · rename_i hlimit
            cases h
            exact .exhausted hcall htransient (fun n hn => hx n (by rw [hn])) hlimit
          · rename_i hlimit
            exact hpause hcall (.failed htransient (fun n hn => hx n (by rw [hn])) (Nat.not_le.mp hlimit)) h
        · rename_i hfinal
          cases h
          refine .final hcall ?_
          intro y hy
          cases hy
          exact Bool.not_eq_true _ ▸ hfinal
    · rename_i w₁ hcall
      cases h
      exact .unanswered hcall
    · rename_i w₁ hcall
      cases h
      exact .lost hcall

theorem Runs.of_final {r : Relayed α} {w₁ : World σ} (hcall : call deadline w = (.done r, w₁)) (hr : r.Final)
    (h : Runs op limit delay call deadline (fuel + 1) failures w o w') : o = .done r ∧ w' = w₁ := by
  have hnot : ∀ {x}, r = .error x → x.isTransient ≠ true := fun hx => by simp [hr _ hx]
  cases h with
  | final hcall' =>
    cases hcall.symm.trans hcall'
    exact ⟨rfl, rfl⟩
  | exhausted hcall' htransient =>
    cases hcall.symm.trans hcall'
    exact absurd htransient (hnot rfl)
  | again hcall' hagain | cut hcall' hagain =>
    cases hcall.symm.trans hcall'
    cases hagain with
    | limited => exact absurd rfl (hnot rfl)
    | failed htransient => exact absurd htransient (hnot rfl)
  | unanswered hcall' | lost hcall' => cases hcall.symm.trans hcall'

/-- A peer that never asks for a pause is called at most once for each attempt. -/
theorem Runs.followed (hcall : ∀ {w o w'}, call deadline w = (o, w') → o ≠ .unfollowed) (hlimit : call.Unlimited)
    (h : Runs op limit delay call deadline fuel failures w o w') (hfuel : limit ≤ failures + fuel)
    (hfailures : failures < limit) : o ≠ .unfollowed := by
  induction h with
  | final => simp
  | exhausted => simp
  | again herror hagain _ _ ih =>
    cases hagain with
    | limited seconds => exact absurd herror (hlimit _ _ _ _)
    | failed _ _ hless => exact ih (by omega) hless
  | cut => simp
  | unanswered => simp
  | lost hlost => exact absurd rfl (hcall hlost)
  | unfollowed => omega

theorem Runs.not_limited (h : Runs op limit delay call deadline fuel failures w o w') (seconds : Nat) :
    o ≠ .done (.error (.rateLimited seconds)) := by
  induction h with
  | final _ hfinal =>
    intro ho
    cases ho
    exact absurd (hfinal _ rfl) (by simp [RelayError.isTransient, RelayError.kind])
  | exhausted _ _ hne =>
    intro ho
    cases ho
    exact hne seconds rfl
  | again _ _ _ _ ih => exact ih
  | cut => simp
  | unanswered => simp
  | lost => simp
  | unfollowed => simp

/-- Without a deadline from outside, calls that are always answered make a loop that is. -/
theorem Runs.answered (hcall : ∀ {w o w'}, call none w = (o, w') → o ≠ .unanswered)
    (h : Runs op limit delay call deadline fuel failures w o w') (hnone : deadline = none) : o ≠ .unanswered := by
  induction h with
  | final => simp
  | exhausted => simp
  | again _ _ _ _ ih => exact ih
  | cut _ _ hsome _ =>
    subst hnone
    cases hsome
  | unanswered hun =>
    subst hnone
    exact absurd rfl (hcall hun)
  | lost => simp
  | unfollowed => simp

end Retry

namespace Policy

def attempts (p : Policy) : Nat := max 1 p.maxAttempts

theorem attempts_pos (p : Policy) : 0 < p.attempts := by
  unfold attempts
  omega

theorem read_runs {p : Policy} {followed : Nat} {op : String} {call : Timed σ (Relayed α)} {deadline : Option Nat}
    {w w' : World σ} {o : Outcome (Relayed α)} (h : p.read followed op call deadline w = (o, w')) :
    Retry.Runs op p.attempts (pauseAfter p.backoff) (Timed.within p.timeout call) deadline followed 0 w o w' :=
  Retry.loop_runs h

/-- Without a deadline from outside, a read has a result, if its attempts come to an end and no peer asks for a
pause. -/
theorem runs_done {p : Policy} {followed : Nat} {op : String} {call : Timed σ (Relayed α)} {w w' : World σ}
    {o : Outcome (Relayed α)}
    (hcall : ∀ {w o w'}, Timed.within p.timeout call none w = (o, w') → o ≠ .unfollowed) (hlimit : call.Unlimited)
    (hfollowed : p.attempts ≤ followed)
    (h : Retry.Runs op p.attempts (pauseAfter p.backoff) (Timed.within p.timeout call) none followed 0 w o w') :
    ∃ r, o = .done r := by
  have hends := h.followed hcall (hlimit.within p.timeout) (by omega) p.attempts_pos
  have hanswered := h.answered (fun h => Timed.within_none_ne_unanswered h) rfl
  cases o with
  | done r => exact ⟨r, rfl⟩
  | unanswered => exact absurd rfl hanswered
  | unfollowed => exact absurd rfl hends

end Policy

end HeaderRelay
