import HeaderRelay.Proofs.TaskMetrics
import HeaderRelay.Schedule.Scheduler
import Mathlib.Order.Nat

/-!
# The pace of cycles, and the end

`Strategy.paced` are the cycles of a strategy that nobody stops: each starts a pause after the end of the one before,
whatever came of that. A task whose flag is raised at a moment runs just those of them that start before that moment,
and ends when the last of them has ended, or at that moment (`Task.timeline_stopping`). The flag may be raised before
the task first looks at it, in a cycle, in a pause, or just when a pause ends. The induction is on the number of these
cycles: after one of them the pause is cut short by the flag, and the task ends, or it comes to its end, and the next
cycle starts.

A stage that was set up in any way (`Stage.Open`) has tasks of the scheduler that started before and whose flags are
lowered. To shut it down is to raise these at the present moment and to wait for one task after the other.

Result: `Stage.shutdown_paces`.
-/
namespace HeaderRelay

theorem sleepTime_pos {ms : Nat} (h : 0 < ms) : 0 < sleepTime ms := Nat.lt_min.mpr ⟨h, by decide⟩

namespace Schedule

variable {σ : Type}

namespace Moment

variable {a b c : Moment}

theorem time_le (h : a ≤ b) : a.time ≤ b.time := by
  rw [le_def] at h
  omega

theorem eq_of_le_of_ge (hab : a ≤ b) (hba : b ≤ a) : a = b := by
  obtain ⟨ta, ka⟩ := a
  obtain ⟨tb, kb⟩ := b
  simp only [le_def] at hab hba
  have htime : ta = tb := by omega
  have hturn : ka = kb := by omega
  rw [htime, hturn]

instance : LinearOrder Moment where
  le_refl := le_refl
  le_trans _ _ _ := le_trans
  le_antisymm _ _ := eq_of_le_of_ge
  le_total a b := by
    simp only [le_def]
    omega
  lt_iff_le_not_ge a b := by
    simp only [le_def, lt_def]
    omega
  toDecidableLE := inferInstance
  toDecidableLT := inferInstance
  toDecidableEq := inferInstance

theorem latest_eq_left (h : b ≤ a) : a.latest b = a := if_neg (not_lt.mpr h)

theorem latest_eq_right (h : a ≤ b) : a.latest b = b := by
  unfold latest
  split
  · rfl
  · rename_i hnot
    exact le_antisymm h (not_lt.mp hnot)

theorem latest_le (ha : a ≤ c) (hb : b ≤ c) : a.latest b ≤ c := by
  unfold latest
  split
  · exact hb
  · exact ha

end Moment

/-! ## A flag that is raised once -/

/-- The flag that the scheduler's tasks have once they are told to stop. -/
def StopFlag.raisedAt (when : Moment) : StopFlag := StopFlag.lowered.set when true

namespace StopFlag

variable {when now : Moment} {delay : Nat}

theorem valueAt_raisedAt : (raisedAt when).valueAt now = decide (when ≤ now) := by
  by_cases h : when ≤ now <;> simp [raisedAt, lowered, set, valueAt, h]

theorem pause_raisedAt_of_le (h : when ≤ now.afterSleep delay) :
    (raisedAt when).pause now delay 0 =
      .resumed (now.latest when) ((raisedAt when).setsBy (now.latest when)) := by
  have hle : now.latest when ≤ now.afterSleep delay := Moment.latest_le (Moment.le_afterSleep now delay) h
  simp [raisedAt, lowered, set, pause, Option.filter, hle]

theorem pause_raisedAt_of_lt (h : now.afterSleep delay < when) :
    (raisedAt when).pause now delay 0 = .resumed (now.afterSleep delay) 0 := by
  have hnot : ¬ now.latest when ≤ now.afterSleep delay :=
    not_le.mpr (lt_of_lt_of_le h (Moment.le_latest_right now when))
  simp [raisedAt, lowered, set, pause, Option.filter, hnot]

end StopFlag

/-! ## Cycles that nobody stops -/

namespace Strategy

def Finishes (x : Strategy σ) : Prop := ∀ start s, ∃ r, (x.cycle start s).1.ending = .finished r

/-- The cycles of the strategy, the first at `start`, and each other one a pause after the end of the one before. -/
def paced (x : Strategy σ) (delay : Nat) (start : Moment) (s : σ) : Nat → Played σ
  | 0 => x.play start s
  | n + 1 => x.play ((x.paced delay start s n).span.stop.afterSleep (sleepTime delay)) (x.paced delay start s n).after

variable (x : Strategy σ) {delay : Nat} (start : Moment) (s : σ)

theorem paced_succ (n : Nat) :
    x.paced delay start s (n + 1) =
      x.paced delay ((x.play start s).span.stop.afterSleep (sleepTime delay)) (x.play start s).after n := by
  induction n with
  | zero => rfl
  | succ n ih => rw [paced, ih, paced]

theorem start_paced_succ (n : Nat) :
    (x.paced delay start s (n + 1)).span.start =
      (x.paced delay start s n).span.stop.afterSleep (sleepTime delay) := rfl

theorem start_le_stop (delay n : Nat) : (x.paced delay start s n).span.start ≤ (x.paced delay start s n).span.stop := by
  cases n with
  | zero => exact Moment.le_afterSleep _ _
  | succ n => exact Moment.le_afterSleep _ _

theorem time_lt_paced_succ (hdelay : 0 < delay) (n : Nat) :
    (x.paced delay start s n).span.start.time < (x.paced delay start s (n + 1)).span.start.time := by
  have hle := Moment.time_le (x.start_le_stop start s delay n)
  have hpos := sleepTime_pos hdelay
  rw [start_paced_succ, Moment.time_afterSleep]
  omega

theorem add_le_time_paced (hdelay : 0 < delay) (n : Nat) :
    start.time + n ≤ (x.paced delay start s n).span.start.time := by
  induction n with
  | zero => exact Nat.le_refl _
  | succ n ih =>
    have hlt := x.time_lt_paced_succ start s hdelay n
    omega

theorem paced_mono (hdelay : 0 < delay) {m n : Nat} (h : m ≤ n) :
    (x.paced delay start s m).span.start ≤ (x.paced delay start s n).span.start := by
  induction h with
  | refl => exact le_refl _
  | step _ ih => exact le_trans ih (.inl (x.time_lt_paced_succ start s hdelay _))

theorem exists_paced_lt (hdelay : 0 < delay) (when : Moment) :
    ∃ n, ∀ i, (x.paced delay start s i).span.start < when ↔ i < n := by
  have hlate : ∃ n, when ≤ (x.paced delay start s n).span.start := by
    have htime := x.add_le_time_paced start s hdelay (when.time + 1)
    exact ⟨when.time + 1, .inl (by omega)⟩
  refine ⟨Nat.find hlate, fun i => ⟨fun hi => ?_, fun hi => ?_⟩⟩
  · refine Nat.not_le.mp fun hle => not_lt.mpr ?_ hi
    exact le_trans (Nat.find_spec hlate) (x.paced_mono start s hdelay hle)
  · exact not_le.mp (Nat.find_min hlate hi)

end Strategy

/-! ## Cycles until the flag is raised -/

/-- When a task ends that has run so many cycles before its flag is raised: then, or when the last of them has ended. -/
def Strategy.endOfPaced (x : Strategy σ) (delay : Nat) (start when : Moment) (s : σ) : (cycles : Nat) → Moment
  | 0 => start
  | n + 1 => (x.paced delay start s n).span.stop.latest when

section Timelines

variable {x : Strategy σ} {delay fuel seen : Nat} {horizon start when : Moment} {s : σ}

theorem timelineFrom_of_le (hfuel : 0 < fuel) (h : when ≤ start) :
    timelineFrom x delay (.raisedAt when) horizon fuel start seen s = ⟨[], .stopped start⟩ := by
  obtain ⟨fuel, rfl⟩ := Nat.exists_eq_succ_of_ne_zero (Nat.ne_of_gt hfuel)
  rw [timelineFrom, StopFlag.valueAt_raisedAt, decide_eq_true h]
  rfl

/-- Before it is raised a cycle starts, and runs to its end; what follows is the pause. -/
theorem timelineFrom_of_lt (hx : x.Finishes) (hhorizon : when < horizon) (h : start < when) :
    timelineFrom x delay (.raisedAt when) horizon (fuel + 1) start 0 s =
      match (StopFlag.raisedAt when).pause (x.play start s).span.stop (sleepTime delay) 0 with
      | .orphaned t => ⟨[(x.play start s).span], .stopped t⟩
      | .resumed t seen =>
        (timelineFrom x delay (.raisedAt when) horizon fuel t seen (x.play start s).after).after
          (x.play start s).span := by
  have hrunning : ¬ horizon ≤ start := not_le.mpr (lt_trans h hhorizon)
  rw [timelineFrom, StopFlag.valueAt_raisedAt, decide_eq_false (not_le.mpr h), if_neg Bool.false_ne_true,
    if_neg hrunning]
  unfold Strategy.play
  obtain ⟨r, hr⟩ := hx start.time s
  generalize x.cycle start.time s = cycle at hr ⊢
  obtain ⟨⟨takes, ending⟩, after⟩ := cycle
  cases hr
  rfl

/-- **The cycles of a task that is stopped.** They are the paced ones that start before the flag is raised. -/
theorem timelineFrom_paced (hx : x.Finishes) (hhorizon : when < horizon) {n : Nat} (hfuel : n < fuel)
    (hn : ∀ i, (x.paced delay start s i).span.start < when ↔ i < n) :
    timelineFrom x delay (.raisedAt when) horizon fuel start 0 s =
      ⟨(List.range n).map fun i => (x.paced delay start s i).span, .stopped (x.endOfPaced delay start when s n)⟩ := by
  induction n generalizing fuel start s with
  | zero => exact timelineFrom_of_le hfuel (not_lt.mp fun h => absurd ((hn 0).mp h) (Nat.lt_irrefl 0))
  | succ n ih =>
    obtain ⟨fuel, rfl⟩ := Nat.exists_eq_succ_of_ne_zero (Nat.ne_of_gt (Nat.zero_lt_of_lt hfuel))
    have hfuel : n < fuel := Nat.lt_of_succ_lt_succ hfuel
    have hstart : start < when := (hn 0).mpr (Nat.succ_pos n)
    rw [timelineFrom_of_lt hx hhorizon hstart]
    by_cases hcut : when ≤ (x.play start s).span.stop.afterSleep (sleepTime delay)
    · -- the flag is raised by the end of the pause, so there is one cycle only
      obtain rfl : n = 0 := by
        have hnot : ¬ 1 < n + 1 := fun hlt => not_lt.mpr hcut ((hn 1).mpr hlt)
        omega
      rw [StopFlag.pause_raisedAt_of_le hcut]
      dsimp only
      rw [timelineFrom_of_le hfuel (Moment.le_latest_right _ _)]
      rfl
    · have hlt := not_le.mp hcut
      rw [StopFlag.pause_raisedAt_of_lt hlt]
      have hnext : ∀ i, (x.paced delay ((x.play start s).span.stop.afterSleep (sleepTime delay))
          (x.play start s).after i).span.start < when ↔ i < n := by
        intro i
        rw [← Strategy.paced_succ, hn, Nat.succ_lt_succ_iff]
      obtain ⟨m, rfl⟩ : ∃ m, n = m + 1 := Nat.exists_eq_succ_of_ne_zero fun hzero => by
        have hone : 1 < n + 1 := (hn 1).mp hlt
        omega
      dsimp only
      rw [ih hfuel hnext, List.range_succ_eq_map (n := m + 1), List.map_cons, List.map_map]
      simp only [Timeline.after, Strategy.endOfPaced, Function.comp_def, Nat.succ_eq_add_one, Strategy.paced_succ]
      rfl

end Timelines

namespace Task

/-- The cycles of the task if nobody stops it. -/
def paced (t : Task σ) : Nat → Played σ := t.strategy.paced t.delay t.start t.state

/-- The task once it is told to stop at a moment. -/
def stopping (t : Task σ) (when : Moment) : Task σ := { t with flag := .raisedAt when }

/-- When the task ends that is told to stop after so many cycles have started. -/
def endAfter (t : Task σ) (when : Moment) (cycles : Nat) : Moment :=
  t.strategy.endOfPaced t.delay t.start when t.state cycles

variable {t : Task σ} {when horizon : Moment} {n : Nat}

theorem lt_rounds (hdelay : 0 < t.delay) (hhorizon : when < horizon)
    (hn : ∀ i, (t.paced i).span.start < when ↔ i < n) :
    n < horizon.time - t.start.time + 1 + t.strategy.instant + 2 := by
  cases n with
  | zero => omega
  | succ n =>
    have hlast := Moment.time_le (le_of_lt ((hn n).mpr (Nat.lt_succ_self n)))
    have htime : t.start.time + n ≤ (t.paced n).span.start.time := t.strategy.add_le_time_paced _ _ hdelay n
    have hle := Moment.time_le (le_of_lt hhorizon)
    omega

/-- **A task that is stopped.** It runs the paced cycles that start before it is told to stop. -/
theorem timeline_stopping (hx : t.strategy.Finishes) (hdelay : 0 < t.delay) (hhorizon : when < horizon)
    (hn : ∀ i, (t.paced i).span.start < when ↔ i < n) :
    (t.stopping when).timeline horizon =
      ⟨(List.range n).map fun i => (t.paced i).span, .stopped (t.endAfter when n)⟩ :=
  timelineFrom_paced hx hhorizon (lt_rounds hdelay hhorizon hn) hn

theorem le_endAfter (hstart : t.start ≤ when) (hn : ∀ i, (t.paced i).span.start < when ↔ i < n) :
    when ≤ t.endAfter when n ∧ (∀ i < n, (t.paced i).span.stop ≤ t.endAfter when n) ∧
      (t.endAfter when n = when ∨
        ∃ i < n, when < (t.paced i).span.stop ∧ t.endAfter when n = (t.paced i).span.stop) := by
  cases n with
  | zero =>
    have hle : when ≤ t.start := not_lt.mp fun h => absurd ((hn 0).mp h) (Nat.lt_irrefl 0)
    exact ⟨hle, by simp, .inl (le_antisymm hstart hle)⟩
  | succ n =>
    have hends : t.endAfter when (n + 1) = (t.paced n).span.stop.latest when := rfl
    rw [hends]
    refine ⟨Moment.le_latest_right _ _, fun i hi => ?_, ?_⟩
    · obtain hlt | rfl := Nat.lt_succ_iff_lt_or_eq.mp hi
      · have hnext : (t.paced i).span.stop ≤ (t.paced (i + 1)).span.start := Moment.le_afterSleep _ _
        have hbefore := (hn (i + 1)).mpr (Nat.succ_lt_succ hlt)
        exact le_trans hnext (le_trans (le_of_lt hbefore) (Moment.le_latest_right _ _))
      · exact Moment.le_latest_left _ _
    · by_cases hflight : when < (t.paced n).span.stop
      · exact .inr ⟨n, Nat.lt_succ_self n, hflight, Moment.latest_eq_left (le_of_lt hflight)⟩
      · exact .inl (Moment.latest_eq_right (not_lt.mp hflight))

/-- What a task does that is told to stop at a moment, by the moment at which this is done: its first cycle starts when
the task does, and each other one its pause after the end of the one before; it runs just those that start before it is
told to stop; and these come to their ends. -/
structure Paces (t : Task σ) (when returned : Moment) : Prop where
  first : (t.paced 0).span.start = t.start
  next : ∀ i, (t.paced (i + 1)).span.start.time = (t.paced i).span.stop.time + sleepTime t.delay
  runs : ∃ n, (∀ i, (t.paced i).span.start < when ↔ i < n) ∧ ∀ horizon, when < horizon →
    ((t.stopping when).timeline horizon).spans = (List.range n).map fun i => (t.paced i).span
  ended : ∀ i, (t.paced i).span.start < when → (t.paced i).span.stop < returned

/-- A task that ends at `ended`, however far it is followed beyond `when`. -/
def EndsAt (t : Task σ) (when ended : Moment) : Prop :=
  ∀ horizon, when < horizon → (t.timeline horizon).ending = .stopped ended

theorem EndsAt.unique {m m' : Moment} (h : t.EndsAt when m) (h' : t.EndsAt when m') : m = m' := by
  have hsame := (h when.nextTurn (Moment.lt_nextTurn _)).symm.trans (h' when.nextTurn (Moment.lt_nextTurn _))
  exact TaskEnd.stopped.inj hsame

end Task

/-! ## The stage -/

namespace Stage

/-- A stage before it is shut down. -/
inductive Open : Stage σ → Prop where
  | empty : Open empty
  | spawn {s : Stage σ} (h : Open s) (strategy : Strategy σ) (state : σ) (delay : Nat) :
    Open (s.spawn strategy state delay)
  | waitUntil {s : Stage σ} (h : Open s) (time : Nat) : Open (s.waitUntil time)
  | startAlone {s : Stage σ} (h : Open s) (strategy : Strategy σ) (state : σ) (delay : Nat) (initial : Bool) :
    Open (s.startAlone strategy state delay initial)
  | setFlag {s : Stage σ} (h : Open s) (raised : Bool) : Open (s.setFlag raised).2
  | abandon {s : Stage σ} (h : Open s) : Open s.abandon

variable {s s' : Stage σ} {when : Moment}

theorem owned_touchFlags (f : StopFlag → StopFlag) :
    (s.touchFlags true f).owned = s.owned.map fun t => { t with flag := f t.flag } := by
  unfold owned touchFlags
  induction s.tasks with
  | nil => rfl
  | cons x tasks ih =>
    obtain ⟨_ | _, t⟩ := x <;> simpa using ih

theorem owned_touchFlags_false (f : StopFlag → StopFlag) : (s.touchFlags false f).owned = s.owned := by
  unfold owned touchFlags
  induction s.tasks with
  | nil => rfl
  | cons x tasks ih =>
    obtain ⟨_ | _, t⟩ := x <;> simpa using ih

theorem owned_spawn (strategy : Strategy σ) (state : σ) (delay : Nat) :
    (s.spawn strategy state delay).owned = s.owned ++ [⟨strategy, state, delay, s.now, .lowered⟩] := by
  simp [owned, spawn]

theorem owned_startAlone (strategy : Strategy σ) (state : σ) (delay : Nat) (initial : Bool) :
    (s.startAlone strategy state delay initial).owned = s.owned := by
  have habandon : s.abandon.owned = s.owned := owned_touchFlags_false _
  rw [← habandon]
  simp [owned, startAlone]

/-- The tasks of the scheduler have started, and nobody has told them to stop. -/
theorem Open.owned (h : Open s) : ∀ t ∈ s.owned, t.start ≤ s.now ∧ t.flag = .lowered := by
  induction h with
  | empty => simp [Stage.owned, Stage.empty]
  | @spawn s h strategy state delay ih =>
    intro t ht
    rw [owned_spawn, List.mem_append, List.mem_singleton] at ht
    obtain ht | rfl := ht
    · exact ih t ht
    · exact ⟨le_refl _, rfl⟩
  | @waitUntil s h time ih =>
    intro t ht
    obtain ⟨hstart, hflag⟩ := ih t ht
    exact ⟨le_trans hstart (Moment.le_afterSleep _ _), hflag⟩
  | startAlone h strategy state delay initial ih =>
    rw [owned_startAlone]
    exact ih
  | @setFlag s h raised ih =>
    unfold Stage.setFlag
    split
    · exact ih
    · rw [owned_touchFlags_false]
      exact ih
  | @abandon s h ih =>
    rw [show s.abandon.owned = s.owned from owned_touchFlags_false _]
    exact ih

theorem await_eq {t : Task σ} {ended : Moment} (hnow : when ≤ s.now) (ht : t.EndsAt when ended) :
    s.await t = some { s with now := if ended < s.now then s.now else ended.nextTurn, notes := s.notes ++ [] } := by
  have hending := ht s.now.nextTurn (lt_of_le_of_lt hnow (Moment.lt_nextTurn _))
  have hend : t.end? s.now.nextTurn = some ended := by rw [Task.end?, hending]
  have hcrash : t.crashes s.now.nextTurn = false := by rw [Task.crashes, hending]
  rw [await, hend, hcrash]
  rfl

/-- When several tasks have been waited for, all of them have ended, and it is no later than the last of their ends. -/
theorem foldlM_await (s : Stage σ) {ts : List (Task σ)} (hnow : when ≤ s.now) (hts : ∀ t ∈ ts, ∃ m, t.EndsAt when m) :
    ∃ s', ts.foldlM await s = some s' ∧ s'.tasks = s.tasks ∧ s.now ≤ s'.now ∧
      (∀ t ∈ ts, ∃ m, t.EndsAt when m ∧ m < s'.now) ∧
      (s'.now.time = s.now.time ∨ ∃ t ∈ ts, ∃ m, t.EndsAt when m ∧ s'.now.time = m.time) := by
  induction ts generalizing s with
  | nil => exact ⟨s, rfl, rfl, le_refl _, by simp, .inl rfl⟩
  | cons t ts ih =>
    obtain ⟨⟨m, hm⟩, hts⟩ := List.forall_mem_cons.mp hts
    obtain ⟨now, hawait, hle, hlt, htime⟩ : ∃ now, s.await t = some { s with now, notes := s.notes ++ [] } ∧
        s.now ≤ now ∧ m < now ∧ (now.time = s.now.time ∨ now.time = m.time) := by
      refine ⟨_, await_eq hnow hm, ?_⟩
      split
      · rename_i hended
        exact ⟨le_refl _, hended, .inl rfl⟩
      · rename_i hended
        exact ⟨le_trans (not_lt.mp hended) (le_of_lt (Moment.lt_nextTurn m)),
          Moment.lt_nextTurn m, .inr rfl⟩
    obtain ⟨s', hfold, htasks, hle', hended, hlast⟩ :=
      ih { s with now, notes := s.notes ++ [] } (le_trans hnow hle) hts
    refine ⟨s', ?_, htasks, le_trans hle hle', ?_, ?_⟩
    · rw [List.foldlM_cons, hawait]
      exact hfold
    · exact List.forall_mem_cons.mpr ⟨⟨m, hm, lt_of_lt_of_le hlt hle'⟩, hended⟩
    · obtain hsame | ⟨t', ht', m', hm', hsame⟩ := hlast
      · obtain hkept | hmoved := htime
        · exact .inl (hsame.trans hkept)
        · exact .inr ⟨t, List.mem_cons_self, m, hm, hsame.trans hmoved⟩
      · exact .inr ⟨t', List.mem_cons_of_mem t ht', m', hm', hsame⟩

/-! ## Shutdown -/

/-- **Pace and shutdown.** If all pauses are positive and all cycles come to an end, the shutdown returns, and by then
every task has done what it should; the time is that of the shutdown, or that of the end of a cycle that was in flight
then. -/
theorem shutdown_paces (hopen : s.Open) (hdelay : ∀ t ∈ s.owned, 0 < t.delay)
    (hfinishes : ∀ t ∈ s.owned, t.strategy.Finishes) :
    ∃ s', s.shutdown = some s' ∧ s'.owned = s.owned.map (·.stopping s.now) ∧ s.now ≤ s'.now ∧
      (∀ t ∈ s.owned, t.Paces s.now s'.now) ∧
      (s'.now.time = s.now.time ∨ ∃ t ∈ s.owned, ∃ i, (t.paced i).span.start < s.now ∧
        s.now < (t.paced i).span.stop ∧ s'.now.time = (t.paced i).span.stop.time) := by
  have hstopping : (s.touchFlags true (·.set s.now true)).owned = s.owned.map (·.stopping s.now) := by
    rw [owned_touchFlags]
    refine List.map_congr_left fun t ht => ?_
    rw [Task.stopping, StopFlag.raisedAt, (hopen.owned t ht).2]
  have hends {t : Task σ} (ht : t ∈ s.owned) {n : Nat} (hn : ∀ i, (t.paced i).span.start < s.now ↔ i < n) :
      (t.stopping s.now).EndsAt s.now (t.endAfter s.now n) := by
    intro horizon hhorizon
    rw [Task.timeline_stopping (hfinishes t ht) (hdelay t ht) hhorizon hn]
  have hcount {t : Task σ} (ht : t ∈ s.owned) : ∃ n, ∀ i, (t.paced i).span.start < s.now ↔ i < n :=
    t.strategy.exists_paced_lt _ _ (hdelay t ht) s.now
  have hts : ∀ t ∈ s.owned.map (·.stopping s.now), ∃ m, t.EndsAt s.now m := by
    rw [List.forall_mem_map]
    intro t ht
    obtain ⟨n, hn⟩ := hcount ht
    exact ⟨_, hends ht hn⟩
  obtain ⟨s', hfold, htasks, hle, hended, hlast⟩ :=
    foldlM_await (s.touchFlags true (·.set s.now true)) (le_refl s.now) hts
  rw [List.forall_mem_map] at hended
  refine ⟨s', ?_, ?_, hle, fun t ht => ?_, ?_⟩
  · rw [shutdown, hstopping]
    exact hfold
  · rw [← hstopping, Stage.owned, Stage.owned, htasks]
  · obtain ⟨n, hn⟩ := hcount ht
    obtain ⟨m, hm, hlt⟩ := hended t ht
    obtain rfl := hm.unique (hends ht hn)
    obtain ⟨-, hstop, -⟩ := Task.le_endAfter (hopen.owned t ht).1 hn
    refine ⟨rfl, fun i => Moment.time_afterSleep _ _, ⟨n, hn, fun horizon hhorizon => ?_⟩, fun i hi => ?_⟩
    · rw [Task.timeline_stopping (hfinishes t ht) (hdelay t ht) hhorizon hn]
    · exact lt_of_le_of_lt (hstop i ((hn i).mp hi)) hlt
  · obtain hsame | ⟨t', ht', m, hm, hsame⟩ := hlast
    · exact .inl hsame
    · obtain ⟨t, ht, rfl⟩ := List.mem_map.mp ht'
      obtain ⟨n, hn⟩ := hcount ht
      obtain rfl := hm.unique (hends ht hn)
      obtain ⟨-, -, hwhen | ⟨i, hi, hflight, hstop⟩⟩ := Task.le_endAfter (hopen.owned t ht).1 hn
      · exact .inl (hsame.trans (congrArg Moment.time hwhen))
      · exact .inr ⟨t, ht, i, (hn i).mpr hi, hflight, hsame.trans (congrArg Moment.time hstop)⟩

def steady (name : String) (takes : Nat) (result : Relayed Sync.Report) : Strategy Nat :=
  ⟨name, 0, fun _ started => (⟨takes, .finished result⟩, started + 1)⟩

theorem finishes_steady (name : String) (takes : Nat) (result : Relayed Sync.Report) :
    (steady name takes result).Finishes := fun _ _ => ⟨result, rfl⟩

/-- A slow engine and one that always fails, while a cycle of the slow one is in flight. -/
def twoEngines : Stage Nat :=
  ((empty.spawn (steady "slow" 1000 (.ok ⟨"slow", 1, 1, 1⟩)) 0 100).spawn
    (steady "failing" 0 (.error (.network "down"))) 0 1000).waitUntil 1550

/-- The shutdown returns when the slow one has come to the end of its cycle. -/
theorem twoEngines_paced :
    twoEngines.Open ∧ (∀ t ∈ twoEngines.owned, 0 < t.delay) ∧ (∀ t ∈ twoEngines.owned, t.strategy.Finishes) ∧
      ∃ s', twoEngines.shutdown = some s' ∧ s'.now.time = 2100 ∧
        ∀ t ∈ twoEngines.owned, t.Paces twoEngines.now s'.now := by
  have hopen : twoEngines.Open := ((Open.empty.spawn _ _ _).spawn _ _ _).waitUntil _
  have hdelay : ∀ t ∈ twoEngines.owned, 0 < t.delay := by decide +kernel
  have hfinishes : ∀ t ∈ twoEngines.owned, t.strategy.Finishes :=
    List.forall_mem_cons.mpr ⟨finishes_steady _ _ _, List.forall_mem_singleton.mpr (finishes_steady _ _ _)⟩
  obtain ⟨s', hshutdown, -, -, hpaces, -⟩ := shutdown_paces hopen hdelay hfinishes
  have htime : twoEngines.shutdown.map (·.now.time) = some 2100 := by decide +kernel
  rw [hshutdown] at htime
  exact ⟨hopen, hdelay, hfinishes, s', hshutdown, Option.some.inj htime, hpaces⟩

/-- An engine with a pause of thirty years and a millisecond, some time after its second cycle. -/
def rarelyRun : Stage Nat :=
  ((empty.spawn (steady "rare" 0 (.ok ⟨"rare", 1, 1, 1⟩)) 0 946080000001).waitUntil 900000000000).waitUntil
    946080000005

/-- **A pause that is too long.** The second cycle starts after thirty years, a millisecond too soon. -/
theorem rare_cycle_early :
    (∀ t ∈ rarelyRun.owned, t.delay = 946080000001) ∧
      rarelyRun.shutdown.map (fun s' => s'.marks.map fun m => m.2.map fun x => x.1.time) =
        some [[0, 0, 946080000000, 946080000000]] ∧ 946080000000 ≠ 0 + 946080000001 := by
  decide +kernel

end Stage

end Schedule

end HeaderRelay
