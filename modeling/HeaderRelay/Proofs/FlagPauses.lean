import HeaderRelay.Proofs.SchedulerPacing
import Mathlib.Data.List.TakeWhile

/-!
# What cuts a pause short

A task that pauses resumes when the pause is over or when a value of its flag is set that it has not seen, be it the
value that was there before. When a pause ends, all has been seen that was set by then (`StopFlag.pause_upToDate`). So
what has not been seen when a cycle ends are the values that were set since it started, and for the first cycle all of
them (`StopFlag.Unseen`).

The rounds that a timeline is followed for suffice: each pause either lasts some time or sees a value
(`StopFlag.left_of_pause`). So a cycle that ends is followed by the next one, unless the flag is raised by then or its
holder is gone.

Result: `Task.delay_kept_iff`.
-/
namespace HeaderRelay.Schedule

variable {σ : Type}

/-! ## Values that have been seen -/

namespace StopFlag

variable {f : StopFlag} {now t horizon : Moment} {delay seen seen' : Nat}

/-- The values are set one after the other. -/
def InOrder (f : StopFlag) : Prop := f.sets.Pairwise fun v w => v.1 ≤ w.1

def Past (f : StopFlag) (now : Moment) (seen : Nat) : Prop :=
  ∀ k v, f.sets[k]? = some v → k < seen → v.1 ≤ now

/-- What has been seen is all that was set by now. -/
def UpToDate (f : StopFlag) (now : Moment) (seen : Nat) : Prop :=
  ∀ k v, f.sets[k]? = some v → (k < seen ↔ v.1 ≤ now)

theorem UpToDate.past (h : f.UpToDate now seen) : f.Past now seen := fun k v hv => (h k v hv).mp

theorem Past.mono (h : f.Past now seen) (hle : now ≤ t) : f.Past t seen := fun k v hv hk => le_trans (h k v hv hk) hle

theorem past_zero : f.Past now 0 := fun _ _ _ hk => absurd hk (Nat.not_lt_zero _)

theorem InOrder.le (h : f.InOrder) {k l : Nat} {v w : Moment × Bool} (hv : f.sets[k]? = some v)
    (hw : f.sets[l]? = some w) (hkl : k ≤ l) : v.1 ≤ w.1 := by
  obtain ⟨hk, rfl⟩ := List.getElem?_eq_some_iff.mp hv
  obtain ⟨hl, rfl⟩ := List.getElem?_eq_some_iff.mp hw
  obtain heq | hlt := Nat.eq_or_lt_of_le hkl
  · subst heq
    exact le_refl _
  · exact List.pairwise_iff_getElem.mp h k l hk hl hlt

theorem InOrder.upToDate (h : f.InOrder) (now : Moment) : f.UpToDate now (f.setsBy now) := by
  unfold InOrder at h
  unfold UpToDate setsBy
  generalize f.sets = sets at h
  induction sets with
  | nil => simp
  | cons w sets ih =>
    obtain ⟨hw, hsets⟩ := List.pairwise_cons.mp h
    intro k v hv
    by_cases hle : w.1 ≤ now
    · rw [List.takeWhile_cons_of_pos (by simpa using hle), List.length_cons]
      cases k with
      | zero =>
        obtain rfl : w = v := by simpa using hv
        simpa using hle
      | succ k => rw [Nat.succ_lt_succ_iff, ih hsets k v (by simpa using hv)]
    · rw [List.takeWhile_cons_of_neg (by simpa using hle)]
      have hlate : now < v.1 := by
        refine lt_of_lt_of_le (not_le.mp hle) ?_
        obtain rfl | hmem := List.mem_cons.mp (List.mem_of_getElem? hv)
        · exact le_refl _
        · exact hw v hmem
      exact iff_of_false (Nat.not_lt_zero k) (not_le.mpr hlate)

/-! ## Pauses -/

/-- A pause that is not the last is ended by the first value that has not been seen, or comes to its end before it. -/
theorem pause_cases (h : f.pause now delay seen = .resumed t seen') :
    (∃ v, f.sets[seen]? = some v ∧ t = now.latest v.1 ∧ t ≤ now.afterSleep delay ∧ seen' = f.setsBy t) ∨
      ((∀ v, f.sets[seen]? = some v → now.afterSleep delay < v.1) ∧ t = now.afterSleep delay ∧ seen' = seen) := by
  unfold pause at h
  dsimp only at h
  split at h
  · rename_i t' hnoticed
    cases h
    obtain ⟨hset, hdue⟩ := Option.filter_eq_some_iff.mp hnoticed
    obtain ⟨at', hat, rfl⟩ := Option.map_eq_some_iff.mp hset
    obtain ⟨v, hv, rfl⟩ := Option.map_eq_some_iff.mp hat
    exact .inl ⟨v, hv, rfl, of_decide_eq_true hdue, rfl⟩
  · rename_i hnone
    have hlate : ∀ v, f.sets[seen]? = some v → now.afterSleep delay < v.1 := by
      intro v hv
      rw [hv, Option.map_some, Option.map_some] at hnone
      have hnot : ¬ now.latest v.1 ≤ now.afterSleep delay := by simpa using hnone
      exact not_le.mp fun hle => hnot (Moment.latest_le (Moment.le_afterSleep _ _) hle)
    split at h
    · cases h
    · cases h
      exact .inr ⟨hlate, rfl, rfl⟩

theorem exists_pause (hgone : ∀ m, f.gone = some m → now.afterSleep delay < m) (seen : Nat) :
    ∃ t seen', f.pause now delay seen = .resumed t seen' ∧ t ≤ now.afterSleep delay := by
  unfold pause
  dsimp only
  split
  · rename_i t hnoticed
    exact ⟨t, _, rfl, of_decide_eq_true (Option.filter_eq_some_iff.mp hnoticed).2⟩
  · split
    · rename_i t hnoticed
      obtain ⟨hset, hdue⟩ := Option.filter_eq_some_iff.mp hnoticed
      obtain ⟨m, hm, rfl⟩ := Option.map_eq_some_iff.mp hset
      exact absurd (le_trans (Moment.le_latest_right _ _) (of_decide_eq_true hdue)) (not_le.mpr (hgone m hm))
    · exact ⟨_, _, rfl, le_refl _⟩

/-- When a pause ends, all has been seen that was set by then. -/
theorem pause_upToDate (horder : f.InOrder) (hpast : f.Past now seen) (h : f.pause now delay seen = .resumed t seen') :
    f.UpToDate t seen' := by
  obtain ⟨v, -, -, -, rfl⟩ | ⟨hlate, rfl, rfl⟩ := pause_cases h
  · exact horder.upToDate t
  · intro k v hv
    constructor
    · intro hk
      exact le_trans (hpast k v hv hk) (Moment.le_afterSleep _ _)
    · intro hle
      by_contra hk
      have hlt : seen' < f.sets.length :=
        Nat.lt_of_le_of_lt (Nat.not_lt.mp hk) (List.getElem?_eq_some_iff.mp hv).1
      have hfirst := List.getElem?_eq_getElem hlt
      exact not_le.mpr (hlate _ hfirst) (le_trans (horder.le hfirst hv (Nat.not_lt.mp hk)) hle)

def left (f : StopFlag) (horizon now : Moment) (seen : Nat) : Nat :=
  horizon.time - now.time + (f.sets.length - seen)

theorem left_of_pause {start : Moment} (hdelay : 0 < delay) (horder : f.InOrder) (hpast : f.Past now seen)
    (hstart : start ≤ now) (hlt : t < horizon) (h : f.pause now delay seen = .resumed t seen') :
    f.left horizon t seen' < f.left horizon start seen := by
  have htime := Moment.time_le (le_of_lt hlt)
  have hstarted := Moment.time_le hstart
  unfold left
  obtain ⟨v, hv, ht, -, hseen⟩ | ⟨-, rfl, rfl⟩ := pause_cases h
  · have hupToDate := horder.upToDate t
    have hnow := Moment.time_le (ht ▸ Moment.le_latest_left now v.1)
    have hsaw : seen < f.setsBy t := (hupToDate seen v hv).mpr (ht ▸ Moment.le_latest_right now v.1)
    have hlength := (List.getElem?_eq_some_iff.mp hv).1
    omega
  · rw [Moment.time_afterSleep] at htime ⊢
    omega

/-- What has not been seen when a cycle ends that started at a moment: the values set since, or for the first cycle all
of them. It is there if there is one, and it comes before the others. -/
structure Unseen (f : StopFlag) (first : Prop) (start : Moment) (seen : Nat) : Prop where
  since : ∀ v, f.sets[seen]? = some v → first ∨ start < v.1
  least : ∀ v ∈ f.sets, first ∨ start < v.1 → ∃ w, f.sets[seen]? = some w ∧ w.1 ≤ v.1

theorem InOrder.exists_le (h : f.InOrder) {k : Nat} {v : Moment × Bool} (hv : f.sets[k]? = some v) (hk : seen ≤ k) :
    ∃ w, f.sets[seen]? = some w ∧ w.1 ≤ v.1 := by
  have hlt : seen < f.sets.length := Nat.lt_of_le_of_lt hk (List.getElem?_eq_some_iff.mp hv).1
  have hw := List.getElem?_eq_getElem hlt
  exact ⟨_, hw, h.le hw hv hk⟩

theorem unseen_zero (horder : f.InOrder) {first : Prop} (hfirst : first) (start : Moment) : f.Unseen first start 0 := by
  refine ⟨fun _ _ => .inl hfirst, fun v hv _ => ?_⟩
  obtain ⟨k, hk⟩ := List.getElem?_of_mem hv
  exact horder.exists_le hk (Nat.zero_le k)

theorem UpToDate.unseen (h : f.UpToDate now seen) (horder : f.InOrder) {first : Prop} (hfirst : ¬ first) :
    f.Unseen first now seen := by
  refine ⟨fun v hv => .inr (not_le.mp fun hle => ?_), fun v hv hsince => ?_⟩
  · exact absurd ((h seen v hv).mpr hle) (Nat.lt_irrefl seen)
  · obtain ⟨k, hk⟩ := List.getElem?_of_mem hv
    refine horder.exists_le hk (Nat.not_lt.mp fun hlt => ?_)
    exact not_lt.mpr ((h k v hk).mp hlt) (hsince.resolve_left hfirst)

/-- **When a pause is kept.** It lasts as long as it is meant to exactly if that is no longer than a sleep can be, and
no value is set in time that has not been seen. -/
theorem Unseen.time_pause_iff {first : Prop} {start : Moment} {ms : Nat} (hunseen : f.Unseen first start seen)
    (hms : 0 < ms) (h : f.pause now (sleepTime ms) seen = .resumed t seen') :
    t.time = now.time + ms ↔
      ms ≤ longestSleep ∧ ∀ v ∈ f.sets, first ∨ start < v.1 → now.time + ms ≤ v.1.time := by
  have hsleep : ms ≤ longestSleep ↔ sleepTime ms = ms := by
    unfold sleepTime
    omega
  have hshort : sleepTime ms ≤ ms := Nat.min_le_left ms longestSleep
  rw [hsleep]
  obtain ⟨v, hv, rfl, hdue, -⟩ | ⟨hlate, rfl, -⟩ := pause_cases h
  · -- the first value that has not been seen ends the pause, perhaps just when it is over
    have hle := Moment.time_le hdue
    rw [Moment.time_afterSleep] at hle
    constructor
    · intro htime
      refine ⟨by omega, fun w hw hsince => ?_⟩
      obtain ⟨v', hv', hvw⟩ := hunseen.least w hw hsince
      obtain rfl : v = v' := Option.some.inj (hv.symm.trans hv')
      have hvw := Moment.time_le hvw
      unfold Moment.latest at htime
      split at htime <;> omega
    · rintro ⟨hms', hall⟩
      have hv' := hall v (List.mem_of_getElem? hv) (hunseen.since v hv)
      have hlatest := Moment.time_le (Moment.le_latest_right now v.1)
      omega
  · rw [Moment.time_afterSleep]
    constructor
    · intro htime
      refine ⟨by omega, fun w hw hsince => ?_⟩
      obtain ⟨v, hv, hvw⟩ := hunseen.least w hw hsince
      have hlate := Moment.time_le (le_of_lt (hlate v hv))
      have hvw := Moment.time_le hvw
      rw [Moment.time_afterSleep] at hlate
      omega
    · rintro ⟨hms', -⟩
      omega

/-! ## Values at a moment -/

theorem valueAt_eq_false (hinitial : f.initial = false) (h : ∀ v ∈ f.sets, v.1 ≤ now → v.2 = false) :
    f.valueAt now = false := by
  unfold valueAt
  cases hlast : (f.sets.takeWhile fun v => v.1 ≤ now).getLast? with
  | none => exact hinitial
  | some v =>
    have hmem := List.mem_of_getLast? hlast
    have hle := List.mem_takeWhile_imp (p := fun v : Moment × Bool => decide (v.1 ≤ now)) hmem
    exact h v ((List.takeWhile_prefix _).subset hmem) (of_decide_eq_true hle)

theorem valueAt_eq_true (horder : f.InOrder) {earlier : List (Moment × Bool)} {when : Moment}
    (hsets : f.sets = earlier ++ [(when, true)]) (hle : when ≤ now) : f.valueAt now = true := by
  have hall : ∀ v ∈ f.sets, (decide (v.1 ≤ now)) = true := by
    unfold InOrder at horder
    rw [hsets] at horder ⊢
    intro v hv
    refine decide_eq_true (le_trans ?_ hle)
    obtain hmem | heq := List.mem_append.mp hv
    · exact (List.pairwise_append.mp horder).2.2 v hmem _ (List.mem_singleton_self _)
    · obtain rfl := List.mem_singleton.mp heq
      exact le_refl _
  unfold valueAt
  rw [List.takeWhile_eq_self_iff.mpr hall, hsets, List.getLast?_append]
  rfl

end StopFlag

/-! ## Timelines -/

section Timelines

/-- A timeline is empty, or its first cycle is the last one, or a pause and the rest of the timeline follow it. -/
theorem spans_timelineFrom_cases (x : Strategy σ) (delay : Nat) (f : StopFlag) (horizon : Moment) (fuel : Nat)
    (now : Moment) (seen : Nat) (s : σ) :
    ((timelineFrom x delay f horizon (fuel + 1) now seen s).spans = [] ∧ (f.valueAt now = true ∨ horizon ≤ now)) ∨
    ((timelineFrom x delay f horizon (fuel + 1) now seen s).spans = [(x.play now s).span] ∧ f.valueAt now = false ∧
      ∀ r t seen', (x.play now s).span.ending = .finished r →
        f.pause (x.play now s).span.stop (sleepTime delay) seen ≠ .resumed t seen') ∨
    ∃ t seen', (timelineFrom x delay f horizon (fuel + 1) now seen s).spans =
        (x.play now s).span :: (timelineFrom x delay f horizon fuel t seen' (x.play now s).after).spans ∧
      f.valueAt now = false ∧ f.pause (x.play now s).span.stop (sleepTime delay) seen = .resumed t seen' := by
  rw [timelineFrom]
  split
  · rename_i hraised
    exact .inl ⟨rfl, .inl hraised⟩
  rename_i hlowered
  have hlowered : f.valueAt now = false := by simpa using hlowered
  split
  · rename_i hbeyond
    exact .inl ⟨rfl, .inr hbeyond⟩
  refine .inr ?_
  unfold Strategy.play
  obtain ⟨⟨takes, ending⟩, after⟩ := x.cycle now.time s
  cases ending with
  | never => exact .inl ⟨rfl, hlowered, fun r t seen' h => by cases h⟩
  | crashed => exact .inl ⟨rfl, hlowered, fun r t seen' h => by cases h⟩
  | finished r =>
    dsimp only
    cases hpause : f.pause (now.afterSleep takes) (sleepTime delay) seen with
    | orphaned t => exact .inl ⟨rfl, hlowered, fun r t seen' _ h => by cases h⟩
    | resumed t seen' => exact .inr ⟨t, seen', rfl, hlowered, rfl⟩

variable {x : Strategy σ} {f : StopFlag} {delay fuel seen i : Nat} {horizon now : Moment} {s : σ} {a b : Span}

theorem valueAt_start (ha : a ∈ (timelineFrom x delay f horizon fuel now seen s).spans) :
    f.valueAt a.start = false := by
  induction fuel generalizing now seen s with
  | zero => cases ha
  | succ fuel ih =>
    obtain ⟨hspans, -⟩ | ⟨hspans, hlowered, -⟩ | ⟨t, seen', hspans, hlowered, -⟩ :=
      spans_timelineFrom_cases x delay f horizon fuel now seen s
    · rw [hspans] at ha
      cases ha
    · rw [hspans] at ha
      obtain rfl := List.mem_singleton.mp ha
      exact hlowered
    · rw [hspans] at ha
      obtain rfl | ha := List.mem_cons.mp ha
      · exact hlowered
      · exact ih ha

theorem start_head (hb : (timelineFrom x delay f horizon fuel now seen s).spans[0]? = some b) : b.start = now := by
  cases fuel with
  | zero => cases hb
  | succ fuel =>
    obtain ⟨hspans, -⟩ | ⟨hspans, -⟩ | ⟨t, seen', hspans, -⟩ :=
      spans_timelineFrom_cases x delay f horizon fuel now seen s
    all_goals
      rw [hspans] at hb
      cases hb
    all_goals rfl

theorem exists_head (hfuel : 0 < fuel) (hlowered : f.valueAt now = false) (hlt : now < horizon) :
    ∃ b, (timelineFrom x delay f horizon fuel now seen s).spans[0]? = some b ∧ b.start = now := by
  obtain ⟨fuel, rfl⟩ := Nat.exists_eq_succ_of_ne_zero (Nat.ne_of_gt hfuel)
  obtain ⟨-, hraised | hbeyond⟩ | ⟨hspans, -⟩ | ⟨t, seen', hspans, -⟩ :=
    spans_timelineFrom_cases x delay f horizon fuel now seen s
  · rw [hlowered] at hraised
    cases hraised
  · exact absurd hlt (not_lt.mpr hbeyond)
  · exact ⟨_, by rw [hspans]; rfl, rfl⟩
  · exact ⟨_, by rw [hspans]; rfl, rfl⟩

/-- What comes next after a cycle: the cycle that starts when the pause ends, and it does come if the cycle has
finished, the pause ends before the horizon, and the flag is lowered then. -/
structure ComesNext (f : StopFlag) (delay : Nat) (horizon : Moment) (a : Span) (seen : Nat) (next : Option Span) :
    Prop where
  resumes : ∀ b, next = some b → ∃ seen', f.pause a.stop (sleepTime delay) seen = .resumed b.start seen'
  comes : ∀ r t seen', a.ending = .finished r → f.pause a.stop (sleepTime delay) seen = .resumed t seen' → t < horizon →
    f.valueAt t = false → ∃ b, next = some b ∧ b.start = t

theorem left_of_cycle {t : Moment} {seen' : Nat} (hdelay : 0 < delay) (horder : f.InOrder) (hpast : f.Past now seen)
    (hlt : t < horizon) (hpause : f.pause (x.play now s).span.stop (sleepTime delay) seen = .resumed t seen') :
    f.left horizon t seen' < f.left horizon now seen := by
  have hstop : now ≤ (x.play now s).span.stop := Moment.le_afterSleep _ _
  exact StopFlag.left_of_pause (sleepTime_pos hdelay) horder (hpast.mono hstop) hstop hlt hpause

/-- **The cycles of a timeline.** After each comes what comes next, where the values that have been seen are those set
by its start, or for the first cycle those that had been seen before. -/
theorem timelineFrom_comesNext (hdelay : 0 < delay) (horder : f.InOrder) (hpast : f.Past now seen)
    (hfuel : f.left horizon now seen < fuel)
    (ha : (timelineFrom x delay f horizon fuel now seen s).spans[i]? = some a) :
    ∃ seenA, (if i = 0 then seenA = seen else f.UpToDate a.start seenA) ∧
      ComesNext f delay horizon a seenA (timelineFrom x delay f horizon fuel now seen s).spans[i + 1]? := by
  induction i generalizing fuel now seen s with
  | zero =>
    obtain ⟨fuel, rfl⟩ := Nat.exists_eq_succ_of_ne_zero (Nat.ne_zero_of_lt hfuel)
    obtain ⟨hspans, -⟩ | ⟨hspans, -, hlast⟩ | ⟨t, seen', hspans, -, hpause⟩ :=
      spans_timelineFrom_cases x delay f horizon fuel now seen s
    · rw [hspans] at ha
      cases ha
    · rw [hspans] at ha ⊢
      obtain rfl : (x.play now s).span = a := Option.some.inj ha
      refine ⟨seen, rfl, fun b hb => ?_, fun r t seen' hr hpause => absurd hpause (hlast r t seen' hr)⟩
      cases hb
    · rw [hspans] at ha ⊢
      obtain rfl : (x.play now s).span = a := Option.some.inj ha
      refine ⟨seen, rfl, fun b hb => ⟨seen', ?_⟩, fun r t' seen'' _ hpause' hlt hlowered => ?_⟩
      · rw [start_head hb]
        exact hpause
      · obtain ⟨rfl, rfl⟩ := StopFlag.Wake.resumed.inj (hpause.symm.trans hpause')
        have hleft := left_of_cycle hdelay horder hpast hlt hpause
        exact exists_head (Nat.zero_lt_of_lt (Nat.lt_of_lt_of_le hleft (Nat.le_of_lt_succ hfuel))) hlowered hlt
  | succ i ih =>
    obtain ⟨fuel, rfl⟩ := Nat.exists_eq_succ_of_ne_zero (Nat.ne_zero_of_lt hfuel)
    obtain ⟨hspans, -⟩ | ⟨hspans, -⟩ | ⟨t, seen', hspans, -, hpause⟩ :=
      spans_timelineFrom_cases x delay f horizon fuel now seen s
    · rw [hspans] at ha
      cases ha
    · rw [hspans] at ha
      cases ha
    · rw [hspans, List.getElem?_cons_succ] at ha ⊢
      have hlt : t < horizon := by
        refine not_le.mp fun hbeyond => ?_
        rw [timelineFrom_spans_of_le hbeyond] at ha
        cases ha
      have hupToDate := StopFlag.pause_upToDate horder (hpast.mono (Moment.le_afterSleep _ _)) hpause
      have hleft := left_of_cycle hdelay horder hpast hlt hpause
      obtain ⟨seenA, hseenA, hnext⟩ := ih hupToDate.past (Nat.lt_of_lt_of_le hleft (Nat.le_of_lt_succ hfuel)) ha
      refine ⟨seenA, ?_, hnext⟩
      rw [if_neg (Nat.succ_ne_zero i)]
      cases i with
      | zero =>
        rw [start_head ha, show seenA = seen' from hseenA]
        exact hupToDate
      | succ i => exact hseenA

end Timelines

/-! ## Delays of a task -/

/-- Up to a moment nobody has raised the flag, and its holder is there. -/
structure StopFlag.LoweredUntil (f : StopFlag) (due : Moment) : Prop where
  initial : f.initial = false
  sets : ∀ v ∈ f.sets, v.1 ≤ due → v.2 = false
  held : ∀ m, f.gone = some m → due < m

/-- **When a delay is kept.** A cycle starts exactly the delay after the end of the one before if and only if a sleep
can be that long and no value, raised or not, is set before that is over, be it after the start of the one before, or
for the second cycle at any time. A cycle does follow one that has finished, and not later than that, unless the flag
is raised by then or its holder goes away; and none starts once the flag has been raised for good. -/
theorem Task.delay_kept_iff {t : Task σ} (hdelay : 0 < t.delay) (horder : t.flag.InOrder) {horizon : Moment} {i : Nat}
    {a : Span} (ha : (t.timeline horizon).spans[i]? = some a) :
    (∀ b, (t.timeline horizon).spans[i + 1]? = some b →
      (b.start.time = a.stop.time + t.delay ↔ t.delay ≤ longestSleep ∧
        ∀ v ∈ t.flag.sets, i = 0 ∨ a.start < v.1 → a.stop.time + t.delay ≤ v.1.time)) ∧
    (∀ r, a.ending = .finished r → t.flag.LoweredUntil (a.stop.afterSleep (sleepTime t.delay)) →
      a.stop.afterSleep (sleepTime t.delay) < horizon →
      ∃ b, (t.timeline horizon).spans[i + 1]? = some b ∧ b.start ≤ a.stop.afterSleep (sleepTime t.delay)) ∧
    ∀ earlier when, t.flag.sets = earlier ++ [(when, true)] → a.start < when := by
  have hrounds : t.flag.left horizon t.start 0 <
      horizon.time - t.start.time + t.flag.sets.length + t.strategy.instant + 2 := by
    unfold StopFlag.left
    omega
  obtain ⟨seen, hseen, hnext⟩ := timelineFrom_comesNext hdelay horder StopFlag.past_zero hrounds ha
  have hunseen : t.flag.Unseen (i = 0) a.start seen := by
    split at hseen
    · rename_i hfirst
      rw [hseen]
      exact StopFlag.unseen_zero horder hfirst a.start
    · rename_i hlater
      exact hseen.unseen horder hlater
  refine ⟨fun b hb => ?_, fun r hfinished hlowered hdue => ?_, fun earlier when hsets => ?_⟩
  · obtain ⟨seen', hpause⟩ := hnext.resumes b hb
    exact hunseen.time_pause_iff hdelay hpause
  · obtain ⟨next, seen', hpause, hle⟩ := StopFlag.exists_pause hlowered.held seen
    obtain ⟨b, hb, rfl⟩ := hnext.comes r next seen' hfinished hpause (lt_of_le_of_lt hle hdue)
      (StopFlag.valueAt_eq_false hlowered.initial fun v hv hby => hlowered.sets v hv (le_trans hby hle))
    exact ⟨b, hb, hle⟩
  · refine not_le.mp fun hle => ?_
    have hraised := StopFlag.valueAt_eq_true horder hsets hle
    rw [valueAt_start (List.mem_of_getElem? ha)] at hraised
    cases hraised

/-! ## The flags of a stage -/

/-- The values of the flag are set one after the other, and none later than now. -/
structure StopFlag.InOrderBy (f : StopFlag) (now : Moment) : Prop where
  inOrder : f.InOrder
  past : ∀ v ∈ f.sets, v.1 ≤ now

namespace StopFlag.InOrderBy

variable {f : StopFlag} {now t : Moment}

theorem untouched (initial : Bool) (now : Moment) : InOrderBy ⟨initial, [], none⟩ now :=
  ⟨List.Pairwise.nil, by simp⟩

theorem mono (h : f.InOrderBy now) (hle : now ≤ t) : f.InOrderBy t :=
  ⟨h.inOrder, fun v hv => le_trans (h.past v hv) hle⟩

theorem abandon (h : f.InOrderBy now) : (f.abandon now).InOrderBy now := ⟨h.inOrder, h.past⟩

theorem set (h : f.InOrderBy now) (raised : Bool) : (f.set now raised).InOrderBy now := by
  unfold StopFlag.set
  split
  · exact h
  · refine ⟨List.pairwise_append.mpr ⟨h.inOrder, List.pairwise_singleton _ _, ?_⟩, fun v hv => ?_⟩
    · intro v hv w hw
      obtain rfl := List.mem_singleton.mp hw
      exact h.past v hv
    · obtain hv | hv := List.mem_append.mp hv
      · exact h.past v hv
      · obtain rfl := List.mem_singleton.mp hv
        exact le_refl now

end StopFlag.InOrderBy

namespace Stage

variable {s : Stage σ}

theorem inOrderBy_touchFlags {change : StopFlag → StopFlag} {now : Moment}
    (hchange : ∀ f, f.InOrderBy now → (change f).InOrderBy now) (h : ∀ x ∈ s.tasks, x.2.flag.InOrderBy now)
    (belongs : Bool) : ∀ x ∈ (s.touchFlags belongs change).tasks, x.2.flag.InOrderBy now := by
  unfold touchFlags
  rw [List.forall_mem_map]
  rintro ⟨owned, t⟩ ht
  dsimp only
  split
  · exact hchange _ (h _ ht)
  · exact h _ ht

/-- Whatever is done to a stage, the values of its flags are set one after the other. -/
theorem Open.inOrderBy (h : Open s) : ∀ x ∈ s.tasks, x.2.flag.InOrderBy s.now := by
  induction h with
  | empty => simp [Stage.empty]
  | @spawn s h strategy state delay ih =>
    exact List.forall_mem_append.mpr ⟨ih, List.forall_mem_singleton.mpr (.untouched false s.now)⟩
  | @waitUntil s h time ih => exact fun x hx => (ih x hx).mono (Moment.le_afterSleep _ _)
  | @startAlone s h strategy state delay initial ih =>
    have habandon := inOrderBy_touchFlags (fun _ hf => hf.abandon) ih false
    exact List.forall_mem_append.mpr ⟨habandon, List.forall_mem_singleton.mpr (.untouched initial s.now)⟩
  | @setFlag s h raised ih =>
    unfold Stage.setFlag
    split
    · exact ih
    · exact inOrderBy_touchFlags (fun _ hf => hf.set raised) ih false
  | @abandon s h ih => exact inOrderBy_touchFlags (fun _ hf => hf.abandon) ih false

/-- A task that is sent a false in the pause after its second cycle, and a true in its fourth cycle. -/
def nudged : Stage Nat :=
  (((((empty.startAlone (steady "nudged" 200 (.ok ⟨"nudged", 1, 1, 1⟩)) 0 1000 false).waitUntil 2000).setFlag
    false).2.waitUntil 3300).setFlag true).2

/-- Its second cycle starts the delay after the end of the first, its third one does not, for the false, and none starts
after the true. -/
theorem nudged_delays :
    nudged.Open ∧ ∀ x ∈ nudged.tasks, 0 < x.2.delay ∧ x.2.flag.InOrder ∧
      (∃ a b, (x.2.timeline ⟨6000, 0⟩).spans[0]? = some a ∧ (x.2.timeline ⟨6000, 0⟩).spans[1]? = some b ∧
        b.start.time = a.stop.time + x.2.delay) ∧
      (∃ a b, (x.2.timeline ⟨6000, 0⟩).spans[1]? = some a ∧ (x.2.timeline ⟨6000, 0⟩).spans[2]? = some b ∧
        b.start.time ≠ a.stop.time + x.2.delay) ∧
      ∀ (i : Nat) (a : Span), (x.2.timeline ⟨6000, 0⟩).spans[i]? = some a → a.start < ⟨3300, 0⟩ := by
  have hopen : nudged.Open := (((((Open.empty.startAlone _ _ _ _).waitUntil _).setFlag _).waitUntil _).setFlag _)
  have hflags : ∀ x ∈ nudged.tasks, x.2.delay = 1000 ∧
      x.2.flag.sets = [(⟨2000, 0⟩, false)] ++ [(⟨3300, 0⟩, true)] := by decide +kernel
  have hspans : ∀ x ∈ nudged.tasks, (x.2.timeline ⟨6000, 0⟩).spans.map (fun a => (a.start, a.stop)) =
      [(⟨0, 0⟩, ⟨200, 0⟩), (⟨1200, 0⟩, ⟨1400, 0⟩), (⟨2000, 0⟩, ⟨2200, 0⟩), (⟨3200, 0⟩, ⟨3400, 0⟩)] := by
    decide +kernel
  refine ⟨hopen, fun x hx => ?_⟩
  obtain ⟨hdelay, hsets⟩ := hflags x hx
  have hpos : 0 < x.2.delay := by omega
  have hinOrder := (hopen.inOrderBy x hx).inOrder
  have hspan (i : Nat) := List.getElem?_map .. ▸ congrArg (·[i]?) (hspans x hx)
  obtain ⟨a, ha, hatimes⟩ := Option.map_eq_some_iff.mp (hspan 0)
  obtain ⟨b, hb, hbtimes⟩ := Option.map_eq_some_iff.mp (hspan 1)
  obtain ⟨c, hc, -⟩ := Option.map_eq_some_iff.mp (hspan 2)
  obtain ⟨hastart, hastop⟩ := Prod.mk.inj hatimes
  obtain ⟨hbstart, hbstop⟩ := Prod.mk.inj hbtimes
  refine ⟨hpos, hinOrder, ⟨a, b, ha, hb, ?_⟩, ⟨b, c, hb, hc, fun hkept => ?_⟩, fun i a ha => ?_⟩
  · refine ((Task.delay_kept_iff hpos hinOrder ha).1 b hb).mpr ?_
    rw [hsets, hdelay, hastart, hastop]
    decide
  · have hlate := (((Task.delay_kept_iff hpos hinOrder hb).1 c hc).mp hkept).2
    rw [hsets, hdelay, hbstart, hbstop] at hlate
    exact absurd hlate (by decide)
  · exact (Task.delay_kept_iff hpos hinOrder ha).2.2 _ _ hsets

/-- **A false cuts a delay short.** No true is sent to the task, and its second cycle starts when the false is sent. -/
theorem false_starts_cycle :
    let s := (((empty.startAlone (steady "nudged" 0 (.ok ⟨"nudged", 1, 0, 1⟩)) 0 1000 false).waitUntil 300).setFlag
      false).2.waitUntil 1500
    (∀ x ∈ s.tasks, x.2.delay = 1000 ∧ x.2.flag.initial = false ∧ x.2.flag.gone = none ∧
      ∀ v ∈ x.2.flag.sets, v.2 = false) ∧
    s.marks.map (fun m => m.2.map fun x => x.1.time) = [[0, 0, 300, 300, 1300, 1300]] ∧ 300 ≠ 0 + 1000 := by
  decide +kernel

end Stage

end HeaderRelay.Schedule
