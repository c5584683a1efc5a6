import HeaderRelay.Sync.Selection

/-!
# Which heights of a chain are selected

On a chain with one header per height, the rule selects heights. `due_append` lets a run of heights be
examined in parts, and `dueBelow_resume` lets a selection that was broken off be taken up again from what it
has selected; `due_eq_iff_of_sublist` says when leaving heights out changes nothing: when none of
them would have been selected. `timely_due_iff` is about the largest gap: it is kept exactly if every
height at which a header becomes due by its distance alone is examined, or a header before it is selected
(`Covered`).

`examined` are the heights that an engine looks at in cycles at given network heights: all between the
first and the last but these heights themselves (`mem_examined`).
-/
namespace HeaderRelay.Sync

open Consensus (Header)

/-- The heights that the rule selects, each judged against the one selected before it. -/
def due (chain : Nat → Header) (maxInterval : Nat) : (heights : List Nat) → (last : Nat) → List Nat
  | [], _ => []
  | h :: rest, last =>
    if isDue (chain h) (chain last) maxInterval then h :: due chain maxInterval rest h
    else due chain maxInterval rest last

variable {chain : Nat → Header} {m : Nat} {xs ys : List Nat} {last : Nat}

theorem dueHeaders_map (hs : List Nat) (last : Nat) :
    dueHeaders m (hs.map chain) (chain last) = (due chain m hs last).map chain := by
  induction hs generalizing last with
  | nil => rfl
  | cons h hs ih =>
    simp only [List.map_cons, dueHeaders, due]
    split
    · rw [ih, List.map_cons]
    · exact ih last

theorem dueHeaders_sublist (headers : List Header) (last : Header) : (dueHeaders m headers last).Sublist headers := by
  induction headers generalizing last with
  | nil => exact List.Sublist.refl _
  | cons h headers ih =>
    unfold dueHeaders
    split
    · exact (ih h).cons_cons h
    · exact (ih last).cons h

/-- A list can be examined in parts, the second against the last header that the first selected. -/
theorem dueHeaders_append (m : Nat) (xs ys : List Header) (last : Header) :
    dueHeaders m (xs ++ ys) last =
      dueHeaders m xs last ++ dueHeaders m ys ((dueHeaders m xs last).getLast?.getD last) := by
  induction xs generalizing last with
  | nil => rfl
  | cons x xs ih =>
    simp only [List.cons_append, dueHeaders]
    split
    · rw [ih, List.cons_append, List.getLast?_cons, Option.getD_some]
    · exact ih last

theorem due_sublist (xs : List Nat) (last : Nat) : (due chain m xs last).Sublist xs := by
  induction xs generalizing last with
  | nil => exact List.Sublist.refl _
  | cons x xs ih =>
    unfold due
    split
    · exact (ih x).cons_cons x
    · exact (ih last).cons x

/-- The height that a selection leaves as the last is in the run, if it is not the last already. -/
theorem last_due (chain : Nat → Header) (m : Nat) (xs : List Nat) (last : Nat) :
    (due chain m xs last).getLast?.getD last = last ∨ (due chain m xs last).getLast?.getD last ∈ xs := by
  cases h : (due chain m xs last).getLast? with
  | none => exact .inl rfl
  | some x => exact .inr ((due_sublist xs last).subset (List.mem_of_getLast? h))

theorem last_due_range (chain : Nat → Header) (m : Nat) {checked last top : Nat} (hlast : last ≤ checked)
    (htop : checked ≤ top) :
    last ≤ (due chain m (List.range' (checked + 1) (top - (checked + 1))) last).getLast?.getD last ∧
      (due chain m (List.range' (checked + 1) (top - (checked + 1))) last).getLast?.getD last ≤ top := by
  rcases last_due chain m (List.range' (checked + 1) (top - (checked + 1))) last with h | h
  · rw [h]
    omega
  · have := List.mem_range'_1.mp h
    omega

/-- A run can be examined in parts, the second against the last height that the first selected. -/
theorem due_append (xs ys : List Nat) (last : Nat) :
    due chain m (xs ++ ys) last =
      due chain m xs last ++ due chain m ys ((due chain m xs last).getLast?.getD last) := by
  induction xs generalizing last with
  | nil => rfl
  | cons x xs ih =>
    simp only [List.cons_append, due]
    split
    · rw [ih, List.cons_append, List.getLast?_cons, Option.getD_some]
    · exact ih last

/-- **Leaving out.** A run without some of its heights has the same selection exactly if none of these
was selected. -/
theorem due_eq_iff_of_sublist (hsub : xs.Sublist ys) (hys : ys.Nodup) (last : Nat) :
    due chain m xs last = due chain m ys last ↔ ∀ h ∈ due chain m ys last, h ∈ xs := by
  constructor
  · intro heq h hh
    rw [← heq] at hh
    exact (due_sublist xs last).subset hh
  · intro hkept
    induction hsub generalizing last with
    | slnil => rfl
    | @cons xs ys y hsub ih =>
      obtain ⟨hy, hys⟩ := List.nodup_cons.mp hys
      simp only [due] at hkept ⊢
      split at hkept
      · exact absurd (hsub.subset (hkept y List.mem_cons_self)) hy
      · rename_i hdue
        rw [if_neg hdue]
        exact ih hys last hkept
    | @cons_cons xs ys y hsub ih =>
      obtain ⟨hy, hys⟩ := List.nodup_cons.mp hys
      simp only [due] at hkept ⊢
      split at hkept
      · rename_i hdue
        rw [if_pos hdue, if_pos hdue, ih hys y]
        intro h hh
        refine (List.mem_cons.mp (hkept h (List.mem_cons_of_mem y hh))).resolve_left ?_
        rintro rfl
        exact hy ((due_sublist ys h).subset hh)
      · rename_i hdue
        rw [if_neg hdue, if_neg hdue, ih hys last]
        intro h hh
        refine (List.mem_cons.mp (hkept h hh)).resolve_left ?_
        rintro rfl
        exact hy ((due_sublist ys last).subset hh)

/-! ## Resuming -/

/-- The heights above `last` and below `top` that the rule selects after `last`. -/
def dueBelow (chain : Nat → Header) (m top last : Nat) : List Nat :=
  due chain m (List.range' (last + 1) (top - (last + 1))) last

/-- After the first height that is selected from a run, the selection is that of what is above it. -/
theorem due_range_cons {start count x : Nat} {rest : List Nat}
    (h : due chain m (List.range' start count) last = x :: rest) :
    dueBelow chain m (start + count) x = rest := by
  induction count generalizing start with
  | zero => cases h
  | succ count ih =>
    rw [List.range'_succ, due] at h
    split at h
    · obtain ⟨rfl, rfl⟩ := List.cons.inj h
      rw [dueBelow, show start + (count + 1) - (start + 1) = count by omega]
    · rw [show start + (count + 1) = start + 1 + count by omega]
      exact ih h

/-- **Resuming.** A selection that stops after some of its heights is completed by the one that starts at the
last of them. -/
theorem dueBelow_resume {top : Nat} {selected : List Nat} (h : selected <+: dueBelow chain m top last) :
    dueBelow chain m top last = selected ++ dueBelow chain m top (selected.getLast?.getD last) := by
  induction selected generalizing last with
  | nil => rfl
  | cons x selected ih =>
    obtain ⟨rest, hrest⟩ := h
    have htop : last + 1 + (top - (last + 1)) = top := by
      by_cases hle : last + 1 ≤ top
      · omega
      · have hempty : dueBelow chain m top last = [] := by
          rw [dueBelow, show top - (last + 1) = 0 by omega]
          rfl
        rw [hempty] at hrest
        cases hrest
    have hnext := due_range_cons (show due chain m _ last = x :: (selected ++ rest) from hrest.symm)
    rw [htop] at hnext
    have hresumed : dueBelow chain m top x = _ := ih ⟨rest, hnext.symm⟩
    rw [← hrest, List.getLast?_cons, Option.getD_some, List.cons_append, List.cons_append, ← hresumed, hnext]

/-! ## The largest gap -/

/-- Heights that increase, from `first` on, by at most `m` from one to the next and up to `top`. -/
def Timely (m : Nat) : (first : Nat) → (heights : List Nat) → (top : Nat) → Prop
  | first, [], top => top ≤ first + m
  | first, h :: rest, top => (first < h ∧ h ≤ first + m) ∧ Timely m h rest top

theorem height_lt_of_not_isDue {candidate last : Header} (hdue : ¬ isDue candidate last m = true)
    (hlt : last.height < candidate.height) : candidate.height < last.height + m := by
  simp only [isDue, Bool.or_eq_true, decide_eq_true_eq, not_or] at hdue
  omega

theorem not_isDue_lt {x : Nat} (hheight : ∀ h, (chain h).height = h)
    (h : isDue (chain x) (chain last) m ≠ true) (hlt : last < x) : x < last + m := by
  have hgap := height_lt_of_not_isDue h (by rwa [hheight, hheight])
  rwa [hheight, hheight] at hgap

/-- `m` heights above `first` and above each height selected, the run has a height or a selection was made
before. -/
def Covered (m top : Nat) (run : List Nat) (first : Nat) (selected : List Nat) : Prop :=
  ∀ a ∈ first :: selected, a + m < top → a + m ∈ run ∨ ∃ b ∈ selected, a < b ∧ b < a + m

/-- A height selected is not beyond the gap, and the others are covered from there on. -/
theorem covered_cons {top first x : Nat} {run selected : List Nat} (hfirst : first < x) (htop : x < top)
    (hm : 0 < m) (hrun : ∀ h ∈ run, x < h) (hselected : ∀ h ∈ selected, x < h) :
    Covered m top (x :: run) first (x :: selected) ↔ x ≤ first + m ∧ Covered m top run x selected := by
  constructor
  · intro hall
    refine ⟨?_, fun a ha hatop => ?_⟩
    · by_cases hgap : first + m < top
      · rcases hall first List.mem_cons_self hgap with h | ⟨b, hb, -, hbgap⟩
        · rcases List.mem_cons.mp h with h | h
          · omega
          · exact Nat.le_of_lt (hrun _ h)
        · rcases List.mem_cons.mp hb with rfl | hb
          · omega
          · have := hselected b hb
            omega
      · omega
    · have hxa : x ≤ a := by
        rcases List.mem_cons.mp ha with rfl | ha
        · exact Nat.le_refl _
        · exact Nat.le_of_lt (hselected a ha)
      rcases hall a (List.mem_cons_of_mem first ha) hatop with h | ⟨b, hb, hab⟩
      · rcases List.mem_cons.mp h with h | h
        · omega
        · exact .inl h
      · rcases List.mem_cons.mp hb with rfl | hb
        · omega
        · exact .inr ⟨b, hb, hab⟩
  · rintro ⟨hgap, hrest⟩ a ha hatop
    rcases List.mem_cons.mp ha with rfl | ha
    · -- from `first`, either `x` is the height in question or it was selected before
      rcases Nat.lt_or_eq_of_le hgap with hgap | hgap
      · exact .inr ⟨x, List.mem_cons_self, hfirst, hgap⟩
      · exact .inl (by rw [← hgap]; exact List.mem_cons_self)
    · rcases hrest a ha hatop with h | ⟨b, hb, hab⟩
      · exact .inl (List.mem_cons_of_mem x h)
      · exact .inr ⟨b, List.mem_cons_of_mem x hb, hab⟩

theorem covered_skip {top first x : Nat} {run selected : List Nat} (hgap : x < first + m)
    (hselected : ∀ h ∈ selected, x < h) :
    Covered m top (x :: run) first selected ↔ Covered m top run first selected := by
  refine forall₂_congr fun a ha => imp_congr_right fun _ => or_congr_left ?_
  have hne : a + m ≠ x := by
    rcases List.mem_cons.mp ha with rfl | ha
    · omega
    · have := hselected a ha
      omega
  simp [hne]

/-- **Gaps.** The heights selected from an ascending run below `top` keep the largest gap exactly if the
run covers them. -/
theorem timely_due_iff (hheight : ∀ h, (chain h).height = h) (hm : 0 < m) {top : Nat} {run : List Nat}
    {first : Nat} (hrun : (first :: run).Pairwise (· < ·)) (htop : ∀ h ∈ run, h < top) :
    Timely m first (due chain m run first) top ↔ Covered m top run first (due chain m run first) := by
  induction run generalizing first with
  | nil => simp [due, Timely, Covered]
  | cons x run ih =>
    obtain ⟨hfirst, hx⟩ := List.pairwise_cons.mp hrun
    have hlt : first < x := hfirst x List.mem_cons_self
    have htop' : ∀ h ∈ run, h < top := fun h hh => htop h (List.mem_cons_of_mem x hh)
    have habove : ∀ h ∈ run, x < h := (List.pairwise_cons.mp hx).1
    unfold due
    split
    · have hselected : ∀ h ∈ due chain m run x, x < h := fun h hh => habove h ((due_sublist run x).subset hh)
      rw [covered_cons hlt (htop x List.mem_cons_self) hm habove hselected, ← ih hx htop', Timely]
      simp [hlt]
    · rename_i hdue
      have hselected : ∀ h ∈ due chain m run first, x < h :=
        fun h hh => habove h ((due_sublist run first).subset hh)
      have hskip : (first :: run).Pairwise (· < ·) :=
        List.pairwise_cons.mpr ⟨fun h hh => hfirst h (List.mem_cons_of_mem x hh),
          (List.pairwise_cons.mp hx).2⟩
      rw [covered_skip (not_isDue_lt hheight hdue hlt) hselected]
      exact ih hskip htop'

/-! ## Heights examined -/

/-- The heights examined by cycles at network heights `tops` after one at `checked`: each goes up to and
without the network height, which the next does not take up. -/
def examined : (checked : Nat) → (tops : List Nat) → List Nat
  | _, [] => []
  | checked, top :: tops => List.range' (checked + 1) (top - (checked + 1)) ++ examined top tops

def lastTop (checked : Nat) (tops : List Nat) : Nat := tops.getLast?.getD checked

theorem lastTop_cons (checked top : Nat) (tops : List Nat) :
    lastTop checked (top :: tops) = lastTop top tops := by
  rw [lastTop, List.getLast?_cons]
  rfl

theorem le_lastTop {checked : Nat} {tops : List Nat} (h : (checked :: tops).Pairwise (· ≤ ·)) :
    checked ≤ lastTop checked tops ∧ ∀ top ∈ tops, top ≤ lastTop checked tops := by
  induction tops generalizing checked with
  | nil => exact ⟨Nat.le_refl _, by simp⟩
  | cons top tops ih =>
    obtain ⟨hchecked, htops⟩ := List.pairwise_cons.mp h
    obtain ⟨hle, hmem⟩ := ih htops
    rw [lastTop_cons]
    refine ⟨Nat.le_trans (hchecked top List.mem_cons_self) hle, fun h hh => ?_⟩
    rcases List.mem_cons.mp hh with rfl | hh
    · exact hle
    · exact hmem h hh

theorem mem_examined {checked h : Nat} {tops : List Nat} (htops : (checked :: tops).Pairwise (· ≤ ·)) :
    h ∈ examined checked tops ↔ checked < h ∧ h < lastTop checked tops ∧ h ∉ tops := by
  induction tops generalizing checked with
  | nil =>
    simp only [examined, List.not_mem_nil, lastTop, List.getLast?_nil, Option.getD_none, false_iff]
    omega
  | cons top tops ih =>
    obtain ⟨hchecked, hrest⟩ := List.pairwise_cons.mp htops
    have htop := hchecked top List.mem_cons_self
    have hlast := (le_lastTop hrest).1
    have hmem : h ∈ tops → top ≤ h := (List.pairwise_cons.mp hrest).1 h
    rw [examined, List.mem_append, ih hrest, List.mem_range'_1, lastTop_cons, List.mem_cons, not_or]
    constructor
    · rintro (⟨hlo, hhi⟩ | ⟨hlo, hhi, hnot⟩)
      · exact ⟨by omega, by omega, by omega, fun hh => by have := hmem hh; omega⟩
      · exact ⟨by omega, hhi, by omega, hnot⟩
    · rintro ⟨hlo, hhi, hne, hnot⟩
      rcases Nat.lt_or_ge h top with hlt | hge
      · exact .inl (by omega)
      · exact .inr ⟨by omega, hhi, hnot⟩

theorem examined_ascending {checked : Nat} {tops : List Nat} (htops : (checked :: tops).Pairwise (· ≤ ·)) :
    (checked :: examined checked tops).Pairwise (· < ·) := by
  refine List.pairwise_cons.mpr ⟨fun h hh => ((mem_examined htops).mp hh).1, ?_⟩
  induction tops generalizing checked with
  | nil => exact List.Pairwise.nil
  | cons top tops ih =>
    obtain ⟨hchecked, hrest⟩ := List.pairwise_cons.mp htops
    refine List.pairwise_append.mpr ⟨List.pairwise_lt_range', ih hrest, fun a ha b hb => ?_⟩
    have := List.mem_range'_1.mp ha
    have := ((mem_examined hrest).mp hb).1
    omega

theorem sublist_range' {start count : Nat} {xs : List Nat} (hxs : xs.Pairwise (· < ·))
    (hmem : ∀ x ∈ xs, start ≤ x ∧ x < start + count) : xs.Sublist (List.range' start count) := by
  induction count generalizing start xs with
  | zero =>
    cases xs with
    | nil => exact List.Sublist.slnil
    | cons x xs =>
      have := hmem x List.mem_cons_self
      omega
  | succ count ih =>
    cases xs with
    | nil => exact List.nil_sublist _
    | cons x xs =>
      obtain ⟨hx, hxs'⟩ := List.pairwise_cons.mp hxs
      have hxmem := hmem x List.mem_cons_self
      rw [List.range'_succ]
      by_cases h : x = start
      · subst h
        refine (ih hxs' fun y hy => ?_).cons_cons x
        have := hx y hy
        have := hmem y (List.mem_cons_of_mem x hy)
        omega
      · refine (ih hxs fun y hy => ?_).cons start
        have := hmem y hy
        rcases List.mem_cons.mp hy with rfl | hy
        · omega
        · have := hx y hy
          omega

theorem examined_sublist {checked : Nat} {tops : List Nat} (htops : (checked :: tops).Pairwise (· ≤ ·)) :
    (examined checked tops).Sublist (examined checked [lastTop checked tops]) := by
  rw [examined, examined, List.append_nil]
  refine sublist_range' (List.pairwise_cons.mp (examined_ascending htops)).2 fun h hh => ?_
  have := (mem_examined htops).mp hh
  omega

end HeaderRelay.Sync
