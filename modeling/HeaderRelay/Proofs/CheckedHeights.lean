import HeaderRelay.Proofs.BitcoinSubmissions
import HeaderRelay.Proofs.BitcoinSync
import HeaderRelay.Proofs.PlayedRaces
import Mathlib.Algebra.GroupWithZero.Nat
import Mathlib.Data.List.Chain

/-!
# The checked height in the reports

Of the peers nothing is asked: the node's best height goes up and down, branches come and go, calls fail. A consensus
engine raises its checked height in one place and touches it nowhere else (`Cycle.Spares`), so the heights that its
cycles report ascend (`Climbs`). The Bitcoin engine remembers the height to which the latest submission has brought the
contract, which is the node's best height of that cycle: its reports ascend exactly if these heights do
(`checked_heights_ascend`), and once a reorganisation was cut short, they need not
(`Bitcoin.resumed_reorganisation_lowers`).
-/
namespace HeaderRelay

open Peer (Call Conduct)

variable {ε σ τ α β : Type}

theorem InProgress.Reaches.runs {C : Conduct ε} {t : InProgress σ α} {e e' : ε} {moves : List (Move σ)}
    {r : Relayed α} {s : σ} (h : t.Reaches C e moves (.ended r s) e') : t.program.Runs C e (r, s) e' := by
  generalize hend : InProgress.ended r s = t' at h
  induction h with
  | here =>
    subst hend
    exact .done _ _
  | note _ ih => exact .note (ih hend)
  | ask hc _ ih => exact .ask hc (ih hend)

/-! ## What a cycle spares -/

namespace Cycle

/-- Whatever its peers answer, the cycle leaves `part` of what the engine remembers as it is. -/
def Spares (part : σ → τ) (x : Cycle σ α) : Prop :=
  ∀ s, x.Ensures .everyone s () (fun _ s' _ => part s' = part s) fun _ s' _ => part s' = part s

variable {part : σ → τ} {x : Cycle σ β} {f : β → Cycle σ α}

theorem Spares.bind (hx : x.Spares part) (hf : ∀ b, (f b).Spares part) : (x >>= f).Spares part := by
  intro s
  refine ensures_bind.mpr (Ensures.mono (hx s) (fun b s₁ _ hspared => ?_) fun _ _ _ h => h)
  exact Ensures.mono (hf b s₁) (fun _ _ _ h => h.trans hspared) fun _ _ _ h => h.trans hspared

theorem spares_ite {p : Prop} [Decidable p] {x y : Cycle σ α} (hx : x.Spares part) (hy : y.Spares part) :
    (if p then x else y).Spares part :=
  fun s => ensures_ite (fun _ => hx s) fun _ => hy s

theorem everyone_asked {mode : Mode} {c : Call} {s : σ} {ok : c.Answer → σ → Unit → Prop}
    {err : RelayError → σ → Unit → Prop} (hok : ∀ a, ok a s ()) (herr : ∀ x, err x s ()) :
    (Cycle.call mode c : Cycle σ c.Answer).Ensures .everyone s () ok err :=
  ensures_call.mpr ⟨trivial, fun a _ _ => hok a, fun x _ _ => herr x⟩

theorem spares_call {mode : Mode} {c : Call} : (Cycle.call mode c : Cycle σ c.Answer).Spares part :=
  fun _ => everyone_asked (fun _ => rfl) fun _ => rfl

theorem spares_outcome {mode : Mode} {c : Call} : (Cycle.outcome mode c : Cycle σ (Relayed c.Answer)).Spares part :=
  fun _ => ensures_outcome.mpr ⟨trivial, fun _ _ _ => rfl⟩

theorem spares_modify {g : σ → σ} (h : ∀ s, part (g s) = part s) : (modify g : Cycle σ PUnit).Spares part := h

end Cycle

namespace Sync

open HeaderRelay.Cycle (View Spares spares_call spares_ite spares_modify spares_outcome everyone_asked)

/-! ## Cycles that climb -/

/-- However the cycle ends, what the engine `knows` is not lowered; a cycle that ends well reports it. -/
def Climbs (knows : σ → Nat) (x : Cycle σ Report) : Prop :=
  ∀ s, x.Ensures .everyone s () (fun report s' _ => report.checkedHeight = knows s' ∧ knows s ≤ knows s')
    fun _ s' _ => knows s ≤ knows s'

variable {knows : σ → Nat} {x : Cycle σ Report}

theorem climbs_bind {y : Cycle σ β} {f : β → Cycle σ Report} (hy : y.Spares knows) (hf : ∀ b, Climbs knows (f b)) :
    Climbs knows (y >>= f) := by
  intro s
  refine Cycle.ensures_bind.mpr (Cycle.Ensures.mono (hy s) (fun b s₁ _ hspared => ?_)
    fun _ _ _ hspared => Nat.le_of_eq hspared.symm)
  rw [← hspared]
  exact hf b s₁

theorem climbs_raise {g : σ → σ} {f : PUnit → Cycle σ Report} (hg : ∀ s, knows s ≤ knows (g s))
    (hf : Climbs knows (f ⟨⟩)) : Climbs knows ((modify g : Cycle σ PUnit) >>= f) := by
  intro s
  refine Cycle.ensures_bind.mpr (Cycle.ensures_modify.mpr (Cycle.Ensures.mono (hf (g s)) ?_ ?_))
  · exact fun _ _ _ h => ⟨h.1, Nat.le_trans (hg s) h.2⟩
  · exact fun _ _ _ h => Nat.le_trans (hg s) h

/-! ## Runs of cycles -/

structure Finished (σ : Type) where
  moves : List (Move σ)
  report : Report

def checkedHeights (finished : List (Finished σ)) : List Nat :=
  (finished.map Finished.report).map Report.checkedHeight

/-- The cycles of an engine, one after the other, whatever its peers answer: those that have ended well, and what the
engine remembers. -/
inductive Rounds (v : x.View) (s₀ : σ) : List (Finished σ) → σ → Prop where
  | start : Rounds v s₀ [] s₀
  | well {finished s moves report s'} : Rounds v s₀ finished s →
    (v.begun s).Reaches .everyone () moves (.ended (.ok report) s') () →
    Rounds v s₀ (finished ++ [⟨moves, report⟩]) s'
  | failed {finished s moves y s'} : Rounds v s₀ finished s →
    (v.begun s).Reaches .everyone () moves (.ended (.error y) s') () → Rounds v s₀ finished s'

variable {v : x.View} {s s₀ s' : σ} {finished : List (Finished σ)}

theorem checkedHeights_append (finished : List (Finished σ)) (f : Finished σ) :
    checkedHeights (finished ++ [f]) = checkedHeights finished ++ [f.report.checkedHeight] := by
  simp [checkedHeights]

theorem ends_of_reaches {moves : List (Move σ)} {r : Relayed Report} {ok : Report → σ → Unit → Prop}
    {err : RelayError → σ → Unit → Prop} (h : x.Ensures .everyone s () ok err)
    (hr : (v.begun s).Reaches .everyone () moves (.ended r s') ()) : Cycle.ends ok err (r, s') () := by
  have hruns := hr.runs
  rw [v.program_begun] at hruns
  exact Cycle.Ensures.of_runs h hruns

/-- The reports of a cycle that climbs ascend, up to what the engine knows. -/
theorem Rounds.ascends (hx : Climbs knows x) (h : Rounds v s₀ finished s) :
    (checkedHeights finished).IsChain (· ≤ ·) ∧ ∀ height ∈ (checkedHeights finished).getLast?, height ≤ knows s := by
  induction h with
  | start => exact ⟨.nil, nofun⟩
  | @well finished s moves report s' _ hr ih =>
    obtain ⟨hreport, hclimbed⟩ := ends_of_reaches (hx s) hr
    rw [checkedHeights_append, List.getLast?_concat]
    refine ⟨ih.1.append (.singleton _) fun last hlast height hheight => ?_, ?_⟩
    · cases hheight
      rw [hreport]
      exact Nat.le_trans (ih.2 last hlast) hclimbed
    · rintro _ ⟨⟩
      exact Nat.le_of_eq hreport
  | failed _ hr ih =>
    exact ⟨ih.1, fun height hlast => Nat.le_trans (ih.2 height hlast) (ends_of_reaches (hx _) hr)⟩

/-! ## The consensus engines -/

theorem spares_lightBlockOf {part : σ → τ} {header : Consensus.Header} :
    (lightBlockOf header : Cycle σ Consensus.LightBlock).Spares part :=
  .bind spares_call fun _ => .bind spares_call fun _ => spares_ite (fun _ => rfl) fun _ => rfl

namespace Sequential

open Consensus (Header)

theorem spares_trustedHeader : trustedHeader.Spares State.checkedHeight := by
  refine .bind spares_call fun hash => .bind spares_call fun height => .bind (fun _ => rfl) fun s => ?_
  split
  · exact fun _ => rfl
  · exact .bind spares_call fun _ =>
      spares_ite (fun _ => rfl) (.bind (spares_modify fun _ => rfl) fun _ _ => rfl)

theorem spares_examine {count height : Nat} {last : Header} {report : Report} :
    (examine count height last report).Spares State.checkedHeight := by
  induction count generalizing height last report with
  | zero => exact fun _ => rfl
  | succ count ih =>
    have hsubmit : ∀ header, (submitHeader height header last).Spares State.checkedHeight := fun header =>
      .bind spares_lightBlockOf fun _ => .bind spares_call fun _ => .bind (fun _ => rfl) fun _ =>
        spares_modify fun _ => rfl
    exact .bind spares_call fun header => .bind (fun _ => rfl) fun _ =>
      spares_ite (.bind (hsubmit header) fun _ => ih) ih

theorem climbs_runCycle : Climbs State.checkedHeight runCycle := by
  refine climbs_bind spares_trustedHeader fun last => climbs_bind spares_call fun (networkHeight : Nat) =>
    climbs_bind spares_call fun networkBest => climbs_bind (spares_modify fun _ => rfl) fun _ =>
      climbs_bind (fun _ => rfl) fun s => climbs_bind (fun _ => rfl) fun _ => climbs_bind spares_examine fun report =>
        climbs_raise (fun s => s.checkedHeight_le_raiseChecked networkHeight) ?_
  exact fun s => ⟨rfl, Nat.le_refl _⟩

end Sequential

namespace Batched

open Consensus (Header)

theorem spares_storedHeader : storedHeader.Spares State.checkedHeight := by
  refine .bind spares_call fun height => .bind (fun _ => rfl) fun s => ?_
  split
  · exact fun _ => rfl
  · exact .bind spares_call fun _ => .bind spares_call fun _ =>
      spares_ite (fun _ => rfl) (.bind (spares_modify fun _ => rfl) fun _ _ => rfl)

theorem spares_dropStored {height : Nat} : (dropStored height).Spares State.checkedHeight :=
  .bind (fun _ => rfl) fun _ => .bind (spares_modify fun _ => rfl) fun _ => spares_ite (fun _ => rfl) fun _ => rfl

theorem spares_readHeaders {count height : Nat} : (readHeaders count height).Spares State.checkedHeight := by
  induction count generalizing height with
  | zero => exact fun _ => rfl
  | succ count ih => exact .bind spares_call fun _ => .bind ih fun _ _ => rfl

theorem spares_enqueue {headers : List Header} : (enqueue headers).Spares State.checkedHeight := by
  induction headers with
  | nil => exact fun _ => rfl
  | cons h headers ih => exact .bind (fun _ => rfl) fun _ => .bind (spares_modify fun _ => rfl) fun _ => ih

theorem spares_lightBlocksOf {headers : List Header} : (lightBlocksOf headers).Spares State.checkedHeight := by
  induction headers with
  | nil => exact fun _ => rfl
  | cons h headers ih => exact .bind spares_lightBlockOf fun _ => .bind ih fun _ _ => rfl

theorem spares_sendBatch {size : Nat} {prev : Header} : (sendBatch size prev).Spares State.checkedHeight := by
  refine .bind (fun _ => rfl) fun s => .bind spares_lightBlocksOf fun blocks => .bind spares_call fun attested => ?_
  split
  · refine spares_ite (fun _ => rfl) (.bind spares_outcome fun r => ?_)
    cases r with
    | error x => exact fun _ => rfl
    | ok response => exact .bind (fun _ => rfl) fun _ => .bind (spares_modify fun _ => rfl) fun _ _ => rfl
  · exact fun _ => rfl

theorem climbs_sendBatches {size count : Nat} {prev : Header} {report : Report} {s : State Header}
    (h : report.checkedHeight = s.checkedHeight) :
    (sendBatches size count prev report).Ensures .everyone s ()
      (fun report' s' _ => report'.checkedHeight = s'.checkedHeight ∧ s.checkedHeight ≤ s'.checkedHeight)
      fun _ s' _ => s.checkedHeight ≤ s'.checkedHeight := by
  induction count generalizing prev report s with
  | zero => exact ⟨h, Nat.le_refl _⟩
  | succ count ih =>
    refine Cycle.ensures_bind.mpr (Cycle.ensures_get.mpr (Cycle.ensures_bind.mpr ?_))
    refine Cycle.Ensures.mono (spares_sendBatch s) (fun tip s₁ _ hspared => ?_)
      fun _ _ _ hspared => Nat.le_of_eq hspared.symm
    rw [← hspared] at h ⊢
    exact ih (s := { s₁ with contractBest := some tip }) h

theorem climbs_runCycle {size : Nat} : Climbs State.checkedHeight (runCycle size) := by
  refine climbs_bind spares_storedHeader fun relayBest => climbs_bind spares_dropStored fun _ =>
    climbs_bind spares_call fun (networkHeight : Nat) => climbs_bind spares_call fun networkBest =>
      climbs_bind (spares_modify fun _ => rfl) fun _ => climbs_bind (fun _ => rfl) fun s =>
        climbs_bind (fun _ => rfl) fun _ => climbs_bind spares_readHeaders fun examined =>
          climbs_bind spares_enqueue fun _ =>
            climbs_raise (fun s => s.checkedHeight_le_raiseChecked networkHeight) fun s => ?_
  exact Cycle.ensures_bind.mpr (Cycle.ensures_get.mpr (Cycle.ensures_bind.mpr (climbs_sendBatches rfl)))

end Batched

/-! ## The Bitcoin engine -/

namespace Bitcoin

open HeaderRelay.Bitcoin (Header)

variable {config : Config} {ends : Ends} {height : Nat} {cursor : Hash} {trail : Trail Header} {s s' : State}
  {moves : List (Move State)} {report : Report} {batches : List (Batch Header)} {gas : Option Nat}

theorem nonempty_walk_step (hfirst : trail.size = 0 → cursor ≠ ends.contractBest)
    (hnext : ∀ (header : Header) below, height = below + 1 →
      (walk ends below header.prevHash (trail.push header) : Cycle State (Option Gap)).Ensures .everyone s ()
        (fun found s' _ => s' = s ∧ ∀ g, found = some g → g.headers ≠ []) fun _ s' _ => s' = s) :
    (walk ends height cursor trail : Cycle State (Option Gap)).Ensures .everyone s ()
      (fun found s' _ => s' = s ∧ ∀ g, found = some g → g.headers ≠ []) fun _ s' _ => s' = s := by
  have hheld : (contractAt ends height : Cycle State (Option Hash)).Spares id := spares_ite spares_call fun _ => rfl
  unfold walk
  refine Cycle.ensures_bind.mpr (Cycle.Ensures.mono (hheld s) (fun held s₁ _ hs => ?_) fun _ _ _ h => h)
  obtain rfl : s₁ = s := hs
  cases hend : walkEnd cursor height trail.size ends.contractBest ends.contractHeight held with
  | none =>
    refine Cycle.ensures_ite (fun _ => rfl) fun _ => ?_
    refine Cycle.ensures_bind.mpr (everyone_asked (fun (header : Header) => ?_) fun _ => ?_)
    · cases height with
      | zero => exact rfl
      | succ below => exact hnext header below rfl
    · exact rfl
  | some stop =>
    have hwalked := stop_eq_alreadyHeld_iff hfirst hend
    cases stop with
    | alreadyHeld => exact ⟨rfl, nofun⟩
    | linearExtension | forkConvergence =>
      refine ⟨rfl, ?_⟩
      rintro _ ⟨⟩ hnone
      cases hwalked.mpr (congrArg List.length hnone)

theorem nonempty_walk (hfirst : trail.size = 0 → cursor ≠ ends.contractBest) :
    (walk ends height cursor trail : Cycle State (Option Gap)).Ensures .everyone s ()
      (fun found s' _ => s' = s ∧ ∀ g, found = some g → g.headers ≠ []) fun _ s' _ => s' = s := by
  induction height generalizing cursor trail with
  | zero => exact nonempty_walk_step hfirst fun _ _ h => nomatch h
  | succ below ih =>
    refine nonempty_walk_step hfirst fun header below' hbelow => ?_
    obtain rfl : below = below' := Nat.succ.inj hbelow
    exact ih nofun

theorem nonempty_findGap :
    (findGap config : Cycle State (Option Gap)).Ensures .everyone s ()
      (fun found s' _ => s' = s ∧ ∀ g, found = some g → g.headers ≠ []) fun _ s' _ => s' = s := by
  refine Cycle.ensures_bind.mpr (everyone_asked (fun (contractBest : Hash) => ?_) fun _ => rfl)
  refine Cycle.ensures_bind.mpr (everyone_asked (fun (contractHeight : Nat) => ?_) fun _ => rfl)
  refine Cycle.ensures_bind.mpr (everyone_asked (fun (chainBest : Hash) => ?_) fun _ => rfl)
  refine Cycle.ensures_ite (fun _ => ⟨rfl, nofun⟩) fun hne => ?_
  refine Cycle.ensures_bind.mpr (everyone_asked (fun (chainHeight : Nat) => ?_) fun _ => rfl)
  exact nonempty_walk fun _ => hne

theorem sum_batchesFrom {size fuel : Nat} {headers : List Header} {tip : Nat} (hsize : 0 < size)
    (hfuel : headers.length ≤ fuel) :
    ((batchesFrom size fuel headers tip).map fun b => b.headers.length).sum = headers.length := by
  induction fuel generalizing headers tip with
  | zero => exact (Nat.le_zero.mp hfuel).symm
  | succ fuel ih =>
    unfold batchesFrom
    cases headers with
    | nil => rfl
    | cons h headers =>
      have hrest : ((h :: headers).drop size).length ≤ fuel := by
        simp only [List.length_drop, List.length_cons] at hfuel ⊢
        omega
      have hsplit : ((h :: headers).take size).length + ((h :: headers).drop size).length = (h :: headers).length := by
        rw [← List.length_append, List.take_append_drop]
      rw [← hsplit, ← @ih _ (tip + ((h :: headers).take size).length) hrest]
      rfl

theorem counts_submitAll :
    (submitAll config batches gas report : Cycle State Report).Ensures .everyone s ()
      (fun report' s' _ => s' = s ∧
        report'.submitted = report.submitted + (batches.map fun b => b.headers.length).sum)
      fun _ s' _ => s' = s := by
  induction batches generalizing gas report with
  | nil => exact ⟨rfl, rfl⟩
  | cons b rest ih =>
    refine Cycle.ensures_bind.mpr (Cycle.ensures_outcome.mpr ⟨trivial, fun r _ _ => ?_⟩)
    cases r with
    | error x => exact rfl
    | ok response =>
      refine Cycle.ensures_bind.mpr (Cycle.ensures_log.mpr (Cycle.Ensures.mono ih ?_ fun _ _ _ h => h))
      rintro report' s' _ ⟨rfl, hcount⟩
      refine ⟨rfl, ?_⟩
      rw [hcount, List.map_cons, List.sum_cons, Nat.add_assoc]

/-- A cycle that submits nothing reports what the engine remembers; one that submits remembers what it reports; and one
that fails remembers what it did. -/
theorem settles_runCycle :
    (runCycle config).Ensures .everyone s ()
      (fun report s' _ => report.submitted = 0 ∧ report.checkedHeight = s.checkedHeight ∧ s' = s ∨
        0 < report.submitted ∧ s' = ⟨report.checkedHeight⟩)
      fun _ s' _ => s' = s := by
  refine Cycle.ensures_bind.mpr (Cycle.ensures_log.mpr (Cycle.ensures_bind.mpr
    (Cycle.Ensures.mono nonempty_findGap ?_ fun _ _ _ h => h)))
  rintro found s₁ _ ⟨rfl, hnonempty⟩
  cases found with
  | none => exact .inl ⟨rfl, rfl, rfl⟩
  | some g =>
    refine Cycle.ensures_bind.mpr ?_
    by_cases hsize : config.batchSize = 0
    · rw [batchesOf, checkBatchSize, if_pos hsize]
      exact rfl
    · rw [batchesOf, checkBatchSize, if_neg hsize]
      have hgas : (firstGas config : Cycle State (Option Nat)).Spares id := by
        refine spares_ite (fun _ => rfl) (.bind spares_outcome fun r => ?_)
        cases r <;> exact fun _ => rfl
      refine Cycle.ensures_bind.mpr (Cycle.Ensures.mono (hgas s₁) (fun gas s₂ _ hs => ?_) fun _ _ _ h => h)
      obtain rfl : s₂ = s₁ := hs
      refine Cycle.ensures_bind.mpr (Cycle.ensures_get.mpr (Cycle.ensures_bind.mpr
        (Cycle.Ensures.mono counts_submitAll ?_ fun _ _ _ h => h)))
      rintro report s' _ ⟨rfl, hcount⟩
      rw [sum_batchesFrom (Nat.pos_of_ne_zero hsize) (Nat.le_refl _)] at hcount
      have hpos := List.length_pos_iff.mpr (hnonempty g rfl)
      refine .inr ⟨?_, rfl⟩
      show 0 < report.submitted
      omega

theorem heightRead?_submitAll :
    (submitAllView config batches gas report).Ensures .everyone (fun _ _ _ => True) moves s ()
      (fun _ moves' _ _ => heightRead? moves' = heightRead? moves) fun _ _ _ _ => True := by
  induction batches generalizing gas report moves with
  | nil => exact rfl
  | cons b rest ih =>
    refine View.ensures_submission.mpr ⟨⟨trivial, trivial⟩, fun r _ _ => ?_⟩
    cases r with
    | error x => exact trivial
    | ok response =>
      refine View.ensures_bind.mpr (ih.mono ?_ fun _ _ _ _ h => h)
      intro report' moves' _ _ hsame
      rw [hsame, heightRead?_aside fun m hm => by rw [List.mem_singleton.mp hm]; exact nofun]

theorem heightRead?_view :
    (view config).Ensures .everyone (fun _ _ _ => True) [] s ()
      (fun report moves' _ _ => 0 < report.submitted → heightRead? moves' = some report.checkedHeight)
      fun _ _ _ _ => True := by
  refine View.ensures_bind.mpr (View.ensures_bind.mpr (InProgress.Ensures.mono walked_findGap
    (fun _ _ _ _ => trivial) ?_))
  rintro (x | found) moves s ⟨⟩ h
  · exact trivial
  cases found with
  | none => exact nofun
  | some g =>
  have hwalked := h g rfl
  refine View.ensures_bind.mpr ?_
  cases hbatches : Sync.batchesOf g.headers g.tipHeight config.batchSize with
  | error x => exact trivial
  | ok batches =>
    refine View.ensures_bind.mpr ((View.ensures_of_reads (P := Aside) (fun _ _ _ _ => trivial)
      everyone_firstGas).mono ?_ fun _ _ _ _ _ => trivial)
    rintro gas _ s ⟨⟩ ⟨-, new, rfl, hnew⟩
    refine View.ensures_bind.mpr (View.ensures_bind.mpr (heightRead?_submitAll.mono ?_ fun _ _ _ _ h => h))
    rintro report moves' s ⟨⟩ hsame -
    rw [hsame]
    exact (hwalked.aside hnew).top

/-- The heights of the node's best headers in the cycles that have submitted some. -/
def aims (finished : List (Finished State)) : List Nat :=
  (finished.filter fun f => 0 < f.report.submitted).filterMap fun f => heightRead? f.moves

theorem aims_idle {finished : List (Finished State)} {f : Finished State} (h : f.report.submitted = 0) :
    aims (finished ++ [f]) = aims finished := by
  simp [aims, h]

theorem aims_submitted {finished : List (Finished State)} {f : Finished State} (h : 0 < f.report.submitted)
    (hheight : heightRead? f.moves = some height) : aims (finished ++ [f]) = aims finished ++ [height] := by
  simp [aims, h, hheight]

theorem heightRead?_rounds {finished : List (Finished State)} {s₀ : State}
    (h : Rounds (view config) s₀ finished s) :
    ∀ f ∈ finished, 0 < f.report.submitted → heightRead? f.moves = some f.report.checkedHeight := by
  induction h with
  | start => exact nofun
  | @well finished s moves report s' _ hr ih =>
    intro f hf
    rcases List.mem_append.mp hf with hf | hf
    · exact ih f hf
    · obtain rfl := List.mem_singleton.mp hf
      exact heightRead?_view.of_reaches hr
  | failed _ _ ih => exact ih

theorem ascends_concat {heights : List Nat} {c : Nat} (h : heights.getLast? = some c) :
    (heights ++ [height]).IsChain (· ≤ ·) ↔ heights.IsChain (· ≤ ·) ∧ c ≤ height := by
  rw [List.isChain_append, h]
  simp

/-- What the engine remembers is what it has reported last and what it has aimed at last; before that it is the height
with which it began. -/
theorem rounds_settle {c : Nat} {finished : List (Finished State)} (h : Rounds (view config) ⟨c⟩ finished s) :
    (c :: checkedHeights finished).getLast? = some s.checkedHeight ∧
      (c :: aims finished).getLast? = some s.checkedHeight ∧
      ((c :: checkedHeights finished).IsChain (· ≤ ·) ↔ (c :: aims finished).IsChain (· ≤ ·)) := by
  induction h with
  | start => exact ⟨rfl, rfl, Iff.rfl⟩
  | @well finished s moves report s' _ hr ih =>
    obtain ⟨hreported, haimed, hiff⟩ := ih
    have hreports := checkedHeights_append finished ⟨moves, report⟩
    rcases ends_of_reaches settles_runCycle hr with ⟨hnone, hkept, rfl⟩ | ⟨hsome, rfl⟩
    · rw [hreports, aims_idle hnone, ← List.cons_append, List.getLast?_concat, ascends_concat hreported]
      dsimp only
      rw [hkept]
      exact ⟨rfl, haimed, (and_iff_left (Nat.le_refl _)).trans hiff⟩
    · rw [hreports, aims_submitted hsome (heightRead?_view.of_reaches hr hsome), ← List.cons_append,
        ← List.cons_append, List.getLast?_concat, List.getLast?_concat, ascends_concat hreported,
        ascends_concat haimed, hiff]
      exact ⟨rfl, rfl, Iff.rfl⟩
  | failed _ hr ih =>
    obtain rfl := ends_of_reaches settles_runCycle hr
    exact ih

end Bitcoin

/-! ## Runs on simulated peers -/

def respond (c : Call) (n : Sim.Network) : Relayed c.Answer × Sim.Network :=
  ((n.serve c).1.getD (.error (.network "no answer")), (n.serve c).2)

def playRounds (v : x.View) : List (Sim.Network → Sim.Network) → σ → Sim.Network → List (Finished σ)
  | [], _, _ => []
  | change :: rest, s, n =>
    let (moves, left, n') := (v.begun s).playUntil (fun _ n => n) respond (fun _ => false) (change n)
    match left.ended? with
    | some (.ok report, s') => ⟨moves, report⟩ :: playRounds v rest s' n'
    | some (.error _, s') => playRounds v rest s' n'
    | none => []

theorem reaches_everyone_playUntil (hears : Log.Event → ε → ε) (respond : (c : Call) → ε → Relayed c.Answer × ε)
    (stop : Call → Bool) (t : InProgress σ α) (e : ε) :
    t.Reaches .everyone () (t.playUntil hears respond stop e).1 (t.playUntil hears respond stop e).2.1 () := by
  induction t generalizing e with
  | ended r s => exact .here
  | note ev next ih => exact .note (ih _)
  | ask s mode c next ih =>
    unfold InProgress.playUntil
    split
    · exact .here
    · exact .ask trivial (ih _ _)

theorem rounds_playRounds (changes : List (Sim.Network → Sim.Network)) (n : Sim.Network)
    (h : Rounds v s₀ finished s) : ∃ s', Rounds v s₀ (finished ++ playRounds v changes s n) s' := by
  induction changes generalizing finished s n with
  | nil =>
    rw [playRounds, List.append_nil]
    exact ⟨s, h⟩
  | cons change rest ih =>
    have hway := reaches_everyone_playUntil (fun _ n => n) respond (fun _ => false) (v.begun s) (change n)
    unfold playRounds
    dsimp only
    split
    · rename_i report s' hend
      rw [InProgress.eq_of_ended? hend] at hway
      rw [List.append_cons]
      exact ih _ (h.well hway)
    · rename_i y s' hend
      rw [InProgress.eq_of_ended? hend] at hway
      exact ih _ (h.failed hway)
    · exact ⟨s, by rwa [List.append_nil]⟩

def upTo (top : Nat) (n : Sim.Network) : Sim.Network := { n with consensusNode := nodeUpTo plainChain top }

namespace Bitcoin

/-- A node with two branches on its first header, one of three headers and one of four. -/
def branchingNode (best : UInt8) : Sim.BitcoinNode where
  headers := (⟨.replicate 1, .zero, .zero, []⟩, 0) ::
    [(11, 1, 1), (12, 11, 2), (13, 12, 3), (21, 1, 1), (22, 21, 2), (23, 22, 3), (24, 23, 4)].map
      fun (hash, parent, height) => (⟨.replicate hash, .replicate parent, .zero, []⟩, height)
  txids := []
  genesis := .replicate 1
  best := .replicate best
  headerFetches := 0
  stalled := false

def withBest (best : UInt8) (n : Sim.Network) : Sim.Network := { n with bitcoinNode := branchingNode best }

def branchingPeers : Sim.Network := { (default : Sim.Network) with bitcoinClient := .holding 0 [.replicate 1] }

end Bitcoin

/-! ## All engines -/

/-- **The checked height.** The heights that a consensus engine reports ascend. A Bitcoin cycle that submits reports the
height of the node's best header, and the heights that the engine reports ascend exactly if those do. -/
theorem checked_heights_ascend (maxInterval size : Nat) (config : Bitcoin.Config) :
    (∀ finished s, Rounds Sequential.view (State.fresh maxInterval) finished s →
      (checkedHeights finished).IsChain (· ≤ ·)) ∧
    (∀ finished s, Rounds (Batched.view size) (State.fresh maxInterval) finished s →
      (checkedHeights finished).IsChain (· ≤ ·)) ∧
    ∀ finished s, Rounds (Bitcoin.view config) ⟨0⟩ finished s →
      (∀ f ∈ finished, 0 < f.report.submitted → Bitcoin.heightRead? f.moves = some f.report.checkedHeight) ∧
      ((checkedHeights finished).IsChain (· ≤ ·) ↔ (Bitcoin.aims finished).IsChain (· ≤ ·)) := by
  refine ⟨fun finished s h => (h.ascends Sequential.climbs_runCycle).1,
    fun finished s h => (h.ascends Batched.climbs_runCycle).1, fun finished s h => ?_⟩
  obtain ⟨-, -, hiff⟩ := Bitcoin.rounds_settle h
  refine ⟨Bitcoin.heightRead?_rounds h, ?_⟩
  simpa [List.isChain_cons] using hiff

/-- Consensus nodes that fall back from height 7 to height 5, and a Bitcoin node that changes to a longer branch. -/
theorem lagging_nodes_ascend :
    (∃ finished s, Rounds Sequential.view (State.fresh 2) finished s ∧ checkedHeights finished = [7, 7] ∧
      (checkedHeights finished).IsChain (· ≤ ·)) ∧
    (∃ finished s, Rounds (Batched.view 2) (State.fresh 2) finished s ∧ checkedHeights finished = [7, 7] ∧
      (checkedHeights finished).IsChain (· ≤ ·)) ∧
    ∃ finished s, Rounds (Bitcoin.view ⟨1, 5, ⟨0⟩, some 3⟩) ⟨0⟩ finished s ∧ Bitcoin.aims finished = [3, 4] ∧
      (checkedHeights finished).IsChain (· ≤ ·) := by
  obtain ⟨hsequential, hbatched, hbitcoin⟩ := checked_heights_ascend 2 2 ⟨1, 5, ⟨0⟩, some 3⟩
  refine ⟨?_, ?_, ?_⟩
  · obtain ⟨s, hrounds⟩ := rounds_playRounds [upTo 7, upTo 5] plainPeers
      (.start : Rounds Sequential.view (State.fresh 2) [] _)
    exact ⟨_, s, hrounds, by decide +kernel, hsequential _ s hrounds⟩
  · obtain ⟨s, hrounds⟩ := rounds_playRounds [upTo 7, upTo 5] plainPeers
      (.start : Rounds (Batched.view 2) (State.fresh 2) [] _)
    exact ⟨_, s, hrounds, by decide +kernel, hbatched _ s hrounds⟩
  · obtain ⟨s, hrounds⟩ := rounds_playRounds [Bitcoin.withBest 13, Bitcoin.withBest 24] Bitcoin.branchingPeers
      (.start : Rounds (Bitcoin.view ⟨1, 5, ⟨0⟩, some 3⟩) ⟨0⟩ [] _)
    have haims : Bitcoin.aims ([] ++ playRounds (Bitcoin.view ⟨1, 5, ⟨0⟩, some 3⟩)
        [Bitcoin.withBest 13, Bitcoin.withBest 24] ⟨0⟩ Bitcoin.branchingPeers) = [3, 4] := by decide +kernel
    refine ⟨_, s, hrounds, haims, (hbitcoin _ s hrounds).2.mpr ?_⟩
    rw [haims]
    decide

namespace Bitcoin

/-- The contract refuses the second header of a longer branch, and that branch then loses its upper half. -/
def cutShort : List (Sim.Network → Sim.Network) :=
  [withBest 13, fun n => withBest 24 { n with bitcoinClient := { n.bitcoinClient with refused := some 4 } },
    withBest 22]

/-- The engine reports height 3. It then fails in the middle of a reorganisation, which leaves the contract at height 1,
and goes on from there to height 2. -/
theorem resumed_reorganisation_lowers :
    ∃ finished s, Rounds (view ⟨1, 5, ⟨0⟩, some 3⟩) ⟨0⟩ finished s ∧
      finished.map Finished.report = [⟨engine, 3, 3, 3⟩, ⟨engine, 1, 1, 2⟩] ∧
      ¬ (checkedHeights finished).IsChain (· ≤ ·) := by
  obtain ⟨s, hrounds⟩ := rounds_playRounds cutShort branchingPeers
    (.start : Rounds (view ⟨1, 5, ⟨0⟩, some 3⟩) ⟨0⟩ [] _)
  have hreports : (playRounds (view ⟨1, 5, ⟨0⟩, some 3⟩) cutShort ⟨0⟩ branchingPeers).map Finished.report =
      [⟨engine, 3, 3, 3⟩, ⟨engine, 1, 1, 2⟩] := by decide +kernel
  refine ⟨_, s, hrounds, hreports, ?_⟩
  rw [List.nil_append, checkedHeights, hreports]
  decide

end Bitcoin

end Sync

end HeaderRelay
