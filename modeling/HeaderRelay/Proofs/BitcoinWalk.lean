import HeaderRelay.Proofs.BitcoinContract
import HeaderRelay.Proofs.Recording
import HeaderRelay.Sync.Bitcoin

/-!
# The walk back

The peers are a node that does not change and the light-client contract (`bitcoinPeers`). From the node's best
header a walk follows parents' hashes down to one that the contract `Has`; the headers on the way lead from
there to the node's best (`Leads`), and the contract `Lacks` them all. `Finds` says what a walk of at most so
many headers finds.

Results:
* `ensures_findGap_finds`: what is found, on a good or on a bad connection, is so.
* `ensures_findGap_of_finds`: what is so is found, unless the connection is bad.
-/
namespace HeaderRelay

open Bitcoin (Header)
open Peer (Call Conduct)

namespace Sim.BitcoinNode

variable {node : BitcoinNode} {hash parent best : Hash} {headers : List Header}

/-! ## What the node knows -/

def header? (node : BitcoinNode) (hash : Hash) : Option Header := (node.find? hash).map (·.1)

def height? (node : BitcoinNode) (hash : Hash) : Option Nat := (node.find? hash).map (·.2)

theorem hash_of_header? {h : Header} (hf : node.header? hash = some h) : h.hash = hash := by
  obtain ⟨p, hp, rfl⟩ := Option.map_eq_some_iff.mp hf
  exact eq_of_beq (List.find?_some (p := fun q : Header × Nat => q.1.hash == hash) hp)

theorem known_eq_ok {α : Type} {a : Option α} {x : α} : known hash a = .ok x ↔ a = some x := by
  cases a <;> simp [known]

theorem header?_of_serve {h : Header} (hs : (node.serve (.header hash)).1 = some (.ok h)) :
    node.header? hash = some h := by
  have hserve : (node.serve (.header hash)).1 =
      if node.stalled then none else some (known hash (node.header? hash)) := by
    simp only [serve]
    split <;> rfl
  rw [hserve] at hs
  split at hs
  · cases hs
  · exact known_eq_ok.mp (Option.some.inj hs)

theorem height?_of_serve {height : Nat} (hs : (node.serve (.headerHeight hash)).1 = some (.ok height)) :
    node.height? hash = some height :=
  known_eq_ok.mp (Option.some.inj hs)

/-- `node.Leads parent headers best`: headers of the node, oldest first, that lead by their parents'
hashes from `parent` to `best`. -/
def Leads (node : BitcoinNode) : (parent : Hash) → List Header → (best : Hash) → Prop
  | parent, [], best => parent = best
  | parent, h :: rest, best =>
    h.prevHash = parent ∧ node.header? h.hash = some h ∧ node.Leads h.hash rest best

theorem Leads.getLast? (h : node.Leads parent headers best) (hne : headers ≠ []) :
    ∃ x, headers.getLast? = some x ∧ x.hash = best := by
  induction headers generalizing parent with
  | nil => exact absurd rfl hne
  | cons a rest ih =>
    obtain ⟨-, -, h⟩ := h
    cases rest with
    | nil => exact ⟨a, rfl, h⟩
    | cons b rest =>
      obtain ⟨x, hx, hbest⟩ := ih h (by simp)
      exact ⟨x, by rw [List.getLast?_cons_cons]; exact hx, hbest⟩

theorem leads_append {xs ys : List Header} :
    node.Leads parent (xs ++ ys) best ↔ ∃ mid, node.Leads parent xs mid ∧ node.Leads mid ys best := by
  induction xs generalizing parent with
  | nil =>
    constructor
    · intro h
      exact ⟨parent, rfl, h⟩
    · intro h
      obtain ⟨mid, rfl, h⟩ := h
      exact h
  | cons x xs ih => simp only [List.cons_append, Leads, ih, ← exists_and_left, and_assoc]

theorem Leads.parent_eq {parent' : Hash} (h : node.Leads parent headers best)
    (h' : node.Leads parent' headers best) (hne : headers ≠ []) : parent = parent' := by
  cases headers with
  | nil => exact absurd rfl hne
  | cons x rest => exact h.1.symm.trans h'.1

theorem serve_header {h : Header} (hrun : node.stalled = false) (hf : node.header? hash = some h) :
    (node.serve (.header hash)).1 = some (.ok h) := by
  have hserve : (node.serve (.header hash)).1 = some (known hash (node.header? hash)) := by
    simp only [serve, hrun]
    rfl
  exact hserve.trans (congrArg some (known_eq_ok.mpr hf))

end Sim.BitcoinNode

/-! ## The peers -/

/-- The node and the contract. The node does not change; the state is the contract. -/
def bitcoinPeers (node : Sim.BitcoinNode) : Conduct Sim.BitcoinClient where
  attends
    | mode, .bitcoinClient (.submitHeaders ..) => mode = .submit
    | _, .bitcoinNode _ | _, .bitcoinClient _ => True
    | _, _ => False
  answers
    | .bitcoinNode c, k, r, k' => (node.serve c).1 = some r ∧ k' = k
    | .bitcoinClient c, k, r, k' => k.serve c = (r, k')
    | _, _, _, _ => False
  hears _ k := k
  reads {op c k r k'} hc h := by
    cases c with
    | bitcoinNode c => exact h.2
    | bitcoinClient c =>
      have h : k.serve c = (r, k') := h
      cases c with
      | submitHeaders => cases hc
      | _ => cases h; rfl
    | _ => exact hc.elim

def bitcoinReads (node : Sim.BitcoinNode) : Conduct Sim.BitcoinClient :=
  (bitcoinPeers node).asking fun c => c.isSubmission = false

namespace Sync.Bitcoin

variable {σ : Type} {node : Sim.BitcoinNode} {k k' : Sim.BitcoinClient} {faulty : Prop} {s : σ} {g : Gap}

/-! ## Reads -/

theorem ensures_readNode {op : String} {c : Peer.BitcoinNode} {ok : c.Answer → σ → Sim.BitcoinClient → Prop}
    {err : RelayError → σ → Sim.BitcoinClient → Prop}
    (hok : ∀ a, (node.serve c).1 = some (.ok a) → ok a s k)
    (herr : ∀ x, faulty ∨ ¬ (∃ a, (node.serve c).1 = some (.ok a)) → err x s k) :
    (Cycle.read op (.bitcoinNode c) : Cycle σ c.Answer).Ensures
      ((bitcoinReads node).failing faulty) s k ok err := by
  refine Cycle.ensures_read_failing ⟨fun _ => ⟨trivial, rfl⟩, ?_⟩ hok herr
  rintro (x | a) k' ⟨h, -⟩
  · rintro ⟨a, ha⟩
    cases h.symm.trans ha
  · exact h

theorem ensures_readClient {op : String} {c : Peer.BitcoinClient} {a : c.Answer}
    {ok : c.Answer → σ → Sim.BitcoinClient → Prop} {err : RelayError → σ → Sim.BitcoinClient → Prop}
    (hc : ∀ op, (bitcoinReads node).attends (.read op) (.bitcoinClient c)) (ha : k.serve c = (.ok a, k))
    (hok : ok a s k) (herr : ∀ x, faulty → err x s k) :
    (Cycle.read op (.bitcoinClient c) : Cycle σ c.Answer).Ensures ((bitcoinReads node).failing faulty) s k
      ok err := by
  have hanswer : ∀ {r k'}, (bitcoinReads node).answers (.bitcoinClient c) k r k' → r.Served True (· = a) := by
    intro r k' h
    cases ha.symm.trans h
    exact rfl
  refine Cycle.ensures_read_failing ⟨hc, hanswer⟩ ?_ ?_
  · rintro _ rfl
    exact hok
  · rintro x (h | h)
    · exact herr x h
    · exact absurd trivial h

theorem ensures_contractAt {ends : Ends} {height : Nat} {ok : Option Hash → σ → Sim.BitcoinClient → Prop}
    {err : RelayError → σ → Sim.BitcoinClient → Prop}
    (hok : ∀ held : Option Hash,
      (∀ hash, held = some hash ↔ height ≤ ends.contractHeight ∧ k.heldAt height = some hash) → ok held s k)
    (herr : ∀ x, faulty → err x s k) :
    (contractAt ends height).Ensures ((bitcoinReads node).failing faulty) s k ok err := by
  refine Cycle.ensures_ite (fun hle => ?_) fun hgt => ?_
  · exact ensures_readClient (c := .headerHashAt height) (fun _ => ⟨trivial, rfl⟩) rfl
      (hok (k.heldAt height) fun hash => (and_iff_right hle).symm) herr
  · exact hok none fun hash => by simp [hgt]

/-! ## What a walk finds -/

/-- Headers of the node that lead to its best, as many as there are from the gap's height to the best's. -/
structure Closes (node : Sim.BitcoinNode) (g : Gap) : Prop where
  nonempty : g.headers ≠ []
  height : node.height? node.best = some g.target
  leads : ∃ parent, node.Leads parent g.headers node.best

def Missing (node : Sim.BitcoinNode) (k : Sim.BitcoinClient) : Option Gap → Prop
  | none => k.tip.2 = node.best ∨
      ∃ height, node.height? node.best = some height ∧ k.heldAt height = some node.best
  | some g => Closes node g

/-- A gap of at most `max` headers, between a header that the contract has and the node's best. -/
structure Bridges (node : Sim.BitcoinNode) (k : Sim.BitcoinClient) (max : Nat) (g : Gap) : Prop
    extends Closes node g where
  meets : ∀ parent, node.Leads parent g.headers node.best → k.Has g.tipHeight parent
  lacks : k.Lacks g.tipHeight g.headers
  short : g.headers.length ≤ max

/-- What a walk of at most `max` headers finds. -/
def Finds (node : Sim.BitcoinNode) (k : Sim.BitcoinClient) (max : Nat) : Option Gap → Prop
  | none => node.best = k.tip.2 ∨ ∃ height, node.height? node.best = some height ∧ k.Has height node.best
  | some g => Bridges node k max g

theorem Finds.missing {max : Nat} {found : Option Gap} (h : Finds node k max found) :
    Missing node k found := by
  cases found with
  | some g => exact h.toCloses
  | none =>
    rcases h with hbest | ⟨height, hheight, hbest | ⟨-, hheld⟩⟩
    · exact .inl hbest.symm
    · exact .inl hbest.symm
    · exact .inr ⟨height, hheight, hheld⟩

theorem Finds.congr {max : Nat} {found : Option Gap} (hentries : k'.entries = k.entries)
    (h : Finds node k max found) : Finds node k' max found := by
  cases found with
  | none => simpa only [Finds, Sim.BitcoinClient.has_congr hentries, Sim.BitcoinClient.tip_congr hentries] using h
  | some g =>
    exact ⟨h.toCloses, fun parent hl => (Sim.BitcoinClient.has_congr hentries _ _).mpr (h.meets parent hl),
      (Sim.BitcoinClient.lacks_congr hentries).mpr h.lacks, h.short⟩

theorem Bridges.not_has_best {max : Nat} (h : Bridges node k max g) : ¬ k.Has g.target node.best := by
  obtain ⟨parent, hleads⟩ := h.leads
  obtain ⟨x, hx, hbest⟩ := hleads.getLast? h.nonempty
  obtain ⟨init, hinit⟩ := List.getLast?_eq_some_iff.mp hx
  have hlacks := h.lacks
  rw [hinit, Sim.BitcoinClient.lacks_append] at hlacks
  have htarget : g.tipHeight + init.length + 1 = g.target := by
    rw [Gap.target, hinit, List.length_append, List.length_singleton]
    omega
  rw [← hbest, ← htarget]
  exact hlacks.2.1

/-! ## Walking -/

def endsOf (k : Sim.BitcoinClient) (chainHeight max : Nat) : Ends := ⟨k.tip.2, k.tip.1, chainHeight, max⟩

section WalkEnd

variable {cursor contractBest : Hash} {height walked contractHeight : Nat} {held : Option Hash} {stop : WalkEnd}

theorem walkEnd_eq_none_iff :
    walkEnd cursor height walked contractBest contractHeight held = none ↔
      ¬ (cursor = contractBest ∨ height ≤ contractHeight ∧ held = some cursor) := by
  unfold walkEnd
  by_cases hbest : cursor = contractBest
  · simp [hbest]
  · by_cases hhas : height ≤ contractHeight ∧ held = some cursor
    · simp [hbest, hhas]
    · rw [if_neg hbest, if_neg hhas]
      simp only [hbest, hhas, or_self, not_false_eq_true]

theorem exists_walkEnd (walked : Nat) (h : cursor = contractBest ∨ height ≤ contractHeight ∧ held = some cursor) :
    ∃ stop, walkEnd cursor height walked contractBest contractHeight held = some stop :=
  Option.ne_none_iff_exists'.mp fun hnone => walkEnd_eq_none_iff.mp hnone h

/-- The end of a walk is named for it if that is where the walk started. -/
theorem stop_eq_alreadyHeld_iff (hfirst : walked = 0 → cursor ≠ contractBest)
    (h : walkEnd cursor height walked contractBest contractHeight held = some stop) :
    stop = .alreadyHeld ↔ walked = 0 := by
  unfold walkEnd at h
  split at h
  · rename_i hbest
    have hwalked : walked ≠ 0 := fun h => hfirst h hbest
    cases h
    simp [hwalked]
  · split at h
    · cases h
      by_cases hwalked : walked = 0 <;> simp [hwalked]
    · cases h

theorem walkEnd_spec (hheld : ∀ hash, held = some hash ↔ height ≤ k.tip.1 ∧ k.heldAt height = some hash)
    (hfirst : walked = 0 → cursor ≠ k.tip.2) :
    walkEnd cursor height walked k.tip.2 k.tip.1 held = none ∧ ¬ k.Has height cursor ∨
      ∃ stop, walkEnd cursor height walked k.tip.2 k.tip.1 held = some stop ∧ k.Has height cursor ∧
        (stop = .alreadyHeld ↔ walked = 0) := by
  have hhas : (cursor = k.tip.2 ∨ height ≤ k.tip.1 ∧ held = some cursor) ↔ k.Has height cursor :=
    or_congr_right ⟨fun h => (hheld cursor).mp h.2, fun h => ⟨h.1, (hheld cursor).mpr h⟩⟩
  by_cases h : cursor = k.tip.2 ∨ height ≤ k.tip.1 ∧ held = some cursor
  · obtain ⟨stop, hend⟩ := exists_walkEnd walked h
    exact .inr ⟨stop, hend, hhas.mp h, stop_eq_alreadyHeld_iff hfirst hend⟩
  · exact .inl ⟨walkEnd_eq_none_iff.mpr h, mt hhas.mpr h⟩

end WalkEnd

/-- One step of a walk: it ends here, it fails, or it goes on from the parent of the header read. -/
theorem ensures_walk_step {height max chainHeight : Nat} {cursor : Hash} {trail : Trail Header}
    {ok : Option Gap → σ → Sim.BitcoinClient → Prop} {err : RelayError → σ → Sim.BitcoinClient → Prop}
    (hfirst : trail.size = 0 → cursor ≠ k.tip.2)
    (hstop : k.Has height cursor →
      ok (if trail.size = 0 then none else some ⟨height, trail.oldestFirst⟩) s k)
    (hnext : ¬ k.Has height cursor → trail.size < max → ∀ header below, node.header? cursor = some header →
      height = below + 1 → (walk (endsOf k chainHeight max) below header.prevHash (trail.push header)).Ensures
        ((bitcoinReads node).failing faulty) s k ok err)
    (herr : ∀ x, (faulty ∨ ¬ k.Has height cursor ∧ (trail.size < max → height ≠ 0 →
      ¬ ∃ header, (node.serve (.header cursor)).1 = some (.ok header))) → err x s k) :
    (walk (endsOf k chainHeight max) height cursor trail).Ensures ((bitcoinReads node).failing faulty) s k
      ok err := by
  unfold walk
  refine Cycle.ensures_bind.mpr (ensures_contractAt (fun held hheld => ?_) fun x hf => herr x (.inl hf))
  obtain ⟨hend, hhas⟩ | ⟨stop, hend, hhas, hheld⟩ := walkEnd_spec hheld hfirst
  · rw [show walkEnd cursor height trail.size (endsOf k chainHeight max).contractBest
      (endsOf k chainHeight max).contractHeight held = none from hend]
    refine Cycle.ensures_ite (fun hmax => herr _ (.inr ⟨hhas, fun hlt => absurd hmax (Nat.not_le.mpr hlt)⟩))
      fun hmax => ?_
    refine Cycle.ensures_bind.mpr (ensures_readNode (c := .header cursor) (fun header hserve => ?_)
      fun x h => herr x (h.imp id fun h => ⟨hhas, fun _ _ => h⟩))
    cases height with
    | zero => exact herr _ (.inr ⟨hhas, fun _ h => absurd rfl h⟩)
    | succ below =>
      exact hnext hhas (Nat.not_le.mp hmax) header below (Sim.BitcoinNode.header?_of_serve hserve) rfl
  · rw [show walkEnd cursor height trail.size (endsOf k chainHeight max).contractBest
      (endsOf k chainHeight max).contractHeight held = some stop from hend]
    have hok := hstop hhas
    cases stop with
    | alreadyHeld =>
      rw [if_pos (hheld.mp rfl)] at hok
      exact hok
    | linearExtension =>
      rw [if_neg fun h => nomatch hheld.mpr h] at hok
      exact hok
    | forkConvergence =>
      rw [if_neg fun h => nomatch hheld.mpr h] at hok
      exact hok

theorem Finds.of_has {height max chainHeight : Nat} {cursor : Hash} {headers : List Header}
    (hbest : node.height? node.best = some chainHeight) (hsize : height + headers.length = chainHeight)
    (hleads : node.Leads cursor headers node.best) (hlacks : k.Lacks height headers)
    (hshort : headers.length ≤ max) (hhas : k.Has height cursor) :
    Finds node k max (if headers.length = 0 then none else some ⟨height, headers⟩) := by
  split
  · rename_i hzero
    obtain rfl := List.length_eq_zero_iff.mp hzero
    obtain rfl : cursor = node.best := hleads
    obtain rfl : height = chainHeight := hsize
    exact .inr ⟨height, hbest, hhas⟩
  · rename_i hpos
    have hne : headers ≠ [] := fun h => hpos (List.length_eq_zero_iff.mpr h)
    refine ⟨⟨hne, ?_, cursor, hleads⟩, fun parent h => ?_, hlacks, hshort⟩
    · rw [hbest, ← hsize]
      rfl
    · rw [h.parent_eq hleads hne]
      exact hhas

/-- What a walk finds is so. -/
theorem ensures_walk {height max chainHeight : Nat} {cursor : Hash} {trail : Trail Header}
    (hbest : node.height? node.best = some chainHeight) (hsize : height + trail.size = chainHeight)
    (hleads : node.Leads cursor trail.oldestFirst node.best) (hlacks : k.Lacks height trail.oldestFirst)
    (hshort : trail.size ≤ max) (hfirst : trail.size = 0 → cursor ≠ k.tip.2) :
    (walk (endsOf k chainHeight max) height cursor trail).Ensures ((bitcoinReads node).failing faulty) s k
      (fun found s' k' => s' = s ∧ k' = k ∧ Finds node k max found) fun _ s' k' => s' = s ∧ k' = k := by
  induction height generalizing cursor trail with
  | zero =>
    exact ensures_walk_step hfirst (fun hhas => ⟨rfl, rfl, .of_has hbest hsize hleads hlacks hshort hhas⟩)
      (fun _ _ _ _ _ h => nomatch h) fun _ _ => ⟨rfl, rfl⟩
  | succ below ih =>
    refine ensures_walk_step hfirst (fun hhas => ⟨rfl, rfl, .of_has hbest hsize hleads hlacks hshort hhas⟩)
      (fun hnot hmax header below' hfind hbelow => ?_) fun _ _ => ⟨rfl, rfl⟩
    obtain rfl : below = below' := Nat.succ.inj hbelow
    obtain rfl := Sim.BitcoinNode.hash_of_header? hfind
    exact ih (by rw [Trail.size_push]; omega) ⟨rfl, hfind, hleads⟩ ⟨hnot, hlacks⟩ hmax fun h => nomatch h

/-- What is so is found, unless the connection is bad: a walk that has gone over all but the first headers of a
gap goes over these too. -/
theorem ensures_walk_of_bridges {pre : List Header} {tip height max chainHeight : Nat} {cursor parent : Hash}
    {trail : Trail Header} (hrun : node.stalled = false) (hheight : height = tip + pre.length)
    (hleads : node.Leads parent pre cursor) (hmeets : k.Has tip parent) (hlacks : k.Lacks tip pre)
    (hshort : pre.length + trail.size ≤ max) (hne : pre.length + trail.size ≠ 0) :
    (walk (endsOf k chainHeight max) height cursor trail).Ensures ((bitcoinReads node).failing faulty) s k
      (fun found s' k' => s' = s ∧ k' = k ∧ found = some ⟨tip, pre ++ trail.oldestFirst⟩)
      fun _ s' k' => s' = s ∧ k' = k ∧ faulty := by
  -- a walk meets the last of the headers first, so the list is taken apart at its end
  induction hlen : pre.length generalizing pre height cursor trail with
  | zero =>
    obtain rfl := List.length_eq_zero_iff.mp hlen
    obtain rfl : parent = cursor := hleads
    obtain rfl : height = tip := hheight
    rw [List.length_nil, Nat.zero_add] at hne
    refine ensures_walk_step (fun h => absurd h hne) (fun _ => ⟨rfl, rfl, if_neg hne⟩)
      (fun h => absurd hmeets h) fun x h => ⟨rfl, rfl, ?_⟩
    rcases h with hf | ⟨h, -⟩
    · exact hf
    · exact absurd hmeets h
  | succ n ih =>
    obtain rfl | ⟨init, b, hpre⟩ := pre.eq_nil_or_concat
    · cases hlen
    rw [List.concat_eq_append] at hpre
    subst hpre
    rw [List.length_append, List.length_singleton] at hheight hshort hlen
    obtain ⟨mid, hinit, rfl, hfind, rfl⟩ := Sim.BitcoinNode.leads_append.mp hleads
    obtain ⟨hlacks, hnot, -⟩ := Sim.BitcoinClient.lacks_append.mp hlacks
    have hnot : ¬ k.Has height b.hash := by rwa [hheight, ← Nat.add_assoc]
    refine ensures_walk_step (fun _ h => hnot (.inl h)) (fun h => absurd h hnot)
      (fun _ _ header below hheader hbelow => ?_) fun x h => ⟨rfl, rfl, ?_⟩
    · obtain rfl : b = header := Option.some.inj (hfind.symm.trans hheader)
      have hsize : init.length + (trail.push b).size ≤ max ∧ init.length + (trail.push b).size ≠ 0 := by
        rw [Trail.size_push]
        omega
      have hrest : (walk (endsOf k chainHeight max) below b.prevHash (trail.push b)).Ensures
          ((bitcoinReads node).failing faulty) s k _ _ :=
        ih (by omega) hinit hlacks hsize.1 hsize.2 (by omega)
      refine Cycle.Ensures.mono hrest (fun found s' k' h => ?_) fun _ _ _ h => h
      refine ⟨h.1, h.2.1, ?_⟩
      rw [h.2.2, List.append_assoc]
      rfl
    · rcases h with hf | ⟨-, h⟩
      · exact hf
      · exact absurd ⟨b, Sim.BitcoinNode.serve_header hrun hfind⟩ (h (by omega) (by omega))

/-! ## The gap -/

/-- **Found is so.** What a walk finds between the contract and the node's best header is a gap, or nothing. -/
theorem ensures_findGap_finds {config : Config} :
    (findGap config).Ensures ((bitcoinReads node).failing faulty) s k
      (fun found s' k' => s' = s ∧ k' = k ∧ Finds node k config.maxWalkBack found)
      fun _ s' k' => s' = s ∧ k' = k := by
  have herr : ∀ x : RelayError, faulty → s = s ∧ k = k := fun _ _ => ⟨rfl, rfl⟩
  refine Cycle.ensures_bind.mpr (ensures_readClient (c := .bestHeaderHash) (fun _ => ⟨trivial, rfl⟩) rfl ?_ herr)
  refine Cycle.ensures_bind.mpr (ensures_readClient (c := .bestHeight) (fun _ => ⟨trivial, rfl⟩) rfl ?_ herr)
  refine Cycle.ensures_bind.mpr
    (ensures_readNode (c := .bestBlockHash) (fun chainBest h => ?_) fun _ _ => ⟨rfl, rfl⟩)
  cases h
  refine Cycle.ensures_ite (fun heq => ⟨rfl, rfl, .inl heq⟩) fun hne => ?_
  refine Cycle.ensures_bind.mpr
    (ensures_readNode (c := .headerHeight node.best) (fun chainHeight h => ?_) fun _ _ => ⟨rfl, rfl⟩)
  exact ensures_walk (Sim.BitcoinNode.height?_of_serve h) rfl rfl trivial (Nat.zero_le _) fun _ => hne

/-- **So is found.** The gap that there is, or that there is none, is found unless the connection is bad. -/
theorem ensures_findGap_of_finds {config : Config} {found : Option Gap}
    (hrun : found ≠ none → node.stalled = false) (h : Finds node k config.maxWalkBack found) :
    (findGap config).Ensures ((bitcoinReads node).failing faulty) s k
      (fun found' s' k' => s' = s ∧ k' = k ∧ found' = found) fun _ s' k' => s' = s ∧ k' = k ∧ faulty := by
  have herr : ∀ x : RelayError, faulty → s = s ∧ k = k ∧ faulty := fun _ hf => ⟨rfl, rfl, hf⟩
  refine Cycle.ensures_bind.mpr (ensures_readClient (c := .bestHeaderHash) (fun _ => ⟨trivial, rfl⟩) rfl ?_ herr)
  refine Cycle.ensures_bind.mpr (ensures_readClient (c := .bestHeight) (fun _ => ⟨trivial, rfl⟩) rfl ?_ herr)
  refine Cycle.ensures_bind.mpr (ensures_readNode (c := .bestBlockHash) (fun chainBest hbest => ?_)
    fun x hx => herr x (hx.resolve_right fun hnone => hnone ⟨node.best, rfl⟩))
  cases hbest
  refine Cycle.ensures_ite (fun heq => ⟨rfl, rfl, ?_⟩) fun hne => ?_
  · cases found with
    | none => rfl
    | some g => exact absurd (.inl heq) h.not_has_best
  obtain ⟨height, hheight⟩ : ∃ height, node.height? node.best = some height := by
    cases found with
    | none =>
      obtain ⟨height, hheight, -⟩ := h.resolve_left hne
      exact ⟨height, hheight⟩
    | some g => exact ⟨_, h.height⟩
  refine Cycle.ensures_bind.mpr (ensures_readNode (c := .headerHeight node.best) (fun chainHeight hread => ?_)
    fun x hx => herr x (hx.resolve_right fun hnone => hnone ⟨height, ?_⟩))
  · have hread := Sim.BitcoinNode.height?_of_serve hread
    cases found with
    | none =>
      obtain ⟨height', hheight', hhas⟩ := h.resolve_left hne
      obtain rfl : height' = chainHeight := Option.some.inj (hheight'.symm.trans hread)
      refine ensures_walk_step (fun _ => hne) (fun _ => ⟨rfl, rfl, rfl⟩) (fun h => absurd hhas h)
        fun x hx => ⟨rfl, rfl, ?_⟩
      exact hx.resolve_right fun h => h.1 hhas
    | some g =>
      obtain ⟨parent, hleads⟩ := h.leads
      have htarget : chainHeight = g.target := Option.some.inj (hread.symm.trans h.height)
      have hpos := List.length_pos_iff.mpr h.nonempty
      have hshort := h.short
      refine Cycle.Ensures.mono (ensures_walk_of_bridges (hrun (by simp)) htarget hleads (h.meets parent hleads)
        h.lacks hshort (by simp only [Trail.size_empty]; omega)) (fun found' s' k' h' => ?_) fun _ _ _ h' => h'
      obtain ⟨hs, hk, rfl⟩ := h'
      exact ⟨hs, hk, by simp [Trail.empty]⟩
  · show some (Sim.BitcoinNode.known node.best (node.height? node.best)) = _
    rw [hheight]
    rfl

/-- What the contract is missing are headers of the node that lead to its best, or nothing when the contract
holds the best already. -/
theorem ensures_findGap {config : Config} :
    (findGap config).Ensures ((bitcoinPeers node).failing faulty) s k
      (fun g s' k' => s' = s ∧ k' = k ∧ Missing node k g) fun _ s' k' => s' = s ∧ k' = k :=
  Cycle.Ensures.mono ensures_findGap_finds.of_asking (fun _ _ _ h => ⟨h.1, h.2.1, h.2.2.missing⟩) fun _ _ _ h => h

/-- A contract whose best header is the node's best misses nothing, and three reads tell. -/
theorem ensures_findGap_of_tip {config : Config} (hbest : k.tip.2 = node.best) :
    (findGap config).Ensures (bitcoinPeers node) s k (fun g s' k' => s' = s ∧ k' = k ∧ g = none)
      fun _ _ _ => False := by
  have hnone : Finds node k config.maxWalkBack none := .inl hbest.symm
  rw [← (bitcoinPeers node).failing_false]
  exact Cycle.Ensures.mono (ensures_findGap_of_finds (absurd rfl) hnone).of_asking (fun _ _ _ h => h)
    fun _ _ _ h => h.2.2

end Sync.Bitcoin

end HeaderRelay
