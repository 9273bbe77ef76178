import MlirAie.Lib.Closing
import MlirAie.Queue.Finite

/-!
# The analysis of a region comes to an end

The loops of `analyze` append to the list they go through, and analyse their bodies, loops among
them, from every state of it. Here nothing bounds the passes but a number that the analysis may run
out of.

* `Holding`: what the analysis holds at one point; `analyzeWithin`: `analyze`, with all it holds;
* **`exists_analyzeWithin`**: enough passes end it; `upTo_analyzeWithin`: no state grows past the
  bound;
* **`analyzeWithin_ends`**.
-/

namespace MlirAie.Queue

open MlirAie.Lib Relation

/-- The states held at an operation, and those at the header of a loop after the loop. -/
inductive Holding
  | before (held : States)
  | header (body : Region) (held : States)

def Holding.held : Holding → States
  | .before held => held
  | .header _ held => held

namespace ChannelAnalysis

variable (A : ChannelAnalysis)

/-- The states that a push caps before it is recorded. -/
def capped (o : SeqOp) (states : States) : States :=
  match A.channelEffectOf o with
  | .Push _ _ => (states.filter fun q => wouldOverflow q A.depth).map
      fun q => noteSpaceGuaranteed q A.depth
  | _ => []

/-- `analyze`, and what it holds on the way; `none` where a loop needs more than `n` passes. -/
def analyzeWithin (n : ℕ) : Region → States → Option (States × List Holding)
  | .done, states => some (states, [.before states])
  | .op o rest, states =>
    if A.visitsOp o then
      (analyzeWithin n rest (A.stepOp o states).1).map fun r =>
        (r.1, .before (states ++ A.capped o states) :: r.2)
    else analyzeWithin n rest states
  | .scfFor bounds body rest, states =>
    if !A.visits body || bounds.neverRuns then analyzeWithin n rest states
    else
      (closeWithin (fun q => analyzeWithin n body [q]) n 0 (states, [])).bind fun headers =>
        (analyzeWithin n rest headers.1).map fun r =>
          (r.1, headers.2 ++ .header body headers.1 :: r.2)
  | .scfIf thenRegion elseRegion rest, states =>
    if !A.visits thenRegion && !A.visits elseRegion then analyzeWithin n rest states
    else
      (analyzeWithin n thenRegion states).bind fun thenStates =>
        (analyzeWithin n elseRegion states).bind fun elseStates =>
          (analyzeWithin n rest (appendNew thenStates.1 elseStates.1)).map fun r =>
            (r.1, thenStates.2 ++ elseStates.2 ++ r.2)
  | .unknown nested rest, states =>
    if A.visits nested then
      (analyzeWithin n rest (A.unknownRegion nested states).1).map fun r =>
        (r.1, .before states :: r.2)
    else analyzeWithin n rest states

attribute [local simp] analyzeWithin

/-- The states that a region makes of a state, on any path. -/
def moves : Region → ChannelState → ChannelState → Prop
  | .done, q, q' => q' = q
  | .op o rest, q, q' =>
    if A.visitsOp o then ∃ p ∈ (A.stepOp o [q]).1, moves rest p q' else moves rest q q'
  | .scfFor bounds body rest, q, q' =>
    if !A.visits body || bounds.neverRuns then moves rest q q'
    else ∃ p, ReflTransGen (moves body) q p ∧ moves rest p q'
  | .scfIf thenRegion elseRegion rest, q, q' =>
    if !A.visits thenRegion && !A.visits elseRegion then moves rest q q'
    else ∃ p, (moves thenRegion q p ∨ moves elseRegion q p) ∧ moves rest p q'
  | .unknown nested rest, q, q' =>
    if A.visits nested then ∃ p ∈ (A.unknownRegion nested [q]).1, moves rest p q'
    else moves rest q q'

variable {A} {n : ℕ} {states : States} {r : States × List Holding}

/-! ## The states of a list are analysed one by one -/

theorem mem_stepOp (states : States) (o : SeqOp) (p : ChannelState) :
    p ∈ (A.stepOp o states).1 ↔ ∃ q ∈ states, p ∈ (A.stepOp o [q]).1 := by
  cases o with
  | poll m =>
    simp only [stepOp]
    split_ifs
    · simp [mem_dedupe, eq_comm]
    · simp
  | effect id e =>
    simp only [stepOp]
    cases A.channelEffectOf (.effect id e) with
    | Ignore => simp
    | Await _ => simp [mem_dedupe, eq_comm]
    | Push _ b => simp [mem_dedupe, eq_comm]

theorem exists_foldl_unknownStep (ops : List SeqOp) :
    ∃ g : ChannelState → ChannelState, ∀ (ss : States) (out : List ℕ),
      (ops.foldl A.unknownStep (ss, out)).1 = ss.map g := by
  induction ops with
  | nil => exact ⟨id, fun ss _ => (List.map_id ss).symm⟩
  | cons o ops ih =>
    obtain ⟨g, hg⟩ := ih
    by_cases ho : ∃ id b, o = .effect id (.Push A.key b)
    · obtain ⟨id, b, rfl⟩ := ho
      refine ⟨fun _ => g A.unknownState, fun ss out => ?_⟩
      have hstep : A.unknownStep (ss, out) (.effect id (.Push A.key b)) =
          (ss.map fun _ => A.unknownState, out ++ if ss.isEmpty then [] else [id]) := if_pos rfl
      rw [List.foldl_cons, hstep, hg, List.map_map]
      rfl
    · refine ⟨g, fun ss out => ?_⟩
      have hstep : A.unknownStep (ss, out) o = (ss, out) := by
        unfold unknownStep
        split
        · rename_i id key b
          exact if_neg fun hkey => ho ⟨id, b, by rw [hkey]⟩
        · rfl
      rw [List.foldl_cons, hstep, hg]

theorem mem_unknownRegion (states : States) (nested : Region) (p : ChannelState) :
    p ∈ (A.unknownRegion nested states).1 ↔ ∃ q ∈ states, p ∈ (A.unknownRegion nested [q]).1 := by
  obtain ⟨g, hg⟩ := exists_foldl_unknownStep (A := A) nested.walk
  simp only [unknownRegion, mem_dedupe, hg, List.mem_map, List.mem_singleton, exists_eq_left]

theorem mem_analyzeWithin (region : Region) (h : A.analyzeWithin n region states = some r)
    (q' : ChannelState) : q' ∈ r.1 ↔ ∃ q ∈ states, A.moves region q q' := by
  induction region generalizing states r q' with
  | done =>
    rw [analyzeWithin, Option.some.injEq] at h
    subst h
    simp [moves]
  | op o rest ih =>
    rw [analyzeWithin] at h
    simp only [moves]
    split_ifs at h ⊢
    · obtain ⟨r', hr', rfl⟩ := Option.map_eq_some_iff.1 h
      rw [ih hr']
      simp only [mem_stepOp states]
      tauto
    · exact ih h q'
  | scfFor bounds body rest ihb ihr =>
    rw [analyzeWithin] at h
    simp only [moves]
    split_ifs at h ⊢
    · exact ihr h q'
    · obtain ⟨headers, hheaders, h⟩ := Option.bind_eq_some_iff.1 h
      obtain ⟨r', hr', rfl⟩ := Option.map_eq_some_iff.1 h
      have hmem := mem_closeWithin (M := A.moves body)
        (fun q s hs p => by rw [ihb hs]; simp) hheaders (fun _ hx => by simp at hx)
      rw [ihr hr']
      simp only [hmem]
      tauto
  | scfIf thenRegion elseRegion rest iht ihe ihr =>
    rw [analyzeWithin] at h
    simp only [moves]
    split_ifs at h ⊢
    · exact ihr h q'
    · obtain ⟨thenStates, hthen, h⟩ := Option.bind_eq_some_iff.1 h
      obtain ⟨elseStates, helse, h⟩ := Option.bind_eq_some_iff.1 h
      obtain ⟨r', hr', rfl⟩ := Option.map_eq_some_iff.1 h
      rw [ihr hr']
      simp only [mem_appendNew, iht hthen, ihe helse]
      constructor
      · rintro ⟨p, (⟨q, hq, hp⟩ | ⟨q, hq, hp⟩), hmoves⟩
        · exact ⟨q, hq, p, .inl hp, hmoves⟩
        · exact ⟨q, hq, p, .inr hp, hmoves⟩
      · rintro ⟨q, hq, p, hp | hp, hmoves⟩
        · exact ⟨p, .inl ⟨q, hq, hp⟩, hmoves⟩
        · exact ⟨p, .inr ⟨q, hq, hp⟩, hmoves⟩
  | unknown nested rest _ ihr =>
    rw [analyzeWithin] at h
    simp only [moves]
    split_ifs at h ⊢
    · obtain ⟨r', hr', rfl⟩ := Option.map_eq_some_iff.1 h
      rw [ihr hr']
      simp only [mem_unknownRegion states]
      tauto
    · exact ihr h q'

/-! ## Enough passes end it -/

theorem upTo_analyzeWithin (hdepth : 0 < A.depth) (region : Region) {N : ℕ} (hN : A.depth ≤ N)
    (hstates : UpTo N states) (h : A.analyzeWithin n region states = some r) :
    UpTo N r.1 ∧ ∀ holding ∈ r.2, UpTo N holding.held := by
  induction region generalizing states r with
  | done =>
    rw [analyzeWithin, Option.some.injEq] at h
    subst h
    exact ⟨hstates, by simpa [Holding.held] using hstates⟩
  | op o rest ih =>
    rw [analyzeWithin] at h
    split_ifs at h
    · obtain ⟨r', hr', rfl⟩ := Option.map_eq_some_iff.1 h
      obtain ⟨hend, hheld⟩ := ih (upTo_stepOp hdepth o hN hstates) hr'
      refine ⟨hend, List.forall_mem_cons.2 ⟨fun q hq => ?_, hheld⟩⟩
      rcases List.mem_append.1 hq with hq | hq
      · exact hstates q hq
      · unfold capped at hq
        split at hq
        · obtain ⟨p, hp, rfl⟩ := List.mem_map.1 hq
          exact (length_noteSpaceGuaranteed p _).trans (hstates p (List.mem_of_mem_filter hp))
        · cases hq
    · exact ih hstates h
  | scfFor bounds body rest ihb ihr =>
    rw [analyzeWithin] at h
    split_ifs at h
    · exact ihr hstates h
    · obtain ⟨headers, hheaders, h⟩ := Option.bind_eq_some_iff.1 h
      obtain ⟨r', hr', rfl⟩ := Option.map_eq_some_iff.1 h
      obtain ⟨hkeep, hpasses⟩ := closeWithin_forall
        (G := fun q : ChannelState => q.pushes.length ≤ N)
        (P := fun holding : Holding => UpTo N holding.held)
        (fun q s hq hs => ihb (List.forall_mem_singleton.2 hq) hs) hheaders hstates
        (List.forall_mem_nil _)
      obtain ⟨hend, hheld⟩ := ihr hkeep hr'
      refine ⟨hend, fun holding hmem => ?_⟩
      rcases List.mem_append.1 hmem with hmem | hmem
      · exact hpasses holding hmem
      · rcases List.mem_cons.1 hmem with rfl | hmem
        · exact hkeep
        · exact hheld holding hmem
  | scfIf thenRegion elseRegion rest iht ihe ihr =>
    rw [analyzeWithin] at h
    split_ifs at h
    · exact ihr hstates h
    · obtain ⟨thenStates, hthen, h⟩ := Option.bind_eq_some_iff.1 h
      obtain ⟨elseStates, helse, h⟩ := Option.bind_eq_some_iff.1 h
      obtain ⟨r', hr', rfl⟩ := Option.map_eq_some_iff.1 h
      obtain ⟨hthenEnd, hthenHeld⟩ := iht hstates hthen
      obtain ⟨helseEnd, helseHeld⟩ := ihe hstates helse
      obtain ⟨hend, hheld⟩ := ihr
        (fun q hq => (mem_appendNew.1 hq).elim (hthenEnd q) (helseEnd q)) hr'
      refine ⟨hend, fun holding hmem => ?_⟩
      rcases List.mem_append.1 hmem with hmem | hmem
      · exact (List.mem_append.1 hmem).elim (hthenHeld holding) (helseHeld holding)
      · exact hheld holding hmem
  | unknown nested rest _ ihr =>
    rw [analyzeWithin] at h
    split_ifs at h
    · obtain ⟨r', hr', rfl⟩ := Option.map_eq_some_iff.1 h
      obtain ⟨hend, hheld⟩ := ihr (upTo_unknownRegion nested hN hstates) hr'
      exact ⟨hend, List.forall_mem_cons.2 ⟨hstates, hheld⟩⟩
    · exact ihr hstates h

theorem analyzeWithin_mono {m : ℕ} (hn : n ≤ m) (region : Region)
    (h : A.analyzeWithin n region states = some r) : A.analyzeWithin m region states = some r := by
  induction region generalizing states r with
  | done => exact h
  | op o rest ih =>
    rw [analyzeWithin] at h ⊢
    split_ifs at h ⊢
    · obtain ⟨r', hr', rfl⟩ := Option.map_eq_some_iff.1 h
      rw [ih hr']
      rfl
    · exact ih h
  | scfFor bounds body rest ihb ihr =>
    rw [analyzeWithin] at h ⊢
    split_ifs at h ⊢
    · exact ihr h
    · obtain ⟨headers, hheaders, h⟩ := Option.bind_eq_some_iff.1 h
      obtain ⟨r', hr', rfl⟩ := Option.map_eq_some_iff.1 h
      rw [closeWithin_mono (fun q s hs => ihb hs) hn hheaders, Option.bind_some, ihr hr']
      rfl
  | scfIf thenRegion elseRegion rest iht ihe ihr =>
    rw [analyzeWithin] at h ⊢
    split_ifs at h ⊢
    · exact ihr h
    · obtain ⟨thenStates, hthen, h⟩ := Option.bind_eq_some_iff.1 h
      obtain ⟨elseStates, helse, h⟩ := Option.bind_eq_some_iff.1 h
      obtain ⟨r', hr', rfl⟩ := Option.map_eq_some_iff.1 h
      rw [iht hthen, Option.bind_some, ihe helse, Option.bind_some, ihr hr']
      rfl
  | unknown nested rest _ ihr =>
    rw [analyzeWithin] at h ⊢
    split_ifs at h ⊢
    · obtain ⟨r', hr', rfl⟩ := Option.map_eq_some_iff.1 h
      rw [ihr hr']
      rfl
    · exact ihr h

/-- **Enough passes end the analysis** of any region, from any states. -/
theorem exists_analyzeWithin (hdepth : 0 < A.depth) (region : Region) (states : States) :
    ∃ n r, A.analyzeWithin n region states = some r := by
  induction region generalizing states with
  | done => exact ⟨0, _, rfl⟩
  | op o rest ih =>
    simp only [analyzeWithin]
    split_ifs
    · obtain ⟨n, r, hr⟩ := ih (A.stepOp o states).1
      exact ⟨n, _, by rw [hr]; rfl⟩
    · exact ih states
  | scfFor bounds body rest ihb ihr =>
    simp only [analyzeWithin]
    split_ifs
    · exact ihr states
    · have hupTo : UpTo (longest A.depth states) states := fun q hq => length_le_longest _ hq
      have hbody : ∀ q ∈ (statesUpTo (longest A.depth states)).toFinset, ∃ n s,
          A.analyzeWithin n body [q] = some s ∧
            ∀ p ∈ s.1, p ∈ (statesUpTo (longest A.depth states)).toFinset := by
        intro q hq
        obtain ⟨n, s, hs⟩ := ihb [q]
        rw [List.mem_toFinset, mem_statesUpTo] at hq
        refine ⟨n, s, hs, fun p hp => List.mem_toFinset.2 (mem_statesUpTo.2 ?_)⟩
        exact (upTo_analyzeWithin hdepth body (depth_le_longest _ _)
          (List.forall_mem_singleton.2 hq) hs).1 p hp
      have hmono : ∀ n m (q : ChannelState) (s : States × List Holding), n ≤ m →
          A.analyzeWithin n body [q] = some s → A.analyzeWithin m body [q] = some s :=
        fun n m q s hn hs => analyzeWithin_mono hn body hs
      obtain ⟨n₁, headers, hheaders⟩ := closeWithin_ends hmono _ hbody 0 (states, [])
        (fun q hq => List.mem_toFinset.2 (mem_statesUpTo.2 (hupTo q hq)))
      obtain ⟨n₂, r, hr⟩ := ihr headers.1
      refine ⟨max n₁ n₂, (r.1, headers.2 ++ .header body headers.1 :: r.2), ?_⟩
      rw [closeWithin_mono (fun q s hs => analyzeWithin_mono (by omega) body hs) (by omega)
        hheaders, Option.bind_some, analyzeWithin_mono (by omega) rest hr]
      rfl
  | scfIf thenRegion elseRegion rest iht ihe ihr =>
    simp only [analyzeWithin]
    split_ifs
    · exact ihr states
    · obtain ⟨n₁, thenStates, hthen⟩ := iht states
      obtain ⟨n₂, elseStates, helse⟩ := ihe states
      obtain ⟨n₃, r, hr⟩ := ihr (appendNew thenStates.1 elseStates.1)
      refine ⟨max n₁ (max n₂ n₃), (r.1, thenStates.2 ++ elseStates.2 ++ r.2), ?_⟩
      rw [analyzeWithin_mono (by omega) _ hthen, Option.bind_some,
        analyzeWithin_mono (by omega) _ helse, Option.bind_some, analyzeWithin_mono (by omega) _ hr]
      rfl
  | unknown nested rest _ ihr =>
    simp only [analyzeWithin]
    split_ifs
    · obtain ⟨n, r, hr⟩ := ihr (A.unknownRegion nested states).1
      exact ⟨n, _, by rw [hr]; rfl⟩
    · exact ihr states

/-! ## The loops -/

/-- The states at the header of a loop are closed under its body. -/
theorem header_closed (region : Region) (h : A.analyzeWithin n region states = some r)
    {body : Region} {headers : States} (hmem : .header body headers ∈ r.2) {q q' : ChannelState}
    (hq : q ∈ headers) (hmoves : A.moves body q q') : q' ∈ headers := by
  -- In every holding, so that the loops of the passes over a body are among them.
  suffices hall : ∀ holding ∈ r.2, ∀ body headers, holding = .header body headers →
      ∀ q ∈ headers, ∀ q', A.moves body q q' → q' ∈ headers from
    hall _ hmem body headers rfl q hq q' hmoves
  clear hmem hq hmoves
  induction region generalizing states r with
  | done =>
    rw [analyzeWithin, Option.some.injEq] at h
    subst h
    rintro holding hmem body headers rfl
    simp at hmem
  | op o rest ih =>
    rw [analyzeWithin] at h
    split_ifs at h
    · obtain ⟨r', hr', rfl⟩ := Option.map_eq_some_iff.1 h
      exact List.forall_mem_cons.2 ⟨fun _ _ h => (nomatch h), ih hr'⟩
    · exact ih h
  | scfFor bounds loop rest ihb ihr =>
    rw [analyzeWithin] at h
    split_ifs at h
    · exact ihr h
    · obtain ⟨heads, hheads, h⟩ := Option.bind_eq_some_iff.1 h
      obtain ⟨r', hr', rfl⟩ := Option.map_eq_some_iff.1 h
      have hpasses := (closeWithin_forall (G := fun _ : ChannelState => True)
        (fun q s _ hs => ⟨fun _ _ => trivial, ihb hs⟩) hheads (fun _ _ => trivial)
        (List.forall_mem_nil _)).2
      have hmem := mem_closeWithin (M := A.moves loop)
        (fun q s hs p => by rw [mem_analyzeWithin loop hs]; simp) hheads (fun _ hx => by simp at hx)
      intro holding hholding
      rcases List.mem_append.1 hholding with hholding | hholding
      · exact hpasses holding hholding
      rcases List.mem_cons.1 hholding with rfl | hholding
      · rintro body headers ⟨⟩ q hq q' hmoves
        obtain ⟨p, hp, hpq⟩ := (hmem q).1 hq
        exact (hmem q').2 ⟨p, hp, hpq.tail hmoves⟩
      · exact ihr hr' holding hholding
  | scfIf thenRegion elseRegion rest iht ihe ihr =>
    rw [analyzeWithin] at h
    split_ifs at h
    · exact ihr h
    · obtain ⟨thenStates, hthen, h⟩ := Option.bind_eq_some_iff.1 h
      obtain ⟨elseStates, helse, h⟩ := Option.bind_eq_some_iff.1 h
      obtain ⟨r', hr', rfl⟩ := Option.map_eq_some_iff.1 h
      intro holding hholding
      rcases List.mem_append.1 hholding with hholding | hholding
      · exact (List.mem_append.1 hholding).elim (iht hthen holding) (ihe helse holding)
      · exact ihr hr' holding hholding
  | unknown nested rest _ ihr =>
    rw [analyzeWithin] at h
    split_ifs at h
    · obtain ⟨r', hr', rfl⟩ := Option.map_eq_some_iff.1 h
      exact List.forall_mem_cons.2 ⟨fun _ _ h => (nomatch h), ihr hr'⟩
    · exact ihr h

/-- The bound that `analyze` puts on the passes of a loop is enough. -/
theorem analyze_eq_of_analyzeWithin (hdepth : 0 < A.depth) (region : Region)
    (hnodup : states.Nodup) (h : A.analyzeWithin n region states = some r) :
    (A.analyze region states).1 = r.1 := by
  induction region generalizing states r with
  | done =>
    rw [analyzeWithin, Option.some.injEq] at h
    subst h
    rfl
  | op o rest ih =>
    rw [analyzeWithin] at h
    rw [analyze]
    split_ifs at h ⊢
    · obtain ⟨r', hr', rfl⟩ := Option.map_eq_some_iff.1 h
      exact ih (r := r') (nodup_stepOp o hnodup) hr'
    · exact ih hnodup h
  | scfFor bounds body rest ihb ihr =>
    rw [analyzeWithin] at h
    rw [analyze]
    split_ifs at h ⊢
    · exact ihr hnodup h
    · obtain ⟨headers, hheaders, h⟩ := Option.bind_eq_some_iff.1 h
      obtain ⟨r', hr', rfl⟩ := Option.map_eq_some_iff.1 h
      have hkeep := (closeWithin_forall
        (G := fun q : ChannelState => q.pushes.length ≤ longest A.depth states)
        (P := fun _ : Holding => True) (fun q s hq hs =>
          ⟨(upTo_analyzeWithin hdepth body (depth_le_longest _ _)
            (List.forall_mem_singleton.2 hq) hs).1, fun _ _ => trivial⟩) hheaders
        (fun q hq => length_le_longest _ hq) (List.forall_mem_nil _)).1
      have hheadNodup : headers.1.Nodup := nodup_closeWithin hheaders hnodup
      have hlen : headers.1.length ≤ (statesUpTo (longest A.depth states)).length :=
        (hheadNodup.subperm fun q hq => mem_statesUpTo.2 (hkeep q hq)).length_le
      have heq := closeFrom_of_closeWithin (fun q => A.analyze body [q])
        (fun q s hs => ihb (List.nodup_singleton q) hs) hheaders (by omega) []
      rw [andThen]
      dsimp only
      rw [heq]
      exact ihr hheadNodup hr'
  | scfIf thenRegion elseRegion rest iht ihe ihr =>
    rw [analyzeWithin] at h
    rw [analyze]
    split_ifs at h ⊢
    · exact ihr hnodup h
    · obtain ⟨thenStates, hthen, h⟩ := Option.bind_eq_some_iff.1 h
      obtain ⟨elseStates, helse, h⟩ := Option.bind_eq_some_iff.1 h
      obtain ⟨r', hr', rfl⟩ := Option.map_eq_some_iff.1 h
      have hthen' := iht hnodup hthen
      have helse' := ihe hnodup helse
      rw [andThen]
      dsimp only
      rw [hthen', helse']
      exact ihr (nodup_appendNew (hthen' ▸ nodup_analyze thenRegion hnodup)) hr'
  | unknown nested rest _ ihr =>
    rw [analyzeWithin] at h
    rw [analyze]
    split_ifs at h ⊢
    · obtain ⟨r', hr', rfl⟩ := Option.map_eq_some_iff.1 h
      exact ihr (r := r') (nodup_dedupe _) hr'
    · exact ihr hnodup h

/-- **The analysis comes to an end.** No state it holds is longer than the depth and the states it
starts from, one more analysis of a loop's body finds no state past those at the header, and the
bound of `analyze` on the passes cuts nothing off. -/
theorem analyzeWithin_ends (A : ChannelAnalysis) (hdepth : 0 < A.depth) (region : Region)
    (states : States) :
    ∃ n r, (∀ m, n ≤ m → A.analyzeWithin m region states = some r) ∧
      (∀ holding ∈ r.2, ∀ q ∈ holding.held, q.pushes.length ≤ longest A.depth states) ∧
      (∀ body headers, .header body headers ∈ r.2 → ∃ k again,
        (∀ m, k ≤ m → A.analyzeWithin m body headers = some again) ∧ again.1 ⊆ headers) ∧
      (states.Nodup → r.1 = (A.analyze region states).1) := by
  obtain ⟨n, r, hr⟩ := exists_analyzeWithin hdepth region states
  refine ⟨n, r, fun m hm => analyzeWithin_mono hm region hr, ?_, fun body headers hmem => ?_,
    fun hnodup => (analyze_eq_of_analyzeWithin hdepth region hnodup hr).symm⟩
  · exact (upTo_analyzeWithin hdepth region (depth_le_longest _ _)
      (fun q hq => length_le_longest _ hq) hr).2
  · obtain ⟨k, again, hagain⟩ := exists_analyzeWithin hdepth body headers
    refine ⟨k, again, fun m hm => analyzeWithin_mono hm body hagain, fun q' hq' => ?_⟩
    obtain ⟨q, hq, hmoves⟩ := (mem_analyzeWithin body hagain q').mp hq'
    exact header_closed region hr hmem hq hmoves

/-- Channel `MM2S` 0 of the shim tile at column 0, whose queue holds four tasks. -/
def shimAnalysis : ChannelAnalysis :=
  ⟨AIE2TargetModel (fun _ _ => .ShimNOCTile) [], [⟨0, 0, 1, 0⟩], ⟨0, 0, 1, 0⟩⟩

/-- A loop that pushes, in a loop that awaits what it pushed last. -/
def nestedLoops : Region :=
  .scfFor ⟨none, none, false⟩
    (.scfFor ⟨none, none, false⟩ (.op (.effect 0 (.Push ⟨0, 0, 1, 0⟩ true)) .done)
      (.op (.effect 1 (.Await ⟨0, 0, 1, 0⟩)) .done)) .done

theorem nestedLoops_ends : ∃ n r,
    (∀ m, n ≤ m → shimAnalysis.analyzeWithin m nestedLoops [{}] = some r) ∧
      (∀ holding ∈ r.2, ∀ q ∈ holding.held, q.pushes.length ≤ longest 4 [{}]) ∧
      (∀ body headers, .header body headers ∈ r.2 → ∃ k again,
        (∀ m, k ≤ m → shimAnalysis.analyzeWithin m body headers = some again) ∧
          again.1 ⊆ headers) ∧
      (([{}] : States).Nodup → r.1 = (shimAnalysis.analyze nestedLoops [{}]).1) :=
  analyzeWithin_ends shimAnalysis (by decide) nestedLoops [{}]

end ChannelAnalysis

end MlirAie.Queue
