import MlirAie.Route.Vias

/-!
# When a split flow keeps its pinned route

* `isDirectWire_iff`, `wired_iff`: a wire has one port at each end;
* `passesWell_of_follows`, `gapsWell_of_crosses`: a path has no other gaps;
* **`runOnOperation_pinned_iff`**: the pinned route is kept exactly if it is straight.
-/

namespace MlirAie.Vias

open MlirAie.Lib MlirAie.Route

variable {T : Target}

/-! ## Wires -/

theorem isDirectWire_iff {p q : PhysPort} : isDirectWire p q = true ↔
    p.port.channel = q.port.channel ∧
      (p.port.bundle = .North ∧ q.port.bundle = .South ∧
          p.tile.col = q.tile.col ∧ q.tile.row = p.tile.row + 1 ∨
        p.port.bundle = .South ∧ q.port.bundle = .North ∧
          p.tile.col = q.tile.col ∧ q.tile.row + 1 = p.tile.row ∨
        p.port.bundle = .East ∧ q.port.bundle = .West ∧
          p.tile.row = q.tile.row ∧ q.tile.col = p.tile.col + 1 ∨
        p.port.bundle = .West ∧ q.port.bundle = .East ∧
          p.tile.row = q.tile.row ∧ q.tile.col + 1 = p.tile.col) := by
  simp only [isDirectWire, Bool.and_eq_true, Bool.or_eq_true, decide_eq_true_eq]
  tauto

theorem isDirectWire_comm {p q : PhysPort} (h : isDirectWire p q = true) :
    isDirectWire q p = true := by
  rw [isDirectWire_iff] at h ⊢
  refine ⟨h.1.symm, ?_⟩
  rcases h.2 with ⟨hp, hq, h1, h2⟩ | ⟨hp, hq, h1, h2⟩ | ⟨hp, hq, h1, h2⟩ | ⟨hp, hq, h1, h2⟩
  · exact Or.inr (Or.inl ⟨hq, hp, h1.symm, h2.symm⟩)
  · exact Or.inl ⟨hq, hp, h1.symm, h2.symm⟩
  · exact Or.inr (Or.inr (Or.inr ⟨hq, hp, h1.symm, h2.symm⟩))
  · exact Or.inr (Or.inr (Or.inl ⟨hq, hp, h1.symm, h2.symm⟩))

theorem physPort_ext {p q : PhysPort} (hcol : p.tile.col = q.tile.col)
    (hrow : p.tile.row = q.tile.row) (hbundle : p.port.bundle = q.port.bundle)
    (hchannel : p.port.channel = q.port.channel) : p = q := by
  obtain ⟨⟨c, r⟩, ⟨b, ch⟩⟩ := p
  obtain ⟨⟨c', r'⟩, ⟨b', ch'⟩⟩ := q
  simp_all

theorem isDirectWire_unique {p q q' : PhysPort} (h : isDirectWire p q = true)
    (h' : isDirectWire p q' = true) : q = q' := by
  rw [isDirectWire_iff] at h h'
  rcases h.2 with ⟨hp, hq, h1, h2⟩ | ⟨hp, hq, h1, h2⟩ | ⟨hp, hq, h1, h2⟩ | ⟨hp, hq, h1, h2⟩ <;>
    simp only [hp, reduceCtorEq, false_and, true_and, false_or, or_false] at h' <;>
    exact physPort_ext (by omega) (by omega) (hq.trans h'.2.1.symm) (h.1.symm.trans h'.1)

theorem isDirectWire_tile_ne {p q : PhysPort} (h : isDirectWire p q = true) :
    p.tile ≠ q.tile := by
  rw [isDirectWire_iff] at h
  intro heq
  rw [heq] at h
  omega

theorem isDirectWire_ne {p q : PhysPort} (h : isDirectWire p q = true) : p ≠ q := fun heq =>
  isDirectWire_tile_ne h (congrArg PhysPort.tile heq)

theorem isDirectWire_isDirection {p q : PhysPort} (h : isDirectWire p q = true) :
    isDirection p.port.bundle = true ∧ isDirection q.port.bundle = true := by
  rw [isDirectWire_iff] at h
  rcases h.2 with ⟨hp, hq, -⟩ | ⟨hp, hq, -⟩ | ⟨hp, hq, -⟩ | ⟨hp, hq, -⟩ <;>
    simp [hp, hq, isDirection]

theorem wired_iff {p q : PhysPort} :
    Wired T p q ↔ isDirectWire p q = true ∧ T.isValidTile q.tile = true := by
  rw [isDirectWire_iff]
  obtain ⟨⟨c, r⟩, ⟨b, ch⟩⟩ := p
  obtain ⟨⟨c', r'⟩, ⟨b', ch'⟩⟩ := q
  unfold Wired getConnectingWireEndpoint
  cases b <;> simp only [getConnectingBundle, Option.bind_none, Option.bind_some, reduceCtorEq,
    false_and, false_or, or_false, true_and, and_false]
  case North => simp; grind
  case South => grind
  case East => simp; grind
  case West => grind

theorem Wired.isDirectWire {p q : PhysPort} (h : Wired T p q) : isDirectWire p q = true :=
  (wired_iff.1 h).1

theorem Wired.symm {p q : PhysPort} (h : Wired T p q) (hp : T.isValidTile p.tile = true) :
    Wired T q p :=
  wired_iff.2 ⟨isDirectWire_comm h.isDirectWire, hp⟩

theorem Wired.unique {p q q' : PhysPort} (h : Wired T p q) (h' : Wired T p q') : q = q' :=
  Option.some_inj.1 (Eq.trans (Eq.symm h) h')

/-! ## Muxes -/

theorem MuxIn.isDirectShimMux {p q : PhysPort} (h : MuxIn T p q) :
    isDirectShimMux T p q = true := by
  obtain ⟨htile, hshim, -, hport⟩ := h
  unfold Vias.isDirectShimMux
  simp [htile, htile ▸ hshim, hport]

theorem MuxOut.isDirectShimMux {p q : PhysPort} (h : MuxOut T p q) :
    isDirectShimMux T p q = true := by
  obtain ⟨htile, hshim, hmuxed, hport⟩ := h
  have hsouth : q.port.bundle ≠ .South := fun heq => by simp [isMuxed, heq] at hmuxed
  unfold Vias.isDirectShimMux
  simp [htile, htile ▸ hshim, hport, hsouth]

theorem MuxOut.not_wired {p q x : PhysPort} (h : MuxOut T p q) : ¬ Wired T p x := by
  obtain ⟨-, hshim, -, hport⟩ := h
  unfold Wired getConnectingWireEndpoint
  simp [hport, T.shim_row _ hshim]

theorem Joined.wired {p q : PhysPort} (h : Joined T p q) (hmux : isDirectShimMux T p q = false) :
    Wired T p q := by
  rcases h with hwired | hin | hout
  · exact hwired
  · rw [hin.isDirectShimMux] at hmux
    cases hmux
  · rw [hout.isDirectShimMux] at hmux
    cases hmux

theorem not_joined_self (p : PhysPort) : ¬ Joined T p p := by
  rintro (hwired | ⟨-, -, hmuxed, hport⟩ | ⟨-, -, hmuxed, hport⟩)
  · exact isDirectWire_ne hwired.isDirectWire rfl
  · have hsouth : p.port.bundle = .South := congrArg Port.bundle hport
    simp [isMuxed, hsouth] at hmuxed
  · have hsouth : p.port.bundle = .South := congrArg Port.bundle hport
    simp [isMuxed, hsouth] at hmuxed

/-! ## Endpoints -/

theorem wireEndpoint_cases {p q : PhysPort} (h : wireEndpoint T p = some q) :
    Wired T p q ∨ q = p := by
  unfold wireEndpoint at h
  split_ifs at h with hdir
  · exact Or.inl h
  · exact Or.inr (Option.some_inj.1 h).symm

theorem wired_of_wireEndpoint {p q : PhysPort} (h : wireEndpoint T p = some q)
    (hdir : isDirection p.port.bundle = true) : Wired T p q := by
  unfold wireEndpoint at h
  rwa [if_pos hdir] at h

theorem wired_of_joined {p q : PhysPort} (h : wireEndpoint T p = some q)
    (hjoined : Joined T p q ∨ Joined T q p) : Wired T p q := by
  rcases wireEndpoint_cases h with hwired | rfl
  · exact hwired
  · exact absurd (hjoined.elim id id) (not_joined_self q)

theorem endpoint_eq_ok {p q : PhysPort} {message : String} :
    endpoint T p message = .ok q ↔ wireEndpoint T p = some q := by
  unfold endpoint
  cases wireEndpoint T p <;> simp

/-! ## Gaps -/

theorem emitRoutableSegment_nil {src dst : PhysPort} {keeps : Bool}
    (h : src = dst ∨ isDirectWire src dst = true) : emitRoutableSegment src dst keeps = [] := by
  unfold emitRoutableSegment
  split_ifs with h1 h2
  · rfl
  · rfl
  · exact absurd h (not_or.2 ⟨h1, h2⟩)

theorem emitRoutableSegment_eq {src dst : PhysPort} {keeps : Bool} (h : src ≠ dst)
    (h' : isDirectWire src dst = false) :
    emitRoutableSegment src dst keeps = [⟨src, dst, keeps⟩] := by
  unfold emitRoutableSegment
  rw [if_neg h, h', if_neg Bool.false_ne_true]

theorem emitRoutableSegment_cases (src dst : PhysPort) (keeps : Bool) :
    emitRoutableSegment src dst keeps = [] ∧ (src = dst ∨ isDirectWire src dst = true) ∨
      emitRoutableSegment src dst keeps = [⟨src, dst, keeps⟩] ∧ src ≠ dst ∧
        isDirectWire src dst = false := by
  by_cases h : src = dst
  · exact Or.inl ⟨emitRoutableSegment_nil (Or.inl h), Or.inl h⟩
  cases h' : isDirectWire src dst with
  | true => exact Or.inl ⟨emitRoutableSegment_nil (Or.inr h'), Or.inr rfl⟩
  | false => exact Or.inr ⟨emitRoutableSegment_eq h h', h, rfl⟩

theorem emitGap_ok {first : Bool} {src entry : PhysPort} {gap : List Piece}
    (h : emitGap T first src entry = .ok gap) : ∃ q g,
    (if !first && !isDirectWire src entry then wireEndpoint T src = some q else q = src) ∧
      wireEndpoint T entry = some g ∧ gap = emitRoutableSegment q g false := by
  unfold emitGap at h
  obtain ⟨q, hq, h⟩ := bind_eq_ok.1 h
  obtain ⟨g, hg, h⟩ := bind_eq_ok.1 h
  refine ⟨q, g, ?_, endpoint_eq_ok.1 hg, (Except.ok.inj h).symm⟩
  split_ifs at hq ⊢
  · exact endpoint_eq_ok.1 hq
  · exact (Except.ok.inj hq).symm

theorem emitLast_self (dest : PhysPort) : emitLast T dest dest = .ok [] := by
  simp [emitLast, emitRoutableSegment, bind, Except.bind]

theorem emitLast_ok {src dest : PhysPort} {out : List Piece} (hne : src ≠ dest)
    (h : emitLast T src dest = .ok out) : ∃ q, wireEndpoint T src = some q ∧
      out = emitRoutableSegment q dest true := by
  unfold emitLast at h
  obtain ⟨q, hq, h⟩ := bind_eq_ok.1 h
  rw [if_pos hne] at hq
  exact ⟨q, endpoint_eq_ok.1 hq, (Except.ok.inj h).symm⟩

/-- The port that the local flow of a via starts at. -/
def takeoff (T : Target) (src entry : PhysPort) : PhysPort :=
  if isDirectShimMux T src entry then src else entry

theorem splitFrom_cons {dest src : PhysPort} {first : Bool} {v : Via} {vias : List Via}
    {out : List Piece} (h : splitFrom T dest first src (v :: vias) = .ok out) :
    ∃ gap rest keeps, (if isDirectShimMux T src v.entry then gap = []
        else emitGap T first src v.entry = .ok gap) ∧
      splitFrom T dest false (landing T v.exit (nextPort dest vias)) vias = .ok rest ∧
      out = gap ++
        ⟨takeoff T src v.entry, landing T v.exit (nextPort dest vias), keeps⟩ :: rest := by
  unfold splitFrom at h
  obtain ⟨gap, hgap, h⟩ := bind_eq_ok.1 h
  obtain ⟨rest, hrest, h⟩ := bind_eq_ok.1 h
  refine ⟨gap, rest, _, ?_, hrest, (Except.ok.inj h).symm⟩
  split_ifs at hgap ⊢
  · exact (Except.ok.inj hgap).symm
  · exact hgap

/-! ## Straight gaps are filled -/

theorem landing_eq {exit next : PhysPort} (h : isDirectShimMux T exit next = false) :
    landing T exit next = exit := by
  simp [landing, h]

theorem landing_of_leavesWell {exit dest : PhysPort} (h : LeavesWell T exit dest) :
    landing T exit dest = exit ∨ MuxOut T exit (landing T exit dest) := by
  cases hmux : isDirectShimMux T exit dest with
  | false => exact Or.inl (landing_eq hmux)
  | true =>
    rw [landing, if_pos hmux]
    rcases h with rfl | hout | ⟨-, hno, -⟩
    · exact Or.inl rfl
    · exact Or.inr hout
    · rw [hmux] at hno
      cases hno

theorem landing_of_gapsWell {exit dest : PhysPort} {vias : List Via}
    (h : GapsWell T dest exit vias) : landing T exit (nextPort dest vias) = exit ∨
      MuxOut T exit (landing T exit (nextPort dest vias)) := by
  cases vias with
  | nil => exact landing_of_leavesWell h
  | cons v vias => exact Or.inl (landing_eq h.1.2.2.1)

theorem follows_append {gap rest : List FlowOp} {f : FlowOp} {src dest : PhysPort}
    (h : Follows T src (gap ++ f :: rest) dest) : Follows T f.dest rest dest := by
  induction gap generalizing src with
  | nil => exact h.2
  | cons g gap ih => exact ih h.2

theorem emitGap_of_passesWell {exit entry : PhysPort} {gap : List Piece}
    (hpasses : PassesWell T exit entry) (h : emitGap T false exit entry = .ok gap) :
    ∃ g, Wired T entry g ∧ (isDirectWire exit entry = true ∧ gap = [] ∨
      isDirectWire exit entry = false ∧ ∃ q, Wired T exit q ∧ gap = [⟨q, g, false⟩]) := by
  obtain ⟨hexit, hentry, -, hne⟩ := hpasses
  obtain ⟨q, g, hq, hg, rfl⟩ := emitGap_ok h
  have hg := wired_of_wireEndpoint hg hentry
  refine ⟨g, hg, ?_⟩
  cases hdirect : isDirectWire exit entry with
  | true =>
    obtain rfl : q = exit := by simpa [hdirect] using hq
    have hback := isDirectWire_unique (isDirectWire_comm hdirect) hg.isDirectWire
    exact Or.inl ⟨rfl, emitRoutableSegment_nil (Or.inl hback)⟩
  | false =>
    have hq := wired_of_wireEndpoint (by simpa [hdirect] using hq) hexit
    refine Or.inr ⟨rfl, q, hq, emitRoutableSegment_eq ?_ ?_⟩
    · rintro rfl
      exact hne (isDirectWire_unique (isDirectWire_comm hq.isDirectWire)
        (isDirectWire_comm hg.isDirectWire))
    · by_contra hqg
      obtain rfl := isDirectWire_unique (isDirectWire_comm hq.isDirectWire)
        (Bool.of_not_eq_false hqg)
      rw [isDirectWire_comm hg.isDirectWire] at hdirect
      cases hdirect

theorem emitLast_of_leavesWell {exit dest : PhysPort} {out : List Piece}
    (hleaves : LeavesWell T exit dest) (h : emitLast T (landing T exit dest) dest = .ok out) :
    Follows T (landing T exit dest) (out.map Piece.flow) dest ∧
      out.map Piece.dst = outputsBehind T dest exit [] := by
  by_cases hend : exit = dest ∨ isDirectShimMux T exit dest = true
  · have hland : landing T exit dest = dest := by
      rcases hend with rfl | hmux
      · simp [landing]
      · simp [landing, hmux]
    rw [hland, emitLast_self] at h
    obtain rfl := Except.ok.inj h
    exact ⟨hland, (if_pos hend).symm⟩
  obtain ⟨hne, hmux⟩ := not_or.1 hend
  have hmux := Bool.of_not_eq_true hmux
  obtain heq | hout | ⟨hdir, -, hwired⟩ := hleaves
  · exact absurd heq hne
  · rw [hout.isDirectShimMux] at hmux
    cases hmux
  rw [landing_eq hmux] at h ⊢
  obtain ⟨q, hq, rfl⟩ := emitLast_ok hne h
  have hq := wired_of_wireEndpoint hq hdir
  rw [emitRoutableSegment_eq]
  · exact ⟨⟨Or.inl hq, rfl⟩, (if_neg hend).symm⟩
  · rintro rfl
    exact hwired hq
  · by_contra hqd
    exact hne (isDirectWire_unique (isDirectWire_comm hq.isDirectWire)
      (Bool.of_not_eq_false hqd))

/-- **Straight gaps are filled**: from an egress the pieces lead to the destination, through every
via, to the ports the route is led to. -/
theorem splitFrom_sound {dest : PhysPort} {vias : List Via} {exit : PhysPort} {out : List Piece}
    (hvalid : ∀ v ∈ vias, T.isValidTile v.tile = true) (hgaps : GapsWell T dest exit vias)
    (h : splitFrom T dest false (landing T exit (nextPort dest vias)) vias = .ok out) :
    Follows T (landing T exit (nextPort dest vias)) (out.map Piece.flow) dest ∧
      (∃ cs : List FlowOp, cs.Sublist (out.map Piece.flow) ∧
        List.Forall₂ (Crosses T) vias cs) ∧
      out.map Piece.dst = outputsBehind T dest exit vias := by
  induction vias generalizing exit out with
  | nil =>
    obtain ⟨hfollows, houtputs⟩ := emitLast_of_leavesWell hgaps h
    exact ⟨hfollows, ⟨[], List.nil_sublist _, .nil⟩, houtputs⟩
  | cons v vias ih =>
    obtain ⟨hpasses, hgaps⟩ := hgaps
    have hmux : isDirectShimMux T exit v.entry = false := hpasses.2.2.1
    have hland : landing T exit (nextPort dest (v :: vias)) = exit := landing_eq hmux
    rw [hland] at h ⊢
    obtain ⟨gap, rest, keeps, hgap, hrest, rfl⟩ := splitFrom_cons h
    have htake : takeoff T exit v.entry = v.entry := by simp [takeoff, hmux]
    rw [htake]
    rw [hmux, if_neg Bool.false_ne_true] at hgap
    obtain ⟨hfollows, ⟨cs, hcs, hcross⟩, houtputs⟩ :=
      ih (fun w hw => hvalid w (List.mem_cons_of_mem _ hw)) hgaps hrest
    have hentry : T.isValidTile v.entry.tile = true := hvalid v List.mem_cons_self
    have hlocal : Crosses T v ⟨v.entry, landing T v.exit (nextPort dest vias)⟩ :=
      ⟨Or.inl rfl, landing_of_gapsWell hgaps⟩
    rw [outputsBehind, ← houtputs]
    obtain ⟨g, hg, ⟨hdirect, rfl⟩ | ⟨hdirect, q, hq, rfl⟩⟩ := emitGap_of_passesWell hpasses hgap
    · refine ⟨⟨Or.inl (wired_iff.2 ⟨hdirect, hentry⟩), hfollows⟩,
        ⟨_, hcs.cons_cons _, .cons hlocal hcross⟩, ?_⟩
      simp [hdirect]
    · refine ⟨⟨Or.inl hq, Or.inl (hg.symm hentry), hfollows⟩,
        ⟨_, (hcs.cons_cons _).cons _, .cons hlocal hcross⟩, ?_⟩
      simp [hdirect, wiredFrom, show getConnectingWireEndpoint T v.entry = some g from hg]

/-! ## A path has straight gaps only -/

/-- What the pieces behind an egress say of its gap. -/
structure Lands (T : Target) (exit next : PhysPort) (out : List Piece) : Prop where
  stays : landing T exit next = exit ∨ out = []
  wired : ∀ p rest, out = p :: rest → Wired T exit p.src

theorem passesWell_of_follows {dest exit : PhysPort} {v : Via} {vias : List Via}
    {out : List Piece} (hvalid : T.isValidTile v.tile = true)
    (h : splitFrom T dest false (landing T exit v.entry) (v :: vias) = .ok out)
    (hfollows : Follows T (landing T exit v.entry) (out.map Piece.flow) dest) :
    PassesWell T exit v.entry ∧ Lands T exit v.entry out ∧ ∃ gap rest keeps,
      out = gap ++ ⟨v.entry, landing T v.exit (nextPort dest vias), keeps⟩ :: rest ∧
      splitFrom T dest false (landing T v.exit (nextPort dest vias)) vias = .ok rest ∧
      ∀ p ∈ gap, p.dst.tile ≠ v.tile := by
  obtain ⟨gap, rest, keeps, hgap, hrest, rfl⟩ := splitFrom_cons h
  -- a mux into the via would start its flow where the one before ended
  cases hmux : isDirectShimMux T (landing T exit v.entry) v.entry with
  | true =>
    rw [hmux, if_pos rfl] at hgap
    rw [hgap, takeoff, if_pos hmux] at hfollows
    exact absurd hfollows.1 (not_joined_self _)
  | false =>
  rw [hmux, if_neg Bool.false_ne_true] at hgap
  rw [takeoff, hmux, if_neg Bool.false_ne_true] at hfollows ⊢
  obtain ⟨q, g, hq, hg, hseg⟩ := emitGap_ok hgap
  have hland : landing T exit v.entry = exit := by
    rcases Bool.eq_false_or_eq_true (isDirectShimMux T exit v.entry) with hfold | hfold
    · rw [landing, if_pos hfold] at hq hfollows
      have hnot : isDirectWire v.entry v.entry = false :=
        Bool.of_not_eq_true fun hself => isDirectWire_ne hself rfl
      rw [hnot] at hq
      obtain rfl := Option.some_inj.1 ((show wireEndpoint T v.entry = some q from hq).symm.trans hg)
      rw [emitRoutableSegment_nil (Or.inl rfl)] at hseg
      rw [hseg] at hfollows
      exact absurd hfollows.1 (not_joined_self _)
    · exact landing_eq hfold
  rw [hland] at hmux hq hfollows
  cases hdirect : isDirectWire exit v.entry with
  | true =>
    obtain rfl : q = exit := by simpa [hdirect] using hq
    have hdir := isDirectWire_isDirection hdirect
    have hg := wired_of_wireEndpoint hg hdir.2
    rw [emitRoutableSegment_nil (Or.inl
      (isDirectWire_unique (isDirectWire_comm hdirect) hg.isDirectWire))] at hseg
    rw [hseg]
    refine ⟨⟨hdir.1, hdir.2, hmux, isDirectWire_ne hdirect⟩, ⟨Or.inl hland, ?_⟩,
      [], rest, keeps, rfl, hrest, fun p hp => absurd hp List.not_mem_nil⟩
    rintro p rest' heq
    rw [← (List.cons.inj heq).1]
    exact wired_iff.2 ⟨hdirect, hvalid⟩
  | false =>
    have hq : wireEndpoint T exit = some q := by simpa [hdirect] using hq
    obtain ⟨hnil, -⟩ | ⟨hone, hne, -⟩ := emitRoutableSegment_cases q g false
    · rw [hseg, hnil] at hfollows
      have hwired : isDirectWire exit v.entry = true := (hfollows.1.wired hmux).isDirectWire
      rw [hdirect] at hwired
      cases hwired
    rw [hone] at hseg
    rw [hseg] at hfollows ⊢
    have hexit := wired_of_joined hq (Or.inl hfollows.1)
    have hentry := wired_of_joined hg (Or.inr hfollows.2.1)
    refine ⟨⟨(isDirectWire_isDirection hexit.isDirectWire).1,
      (isDirectWire_isDirection hentry.isDirectWire).1, hmux, ?_⟩, ⟨Or.inl hland, ?_⟩,
      [⟨q, g, false⟩], rest, keeps, rfl, hrest, ?_⟩
    · rintro rfl
      exact hne (hexit.unique hentry)
    · rintro p rest' heq
      rw [← (List.cons.inj heq).1]
      exact hexit
    · intro p hp heq
      rw [List.mem_singleton.1 hp] at heq
      exact isDirectWire_tile_ne hentry.isDirectWire heq.symm

/-- Where a path leads from the last egress to the destination, the gap is straight, or a mux spans
it by its channel alone. -/
theorem leavesWell_of_follows {dest exit : PhysPort} {out : List Piece}
    (h : emitLast T (landing T exit dest) dest = .ok out)
    (hfollows : Follows T (landing T exit dest) (out.map Piece.flow) dest) :
    (isDirectShimMux T exit dest = true ∨ LeavesWell T exit dest) ∧ Lands T exit dest out := by
  by_cases hend : landing T exit dest = dest
  · rw [hend, emitLast_self] at h
    obtain rfl := Except.ok.inj h
    refine ⟨?_, Or.inr rfl, fun p rest heq => by cases heq⟩
    cases hmux : isDirectShimMux T exit dest with
    | true => exact Or.inl rfl
    | false => exact Or.inr (Or.inl ((landing_eq hmux).symm.trans hend))
  have hmux : isDirectShimMux T exit dest = false := by
    by_contra hmux
    exact hend (if_pos (Bool.of_not_eq_false hmux))
  rw [landing_eq hmux] at h hfollows hend
  obtain ⟨q, hq, rfl⟩ := emitLast_ok hend h
  obtain ⟨hnil, -⟩ | ⟨hone, hne, -⟩ := emitRoutableSegment_cases q dest true
  · rw [hnil] at hfollows
    exact absurd hfollows hend
  rw [hone] at hfollows ⊢
  have hexit := wired_of_joined hq (Or.inl hfollows.1)
  refine ⟨Or.inr (Or.inr (Or.inr ⟨(isDirectWire_isDirection hexit.isDirectWire).1, hmux, ?_⟩)),
    Or.inl (landing_eq hmux), ?_⟩
  · intro hwired
    exact hne (hexit.unique hwired)
  · rintro p rest heq
    rw [← (List.cons.inj heq).1]
    exact hexit

theorem lands_of_follows {dest exit : PhysPort} {vias : List Via} {out : List Piece}
    (hvalid : ∀ v ∈ vias, T.isValidTile v.tile = true)
    (h : splitFrom T dest false (landing T exit (nextPort dest vias)) vias = .ok out)
    (hfollows : Follows T (landing T exit (nextPort dest vias)) (out.map Piece.flow) dest) :
    Lands T exit (nextPort dest vias) out := by
  cases vias with
  | nil => exact (leavesWell_of_follows h hfollows).2
  | cons v vias => exact (passesWell_of_follows (hvalid v List.mem_cons_self) h hfollows).2.1

theorem crosses_tile {v : Via} {f : FlowOp} (h : Crosses T v f) : f.dest.tile = v.tile := by
  rcases h.2 with heq | hout
  · rw [heq]
    rfl
  · exact hout.1.symm

/-- No flow behind the local one crosses the via again: two flows would end at its egress, or a flow
would start behind a mux. -/
theorem not_crosses_behind {v : Via} {next : PhysPort} {rest : List Piece}
    (hlands : Lands T v.exit next rest)
    (hdistinct : (landing T v.exit next :: rest.map Piece.dst).Nodup) :
    ∀ f ∈ rest.map Piece.flow, ¬ Crosses T v f := by
  intro f hf hcross
  obtain ⟨p, hp, rfl⟩ := List.mem_map.1 hf
  rcases hcross.2 with heq | hout
  · have hne : rest ≠ [] := List.ne_nil_of_mem hp
    rw [hlands.stays.resolve_right hne] at hdistinct
    exact (List.nodup_cons.1 hdistinct).1 (List.mem_map.2 ⟨p, hp, heq⟩)
  · obtain ⟨p', rest', rfl⟩ := List.exists_cons_of_ne_nil (List.ne_nil_of_mem hp)
    exact hout.not_wired (hlands.wired p' rest' rfl)

theorem eq_local {v : Via} {gap rest cs : List FlowOp} {c l : FlowOp} (hcross : Crosses T v c)
    (hgap : ∀ f ∈ gap, f.dest.tile ≠ v.tile) (hrest : ∀ f ∈ rest, ¬ Crosses T v f)
    (hsub : (c :: cs).Sublist (gap ++ l :: rest)) : c = l ∧ cs.Sublist rest := by
  induction gap with
  | nil =>
    cases hsub with
    | cons _ hsub => exact absurd hcross (hrest c (hsub.subset List.mem_cons_self))
    | cons_cons _ hsub => exact ⟨rfl, hsub⟩
  | cons g gap ih =>
    cases hsub with
    | cons _ hsub => exact ih (fun f hf => hgap f (List.mem_cons_of_mem _ hf)) hsub
    | cons_cons _ hsub => exact absurd (crosses_tile hcross) (hgap c List.mem_cons_self)

theorem leavesWell_of_landing {exit dest : PhysPort}
    (hpath : isDirectShimMux T exit dest = true ∨ LeavesWell T exit dest)
    (hland : landing T exit dest = exit ∨ MuxOut T exit (landing T exit dest)) :
    LeavesWell T exit dest := by
  rcases hpath with hmux | hleaves
  · rw [landing, if_pos hmux] at hland
    exact hland.elim (fun heq => Or.inl heq.symm) (fun hout => Or.inr (Or.inl hout))
  · exact hleaves

/-- **A path has straight gaps only**, behind the egress that its pieces start from. -/
theorem gapsWell_of_crosses {dest : PhysPort} {vias : List Via} {exit : PhysPort}
    {out : List Piece} {cs : List FlowOp} (hvalid : ∀ v ∈ vias, T.isValidTile v.tile = true)
    (h : splitFrom T dest false (landing T exit (nextPort dest vias)) vias = .ok out)
    (hfollows : Follows T (landing T exit (nextPort dest vias)) (out.map Piece.flow) dest)
    (hdistinct : (out.map Piece.dst).Nodup) (hsub : cs.Sublist (out.map Piece.flow))
    (hcross : List.Forall₂ (Crosses T) vias cs)
    (hland : landing T exit (nextPort dest vias) = exit ∨
      MuxOut T exit (landing T exit (nextPort dest vias))) : GapsWell T dest exit vias := by
  induction vias generalizing exit out cs with
  | nil => exact leavesWell_of_landing (leavesWell_of_follows h hfollows).1 hland
  | cons v vias ih =>
    obtain ⟨hpasses, -, gap, rest, keeps, rfl, hrest, hgap⟩ :=
      passesWell_of_follows (hvalid v List.mem_cons_self) h hfollows
    have hvalid' : ∀ w ∈ vias, T.isValidTile w.tile = true := fun w hw =>
      hvalid w (List.mem_cons_of_mem _ hw)
    rw [List.map_append, List.map_cons] at hfollows hdistinct hsub
    have hfollows := follows_append hfollows
    have hdistinct := hdistinct.of_append_right
    have hlands := lands_of_follows hvalid' hrest hfollows
    cases hcross with
    | cons hv hcross =>
    have hgap' : ∀ f ∈ gap.map Piece.flow, f.dest.tile ≠ v.tile := List.forall_mem_map.2 hgap
    obtain ⟨rfl, hbehind⟩ := eq_local hv hgap' (not_crosses_behind hlands hdistinct) hsub
    exact ⟨hpasses, ih hvalid' hrest hfollows (List.nodup_cons.1 hdistinct).2 hbehind hcross hv.2⟩

/-! ## Sections -/

theorem emitGap_of_entersWell {source entry : PhysPort} {gap : List Piece}
    (henters : EntersWell T source entry) (hmux : isDirectShimMux T source entry = false)
    (h : emitGap T true source entry = .ok gap) : source = entry ∧ gap = [] ∨
      source ≠ entry ∧ ∃ g, Wired T entry g ∧ gap = [⟨source, g, false⟩] := by
  obtain ⟨q, g, hq, hg, rfl⟩ := emitGap_ok h
  obtain rfl : q = source := by simpa using hq
  by_cases heq : q = entry
  · refine Or.inl ⟨heq, emitRoutableSegment_nil ?_⟩
    rw [heq]
    rcases wireEndpoint_cases hg with hwired | heq
    · exact Or.inr hwired.isDirectWire
    · exact Or.inl heq.symm
  rcases henters with heq' | hin | ⟨hdir, -, hwired⟩
  · exact absurd heq' heq
  · rw [hin.isDirectShimMux] at hmux
    cases hmux
  have hg := wired_of_wireEndpoint hg hdir
  refine Or.inr ⟨heq, g, hg, emitRoutableSegment_eq ?_ ?_⟩
  · rintro rfl
    exact hwired hg
  · by_contra hqg
    exact heq (isDirectWire_unique (isDirectWire_comm (Bool.of_not_eq_false hqg))
      (isDirectWire_comm hg.isDirectWire))

/-- A section whose gaps are straight is one path through its vias. -/
theorem split_sound {s : Section T} {v : Via} {vias : List Via} {out : List Piece}
    (hvias : s.vias = v :: vias) (henters : EntersWell T s.source v.entry)
    (hgaps : GapsWell T s.dest v.exit vias)
    (h : splitFrom T s.dest true s.source (v :: vias) = .ok out) :
    (∃ f rest, out.map Piece.flow = f :: rest ∧ f.source = s.source ∧
        Follows T f.dest rest s.dest) ∧
      (∃ cs : List FlowOp, cs.Sublist (out.map Piece.flow) ∧
        List.Forall₂ (Crosses T) (v :: vias) cs) ∧
      out.map Piece.dst = outputs s := by
  have hvalid : ∀ w ∈ v :: vias, T.isValidTile w.tile = true := hvias ▸ s.valid
  obtain ⟨gap, rest, keeps, hgap, hrest, rfl⟩ := splitFrom_cons h
  obtain ⟨hfollows, ⟨cs, hcs, hcross⟩, houtputs⟩ :=
    splitFrom_sound (fun w hw => hvalid w (List.mem_cons_of_mem _ hw)) hgaps hrest
  have hland := landing_of_gapsWell hgaps
  simp only [outputs, hvias, ← houtputs]
  cases hmux : isDirectShimMux T s.source v.entry with
  | true =>
    rw [hmux, if_pos rfl] at hgap
    obtain rfl := hgap
    have hin : s.source = v.entry ∨ MuxIn T s.source v.entry := by
      rcases henters with heq | hin | ⟨-, hno, -⟩
      · exact Or.inl heq
      · exact Or.inr hin
      · rw [hmux] at hno
        cases hno
    rw [takeoff, if_pos hmux]
    refine ⟨⟨_, _, rfl, rfl, hfollows⟩, ⟨_, hcs.cons_cons _, .cons ⟨hin, hland⟩ hcross⟩, ?_⟩
    simp
  | false =>
    rw [hmux, if_neg Bool.false_ne_true] at hgap
    rw [takeoff, hmux, if_neg Bool.false_ne_true]
    obtain ⟨heq, rfl⟩ | ⟨hne, g, hg, rfl⟩ := emitGap_of_entersWell henters hmux hgap
    · refine ⟨⟨_, _, rfl, heq.symm, hfollows⟩,
        ⟨_, hcs.cons_cons _, .cons ⟨Or.inl rfl, hland⟩ hcross⟩, ?_⟩
      simp [heq]
    · refine ⟨⟨_, _, rfl, rfl, Or.inl (hg.symm (hvalid v List.mem_cons_self)), hfollows⟩,
        ⟨_, (hcs.cons_cons _).cons _, .cons ⟨Or.inl rfl, hland⟩ hcross⟩, ?_⟩
      simp [hne, wiredFrom, show getConnectingWireEndpoint T v.entry = some g from hg]

/-- A path through the vias from the source enters the first of them well, and its gaps are
straight. -/
theorem gaps_of_pinned {s : Section T} {v : Via} {vias : List Via} {out : List Piece}
    (hvias : s.vias = v :: vias) (h : splitFrom T s.dest true s.source (v :: vias) = .ok out)
    (hpinned : Pinned s (out.map Piece.flow)) :
    EntersWell T s.source v.entry ∧ GapsWell T s.dest v.exit vias := by
  obtain ⟨⟨f, behind, hout, hsource, hfollows⟩, ⟨cs, hsub, hcross⟩, hdistinct⟩ := hpinned
  have hvalid : ∀ w ∈ v :: vias, T.isValidTile w.tile = true := hvias ▸ s.valid
  have hvalid' : ∀ w ∈ vias, T.isValidTile w.tile = true := fun w hw =>
    hvalid w (List.mem_cons_of_mem _ hw)
  obtain ⟨gap, rest, keeps, hgap, hrest, rfl⟩ := splitFrom_cons h
  rw [hvias] at hcross
  obtain ⟨c, cs, hv, htail, rfl⟩ := List.forall₂_cons_left_iff.1 hcross
  -- the gap before the first via, and what its first flow says of it
  have henters : (∀ p ∈ gap, p.dst.tile ≠ v.tile) ∧
      Follows T (landing T v.exit (nextPort s.dest vias)) (rest.map Piece.flow) s.dest ∧
      (takeoff T s.source v.entry = v.entry ∨ MuxIn T (takeoff T s.source v.entry) v.entry →
        EntersWell T s.source v.entry) := by
    cases hmux : isDirectShimMux T s.source v.entry with
    | true =>
      rw [hmux, if_pos rfl] at hgap
      obtain rfl := hgap
      obtain ⟨rfl, rfl⟩ := List.cons.inj hout
      refine ⟨fun p hp => absurd hp List.not_mem_nil, hfollows, fun htake => ?_⟩
      rw [takeoff, if_pos hmux] at htake
      exact htake.elim Or.inl (fun hin => Or.inr (Or.inl hin))
    | false =>
      rw [hmux, if_neg Bool.false_ne_true] at hgap
      obtain ⟨q, g, hq, hg, hseg⟩ := emitGap_ok hgap
      obtain rfl : q = s.source := by simpa using hq
      rw [takeoff, hmux, if_neg Bool.false_ne_true] at hout
      obtain ⟨hnil, -⟩ | ⟨hone, hne, -⟩ := emitRoutableSegment_cases s.source g false
      · rw [hnil] at hseg
        rw [hseg] at hout ⊢
        obtain ⟨rfl, rfl⟩ := List.cons.inj hout
        exact ⟨fun p hp => absurd hp List.not_mem_nil, hfollows, fun _ => Or.inl hsource.symm⟩
      · rw [hone] at hseg
        rw [hseg] at hout ⊢
        obtain ⟨rfl, rfl⟩ := List.cons.inj hout
        have hentry := wired_of_joined hg (Or.inr hfollows.1)
        refine ⟨?_, hfollows.2, fun _ => Or.inr (Or.inr
          ⟨(isDirectWire_isDirection hentry.isDirectWire).1, hmux, ?_⟩)⟩
        · intro p hp heq
          rw [List.mem_singleton.1 hp] at heq
          exact isDirectWire_tile_ne hentry.isDirectWire heq.symm
        · intro hwired
          exact hne (hwired.unique hentry)
  obtain ⟨hgap', hfollows, henters⟩ := henters
  rw [List.map_map, List.map_append, List.map_cons] at hdistinct
  have hdistinct := hdistinct.of_append_right
  have hlands := lands_of_follows hvalid' hrest hfollows
  rw [List.map_append, List.map_cons] at hsub
  obtain ⟨rfl, hbehind⟩ := eq_local hv (List.forall_mem_map.2 hgap')
    (not_crosses_behind hlands hdistinct) hsub
  exact ⟨henters hv.1, gapsWell_of_crosses hvalid' hrest hfollows (List.nodup_cons.1 hdistinct).2
    hbehind htail hv.2⟩

/-- **A section keeps its pinned route** exactly if the route is straight. -/
theorem split_pinned_iff {s : Section T} {out : List Piece} (h : s.split = .ok out) :
    Pinned s (out.map Piece.flow) ↔ Straight s := by
  unfold Section.split at h
  cases hvias : s.vias with
  | nil =>
    rw [hvias] at h
    obtain rfl := Except.ok.inj h
    have hnodup : (outputs s).Nodup := by simp [outputs, hvias]
    have hpinned : Pinned s [⟨s.source, s.dest⟩] :=
      ⟨⟨_, _, rfl, rfl, rfl⟩, ⟨[], List.nil_sublist _, hvias ▸ .nil⟩, List.nodup_singleton _⟩
    refine iff_of_true hpinned ⟨fun v vias hcons => ?_, hnodup⟩
    rw [hvias] at hcons
    cases hcons
  | cons v vias =>
    rw [hvias] at h
    constructor
    · intro hpinned
      obtain ⟨henters, hgaps⟩ := gaps_of_pinned hvias h hpinned
      obtain ⟨-, -, houtputs⟩ := split_sound hvias henters hgaps h
      refine ⟨fun w ws hcons => ?_, ?_⟩
      · obtain ⟨rfl, rfl⟩ := List.cons.inj (hvias.symm.trans hcons)
        exact ⟨henters, hgaps⟩
      · have hdistinct := hpinned.distinct
        rw [List.map_map] at hdistinct
        exact houtputs ▸ hdistinct
    · intro hstraight
      obtain ⟨henters, hgaps⟩ := hstraight.gaps v vias hvias
      obtain ⟨hpath, hcrosses, houtputs⟩ := split_sound hvias henters hgaps h
      refine ⟨hpath, hvias ▸ hcrosses, ?_⟩
      rw [List.map_map]
      exact (houtputs ▸ hstraight.distinct : (out.map Piece.dst).Nodup)

/-! ## Devices -/

theorem splitFlow_pinned_iff {s : Section T} {out : List FlowOp} (h : splitFlow s = .ok out) :
    Pinned s out ↔ Straight s := by
  obtain ⟨pieces, hpieces, h⟩ := bind_eq_ok.1 h
  rw [← Except.ok.inj h]
  exact split_pinned_iff hpieces

theorem splitPacketFlow_pinned_iff {pf : PacketSection T} {out : List PacketFlowOp}
    (h : splitPacketFlow pf = .ok out) :
    Pinned pf.ports (out.map PacketFlowOp.flow) ↔ Straight pf.ports := by
  obtain ⟨pieces, hpieces, h⟩ := bind_eq_ok.1 h
  rw [← Except.ok.inj h, List.map_map]
  exact split_pinned_iff hpieces

/-- **Splitting keeps the pinned routes** of those flows and packet sections that are straight, and
of no others. -/
theorem runOnOperation_pinned_iff (device : DeviceOp T) (flows : List (List FlowOp))
    (packetFlows : List (List PacketFlowOp))
    (h : runOnOperation device = .ok (flows, packetFlows)) :
    List.Forall₂ (fun s out => Pinned s out ↔ Straight s) device.flows flows ∧
      List.Forall₂ (fun pf out => Pinned pf.ports (out.map PacketFlowOp.flow) ↔ Straight pf.ports)
        device.packetFlows packetFlows := by
  obtain ⟨fs, hfs, h⟩ := bind_eq_ok.1 h
  obtain ⟨pfs, hpfs, h⟩ := bind_eq_ok.1 h
  obtain ⟨rfl, rfl⟩ := Prod.mk.inj (Except.ok.inj h)
  exact ⟨(mapM_ok hfs).imp fun _ _ => splitFlow_pinned_iff,
    (mapM_ok hpfs).imp fun _ _ => splitPacketFlow_pinned_iff⟩

def column : Target where
  columns := 1
  rows := 4
  isShimNOCorPLTile t := t.row = 0
  shim_row t h := by simpa using h

/-- Up to the next tile, back, and down to the destination. -/
def uTurn : Section column where
  source := ⟨⟨0, 2⟩, ⟨.DMA, 0⟩⟩
  vias := [⟨⟨0, 2⟩, ⟨.DMA, 0⟩, ⟨.North, 0⟩⟩, ⟨⟨0, 2⟩, ⟨.North, 0⟩, ⟨.South, 0⟩⟩]
  dest := ⟨⟨0, 1⟩, ⟨.DMA, 0⟩⟩
  valid := by decide

/-- From the shim up to a tile. -/
def upward : Section column where
  source := ⟨⟨0, 0⟩, ⟨.DMA, 0⟩⟩
  vias := [⟨⟨0, 0⟩, ⟨.South, 3⟩, ⟨.North, 1⟩⟩, ⟨⟨0, 2⟩, ⟨.South, 0⟩, ⟨.DMA, 0⟩⟩]
  dest := ⟨⟨0, 2⟩, ⟨.DMA, 0⟩⟩
  valid := by decide

theorem upward_pinned_iff : ∃ out,
    runOnOperation (⟨[upward], []⟩ : DeviceOp column) = .ok ([out], []) ∧
      (Pinned upward out ↔ Straight upward) := by
  have h : runOnOperation (⟨[upward], []⟩ : DeviceOp column) = .ok ([_], []) := rfl
  obtain ⟨hiff, -⟩ := runOnOperation_pinned_iff ⟨[upward], []⟩ _ _ h
  exact ⟨_, h, (List.forall₂_cons.1 hiff).1⟩

/-- The flow through the tile above is missing. -/
theorem uTurn_not_pinned : ∃ out,
    runOnOperation (⟨[uTurn], []⟩ : DeviceOp column) = .ok ([out], []) ∧ ¬ Pinned uTurn out := by
  refine ⟨_, rfl, fun hpinned => ?_⟩
  obtain ⟨⟨f, rest, hout, -, hfollows⟩, -, -⟩ := hpinned
  obtain ⟨rfl, rfl⟩ := List.cons.inj hout
  exact not_joined_self _ hfollows.1

end MlirAie.Vias
