import MlirAie.Stack.Graph

/-!
# The call edges of a linked core

A relocation yields an edge where the search for a range finds one: among the symbols that start at
or before an address, it looks at the last alone.

* `Calls`, `Reads`, `Escapes`: what one relocation says of a function, of data;
* **`mem_callees_callGraph`**: the edges of the graph are those the relocations say;
* **`edgesKept_iff`**; `nested_loses`: a function inside another hides the rest of it.
-/

namespace MlirAie.Stack

variable {g : Graph} {funcs data : SymbolRanges} {a x f : Address}

/-! ## The search for a range -/

namespace SymbolRanges

variable {r : SymbolRanges} {e : Entry}

theorem mem_of_owner (h : r.owner a = some e) : e ∈ r.entries := by
  rw [owner, Option.filter_eq_some_iff] at h
  exact (List.takeWhile_sublist _).subset (List.mem_of_getLast? h.1)

theorem contains_of_owner (h : r.owner a = some e) : e.Contains a := by
  rw [owner, Option.filter_eq_some_iff, decide_eq_true_eq] at h
  obtain ⟨hlast, hlt⟩ := h
  have hle := List.mem_takeWhile_imp (List.mem_of_getLast? hlast)
  rw [Bool.not_eq_true', decide_eq_false_iff_not, BitVec.not_lt] at hle
  have hwrap : (e.addr + e.size).toNat ≤ e.addr.toNat + e.size.toNat := by
    rw [BitVec.toNat_add]
    exact Nat.mod_le _ _
  exact ⟨hle, (BitVec.lt_def.1 hlt).trans_le hwrap⟩

theorem le_of_owner (h : r.owner a = some e) {e' : Entry} (he' : e' ∈ r.entries)
    (hle : e'.addr ≤ a) : e'.addr ≤ e.addr := by
  rw [owner, Option.filter_eq_some_iff] at h
  obtain ⟨⟨front, hfront⟩, -⟩ := And.imp_left List.getLast?_eq_some_iff.1 h
  have hmem : e' ∈ r.entries.takeWhile fun e => !decide (a < e.addr) := by
    -- The entries past the first that starts after `a` start after it too.
    have hsplit := List.takeWhile_append_dropWhile (p := fun e : Entry => !decide (a < e.addr))
      (l := r.entries)
    rw [← hsplit] at he'
    rcases List.mem_append.1 he' with he' | he'
    · exact he'
    · have hsorted := r.sorted
      rw [← hsplit] at hsorted
      cases hdrop : r.entries.dropWhile fun e => !decide (a < e.addr) with
      | nil => simp [hdrop] at he'
      | cons d ds =>
        have hd : a < d.addr := by
          have := List.head_dropWhile_not (fun e : Entry => !decide (a < e.addr))
            (l := r.entries) (by rw [hdrop]; exact List.cons_ne_nil _ _)
          simpa [hdrop] using this
        rw [hdrop] at he' hsorted
        have hde : d.addr ≤ e'.addr := by
          rcases List.mem_cons.1 he' with rfl | he'
          · exact BitVec.le_refl _
          · exact (List.pairwise_cons.1 (List.pairwise_append.1 hsorted).2.1).1 e' he'
        exact absurd (BitVec.le_trans hde hle) (BitVec.not_le.2 hd)
  rw [hfront] at hmem
  have hsorted := r.sorted.sublist (List.takeWhile_sublist fun e => !decide (a < e.addr))
  rw [hfront] at hsorted
  rcases List.mem_append.1 hmem with hmem | hmem
  · exact (List.pairwise_append.1 hsorted).2.2 e' hmem e (List.mem_singleton_self e)
  · obtain rfl := List.mem_singleton.1 hmem
    exact BitVec.le_refl _

theorem startsAt_eq_some : r.startsAt a = some e ↔ r.owner a = some e ∧ e.addr = a := by
  rw [startsAt, Option.filter_eq_some_iff, beq_iff_eq]

theorem startsAt_of_mem {e' : Entry} (he' : e' ∈ r.entries) (h : r.owner e'.addr = some e) :
    r.startsAt e'.addr = some e := by
  refine startsAt_eq_some.2 ⟨h, BitVec.le_antisymm ?_ (r.le_of_owner h he' (BitVec.le_refl _))⟩
  exact BitVec.le_def.2 (contains_of_owner h).1

end SymbolRanges

/-! ## What the relocations say -/

def patches (sections : List Section) : List (Bool × Relocation) :=
  sections.flatMap fun
    | .stackSizes _ => []
    | .relocations patchedIsText rels => rels.map fun rel => (patchedIsText, rel)

/-- A relocation in `a` calls `f`. -/
def Calls (funcs : SymbolRanges) (p : Bool × Relocation) (a f : Address) : Prop :=
  p.1 = true ∧ ∃ t o e, p.2.target true = some t ∧ funcs.owner p.2.offset = some o ∧ o.addr = a ∧
    funcs.startsAt t = some e ∧ e.addr = f

/-- A relocation in `a` reads the data at `x`. -/
def Reads (funcs data : SymbolRanges) (p : Bool × Relocation) (a x : Address) : Prop :=
  p.1 = true ∧ ∃ t o d, p.2.target true = some t ∧ funcs.owner p.2.offset = some o ∧ o.addr = a ∧
    funcs.startsAt t = none ∧ data.owner t = some d ∧ d.addr = x

/-- A relocation stores the address of `f` in the data at `x`. -/
def Escapes (funcs data : SymbolRanges) (p : Bool × Relocation) (x f : Address) : Prop :=
  p.1 = false ∧ ∃ t d e, p.2.target false = some t ∧ data.owner p.2.offset = some d ∧ d.addr = x ∧
    funcs.startsAt t = some e ∧ e.addr = f

namespace Graph

/-- The data that a function is known to read, and the functions known to escape into data. -/
def reads (g : Graph) (a : Address) : List Address := (g.dataReferences.lookup a).getD []

def escapes (g : Graph) (x : Address) : List Address := (g.dataEscapes.lookup x).getD []

@[simp] theorem callees_setNode (addr : Address) (n : Node) (b : Address) :
    (g.setNode addr n).callees b = if b = addr then n.callees else g.callees b := by
  unfold callees node setNode
  split_ifs with h
  · subst h
    rw [AList.lookup_insert]
    rfl
  · rw [AList.lookup_insert_ne h]

@[simp] theorem mem_callees_addCallees (addr : Address) (cs : List Address) (b : Address) :
    f ∈ (g.addCallees addr cs).callees b ↔ f ∈ g.callees b ∨ b = addr ∧ f ∈ cs := by
  rw [addCallees, callees_setNode]
  split_ifs with hb
  · subst hb
    simp
  · simp [hb]

@[simp] theorem reads_addCallees (addr : Address) (cs : List Address) (b : Address) :
    (g.addCallees addr cs).reads b = g.reads b := rfl

@[simp] theorem escapes_addCallees (addr : Address) (cs : List Address) (b : Address) :
    (g.addCallees addr cs).escapes b = g.escapes b := rfl

@[simp] theorem callees_addReference (addr d b : Address) :
    (g.addReference addr d).callees b = g.callees b := rfl

@[simp] theorem mem_reads_addReference (addr d b : Address) :
    x ∈ (g.addReference addr d).reads b ↔ x ∈ g.reads b ∨ b = addr ∧ x = d := by
  unfold reads addReference
  dsimp only
  by_cases hb : b = addr
  · subst hb
    rw [AList.lookup_insert, Option.getD_some, List.mem_insert_iff]
    tauto
  · rw [AList.lookup_insert_ne hb]
    simp [hb]

@[simp] theorem escapes_addReference (addr d b : Address) :
    (g.addReference addr d).escapes b = g.escapes b := rfl

@[simp] theorem callees_addEscape (d func b : Address) :
    (g.addEscape d func).callees b = g.callees b := rfl

@[simp] theorem reads_addEscape (d func b : Address) :
    (g.addEscape d func).reads b = g.reads b := rfl

@[simp] theorem mem_escapes_addEscape (d func b : Address) :
    f ∈ (g.addEscape d func).escapes b ↔ f ∈ g.escapes b ∨ b = d ∧ f = func := by
  unfold escapes addEscape
  dsimp only
  by_cases hb : b = d
  · subst hb
    rw [AList.lookup_insert, Option.getD_some, List.mem_append, List.mem_singleton]
    tauto
  · rw [AList.lookup_insert_ne hb]
    simp [hb]

/-- What a graph says, and no more, of the edges and of the two halves of the heuristic. -/
structure Says (g : Graph) (funcs : SymbolRanges) (calls reads escapes : Address → Address → Prop) :
    Prop where
  funcs : g.funcs = funcs
  callees : ∀ a f, f ∈ g.callees a ↔ calls a f
  reads : ∀ a x, x ∈ g.reads a ↔ reads a x
  escapes : ∀ x f, f ∈ g.escapes x ↔ escapes x f

variable {calls reads escapes : Address → Address → Prop}

/-- One relocation. -/
theorem Says.addRelocation (h : g.Says funcs calls reads escapes) (data : SymbolRanges)
    (p : Bool × Relocation) :
    (g.addRelocation data p.1 p.2).Says funcs (fun a f => calls a f ∨ Calls funcs p a f)
      (fun a x => reads a x ∨ Reads funcs data p a x)
      (fun x f => escapes x f ∨ Escapes funcs data p x f) := by
  obtain ⟨isText, rel⟩ := p
  obtain ⟨rfl, hcalls, hreads, hescapes⟩ := h
  simp only [Graph.addRelocation]
  cases htarget : rel.target isText with
  | none =>
    refine ⟨rfl, fun a f => ?_, fun a x => ?_, fun x f => ?_⟩
    · cases isText <;> simp [Calls, hcalls, htarget]
    · cases isText <;> simp [Reads, hreads, htarget]
    · cases isText <;> simp [Escapes, hescapes, htarget]
  | some t =>
    simp only [addEdge]
    cases isText with
    | true =>
      rw [if_pos rfl]
      cases howner : g.funcs.owner rel.offset with
      | none =>
        refine ⟨rfl, fun a f => ?_, fun a x => ?_, fun x f => ?_⟩
        · simp [Calls, hcalls, howner]
        · simp [Reads, hreads, howner]
        · simp [Escapes, hescapes]
      | some o =>
        cases hstart : g.funcs.startsAt t with
        | some e =>
          refine ⟨rfl, fun a f => ?_, fun a x => ?_, fun x f => ?_⟩
          · simp [Calls, hcalls, howner, htarget, hstart, eq_comm]
          · simp [Reads, hreads, htarget, hstart]
          · simp [Escapes, hescapes]
        | none =>
          cases hdata : data.owner t with
          | none =>
            refine ⟨rfl, fun a f => ?_, fun a x => ?_, fun x f => ?_⟩
            · simp [Calls, hcalls, htarget, hstart]
            · simp [Reads, hreads, htarget, hdata]
            · simp [Escapes, hescapes]
          | some d =>
            refine ⟨rfl, fun a f => ?_, fun a x => ?_, fun x f => ?_⟩
            · simp [Calls, hcalls, htarget, hstart]
            · simp [Reads, hreads, howner, htarget, hstart, hdata, eq_comm]
            · simp [Escapes, hescapes]
    | false =>
      rw [if_neg Bool.false_ne_true]
      cases hstart : g.funcs.startsAt t with
      | none =>
        refine ⟨rfl, fun a f => ?_, fun a x => ?_, fun x f => ?_⟩
        · simp [Calls, hcalls]
        · simp [Reads, hreads]
        · simp [Escapes, hescapes, htarget, hstart]
      | some e =>
        cases hdata : data.owner rel.offset with
        | none =>
          refine ⟨rfl, fun a f => ?_, fun a x => ?_, fun x f => ?_⟩
          · simp [Calls, hcalls]
          · simp [Reads, hreads]
          · simp [Escapes, hescapes, hdata]
        | some d =>
          refine ⟨rfl, fun a f => ?_, fun a x => ?_, fun x f => ?_⟩
          · simp [Calls, hcalls]
          · simp [Reads, hreads]
          · simp [Escapes, hescapes, htarget, hstart, hdata, eq_comm]

theorem Says.readFrameSizes (h : g.Says funcs calls reads escapes) (entries : List (Address × ℕ)) :
    (readFrameSizes entries g).Says funcs calls reads escapes := by
  induction entries generalizing g with
  | nil => exact h
  | cons entry entries ih =>
    obtain ⟨funcAddr, frameSize⟩ := entry
    rw [Graph.readFrameSizes]
    split_ifs
    · exact h
    · refine ih ?_
      cases g.funcs.owner funcAddr with
      | none => exact h
      | some fn =>
        refine ⟨h.funcs, fun a f => ?_, h.reads, h.escapes⟩
        rw [callees_setNode, ← h.callees a f]
        split_ifs with ha
        · subst ha
          rfl
        · rfl

theorem Says.addSections (h : g.Says funcs calls reads escapes) (data : SymbolRanges)
    (sections : List Section) :
    (sections.foldl (fun g sec => g.addSection data sec) g).Says funcs
      (fun a f => calls a f ∨ ∃ p ∈ patches sections, Calls funcs p a f)
      (fun a x => reads a x ∨ ∃ p ∈ patches sections, Reads funcs data p a x)
      (fun x f => escapes x f ∨ ∃ p ∈ patches sections, Escapes funcs data p x f) := by
  induction sections generalizing g calls reads escapes with
  | nil => simpa [patches] using h
  | cons sec sections ih =>
    cases sec with
    | stackSizes entries => exact ih (h.readFrameSizes entries)
    | relocations isText rels =>
      have hrels : ∀ (rels : List Relocation) {g : Graph} {calls reads escapes},
          g.Says funcs calls reads escapes →
          (rels.foldl (fun g rel => g.addRelocation data isText rel) g).Says funcs
            (fun a f => calls a f ∨ ∃ rel ∈ rels, Calls funcs (isText, rel) a f)
            (fun a x => reads a x ∨ ∃ rel ∈ rels, Reads funcs data (isText, rel) a x)
            (fun x f => escapes x f ∨ ∃ rel ∈ rels, Escapes funcs data (isText, rel) x f) := by
        intro rels
        induction rels with
        | nil =>
          intro g calls reads escapes h
          simpa using h
        | cons rel rels ihrels =>
          intro g calls reads escapes h
          have hrest := ihrels (h.addRelocation data (isText, rel))
          simpa [or_assoc] using hrest
      have hpatches : patches (.relocations isText rels :: sections) =
          rels.map (fun rel => (isText, rel)) ++ patches sections := List.flatMap_cons
      have hrest := ih (hrels rels h)
      simpa only [List.foldl_cons, addSection, hpatches, List.mem_append, List.mem_map, or_and_right,
        exists_or, exists_exists_and_eq_and, or_assoc] using hrest

theorem mem_callees_joinEscapes :
    f ∈ g.joinEscapes.callees a ↔ f ∈ g.callees a ∨ ∃ x ∈ g.reads a, f ∈ g.escapes x := by
  have hfold : ∀ (refs : List (Sigma fun _ : Address => List Address)) (h : Graph),
      f ∈ (refs.foldl (fun h ref => h.addCallees ref.1 (g.escapesTo ref.2)) h).callees a ↔
        f ∈ h.callees a ∨ ∃ ref ∈ refs, a = ref.1 ∧ f ∈ g.escapesTo ref.2 := by
    intro refs
    induction refs with
    | nil => simp
    | cons ref refs ih =>
      intro h
      rw [List.foldl_cons, ih, mem_callees_addCallees]
      simp [or_assoc]
  rw [joinEscapes, hfold]
  refine or_congr_right ⟨?_, ?_⟩
  · rintro ⟨⟨b, xs⟩, hmem, rfl, hf⟩
    have hlookup : g.dataReferences.lookup a = some xs := AList.mem_lookup_iff.2 hmem
    obtain ⟨x, hx, hf⟩ := List.mem_flatMap.1 hf
    exact ⟨x, by rwa [reads, hlookup], hf⟩
  · rintro ⟨x, hx, hf⟩
    rw [reads] at hx
    cases hlookup : g.dataReferences.lookup a with
    | none => simp [hlookup] at hx
    | some xs =>
      rw [hlookup] at hx
      exact ⟨⟨a, xs⟩, AList.mem_lookup_iff.1 hlookup, rfl, List.mem_flatMap.2 ⟨x, hx, hf⟩⟩

theorem mem_callees_sortCallees : f ∈ g.sortCallees.callees a ↔ f ∈ g.callees a := by
  have hfold : ∀ (keys : List Address) (nodes : AList fun _ : Address => Node),
      (keys.foldl (fun nodes addr => nodes.insert addr { g.node addr with
        callees := (g.callees addr).dedup.insertionSort fun a b => a ≤ b }) nodes).lookup a =
      if a ∈ keys then some { g.node a with
        callees := (g.callees a).dedup.insertionSort fun a b => a ≤ b } else nodes.lookup a := by
    intro keys
    induction keys with
    | nil => simp
    | cons key keys ih =>
      intro nodes
      rw [List.foldl_cons, ih]
      by_cases hmem : a ∈ keys
      · rw [if_pos hmem, if_pos (List.mem_cons_of_mem _ hmem)]
      · rw [if_neg hmem]
        by_cases ha : a = key
        · subst ha
          rw [AList.lookup_insert, if_pos (List.mem_cons_self ..)]
        · rw [AList.lookup_insert_ne ha, if_neg (by simp [ha, hmem])]
  have hnode : g.sortCallees.node a = if a ∈ g.nodes.keys then
      { g.node a with callees := (g.callees a).dedup.insertionSort fun a b => a ≤ b }
      else g.node a := by
    unfold node sortCallees
    dsimp only
    rw [hfold]
    split_ifs <;> rfl
  rw [callees, hnode]
  split_ifs
  · rw [List.mem_insertionSort, List.mem_dedup]
  · rfl

end Graph

/-- A graph whose nodes have no callees, and which knows nothing yet of the data. -/
def Graph.Bare (g : Graph) : Prop :=
  (∀ a, g.callees a = []) ∧ g.dataReferences = ∅ ∧ g.dataEscapes = ∅

/-- **The edges of the graph** are the calls, and the functions that escape into data that is
read. -/
theorem mem_callees_callGraph (hbare : g.Bare) (sections : List Section) :
    f ∈ (callGraph g data sections).callees a ↔
      (∃ p ∈ patches sections, Calls g.funcs p a f) ∨
        ∃ x, (∃ p ∈ patches sections, Reads g.funcs data p a x) ∧
          ∃ p ∈ patches sections, Escapes g.funcs data p x f := by
  obtain ⟨hcallees, hreads, hescapes⟩ := hbare
  have hsays : g.Says g.funcs (fun _ _ => False) (fun _ _ => False) (fun _ _ => False) :=
    ⟨rfl, fun a f => by simp [hcallees], fun a x => by simp [Graph.reads, hreads],
      fun x f => by simp [Graph.escapes, hescapes]⟩
  have hall := hsays.addSections data sections
  rw [callGraph, Graph.mem_callees_sortCallees, Graph.mem_callees_joinEscapes, hall.callees]
  simp only [hall.reads, hall.escapes, false_or]

/-! ## No edge is lost -/

/-- **No call edge is lost.** A relocation in the range of a function that targets the start of one
yields an edge to it; one that targets data yields an edge to each function whose address the data
holds. -/
structure EdgesKept (g : Graph) (data : SymbolRanges) (sections : List Section) : Prop where
  calls : ∀ rel, (true, rel) ∈ patches sections → ∀ t, rel.target true = some t →
    (∃ caller ∈ g.funcs.entries, caller.Contains rel.offset) →
    ∀ callee ∈ g.funcs.entries, callee.addr = t →
      ∃ caller ∈ g.funcs.entries, caller.Contains rel.offset ∧
        callee.addr ∈ (callGraph g data sections).callees caller.addr
  escapes : ∀ rel, (true, rel) ∈ patches sections → ∀ t, rel.target true = some t →
    (∃ caller ∈ g.funcs.entries, caller.Contains rel.offset) →
    ∀ d ∈ data.entries, d.Contains t →
    ∀ held, (false, held) ∈ patches sections → d.Contains held.offset →
    ∀ callee ∈ g.funcs.entries, held.target false = some callee.addr →
      ∃ caller ∈ g.funcs.entries, caller.Contains rel.offset ∧
        callee.addr ∈ (callGraph g data sections).callees caller.addr

/-- **The last symbol to start serves.** An address in the range of a function is in the range of
the last function to start at or before it; two addresses in the range of a data symbol belong to
symbols that start together, and no function starts in it but the one whose address is held. -/
structure Resolves (funcs data : SymbolRanges) : Prop where
  inFunction : ∀ a, (∃ e ∈ funcs.entries, e.Contains a) → (funcs.owner a).isSome
  inData : ∀ d ∈ data.entries, ∀ callee ∈ funcs.entries, ∀ a b, d.Contains a → d.Contains b →
    a = callee.addr ∨ (∀ e ∈ funcs.entries, e.addr ≠ a) ∧
      ∃ x y, data.owner a = some x ∧ data.owner b = some y ∧ x.addr = y.addr

theorem startsAt_of_resolves (h : Resolves funcs data) {e : Entry} (he : e ∈ funcs.entries) :
    ∃ e', funcs.startsAt e.addr = some e' := by
  obtain ⟨e', he'⟩ := Option.isSome_iff_exists.1
    (h.inFunction e.addr ⟨e, he, Entry.contains_addr (funcs.sized e he)⟩)
  exact ⟨e', SymbolRanges.startsAt_of_mem he he'⟩

theorem startsAt_eq_none (h : ∀ e ∈ funcs.entries, e.addr ≠ a) : funcs.startsAt a = none := by
  cases hstart : funcs.startsAt a with
  | none => rfl
  | some e =>
    obtain ⟨howner, haddr⟩ := SymbolRanges.startsAt_eq_some.1 hstart
    exact absurd haddr (h e (SymbolRanges.mem_of_owner howner))

theorem edgesKept_of_resolves (hbare : g.Bare) (h : Resolves g.funcs data)
    (sections : List Section) : EdgesKept g data sections := by
  -- Where a relocation to the start of a function lies in one, there is an edge.
  have hcall : ∀ rel, (true, rel) ∈ patches sections → ∀ callee ∈ g.funcs.entries,
      rel.target true = some callee.addr →
      (∃ caller ∈ g.funcs.entries, caller.Contains rel.offset) →
      ∃ caller ∈ g.funcs.entries, caller.Contains rel.offset ∧
        callee.addr ∈ (callGraph g data sections).callees caller.addr := by
    intro rel hrel callee hcallee ht hcaller
    obtain ⟨o, ho⟩ := Option.isSome_iff_exists.1 (h.inFunction _ hcaller)
    obtain ⟨e, he⟩ := startsAt_of_resolves h hcallee
    refine ⟨o, SymbolRanges.mem_of_owner ho, SymbolRanges.contains_of_owner ho, ?_⟩
    exact (mem_callees_callGraph hbare sections).2 (.inl ⟨_, hrel, rfl, _, o, e, ht, ho, rfl, he,
      (SymbolRanges.startsAt_eq_some.1 he).2⟩)
  refine ⟨?_, ?_⟩
  · rintro rel hrel t ht hcaller callee hcallee rfl
    exact hcall rel hrel callee hcallee ht hcaller
  · intro rel hrel t ht hcaller d hd hdt held hheld hdheld callee hcallee hcalleeHeld
    rcases h.inData d hd callee hcallee t held.offset hdt hdheld with
      rfl | ⟨hnone, x, y, hx, hy, hxy⟩
    · exact hcall rel hrel callee hcallee ht hcaller
    · obtain ⟨o, ho⟩ := Option.isSome_iff_exists.1 (h.inFunction _ hcaller)
      obtain ⟨e, he⟩ := startsAt_of_resolves h hcallee
      refine ⟨o, SymbolRanges.mem_of_owner ho, SymbolRanges.contains_of_owner ho, ?_⟩
      refine (mem_callees_callGraph hbare sections).2 (.inr ⟨x.addr, ⟨_, hrel, rfl, t, o, x, ht,
        ho, rfl, startsAt_eq_none hnone, hx, rfl⟩, _, hheld, rfl, callee.addr, y, e, hcalleeHeld,
        hy, hxy.symm, he, (SymbolRanges.startsAt_eq_some.1 he).2⟩)

/-- **No list of relocations loses a call edge exactly when the last symbol to start serves.** -/
theorem edgesKept_iff (funcs data : SymbolRanges) (fallbackFrames : FallbackFrames)
    (elfFlags : ℕ) :
    (∀ sections, EdgesKept { funcs, fallbackFrames, elfFlags } data sections) ↔
      Resolves funcs data := by
  have hbare : Graph.Bare { funcs, fallbackFrames, elfFlags } := ⟨fun _ => rfl, rfl, rfl⟩
  refine ⟨fun h => ?_, fun h sections => edgesKept_of_resolves hbare h sections⟩
  -- One call alone, or one read and one function whose address is held.
  have hfuncs : ∀ a, (∃ e ∈ funcs.entries, e.Contains a) → (funcs.owner a).isSome := by
    rintro a ⟨e, he, ha⟩
    obtain ⟨caller, -, -, hcall⟩ :=
      (h [.relocations true [⟨a, some e.addr, false, false, true⟩]]).calls
      ⟨a, some e.addr, false, false, true⟩ (by simp [patches]) e.addr rfl ⟨e, he, ha⟩ e he rfl
    rcases (mem_callees_callGraph hbare _).mp hcall with
      ⟨p, hp, -, t, o, -, -, ho, -⟩ | ⟨x, ⟨p, hp, -, t, o, -, -, ho, -⟩, -⟩
    all_goals
      obtain rfl : p = (true, ⟨a, some e.addr, false, false, true⟩) := by simpa [patches] using hp
      exact Option.isSome_iff_exists.mpr ⟨o, ho⟩
  refine ⟨hfuncs, fun d hd callee hcallee a b ha hb => ?_⟩
  by_cases hne : a = callee.addr
  · exact .inl hne
  have hself := Entry.contains_addr (funcs.sized callee hcallee)
  obtain ⟨caller, -, -, hcall⟩ := (h [.relocations true [⟨callee.addr, some a, false, false, true⟩],
      .relocations false [⟨b, some callee.addr, false, false, true⟩]]).escapes
    ⟨callee.addr, some a, false, false, true⟩ (by simp [patches]) a rfl ⟨callee, hcallee, hself⟩
    d hd ha ⟨b, some callee.addr, false, false, true⟩ (by simp [patches]) hb callee hcallee rfl
  rcases (mem_callees_callGraph hbare _).mp hcall with
    ⟨p, hp, htext, t, -, e, ht, -, -, he, heq⟩ |
      ⟨x, ⟨p, hp, htext, t, -, dx, ht, -, -, hnone, hdx, hx⟩,
        p', hp', htext', t', dy, -, ht', hdy, hy, -⟩
  · -- The call would be to `a`.
    rcases (by simpa [patches] using hp : _ ∨ _) with rfl | rfl
    · obtain rfl : a = t := by simpa [Relocation.target] using ht
      exact absurd ((SymbolRanges.startsAt_eq_some.mp he).2.symm.trans heq) hne
    · cases htext
  · rcases (by simpa [patches] using hp : _ ∨ _) with rfl | rfl
    · rcases (by simpa [patches] using hp' : _ ∨ _) with rfl | rfl
      · cases htext'
      · obtain rfl : a = t := by simpa [Relocation.target] using ht
        refine .inr ⟨fun e he hea => ?_, dx, dy, hdx, hdy, hx.trans hy.symm⟩
        obtain ⟨e', he'⟩ := Option.isSome_iff_exists.mp
          (hfuncs e.addr ⟨e, he, Entry.contains_addr (funcs.sized e he)⟩)
        have := SymbolRanges.startsAt_of_mem he he'
        rw [hea] at this
        exact absurd (this.symm.trans hnone) (by simp)
    · cases htext

/-! ## A function inside another -/

/-- A function at `0x100` with a local function at its address `0x110`, and one at `0x200`. -/
def nestedSymbols : List SymbolRef :=
  [⟨.Function, 0x100, 0x80, "kernel"⟩, ⟨.Function, 0x110, 0x10, "kernel_inner"⟩,
    ⟨.Function, 0x200, 0x40, "helper"⟩]

/-- Past the end of the local function, the outer one calls the third. -/
def nestedCall : Relocation := ⟨0x140, some 0x200, false, false, true⟩

theorem nested_loses : ¬ EdgesKept
    { funcs := collectRanges nestedSymbols .Function
      fallbackFrames := ⟨[], by simp⟩
      elfFlags := 2 }
    (collectRanges nestedSymbols .Data) [.relocations true [nestedCall]] := by
  intro h
  obtain ⟨caller, hcaller, hcontains, hcall⟩ := h.calls nestedCall (by simp [patches]) 0x200 rfl
    ⟨⟨0x100, 0x80, "kernel"⟩, by decide, by decide⟩ ⟨0x200, 0x40, "helper"⟩ (by decide) rfl
  revert hcall hcontains
  revert caller
  decide

end MlirAie.Stack
