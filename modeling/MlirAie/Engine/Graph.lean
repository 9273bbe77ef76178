import MlirAie.Lib.Drain

/-!
# The compilation graph

Edges are known by their position in the graph, which is the order they were declared in; a node is
known by the edge that produces it.

* `Graph`: the edges, each declared after the producers of the nodes it reads;
* `Graph.reachable`: the edges a run needs;
* **`Graph.reachable_closed`**: a reachable edge that is not restored has reachable inputs.
-/

namespace MlirAie.Engine

open MlirAie.Lib

/-- Map and bundle edges fan out, one task for each key; all others run as a whole. -/
inductive EdgeKind
  | map
  | bundleForEach
  | structural
deriving DecidableEq, Repr

/-- What the engine reads of an edge; `inputs` are the producers of its input nodes. -/
structure Edge where
  kind : EdgeKind
  isThreadSafe : Bool
  producesFiles : Bool
  inputs : List ℕ
deriving Repr

def Edge.isFanOut (e : Edge) : Bool := e.kind ≠ .structural

/-- A graph as it is declared: nodes are read after they are declared, and edges that fan out have
an input. -/
structure Graph where
  edges : List Edge
  acyclic : ∀ (u : ℕ) (e : Edge), edges[u]? = some e → ∀ v ∈ e.inputs, v < u
  fanOut_inputs : ∀ e ∈ edges, e.isFanOut = true → e.inputs ≠ []

namespace Graph

variable (g : Graph)

@[grind =] def inputs (u : ℕ) : List ℕ := (g.edges[u]?.map Edge.inputs).getD []

def fan (u : ℕ) : Bool := (g.edges[u]?.map Edge.isFanOut).getD false

def threadSafe (u : ℕ) : Bool := (g.edges[u]?.map Edge.isThreadSafe).getD false

/-- What the walk of `Engine::run` pushes; a restored edge is a leaf. -/
def needs (satisfied : ℕ → Bool) (u : ℕ) : List ℕ :=
  if satisfied u then [] else g.inputs u

/-- The walk backwards from the requested edges. -/
def reached (satisfied : ℕ → Bool) (roots : List ℕ) : List ℕ :=
  visit (g.needs satisfied)
    (roots.length + pending (g.needs satisfied) (List.range g.edges.length) []) roots.reverse []

def reachable (satisfied : ℕ → Bool) (roots : List ℕ) : List ℕ :=
  (List.range g.edges.length).filter (· ∈ g.reached satisfied roots)

variable {g} {satisfied : ℕ → Bool} {roots : List ℕ} {u v : ℕ}

theorem inputs_lt (h : v ∈ g.inputs u) : v < u := by
  unfold inputs at h
  cases he : g.edges[u]? with
  | none =>
    rw [he] at h
    exact absurd h List.not_mem_nil
  | some e =>
    rw [he] at h
    exact g.acyclic u e he v h

theorem inputs_ne_nil (h : g.fan u = true) : g.inputs u ≠ [] := by
  unfold fan at h
  unfold inputs
  cases he : g.edges[u]? with
  | none =>
    rw [he] at h
    cases h
  | some e =>
    rw [he] at h
    exact g.fanOut_inputs e (List.mem_of_getElem? he) h

theorem nodup_reachable : (g.reachable satisfied roots).Nodup := List.nodup_range.filter _

theorem reached_closed :
    (∀ u ∈ roots, u ∈ g.reached satisfied roots) ∧
      ∀ u ∈ g.reached satisfied roots, ∀ v ∈ g.needs satisfied u,
        v ∈ g.reached satisfied roots := by
  have hnext (x : ℕ) (hx : x ∉ List.range g.edges.length) : g.needs satisfied x = [] := by
    have hnone : g.edges[x]? = none :=
      List.getElem?_eq_none (not_lt.1 fun h => hx (List.mem_range.2 h))
    unfold needs inputs
    rw [hnone, ite_eq_left_iff]
    exact fun _ => rfl
  obtain ⟨hstack, _, hclosed⟩ := @visit_closed _ _ (g.needs satisfied) _ List.nodup_range
    hnext _ roots.reverse [] (by rw [List.length_reverse]) (List.forall_mem_nil _)
  exact ⟨fun u hu => hstack u (List.mem_reverse.2 hu), hclosed⟩

/-- **The producers that a reachable edge reads are reachable**, unless the edge is restored. -/
theorem reachable_closed (hu : u ∈ g.reachable satisfied roots) (hs : satisfied u = false)
    (hv : v ∈ g.inputs u) : v ∈ g.reachable satisfied roots := by
  unfold reachable at hu ⊢
  rw [List.mem_filter, List.mem_range, decide_eq_true_iff] at hu ⊢
  refine ⟨(inputs_lt hv).trans hu.1, reached_closed.2 u hu.2 v ?_⟩
  unfold needs
  rw [hs]
  exact hv

end Graph

end MlirAie.Engine
