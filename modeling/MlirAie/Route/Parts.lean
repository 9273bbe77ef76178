import MlirAie.Lib.Worklist
import MlirAie.Route.Port

/-!
# The parts of a packet source

The router routes one tree for each source, and splits a tree into parts when the packets of a
source have to leave a switchbox by different ports: a part carries some of the ids its source
sends, to the destinations that take any of them.

* `RouteState`: the parts, and what is kept for each of them;
* `splitPart`: some ids of a part become a part of their own;
* `applyRoutingFaults`: what the faults of a routing split.
-/

namespace MlirAie.Route

open Lib

/-! ## The flows -/

/-- A flow from one port; its group is -1 for a circuit flow. -/
structure Flow where
  packetGroupId : ℤ
  isPriorityFlow : Bool
  src : PhysPort
  dsts : List PhysPort
  packetId : Option ℕ
deriving DecidableEq, Repr

/-- The router's flows, and the packet ids each source sends each destination. -/
structure Pathfinder where
  prioritize : Bool := false
  pinned : Finset PhysPort := ∅
  nodes : Finset PhysPort := ∅
  shareChannels : Bool := false
  idsApart : Bool := false
  splitShared : Bool := false
  flows : List Flow := []
  packetIdsTo : List (PhysPort × PhysPort × ℕ) := []
  priorityIds : PhysPort → Finset ℕ := fun _ => ∅

def PhysPort.key (p : PhysPort) : ℕ ×ₗ ℕ ×ₗ Port := toLex (p.tile.col, toLex (p.tile.row, p.port))

/-- A source has one flow, with all its destinations. -/
def addDst (src dst : PhysPort) (packetId : Option ℕ) (isPriorityFlow : Bool) :
    List Flow → List Flow
  | [] => [⟨if packetId.isSome then 0 else -1, isPriorityFlow, src, [dst], packetId⟩]
  | f :: fs =>
    if f.src = src then
      (if isPriorityFlow then { f with isPriorityFlow := true, dsts := dst :: f.dsts }
       else { f with dsts := f.dsts ++ [dst] }) :: fs
    else f :: addDst src dst packetId isPriorityFlow fs

/-- The classes of `a` and `b` become one, led by the smaller leader. -/
def joinGroups (leader : ℕ → ℕ) (a b k : ℕ) : ℕ :=
  if leader k = leader a ∨ leader k = leader b then min (leader a) (leader b) else leader k

/-- Packet flows to a common destination are in one class. -/
def groupLeaders (flows : List Flow) : ℕ → ℕ :=
  (flows.zipIdx.foldl (fun s f =>
    if f.1.packetGroupId < 0 then s
    else f.1.dsts.foldl (fun s dst =>
      match s.2.lookup dst with
      | none => (s.1, (dst, f.2) :: s.2)
      | some first => (joinGroups s.1 f.2 first, s.2)) s)
    ((fun k => k), ([] : List (PhysPort × ℕ)))).1

/-- The packet flows' groups, numbered in order, or one group of them all. -/
def regroup (shareChannels : Bool) (flows : List Flow) : List Flow :=
  let leader := groupLeaders flows
  let groups := appendNew [] ((flows.zipIdx.filter fun f => decide (0 ≤ f.1.packetGroupId)).map
    fun f => leader f.2)
  flows.zipIdx.map fun f =>
    if f.1.packetGroupId < 0 then f.1
    else { f.1 with packetGroupId := if shareChannels then 0 else groups.idxOf (leader f.2) }

def Flow.sortDsts (f : Flow) : Flow :=
  { f with dsts := f.dsts.insertionSort fun a b => a.key ≤ b.key }

/-- Prioritized flows go first, and circuit flows last. -/
def Flow.rank (f : Flow) : ℕ :=
  if f.isPriorityFlow then 0 else if 0 ≤ f.packetGroupId then 1 else 2

/-- A flow as it is declared: from one port to another, with an id if it carries packets. -/
structure FlowCall where
  src : PhysPort
  dst : PhysPort
  packetId : Option ℕ
  isPriorityFlow : Bool := false
deriving DecidableEq, Repr

namespace Pathfinder

variable (pf : Pathfinder)

def addFlow (c : FlowCall) : Pathfinder :=
  let isPriorityFlow := c.isPriorityFlow && (pf.prioritize || decide (c.src ∈ pf.pinned))
  { pf with
    flows := addDst c.src c.dst c.packetId isPriorityFlow pf.flows
    packetIdsTo := c.packetId.elim pf.packetIdsTo fun id =>
      appendNew pf.packetIdsTo [(c.src, c.dst, id)]
    priorityIds := c.packetId.elim pf.priorityIds fun id =>
      if isPriorityFlow then Function.update pf.priorityIds c.src (insert id (pf.priorityIds c.src))
      else pf.priorityIds }

def sortFlows : Pathfinder :=
  { pf with
    flows := (regroup pf.shareChannels (pf.flows.map Flow.sortDsts)).insertionSort fun f g =>
      toLex (f.rank, f.src.key) ≤ toLex (g.rank, g.src.key) }

/-- No flows yet. -/
def empty : Pathfinder := { pf with flows := [], packetIdsTo := [], priorityIds := fun _ => ∅ }

/-- The flows of a device, added in order and sorted. -/
def withFlows (calls : List FlowCall) : Pathfinder := (calls.foldl addFlow pf.empty).sortFlows

def idsFrom (src : PhysPort) : Finset ℕ :=
  ((pf.packetIdsTo.filter fun t => t.1 = src).map fun t => t.2.2).toFinset

/-- The destinations a source sends some of the ids to. -/
def dstsOf (src : PhysPort) (ids : Finset ℕ) : Finset PhysPort :=
  ((pf.packetIdsTo.filter fun t => t.1 = src ∧ t.2.2 ∈ ids).map fun t => t.2.1).toFinset

def isPinned (f : Flow) : Bool := f.isPriorityFlow && decide (f.src ∈ pf.pinned)

def groupOf (f : Flow) : ℤ := if pf.isPinned f then -2 ^ 31 else f.packetGroupId

/-- The ids of a pinned source that do not go everywhere the pinned tree goes. -/
def pinnedOthers (src : PhysPort) : Finset ℕ :=
  (pf.idsFrom src).filter fun id =>
    id ∉ pf.priorityIds src ∧ pf.dstsOf src {id} ≠ pf.dstsOf src (pf.priorityIds src)

end Pathfinder

/-! ## The parts -/

/-- The packets of a source that route together, and the ids they carry. -/
structure Part where
  flow : Flow
  ids : Finset ℕ
deriving DecidableEq

/-- Where a part's tree was split: the tile it branches at, the ids to branch apart there, and the
destination that reaches the tile apart, if one does. -/
structure IdSplit where
  tile : TileID
  a : ℕ
  b : ℕ
  apart : Option PhysPort
deriving DecidableEq

/-- What the router keeps from one iteration to the next. -/
structure RouteState where
  parts : List Part
  partsOf : PhysPort → List ℕ
  groupedFlows : List (ℤ × List ℕ)
  splitsOf : List (Finset IdSplit)
  partSplits : List (Finset (TileID × ℕ))
  noJoin : Finset (ℕ × ℕ) := ∅
  apartSources : Finset (PhysPort × PhysPort) := ∅
  togetherSources : Finset (PhysPort × PhysPort) := ∅
  untrunked : Finset PhysPort := ∅
  crowdedTiles : Finset TileID := ∅

/-- Adds a part to its group, a new group last. -/
def pushGroup (group : ℤ) (part : ℕ) : List (ℤ × List ℕ) → List (ℤ × List ℕ)
  | [] => [(group, [part])]
  | g :: gs => if g.1 = group then (g.1, g.2 ++ [part]) :: gs else g :: pushGroup group part gs

def firstId (ids : Finset ℕ) : Option ℕ := if h : ids.Nonempty then some (ids.min' h) else none

namespace Pathfinder

variable (pf : Pathfinder)

/-- A flow of its source, with the destinations and the priority the ids give it. -/
def carrying (f : Flow) (ids : Finset ℕ) (packetId : Option ℕ) : Flow :=
  { f with
    dsts := f.dsts.filter fun dst => pf.packetIdsTo.any fun t =>
      t.1 = f.src && t.2.1 = dst && decide (t.2.2 ∈ ids)
    packetId := packetId
    isPriorityFlow := decide (ids ∩ pf.priorityIds f.src).Nonempty }

/-- The packets of part `flow` with the ids become a part of their own, the last one. -/
def splitPart (st : RouteState) (flow : ℕ) (ids : Finset ℕ) : RouteState :=
  match st.parts[flow]? with
  | none => st
  | some p =>
    let part := st.parts.length
    let rest := p.ids \ ids
    let new := pf.carrying p.flow ids (firstId ids)
    let kept := pf.carrying p.flow rest
      (if p.flow.packetId.any (· ∈ ids) then firstId rest else p.flow.packetId)
    let splits := st.splitsOf.getD flow ∅
    let own := st.partSplits.getD flow ∅
    let crossing := splits.filter fun s =>
      decide (s.a ∈ ids) ≠ decide (s.b ∈ ids) ∧ (if s.a ∈ ids then s.b else s.a) ∈ rest
    let partSplits := (st.partSplits ++ [own]).mapIdx fun k s =>
      s ∪ (own.filter fun x => x.2 = k).image fun x => (x.1, part)
    { st with
      parts := st.parts.set flow ⟨kept, rest⟩ ++ [⟨new, ids⟩]
      partsOf := Function.update st.partsOf p.flow.src (st.partsOf p.flow.src ++ [part])
      groupedFlows := pushGroup (pf.groupOf new) part st.groupedFlows
      noJoin := st.noJoin ∪ (st.noJoin.filter fun x => x.1 = flow ∨ x.2 = flow).image fun x =>
        (if x.1 = flow then part else x.1, if x.2 = flow then part else x.2)
      splitsOf := st.splitsOf ++ [splits]
      partSplits :=
        (partSplits.modify flow fun s => s ∪ crossing.image fun x => (x.tile, part)).modify part
          fun s => s ∪ crossing.image fun x => (x.tile, flow) }

/-- The state before the first split: one part for each flow, with the ids its source sends. -/
def unsplit : RouteState where
  parts := pf.flows.zipIdx.map fun f =>
    ⟨f.1, if pf.flows.findIdx (fun g => g.src = f.1.src) = f.2 then pf.idsFrom f.1.src else ∅⟩
  partsOf src := (pf.flows.zipIdx.filter fun f => f.1.src = src).map Prod.snd
  groupedFlows := pf.flows.zipIdx.foldl (fun gs f => pushGroup (pf.groupOf f.1) f.2 gs) []
  splitsOf := pf.flows.map fun _ => ∅
  partSplits := pf.flows.map fun _ => ∅

def splitPinned (st : RouteState) (k : ℕ) : RouteState :=
  match st.parts[k]? with
  | none => st
  | some p =>
    if pf.isPinned p.flow ∧ (pf.pinnedOthers p.flow.src).Nonempty then
      pf.splitPart st k (pf.pinnedOthers p.flow.src)
    else st

/-- **The state routing starts in.** -/
def routeState : RouteState := (List.range pf.flows.length).foldl pf.splitPinned pf.unsplit

end Pathfinder

/-! ## Routing faults -/

inductive PortSide
  | In
  | Out
deriving DecidableEq, Repr

/-- The states of a tree, each with the one it is reached from. -/
abbrev Tree := List ((PhysPort × PortSide) × (PhysPort × PortSide))

def Tree.entersAbove (tree : Tree) (tile : TileID) : ℕ → PhysPort × PortSide → Bool
  | 0, _ => false
  | n + 1, s =>
    match tree.lookup s with
    | none => false
    | some up => (up.2 = .In && up.1.tile = tile) || Tree.entersAbove tree tile n up

/-- Packets of one source share a master port on a tile: two ids, unless a destination is to be
reached apart. -/
structure TreeSplit where
  src : PhysPort
  tile : TileID
  a : ℕ
  b : ℕ
  apart : Option PhysPort
  distinct : apart = none → a ≠ b

/-- What makes a routing unusable, as far as parts are concerned. -/
structure RoutingFaults where
  splits : List TreeSplit := []
  crowded : List TileID := []
  apart : List (PhysPort × PhysPort) := []
  together : List (PhysPort × PhysPort) := []
  untrunk : List PhysPort := []

namespace RouteState

variable (st : RouteState)

/-- The first part of a source that carries the id. -/
def partWith (src : PhysPort) (id : ℕ) : Option ℕ :=
  (st.partsOf src).find? fun k => (st.parts[k]?).any fun p => id ∈ p.ids

/-- The ids the parts of a source carry. -/
def carriedFrom (src : PhysPort) : Finset ℕ :=
  (st.partsOf src).foldl (fun ids k => ids ∪ ((st.parts[k]?).map Part.ids).getD ∅) ∅

end RouteState

namespace Pathfinder

variable (pf : Pathfinder)

/-- Whether a destination that takes both ids is reached through the tile. -/
def inseparable (split : TreeSplit) (f : Flow) (tree : Tree) : Bool :=
  f.dsts.any fun dst =>
    decide ((f.src, dst, split.a) ∈ pf.packetIdsTo) &&
      decide ((f.src, dst, split.b) ∈ pf.packetIdsTo) &&
        (((tree.lookup (dst, .Out)).isNone && dst = f.src && dst.tile = split.tile) ||
          tree.entersAbove split.tile tree.length (dst, .Out))

/-- One tree split, and the illegal edges counted. -/
def applySplit (treeOf : ℕ → Tree) (s : RouteState × ℕ) (split : TreeSplit) : RouteState × ℕ :=
  let st := s.1
  match st.partWith split.src split.a, st.partWith split.src split.b with
  | some flow, some other =>
    if split.apart.any (· ∉ pf.nodes) then s
    else
      match st.parts[flow]? with
      | none => s
      | some p =>
        let split? := pf.idsApart && flow = other && split.apart.isNone && !p.flow.isPriorityFlow &&
          pf.inseparable split p.flow (treeOf flow)
        let st' := if split? then pf.splitPart st flow {split.b} else st
        let other := if split? then st.parts.length else other
        if flow ≠ other then
          ({ st' with
              partSplits := (st'.partSplits.modify flow (insert (split.tile, other))).modify other
                (insert (split.tile, flow)) },
            s.2 + if (split.tile, other) ∈ st'.partSplits.getD flow ∅ then 0 else 1)
        else
          let x : IdSplit := ⟨split.tile, split.a, split.b, split.apart⟩
          ({ st' with splitsOf := st'.splitsOf.modify flow (insert x) },
            s.2 + if x ∈ st'.splitsOf.getD flow ∅ then 0 else 1)
  | _, _ => s

/-- The ids of part `k` that the other source does not send become a part of their own. -/
def splitOwn (otherIds : Finset ℕ) (st : RouteState) (k : ℕ) : RouteState :=
  match st.parts[k]? with
  | none => st
  | some p =>
    let own := p.ids \ otherIds
    if !p.flow.isPriorityFlow && decide own.Nonempty && decide (own.card < p.ids.card) then
      pf.splitPart st k own
    else st

def splitOwnIds (st : RouteState) (pair : PhysPort × PhysPort) : RouteState :=
  [pair, pair.swap].foldl (fun st p =>
    if st.partsOf p.1 = [] ∨ st.partsOf p.2 = [] then st
    else (st.partsOf p.1).foldl (pf.splitOwn (st.carriedFrom p.2)) st) st

def applyApart (s : RouteState × Bool) (pair : PhysPort × PhysPort) : RouteState × Bool :=
  if pair ∈ s.1.apartSources then s
  else
    let st := { s.1 with apartSources := insert pair s.1.apartSources }
    (if pf.splitShared then pf.splitOwnIds st pair else st, true)

def applyTogether (s : RouteState × Bool) (pair : PhysPort × PhysPort) : RouteState × Bool :=
  if pair ∈ s.1.togetherSources then s
  else
    let st := { s.1 with togetherSources := insert pair s.1.togetherSources }
    (pf.splitOwnIds st pair, true)

def applyUntrunk (s : RouteState × ℕ) (src : PhysPort) : RouteState × ℕ :=
  if src ∈ s.1.untrunked then s
  else ({ s.1 with untrunked := insert src s.1.untrunked }, s.2 + 1)

/-- **The state after the faults of a routing**, whose trees are `treeOf`, and the illegal edges
they count as. -/
def applyRoutingFaults (treeOf : ℕ → Tree) (st : RouteState) (faults : RoutingFaults) :
    RouteState × ℕ :=
  let s := faults.splits.foldl (pf.applySplit treeOf) (st, 0)
  let st := { s.1 with crowdedTiles := s.1.crowdedTiles ∪ faults.crowded.toFinset }
  let r := faults.together.foldl pf.applyTogether (faults.apart.foldl pf.applyApart (st, false))
  faults.untrunk.foldl applyUntrunk (r.1, s.2 + if r.2 then 1 else 0)

end Pathfinder

end MlirAie.Route
