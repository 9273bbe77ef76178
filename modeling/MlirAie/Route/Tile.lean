import MlirAie.Route.ArbiterSound

/-!
# Planning the arbiters of a tile

The flows of the control overlay are planned first: where the packet rules they take alone are
pinned, they keep those if the design lets them. The other flows are planned around them, and if
that fails those tied to the overlay's master ports are planned together with it.

* `PacketFlowRouting`: what the planning reads of a routing;
* `SearchFacts`: what the search for hold cycles has learnt;
* `PacketFlowRouting.around`: the other flows, around a plan.
-/

namespace MlirAie.Route

open Lib

/-- A packet rule of the overlay: the ids it matches, and the amsel they take. -/
structure OverlayRule where
  mask : ℕ
  value : ℕ
  amsel : ℕ
deriving DecidableEq, Repr

def OverlayRule.selects (r : OverlayRule) (id : ℕ) : Bool := id &&& r.mask == r.value &&& r.mask

/-- Flows to keep on different arbiters, and flows to keep off an arbiter. -/
structure SearchFacts where
  apart : Finset (TileID × FlowKey × FlowKey) := ∅
  offArbiter : Finset (TileID × FlowKey × ℕ) := ∅

def SearchFacts.excluded (facts : SearchFacts) (t : TileID) (f : SlaveFlow) (arbiter : ℕ) : Bool :=
  (t, f.key, arbiter) ∈ facts.offArbiter

/-- What the planning reads of a routing: the target's arbiters, the streams and the packets each
slave flow carries of them, the overlay's pinned rules, the amsels the switchboxes take already,
and the slave flows of each tile, in order. -/
structure PacketFlowRouting where
  numArbiters : ℕ
  numMselsPerArbiter : ℕ
  isShimNOCTile : TileID → Bool
  conflicts : StreamConflicts
  slaveFlowStreams : TileID → FlowKey → List ℕ
  pinnedRules : List (PhysPort × List OverlayRule)
  keepOverlay : Bool
  reservedAmsels : TileID → Finset ℕ
  tileFlows : TileID → List SlaveFlow
  flowsSorted : ∀ t, ((tileFlows t).map SlaveFlow.key).Pairwise (· < ·)

/-- The other flows as they are planned around a plan: the plan, the flows it places, those left,
and the pairs in the way. -/
structure AroundState where
  plan : ArbiterPlan
  placed : List SlaveFlow
  rest : List SlaveFlow := []
  blocking : List (SlaveFlow × SlaveFlow) := []

namespace ArbiterPlan

def amsel (plan : ArbiterPlan) (f : SlaveFlow) : ℕ := plan.slaveAmsels.getD f.key 0

def takeSlave (plan : ArbiterPlan) (f : SlaveFlow) (x : ℕ) : ArbiterPlan :=
  { plan with slaveAmsels := plan.slaveAmsels.insert f.key x }

/-- The first amsel that selects a flow's masters. -/
def sameMasters (plan : ArbiterPlan) (f : SlaveFlow) : Option ℕ :=
  (plan.amselMasters.toList.find? fun e => e.2 = f.masters).map Prod.fst

/-- What the first plan has not, from the second. -/
def insert (plan rested : ArbiterPlan) : ArbiterPlan where
  slaveAmsels := rested.slaveAmsels ∪ plan.slaveAmsels
  amselMasters := rested.amselMasters ∪ plan.amselMasters

end ArbiterPlan

namespace PacketFlowRouting

variable (R : PacketFlowRouting) (facts : SearchFacts) (t : TileID)

/-- The first streams of two slave flows that can deadlock. -/
def conflictingStreams (f g : SlaveFlow) : Option (ℕ × ℕ) :=
  (R.slaveFlowStreams t f.key).findSome? fun s =>
    ((R.slaveFlowStreams t g.key).find? fun s' => R.conflicts.conflict s s').map (s, ·)

def conflict (f g : SlaveFlow) : Bool :=
  decide ((t, min f.key g.key, max f.key g.key) ∈ facts.apart) ||
    (R.conflictingStreams t f g).isSome

/-- What a plan for some of a tile's flows is asked for. -/
def problem (flows : List SlaveFlow) : ArbiterProblem where
  numArbiters := R.numArbiters
  numMselsPerArbiter := R.numMselsPerArbiter
  flows := flows
  conflict := R.conflict facts t
  excluded := facts.excluded t
  reservedAmsels := R.reservedAmsels t

def overlay : List SlaveFlow := (R.tileFlows t).filter SlaveFlow.isCtrlPkt

def others : List SlaveFlow := (R.tileFlows t).filter fun f => !f.isCtrlPkt

/-- The port the overlay's rules name a flow's slave port by: for a shim DMA, the mux port it
enters by. -/
def overlaySlave (f : SlaveFlow) : PhysPort :=
  if f.slave.bundle = .DMA ∧ R.isShimNOCTile t then ⟨t, .South, shimMuxChannelFrom f.slave⟩
  else ⟨t, f.slave⟩

def overlayRule (f : SlaveFlow) : Option OverlayRule :=
  ((R.pinnedRules.lookup (R.overlaySlave t f)).getD []).find? fun r => r.selects f.id

/-- How a message on an overlay flow that cannot keep its amsel starts. -/
def unkept (f : SlaveFlow) : String :=
  "packet flow " ++ toString f.id ++ " into " ++ describePort f.slave ++ " "

/-- The amsel as the messages name it. -/
def describeAmsel (amsel : ℕ) : String :=
  "amsel<" ++ toString (amsel % R.numArbiters) ++ "> (" ++ toString (amsel / R.numArbiters) ++ ")"

def keepFlow (kept : ArbiterPlan) (f : SlaveFlow) : Except String ArbiterPlan :=
  match R.overlayRule t f with
  | none => .error (unkept f ++ "takes no packet rule there alone.")
  | some rule =>
    if facts.excluded t f (rule.amsel % R.numArbiters) then
      .error (unkept f ++ "takes arbiter " ++ toString (rule.amsel % R.numArbiters) ++
        " alone, and here can deadlock holding it.")
    else if rule.amsel ∈ R.reservedAmsels t then
      .error (unkept f ++ "takes " ++ R.describeAmsel rule.amsel ++
        " alone, and the design's own switchbox takes it.")
    else if kept.amselMasters.getD rule.amsel f.masters ≠ f.masters then
      .error (unkept f ++ "takes " ++ R.describeAmsel rule.amsel ++
        " alone, to other master ports than here.")
    else .ok
      { slaveAmsels := kept.slaveAmsels.insert f.key rule.amsel
        amselMasters := kept.amselMasters.insertIfNew rule.amsel f.masters }

/-- Flows a plan has on one arbiter that can deadlock on it. -/
def shareArbiter (plan : ArbiterPlan) (f g : SlaveFlow) : Bool :=
  plan.amsel f % R.numArbiters = plan.amsel g % R.numArbiters && f.slave != g.slave &&
    R.conflict facts t f g

/-- The first flows of the overlay that can deadlock on an arbiter they share. -/
def sharedPinned (kept : ArbiterPlan) : Option (SlaveFlow × SlaveFlow) :=
  (pairs (R.overlay t)).find? fun p => R.shareArbiter facts t kept p.1 p.2

def keepPinned : Except String ArbiterPlan := do
  let kept ← (R.overlay t).foldlM (R.keepFlow facts t) {}
  match R.sharedPinned facts t kept with
  | none => .ok kept
  | some p => .error (unkept p.1 ++ "and packet flow " ++ toString p.2.id ++ " into " ++
      describePort p.2.slave ++ " share an arbiter alone, and here can deadlock on it.")

/-- A flow that leaves by the master ports of one of the plan's amsels takes that amsel. -/
def takeSame (planned : List SlaveFlow) (s : AroundState) (f : SlaveFlow) : AroundState :=
  match s.plan.sameMasters f with
  | none => { s with rest := s.rest ++ [f] }
  | some x =>
    let arbiter := x % R.numArbiters
    { plan := s.plan.takeSlave f x
      placed := s.placed ++ [f]
      rest := s.rest
      blocking := s.blocking ++
        (s.placed.filter fun g => s.plan.amsel g % R.numArbiters = arbiter &&
          g.slave != f.slave && R.conflict facts t f g).map (·, f) ++
        if facts.excluded t f arbiter then [(planned.headD f, f)] else [] }

/-- The arbiters the plan has tied a class of master ports to. -/
def tiedArbiters (plan : ArbiterPlan) (leader : Port) : Finset ℕ :=
  ((plan.amselMasters.toList.filter fun e =>
    tiedMasters (R.tileFlows t) e.2.headI = leader).map fun e => e.1 % R.numArbiters).toFinset

/-- The arbiters the flows left must not take. -/
def excludedAround (s : AroundState) (f : SlaveFlow) (arbiter : ℕ) : Bool :=
  let arbiters := R.tiedArbiters t s.plan (tiedMasters (R.tileFlows t) f.front)
  facts.excluded t f arbiter ||
    decide (arbiters ≠ ∅ ∧ (arbiters.card > 1 ∨ arbiter ∉ arbiters)) ||
    s.placed.any fun g => s.plan.amsel g % R.numArbiters = arbiter && g.slave != f.slave &&
      R.conflict facts t f g

/-- What a plan for the flows left is asked for. -/
def restProblem (s : AroundState) : ArbiterProblem where
  numArbiters := R.numArbiters
  numMselsPerArbiter := R.numMselsPerArbiter
  flows := s.rest
  conflict := R.conflict facts t
  excluded := R.excludedAround facts t s
  reservedAmsels := R.reservedAmsels t ∪ s.plan.amselMasters.keys.toFinset

def around (plan : ArbiterPlan) (planned pending : List SlaveFlow) :
    Except (List (SlaveFlow × SlaveFlow)) ArbiterPlan :=
  let s := pending.foldl (R.takeSame facts t planned) { plan, placed := planned }
  if s.blocking ≠ [] then .error s.blocking
  else if s.rest = [] then .ok s.plan
  else
    match planArbiters (R.restProblem facts t s) with
    | .ok rested => .ok (s.plan.insert rested)
    | .error stuck => .error (stuck ++ s.rest.flatMap fun f =>
        (s.placed.filter fun g => g.slave != f.slave && R.conflict facts t f g).map (·, f))

/-- The overlay's pinned plan, where there is one and it fits. -/
def pinnedPlan : Option ArbiterPlan :=
  if R.pinnedRules = [] then none else (R.keepPinned facts t).toOption

def tiedToOverlay (f : SlaveFlow) : Bool :=
  (R.overlay t).any fun g =>
    tiedMasters (R.tileFlows t) g.front = tiedMasters (R.tileFlows t) f.front

/-- The others planned around the overlay's plan, or those tied to it together with it. -/
def planOthers (plan : ArbiterPlan) : Except (List (SlaveFlow × SlaveFlow)) ArbiterPlan :=
  match R.around facts t plan (R.overlay t) (R.others t) with
  | .ok placed => .ok placed
  | .error first =>
    if R.keepOverlay then .error first
    else
      let tied := (R.others t).filter (R.tiedToOverlay t)
      let rest := (R.others t).filter fun f => !R.tiedToOverlay t f
      if tied = [] then .error first
      else
        match planArbiters (R.problem facts t (R.overlay t ++ tied)) with
        | .ok together => R.around facts t together (R.overlay t ++ tied) rest
        | .error _ => .error first

/-- The overlay's plan, with the others where there are any. -/
def planRest (plan : ArbiterPlan) : Except (List (SlaveFlow × SlaveFlow)) ArbiterPlan :=
  if R.others t = [] then .ok plan else R.planOthers facts t plan

/-- The plan of a tile, or the pairs of flows that stood in its way. -/
def planTile : Except (List (SlaveFlow × SlaveFlow)) ArbiterPlan :=
  if R.overlay t = [] ∨ (R.others t = [] ∧ R.pinnedRules = []) then
    planArbiters (R.problem facts t (R.tileFlows t))
  else
    match R.pinnedPlan facts t with
    | some plan => R.planRest facts t plan
    | none =>
      if R.keepOverlay then .error []
      else
        match planArbiters (R.problem facts t (R.overlay t)) with
        | .ok plan => R.planRest facts t plan
        | .error stuck => .error stuck

/-- Why the overlay cannot keep its amsels at the tile, as planning it notes. -/
def unkeptOverlay : Option String :=
  if R.overlay t = [] ∨ R.pinnedRules = [] then none
  else
    match R.keepPinned facts t with
    | .ok _ => none
    | .error reason => some reason

end PacketFlowRouting

end MlirAie.Route
