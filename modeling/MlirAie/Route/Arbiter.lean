import MlirAie.Lib.Worklist
import MlirAie.Lib.Backtrack
import MlirAie.Route.Port

/-!
# Planning the arbiters of a switchbox

An arbiter takes one packet at a time, so flows that can deadlock must not share one; and a master
port is tied to one arbiter, so the master ports a flow leaves by take that flow's. The master ports
linked that way form a unit, each master set in a unit takes an msel, and units are placed on
arbiters by backtracking.

* `tiedMasters`: the master ports the flows tie to one arbiter;
* `ArbiterProblem`: what a plan is asked for;
* `ArbiterProblem.assignAmsels`: the amsels, read off the arbiters.
-/

namespace MlirAie.Route

open Lib

def maxSearchSteps : ℕ := 100000

/-- Joins the classes of `a` and `b`, by the leaders of the classes: the leader of `a` stays. -/
def unionSets (leader : Port → Port) (a b : Port) : Port → Port := fun p =>
  if leader p = leader b then leader a else leader p

/-- The master ports the flows tie to one arbiter, each with the leader of its class. -/
def tiedMasters (flows : List SlaveFlow) : Port → Port :=
  flows.foldl (fun tied f => f.masters.foldl (fun tied m => unionSets tied f.front m) tied) id

def pairs {α : Type*} : List α → List (α × α)
  | [] => []
  | a :: l => l.map (a, ·) ++ pairs l

/-- Flows whose master ports are linked, by the leader of the master ports. -/
structure FlowUnit where
  leader : Port
  flows : List SlaveFlow
  masterSets : List (List Port)
  isCtrlPkt : Bool

/-- The arbiter of each unit placed so far, and the msels taken on each arbiter. -/
structure Placement where
  arbiterOf : Port → Option ℕ := fun _ => none
  load : ℕ → ℕ := fun _ => 0

namespace Placement

def assign (s : Placement) (u : FlowUnit) (a : ℕ) : Placement where
  arbiterOf := Function.update s.arbiterOf u.leader (some a)
  load := Function.update s.load a (s.load a + u.masterSets.length)

def unassign (s : Placement) (u : FlowUnit) (a : ℕ) : Placement where
  arbiterOf := Function.update s.arbiterOf u.leader none
  load := Function.update s.load a (s.load a - u.masterSets.length)

variable {s : Placement} {u : FlowUnit} {a : ℕ}

@[simp] theorem assign_arbiterOf_self : (s.assign u a).arbiterOf u.leader = some a :=
  Function.update_self ..

theorem assign_arbiterOf_of_ne {p : Port} (h : p ≠ u.leader) :
    (s.assign u a).arbiterOf p = s.arbiterOf p :=
  Function.update_of_ne h ..

@[simp] theorem assign_load_self : (s.assign u a).load a = s.load a + u.masterSets.length :=
  Function.update_self ..

theorem assign_load_of_ne {b : ℕ} (h : b ≠ a) : (s.assign u a).load b = s.load b :=
  Function.update_of_ne h ..

theorem unassign_assign (h : s.arbiterOf u.leader = none) (a : ℕ) :
    (s.assign u a).unassign u a = s := by
  obtain ⟨arbiterOf, load⟩ := s
  rw [unassign, assign_load_self, Nat.add_sub_cancel, mk.injEq, assign]
  constructor
  · rw [Function.update_idem, ← h, Function.update_eq_self]
  · rw [Function.update_idem, Function.update_eq_self]

end Placement

/-- The plan as its amsels are handed out, and the msels used of each arbiter from either end. -/
structure AmselState where
  plan : ArbiterPlan := {}
  low : ℕ → ℕ := fun _ => 0
  high : ℕ → ℕ := fun _ => 0
  setAmsel : List Port → ℕ := fun _ => 0

/-- What a plan is asked for: the flows, which of them can deadlock, the arbiters each must not
take, and the amsels that are taken. -/
structure ArbiterProblem where
  numArbiters : ℕ
  numMselsPerArbiter : ℕ
  flows : List SlaveFlow
  conflict : SlaveFlow → SlaveFlow → Bool
  excluded : SlaveFlow → ℕ → Bool
  reservedAmsels : Finset ℕ

namespace ArbiterProblem

variable (P : ArbiterProblem)

def amselOf (arbiter msel : ℕ) : ℕ := arbiter + msel * P.numArbiters

def unitOf (f : SlaveFlow) : Port := tiedMasters P.flows f.front

/-- The unit with a leader: its master sets in order of appearance, but those of control packets
first, and in order. -/
def unit (leader : Port) : FlowUnit :=
  let flows := P.flows.filter fun f => P.unitOf f = leader
  let sets := appendNew [] (flows.map SlaveFlow.masters)
  let isCtrl := fun masters => flows.any fun f => f.isCtrlPkt && decide (f.masters = masters)
  { leader, flows
    masterSets := (sets.filter isCtrl).insertionSort (· ≤ ·) ++ sets.filter fun s => !isCtrl s
    isCtrlPkt := flows.any SlaveFlow.isCtrlPkt }

def units : List FlowUnit := (appendNew [] (P.flows.map P.unitOf)).map P.unit

/-- Flows that must not share an arbiter: those from one port take turns there anyway. -/
def clash (a b : SlaveFlow) : Bool := a.slave != b.slave && P.conflict a b

/-- The pairs that clash within a unit, so whatever the arbiters. -/
def tiedClashes : List (SlaveFlow × SlaveFlow) :=
  P.units.flatMap fun u => (pairs u.flows).filter fun p => P.clash p.1 p.2

def crossPairs : List (SlaveFlow × SlaveFlow) :=
  (pairs P.flows).filter fun p => P.unitOf p.1 != P.unitOf p.2 && P.clash p.1 p.2

/-- The units that must not share an arbiter with a unit. -/
def neighbors (u : Port) : List Port :=
  (P.units.map FlowUnit.leader).filter fun v => P.crossPairs.any fun p =>
    (P.unitOf p.1 = u && P.unitOf p.2 = v) || (P.unitOf p.1 = v && P.unitOf p.2 = u)

def freeMsels (a : ℕ) : List ℕ :=
  (List.range P.numMselsPerArbiter).filter fun m => P.amselOf a m ∉ P.reservedAmsels

def excludedUnits (a : ℕ) : List Port :=
  appendNew [] ((P.flows.filter fun f => P.excluded f a).map P.unitOf)

def mostFree : ℕ :=
  (List.range P.numArbiters).foldl (fun most a => max most (P.freeMsels a).length) 0

/-- Most constrained first. -/
def order : List FlowUnit :=
  P.units.insertionSort fun u v =>
    toLex ((P.neighbors v.leader).length, v.masterSets.length) ≤
      toLex ((P.neighbors u.leader).length, u.masterSets.length)

/-- The arbiters a unit tries: control packets from the last on, the others the least used
first. -/
def candidates (s : Placement) (u : FlowUnit) : List ℕ :=
  if u.isCtrlPkt then (List.range P.numArbiters).reverse
  else (List.range P.numArbiters).insertionSort fun a b =>
    s.load a + P.numMselsPerArbiter - (P.freeMsels a).length ≤
      s.load b + P.numMselsPerArbiter - (P.freeMsels b).length

def emptyKind (a : ℕ) : ℕ × List Port := ((P.freeMsels a).length, P.excludedUnits a)

/-- The kinds of empty arbiter tried, now that `a` is. -/
def noteTried (s : Placement) (a : ℕ) (tried : List (ℕ × List Port)) : List (ℕ × List Port) :=
  if s.load a = 0 then P.emptyKind a :: tried else tried

/-- Puts `u` on `a` and goes on with `next`, undoing it if that fails. -/
def attempt (next : Placement → ℕ → Outcome Placement ℕ) (u : FlowUnit) (a : ℕ) (s : Placement)
    (k : ℕ × List (ℕ × List Port)) : Outcome Placement (ℕ × List (ℕ × List Port)) :=
  if s.load a + u.masterSets.length > (P.freeMsels a).length then ⟨false, s, k⟩
  else if u.leader ∈ P.excludedUnits a ∨ ∃ v ∈ P.neighbors u.leader, s.arbiterOf v = some a then
    ⟨false, s, k⟩
  else if s.load a = 0 ∧ P.emptyKind a ∈ k.2 then ⟨false, s, k⟩
  else
    let r := next (s.assign u a) k.1
    if r.found then ⟨true, r.state, r.spent, P.noteTried s a k.2⟩
    else ⟨false, r.state.unassign u a, r.spent, P.noteTried s a k.2⟩

def place : List FlowUnit → Placement → ℕ → Outcome Placement ℕ
  | [], s, steps => ⟨true, s, steps⟩
  | u :: rest, s, steps =>
    if maxSearchSteps < steps + 1 then ⟨false, s, steps + 1⟩
    else
      let r := tryEach (P.attempt (place rest) u) (P.candidates s u) s (steps + 1, [])
      ⟨r.found, r.state, r.spent.1⟩

/-- Control packets first, in master port order. -/
def mselOrder : List FlowUnit :=
  P.units.insertionSort fun u v =>
    if u.isCtrlPkt && v.isCtrlPkt then u.masterSets.headD [] ≤ v.masterSets.headD []
    else v.isCtrlPkt → u.isCtrlPkt

/-- The position of the next msel of `a`: the highest left for control packets, the lowest left for
others. -/
def nextSlot (isCtrlPkt : Bool) (a : ℕ) (s : AmselState) : ℕ :=
  if isCtrlPkt then (P.freeMsels a).length - 1 - s.high a else s.low a

/-- The next amsel of `a`. -/
def nextAmsel (isCtrlPkt : Bool) (a : ℕ) (s : AmselState) : ℕ :=
  P.amselOf a ((P.freeMsels a).getD (P.nextSlot isCtrlPkt a s) 0)

def takeAmsel (isCtrlPkt : Bool) (a : ℕ) (s : AmselState) (masters : List Port) : AmselState :=
  let x := P.nextAmsel isCtrlPkt a s
  { plan := { s.plan with amselMasters := s.plan.amselMasters.insert x masters }
    low := if isCtrlPkt then s.low else Function.update s.low a (s.low a + 1)
    high := if isCtrlPkt then Function.update s.high a (s.high a + 1) else s.high
    setAmsel := Function.update s.setAmsel masters x }

/-- A flow takes the amsel of its master set. -/
def takeSlave (s : AmselState) (f : SlaveFlow) : AmselState :=
  { s with plan := { s.plan with
      slaveAmsels := s.plan.slaveAmsels.insert f.key (s.setAmsel f.masters) } }

def assignUnit (arbiterOf : Port → Option ℕ) (s : AmselState) (u : FlowUnit) : AmselState :=
  let a := (arbiterOf u.leader).getD 0
  u.flows.foldl takeSlave
    (u.masterSets.foldl (P.takeAmsel u.isCtrlPkt a) { s with setAmsel := fun _ => 0 })

def assignAmsels (arbiterOf : Port → Option ℕ) : ArbiterPlan :=
  (P.mselOrder.foldl (P.assignUnit arbiterOf) {}).plan

end ArbiterProblem

/-- Chooses arbiters for a switchbox's slave flows. On failure, the conflicting pairs that stood in
the way; none when the master sets alone outnumber the free msels. -/
def planArbiters (P : ArbiterProblem) : Except (List (SlaveFlow × SlaveFlow)) ArbiterPlan :=
  if P.tiedClashes ≠ [] then .error P.tiedClashes
  else if P.units.any fun u => u.masterSets.length > P.mostFree then .error []
  else
    let r := P.place P.order {} 0
    if r.found then .ok (P.assignAmsels r.state.arbiterOf) else .error P.crossPairs

end MlirAie.Route
