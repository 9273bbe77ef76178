import MlirAie.Route.Ordered
import MlirAie.Route.Port

/-!
# The packet rules of a slave port

The flows entering on a slave port are grouped by the master ports they leave by, the control
overlay's apart. Each group takes rules of its own; the overlay's go first, as they would alone.
Before the rules are emitted, the ids and slots they need are checked.

* `groupRules`, `portRules`, **`slavePortRules`**: the rules of a group, of some groups, of a port;
* **`RulePlan.checkRules`**: why the rules of some slave port cannot be had;
* **`RulePlan.emittedRules`**: the rules as they are emitted.
-/

namespace MlirAie.Route

open Lib

/-! ## Rules -/

/-- A group's rules: the stated ones, then a cover of the derived ids that avoids them and
`avoid`. -/
def groupRules (stated : List Cube) (derived : List ℕ) (avoid : List Cube) (idBits : ℕ) :
    List Cube :=
  if derived = [] then stated
  else stated ++ computeSubcubeCover derived (avoid ++ stated) idBits

def GroupClaims.claims (group : GroupClaims) (idBits : ℕ) : List Cube :=
  group.stated ++ group.derived.map fun id => ⟨1 <<< idBits - 1, id⟩

def otherClaims (groups : List GroupClaims) (idBits g : ℕ) : List Cube :=
  groups.zipIdx.flatMap fun o => if o.2 = g then [] else o.1.claims idBits

/-- Each group's own rules, which match no id another group claims. -/
def apartRules (groups : List GroupClaims) (existing : List Cube) (idBits : ℕ) : List PortRule :=
  groups.zipIdx.flatMap fun group =>
    (groupRules group.1.stated group.1.derived (existing ++ otherClaims groups idBits group.2)
      idBits).map fun rule => ⟨rule, group.2⟩

/-- The rules of some groups, after the existing ones: their own, unless those outnumber the free
slots and first-match order fits them. -/
def portRules (groups : List GroupClaims) (existing : List Cube) (idBits slots : ℕ) :
    List PortRule :=
  let rules := apartRules groups existing idBits
  if existing.length + rules.length ≤ slots ∨ slots ≤ existing.length then rules
  else (orderedRules groups existing idBits (slots - existing.length)).getD rules

/-- The cubes taken so far and the rules: those of the overlay's groups, or of the others, are
added. -/
def addRules (groups : List GroupClaims) (idBits slots : ℕ) (s : List Cube × List PortRule)
    (overlay : Bool) : List Cube × List PortRule :=
  let members := groups.zipIdx.filter fun m => m.1.overlay = overlay
  if members = [] then s
  else
    let rules := s.2 ++ (portRules (members.map (·.1)) s.1 idBits slots).map fun r =>
      ⟨r.rule, (members.map (·.2)).getD r.group 0⟩
    (s.1 ++ (rules.filter fun r => (groups[r.group]?.map (·.overlay)) = some overlay).map
      (·.rule), rules)

/-- **The rules of a slave port**, in slot order after the existing ones. The overlay's groups take
the rules they take alone, in the first slots, and the other groups' rules follow. -/
def slavePortRules (groups : List GroupClaims) (existing : List Cube) (idBits slots : ℕ) :
    List PortRule :=
  ([true, false].foldl (addRules groups idBits slots) (existing, [])).2

/-! ## The flows of a tile -/

/-- The packet flows of a tile, in the order of their keys; the master ports each leaves by, in the
order they were found; the masks stated for them; the ports each source's packets leave by; and the
rules the switchbox already has. -/
structure TileFlows where
  tile : TileID
  byFlow : List SlaveFlow
  packetFlows : FlowKey → List Port
  pinnedMasks : FlowKey → List ℕ
  slaveFlowSources : List (FlowKey × List (PhysPort × List Port))
  existing : Port → List Cube
  sorted : (byFlow.map SlaveFlow.key).Pairwise (· < ·)
  packetFlows_perm : ∀ f ∈ byFlow, (packetFlows f.key).Perm f.masters
  /-- A mask has the bits of the id it is stated for. -/
  id_mask : ∀ f ∈ byFlow, ∀ mask ∈ pinnedMasks f.key, f.id &&& mask = f.id

/-- What is planned: the width of ids, the rules a slave port holds, whether the overlay's rules are
pinned, and the flows of each tile, all with ids of the width. -/
structure RulePlan where
  idBits : ℕ
  numSlaveSlots : ℕ
  pinned : Bool
  tiles : List TileFlows
  id_lt : ∀ T ∈ tiles, ∀ f ∈ T.byFlow, f.id < 2 ^ idBits

/-- How groups are told apart: the overlay's or not, and the master ports. -/
abbrev RuleKey := Bool ×ₗ List Port

def SlaveFlow.ruleKey (f : SlaveFlow) : RuleKey := toLex (f.isCtrlPkt, f.masters)

namespace TileFlows

variable (T : TileFlows) (idBits : ℕ)

/-- The rules the flows state. A full-width mask selects the id alone, so only a wider claim becomes
a rule of its own. -/
def statedCubes (f : SlaveFlow) : List Cube :=
  ((T.pinnedMasks f.key).filter (· ≠ 1 <<< idBits - 1)).map (⟨·, f.id⟩)

def groupClaims (flows : List SlaveFlow) (overlay : Bool) : GroupClaims where
  stated := appendNew [] (flows.flatMap (T.statedCubes idBits))
  derived := (flows.filter fun f => T.statedCubes idBits f = []).map (·.id)
  overlay

/-- The flows entering on a port, or those of them that are the overlay's. -/
def entering (slave : Port) (overlayOnly : Bool) : List SlaveFlow :=
  T.byFlow.filter fun f => f.slave = slave && (!overlayOnly || f.isCtrlPkt)

/-- The groups of the flows entering on a port, as they are checked, with their master ports. -/
def checkedGroups (slave : Port) (overlayOnly : Bool) : List (GroupClaims × List Port) :=
  let flows := T.entering slave overlayOnly
  ((flows.map SlaveFlow.ruleKey).dedup.insertionSort (· ≤ ·)).map fun key =>
    (T.groupClaims idBits (flows.filter (·.ruleKey = key)) (ofLex key).1, (ofLex key).2)

/-- The group takes a flow: they enter and leave alike, and both are the overlay's or neither. -/
def joins (front f : SlaveFlow) : Bool :=
  front.slave = f.slave && front.isCtrlPkt = f.isCtrlPkt &&
    decide ((T.packetFlows front.key).length = (T.packetFlows f.key).length) &&
    (T.packetFlows f.key).all ((T.packetFlows front.key).contains ·)

def addToGroups (groups : List (List SlaveFlow)) (f : SlaveFlow) : List (List SlaveFlow) :=
  match groups.findIdx? fun group => group.head?.any (T.joins · f) with
  | some g => groups.modify g (· ++ [f])
  | none => groups ++ [[f]]

/-- The groups of flows taken from the back of a list. -/
def slaveGroups (slavePorts : List SlaveFlow) : List (List SlaveFlow) :=
  slavePorts.reverse.foldl T.addToGroups []

/-- The groups of the flows entering on a port, as they are emitted, with their master ports. -/
def emittedGroups (slavePorts : List SlaveFlow) (slave : Port) :
    List (GroupClaims × List Port) :=
  ((T.slaveGroups slavePorts).filter fun group => group.head?.any (·.slave = slave)).map
    fun group => (T.groupClaims idBits group (group.head?.any (·.isCtrlPkt)),
      (group.head?.map (·.masters)).getD [])

def claim (f : SlaveFlow) : List Cube :=
  if T.statedCubes idBits f = [] then [⟨1 <<< idBits - 1, f.id⟩] else T.statedCubes idBits f

end TileFlows

/-! ## What is checked -/

/-- `"1F"`, as messages write masks and ids. -/
def hex (n : ℕ) : String := (String.ofList (Nat.toDigits 16 n)).toUpper

/-- `"at tile (1, 2), "`, as messages start. -/
def atTile (t : TileID) : String :=
  "at tile (" ++ toString t.col ++ ", " ++ toString t.row ++ "), "

namespace RulePlan

variable (P : RulePlan) (T : TileFlows)

/-- The rules the flows entering on a port add, or those the overlay's add alone. -/
def newRules (slave : Port) (overlayOnly : Bool) : List PortRule :=
  slavePortRules ((T.checkedGroups P.idBits slave overlayOnly).map (·.1)) (T.existing slave)
    P.idBits P.numSlaveSlots

/-- Packets of two sources with one id leave by different ports. -/
def sourceFailure : Option String :=
  T.slaveFlowSources.findSome? fun s =>
    s.2.head?.bind fun first =>
      (s.2.find? fun other => other.2 ≠ first.2).map fun second =>
        atTile T.tile ++ "packets with id " ++ toString s.1.id ++ " from " ++
          describeTilePort first.1 ++ " and " ++ describeTilePort second.1 ++ " enter on " ++
          describePort s.1.slave ++ " and leave by different ports; a switchbox routes on the " ++
          "id alone, so each source's packets would also go where the other's do."

/-- The first claims of two flows with an id in common. -/
def overlap (fa fb : SlaveFlow) : Option (Cube × Cube) :=
  (T.claim P.idBits fa).findSome? fun own =>
    ((T.claim P.idBits fb).find? (cubesIntersect own)).map (own, ·)

/-- Two flows that leave by different ports claim a common id. -/
def overlapFailure : Option String :=
  T.byFlow.tails.findSome? fun flows => flows.head?.bind fun fa => flows.tail.findSome? fun fb =>
    if fa.slave ≠ fb.slave ∨ fa.masters = fb.masters then none
    else (P.overlap T fa fb).map fun (own, other) =>
      let witness := (own.value &&& own.mask) |||
        andNot (other.value &&& other.mask) own.mask
      atTile T.tile ++ "packet flows through " ++ describePort fa.slave ++ " claim rule (mask 0x" ++
        hex own.mask ++ ", id 0x" ++ hex own.value ++ ") and rule (mask 0x" ++ hex other.mask ++
        ", id 0x" ++ hex other.value ++ "), which both match id 0x" ++ hex witness ++
        "; widen one mask to carry both, or route them apart."

/-- A flow leaves by a master port of the pinned overlay, but not by one of its master sets. -/
def mastersFailure : Option String :=
  let overlay := if P.pinned then T.byFlow.filter (·.isCtrlPkt) else []
  T.byFlow.findSome? fun f =>
    (f.masters.find? fun m => overlay.any fun o => o.masters.contains m).bind fun shared =>
      if f.isCtrlPkt ∨ overlay.any fun o => o.masters = f.masters then none
      else some (atTile T.tile ++ "packets with id " ++ toString f.id ++ " entering on " ++
        describePort f.slave ++ " leave by " ++ describePort shared ++
        ", a master port of the prioritized flows (the control overlay), but not by one of " ++
        "their master sets, which a control-packet reload keeps.")

def slaves : List Port := (T.byFlow.map (·.slave)).dedup.insertionSort (· ≤ ·)

/-- A rule of the overlay alone that matches an id the flow claims and leaves by other ports. -/
def overlayMatch (slave : Port) (f : SlaveFlow) : Option PortRule :=
  (T.claim P.idBits f).findSome? fun own => (P.newRules T slave true).find? fun r =>
    cubesIntersect own r.rule &&
      decide ((T.checkedGroups P.idBits slave true)[r.group]?.map (·.2) ≠ some f.masters)

/-- A rule of the pinned overlay sends another flow's packets elsewhere. -/
def overlayFailure : Option String :=
  (if P.pinned then slaves T else []).findSome? fun slave => T.byFlow.findSome? fun f =>
    if f.slave ≠ slave ∨ f.isCtrlPkt then none
    else (P.overlayMatch T slave f).map fun rule =>
      atTile T.tile ++ "the packet rule (mask 0x" ++ hex rule.rule.mask ++ ", id 0x" ++
        hex rule.rule.value ++ ") of the prioritized flows (the control overlay) on " ++
        describePort slave ++ " also matches packet id 0x" ++ hex f.id ++
        ", and a control-packet reload keeps their rules; use an id the rule does not match, " ++
        "or route the flow apart."

/-- The rules of a slave port outnumber its slots. -/
def slotsFailure : Option String :=
  (slaves T).findSome? fun slave =>
    let needed := (T.existing slave).length + (P.newRules T slave false).length
    if needed ≤ P.numSlaveSlots then none
    else some (atTile T.tile ++ "the packet flows entering on " ++ describePort slave ++ " need " ++
      toString needed ++ " packet rules, and a slave port holds " ++ toString P.numSlaveSlots ++
      ".")

/-- **Why some slave port's rules cannot be had**, for the first of them. -/
def checkRules : Option String :=
  P.tiles.findSome? sourceFailure <|> P.tiles.findSome? fun T =>
    P.overlapFailure T <|> P.mastersFailure T <|> P.overlayFailure T <|> P.slotsFailure T

/-! ## What is emitted -/

/-- **The rules a slave port gets**, with the flows taken in any order. -/
def emittedRules (slavePorts : List SlaveFlow) (slave : Port) : List PortRule :=
  slavePortRules ((T.emittedGroups P.idBits slavePorts slave).map (·.1)) (T.existing slave)
    P.idBits P.numSlaveSlots

end RulePlan

end MlirAie.Route
