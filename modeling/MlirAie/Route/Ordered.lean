import MlirAie.Lib.Backtrack
import MlirAie.Lib.Worklist
import MlirAie.Route.Cover

/-!
# Packet rules in first-match order

A packet takes the first rule it matches, so a rule may match ids of another group that an earlier
rule takes already. The search takes rules one at a time, each around ids left that one group
claims, for one more rule at a time, and remembers what it found hopeless.

* `GroupClaims`, `PortRule`: what a group claims, and a rule for a group;
* `OrderedProblem.search`: the search, for a number of rules;
* `orderedRules`: the fewest rules within a budget.
-/

namespace MlirAie.Route

open Lib

/-- What a group of flows on one slave port claims: the rules its flows state, and the ids they
leave to the router; and whether they are the control overlay's. -/
structure GroupClaims where
  stated : List Cube
  derived : List ℕ
  overlay : Bool := false

/-- A packet rule of a slave port, and the group it selects. -/
structure PortRule where
  rule : Cube
  group : ℕ
deriving DecidableEq, Repr

def cubeIds (c : Cube) (idBits : ℕ) : Finset ℕ :=
  (Finset.range (1 <<< idBits)).filter fun id => id &&& c.mask = c.value &&& c.mask

def GroupClaims.ids (group : GroupClaims) (idBits : ℕ) : Finset ℕ :=
  group.derived.foldl (fun ids id => insert id ids)
    (group.stated.foldl (fun ids c => ids ∪ cubeIds c idBits) ∅)

def tightest (idBits : ℕ) (own : Finset ℕ) : Cube :=
  let ids := (List.range (1 <<< idBits)).filter (· ∈ own)
  let all := ids.foldl (· &&& ·) (1 <<< idBits - 1)
  let any := ids.foldl (· ||| ·) 0
  ⟨andNot (1 <<< idBits - 1) (all ^^^ any), all⟩

/-- The ids taken and the rules left of the searches that failed. -/
abbrev Dead := List (Finset ℕ × ℕ)

/-- The ids newly taken, and their group. -/
abbrev Move := Finset ℕ × ℕ

structure OrderedProblem where
  idBits : ℕ
  groups : List GroupClaims

namespace OrderedProblem

variable (P : OrderedProblem)

def claims : List (Finset ℕ) := P.groups.map fun group => group.ids P.idBits

def claimed : Finset ℕ := P.claims.foldl (· ∪ ·) ∅

/-- The ids claimed and not taken. -/
def left (taken : Finset ℕ) : Finset ℕ := P.claimed \ taken

def openGroups (taken : Finset ℕ) : ℕ :=
  P.claims.countP fun ids => decide (ids ∩ P.left taken).Nonempty

def cubes : List (Finset ℕ) :=
  (List.range (1 <<< P.idBits)).flatMap fun mask =>
    (List.range (1 <<< P.idBits)).filterMap fun value =>
      if value &&& mask = value then some (cubeIds ⟨mask, value⟩ P.idBits) else none

/-- The ids left of one group in each cube that holds no others, the most first. -/
def moves (taken : Finset ℕ) : List Move :=
  (appendNew [] (P.cubes.flatMap fun cube => P.claims.zipIdx.filterMap fun p =>
    if (cube ∩ P.left taken).Nonempty ∧ cube ∩ P.left taken ⊆ p.1 then
      some (cube ∩ P.left taken, p.2)
    else none)).insertionSort fun a b => b.1.card ≤ a.1.card

/-- Takes the ids by a rule and goes on with `next`, undoing it if that fails. -/
def attempt (next : Finset ℕ → List PortRule → Dead → Outcome (List PortRule) Dead) (move : Move)
    (rules : List PortRule) (k : Dead × List Move) : Outcome (List PortRule) (Dead × List Move) :=
  if k.2.any fun t => t.2 = move.2 && decide (move.1 ⊆ t.1) then ⟨false, rules, k⟩
  else
    let r := next move.1 (rules ++ [⟨tightest P.idBits move.1, move.2⟩]) k.1
    if r.found then ⟨true, r.state, r.spent, move :: k.2⟩
    else ⟨false, r.state.dropLast, r.spent, move :: k.2⟩

/-- Takes every id left with at most a number of rules. -/
def search : ℕ → Finset ℕ → List PortRule → Dead → Outcome (List PortRule) Dead
  | 0, taken, rules, dead => ⟨decide (P.openGroups taken = 0), rules, dead⟩
  | n + 1, taken, rules, dead =>
    if P.openGroups taken = 0 then ⟨true, rules, dead⟩
    else if P.openGroups taken > n + 1 ∨ (taken, n + 1) ∈ dead then ⟨false, rules, dead⟩
    else
      let r := tryEach (P.attempt fun own => search n (taken ∪ own)) (P.moves taken) rules
        (dead, [])
      if r.found then ⟨true, r.state, r.spent.1⟩
      else ⟨false, r.state, (taken, n + 1) :: r.spent.1⟩

/-- The rules of the first length for which the search finds any. -/
def firstLength (taken : Finset ℕ) : List ℕ → List PortRule → Dead → Option (List PortRule)
  | [], _, _ => none
  | length :: lengths, rules, dead =>
    let r := P.search length taken rules dead
    if r.found then some r.state else firstLength taken lengths r.state r.spent

end OrderedProblem

/-- The fewest rules, at most `budget`, that send every id a group claims to that group, where a
packet takes the first rule it matches. -/
def orderedRules (groups : List GroupClaims) (existing : List Cube) (idBits budget : ℕ) :
    Option (List PortRule) :=
  let P : OrderedProblem := ⟨idBits, groups⟩
  let taken := existing.foldl (fun ids c => ids ∪ cubeIds c idBits) ∅
  if idBits > 6 then none
  else if (taken ∩ P.claimed).Nonempty then none
  else P.firstLength taken (List.range' 1 budget) [] []

end MlirAie.Route
