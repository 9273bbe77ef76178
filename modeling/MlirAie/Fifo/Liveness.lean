import MlirAie.Lib.Grouping
import MlirAie.Lib.Lists

/-!
# Liveness of object fifos

* `DeviceOp`, `F`: the fifos of a device, and what the pass records of them;
* `addFifo`, `groups`: coupled broadcasts, by the base of the name;
* `runOnOperation`: the check of each group against its slack.
-/

namespace MlirAie.Liveness

open MlirAie.Lib

variable {Tile Ty : Type} [DecidableEq Tile] [DecidableEq Ty]

/-! ## Fifos -/

/-- A depth for all tiles, or one for each. -/
inductive ElemNumber
  | int (depth : ℤ)
  | array (depths : List ℤ)

structure ObjectFifoCreateOp (Tile Ty : Type) where
  symName : String
  elemNumber : ElemNumber
  producerTile : Tile
  consumerTiles : List Tile
  repeatCount : Option ℤ
  elemType : Ty

/-- A device, where no symbol is defined twice. -/
structure DeviceOp (Tile Ty : Type) where
  fifos : List (ObjectFifoCreateOp Tile Ty)
  symbols : (fifos.map (·.symName)).Nodup

structure F (Tile Ty : Type) where
  depth : ℤ
  prod : Tile
  cons : List Tile
  repeats : ℤ
  name : String
  elemTy : Ty

def ObjectFifoCreateOp.record (ofo : ObjectFifoCreateOp Tile Ty) : Option (F Tile Ty) :=
  match ofo.elemNumber with
  | .int depth => some {
      depth := depth
      prod := ofo.producerTile
      cons := ofo.consumerTiles
      repeats := ofo.repeatCount.getD 1
      name := ofo.symName
      elemTy := ofo.elemType }
  | .array _ => none

def DeviceOp.records (mod : DeviceOp Tile Ty) : List (F Tile Ty) :=
  mod.fifos.filterMap ObjectFifoCreateOp.record

/-- Strips digits after the last underscore, if there are any. -/
def nameBase (name : String) : String :=
  let suffix := (name.toList.reverse.takeWhile (· ≠ '_')).reverse
  let front := name.toList.take (name.toList.length - suffix.length - 1)
  if '_' ∈ name.toList ∧ suffix ≠ [] ∧ suffix.all (fun c => '0' ≤ c && c ≤ '9') then
    String.ofList front
  else name

/-! ## Cycles -/

/-- One of them consumes what the other produces on the tile. -/
def linked (f g : F Tile Ty) : Bool := f.prod ∈ g.cons || g.prod ∈ f.cons

variable (fifos : List (F Tile Ty))

def adj (f : F Tile Ty) : List ℕ := (fifos.zipIdx.filter fun g => linked f g.1).map Prod.snd

def edges : List (ℕ × ℕ) := fifos.zipIdx.flatMap fun f => (adj fifos f.1).map fun w => (f.2, w)

/-- The root of the component. -/
def find : ℕ → ℕ := uniteAll (edges fifos)

def compSize (root : ℕ) : ℕ := fifos.zipIdx.countP fun f => find fifos f.2 = root

def sccId (i : ℕ) : Option ℕ :=
  if 1 < compSize fifos (find fifos i) then some (find fifos i) else none

/-! ## Groups -/

structure Group (Tile Ty : Type) where
  fan : ℤ
  depth : ℤ
  rep : ℕ
  name : String
  elemTy : Ty
  sigDepth : ℤ
  sigRepeat : ℤ
  cons : List Tile
  sccs : List ℕ

def Group.insert (g : Group Tile Ty) (f : F Tile Ty) (scc : ℕ) : Group Tile Ty :=
  { g with
    fan := g.fan + f.cons.length
    cons := g.cons ++ f.cons
    sccs := scc :: g.sccs }

def Group.fresh (f : F Tile Ty) (i : ℕ) : Group Tile Ty where
  fan := 0
  depth := f.depth
  rep := i
  name := nameBase f.name
  elemTy := f.elemTy
  sigDepth := f.depth
  sigRepeat := f.repeats
  cons := []
  sccs := []

/-- `groupList` and `groupIdx`, where a base has its owning group. -/
structure Groups (Tile Ty : Type) where
  groupList : List (Group Tile Ty) := []
  groupIdx : String → Option ℕ := fun _ => none

def Group.consistent (cand : Group Tile Ty) (f : F Tile Ty) : Bool :=
  cand.elemTy = f.elemTy && cand.sigDepth = f.depth && cand.sigRepeat = f.repeats &&
    f.cons.all fun c => c ∉ cand.cons

/-- The group that the fifo is folded into. -/
def Groups.slot (st : Groups Tile Ty) (f : F Tile Ty) : Option ℕ := do
  let idx ← st.groupIdx (nameBase f.name)
  let cand ← st.groupList[idx]?
  if cand.consistent f then some idx else none

def Groups.couple (st : Groups Tile Ty) (slot : ℕ) (f : F Tile Ty) (scc : ℕ) : Groups Tile Ty :=
  { st with
    groupList := st.groupList.modify slot fun g =>
      { g with depth := min g.depth f.depth }.insert f scc }

def Groups.openGroup (st : Groups Tile Ty) (f : F Tile Ty) (i scc : ℕ) : Groups Tile Ty where
  groupList := st.groupList ++ [(Group.fresh f i).insert f scc]
  groupIdx :=
    if (st.groupIdx (nameBase f.name)).isNone then
      Function.update st.groupIdx (nameBase f.name) (some st.groupList.length)
    else st.groupIdx

/-- A cyclic multicast is folded into the group of its base, or opens one. -/
def addFifo (st : Groups Tile Ty) (f : F Tile Ty × ℕ) : Groups Tile Ty :=
  match sccId fifos f.2 with
  | none => st
  | some scc =>
    if f.1.cons.length ≤ 1 then st
    else
      match st.slot f.1 with
      | some slot => st.couple slot f.1 scc
      | none => st.openGroup f.1 f.2 scc

def groups : Groups Tile Ty := fifos.zipIdx.foldl (addFifo fifos) {}

/-! ## The check -/

def trips (g : Group Tile Ty) : ℤ :=
  fifos.zipIdx.foldl (fun T f =>
    if (sccId fifos f.2).any (· ∈ g.sccs) then max T f.1.repeats else T) 1

/-- The replay guard. -/
def check (g : Group Tile Ty) : Except String Unit :=
  let T := trips fifos g
  let demand := g.fan * T
  let slack := 2 * g.depth
  if g.depth ≤ 0 ∨ T < 2 ∨ demand ≤ slack then .ok ()
  else
    let reqDepth := (demand + 1) / 2
    .error ("objectFIFO @" ++ g.name ++ " in a cyclic dependency requires depth >= " ++
      toString reqDepth ++ " for deadlock-free execution; allocated depth = " ++
      toString g.depth ++ ". (Coupled broadcast fan-out " ++ toString g.fan ++ " x trip-count " ++
      toString T ++ " = " ++ toString demand ++
      " outstanding tokens exceeds round-trip slack 2*depth = " ++ toString slack ++
      "; raise depth or reduce coupled consumers / output tiles.)")

/-- `runOnOperation`: the first group over its slack fails the pass. -/
def runOnOperation (mod : DeviceOp Tile Ty) : Except String Unit :=
  (groups mod.records).groupList.forM (check mod.records)

def DeviceOp.Rejected (mod : DeviceOp Tile Ty) : Prop := runOnOperation mod ≠ .ok ()

end MlirAie.Liveness
