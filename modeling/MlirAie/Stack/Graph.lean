import Mathlib

/-!
# The call graph of a linked core

What the stack analysis reads off the symbols, the relocations and the `.stack_sizes` data of an
ELF. A node of the graph is the address where a function symbol starts.

* `SymbolRanges`: the ranges of the symbols of one type, by start; `owner`, `startsAt`: the search
  for the one that an address belongs to;
* `Graph`, `knownFrameSize`: frames, call edges, the two halves of the function-pointer heuristic;
* `Graph.addEdge`: what one relocation records; `callGraph`: the graph of all the sections.
-/

namespace MlirAie.Stack

abbrev Address := BitVec 64

/-! ## Symbols -/

/-- A sized symbol. -/
structure Entry where
  addr : Address
  size : Address
  name : String
deriving DecidableEq, Repr

def Entry.Contains (e : Entry) (a : Address) : Prop :=
  e.addr.toNat ≤ a.toNat ∧ a.toNat < e.addr.toNat + e.size.toNat

instance (e : Entry) (a : Address) : Decidable (e.Contains a) := by
  unfold Entry.Contains
  infer_instance

theorem Entry.contains_addr {e : Entry} (h : e.size ≠ 0) : e.Contains e.addr := by
  have : e.size.toNat ≠ 0 := fun h0 => h (BitVec.eq_of_toNat_eq h0)
  exact ⟨le_rfl, by omega⟩

inductive SymbolType
  | Function
  | Data
  | Other
deriving DecidableEq, Repr

/-- A symbol of the ELF, sized or not. -/
structure SymbolRef where
  type : SymbolType
  addr : Address
  size : Address
  name : String
deriving DecidableEq, Repr

/-- The address ranges of one symbol type. The sort orders them by start only: symbols that start
together may stand in any order. -/
structure SymbolRanges where
  entries : List Entry
  sorted : entries.Pairwise fun a b => a.addr ≤ b.addr
  sized : ∀ e ∈ entries, e.size ≠ 0

/-- The ranges of the symbols of the type `wanted`, those that start together in one order of the
several that `llvm::sort` can leave them in. -/
def collectRanges (symbols : List SymbolRef) (wanted : SymbolType) : SymbolRanges where
  entries := (symbols.filterMap fun sym =>
    if sym.type = wanted ∧ sym.size ≠ 0 then some ⟨sym.addr, sym.size, sym.name⟩
    else none).insertionSort fun a b => a.addr ≤ b.addr
  sorted :=
    haveI : Std.Total fun a b : Entry => a.addr ≤ b.addr :=
      ⟨fun a b => BitVec.le_total a.addr b.addr⟩
    haveI : IsTrans Entry fun a b => a.addr ≤ b.addr := ⟨fun _ _ _ h₁ h₂ => BitVec.le_trans h₁ h₂⟩
    List.pairwise_insertionSort _ _
  sized e he := by
    rw [List.mem_insertionSort, List.mem_filterMap] at he
    obtain ⟨sym, -, hsym⟩ := he
    split_ifs at hsym with hwanted
    cases hsym
    exact hwanted.2

namespace SymbolRanges

variable (r : SymbolRanges)

/-- The last entry that starts at or before the address, if the address is below its end. -/
def owner (addr : Address) : Option Entry :=
  ((r.entries.takeWhile fun e => !decide (addr < e.addr)).getLast?).filter fun e =>
    decide (addr < e.addr + e.size)

/-- The entry that the address is the start of. A branch inside a function is not a call. -/
def startsAt (addr : Address) : Option Entry := (r.owner addr).filter fun e => e.addr == addr

end SymbolRanges

/-! ## The graph -/

/-- A function. A frame of `-1` marks one with no `.stack_sizes` entry. -/
structure Node where
  frameSize : Int64 := -1
  callees : List Address := []
deriving DecidableEq, Repr

/-- A frame that the ELF does not report. -/
structure FallbackFrame where
  elfFlags : ℕ
  symbol : String
  bytes : Int64
deriving DecidableEq, Repr

structure FallbackFrames where
  frames : List FallbackFrame
  nonneg : ∀ f ∈ frames, 0 ≤ f.bytes

structure Graph where
  nodes : AList fun _ : Address => Node := ∅
  dataReferences : AList fun _ : Address => List Address := ∅
  dataEscapes : AList fun _ : Address => List Address := ∅
  funcs : SymbolRanges
  overridesByAddr : AList fun _ : Address => Int64 := ∅
  elfFlags : ℕ := 0
  fallbackFrames : FallbackFrames

namespace Graph

variable (g : Graph)

/-- `nodes[addr]`, which makes a node where there is none. -/
def node (addr : Address) : Node := (g.nodes.lookup addr).getD {}

def setNode (addr : Address) (node : Node) : Graph := { g with nodes := g.nodes.insert addr node }

def nameOf (addr : Address) : String := ((g.funcs.owner addr).map Entry.name).getD "<unknown>"

/-- The frame `.stack_sizes` reports for the address, else its `fallbackFrames` entry. -/
def knownFrameSize (addr : Address) : Option Int64 :=
  if 0 ≤ (g.node addr).frameSize then some (g.node addr).frameSize
  else (g.fallbackFrames.frames.find? fun f =>
    f.elfFlags == g.elfFlags && f.symbol == g.nameOf addr).map FallbackFrame.bytes

def callees (addr : Address) : List Address := (g.node addr).callees

def addCallees (addr : Address) (callees : List Address) : Graph :=
  g.setNode addr { g.node addr with callees := g.callees addr ++ callees }

def addReference (addr dataAddr : Address) : Graph :=
  { g with
    dataReferences := g.dataReferences.insert addr
      (((g.dataReferences.lookup addr).getD []).insert dataAddr) }

/-- A function whose address a data symbol holds. -/
def addEscape (dataAddr func : Address) : Graph :=
  { g with
    dataEscapes := g.dataEscapes.insert dataAddr
      ((g.dataEscapes.lookup dataAddr).getD [] ++ [func]) }

/-- What one relocation records: `patched` is the address it writes, `target` the one it writes
there. -/
def addEdge (data : SymbolRanges) (patchedIsText : Bool) (patched target : Address) : Graph :=
  if patchedIsText then
    match g.funcs.owner patched with
    | none => g
    | some owner =>
      match g.funcs.startsAt target with
      | some targetFunc => g.addCallees owner.addr [targetFunc.addr]
      | none =>
        match data.owner target with
        | some targetData => g.addReference owner.addr targetData.addr
        | none => g
  else
    match g.funcs.startsAt target, data.owner patched with
    | some targetFunc, some owner => g.addEscape owner.addr targetFunc.addr
    | _, _ => g

end Graph

/-! ## The sections -/

/-- What a relocation's symbol is: `callLike` tells whether `isCallLikeRelocation` holds of the
relocation. -/
structure Relocation where
  offset : Address
  symbol : Option Address
  isUndefined : Bool := false
  isZeroSizedFunction : Bool := false
  callLike : Bool := true
deriving DecidableEq, Repr

/-- The target that the loop over the relocations passes to `addEdge`. An undefined symbol names no
callee, and an address constant in code that names a zero-sized function is no call. -/
def Relocation.target (rel : Relocation) (patchedIsText : Bool) : Option Address :=
  if rel.isUndefined || (patchedIsText && rel.isZeroSizedFunction && !rel.callLike) then none
  else rel.symbol

/-- A section of the ELF: the decoded entries of `.stack_sizes`, or the relocations that apply to
one section. -/
inductive Section
  | stackSizes (entries : List (Address × ℕ))
  | relocations (patchedIsText : Bool) (rels : List Relocation)

namespace Graph

variable (g : Graph)

def readFrameSizes : List (Address × ℕ) → Graph → Graph
  | [], g => g
  | (funcAddr, frameSize) :: entries, g =>
    if Int64.maxValue.toInt < frameSize then g
    else
      readFrameSizes entries <|
        match g.funcs.owner funcAddr with
        | none => g
        | some fn =>
          g.setNode fn.addr { g.node fn.addr with
            frameSize := max (g.node fn.addr).frameSize (Int64.ofNat frameSize) }

def addRelocation (data : SymbolRanges) (patchedIsText : Bool) (rel : Relocation) : Graph :=
  match rel.target patchedIsText with
  | none => g
  | some target => g.addEdge data patchedIsText rel.offset target

def addSection (data : SymbolRanges) : Section → Graph
  | .stackSizes entries => readFrameSizes entries g
  | .relocations patchedIsText rels =>
    rels.foldl (fun g rel => g.addRelocation data patchedIsText rel) g

/-- The functions whose address escapes into the data that a function reads. -/
def escapesTo (datas : List Address) : List Address :=
  datas.flatMap fun dataAddr => (g.dataEscapes.lookup dataAddr).getD []

/-- Every function may call what escapes into the data it reads. -/
def joinEscapes : Graph :=
  g.dataReferences.entries.foldl (fun h ref => h.addCallees ref.1 (g.escapesTo ref.2)) g

def sortCallees : Graph :=
  { g with
    nodes := g.nodes.keys.foldl (fun nodes addr =>
      nodes.insert addr { g.node addr with
        callees := (g.callees addr).dedup.insertionSort fun a b => a ≤ b }) g.nodes }

end Graph

/-- **The graph that the walk runs on.** -/
def callGraph (g : Graph) (data : SymbolRanges) (sections : List Section) : Graph :=
  (sections.foldl (fun g sec => g.addSection data sec) g).joinEscapes.sortCallees

end MlirAie.Stack
