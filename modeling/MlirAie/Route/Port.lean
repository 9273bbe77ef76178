import Mathlib

/-!
# Ports and slave flows

The ports of the stream switches, and the packets a switchbox forwards.

* `WireBundle`, `Port`, `FlowKey`, `TileID`: ordered as the router's maps are;
* `ArbiterPlan`: the amsel each slave flow takes, and the master ports each amsel selects;
* `StreamConflicts.conflict`: which streams can deadlock if they share an arbiter.
-/

namespace MlirAie.Route

inductive WireBundle
  | Core
  | DMA
  | FIFO
  | South
  | West
  | North
  | East
  | PLIO
  | NOC
  | Trace
  | TileControl
  | Controller32
deriving DecidableEq, Repr, Inhabited

def WireBundle.stringify : WireBundle → String
  | .Core => "Core"
  | .DMA => "DMA"
  | .FIFO => "FIFO"
  | .South => "South"
  | .West => "West"
  | .North => "North"
  | .East => "East"
  | WireBundle.PLIO => "PLIO"
  | .NOC => "NOC"
  | .Trace => "Trace"
  | .TileControl => "TileControl"
  | .Controller32 => "Controller32"

instance : LinearOrder WireBundle :=
  LinearOrder.lift' WireBundle.ctorIdx fun a b h => by
    cases a <;> cases b <;> first | rfl | exact absurd h (by decide)

structure Port where
  bundle : WireBundle
  channel : ℕ
deriving DecidableEq, Repr, Inhabited

instance : LinearOrder Port :=
  LinearOrder.lift' (fun p : Port => toLex (p.bundle, p.channel)) fun ⟨_, _⟩ ⟨_, _⟩ h => by
    simpa using h

/-- `"DMA:0"`, as messages name ports. -/
def describePort (p : Port) : String := p.bundle.stringify ++ ":" ++ toString p.channel

def shimMuxChannelFrom (src : Port) : ℕ :=
  match src.bundle with
  | .DMA => if src.channel = 0 then 3 else 7
  | .NOC => if src.channel ≥ 2 then src.channel + 4 else src.channel + 2
  | _ => src.channel

/-- A slave port and a packet id. -/
structure FlowKey where
  slave : Port
  id : ℕ
deriving DecidableEq, Repr

instance : LinearOrder FlowKey :=
  LinearOrder.lift' (fun k : FlowKey => toLex (k.slave, k.id)) fun ⟨_, _⟩ ⟨_, _⟩ h => by
    simpa using h

structure TileID where
  col : ℕ
  row : ℕ
deriving DecidableEq, Repr

structure PhysPort where
  tile : TileID
  port : Port
deriving DecidableEq, Repr

/-- `"(1, 0) DMA:0"`, as messages name ports of tiles. -/
def describeTilePort (p : PhysPort) : String :=
  "(" ++ toString p.tile.col ++ ", " ++ toString p.tile.row ++ ") " ++ describePort p.port

/-- Packets with one id entering a switchbox on one slave port, and the master ports they leave
by, in order. -/
structure SlaveFlow where
  slave : Port
  id : ℕ
  masters : List Port
  isCtrlPkt : Bool
  sorted : masters.Pairwise (· < ·) := by decide
  nonempty : masters ≠ [] := by decide
deriving DecidableEq

namespace SlaveFlow

def key (f : SlaveFlow) : FlowKey := ⟨f.slave, f.id⟩

/-- `masters.front()`. -/
def front (f : SlaveFlow) : Port := f.masters.head f.nonempty

theorem front_mem (f : SlaveFlow) : f.front ∈ f.masters := List.head_mem f.nonempty

@[simp] theorem key_slave (f : SlaveFlow) : f.key.slave = f.slave := rfl

end SlaveFlow

/-- The amsel each slave flow takes, and the master ports each amsel selects. -/
structure ArbiterPlan where
  slaveAmsels : Std.TreeMap FlowKey ℕ := ∅
  amselMasters : Std.TreeMap ℕ (List Port) := ∅

/-- The streams of a device, by index: where they start and end, the streams that move as one with
each (the packets one source sends with one id), and which stream, stalled at its receiver, can
keep which other from arriving. -/
structure StreamConflicts where
  src : ℕ → PhysPort
  dst : ℕ → PhysPort
  tree : ℕ → List ℕ
  canBlock : ℕ → ℕ → Bool

namespace StreamConflicts

variable (c : StreamConflicts)

def blocks (s t : ℕ) : Bool :=
  if c.src s = c.src t ∨ c.dst s = c.dst t then false else c.canBlock s t

/-- Trees from one source, or into one receiver, already wait on each other there. -/
def related (s t : ℕ) : Bool :=
  c.src s = c.src t || (c.tree s).any fun m => (c.tree t).any fun n => c.dst m = c.dst n

def conflict (s t : ℕ) : Bool := !c.related s t && (c.blocks s t || c.blocks t s)

theorem related_comm (s t : ℕ) : c.related s t = c.related t s := by
  rw [Bool.eq_iff_iff]
  simp only [related, Bool.or_eq_true, decide_eq_true_eq, List.any_eq_true]
  constructor
  all_goals
    rintro (h | ⟨m, hm, n, hn, h⟩)
    · exact .inl h.symm
    · exact .inr ⟨n, hn, m, hm, h.symm⟩

theorem conflict_comm (s t : ℕ) : c.conflict s t = c.conflict t s := by
  rw [conflict, conflict, related_comm, Bool.or_comm]

end StreamConflicts

end MlirAie.Route
