import MlirAie.Lib.PathSum
import MlirAie.Stack.Graph

/-!
# The stack requirement walk

The maximum over the call paths from the entry point of the sum of their frames. An override ends a
path, and counts for all that is below it. The walk goes depth first and remembers the totals of
the functions it has finished; a call into a function in progress is a recursion.

* `Walk`: what the walk keeps; `Failure`: why it fails, and the text it fails with;
* `maxPathFrom`: the walk, `none` where the recursion is deeper than the number it is given;
* `claimedFrameEndFrom`: where the deepest frame of a claimed function ends.
-/

namespace MlirAie.Stack

inductive VisitState
  | Unvisited
  | InProgress
  | Done
deriving DecidableEq, Repr

/-- What the walk keeps: the path stack holds the functions in progress, outermost first. -/
structure Walk where
  state : Address → VisitState := fun _ => .Unvisited
  memo : Address → Option Int64 := fun _ => none
  pathStack : List Address := []
  unmeasured : List Address := []

inductive StackRequirementFailure
  | Cycle
  | Unmeasurable
deriving DecidableEq, Repr

/-- Why the walk fails: the functions of a recursion, or the one whose total overflows. -/
inductive Failure
  | cycle (path : List Address)
  | overflow (func : Address)
deriving DecidableEq, Repr

def Failure.kind : Failure → StackRequirementFailure
  | .cycle _ => .Cycle
  | .overflow _ => .Unmeasurable

/-- `llvm::utohexstr`. -/
def utohexstr (n : ℕ) : String := (String.ofList (Nat.toDigits 16 n)).toUpper

namespace Graph

variable (g : Graph)

def describe (addr : Address) : String := g.nameOf addr ++ "@0x" ++ utohexstr addr.toNat

/-- The text of a failure. -/
def error : Failure → String
  | .cycle path => "recursion detected: " ++ " -> ".intercalate (path.map g.describe)
  | .overflow func => "stack requirement for '" ++ g.nameOf func ++
      "' overflows a signed 64-bit byte count; the core's .stack_sizes data is not believable"

/-- The frame of a function; `0` where it is not known. -/
def frameSize (sym : Address) : Int64 := (g.knownFrameSize sym).getD 0

end Graph

/-! ## The walk -/

/-- The result of a visit; `none` where the recursion was cut off. -/
abbrev Visited := Option (Except Failure (Int64 × Walk))

namespace Walk

variable (w : Walk)

/-- A function whose frame is not known is kept for the report. -/
def measure (g : Graph) (sym : Address) : Walk :=
  if (g.knownFrameSize sym).isNone then { w with unmeasured := w.unmeasured.insert sym } else w

def enter (sym : Address) : Walk :=
  { w with
    state := Function.update w.state sym .InProgress
    pathStack := w.pathStack ++ [sym] }

def leave (sym : Address) : Walk :=
  { w with
    state := Function.update w.state sym .Done
    pathStack := w.pathStack.dropLast }

def record (sym : Address) (total : Int64) : Walk :=
  { w with memo := Function.update w.memo sym (some total) }

end Walk

/-- The loop over the callees: `best` is the largest total so far. -/
def visitCallees (visit : Address → Walk → Visited) : List Address → Int64 → Walk → Visited
  | [], best, w => some (.ok (best, w))
  | callee :: callees, best, w =>
    match visit callee w with
    | none => none
    | some (.error e) => some (.error e)
    | some (.ok (sub, w)) => visitCallees visit callees (max best sub) w

/-- **The walk**, with the depth of its recursion bounded. -/
def maxPathFrom (g : Graph) : ℕ → Address → Walk → Visited
  | 0, _, _ => none
  | fuel + 1, sym, w =>
    match g.overridesByAddr.lookup sym with
    | some bytes => some (.ok (bytes, w))
    | none =>
      match w.memo sym with
      | some total => some (.ok (total, w))
      | none =>
        if w.state sym = .InProgress then some (.error (.cycle (w.pathStack ++ [sym])))
        else
          match visitCallees (maxPathFrom g fuel) (g.callees sym) 0
              ((w.measure g sym).enter sym) with
          | none => none
          | some (.error e) => some (.error e)
          | some (.ok (best, w)) =>
            if Int64.maxValue - best < g.frameSize sym then some (.error (.overflow sym))
            else
              some (.ok (g.frameSize sym + best,
                (w.leave sym).record sym (g.frameSize sym + best)))

/-! ## The claimed functions -/

/-- The totals that the second walk remembers. -/
abbrev Memo := Address → Option Int64

/-- The loop over the callees; a callee that reaches no claimed function says nothing. -/
def deepestOver (visit : Address → Memo → Option (Int64 × Memo)) (frameSize : Int64) :
    List Address → Int64 → Memo → Option (Int64 × Memo)
  | [], deepest, memo => some (deepest, memo)
  | callee :: callees, deepest, memo =>
    match visit callee memo with
    | none => none
    | some (sub, memo) =>
      deepestOver visit frameSize callees
        (if 0 ≤ sub then max deepest (frameSize + sub) else deepest) memo

/-- **Where the deepest frame of a claimed function ends**, and `-1` if no path reaches one. -/
def claimedFrameEndFrom (g : Graph) (claimed : List Address) :
    ℕ → Address → Memo → Option (Int64 × Memo)
  | 0, _, _ => none
  | fuel + 1, sym, memo =>
    match g.overridesByAddr.lookup sym with
    | some bytes => some (if sym ∈ claimed then bytes else -1, memo)
    | none =>
      match memo sym with
      | some deepest => some (deepest, memo)
      | none =>
        match deepestOver (claimedFrameEndFrom g claimed fuel) (g.frameSize sym) (g.callees sym)
            (if sym ∈ claimed then g.frameSize sym else -1) memo with
        | none => none
        | some (deepest, memo) => some (deepest, Function.update memo sym (some deepest))

/-! ## The paths of a call graph -/

namespace Graph

variable (g : Graph)

/-- A call that the walk follows: an override hides what is below it. -/
def Step (a b : Address) : Prop := g.overridesByAddr.lookup a = none ∧ b ∈ g.callees a

/-- What a function counts for: its override, or its frame. -/
def bytes (sym : Address) : ℤ := ((g.overridesByAddr.lookup sym).getD (g.frameSize sym)).toInt

/-- A function without an override whose frame nothing reports. -/
def Unmeasured (sym : Address) : Prop :=
  g.overridesByAddr.lookup sym = none ∧ g.knownFrameSize sym = none

end Graph

end MlirAie.Stack
