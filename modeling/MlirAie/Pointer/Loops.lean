import MlirAie.Lib.Lists
import Mathlib

/-!
# Loop-carried indices become pointers

A loop over vector accesses carries an index. Where every use of the index is understood, the loop
is rebuilt to carry a pointer instead.

* **`ForOp.canConvertIndexIterArg`**: the closure over the uses of an index;
* **`ForOp.matchAndRewrite`**: the indices that are converted, and the rewrite;
* `NewOp`, `NewFor`: what becomes of an operation, and the new loop.
-/

namespace MlirAie.Pointer

open Lib

/-! ## Loops -/

/-- A value, as the operations of a loop body name it: result `i` of operation `k` of the body, or a
value that is defined within the regions of an operation. -/
inductive Ref
  | outer (n : ℕ)
  | iv
  | arg (j : ℕ)
  | result (k i : ℕ)
  | inner (n : ℕ)
deriving DecidableEq

/-- `isDefinedOutsideOfLoop`. -/
def Ref.isOuter : Ref → Bool
  | outer _ => true
  | _ => false

/-- Whether the value is there before operation `k`. -/
def Ref.Before (k : ℕ) : Ref → Prop
  | result k' _ => k' < k
  | inner _ => False
  | _ => True

/-- Types; the elements of a memref are a whole number of bytes. -/
inductive Ty
  | index
  | memref (bytes : ℕ)
  | ptr
  | other (n : ℕ)
deriving DecidableEq

/-- `getElementTypeBitWidth`, of a memref. -/
def Ty.elementSizeBits : Ty → ℕ
  | memref bytes => 8 * bytes
  | _ => 0

def Ty.elementSizeBytes (t : Ty) : ℕ := (t.elementSizeBits + 7) / 8

/-- The dimensions of a vector type. -/
abbrev Shape := {dims : List ℕ // ∀ n ∈ dims, n ≠ 0}

/-- The operations of a body. Others are told apart by a kind; their regions read `captured` values
and may hold accesses with one index, of a base and an index. -/
inductive Op (κ : Type)
  | load (base : Ref) (indices : List Ref) (shape : Shape)
  | store (value base : Ref) (indices : List Ref) (shape : Shape)
  | addi (lhs rhs : Ref)
  | other (kind : κ) (operands captured : List Ref) (accesses : List (Ref × Ref))

namespace Op

variable {κ : Type}

def operands : Op κ → List Ref
  | load base indices _ => base :: indices
  | store value base indices _ => value :: base :: indices
  | addi lhs rhs => [lhs, rhs]
  | other _ operands _ _ => operands

/-- The values of the body that the operation's regions read. -/
def captured : Op κ → List Ref
  | other _ _ captured _ => captured
  | _ => []

/-- The operands of the operations in the operation's regions. -/
def nested : Op κ → List Ref
  | other _ _ captured accesses => captured ++ accesses.flatMap fun a => [a.1, a.2]
  | _ => []

/-- The vector accesses with one index, the operation itself or one in its regions. -/
def accesses : Op κ → List (Ref × Ref)
  | load base [index] _ => [(base, index)]
  | store _ base [index] _ => [(base, index)]
  | other _ _ _ accesses => accesses
  | _ => []

/-- What the verifier checks of the types of operation `k`. -/
def Typed (type : Ref → Ty) (k : ℕ) : Op κ → Prop
  | load base indices _ => (∃ bytes, type base = .memref bytes) ∧ ∀ r ∈ indices, type r = .index
  | store _ base indices _ => (∃ bytes, type base = .memref bytes) ∧ ∀ r ∈ indices, type r = .index
  | addi lhs rhs => type lhs = type (.result k 0) ∧ type rhs = type (.result k 0)
  | other .. => True

end Op

/-- An `scf.for` that the verifier accepts. -/
structure ForOp (κ : Type) where
  type : Ref → Ty
  inits : List Ref
  body : List (Op κ)
  yields : List Ref
  resultUsed : ℕ → Bool
  length_yields : yields.length = inits.length
  inits_outer : ∀ r ∈ inits, r.isOuter
  operands_before : ∀ (k : ℕ) (op : Op κ), body[k]? = some op →
    ∀ r ∈ op.operands ++ op.captured, r.Before k
  yields_before : ∀ r ∈ yields, r.Before body.length
  typed : ∀ (k : ℕ) (op : Op κ), body[k]? = some op → op.Typed type k

variable {κ : Type}

namespace ForOp

variable (f : ForOp κ)

/-! ## Analysis -/

/-- `analyzeLoopForVectorAccesses`: the accesses whose index is loop-carried, by their base and the
position of the index. -/
def memrefAccesses : List (Ref × ℕ) :=
  (f.body.flatMap Op.accesses).filterMap fun a =>
    match a.2 with
    | .arg j => some (a.1, j)
    | _ => none

/-- The memrefs that the index at `pos` accesses. -/
def owners (pos : ℕ) : List Ref := ((f.memrefAccesses.filter (·.2 = pos)).map Prod.fst).dedup

/-- A use of a value: an operand of an operation of the body, one in its regions, or an operand of
the terminator. -/
inductive Use (κ : Type)
  | operand (k : ℕ) (op : Op κ)
  | nested
  | yielded (n : ℕ)

/-- `getUses`. -/
def usesOf (v : Ref) : List (Use κ) :=
  (f.body.zipIdx.flatMap fun p =>
    ((p.1.operands.filter (· = v)).map fun _ => .operand p.2 p.1) ++
      (p.1.nested.filter (· = v)).map fun _ => .nested) ++
    (f.yields.zipIdx.filter (·.1 = v)).map fun p => .yielded p.2

/-- One use of a value of the chain; the worklist's end comes first. -/
def useStep (pos : ℕ) (memref v : Ref) (s : List Ref × List Ref) :
    Use κ → Option (List Ref × List Ref)
  | .nested => none
  | .yielded n => if n = pos then some s else none
  | .operand _ (.load base indices _) => if base = memref ∧ indices = [v] then some s else none
  | .operand _ (.store value base indices _) =>
    if base = memref ∧ indices = [v] ∧ value ≠ v then some s else none
  | .operand k (.addi lhs rhs) =>
    -- only a pointer and an offset can be added
    if lhs ∈ s.2 ∧ rhs ∈ s.2 then none
    else if Ref.result k 0 ∈ s.2 then some s
    else some (.result k 0 :: s.1, .result k 0 :: s.2)
  | .operand _ (.other ..) => none

/-- The worklist loop over the chain, for at most a number of passes. -/
def close (pos : ℕ) (memref : Ref) : ℕ → List Ref → List Ref → Option (List Ref)
  | _, [], chain => some chain
  | 0, _ :: _, _ => none
  | fuel + 1, v :: worklist, chain =>
    ((f.usesOf v).foldlM (useStep pos memref v) (worklist, chain)).bind fun s =>
      close pos memref fuel s.1 s.2

/-- **`canConvertIndexIterArg`**, with the chain of the index. -/
def canConvertIndexIterArg (pos : ℕ) (memref : Ref) : Option (List Ref) :=
  if memref.isOuter = false then none
  else if f.resultUsed pos then none
  else (f.close pos memref (f.body.length + 1) [.arg pos] [.arg pos]).bind fun chain =>
    if ∃ y ∈ f.yields[pos]?, y ∈ chain then some chain else none

/-- An index that becomes a pointer into a memref, and what is derived from it. -/
structure Conversion where
  pos : ℕ
  memref : Ref
  chain : List Ref

/-- The conversions of the positions in order; chains may not meet those converted before. -/
def conversions : List ℕ → List Ref → Option (List Conversion)
  | [], _ => some []
  | pos :: rest, converted =>
    match f.owners pos with
    | [] => conversions rest converted
    | [memref] => (f.canConvertIndexIterArg pos memref).bind fun chain =>
      if ∃ r ∈ chain, r ∈ converted then none
      else (conversions rest (converted ++ chain)).map (⟨pos, memref, chain⟩ :: ·)
    | _ => none

end ForOp

/-! ## The new loop -/

/-- An operation of the new body, whose result is named as the one it replaces. An access takes its
pointer and the memref whose metadata the pointer is given; the offset of an addition is scaled by
the size of an element. -/
inductive NewOp (κ : Type)
  | clone (op : Op κ)
  | ptrLoad (ptr base : Ref) (shape : Shape)
  | ptrStore (value ptr base : Ref) (shape : Shape)
  | ptrAdd (ptr offset : Ref) (elementSizeBytes : ℕ)

/-- An init argument: as it was, or a pointer into a memref from it. -/
inductive NewInit
  | same (r : Ref)
  | ptrAdd (memref offset : Ref) (elementSizeBytes : ℕ)

/-- `ptrToMemref`, of the pointers in the new loop. -/
abbrev Pointers := Ref → Option Ref

structure NewFor (κ : Type) where
  inits : List NewInit
  body : List (NewOp κ)
  yields : List Ref
  pointers : Pointers

namespace ForOp

variable (f : ForOp κ)

/-- What an operation becomes, and the pointers after it. -/
def rewriteOp (k : ℕ) (ptrs : Pointers) : Op κ → Option (NewOp κ × Pointers)
  | .load base indices shape =>
    -- the first index is read, whether there is one or not
    indices.head?.map fun idx =>
      if (ptrs idx).isSome then (.ptrLoad idx base shape, ptrs)
      else (.clone (.load base indices shape), ptrs)
  | .store value base indices shape =>
    indices.head?.map fun idx =>
      if (ptrs idx).isSome then (.ptrStore value idx base shape, ptrs)
      else (.clone (.store value base indices shape), ptrs)
  | .addi lhs rhs =>
    let swapped := if (ptrs rhs).isSome then (rhs, lhs) else (lhs, rhs)
    some <| match ptrs swapped.1 with
    | some memref => (.ptrAdd swapped.1 swapped.2 (f.type memref).elementSizeBytes,
        Function.update ptrs (.result k 0) (some memref))
    | none => (.clone (.addi lhs rhs), ptrs)
  | op => some (.clone op, ptrs)

def rewriteOps : ℕ → Pointers → List (Op κ) → Option (List (NewOp κ) × Pointers)
  | _, ptrs, [] => some ([], ptrs)
  | k, ptrs, op :: ops =>
    (f.rewriteOp k ptrs op).bind fun new =>
      (rewriteOps (k + 1) new.2 ops).map fun rest => (new.1 :: rest.1, rest.2)

def argPointers (cs : List Conversion) : Pointers
  | .arg j => (cs.find? (·.pos = j)).map (·.memref)
  | _ => none

def newInit (cs : List Conversion) (r : Ref) (j : ℕ) : NewInit :=
  match cs.find? (·.pos = j) with
  | some c => .ptrAdd c.memref r (f.type c.memref).elementSizeBytes
  | none => .same r

/-- **`matchAndRewrite`**; nothing where the pattern fails. -/
def matchAndRewrite : Option (NewFor κ) :=
  if ∃ j ∈ List.range f.inits.length, f.type (.arg j) = .ptr then none
  else if f.memrefAccesses = [] then none
  else (f.conversions (List.range f.inits.length) []).bind fun cs =>
    if cs = [] then none
    else (f.rewriteOps 0 (argPointers cs) f.body).map fun new =>
      { inits := f.inits.zipIdx.map fun p => f.newInit cs p.1 p.2
        body := new.1
        yields := f.yields
        pointers := new.2 }

end ForOp

end MlirAie.Pointer
