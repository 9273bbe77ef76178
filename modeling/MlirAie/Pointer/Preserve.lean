import MlirAie.Lib.Strided
import MlirAie.Pointer.Chains

/-!
# What the new loop accesses

Both loops run over values and a memory. A converted access of the new loop starts at its pointer,
which has gone the index's steps in bytes of an element each, whatever the memref's stride is.

* `Related`: an index and its pointer;
* **`run_convertOp`**, **`runBody_convert`**, **`iteration_convert`**: an operation, a body and an
  iteration;
* **`Preserves`**, **`preserves_iff`**: when every access stays where it was.
-/

namespace MlirAie.Pointer

open Lib

variable {κ R D W : Type}

/-! ## Meaning -/

/-- A memref; `base` is the address of its first element, and strides count elements. -/
structure MemRef (R : Type) where
  base : R
  strides : List R

inductive Val (R D : Type)
  | index (x : R)
  | memref (m : MemRef R)
  | ptr (p : R)
  | data (d : D)

/-- The addresses of the elements that a vector access reads or writes. -/
structure Access (R : Type) where
  store : Bool
  addresses : List R

structure Effect (R D W : Type) where
  results : ℕ → Val R D
  world : W
  accesses : List (Access R)

/-- What memory holds, and what operations do that the pass only copies. -/
structure Machine (κ R D W : Type) where
  undef : D
  read : W → ℕ → List R → D
  write : W → ℕ → List R → Val R D → W
  add : Val R D → Val R D → Val R D
  other : κ → List (Val R D) → List (Val R D) → W → Effect R D W

section Meaning

variable [CommRing R]

def Val.toIndex : Val R D → R
  | index x => x
  | _ => 0

def Val.toMemref : Val R D → MemRef R
  | memref m => m
  | _ => ⟨0, []⟩

def Val.toPtr : Val R D → R
  | ptr p => p
  | _ => 0

def Ty.bytes : Ty → ℕ
  | memref bytes => bytes
  | _ => 0

/-- The elements of a vector from an index on, by their addresses. -/
def addresses (bytes : ℕ) (m : MemRef R) (indices : List R) (shape : Shape) : List R :=
  (offsets shape.1 (m.strides.drop (m.strides.length - shape.1.length))).map fun o =>
    m.base + bytes * ((List.zipWith (· * ·) indices m.strides).sum + o)

/-- `ptr.to_ptr`, `ptr.get_metadata` and `ptr.from_ptr` take a memref apart and put it together. -/
def toPtr (m : MemRef R) : R := m.base

def getMetadata (m : MemRef R) : List R := m.strides

def fromPtr (p : R) (metadata : List R) : MemRef R := ⟨p, metadata⟩

/-- `ptr.ptr_add`, of an offset in elements. -/
def ptrAdd (p offset : R) (elementSizeBytes : ℕ) : R :=
  p + if elementSizeBytes ≠ 1 then offset * elementSizeBytes else offset

abbrev Env (R D : Type) := Ref → Val R D

def result (undef : D) (v : Val R D) : ℕ → Val R D
  | 0 => v
  | _ => .data undef

variable (M : Machine κ R D W) (type : Ref → Ty)

def Op.run (env : Env R D) (w : W) : Op κ → Effect R D W
  | load base indices shape =>
    let a := addresses (type base).bytes (env base).toMemref
      (indices.map fun r => (env r).toIndex) shape
    ⟨result M.undef (.data (M.read w (type base).bytes a)), w, [⟨false, a⟩]⟩
  | store value base indices shape =>
    let a := addresses (type base).bytes (env base).toMemref
      (indices.map fun r => (env r).toIndex) shape
    ⟨result M.undef (.data M.undef), M.write w (type base).bytes a (env value), [⟨true, a⟩]⟩
  | addi lhs rhs =>
    ⟨result M.undef (if type lhs = .index then .index ((env lhs).toIndex + (env rhs).toIndex)
      else M.add (env lhs) (env rhs)), w, []⟩
  | other kind operands captured _ => M.other kind (operands.map env) (captured.map env) w

def NewOp.run (env : Env R D) (w : W) : NewOp κ → Effect R D W
  | clone op => op.run M type env w
  | ptrLoad ptr base shape =>
    let view := fromPtr (env ptr).toPtr (getMetadata (env base).toMemref)
    let a := addresses (type base).bytes view [0] shape
    ⟨result M.undef (.data (M.read w (type base).bytes a)), w, [⟨false, a⟩]⟩
  | ptrStore value ptr base shape =>
    let view := fromPtr (env ptr).toPtr (getMetadata (env base).toMemref)
    let a := addresses (type base).bytes view [0] shape
    ⟨result M.undef (.data M.undef), M.write w (type base).bytes a (env value), [⟨true, a⟩]⟩
  | ptrAdd ptr offset elementSizeBytes =>
    ⟨result M.undef (.ptr (Pointer.ptrAdd (env ptr).toPtr (env offset).toIndex elementSizeBytes)),
      w, []⟩

end Meaning

/-! ## Runs -/

structure Outcome (R D W : Type) where
  env : Env R D
  world : W
  accesses : List (Access R)

/-- The results of operation `k` are there after it. -/
def Env.define (env : Env R D) (k : ℕ) (results : ℕ → Val R D) : Env R D
  | .result k' i => if k' = k then results i else env (.result k' i)
  | r => env r

def runBody {α : Type} (step : Env R D → W → α → Effect R D W) :
    ℕ → List α → Env R D → W → Outcome R D W
  | _, [], env, w => ⟨env, w, []⟩
  | k, op :: ops, env, w =>
    let s := step env w op
    let t := runBody step (k + 1) ops (env.define k s.results) s.world
    ⟨t.env, t.world, s.accesses ++ t.accesses⟩

/-- What a loop starts from: the values outside, how often its bounds and step let it run, the
induction variable by the iteration, and memory. -/
structure Inputs (R D W : Type) where
  outer : ℕ → Val R D
  trips : ℕ
  iv : ℕ → Val R D
  world : W

/-- The values when a body starts. -/
def entry (undef : D) (x : Inputs R D W) (n : ℕ) (args : ℕ → Val R D) : Env R D
  | .outer m => x.outer m
  | .iv => x.iv n
  | .arg j => args j
  | _ => .data undef

/-- The arguments and the memory of each iteration, through the outcome of the one before. -/
def starts (undef : D) (yields : List Ref) (body : ℕ → (ℕ → Val R D) → W → Outcome R D W)
    (args : ℕ → Val R D) (w : W) : ℕ → (ℕ → Val R D) × W
  | 0 => (args, w)
  | n + 1 =>
    let s := starts undef yields body args w n
    let t := body n s.1 s.2
    (fun j => (yields[j]?.map t.env).getD (.data undef), t.world)

section Loops

variable [CommRing R] (M : Machine κ R D W) (x : Inputs R D W) (f : ForOp κ) (new : NewFor κ)

def outerValue : Ref → Val R D
  | .outer n => x.outer n
  | _ => .data M.undef

def ForOp.pass (n : ℕ) (args : ℕ → Val R D) (w : W) : Outcome R D W :=
  runBody (fun env w op => op.run M f.type env w) 0 f.body (entry M.undef x n args) w

def ForOp.start : ℕ → (ℕ → Val R D) × W :=
  starts M.undef f.yields (f.pass M x)
    (fun j => (f.inits[j]?.map (outerValue M x)).getD (.data M.undef)) x.world

/-- Iteration `n` of the loop. -/
def ForOp.iteration (n : ℕ) : Outcome R D W := f.pass M x n (f.start M x n).1 (f.start M x n).2

def NewInit.value : NewInit → Val R D
  | same r => outerValue M x r
  | ptrAdd memref offset elementSizeBytes =>
    .ptr (Pointer.ptrAdd (toPtr (outerValue M x memref).toMemref) (outerValue M x offset).toIndex
      elementSizeBytes)

def NewFor.pass (type : Ref → Ty) (n : ℕ) (args : ℕ → Val R D) (w : W) : Outcome R D W :=
  runBody (fun env w op => op.run M type env w) 0 new.body (entry M.undef x n args) w

def NewFor.start (type : Ref → Ty) : ℕ → (ℕ → Val R D) × W :=
  starts M.undef new.yields (new.pass M x type)
    (fun j => (new.inits[j]?.map (NewInit.value M x)).getD (.data M.undef)) x.world

/-- Iteration `n` of the new loop. -/
def NewFor.iteration (type : Ref → Ty) (n : ℕ) : Outcome R D W :=
  new.pass M x type n (new.start M x type n).1 (new.start M x type n).2

end Loops

/-! ## Addresses -/

section Addresses

variable [CommRing R]

theorem run_ne_nil {n : ℕ} (hn : n ≠ 0) (t : R) : run 0 t n ≠ [] := by
  rw [run, Ne, List.map_eq_nil_iff, List.range_eq_nil]
  exact hn

theorem offsets_ne_nil {dims : List ℕ} (h : ∀ n ∈ dims, n ≠ 0) (strides : List R) :
    offsets dims strides ≠ [] := by
  induction dims generalizing strides with
  | nil =>
    cases strides <;> exact List.cons_ne_nil _ _
  | cons n dims ih =>
    cases strides with
    | nil => exact List.cons_ne_nil _ _
    | cons t strides =>
      obtain ⟨a, ha⟩ := List.exists_mem_of_ne_nil _
        (ih (fun n hn => h n (List.mem_cons_of_mem _ hn)) strides)
      obtain ⟨b, hb⟩ := List.exists_mem_of_ne_nil _ (run_ne_nil (h n List.mem_cons_self) t)
      rw [offsets_cons]
      exact List.ne_nil_of_mem (mem_nest.2 ⟨b, hb, a, ha, rfl⟩)

def MemRef.stride (m : MemRef R) : R := m.strides.headD 0

/-- **An access through a pointer** is the access at the index when each step of the index is a step
of an element's bytes, or there is none. -/
theorem addresses_fromPtr_iff {bytes : ℕ} {m : MemRef R} {i : R} {shape : Shape} :
    addresses bytes (fromPtr (toPtr m + bytes * i) (getMetadata m)) [0] shape =
      addresses bytes m [i] shape ↔ (bytes : R) * (i * (m.stride - 1)) = 0 := by
  have hzero : (List.zipWith (· * ·) [0] m.strides).sum = 0 := by
    cases m.strides <;> simp
  have hindex : (List.zipWith (· * ·) [i] m.strides).sum = i * m.stride := by
    unfold MemRef.stride
    cases m.strides <;> simp
  have hterm : ∀ o : R,
      toPtr m + bytes * i + bytes * (0 + o) = m.base + bytes * (i * m.stride + o) ↔
        (bytes : R) * (i * (m.stride - 1)) = 0 := by
    intro o
    unfold toPtr
    constructor
    · intro h
      linear_combination -h
    · intro h
      linear_combination -h
  unfold addresses
  show (offsets shape.1 (m.strides.drop (m.strides.length - shape.1.length))).map (fun o =>
    toPtr m + bytes * i + bytes * ((List.zipWith (· * ·) [0] m.strides).sum + o)) = _ ↔ _
  rw [hzero, hindex, List.map_inj_left]
  simp only [hterm]
  obtain ⟨o, ho⟩ := List.exists_mem_of_ne_nil _ (offsets_ne_nil shape.2
    (m.strides.drop (m.strides.length - shape.1.length)))
  exact ⟨fun h => h o ho, fun h _ _ => h⟩

end Addresses

/-! ## One operation -/

section Simulation

variable [CommRing R] {M : Machine κ R D W} {x : Inputs R D W} {f : ForOp κ} {owner : Pointers}

/-- A value of the loop and of the new loop: the same, or an index and the pointer that has gone
that many elements. -/
def Related (M : Machine κ R D W) (x : Inputs R D W) (f : ForOp κ) (owner : Pointers) (r : Ref)
    (v v' : Val R D) : Prop :=
  match owner r with
  | none => v' = v
  | some m => v' = .ptr (toPtr (outerValue M x m).toMemref + (f.type m).bytes * v.toIndex)

theorem Related.eq {r : Ref} {v v' : Val R D} (h : Related M x f owner r v v')
    (hr : owner r = none) : v' = v := by
  unfold Related at h
  rwa [hr] at h

theorem Related.ptr {r m : Ref} {v v' : Val R D} (h : Related M x f owner r v v')
    (hr : owner r = some m) :
    v' = .ptr (toPtr (outerValue M x m).toMemref + (f.type m).bytes * v.toIndex) := by
  unfold Related at h
  rwa [hr] at h

theorem related_of_none {r : Ref} {v v' : Val R D} (hr : owner r = none) (h : v' = v) :
    Related M x f owner r v v' := by
  unfold Related
  rwa [hr]

theorem related_of_some {r m : Ref} {v v' : Val R D} (hr : owner r = some m)
    (h : v' = .ptr (toPtr (outerValue M x m).toMemref + (f.type m).bytes * v.toIndex)) :
    Related M x f owner r v v' := by
  unfold Related
  rwa [hr]

/-- The steps of a converted access come to the same address. -/
def Harmless (f : ForOp κ) (owner : Pointers) (env : Env R D) (op : Op κ) : Prop :=
  ∀ a ∈ op.accesses, (owner a.2).isSome →
    ((f.type a.1).bytes : R) * ((env a.2).toIndex * ((env a.1).toMemref.stride - 1)) = 0

theorem Converts.mem_operands (h : Converts f owner) {k : ℕ} {op : Op κ}
    (hop : f.body[k]? = some op) {a : Ref × Ref} (ha : a ∈ op.accesses)
    (hsome : (owner a.2).isSome) : a.1 ∈ op.operands ∧ a.2 ∈ op.operands := by
  rcases Op.of_mem_accesses ha with ⟨shape, rfl⟩ | ⟨value, shape, rfl⟩ | hnested
  · exact ⟨List.mem_cons_self, List.mem_cons_of_mem _ List.mem_cons_self⟩
  · exact ⟨List.mem_cons_of_mem _ List.mem_cons_self,
      List.mem_cons_of_mem _ (List.mem_cons_of_mem _ List.mem_cons_self)⟩
  · rw [h.nested k op hop _ hnested] at hsome
    cases hsome

theorem elementSizeBytes_memref (bytes : ℕ) : (Ty.memref bytes).elementSizeBytes = bytes := by
  show (8 * bytes + 7) / 8 = bytes
  omega

theorem ptrAdd_eq (p offset : R) (bytes : ℕ) : ptrAdd p offset bytes = p + bytes * offset := by
  unfold ptrAdd
  split_ifs with h
  · rw [mul_comm]
  · rw [not_not] at h
    rw [h, Nat.cast_one, one_mul]

theorem Op.run_congr {type : Ref → Ty} {env env' : Env R D} {w : W} {op : Op κ}
    (h : ∀ r ∈ op.operands ++ op.captured, env' r = env r) :
    op.run M type env' w = op.run M type env w := by
  cases op with
  | load base indices shape =>
    have hbase := h base List.mem_cons_self
    have hindices : indices.map (fun r => (env' r).toIndex) =
        indices.map fun r => (env r).toIndex := List.map_congr_left fun r hr => by
      rw [h r (List.mem_append_left _ (List.mem_cons_of_mem _ hr))]
    simp only [Op.run, hbase, hindices]
  | store value base indices shape =>
    have hvalue := h value List.mem_cons_self
    have hbase := h base (List.mem_cons_of_mem _ List.mem_cons_self)
    have hindices : indices.map (fun r => (env' r).toIndex) =
        indices.map fun r => (env r).toIndex := List.map_congr_left fun r hr => by
      rw [h r (List.mem_append_left _ (List.mem_cons_of_mem _ (List.mem_cons_of_mem _ hr)))]
    simp only [Op.run, hvalue, hbase, hindices]
  | addi lhs rhs =>
    have hlhs := h lhs List.mem_cons_self
    have hrhs := h rhs (List.mem_cons_of_mem _ List.mem_cons_self)
    simp only [Op.run, hlhs, hrhs]
  | other kind operands captured accesses =>
    have hoperands : operands.map env' = operands.map env := List.map_congr_left fun r hr =>
      h r (List.mem_append_left _ hr)
    have hcaptured : captured.map env' = captured.map env := List.map_congr_left fun r hr =>
      h r (List.mem_append_right _ hr)
    simp only [Op.run, hoperands, hcaptured]

/-- What a converted operation does, next to the operation. -/
structure Simulates (M : Machine κ R D W) (x : Inputs R D W) (f : ForOp κ) (owner : Pointers)
    (k : ℕ) (harmless : Prop) (s s' : Effect R D W) : Prop where
  length_eq : s'.accesses.length = s.accesses.length
  accesses_iff : s'.accesses = s.accesses ↔ harmless
  world : harmless → s'.world = s.world
  results : harmless → ∀ i, Related M x f owner (.result k i) (s.results i) (s'.results i)

theorem simulates_self {k : ℕ} {harmless : Prop} {s s' : Effect R D W} (heq : s' = s)
    (hharmless : harmless) (hresult : ∀ i, owner (.result k i) = none) :
    Simulates M x f owner k harmless s s' where
  length_eq := by rw [heq]
  accesses_iff := iff_of_true (by rw [heq]) hharmless
  world := fun _ => by rw [heq]
  results := fun _ i => related_of_none (hresult i) (by rw [heq])

variable {k : ℕ} {env env' : Env R D} {w : W}

/-- A pointer in front of its memref. -/
theorem addresses_iff (houter : ∀ r, r.isOuter → env r = outerValue M x r)
    (hrel : ∀ r, r.Before k → Related M x f owner r (env r) (env' r)) {base v : Ref} {shape : Shape}
    (hbase : owner base = none) (hb : base.Before k) (ho : base.isOuter) (hv : owner v = some base)
    (hvb : v.Before k) :
    addresses (f.type base).bytes (fromPtr (env' v).toPtr (getMetadata (env' base).toMemref)) [0]
        shape = addresses (f.type base).bytes (env base).toMemref [(env v).toIndex] shape ↔
      ((f.type base).bytes : R) * ((env v).toIndex * ((env base).toMemref.stride - 1)) = 0 := by
  rw [(hrel v hvb).ptr hv, (hrel base hb).eq hbase, ← houter base ho]
  exact addresses_fromPtr_iff

theorem harmless_of_none (h : Converts f owner) {op : Op κ} (hop : f.body[k]? = some op)
    (hnone : ∀ r ∈ op.operands, owner r = none) : Harmless f owner env op := by
  intro a ha hsome
  rw [hnone _ (h.mem_operands hop ha hsome).2] at hsome
  cases hsome

/-- An access whose index becomes a pointer. -/
theorem harmless_singleton {op : Op κ} {base v : Ref} (hop : op.accesses = [(base, v)])
    (hv : owner v = some base) : Harmless f owner env op ↔
      ((f.type base).bytes : R) * ((env v).toIndex * ((env base).toMemref.stride - 1)) = 0 := by
  unfold Harmless
  rw [hop]
  simp only [List.mem_singleton, forall_eq, hv, Option.isSome_some, true_imp_iff]

/-- An operation without pointers is copied, and does the same. -/
theorem run_clone (h : Converts f owner) {op : Op κ} (hop : f.body[k]? = some op)
    (hrel : ∀ r, r.Before k → Related M x f owner r (env r) (env' r))
    (hcopied : IsCopied f owner k op) :
    Simulates M x f owner k (Harmless f owner env op) (op.run M f.type env w)
      ((convertOp f owner op).run M f.type env' w) := by
  obtain ⟨hclone, hnone, hresult⟩ := hcopied
  have hcaptured : ∀ r ∈ op.captured, owner r = none := fun r hr => by
    cases op with
    | other kind operands captured accesses =>
      exact h.nested k _ hop r (List.mem_append_left _ hr)
    | _ => cases hr
  rw [hclone]
  refine simulates_self ?_ (harmless_of_none h hop hnone) hresult
  refine Op.run_congr fun r hr => (hrel r (f.operands_before k op hop r hr)).eq ?_
  exact (List.mem_append.1 hr).elim (hnone r) (hcaptured r)

/-- An access at a pointer does the same, as long as it is harmless. -/
theorem run_access (h : Converts f owner) {op : Op κ} (hop : f.body[k]? = some op)
    (houter : ∀ r, r.isOuter → env r = outerValue M x r)
    (hrel : ∀ r, r.Before k → Related M x f owner r (env r) (env' r))
    (haccess : IsAccess f owner k op) :
    Simulates M x f owner k (Harmless f owner env op) (op.run M f.type env w)
      ((convertOp f owner op).run M f.type env' w) := by
  obtain ⟨base, v, shape, hv, hbase, hresult, hcase⟩ := haccess
  have hsame : op.accesses = [(base, v)] := by
    rcases hcase with ⟨rfl, -⟩ | ⟨value, -, rfl, -⟩ <;> rfl
  have hmem := h.mem_operands hop (hsame ▸ List.mem_singleton_self (base, v))
    (Option.isSome_of_eq_some hv)
  have hbefore : ∀ r ∈ op.operands, r.Before k := fun r hr =>
    f.operands_before k op hop r (List.mem_append_left _ hr)
  have haddresses := @addresses_iff κ R D W _ M x f owner k env env' houter hrel base v shape hbase
    (hbefore base hmem.1) (h.outer v base hv) hv (hbefore v hmem.2)
  have hharmless := @harmless_singleton κ R D _ f owner env op base v hsame hv
  rw [← haddresses] at hharmless
  rcases hcase with ⟨rfl, hnew⟩ | ⟨value, hvalue, rfl, hnew⟩
  · rw [hnew]
    refine ⟨rfl, ?_, fun _ => rfl, fun hok i => related_of_none (hresult i) ?_⟩
    · rw [hharmless]
      show [Access.mk false _] = [Access.mk false _] ↔ _
      simp only [List.cons.injEq, Access.mk.injEq, true_and, and_true]
      rfl
    · show result M.undef (.data (M.read w _ _)) i = result M.undef (.data (M.read w _ _)) i
      rw [hharmless.1 hok]
      rfl
  · have hstored : env' value = env value :=
      (hrel value (hbefore value List.mem_cons_self)).eq hvalue
    rw [hnew]
    refine ⟨rfl, ?_, fun hok => ?_, fun _ i => related_of_none (hresult i) rfl⟩
    · rw [hharmless]
      show [Access.mk true _] = [Access.mk true _] ↔ _
      simp only [List.cons.injEq, Access.mk.injEq, true_and, and_true]
      rfl
    · show M.write w _ _ (env' value) = M.write w _ _ (env value)
      rw [hharmless.1 hok, hstored]
      rfl

/-- The bytes of a sum are the sum of the bytes. -/
theorem run_step (h : Converts f owner) {op : Op κ} (hop : f.body[k]? = some op)
    (hrel : ∀ r, r.Before k → Related M x f owner r (env r) (env' r))
    (hstep : IsStep f owner k op) :
    Simulates M x f owner k (Harmless f owner env op) (op.run M f.type env w)
      ((convertOp f owner op).run M f.type env' w) := by
  obtain ⟨m, v, o, hv, ho, hresult, hadd, hnew⟩ := hstep
  have hharmless : Harmless f owner env op := fun a ha => by
    rcases hadd with rfl | rfl <;> cases ha
  have hmem : v ∈ op.operands ∧ o ∈ op.operands := by
    rcases hadd with rfl | rfl
    · exact ⟨List.mem_cons_self, List.mem_cons_of_mem _ List.mem_cons_self⟩
    · exact ⟨List.mem_cons_of_mem _ List.mem_cons_self, List.mem_cons_self⟩
  have hbefore : ∀ r ∈ op.operands, r.Before k := fun r hr =>
    f.operands_before k op hop r (List.mem_append_left _ hr)
  have hrun : op.run M f.type env w =
      ⟨result M.undef (.index ((env v).toIndex + (env o).toIndex)), w, []⟩ := by
    have hindex : f.type (.result k 0) = .index := h.index _ m hresult
    rcases hadd with rfl | rfl
    · rw [Op.run, if_pos ((f.typed k _ hop).1.trans hindex)]
    · rw [Op.run, if_pos ((f.typed k _ hop).1.trans hindex), add_comm]
  obtain ⟨bytes, hbytes⟩ := h.memref (.result k 0) m hresult
  rw [hnew, hrun]
  refine ⟨rfl, iff_of_true rfl hharmless, fun _ => rfl, fun _ i => ?_⟩
  cases i with
  | succ i => exact related_of_none (h.result_ne_zero (Nat.succ_ne_zero i)) rfl
  | zero =>
    refine related_of_some hresult ?_
    show Val.ptr (ptrAdd (env' v).toPtr (env' o).toIndex (f.type m).elementSizeBytes) =
      .ptr (toPtr (outerValue M x m).toMemref + (f.type m).bytes *
        ((env v).toIndex + (env o).toIndex))
    rw [(hrel v (hbefore v hmem.1)).ptr hv, (hrel o (hbefore o hmem.2)).eq ho, ptrAdd_eq, hbytes,
      elementSizeBytes_memref, mul_add, ← add_assoc]
    rfl

/-- **One operation**: it does the same as what it becomes, as long as its access is harmless. -/
theorem run_convertOp (h : Converts f owner) {op : Op κ} (hop : f.body[k]? = some op)
    (houter : ∀ r, r.isOuter → env r = outerValue M x r)
    (hrel : ∀ r, r.Before k → Related M x f owner r (env r) (env' r)) :
    Simulates M x f owner k (Harmless f owner env op) (op.run M f.type env w)
      ((convertOp f owner op).run M f.type env' w) := by
  rcases h.convertOp_cases hop with hcopied | haccess | hstep
  · exact run_clone h hop hrel hcopied
  · exact run_access h hop houter hrel haccess
  · exact run_step h hop hrel hstep

end Simulation

/-! ## A body -/

section Frame

theorem Ref.Before.mono {k k' : ℕ} {r : Ref} (hr : r.Before k) (hle : k ≤ k') : r.Before k' := by
  cases r with
  | result k'' i => exact Nat.lt_of_lt_of_le hr hle
  | inner => exact hr
  | _ => trivial

theorem Ref.isOuter.before {r : Ref} (hr : r.isOuter) (k : ℕ) : r.Before k := by
  cases r with
  | outer n => trivial
  | _ => cases hr

theorem Env.define_of_before {env : Env R D} {k : ℕ} {results : ℕ → Val R D} {r : Ref}
    (hr : r.Before k) : env.define k results r = env r := by
  cases r with
  | result k' i => exact if_neg (Nat.ne_of_lt hr)
  | _ => rfl

theorem Env.define_result (env : Env R D) (k i : ℕ) (results : ℕ → Val R D) :
    env.define k results (.result k i) = results i := if_pos rfl

theorem runBody_env {α : Type} {step : Env R D → W → α → Effect R D W} {k : ℕ} {ops : List α}
    {env : Env R D} {w : W} {r : Ref} (hr : r.Before k) :
    (runBody step k ops env w).env r = env r := by
  induction ops generalizing k env w with
  | nil => rfl
  | cons op ops ih =>
    rw [runBody]
    exact (ih (hr.mono (Nat.le_succ k))).trans (Env.define_of_before hr)

end Frame

section Body

variable [CommRing R] {M : Machine κ R D W} {x : Inputs R D W} {f : ForOp κ} {owner : Pointers}

theorem harmless_congr (h : Converts f owner) {k : ℕ} {op : Op κ} (hop : f.body[k]? = some op)
    {env env' : Env R D} (henv : ∀ r ∈ op.operands, env' r = env r) :
    Harmless f owner env' op ↔ Harmless f owner env op := by
  unfold Harmless
  refine forall₃_congr fun a ha hsome => ?_
  obtain ⟨hbase, hindex⟩ := h.mem_operands hop ha hsome
  rw [henv _ hbase, henv _ hindex]

/-- The values after an operation and what it becomes. -/
theorem related_define {k : ℕ} {env env' : Env R D} {results results' : ℕ → Val R D}
    (hrel : ∀ r, r.Before k → Related M x f owner r (env r) (env' r))
    (hresults : ∀ i, Related M x f owner (.result k i) (results i) (results' i)) :
    ∀ r, r.Before (k + 1) →
      Related M x f owner r (env.define k results r) (env'.define k results' r) := by
  intro r hr
  cases r with
  | result k' i =>
    rcases Nat.eq_or_lt_of_le (Nat.le_of_lt_succ hr) with rfl | hlt
    · rw [Env.define_result, Env.define_result]
      exact hresults i
    · have hbefore : (Ref.result k' i).Before k := hlt
      rw [Env.define_of_before hbefore, Env.define_of_before hbefore]
      exact hrel _ hbefore
  | inner => exact hr.elim
  | _ => exact hrel _ trivial

/-- **A body** accesses the same as what it becomes exactly if each access is harmless, and then
everything else is the same as well. -/
theorem runBody_convert (h : Converts f owner) {ops : List (Op κ)} {k : ℕ} {env env' : Env R D}
    {w : W} (hops : f.body.drop k = ops) (houter : ∀ r, r.isOuter → env r = outerValue M x r)
    (hrel : ∀ r, r.Before k → Related M x f owner r (env r) (env' r)) :
    let t := runBody (fun env w op => op.run M f.type env w) k ops env w
    let t' := runBody (fun env w op => op.run M f.type env w) k (ops.map (convertOp f owner)) env' w
    (t'.accesses = t.accesses ↔ ∀ op ∈ ops, Harmless f owner t.env op) ∧
      ((∀ op ∈ ops, Harmless f owner t.env op) → t'.world = t.world ∧
        ∀ r, r.Before (k + ops.length) → Related M x f owner r (t.env r) (t'.env r)) := by
  induction ops generalizing k env env' w with
  | nil => exact ⟨iff_of_true rfl fun op hop => absurd hop List.not_mem_nil, fun _ => ⟨rfl, hrel⟩⟩
  | cons op ops ih =>
    have hop : f.body[k]? = some op := by
      rw [← List.head?_drop, hops]
      rfl
    have hrest : f.body.drop (k + 1) = ops := by
      rw [← List.tail_drop, hops]
      rfl
    have hstep := @run_convertOp κ R D W _ M x f owner k env env' w h op hop houter hrel
    have hbefore : ∀ r ∈ op.operands, r.Before k := fun r hr =>
      f.operands_before k op hop r (List.mem_append_left _ hr)
    set s := op.run M f.type env w
    set s' := (convertOp f owner op).run M f.type env' w
    have houter' : ∀ r, r.isOuter → env.define k s.results r = outerValue M x r := fun r hr => by
      rw [Env.define_of_before (Ref.isOuter.before hr k), houter r hr]
    show ((s'.accesses ++ _ = s.accesses ++ _) ↔ _) ∧ _
    -- the operation sees the values that are there at the end
    have hend : Harmless f owner (runBody (fun env w op => op.run M f.type env w) k (op :: ops) env
        w).env op ↔ Harmless f owner env op :=
      harmless_congr h hop fun r hr => runBody_env (hbefore r hr)
    rw [List.forall_mem_cons, hend]
    by_cases hok : Harmless f owner env op
    · have hworld : s'.world = s.world := hstep.world hok
      obtain ⟨hiff, himp⟩ := @ih (k + 1) (env.define k s.results) (env'.define k s'.results) s.world
        hrest houter' (related_define hrel (hstep.results hok))
      rw [hstep.accesses_iff.2 hok, List.append_cancel_left_eq, hworld]
      refine ⟨hiff.trans ⟨fun h => ⟨hok, h⟩, fun h => h.2⟩, fun hall => ?_⟩
      obtain ⟨hw, hr⟩ := himp hall.2
      refine ⟨?_, fun r hbefore => ?_⟩
      · show (runBody _ (k + 1) _ _ s'.world).world = _
        rw [hworld]
        exact hw
      · show Related M x f owner r _ ((runBody _ (k + 1) _ _ s'.world).env r)
        rw [hworld]
        exact hr r (by rwa [List.length_cons, Nat.add_comm ops.length, ← Nat.add_assoc] at hbefore)
    · refine ⟨iff_of_false (fun heq => ?_) fun hall => hok hall.1, fun hall => absurd hall.1 hok⟩
      exact hok (hstep.accesses_iff.1 (List.append_inj heq hstep.length_eq).1)

end Body

/-! ## All iterations -/

section Iterations

variable [CommRing R] {M : Machine κ R D W} {x : Inputs R D W} {f : ForOp κ} {new : NewFor κ}

omit [CommRing R] in
theorem entry_outer {n : ℕ} {args : ℕ → Val R D} {r : Ref} (hr : r.isOuter) :
    entry M.undef x n args r = outerValue M x r := by
  cases r with
  | outer m => rfl
  | _ => cases hr

theorem related_entry {owner : Pointers} (h : Converts f owner) {n : ℕ} {args args' : ℕ → Val R D}
    (hargs : ∀ j, Related M x f owner (.arg j) (args j) (args' j)) :
    ∀ r, r.Before 0 →
      Related M x f owner r (entry M.undef x n args r) (entry M.undef x n args' r) := by
  intro r hr
  cases r with
  | outer m => exact related_of_none (h.inside (.outer m) rfl) rfl
  | iv => exact related_of_none h.iv rfl
  | arg j => exact hargs j
  | result k i => exact absurd hr (Nat.not_lt_zero k)
  | inner m => exact hr.elim

theorem getElem?_inits (h : f.matchAndRewrite = some new) {j : ℕ} {r : Ref}
    (hj : f.inits[j]? = some r) :
    (new.pointers (.arg j) = none ∧ new.inits[j]? = some (.same r)) ∨
      ∃ m, new.pointers (.arg j) = some m ∧
        new.inits[j]? = some (.ptrAdd m r (f.type m).elementSizeBytes) := by
  obtain ⟨-, -, -, -, cs, hinits, hargs⟩ := ForOp.matchAndRewrite_spec h
  have hnew : new.inits[j]? = some (f.newInit cs r j) := by
    rw [hinits, List.getElem?_map, List.getElem?_zipIdx, hj, Option.map_some, Option.map_some,
      Nat.zero_add]
  rw [hargs, hnew, ForOp.newInit]
  cases cs.find? (·.pos = j) with
  | none => exact Or.inl ⟨rfl, rfl⟩
  | some c => exact Or.inr ⟨c.memref, rfl, rfl⟩

/-- The init arguments: a pointer starts as many elements into its memref as the index says. -/
theorem related_inits (h : f.matchAndRewrite = some new) (j : ℕ) :
    Related M x f new.pointers (.arg j) ((f.start M x 0).1 j) ((new.start M x f.type 0).1 j) := by
  obtain ⟨hconverts, -, -, -, cs, hinits, -⟩ := ForOp.matchAndRewrite_spec h
  show Related M x f new.pointers (.arg j) ((f.inits[j]?.map (outerValue M x)).getD (.data M.undef))
    ((new.inits[j]?.map (NewInit.value M x)).getD (.data M.undef))
  cases hj : f.inits[j]? with
  | none =>
    rw [hinits, List.getElem?_map, List.getElem?_zipIdx, hj]
    refine related_of_none ?_ rfl
    by_contra hsome
    obtain ⟨m, hm⟩ := Option.ne_none_iff_exists'.1 hsome
    have hlt := hconverts.lt_length hm
    rw [List.getElem?_eq_none_iff] at hj
    omega
  | some r =>
    obtain ⟨hnone, hsame⟩ | ⟨m, hm, hptr⟩ := getElem?_inits h hj
    · rw [hsame]
      exact related_of_none hnone rfl
    · obtain ⟨bytes, hbytes⟩ := hconverts.memref _ _ hm
      rw [hptr]
      refine related_of_some hm ?_
      show Val.ptr (ptrAdd _ _ _) = _
      rw [ptrAdd_eq, hbytes, elementSizeBytes_memref]
      rfl

/-- One iteration, from arguments that are related. -/
theorem pass_convert (h : f.matchAndRewrite = some new) (n : ℕ) {args args' : ℕ → Val R D} {w : W}
    (hargs : ∀ j, Related M x f new.pointers (.arg j) (args j) (args' j)) :
    let t := f.pass M x n args w
    let t' := new.pass M x f.type n args' w
    (t'.accesses = t.accesses ↔ ∀ op ∈ f.body, Harmless f new.pointers t.env op) ∧
      ((∀ op ∈ f.body, Harmless f new.pointers t.env op) → t'.world = t.world ∧
        ∀ r, r.Before f.body.length → Related M x f new.pointers r (t.env r) (t'.env r)) := by
  obtain ⟨hconverts, hbody, -⟩ := ForOp.matchAndRewrite_spec h
  have hpass := @runBody_convert κ R D W _ M x f new.pointers hconverts f.body 0
    (entry M.undef x n args) (entry M.undef x n args') w List.drop_zero
    (fun _ => entry_outer) (related_entry hconverts hargs)
  rw [Nat.zero_add, ← hbody] at hpass
  exact hpass

/-- **An iteration** that starts the same: its accesses stay exactly if it is harmless, and then
everything else stays as well. -/
theorem iteration_convert (h : f.matchAndRewrite = some new) {n : ℕ}
    (hworld : (new.start M x f.type n).2 = (f.start M x n).2)
    (hargs : ∀ j, Related M x f new.pointers (.arg j) ((f.start M x n).1 j)
      ((new.start M x f.type n).1 j)) :
    ((new.iteration M x f.type n).accesses = (f.iteration M x n).accesses ↔
      ∀ op ∈ f.body, Harmless f new.pointers (f.iteration M x n).env op) ∧
    ((∀ op ∈ f.body, Harmless f new.pointers (f.iteration M x n).env op) →
      (new.iteration M x f.type n).world = (f.iteration M x n).world ∧
        ∀ r, r.Before f.body.length → Related M x f new.pointers r ((f.iteration M x n).env r)
          ((new.iteration M x f.type n).env r)) := by
  unfold ForOp.iteration NewFor.iteration
  rw [hworld]
  exact pass_convert h n hargs

/-- Where the iterations before were harmless, an iteration starts the same. -/
theorem start_related (h : f.matchAndRewrite = some new) {n : ℕ}
    (hok : ∀ m < n, ∀ op ∈ f.body, Harmless f new.pointers (f.iteration M x m).env op) :
    (new.start M x f.type n).2 = (f.start M x n).2 ∧
      ∀ j, Related M x f new.pointers (.arg j) ((f.start M x n).1 j)
        ((new.start M x f.type n).1 j) := by
  induction n with
  | zero => exact ⟨rfl, related_inits h⟩
  | succ n ih =>
    obtain ⟨hconverts, -, hyields, -⟩ := ForOp.matchAndRewrite_spec h
    obtain ⟨hworld, hargs⟩ := ih fun m hm => hok m (Nat.lt_succ_of_lt hm)
    obtain ⟨hw, hrel⟩ := (iteration_convert h hworld hargs).2 (hok n (Nat.lt_succ_self n))
    refine ⟨hw, fun j => ?_⟩
    show Related M x f new.pointers (.arg j)
      ((f.yields[j]?.map (f.iteration M x n).env).getD (.data M.undef))
      ((new.yields[j]?.map (new.iteration M x f.type n).env).getD (.data M.undef))
    rw [hyields]
    cases hj : f.yields[j]? with
    | none =>
      refine related_of_none ?_ rfl
      by_contra hsome
      obtain ⟨m, hm⟩ := Option.ne_none_iff_exists'.1 hsome
      obtain ⟨y, hy⟩ := hconverts.yields j m hm
      rw [hj] at hy
      cases hy
    | some y =>
      have hy := hrel y (f.yields_before y (List.mem_of_getElem? hj))
      unfold Related at hy ⊢
      rw [← hconverts.yielded j y hj]
      exact hy

end Iterations

/-! ## The loop is preserved -/

def NewOp.operands : NewOp κ → List Ref
  | clone op => op.operands
  | ptrLoad ptr base _ => [base, ptr]
  | ptrStore value ptr base _ => [value, base, ptr]
  | ptrAdd ptr offset _ => [ptr, offset]

def NewFor.IsPtr (new : NewFor κ) : Ref → Prop
  | .arg j => ∃ memref offset bytes, new.inits[j]? = some (.ptrAdd memref offset bytes)
  | .result k 0 => ∃ ptr offset bytes, new.body[k]? = some (.ptrAdd ptr offset bytes)
  | _ => False

def NewOp.Typed (isPtr : Ref → Prop) : NewOp κ → Prop
  | clone op => ∀ r ∈ op.operands ++ op.nested, ¬isPtr r
  | ptrLoad ptr base _ => isPtr ptr ∧ ¬isPtr base
  | ptrStore value ptr base _ => isPtr ptr ∧ ¬isPtr value ∧ ¬isPtr base
  | ptrAdd ptr offset _ => isPtr ptr ∧ ¬isPtr offset

/-- **The loop is preserved**: in every iteration the accesses are of the same elements, what is not
derived from a converted index is computed from the same operands and is the same, and no pointer is
used where an index was. -/
structure Preserves [CommRing R] (M : Machine κ R D W) (x : Inputs R D W) (f : ForOp κ)
    (new : NewFor κ) : Prop where
  accesses : ∀ n < x.trips, (new.iteration M x f.type n).accesses = (f.iteration M x n).accesses
  memory : ∀ n < x.trips, (new.iteration M x f.type n).world = (f.iteration M x n).world
  values : ∀ n < x.trips, ∀ r, r.Before f.body.length → ¬f.Derived r →
    (new.iteration M x f.type n).env r = (f.iteration M x n).env r
  length_body : new.body.length = f.body.length
  copied : ∀ (k : ℕ) op, f.body[k]? = some op → (∀ r ∈ op.operands, ¬f.Derived r) →
    new.body[k]? = some (.clone op)
  operands : ∀ (k : ℕ) op op', f.body[k]? = some op → new.body[k]? = some op' →
    ¬f.Derived (.result k 0) → op'.operands = op.operands
  yields : new.yields = f.yields
  inits : ∀ (j : ℕ) r, f.inits[j]? = some r → ¬f.Derived (.arg j) → new.inits[j]? = some (.same r)
  isPtr : ∀ r, new.IsPtr r ↔ f.Derived r
  typed : ∀ op ∈ new.body, op.Typed new.IsPtr
  yielded : ∀ (j : ℕ) y, new.yields[j]? = some y → (new.IsPtr y ↔ new.IsPtr (.arg j))
  unused : ∀ j, new.IsPtr (.arg j) → f.resultUsed j = false

section Preserved

variable {f : ForOp κ} {new : NewFor κ}

theorem getElem?_body (h : f.matchAndRewrite = some new) (k : ℕ) :
    new.body[k]? = f.body[k]?.map (convertOp f new.pointers) := by
  rw [(ForOp.matchAndRewrite_spec h).2.1, List.getElem?_map]

/-- **The pointers of the new loop**. -/
theorem isPtr_iff (h : f.matchAndRewrite = some new) (r : Ref) : new.IsPtr r ↔ f.Derived r := by
  obtain ⟨hconverts, -, -, hderived, -⟩ := ForOp.matchAndRewrite_spec h
  cases r with
  | outer n => exact iff_of_false id nofun
  | iv => exact iff_of_false id nofun
  | inner n => exact iff_of_false id nofun
  | arg j =>
    rw [← hderived]
    constructor
    · rintro ⟨m, r, bytes, hptr⟩
      have hj : j < f.inits.length := by
        obtain ⟨-, -, -, -, cs, hinits, -⟩ := ForOp.matchAndRewrite_spec h
        have hlt := (List.getElem?_eq_some_iff.1 hptr).1
        rwa [hinits, List.length_map, List.length_zipIdx] at hlt
      obtain ⟨-, hsame⟩ | ⟨m', hm', -⟩ := getElem?_inits h (List.getElem?_eq_getElem hj)
      · rw [hsame] at hptr
        cases hptr
      · exact Option.isSome_of_eq_some hm'
    · intro hsome
      obtain ⟨m, hm⟩ := Option.isSome_iff_exists.1 hsome
      have hj := hconverts.lt_length hm
      obtain ⟨hnone, -⟩ | ⟨m', -, hptr⟩ := getElem?_inits h (List.getElem?_eq_getElem hj)
      · rw [hm] at hnone
        cases hnone
      · exact ⟨m', _, _, hptr⟩
  | result k i =>
    cases i with
    | succ i =>
      exact iff_of_false id fun hd => by cases hd
    | zero =>
      rw [← hderived]
      constructor
      · rintro ⟨ptr, offset, bytes, hptr⟩
        rw [getElem?_body h] at hptr
        obtain ⟨op, hop, hptr⟩ := Option.map_eq_some_iff.1 hptr
        obtain ⟨hclone, -⟩ | ⟨base, v, shape, -, -, -, hcase⟩ | ⟨m, -, -, -, -, hm, -⟩ :=
          hconverts.convertOp_cases hop
        · rw [hclone] at hptr
          cases hptr
        · rcases hcase with ⟨-, hnew⟩ | ⟨value, -, -, hnew⟩
          · rw [hnew] at hptr
            cases hptr
          · rw [hnew] at hptr
            cases hptr
        · exact Option.isSome_of_eq_some hm
      · intro hsome
        obtain ⟨m, hm⟩ := Option.isSome_iff_exists.1 hsome
        obtain ⟨-, lhs, rhs, hop⟩ := hconverts.result k 0 m hm
        obtain ⟨-, -, hnone⟩ | ⟨base, v, shape, -, -, hnone, -⟩ | ⟨m', v, o, -, -, -, -, hnew⟩ :=
          hconverts.convertOp_cases hop
        · rw [hnone] at hm
          cases hm
        · rw [hnone] at hm
          cases hm
        · refine ⟨v, o, (f.type m').elementSizeBytes, ?_⟩
          rw [getElem?_body h, show f.body[k]? = _ from hop, Option.map_some, hnew]

theorem not_derived_iff (h : f.matchAndRewrite = some new) {r : Ref} :
    ¬f.Derived r ↔ new.pointers r = none := by
  rw [← (ForOp.matchAndRewrite_spec h).2.2.2.1, Option.not_isSome_iff_eq_none]

theorem convertOp_typed (h : f.matchAndRewrite = some new) {k : ℕ} {op : Op κ}
    (hop : f.body[k]? = some op) : (convertOp f new.pointers op).Typed new.IsPtr := by
  have hconverts := (ForOp.matchAndRewrite_spec h).1
  have hptr : ∀ r m, new.pointers r = some m → new.IsPtr r := fun r m hm => by
    rw [isPtr_iff h, ← (ForOp.matchAndRewrite_spec h).2.2.2.1]
    exact Option.isSome_of_eq_some hm
  have hnot : ∀ r, new.pointers r = none → ¬new.IsPtr r := fun r hr => by
    rwa [isPtr_iff h, not_derived_iff h]
  obtain ⟨hnew, hnone, -⟩ | ⟨base, v, shape, hv, hbase, -, hcase⟩ | ⟨m, v, o, hv, ho, -, -, hnew⟩ :=
    hconverts.convertOp_cases hop
  · rw [hnew]
    intro r hr
    rcases List.mem_append.1 hr with hr | hr
    · exact hnot r (hnone r hr)
    · exact hnot r (hconverts.nested k op hop r hr)
  · rcases hcase with ⟨-, hnew⟩ | ⟨value, hvalue, -, hnew⟩
    · rw [hnew]
      exact ⟨hptr v base hv, hnot base hbase⟩
    · rw [hnew]
      exact ⟨hptr v base hv, hnot value hvalue, hnot base hbase⟩
  · rw [hnew]
    exact ⟨hptr v m hv, hnot o ho⟩

theorem convertOp_operands (h : f.matchAndRewrite = some new) {k : ℕ} {op : Op κ}
    (hop : f.body[k]? = some op) (hk : ¬f.Derived (.result k 0)) :
    (convertOp f new.pointers op).operands = op.operands := by
  rw [not_derived_iff h] at hk
  obtain ⟨hnew, -⟩ | ⟨base, v, shape, -, -, -, hcase⟩ | ⟨m, v, o, -, -, hm, -⟩ :=
    (ForOp.matchAndRewrite_spec h).1.convertOp_cases hop
  · rw [hnew]
    rfl
  · rcases hcase with ⟨rfl, hnew⟩ | ⟨value, -, rfl, hnew⟩
    · rw [hnew]
      rfl
    · rw [hnew]
      rfl
  · rw [hk] at hm
    cases hm

variable [CommRing R] {M : Machine κ R D W} {x : Inputs R D W}

theorem harmless_of_accesses (h : f.matchAndRewrite = some new)
    (hacc : ∀ n < x.trips, (new.iteration M x f.type n).accesses = (f.iteration M x n).accesses)
    {n : ℕ} (hn : n ≤ x.trips) :
    ∀ m < n, ∀ op ∈ f.body, Harmless f new.pointers (f.iteration M x m).env op := by
  induction n with
  | zero => exact fun m hm => absurd hm (Nat.not_lt_zero m)
  | succ n ih =>
    have hbefore := ih (Nat.le_of_succ_le hn)
    obtain ⟨hworld, hargs⟩ := start_related h hbefore
    intro m hm
    rcases Nat.eq_or_lt_of_le (Nat.le_of_lt_succ hm) with rfl | hlt
    · exact (iteration_convert h hworld hargs).1.1 (hacc m hn)
    · exact hbefore m hlt

/-- **A loop is preserved exactly if**, at each access whose index is converted, the index times
what the stride is off by is no bytes at all; so it is with a stride of one. -/
theorem preserves_iff (h : f.matchAndRewrite = some new) (M : Machine κ R D W)
    (x : Inputs R D W) : Preserves M x f new ↔
      ∀ n < x.trips, ∀ op ∈ f.body, ∀ a ∈ op.accesses, f.Derived a.2 →
        ((f.type a.1).bytes : R) * (((f.iteration M x n).env a.2).toIndex *
          (((f.iteration M x n).env a.1).toMemref.stride - 1)) = 0 := by
  obtain ⟨hconverts, -, hyields, hderived, -⟩ := ForOp.matchAndRewrite_spec h
  simp only [← hderived]
  refine ⟨fun hp n hn => harmless_of_accesses h hp.accesses hn n (Nat.lt_succ_self n),
    fun hok => ?_⟩
  have hiteration : ∀ n < x.trips, _ := fun n hn => by
    obtain ⟨hworld, hargs⟩ := @start_related κ R D W _ M x f new h n fun m hm =>
      hok m (Nat.lt_trans hm hn)
    exact iteration_convert h hworld hargs
  refine
    { accesses := fun n hn => (hiteration n hn).1.2 (hok n hn)
      memory := fun n hn => ((hiteration n hn).2 (hok n hn)).1
      values := fun n hn r hr hnot => (((hiteration n hn).2 (hok n hn)).2 r hr).eq
        ((not_derived_iff h).1 hnot)
      length_body := ?_
      copied := fun k op hop hnot => ?_
      operands := fun k op op' hop hop' hk => ?_
      yields := hyields
      inits := fun j r hj hnot => ?_
      isPtr := isPtr_iff h
      typed := fun op' hop' => ?_
      yielded := fun j y hy => ?_
      unused := fun j hj => ?_ }
  · rw [(ForOp.matchAndRewrite_spec h).2.1, List.length_map]
  · rw [getElem?_body h, hop, Option.map_some,
      convertOp_of_none fun r hr => (not_derived_iff h).1 (hnot r hr)]
  · rw [getElem?_body h, hop] at hop'
    cases hop'
    exact convertOp_operands h hop hk
  · obtain ⟨-, hsame⟩ | ⟨m, hm, -⟩ := getElem?_inits h hj
    · exact hsame
    · rw [(not_derived_iff h).1 hnot] at hm
      cases hm
  · obtain ⟨k, hk⟩ := List.mem_iff_getElem?.1 hop'
    rw [getElem?_body h] at hk
    obtain ⟨op, hop, rfl⟩ := Option.map_eq_some_iff.1 hk
    exact convertOp_typed h hop
  · rw [hyields] at hy
    rw [isPtr_iff h, isPtr_iff h, ← hderived, ← hderived, hconverts.yielded j y hy]
  · rw [isPtr_iff h, ← hderived] at hj
    obtain ⟨m, hm⟩ := Option.isSome_iff_exists.1 hj
    exact hconverts.unused j m hm

end Preserved

/-! ## A loop over single elements -/

/-- Loads of one element, at an index that goes up by a value from outside. -/
def walk : ForOp Unit where
  type
    | .outer 0 => .memref 4
    | .result 0 _ => .other 0
    | _ => .index
  inits := [.outer 1]
  body := [.load (.outer 0) [.arg 0] ⟨[1], by decide⟩, .addi (.arg 0) (.outer 2)]
  yields := [.result 1 0]
  resultUsed := fun _ => false
  length_yields := rfl
  inits_outer := by decide
  operands_before := by
    rintro (_ | _ | k) op hop r hr
    · cases hop
      fin_cases hr <;> trivial
    · cases hop
      fin_cases hr <;> trivial
    · cases hop
  yields_before := fun r hr => by
    fin_cases hr
    exact Nat.one_lt_two
  typed := by
    rintro (_ | _ | k) op hop
    · cases hop
      exact ⟨⟨4, rfl⟩, fun r hr => by fin_cases hr; rfl⟩
    · cases hop
      exact ⟨rfl, rfl⟩
    · cases hop

/-- Two steps of one from the first element of a memref. -/
def walkInputs (stride : ℤ) : Inputs ℤ Unit Unit where
  outer
    | 0 => .memref ⟨0, [stride]⟩
    | 1 => .index 0
    | _ => .index 1
  trips := 2
  iv := fun n => .index n
  world := ()

def still : Machine Unit ℤ Unit Unit where
  undef := ()
  read := fun _ _ _ => ()
  write := fun _ _ _ _ => ()
  add := fun v _ => v
  other := fun _ _ _ _ => ⟨fun _ => .data (), (), []⟩

theorem walk_one : ∃ new, walk.matchAndRewrite = some new ∧
    Preserves still (walkInputs 1) walk new := by
  have hsome : walk.matchAndRewrite.isSome := by decide
  obtain ⟨new, hnew⟩ := Option.isSome_iff_exists.1 hsome
  refine ⟨new, hnew, (preserves_iff hnew still (walkInputs 1)).2 fun n _ op hop a ha _ => ?_⟩
  have hbase : a.1 = .outer 0 := by
    fin_cases hop
    · rw [List.mem_singleton.1 ha]
    · cases ha
  rw [hbase]
  show (4 : ℤ) * (_ * (1 - 1)) = 0
  rw [sub_self, mul_zero, mul_zero]

/-- With a stride of two, the second load is of another element. -/
theorem walk_two_not_preserves : ∃ hsome : walk.matchAndRewrite.isSome,
    ¬Preserves still (walkInputs 2) walk (walk.matchAndRewrite.get hsome) := by
  refine ⟨by decide, fun hp => ?_⟩
  have hacc := hp.accesses 1 Nat.one_lt_two
  have : [[(4 : ℤ)]] = [[8]] := congrArg (·.map Access.addresses) hacc
  exact absurd this (by decide)

end MlirAie.Pointer
