import MlirAie.Lib.Strided

/-!
# Tracing a view to its buffer

Casts, subviews and views are followed back to the argument they are taken from, and the bytes by
which they move are added up.

* `MemRef`: a type and what it is at run time;
* `traceSubviewToBlockArgument`: the trace;
* **`trace_exact_iff`**: the trace is right exactly where they cancel out.
-/

namespace MlirAie.View

open MlirAie.Lib

/-! ## Types -/

/-- The layouts of ranked types; `affine` is a map that can be written as a strided one. -/
inductive Layout where
  | identity
  | strided (offset : Option ℤ) (strides : List (Option ℤ))
  | affine (offset : Option ℤ) (strides : List (Option ℤ))

/-- A dynamic entry is `none`. -/
structure MemRefType where
  shape : List (Option ℕ)
  elementBits : ℕ
  layout : Layout

inductive BaseMemRefType where
  | ranked (type : MemRefType)
  | unranked (elementBits : ℕ)

def BaseMemRefType.elementBits : BaseMemRefType → ℕ
  | ranked type => type.elementBits
  | unranked bits => bits

/-- The product of sizes, where a dynamic one makes it dynamic. -/
def staticProduct (shape : List (Option ℕ)) : Option ℤ :=
  (shape.mapM id).map fun sizes => (sizes.prod : ℕ)

def suffixProducts : List (Option ℕ) → List (Option ℤ)
  | [] => []
  | _ :: shape => staticProduct shape :: suffixProducts shape

def MemRefType.getStridesAndOffset (type : MemRefType) : List (Option ℤ) × Option ℤ :=
  match type.layout with
  | .identity => (suffixProducts type.shape, some 0)
  | .strided offset strides => (strides, offset)
  | .affine offset strides => (strides, offset)

/-! ## Values -/

/-- What a memref is at run time: a place in bytes, and offset and strides in elements. -/
structure Descriptor where
  base : ℤ
  offset : ℤ
  sizes : List ℕ
  strides : List ℤ
  rank : sizes.length = strides.length

/-- What is static is right. -/
def Known {α : Type*} (static : Option α) (x : α) : Prop := ∀ y, static = some y → y = x

def rowMajorStrides : List ℕ → List ℤ
  | [] => []
  | _ :: sizes => (sizes.prod : ℕ) :: rowMajorStrides sizes

def MemRefType.Describes (type : MemRefType) (desc : Descriptor) : Prop :=
  List.Forall₂ Known type.shape desc.sizes ∧
    match type.layout with
    | .identity => desc.strides = rowMajorStrides desc.sizes ∧ desc.offset = 0
    | .strided offset strides => List.Forall₂ Known strides desc.strides ∧ Known offset desc.offset
    | .affine offset strides => List.Forall₂ Known strides desc.strides ∧ Known offset desc.offset

def BaseMemRefType.Describes (desc : Descriptor) : BaseMemRefType → Prop
  | ranked type => type.Describes desc
  | unranked _ => True

/-- A value with its type. Strides are indices, and no object has `2 ^ 63` elements. -/
structure MemRef where
  type : BaseMemRefType
  desc : Descriptor
  describes : type.Describes desc
  index : ∀ t ∈ desc.strides, -2 ^ 63 ≤ t ∧ t < 2 ^ 63
  fits : desc.sizes.prod < 2 ^ 63

namespace MemRef

def elementBytes (v : MemRef) : ℕ := (v.type.elementBits + 7) / 8

/-- **The byte at which the memory starts.** -/
def start (v : MemRef) : ℤ := v.desc.base + v.desc.offset * v.elementBytes

/-- **The elements follow one another**, in row-major order. -/
def Contiguous (v : MemRef) : Prop :=
  offsets v.desc.sizes v.desc.strides = run 0 1 v.desc.sizes.prod

end MemRef

/-! ## Operations -/

inductive OpFoldResult (α : Type*) where
  | attr (a : α)
  | value (a : α)

namespace OpFoldResult

variable {α : Type*}

def get : OpFoldResult α → α
  | attr a => a
  | value a => a

def static? : OpFoldResult α → Option α
  | attr a => some a
  | value _ => none

def isDynamic (x : OpFoldResult α) : Bool := x.static?.isNone

end OpFoldResult

inductive ViewLike where
  | cast
  | reinterpretCast (offset : ℤ) (sizes : List ℕ) (strides : List ℤ)
  | subview (offsets : List (OpFoldResult ℤ)) (sizes : List (OpFoldResult ℕ))
      (strides : List (OpFoldResult ℤ))
  | view (byteShift : OpFoldResult ℤ) (sizes : List ℕ)

/-- **What the operation makes of its source.** A `reinterpret_cast` restates the offset from the
base of the buffer; a subview counts from its source and may drop dimensions of size one; a view
moves the base by bytes. -/
def ViewLike.Computes (op : ViewLike) (source result : MemRef) : Prop :=
  match op with
  | cast => result.desc = source.desc ∧ result.type.elementBits = source.type.elementBits
  | reinterpretCast offset sizes strides =>
    result.desc.base = source.desc.base ∧ result.desc.offset = offset ∧
      result.desc.sizes = sizes ∧ result.desc.strides = strides ∧
      result.type.elementBits = source.type.elementBits
  | subview offs sizes strides =>
    result.desc.base = source.desc.base ∧
      result.desc.offset = source.desc.offset +
        (List.zipWith (fun o t => o.get * t) offs source.desc.strides).sum ∧
      (result.desc.sizes.zip result.desc.strides).Sublist ((sizes.map (·.get)).zip
        (List.zipWith (fun s t => s.get * t) strides source.desc.strides)) ∧
      result.type.elementBits = source.type.elementBits ∧
      ∃ type, result.type = .ranked type ∧ type.shape.Sublist (sizes.map (·.static?))
  | view byteShift sizes =>
    source.type.elementBits = 8 ∧ result.desc.base = source.start + byteShift.get ∧
      ∃ type, result.type = .ranked type ∧ type.layout = .identity ∧
        (type.shape.filter (·.isNone)).length = sizes.length

/-- A value of the program, with the operations it is taken from. -/
inductive Traced where
  | blockArg (arg : ℕ) (value : MemRef)
  | op (op : ViewLike) (source : Traced) (result : MemRef)
  | other (result : MemRef)

namespace Traced

def value : Traced → MemRef
  | blockArg _ v => v
  | op _ _ v => v
  | other v => v

/-- Every operation computes its result, from an argument with the identity layout. -/
def WellFormed : Traced → Prop
  | blockArg _ v => ∃ type, v.type = .ranked type ∧ type.layout = .identity
  | op o source result => o.Computes source.value result ∧ source.WellFormed
  | other _ => True

end Traced

/-! ## The trace -/

/-- The conversion to `uint64_t`; a dynamic entry is the least `int64_t`. -/
def asUint64 : Option ℤ → ℕ
  | none => 2 ^ 63
  | some t => (t % 2 ^ 64).toNat

def product : List (Option ℕ) → ℕ
  | [] => 1
  | n :: shape => product shape * asUint64 (n.map (↑)) % 2 ^ 64

/-- Each stride that is stepped is the product of the sizes inside. -/
def stridesMatch : List (Option ℕ) → List (Option ℤ) → Bool
  | n :: shape, t :: strides =>
    (shape.isEmpty || n.all (· ≤ 1) || asUint64 t = product shape) && stridesMatch shape strides
  | _, _ => true

/-- The innermost stride is one, and the result is row-major. -/
def resultContiguous (shape : List (Option ℕ)) (strides : List (Option ℤ)) : Bool :=
  shape.isEmpty || (strides.getLast? = some (some 1) && stridesMatch shape strides)

/-- A strided source of a `reinterpret_cast` has unit strides only. -/
def reinterpretable (type : MemRefType) : Bool :=
  match type.layout with
  | .strided _ strides => strides.all (· = some 1)
  | _ => true

def ViewLike.delta (op : ViewLike) (source result : BaseMemRefType) : Option ℤ :=
  match op, source, result with
  | cast, _, _ => some 0
  | reinterpretCast _ _ _, .ranked type, _ => if reinterpretable type then some 0 else none
  | subview offs sizes strides, .ranked type, .ranked resultType =>
    if offs.any (·.isDynamic) || sizes.any (·.isDynamic) || strides.any (·.isDynamic) then none
    else if strides.any (·.get ≠ 1) then none
    else if type.elementBits % 8 ≠ 0 then none
    else match type.getStridesAndOffset.2, resultType.getStridesAndOffset.2 with
      | some srcOff, some resOff =>
        if resultContiguous resultType.shape resultType.getStridesAndOffset.1 then
          some ((resOff - srcOff) * (type.elementBits / 8 : ℕ))
        else none
      | _, _ => none
  | view byteShift sizes, _, _ => if sizes.isEmpty then byteShift.static? else none
  | _, _, _ => none

structure SubviewTraceResult where
  rootArg : ℕ
  offsetInBytes : ℤ
  deriving DecidableEq

def traceFrom (offsetInBytes : ℤ) : Traced → Option SubviewTraceResult
  | .blockArg arg _ => some ⟨arg, offsetInBytes⟩
  | .op o source result =>
    match o.delta source.value.type result.type with
    | none => none
    | some d => traceFrom (offsetInBytes + d) source
  | .other _ => none

def traceSubviewToBlockArgument (value : Traced) : Option SubviewTraceResult := traceFrom 0 value

/-! ## What types tell -/

theorem known_staticProduct {shape : List (Option ℕ)} {sizes : List ℕ}
    (h : List.Forall₂ Known shape sizes) : Known (staticProduct shape) ((sizes.prod : ℕ) : ℤ) := by
  unfold staticProduct
  have hmap : ∀ l, shape.mapM id = some l → l = sizes := by
    induction h with
    | nil =>
      intro l hl
      cases hl
      rfl
    | @cons n size shape sizes hn _ ih =>
      intro l hl
      rw [List.mapM_cons] at hl
      cases n with
      | none => cases hl
      | some m =>
        cases hrest : shape.mapM id with
        | none =>
          rw [hrest] at hl
          cases hl
        | some l' =>
          rw [hrest] at hl
          cases hl
          rw [hn m rfl, ih l' hrest]
  intro y hy
  obtain ⟨l, hl, rfl⟩ := Option.map_eq_some_iff.1 hy
  rw [hmap l hl]

theorem known_suffixProducts {shape : List (Option ℕ)} {sizes : List ℕ}
    (h : List.Forall₂ Known shape sizes) :
    List.Forall₂ Known (suffixProducts shape) (rowMajorStrides sizes) := by
  induction h with
  | nil => exact List.Forall₂.nil
  | cons _ hrest ih => exact List.Forall₂.cons (known_staticProduct hrest) ih

theorem MemRefType.Describes.getStridesAndOffset {type : MemRefType} {desc : Descriptor}
    (h : type.Describes desc) :
    List.Forall₂ Known type.getStridesAndOffset.1 desc.strides ∧
      Known type.getStridesAndOffset.2 desc.offset := by
  obtain ⟨hshape, hlayout⟩ := h
  unfold MemRefType.getStridesAndOffset
  cases hcase : type.layout with
  | identity =>
    rw [hcase] at hlayout
    obtain ⟨hstrides, hoffset⟩ := hlayout
    refine ⟨hstrides ▸ known_suffixProducts hshape, fun y hy => ?_⟩
    rw [hoffset]
    exact (Option.some_inj.1 hy).symm
  | strided offset strides =>
    rw [hcase] at hlayout
    exact hlayout
  | affine offset strides =>
    rw [hcase] at hlayout
    exact hlayout

theorem rowMajor_rowMajorStrides (sizes : List ℕ) : RowMajor sizes (rowMajorStrides sizes) := by
  induction sizes with
  | nil => trivial
  | cons n sizes ih => exact ⟨fun _ => rfl, fun _ => ih⟩

theorem MemRef.contiguous_of_identity {v : MemRef} {type : MemRefType}
    (htype : v.type = .ranked type) (hlayout : type.layout = .identity) : v.Contiguous := by
  have h := v.describes
  rw [htype] at h
  have hstrides := h.2
  rw [hlayout] at hstrides
  unfold MemRef.Contiguous
  rw [hstrides.1]
  exact offsets_eq_run (rowMajor_rowMajorStrides _)

/-! ## The check of a subview -/

theorem product_eq {shape : List (Option ℕ)} {sizes : List ℕ} (h : List.Forall₂ Known shape sizes)
    (hstatic : ∀ n ∈ shape, n.isSome) : product shape = sizes.prod % 2 ^ 64 := by
  induction h with
  | nil => rfl
  | @cons n size shape sizes hn _ ih =>
    obtain ⟨m, rfl⟩ := Option.isSome_iff_exists.1 (hstatic n List.mem_cons_self)
    rw [product, ih fun n hn => hstatic n (List.mem_cons_of_mem _ hn), List.prod_cons, hn m rfl]
    have hsize : asUint64 (Option.map (↑) (some size)) = size % 2 ^ 64 := by
      simp only [asUint64, Option.map_some]
      omega
    rw [hsize, ← Nat.mul_mod, mul_comm]

theorem eq_of_asUint64 {stride : Option ℤ} {t : ℤ} {n : ℕ} (hknown : Known stride t)
    (hindex : -2 ^ 63 ≤ t ∧ t < 2 ^ 63) (hn : n < 2 ^ 63) (h : asUint64 stride = n % 2 ^ 64) :
    t = n := by
  rw [Nat.mod_eq_of_lt (by omega)] at h
  cases stride with
  | none =>
    rw [asUint64] at h
    omega
  | some z =>
    rw [← hknown z rfl] at hindex ⊢
    rw [asUint64] at h
    omega

theorem rowMajor_of_stridesMatch {shape : List (Option ℕ)} {strides : List (Option ℤ)}
    {sizes : List ℕ} {ts : List ℤ} (hshape : List.Forall₂ Known shape sizes)
    (hstatic : ∀ n ∈ shape, n.isSome) (hstrides : List.Forall₂ Known strides ts)
    (hrank : sizes.length = ts.length) (hindex : ∀ t ∈ ts, -2 ^ 63 ≤ t ∧ t < 2 ^ 63)
    (hfits : sizes.prod < 2 ^ 63) (hlast : shape = [] ∨ strides.getLast? = some (some 1))
    (hmatch : stridesMatch shape strides = true) : RowMajor sizes ts := by
  induction hshape generalizing strides ts with
  | nil =>
    cases ts with
    | nil => trivial
    | cons t ts => simp at hrank
  | @cons n size shape sizes hn hshape ih =>
    cases hstrides with
    | nil => simp at hrank
    | @cons stride t strides ts ht hstrides =>
      rw [stridesMatch, Bool.and_eq_true] at hmatch
      rw [List.prod_cons] at hfits
      have hinner := product_eq hshape fun n hn => hstatic n (List.mem_cons_of_mem _ hn)
      have hlast' := hlast.resolve_left (List.cons_ne_nil _ _)
      refine ⟨fun hsize => ?_, fun hsize => ?_⟩
      · cases hshape with
        | nil =>
          -- the innermost stride
          have hnil : strides = [] := by
            have hlen := hstrides.length_eq
            simp only [List.length_cons, List.length_nil] at hrank
            exact List.length_eq_zero_iff.1 (by omega)
          subst hnil
          rw [List.getLast?_singleton, Option.some_inj] at hlast'
          rw [← ht 1 hlast']
          rfl
        | cons hn' hshape' =>
          have hprod := hmatch.1
          obtain ⟨m, rfl⟩ := Option.isSome_iff_exists.1 (hstatic n List.mem_cons_self)
          rw [← hn m rfl] at hsize hfits
          rw [List.isEmpty_cons, Bool.false_or, Option.all_some, Bool.or_eq_true,
            decide_eq_true_eq, decide_eq_true_eq, hinner] at hprod
          refine eq_of_asUint64 ht (hindex t List.mem_cons_self) ?_
            (hprod.resolve_left (by omega))
          exact lt_of_le_of_lt (Nat.le_mul_of_pos_left _ (by omega)) hfits
      · refine ih (fun n hn => hstatic n (List.mem_cons_of_mem _ hn)) hstrides
          (by simpa using hrank) (fun t ht => hindex t (List.mem_cons_of_mem _ ht))
          (lt_of_le_of_lt (Nat.le_mul_of_pos_left _ (Nat.pos_of_ne_zero hsize)) hfits) ?_ hmatch.2
        cases hshape with
        | nil => exact Or.inl rfl
        | cons hn' hshape' =>
          right
          cases hstrides with
          | nil => simp at hrank
          | cons ht' hstrides' => rwa [List.getLast?_cons_cons] at hlast'

/-! ## One operation -/

/-- The bytes by which a `reinterpret_cast` moves: it leaves the place of its source for its own. -/
def ViewLike.restated (op : ViewLike) (source result : MemRef) : ℤ :=
  match op with
  | reinterpretCast _ _ _ => (result.desc.offset - source.desc.offset) * source.elementBytes
  | _ => 0

theorem elementBytes_eq {source result : MemRef}
    (h : result.type.elementBits = source.type.elementBits) :
    result.elementBytes = source.elementBytes := by
  unfold MemRef.elementBytes
  rw [h]

/-- What a subview that is traced satisfies. -/
theorem delta_subview {offs : List (OpFoldResult ℤ)} {sizes : List (OpFoldResult ℕ)}
    {strides : List (OpFoldResult ℤ)} {source result : BaseMemRefType} {d : ℤ}
    (h : (ViewLike.subview offs sizes strides).delta source result = some d) :
    ∃ type resultType srcOff resOff, source = .ranked type ∧ result = .ranked resultType ∧
      (∀ n ∈ sizes, n.static?.isSome) ∧ type.elementBits % 8 = 0 ∧
      type.getStridesAndOffset.2 = some srcOff ∧ resultType.getStridesAndOffset.2 = some resOff ∧
      resultContiguous resultType.shape resultType.getStridesAndOffset.1 = true ∧
      d = (resOff - srcOff) * (type.elementBits / 8 : ℕ) := by
  cases source with
  | unranked bits => cases h
  | ranked type =>
    cases result with
    | unranked bits => cases h
    | ranked resultType =>
      unfold ViewLike.delta at h
      simp only at h
      cases hsrc : type.getStridesAndOffset.2 with
      | none =>
        rw [hsrc] at h
        split_ifs at h
      | some srcOff =>
        cases hres : resultType.getStridesAndOffset.2 with
        | none =>
          rw [hsrc, hres] at h
          split_ifs at h
        | some resOff =>
          rw [hsrc, hres] at h
          simp only at h
          split_ifs at h with hdyn _ hbits hcontig
          refine ⟨type, resultType, srcOff, resOff, rfl, rfl, ?_, by omega, hsrc, hres, hcontig,
            (Option.some_inj.1 h).symm⟩
          intro n hn
          simp only [Bool.or_eq_true, not_or, List.any_eq_true, not_exists, not_and] at hdyn
          have hstatic := hdyn.1.2 n hn
          unfold OpFoldResult.isDynamic at hstatic
          cases hcase : n.static? with
          | none =>
            rw [hcase] at hstatic
            exact absurd rfl hstatic
          | some m => rfl

/-- **An operation moves the start by the bytes that are added**, but for a `reinterpret_cast`. -/
theorem start_of_delta {op : ViewLike} {source result : MemRef} {d : ℤ}
    (hop : op.Computes source result) (h : op.delta source.type result.type = some d) :
    result.start = source.start + d + op.restated source result := by
  cases op with
  | cast =>
    obtain ⟨hdesc, hbits⟩ := hop
    cases h
    rw [MemRef.start, MemRef.start, elementBytes_eq hbits, hdesc]
    simp only [ViewLike.restated]
    ring
  | reinterpretCast offset sizes strides =>
    obtain ⟨hbase, hoffset, -, -, hbits⟩ := hop
    have hd : d = 0 := by
      cases htype : source.type with
      | unranked bits =>
        rw [htype] at h
        cases h
      | ranked type =>
        rw [htype] at h
        unfold ViewLike.delta at h
        simp only at h
        split_ifs at h
        exact (Option.some_inj.1 h).symm
    rw [MemRef.start, MemRef.start, elementBytes_eq hbits, hbase, hd, ViewLike.restated]
    ring
  | subview offs sizes strides =>
    obtain ⟨hbase, -, -, hbits, -⟩ := hop
    obtain ⟨type, resultType, srcOff, resOff, hsource, hresult, -, hbytes, hsrc, hres, -, rfl⟩ :=
      delta_subview h
    have hdesc := source.describes
    have hdesc' := result.describes
    rw [hsource] at hdesc
    rw [hresult] at hdesc'
    have hsize : source.elementBytes = type.elementBits / 8 := by
      rw [MemRef.elementBytes, hsource]
      change (type.elementBits + 7) / 8 = _
      omega
    rw [MemRef.start, MemRef.start, elementBytes_eq hbits, hbase, hsize,
      ← hdesc.getStridesAndOffset.2 srcOff hsrc, ← hdesc'.getStridesAndOffset.2 resOff hres]
    simp only [ViewLike.restated]
    ring
  | view byteShift sizes =>
    obtain ⟨-, hbase, type, htype, hlayout, -⟩ := hop
    have hdesc := result.describes
    rw [htype] at hdesc
    have hoffset := hdesc.2
    rw [hlayout] at hoffset
    have hd : d = byteShift.get := by
      change (if sizes.isEmpty then byteShift.static? else none) = some d at h
      split_ifs at h
      cases byteShift with
      | attr a => exact (Option.some_inj.1 h).symm
      | value a => cases h
    rw [MemRef.start, hbase, hoffset.2, hd]
    simp only [ViewLike.restated]
    ring

theorem contiguous_of_delta {op : ViewLike} {source result : MemRef} {d : ℤ}
    (hop : op.Computes source result) (h : op.delta source.type result.type = some d)
    (hcast : op ≠ .cast) (hreinterpret : ∀ o n t, op ≠ .reinterpretCast o n t) :
    result.Contiguous := by
  cases op with
  | cast => exact absurd rfl hcast
  | reinterpretCast offset sizes strides => exact absurd rfl (hreinterpret offset sizes strides)
  | subview offs sizes strides =>
    obtain ⟨-, -, -, -, resultType', htype', hshape⟩ := hop
    obtain ⟨type, resultType, srcOff, resOff, -, htype, hsizes, -, -, -, hcontig, -⟩ :=
      delta_subview h
    rw [htype, BaseMemRefType.ranked.injEq] at htype'
    subst htype'
    have hdesc := result.describes
    rw [htype] at hdesc
    refine offsets_eq_run (rowMajor_of_stridesMatch hdesc.1 (fun n hn => ?_)
      hdesc.getStridesAndOffset.1 result.desc.rank result.index result.fits ?_ ?_)
    · obtain ⟨m, hm, rfl⟩ := List.mem_map.1 (hshape.subset hn)
      exact hsizes m hm
    · rw [resultContiguous, Bool.or_eq_true, List.isEmpty_iff, Bool.and_eq_true,
        decide_eq_true_eq] at hcontig
      exact hcontig.imp_right And.left
    · rw [resultContiguous, Bool.or_eq_true, List.isEmpty_iff, Bool.and_eq_true] at hcontig
      rcases hcontig with hnil | hcontig
      · rw [hnil]
        cases resultType.getStridesAndOffset.1 <;> rfl
      · exact hcontig.2
  | view byteShift sizes =>
    obtain ⟨-, -, type, htype, hlayout, -⟩ := hop
    exact MemRef.contiguous_of_identity htype hlayout

/-! ## The chain -/

namespace Traced

def root : Traced → Option (ℕ × MemRef)
  | blockArg arg v => some (arg, v)
  | op _ source _ => source.root
  | other _ => none

/-- **The bytes by which the `reinterpret_cast`s move**, together. -/
def restated : Traced → ℤ
  | op o source result => o.restated source.value result + source.restated
  | _ => 0

/-- The value is the result of a subview or of a view. -/
def IsSlice : Traced → Prop
  | op (.subview _ _ _) _ _ => True
  | op (.view _ _) _ _ => True
  | _ => False

end Traced

theorem start_of_traceFrom {e : Traced} {bytes : ℤ} {r : SubviewTraceResult} (hwf : e.WellFormed)
    (h : traceFrom bytes e = some r) : ∃ v, e.root = some (r.rootArg, v) ∧
      e.value.start + bytes = v.start + r.offsetInBytes + e.restated := by
  induction e generalizing bytes with
  | blockArg arg v =>
    cases h
    refine ⟨v, rfl, ?_⟩
    simp only [Traced.value, Traced.restated, add_zero]
  | op o source result ih =>
    rw [traceFrom] at h
    cases hd : o.delta source.value.type result.type with
    | none =>
      rw [hd] at h
      cases h
    | some d =>
      rw [hd] at h
      obtain ⟨v, hroot, hstart⟩ := ih hwf.2 h
      refine ⟨v, hroot, ?_⟩
      have hresult := start_of_delta hwf.1 hd
      rw [Traced.value, Traced.restated, hresult]
      linarith
  | other v => cases h

theorem contiguous_of_trace {e : Traced} {r : SubviewTraceResult} (hwf : e.WellFormed)
    (h : traceSubviewToBlockArgument e = some r) (hslice : e.IsSlice) : e.value.Contiguous := by
  cases e with
  | blockArg arg v => exact hslice.elim
  | other v => exact hslice.elim
  | op o source result =>
    unfold traceSubviewToBlockArgument at h
    rw [traceFrom] at h
    cases hd : o.delta source.value.type result.type with
    | none =>
      rw [hd] at h
      cases h
    | some d =>
      refine contiguous_of_delta hwf.1 hd ?_ ?_
      · rintro rfl
        exact hslice
      · rintro offset sizes strides rfl
        exact hslice

/-- **The trace is right**, about the place and about the elements of a slice, exactly where the
`reinterpret_cast`s of the chain move by nothing together. -/
theorem trace_exact_iff (e : Traced) (r : SubviewTraceResult) (hwf : e.WellFormed)
    (h : traceSubviewToBlockArgument e = some r) :
    (∃ v, e.root = some (r.rootArg, v) ∧ e.value.start = v.start + r.offsetInBytes ∧
      (e.IsSlice → e.value.Contiguous)) ↔ e.restated = 0 := by
  obtain ⟨v, hroot, hstart⟩ := start_of_traceFrom hwf h
  constructor
  · rintro ⟨v', hroot', hexact, -⟩
    obtain rfl : v = v' := by
      rw [hroot, Option.some_inj, Prod.mk.injEq] at hroot'
      exact hroot'.2
    linarith
  · intro hzero
    exact ⟨v, hroot, by linarith, contiguous_of_trace hwf h⟩

/-! ## A cast that moves -/

def sixteenWords : MemRef where
  type := .ranked ⟨[some 16], 32, .identity⟩
  desc := ⟨0, 0, [16], [1], rfl⟩
  describes := ⟨List.Forall₂.cons (fun _ h => (Option.some_inj.1 h).symm) List.Forall₂.nil,
    rfl, rfl⟩
  index := by decide
  fits := by decide

def fourWords (offset : ℤ) : MemRef where
  type := .ranked ⟨[some 4], 32, .strided (some offset) [some 1]⟩
  desc := ⟨0, offset, [4], [1], rfl⟩
  describes := ⟨List.Forall₂.cons (fun _ h => (Option.some_inj.1 h).symm) List.Forall₂.nil,
    List.Forall₂.cons (fun _ h => (Option.some_inj.1 h).symm) List.Forall₂.nil,
    fun _ h => (Option.some_inj.1 h).symm⟩
  index := by simp
  fits := by simp

def recast (offset : ℤ) : Traced :=
  .op (.reinterpretCast offset [4] [1]) (.blockArg 0 sixteenWords) (fourWords offset)

theorem recast_wellFormed (offset : ℤ) : (recast offset).WellFormed :=
  ⟨⟨rfl, rfl, rfl, rfl, rfl⟩, _, rfl, rfl⟩

theorem recast_exact_iff : (∃ v, (recast 4).root = some (0, v) ∧
    (recast 4).value.start = v.start + 0 ∧ ((recast 4).IsSlice → (recast 4).value.Contiguous)) ↔
      (recast 4).restated = 0 :=
  trace_exact_iff (recast 4) ⟨0, 0⟩ (recast_wellFormed 4) rfl

/-- The trace leaves out the four words that the cast moves by. -/
theorem recast_not_exact : (recast 4).WellFormed ∧
    traceSubviewToBlockArgument (recast 4) = some ⟨0, 0⟩ ∧
    (recast 4).root = some (0, sixteenWords) ∧
    (recast 4).value.start ≠ sixteenWords.start + 0 :=
  ⟨recast_wellFormed 4, rfl, rfl, by decide⟩

end MlirAie.View
