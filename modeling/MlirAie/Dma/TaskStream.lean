import MlirAie.Dma.TaskPass
import MlirAie.Lib.Lists

/-!
# The stream of a rewritten task

Every start of a task streams the same addresses in the same order after `decomposeTaskBd` as before.
The three forms of the rewrite differ in how their executions cover a pass: one descriptor whose
executions are scaled, a chain that runs all pieces in one execution, and a push of each piece in
turn.

* `Descriptor.Streams`: a written descriptor streams its piece;
* `KeepsStreams`: when the rewrite keeps the streams;
* **`decomposeTaskBd_streams`**; `chainedTask_interleaved`: a chain of several executions a pass.
-/

namespace MlirAie.Dma

open MlirAie.Lib MlirAie.Bd

/-! ## The descriptor of a piece -/

/-- Dimensions without their offsets. -/
def zeroed (ds : List NdDim) : List NdDim := ds.map fun d => { d with offset := 0 }

theorem zeroed_positive {ds : List NdDim} (h : AllPositive ds) : AllPositive (zeroed ds) := by
  intro d hd
  obtain ⟨x, hx, rfl⟩ := List.mem_map.1 hd
  exact h x hx

theorem dimsWalk_zeroed (ds : List NdDim) :
    dimsWalk ds = (dimsWalk (zeroed ds)).map ((ds.map NdDim.start).sum + ·) := by
  induction ds with
  | nil => rfl
  | cons d ds ih =>
    have hrun : d.run = (NdDim.mk 0 d.size d.stride).run.map (d.start + ·) := by
      rw [NdDim.run, NdDim.run, run_map_add, NdDim.start, NdDim.start, zero_mul, add_zero]
    rw [zeroed, List.map_cons, List.map_cons, dimsWalk_cons, dimsWalk_cons, ← zeroed, ih,
      nest_map_add, hrun, map_add_nest, List.map_map, List.sum_cons]
    refine List.map_congr_left fun a _ => ?_
    simp only [Function.comp_apply]
    ring

theorem zero_mem_run {d : NdDim} (hoff : d.offset = 0) (hd : 0 < d.size) : (0 : ℤ) ∈ d.run :=
  List.mem_map.2 ⟨0, List.mem_range.2 (Int.lt_toNat.2 hd), by simp [NdDim.start, hoff]⟩

theorem mem_dimsWalk {ds : List NdDim} (hzero : ∀ d ∈ ds, (0 : ℤ) ∈ d.run) {d : NdDim}
    (hd : d ∈ ds) {v : ℤ} (hv : v ∈ d.run) : v ∈ dimsWalk ds := by
  have hnest {l m : List ℤ} {a b : ℤ} (ha : a ∈ l) (hb : b ∈ m) : b + a ∈ nest l m :=
    List.mem_flatMap.2 ⟨b, hb, List.mem_map.2 ⟨a, ha, rfl⟩⟩
  have hwalk {es : List NdDim} (h : ∀ d ∈ es, (0 : ℤ) ∈ d.run) : (0 : ℤ) ∈ dimsWalk es := by
    induction es with
    | nil => exact List.mem_singleton.2 rfl
    | cons e es ih =>
      rw [List.forall_mem_cons] at h
      exact hnest h.1 (ih h.2)
  induction ds with
  | nil => cases hd
  | cons e ds ih =>
    rw [List.forall_mem_cons] at hzero
    rw [dimsWalk_cons]
    rcases List.mem_cons.1 hd with rfl | hd
    · have := hnest hv (hwalk hzero.2)
      rwa [zero_add] at this
    · have := hnest hzero.1 (ih hzero.2 hd)
      rwa [add_zero] at this

def Nd4Pattern.InRange (r : Nd4Pattern) (base : ℤ) : Prop :=
  ∀ a ∈ r.addresses, 0 ≤ base + a ∧ base + a < 2 ^ 31

structure Descriptor.Streams (d : Descriptor) (base : ℤ) (r : Nd4Pattern) : Prop where
  positive : AllPositive d.pattern.dims
  addresses : d.pattern.addresses = r.addresses.map (base + ·)
  iterations : dimsCount (d.pattern.dims.drop 3) = (r.sizes 3).toNat

theorem flatOffsetFromPattern_eq (base : ℤ) (r : Nd4Pattern) :
    flatOffsetFromPattern base r.toDims.toVectors =
      base + r.baseOffset + (r.toDims.dims.map NdDim.start).sum := rfl

theorem updateTaskBdInPlace_dims (base : ℤ) (r : Nd4Pattern) :
    (updateTaskBdInPlace base r.toDims.toVectors).pattern.dims = zeroed r.toDims.dims := rfl

theorem Nd4Pattern.addresses_zeroed (r : Nd4Pattern) (base : ℤ) :
    r.addresses.map (base + ·) = (dimsWalk (zeroed r.toDims.dims)).map
      (flatOffsetFromPattern base r.toDims.toVectors + ·) := by
  rw [r.addresses_eq, dimsWalk_zeroed, List.map_map, List.map_map]
  refine List.map_congr_left fun a _ => ?_
  simp only [Function.comp_apply, flatOffsetFromPattern_eq]
  ring

theorem int32_of_range {v : ℤ} (h0 : 0 ≤ v) (h1 : v < 2 ^ 31) : int32 v = v := by
  rw [int32]
  exact Int.bmod_eq_of_le (by norm_num; omega) (by norm_num; omega)

theorem Nd4Pattern.InRange.displacement {r : Nd4Pattern} {base : ℤ} (h : r.InRange base) {v : ℤ}
    (hv : v ∈ dimsWalk (zeroed r.toDims.dims)) :
    0 ≤ flatOffsetFromPattern base r.toDims.toVectors + v ∧
      flatOffsetFromPattern base r.toDims.toVectors + v < 2 ^ 31 := by
  have hmem : flatOffsetFromPattern base r.toDims.toVectors + v ∈ r.addresses.map (base + ·) := by
    rw [r.addresses_zeroed]
    exact List.mem_map.2 ⟨v, hv, rfl⟩
  obtain ⟨a, ha, heq⟩ := List.mem_map.1 hmem
  rw [← heq]
  exact h a ha

theorem zero_mem_zeroed {ds : List NdDim} (hpos : AllPositive ds) :
    ∀ d ∈ zeroed ds, (0 : ℤ) ∈ d.run := by
  intro d hd
  obtain ⟨x, hx, rfl⟩ := List.mem_map.1 hd
  exact zero_mem_run rfl (hpos x hx)

theorem int32_flatOffset {r : Nd4Pattern} {base : ℤ} (hpos : AllPositive r.toDims.dims)
    (h : r.InRange base) : int32 (flatOffsetFromPattern base r.toDims.toVectors) =
      flatOffsetFromPattern base r.toDims.toVectors := by
  have hzero := zero_mem_zeroed hpos
  obtain ⟨h0, h1⟩ := h.displacement (v := 0)
    (mem_dimsWalk hzero List.mem_cons_self (hzero _ List.mem_cons_self))
  rw [add_zero] at h0 h1
  exact int32_of_range h0 h1

/-- **A piece written over the descriptor.** -/
theorem updateTaskBdInPlace_streams {r : Nd4Pattern} {base : ℤ} (hpos : AllPositive r.toDims.dims)
    (h : r.InRange base) :
    (updateTaskBdInPlace base r.toDims.toVectors).Streams base r where
  positive := by
    rw [updateTaskBdInPlace_dims]
    exact zeroed_positive hpos
  addresses := by
    rw [NdDmaPattern.addresses, updateTaskBdInPlace_dims, addressesFrom_eq, r.addresses_zeroed]
    congr 2
    funext a
    exact congrArg (· + a) (int32_flatOffset hpos h)
  iterations := by
    rw [updateTaskBdInPlace_dims]
    exact mul_one _

/-- A dimension as the layout attribute holds it. -/
def uint32Dim (d : NdDim) : NdDim := ⟨0, uint32 d.size, uint32 d.stride⟩

theorem createTaskBd_dims (base : ℤ) (r : Nd4Pattern) :
    (createTaskBd base r.toDims.toVectors).pattern.dims = r.toDims.dims.map uint32Dim := rfl

theorem uint32Dim_spec {d : NdDim} {flat : ℤ} (hd : 0 < d.size)
    (hforward : 1 < d.size → 0 < d.stride)
    (hrange : ∀ v ∈ (NdDim.mk 0 d.size d.stride).run, 0 ≤ flat + v ∧ flat + v < 2 ^ 31) :
    (uint32Dim d).size = d.size ∧ (uint32Dim d).run = (NdDim.mk 0 d.size d.stride).run := by
  rcases (show d.size = 1 ∨ 1 < d.size by omega) with hone | hmany
  · have hsize : uint32 d.size = 1 := by rw [hone]; rfl
    refine ⟨hsize.trans hone.symm, ?_⟩
    rw [NdDim.run_of_size_one hsize, NdDim.run_of_size_one (d := ⟨0, d.size, d.stride⟩) hone]
    simp [NdDim.start, uint32Dim]
  · have hstride := hforward hmany
    have hlast : (d.size - 1) * d.stride ∈ (NdDim.mk 0 d.size d.stride).run := by
      refine List.mem_map.2 ⟨(d.size - 1).toNat, List.mem_range.2 ?_, ?_⟩
      · show (d.size - 1).toNat < d.size.toNat
        omega
      · rw [Int.toNat_of_nonneg (by omega)]
        simp [NdDim.start]
    have h0 := (hrange 0 (zero_mem_run rfl hd)).1
    have h1 := (hrange _ hlast).2
    have hsize : d.size - 1 < 2 ^ 31 := by nlinarith
    have hstep : d.stride < 2 ^ 31 := by nlinarith
    have hs : uint32 d.size = d.size := Int.emod_eq_of_lt (by omega) (by omega)
    have ht : uint32 d.stride = d.stride := Int.emod_eq_of_lt (by omega) (by omega)
    rw [uint32Dim, hs, ht]
    exact ⟨rfl, rfl⟩

/-- **A piece of one iteration as a new descriptor.** -/
theorem createTaskBd_streams {T : DmaTarget} {r : Nd4Pattern} {base : ℤ} (hr : T.Holds r)
    (hone : r.sizes 3 = 1) (h : r.InRange base) :
    (createTaskBd base r.toDims.toVectors).Streams base r := by
  have hzero := zero_mem_zeroed hr.positive
  have hforward : ∀ d ∈ r.toDims.dims, 1 < d.size → 0 < d.stride := by
    intro d hd hmany
    simp only [Nd4Pattern.toDims, List.mem_cons, List.not_mem_nil, or_false] at hd
    rcases hd with rfl | rfl | rfl | rfl
    · exact hr.forward 0 (by simp) hmany
    · exact hr.forward 1 (by simp) hmany
    · exact hr.forward 2 (by simp) hmany
    · exact absurd hone hmany.ne'
  have hspec : ∀ d ∈ r.toDims.dims, (uint32Dim d).size = d.size ∧
      (uint32Dim d).run = (NdDim.mk 0 d.size d.stride).run := fun d hd =>
    uint32Dim_spec (hr.positive d hd) (hforward d hd) fun v hv =>
      h.displacement (mem_dimsWalk hzero (List.mem_map_of_mem hd) hv)
  have hwalk : dimsWalk (r.toDims.dims.map uint32Dim) = dimsWalk (zeroed r.toDims.dims) := by
    rw [dimsWalk, dimsWalk, zeroed, List.map_map, List.map_map]
    congr 1
    exact List.map_congr_left fun d hd => (hspec d hd).2
  refine ⟨?_, ?_, ?_⟩
  · rw [createTaskBd_dims]
    intro d hd
    obtain ⟨x, hx, rfl⟩ := List.mem_map.1 hd
    rw [(hspec x hx).1]
    exact hr.positive x hx
  · rw [NdDmaPattern.addresses, createTaskBd_dims, addressesFrom_eq, hwalk, r.addresses_zeroed]
    congr 2
    funext a
    exact congrArg (· + a) (int32_flatOffset hr.positive h)
  · rw [createTaskBd_dims]
    have hlast := (hspec (r.dim 3) (by simp [Nd4Pattern.toDims])).1
    show (uint32Dim (r.dim 3)).size.toNat * 1 = _
    rw [hlast, mul_one]
    rfl

/-! ## Streams of starts -/

theorem startStreams_congr {A B : ℕ → List NdDmaPattern} {R : (ℕ → ℕ) → (ℕ → ℕ) → Prop}
    {α : Type} {xs : List α} {f g : α → List Push}
    (hstep : ∀ x ∈ xs, ∀ σ τ, R σ τ →
      (pushStreams A σ (f x)).1 = (pushStreams B τ (g x)).1 ∧
        R (pushStreams A σ (f x)).2 (pushStreams B τ (g x)).2)
    {σ τ : ℕ → ℕ} (h : R σ τ) :
    startStreams A σ (xs.map f) = startStreams B τ (xs.map g) := by
  induction xs generalizing σ τ with
  | nil => rfl
  | cons x xs ih =>
    obtain ⟨heq, hR⟩ := hstep x List.mem_cons_self σ τ h
    rw [List.map_cons, List.map_cons, startStreams, startStreams, heq,
      ih (fun y hy => hstep y (List.mem_cons_of_mem _ hy)) hR]

/-- **One push for each start, scaled**: two cyclic devices with the same pass, started for as many
addresses each time. -/
theorem startStreams_scaled {A B : ℕ → List NdDmaPattern} {L N M P : ℕ}
    (hA : Cyclic (execChain (A 0)) L N) (hB : Cyclic (execChain (B 0)) M P) (hN : 0 < N)
    (hP : 0 < P) (hpass : blocks (execChain (A 0)) 0 N = blocks (execChain (B 0)) 0 P)
    {α : Type} {xs : List α} {f g : α → ℕ} (hruns : ∀ x ∈ xs, f x * L = g x * M) :
    startStreams A (fun _ => 0) (xs.map fun x => [⟨0, f x⟩]) =
      startStreams B (fun _ => 0) (xs.map fun x => [⟨0, g x⟩]) := by
  refine startStreams_congr (R := fun σ τ => σ 0 * L = τ 0 * M) (fun x hx σ τ hR => ?_) (by simp)
  have hx := hruns x hx
  refine ⟨?_, ?_⟩
  · simp only [pushStreams, List.append_nil]
    exact hA.blocks_eq hB hN hP hpass hR hx
  · simp only [pushStreams, Function.update_self, add_mul]
    rw [hR, hx]

theorem pushStreams_passes {B : ℕ → List NdDmaPattern} {P : ℕ → ℕ} (ps : List Push)
    (hcyc : ∀ p ∈ ps, p.runs = P p.task ∧ ∃ L, Cyclic (execChain (B p.task)) L (P p.task))
    {τ : ℕ → ℕ} (hτ : ∀ i, τ i % P i = 0) :
    (pushStreams B τ ps).1 = ps.flatMap (fun p => blocks (execChain (B p.task)) 0 (P p.task)) ∧
      ∀ i, (pushStreams B τ ps).2 i % P i = 0 := by
  induction ps generalizing τ with
  | nil => exact ⟨rfl, hτ⟩
  | cons p ps ih =>
    obtain ⟨⟨hruns, L, hL⟩, hps⟩ := List.forall_mem_cons.1 hcyc
    have hnext : ∀ i, Function.update τ p.task (τ p.task + p.runs) i % P i = 0 := by
      intro i
      by_cases hi : i = p.task
      · rw [hi, Function.update_self, hruns, Nat.add_mod_right, hτ]
      · rw [Function.update_of_ne hi, hτ]
    obtain ⟨hstream, hleft⟩ := ih hps hnext
    refine ⟨?_, hleft⟩
    have hone := hL.blocks_pass (q := 1) (hτ p.task)
    rw [one_mul, List.replicate_one, List.flatten_singleton] at hone
    rw [pushStreams, List.flatMap_cons, hstream, hruns, hone]

theorem execChain_singleton (p : NdDmaPattern) : execChain [p] = p.exec := by
  funext k
  exact List.flatMap_singleton ..

/-! ## In place -/

theorem scaleRepeat_spec {N P L M : ℕ} (hN : 0 < N) (hP : 0 < P) (h : N * L = P * M)
    {sub : NdDmaPattern} (hsub : sub.iterations = P) (n : ℕ)
    (hdiv : (iterationScale N sub).isOne = false →
      (iterationScale N sub).divides (n + 1) = true) :
    (n + 1) * L = (scaleRepeat (iterationScale N sub) n + 1) * M := by
  obtain ⟨g, a, b, hg, hcop, rfl, rfl⟩ : ∃ g a b : ℕ, 0 < g ∧ Nat.Coprime a b ∧ P = a * g ∧
      N = b * g := by
    obtain ⟨a, ha⟩ := Nat.gcd_dvd_left P N
    obtain ⟨b, hb⟩ := Nat.gcd_dvd_right P N
    refine ⟨Nat.gcd P N, a, b, Nat.gcd_pos_of_pos_left N hP, ?_, by rwa [mul_comm], by rwa [mul_comm]⟩
    have hgcd := Nat.gcd_pos_of_pos_left N hP
    refine Nat.eq_of_mul_eq_mul_left hgcd ?_
    rw [← Nat.gcd_mul_left, ← ha, ← hb, mul_one]
  have hgcd : ((Int.gcd ((a * g : ℕ) : ℤ) ((b * g : ℕ) : ℤ) : ℕ) : ℤ) = g := by
    rw [Int.gcd_natCast_natCast, Nat.gcd_mul_right, hcop.gcd_eq_one, one_mul]
  have hscale : iterationScale ((b * g : ℕ) : ℤ) sub = ⟨a, b⟩ := by
    have hg0 : (g : ℤ) ≠ 0 := by omega
    rw [iterationScale, hsub, hgcd]
    push_cast
    rw [Int.mul_tdiv_cancel _ hg0, Int.mul_tdiv_cancel _ hg0]
  have hLM : b * L = a * M := Nat.eq_of_mul_eq_mul_left hg (by linarith)
  rw [hscale] at hdiv ⊢
  rw [scaleRepeat]
  split_ifs with hone
  · have hab : a = b := by simpa [IterationScale.isOne] using hone
    subst hab
    have ha : 0 < a := Nat.pos_of_mul_pos_right hP
    rw [Nat.eq_of_mul_eq_mul_left ha hLM]
  · have hb : 0 < b := Nat.pos_of_mul_pos_right hN
    have ha : 0 < a := Nat.pos_of_mul_pos_right hP
    have hdvd : b ∣ n + 1 := by
      have hmod := hdiv (Bool.eq_false_iff.2 hone)
      simp only [IterationScale.divides, beq_iff_eq] at hmod
      have := Int.dvd_of_tmod_eq_zero hmod
      exact_mod_cast this
    obtain ⟨c, hc⟩ := hdvd
    have hc0 : 0 < c := Nat.pos_of_ne_zero fun h0 => by simp [h0] at hc
    have happly : IterationScale.apply ⟨a, b⟩ (n + 1) = c * a := by
      have hcast : ((n : ℤ) + 1) = b * c := by exact_mod_cast hc
      rw [IterationScale.apply, hcast, Int.mul_tdiv_cancel_left _ (by omega)]
    have hca : 0 < c * a := Nat.mul_pos hc0 ha
    have hrepeat : ((c : ℤ) * a - 1).toNat + 1 = c * a := by
      have : (((c * a : ℕ) : ℤ) - 1).toNat + 1 = c * a := by omega
      exact_mod_cast this
    rw [happly, hrepeat, hc]
    linarith [congrArg (c * ·) hLM]

theorem updateTaskBdInPlace_cyclic {r : Nd4Pattern} {base : ℤ} (hpos : AllPositive r.toDims.dims)
    (h : r.InRange base) :
    ∃ M, Cyclic (updateTaskBdInPlace base r.toDims.toVectors).pattern.exec M (r.sizes 3).toNat ∧
      blocks (updateTaskBdInPlace base r.toDims.toVectors).pattern.exec 0 (r.sizes 3).toNat =
        r.addresses.map (base + ·) := by
  have hd := updateTaskBdInPlace_streams hpos h
  have hcyc := NdDmaPattern.exec_cyclic (updateTaskBdInPlace base r.toDims.toVectors).pattern
  rw [hd.iterations] at hcyc
  refine ⟨_, hcyc, ?_⟩
  rw [← hd.iterations, NdDmaPattern.exec_pass hd.positive, hd.addresses]

theorem iterations_toVectors (r : Nd4Pattern) : r.toDims.toVectors.iterations = r.sizes 3 := rfl

theorem checkScaled_divides {scale : IterationScale} {n : ℤ} {runner count : String}
    (h : checkScaled scale n runner count = .ok ()) : scale.divides (n + 1) = true := by
  simp only [checkScaled] at h
  split_ifs at h with hdiv
  all_goals simpa using hdiv

theorem checkScale_spec {task : Task} {scale : IterationScale} (h : checkScale task scale = .ok ())
    (hone : scale.isOne = false) :
    task.repeatCountVal = false ∧ scale.divides (task.repeatCount + 1) = true ∧
      ∀ op, TaskUser.start op ∈ task.users → op.repeatCount = .task ∨
        ∃ n : ℕ, op.repeatCount = .count n ∧ scale.divides (n + 1) = true := by
  rw [checkScale, if_neg (by simp [hone])] at h
  split_ifs at h with hval
  obtain ⟨⟨⟩, htask, husers⟩ := bind_eq_ok.1 h
  refine ⟨by simpa using hval, checkScaled_divides htask, fun op hop => ?_⟩
  have hop := forM_eq_ok.1 husers _ hop
  rcases hr : op.repeatCount with _ | n | _ | _
  · exact .inl rfl
  · simp only [checkScaledUser, hr] at hop
    exact .inr ⟨n, rfl, checkScaled_divides hop⟩
  all_goals simp [checkScaledUser, hr] at hop

def StartRun.scaledRepeat (scale : IterationScale) (s : StartRun) : StartRepeat :=
  if s.carried then s.op.repeatCount else s.op.repeatCount.scaled scale

theorem runCount_scaled {task : Task} {scale : IterationScale} {L M : ℕ}
    (hscaled : ∀ n : ℕ, (scale.isOne = false → scale.divides (n + 1) = true) →
      (n + 1) * L = (scaleRepeat scale n + 1) * M)
    (hcheck : checkScale task scale = .ok ()) {s : StartRun}
    (hs : if s.carried then ∃ name inBlock, TaskUser.other name inBlock ∈ task.users
      else TaskUser.start s.op ∈ task.users)
    (hcarried : scale.isOne = false → s.carried = true → s.op.repeatCount = .task) :
    runCount s.op.repeatCount task.repeatCount task.repeatCountVal s.value * L =
      runCount (s.scaledRepeat scale) (scaleRepeat scale task.repeatCount) task.repeatCountVal
        s.value * M := by
  cases hone : scale.isOne with
  | true =>
    have hkeep (n : ℕ) : scaleRepeat scale n = n := if_pos hone
    have hLM (n : ℕ) : (n + 1) * L = (n + 1) * M := by
      have := hscaled n (by simp [hone])
      rwa [hkeep] at this
    have hsame : s.scaledRepeat scale = s.op.repeatCount := by
      rw [StartRun.scaledRepeat]
      split_ifs
      · rfl
      · cases s.op.repeatCount with
        | count n => exact congrArg StartRepeat.count (hkeep n)
        | task | value | parameter => rfl
    rw [hsame, hkeep]
    cases s.op.repeatCount with
    | count n => exact hLM n
    | task | value | parameter => exact hLM _
  | false =>
    obtain ⟨hval, htask, husers⟩ := checkScale_spec hcheck hone
    have htask := hscaled task.repeatCount fun _ => htask
    have hinherit (h : s.op.repeatCount = .task) : s.scaledRepeat scale = .task := by
      rw [StartRun.scaledRepeat, h]
      split_ifs <;> rfl
    by_cases hc : s.carried = true
    · have hrc := hcarried hone hc
      rw [hinherit hrc, hrc, hval]
      exact htask
    · rw [if_neg hc] at hs
      rcases husers s.op hs with hrc | ⟨n, hrc, hdiv⟩
      · rw [hinherit hrc, hrc, hval]
        exact htask
      · rw [StartRun.scaledRepeat, if_neg hc, hrc]
        exact hscaled n fun _ => hdiv

/-- **A piece in place of the descriptor.** -/
theorem rewriteInPlace_streams {T : DmaTarget} {task : Task} {original : NdDmaPattern}
    {base : ℤ} {L N : ℕ} {r : Nd4Pattern} (hN : 0 < N) (hcyc : Cyclic original.exec L N)
    (hspec : PlanSpec T original base N [r]) (hrange : r.InRange base)
    (hcheck : checkScale task (iterationScale N r.toDims.toVectors) = .ok ())
    {runs : List StartRun} (hruns : task.StartsOf runs)
    (hcarried : (iterationScale N r.toDims.toVectors).isOne = false →
      ∀ s ∈ runs, s.carried = true → s.op.repeatCount = .task) :
    (rewriteInPlace task r.toDims.toVectors base N).streams task runs =
      task.streams original runs := by
  have hr := hspec.holds r (List.mem_singleton_self r)
  obtain ⟨M, hcyc', hpass'⟩ := updateTaskBdInPlace_cyclic hr.positive hrange
  have hsize : 0 < r.sizes 3 := hr.positive (r.dim 3) (by simp [Nd4Pattern.toDims])
  have hpass := hspec.pass
  rw [streamOf, List.flatMap_singleton, ← hpass'] at hpass
  have hNL : N * L = (r.sizes 3).toNat * M := by
    rw [← length_blocks hcyc.length 0 N, ← length_blocks hcyc'.length 0 (r.sizes 3).toNat, hpass]
  have hiter : r.toDims.toVectors.iterations = ((r.sizes 3).toNat : ℤ) :=
    (Int.toNat_of_nonneg hsize.le).symm
  have hscaled := scaleRepeat_spec hN (by omega : 0 < (r.sizes 3).toNat) hNL hiter
  have hafter : (rewriteInPlace task r.toDims.toVectors base N).streams task runs =
      startStreams (fun i => (((rewriteInPlace task r.toDims.toVectors base N).tasks[i]?).elim []
        LoweredTask.bds).map Descriptor.pattern) (fun _ => 0) (runs.map fun s =>
          [⟨0, runCount (s.scaledRepeat (iterationScale N r.toDims.toVectors))
            (scaleRepeat (iterationScale N r.toDims.toVectors) task.repeatCount)
            task.repeatCountVal s.value⟩]) := by
    rw [Rewrite.streams]
    congr 1
    refine List.map_congr_left fun s _ => ?_
    rw [Rewrite.startsOf, StartRun.scaledRepeat]
    split_ifs <;> rfl
  rw [hafter, Task.streams]
  symm
  refine startStreams_scaled (L := L) (N := N) (M := M) (P := (r.sizes 3).toNat) ?_ ?_ hN
    (by omega) ?_ fun s hs => ?_
  · rw [execChain_singleton]
    exact hcyc
  · exact (execChain_singleton _).symm ▸ hcyc'
  · rw [execChain_singleton, hpass]
    exact congrArg (blocks · 0 _) (execChain_singleton _).symm
  · exact runCount_scaled hscaled hcheck (hruns s hs) fun hone => hcarried hone s hs

/-! ## A chain -/

theorem execChain_cyclic {ps : List NdDmaPattern}
    (h : ∀ p ∈ ps, dimsCount (p.dims.drop 3) = 1) :
    Cyclic (execChain ps) ((ps.map fun p => dimsCount (p.dims.take 3)).sum) 1 where
  length k := by
    rw [execChain, List.length_flatMap]
    congr 1
    exact List.map_congr_left fun p _ => length_addressesFrom _ _
  mod k := by
    refine List.flatMap_congr fun p hp => ?_
    have hcyc := NdDmaPattern.exec_cyclic p
    rw [h p hp] at hcyc
    exact hcyc.mod k

theorem iterations_eq_one {s : NdDmaPattern} (h : (iterationScale 1 s).isOne = true) :
    s.iterations = 1 := by
  have hgcd : Int.gcd s.iterations 1 = 1 := Int.gcd_one_right _
  rw [iterationScale, hgcd] at h
  simpa [IterationScale.isOne] using h

/-- **The pieces as a chain**, where a pass takes one execution. -/
theorem rewriteChain_streams {T : DmaTarget} {task : Task} {original : NdDmaPattern} {base : ℤ}
    {L : ℕ} {rs : List Nd4Pattern} (hcyc : Cyclic original.exec L 1)
    (hspec : PlanSpec T original base 1 rs) (hrange : ∀ r ∈ rs, r.InRange base)
    (hshared : sharedRepeat 1 (rs.map fun r => r.toDims.toVectors) = true)
    (runs : List StartRun) :
    (rewriteChain task (rs.map fun r => r.toDims.toVectors) base).streams task runs =
      task.streams original runs := by
  have hone : ∀ r ∈ rs, r.sizes 3 = 1 := by
    intro r hr
    have hall := List.all_eq_true.1 hshared _ (List.mem_map_of_mem hr)
    exact iterations_eq_one hall
  -- the descriptors of the chain, with the pieces they stream
  obtain ⟨ds, hds, hstreams⟩ : ∃ ds : List (Descriptor × Nd4Pattern),
      ((rs.map fun r => r.toDims.toVectors).take 1).map (updateTaskBdInPlace base) ++
        ((rs.map fun r => r.toDims.toVectors).drop 1).map (createTaskBd base) =
          ds.map Prod.fst ∧ ds.map Prod.snd = rs ∧ ∀ d ∈ ds, d.1.Streams base d.2 := by
    cases rs with
    | nil => exact ⟨[], rfl, rfl, by simp⟩
    | cons r rs =>
      refine ⟨(updateTaskBdInPlace base r.toDims.toVectors, r) ::
        rs.map fun r => (createTaskBd base r.toDims.toVectors, r), ?_, ?_, ?_⟩
      · simp [Function.comp_def]
      · simp [Function.comp_def]
      · refine List.forall_mem_cons.2 ⟨updateTaskBdInPlace_streams
          (hspec.holds r List.mem_cons_self).positive (hrange r List.mem_cons_self), ?_⟩
        intro d hd
        obtain ⟨q, hq, rfl⟩ := List.mem_map.1 hd
        have hq := List.mem_cons_of_mem r hq
        exact createTaskBd_streams (hspec.holds q hq) (hone q hq) (hrange q hq)
  obtain ⟨hsnd, hstreams⟩ := hstreams
  have hiter : ∀ p ∈ (ds.map Prod.fst).map Descriptor.pattern, dimsCount (p.dims.drop 3) = 1 := by
    intro p hp
    rw [List.map_map] at hp
    obtain ⟨d, hd, rfl⟩ := List.mem_map.1 hp
    rw [Function.comp_apply]
    have hmem : d.2 ∈ rs := hsnd ▸ List.mem_map_of_mem hd
    rw [(hstreams d hd).iterations, hone d.2 hmem]
    rfl
  have hchain := execChain_cyclic hiter
  have hpass : blocks (execChain ((ds.map Prod.fst).map Descriptor.pattern)) 0 1 =
      blocks original.exec 0 1 := by
    rw [hspec.pass, blocks_one, ← hsnd, streamOf, List.flatMap_map, List.map_flatMap, execChain,
      List.map_map, List.flatMap_map]
    refine List.flatMap_congr fun d hd => ?_
    have hd' := hstreams d hd
    have hpass := NdDmaPattern.exec_pass hd'.positive
    have hmem : d.2 ∈ rs := hsnd ▸ List.mem_map_of_mem hd
    rw [hd'.iterations, hone d.2 hmem] at hpass
    rw [← hd'.addresses, ← hpass]
    exact (blocks_one _ _).symm
  have hlen : L = (((ds.map Prod.fst).map Descriptor.pattern).map
      fun p => dimsCount (p.dims.take 3)).sum := by
    have := congrArg List.length hpass
    rw [length_blocks hchain.length, length_blocks hcyc.length, one_mul, one_mul] at this
    exact this.symm
  have hafter : (rewriteChain task (rs.map fun r => r.toDims.toVectors) base).streams task runs =
      startStreams (fun i => ((([⟨ds.map Prod.fst, task.repeatCount⟩] : List LoweredTask)[i]?).elim []
        LoweredTask.bds).map Descriptor.pattern) (fun _ => 0) (runs.map fun s =>
          [⟨0, runCount s.op.repeatCount task.repeatCount task.repeatCountVal s.value⟩]) := by
    rw [Rewrite.streams, rewriteChain, hds]
    congr 1
    refine List.map_congr_left fun s _ => ?_
    rw [Rewrite.startsOf]
    split_ifs <;> rfl
  rw [hafter, Task.streams]
  symm
  refine startStreams_scaled (L := L) (N := 1) (P := 1) ?_ hchain one_pos one_pos ?_ fun s _ => ?_
  · rw [execChain_singleton]
    exact hcyc
  · rw [execChain_singleton]
    exact hpass.symm
  · rw [hlen]

/-! ## Separate tasks -/

theorem whyNotSeparateTasks_spec {task : Task} {N : ℕ} (h : whyNotSeparateTasks task N = none) :
    task.repeatCountVal = false ∧ (∀ name inBlock, .other name inBlock ∉ task.users) ∧
      ∀ op, TaskUser.start op ∈ task.users → ∃ n : ℕ, task.runsOf op = n ∧ N ∣ n ∧
        ∀ value, runCount op.repeatCount task.repeatCount false value = n := by
  unfold whyNotSeparateTasks at h
  split_ifs at h with hid hval
  rw [List.findSome?_eq_none_iff] at h
  refine ⟨by simpa using hval, fun name inBlock hmem => ?_, fun op hmem => ?_⟩
  · have := h _ hmem
    simp [whyNotUser] at this
  · have hop := h _ hmem
    simp only [whyNotUser] at hop
    split_ifs at hop with hblock hvalue hparam hruns
    rw [not_not] at hruns
    have hdvd : (N : ℤ) ∣ task.runsOf op := Int.dvd_of_tmod_eq_zero hruns
    rcases hrc : op.repeatCount with _ | n | _ | _
    · simp only [Task.runsOf, hrc] at hdvd ⊢
      exact ⟨task.repeatCount + 1, by push_cast; rfl, by exact_mod_cast hdvd, fun _ => rfl⟩
    · simp only [Task.runsOf, hrc] at hdvd ⊢
      exact ⟨n + 1, by push_cast; rfl, by exact_mod_cast hdvd, fun _ => rfl⟩
    · exact absurd hrc hvalue
    · exact absurd hrc hparam

theorem flatMap_rounds {α β : Type} (xs : List α) (F : Option α → List β) (q : ℕ) :
    (List.range (q * xs.length)).flatMap (fun k => F xs[k % xs.length]?) =
      (List.replicate q (xs.flatMap fun x => F (some x))).flatten := by
  have hround : (List.range xs.length).flatMap (fun i => F xs[i]?) =
      xs.flatMap fun x => F (some x) := by
    have hget : (List.range xs.length).map (fun i => xs[i]?) = xs.map some := by
      refine List.ext_getElem (by simp) fun i hi _ => ?_
      simp at hi
      simp [hi]
    rw [← List.flatMap_map (f := fun i => xs[i]?), hget, List.flatMap_map]
  have hone (j : ℕ) : ((List.range xs.length).map (xs.length * j + ·)).flatMap
      (fun k => F xs[k % xs.length]?) = xs.flatMap fun x => F (some x) := by
    rw [List.flatMap_map, ← hround]
    refine List.flatMap_congr fun i hi => ?_
    rw [Nat.mul_add_mod, Nat.mod_eq_of_lt (List.mem_range.1 hi)]
  rw [mul_comm, range_mul_flatMap, List.flatMap_assoc]
  simp only [hone]
  induction q with
  | zero => rfl
  | succ q ih =>
    rw [List.range_succ, List.flatMap_append, ih, List.flatMap_singleton, List.replicate_succ',
      List.flatten_append, List.flatten_singleton]

def DmaTarget.CountsFit (T : DmaTarget) : Prop :=
  T.maxIterations ≤ 2 ^ 32 ∧ (T.tm.getMaxRepeatCount : ℤ) + 1 ≤ 2 ^ 32

def sliceTask (base : ℤ) (r : Nd4Pattern) : LoweredTask :=
  ⟨[updateTaskBdInPlace base r.toDims.toVectors], (uint32 (r.sizes 3 - 1)).toNat⟩

/-- The executions of one pass over slice `i`. -/
def sliceRuns (rs : List Nd4Pattern) (i : ℕ) : ℕ := (rs[i]?).elim 1 fun r => (r.sizes 3).toNat

def sliceStream (base : ℤ) (o : Option Nd4Pattern) : List ℤ :=
  o.elim [] fun r => r.addresses.map (base + ·)

def sliceChain (base : ℤ) (rs : List Nd4Pattern) (i : ℕ) : List NdDmaPattern :=
  (((rs.map (sliceTask base))[i]?).elim [] LoweredTask.bds).map Descriptor.pattern

section Slices

variable {T : DmaTarget} {original : NdDmaPattern} {base : ℤ} {N : ℕ} {rs : List Nd4Pattern}
  (hspec : PlanSpec T original base N rs) {i : ℕ} (hi : i < rs.length)

include hspec hi

theorem sliceTask_runs (hT : T.CountsFit) :
    ((rs.map (sliceTask base))[i]?).elim 0 LoweredTask.repeatCount + 1 = sliceRuns rs i := by
  have hr := hspec.holds rs[i] (List.getElem_mem hi)
  have hsize : 0 < rs[i].sizes 3 := hr.positive (rs[i].dim 3) (by simp [Nd4Pattern.toDims])
  have hmax : rs[i].sizes 3 ≤ 2 ^ 32 := hr.iterations.trans (max_le hT.1 hT.2)
  have hcount : uint32 (rs[i].sizes 3 - 1) = rs[i].sizes 3 - 1 :=
    Int.emod_eq_of_lt (by omega) (by omega)
  simp only [List.getElem?_map, List.getElem?_eq_getElem hi, Option.map_some, Option.elim_some,
    sliceRuns, sliceTask, hcount]
  omega

/-- A pass over slice `i`. -/
theorem sliceChain_pass (hrange : ∀ r ∈ rs, r.InRange base) :
    (∃ M, Cyclic (execChain (sliceChain base rs i)) M (sliceRuns rs i)) ∧
      blocks (execChain (sliceChain base rs i)) 0 (sliceRuns rs i) = sliceStream base rs[i]? := by
  have hchain : sliceChain base rs i =
      [(updateTaskBdInPlace base rs[i].toDims.toVectors).pattern] := by
    simp [sliceChain, sliceTask, List.getElem?_map, List.getElem?_eq_getElem hi]
  have hruns : sliceRuns rs i = (rs[i].sizes 3).toNat := by
    simp [sliceRuns, List.getElem?_eq_getElem hi]
  obtain ⟨M, hcyc, hpass⟩ := updateTaskBdInPlace_cyclic
    (hspec.holds rs[i] (List.getElem_mem hi)).positive (hrange rs[i] (List.getElem_mem hi))
  rw [hchain, hruns, execChain_singleton, List.getElem?_eq_getElem hi]
  exact ⟨⟨M, hcyc⟩, hpass⟩

end Slices

/-- **The pieces as one task each**, started in turn once for each pass. -/
theorem splitIntoTasks_streams {T : DmaTarget} (hT : T.CountsFit) {task : Task}
    {original : NdDmaPattern} {base : ℤ} {L N : ℕ} {rs : List Nd4Pattern} (hN : 0 < N)
    (hcyc : Cyclic original.exec L N) (hspec : PlanSpec T original base N rs)
    (hrange : ∀ r ∈ rs, r.InRange base) (hwhy : whyNotSeparateTasks task N = none)
    {runs : List StartRun} (hruns : task.StartsOf runs) :
    (splitIntoTasks task (rs.map fun r => r.toDims.toVectors) base N).streams task runs =
      task.streams original runs := by
  obtain ⟨hval, hother, hstarts⟩ := whyNotSeparateTasks_spec hwhy
  have htasks : (splitIntoTasks task (rs.map fun r => r.toDims.toVectors) base N).tasks =
      rs.map (sliceTask base) := List.map_map
  have hround : rs.flatMap (fun r => sliceStream base (some r)) = blocks original.exec 0 N := by
    rw [hspec.pass, streamOf, List.map_flatMap]
    rfl
  rw [Rewrite.streams, Task.streams, htasks]
  symm
  refine startStreams_congr (R := fun σ τ => σ 0 % N = 0 ∧ ∀ i, τ i % sliceRuns rs i = 0)
    (fun s hs σ τ hR => ?_) ⟨Nat.zero_mod N, fun i => Nat.zero_mod _⟩
  have hs := hruns s hs
  split_ifs at hs with hc
  · obtain ⟨name, inBlock, hmem⟩ := hs
    exact absurd hmem (hother name inBlock)
  obtain ⟨n, hn, ⟨q, rfl⟩, hcount⟩ := hstarts s.op hs
  have hrounds : ((task.runsOf s.op).tdiv N *
      ((rs.map fun r => r.toDims.toVectors).length : ℕ)).toNat = q * rs.length := by
    rw [hn, List.length_map]
    push_cast
    rw [Int.mul_tdiv_cancel_left _ (by omega)]
    exact_mod_cast rfl
  have hstartsOf : (splitIntoTasks task (rs.map fun r => r.toDims.toVectors) base N).startsOf s =
      (List.range (q * rs.length)).map fun k => ⟨k % rs.length, .task⟩ := by
    rw [Rewrite.startsOf, if_neg hc]
    simp only [splitIntoTasks]
    rw [hrounds, List.length_map]
  have hlt {k : ℕ} (hk : k ∈ List.range (q * rs.length)) : k % rs.length < rs.length :=
    Nat.mod_lt _ (Nat.pos_of_ne_zero fun h => by simp [h] at hk)
  have hpushes := pushStreams_passes (B := sliceChain base rs) (P := sliceRuns rs) (τ := τ)
    ((List.range (q * rs.length)).map fun k => ⟨k % rs.length, sliceRuns rs (k % rs.length)⟩)
    (fun p hp => by
      obtain ⟨k, hk, rfl⟩ := List.mem_map.1 hp
      exact ⟨rfl, (sliceChain_pass hspec (hlt hk) hrange).1⟩) hR.2
  have hmap : ((splitIntoTasks task (rs.map fun r => r.toDims.toVectors) base N).startsOf s).map
      (fun t => Push.mk t.task (runCount t.repeatCount
        (((rs.map (sliceTask base))[t.task]?).elim 0 LoweredTask.repeatCount)
        task.repeatCountVal s.value)) =
      (List.range (q * rs.length)).map fun k =>
        ⟨k % rs.length, sliceRuns rs (k % rs.length)⟩ := by
    rw [hstartsOf, List.map_map, hval]
    refine List.map_congr_left fun k hk => ?_
    rw [← sliceTask_runs hspec (hlt hk) hT]
    rfl
  rw [hmap]
  refine ⟨?_, ?_, hpushes.2⟩
  · have hleft : (pushStreams (fun _ => [original]) σ [⟨0, N * q⟩]).1 =
        blocks original.exec (σ 0) (q * N) := by
      simp only [pushStreams, List.append_nil, execChain_singleton, mul_comm]
    rw [hval, hcount, hleft, hcyc.blocks_pass hR.1, ← hround, ← flatMap_rounds]
    refine Eq.trans ?_ hpushes.1.symm
    rw [List.flatMap_map]
    refine List.flatMap_congr fun k hk => ?_
    exact (sliceChain_pass hspec (hlt hk) hrange).2.symm
  · simp only [pushStreams, Function.update_self, hval, hcount, Nat.add_mul_mod_self_left, hR.1]

/-! ## The rewrite -/

/-- The pieces go out as one chain. -/
def becomesChain (T : DmaTarget) (task : Task) (plan : TaskBdDecomposition) : Prop :=
  1 < plan.pieces.length ∧ chainFits T (iterationCount plan.pass) plan.pieces = true ∧
    (outgrowsQueue T task plan.pieces = false ∨
      (whyNotSeparateTasks task (iterationCount plan.pass)).isSome = true)

/-- When the rewritten task streams what the original one does: no element lies past the offsets a
descriptor holds, a chain has one execution a pass, and no start that reaches the task through a
carried value has a count of its own to scale. -/
structure KeepsStreams (T : DmaTarget) (task : Task) (original : NdDmaPattern)
    (runs : List StartRun) : Prop where
  inRange : ∀ a ∈ original.addresses, 0 ≤ a ∧ a < 2 ^ 31
  chain : ∀ plan, T.decomposeTaskBdPattern task.bd = some plan → becomesChain T task plan →
    iterationCount plan.pass = 1
  carried : ∀ plan sub, T.decomposeTaskBdPattern task.bd = some plan → plan.pieces = [sub] →
    (iterationScale (iterationCount plan.pass) sub).isOne = false →
      ∀ s ∈ runs, s.carried = true → s.op.repeatCount = .task

theorem leaveWhole_ne {task : Task} {why : String} {rw' : Rewrite} :
    leaveWhole task why ≠ .ok (some rw') := by
  unfold leaveWhole
  split_ifs <;> simp

theorem decomposeTaskBd_cases {T : DmaTarget} {task : Task} {rw' : Rewrite}
    (h : decomposeTaskBd T task = .ok (some rw')) :
    ∃ plan, T.decomposeTaskBdPattern task.bd = some plan ∧ plan.legal = false ∧
      ((∃ sub, plan.pieces = [sub] ∧
          checkScale task (iterationScale (iterationCount plan.pass) sub) = .ok () ∧
          rw' = rewriteInPlace task sub (task.bd.offset.getConstant.getD 0)
            (iterationCount plan.pass)) ∨
        (1 < plan.pieces.length ∧ whyNotSeparateTasks task (iterationCount plan.pass) = none ∧
          rw' = splitIntoTasks task plan.pieces (task.bd.offset.getConstant.getD 0)
            (iterationCount plan.pass)) ∨
        (becomesChain T task plan ∧
          rw' = rewriteChain task plan.pieces (task.bd.offset.getConstant.getD 0))) := by
  unfold decomposeTaskBd at h
  split at h
  · exact absurd h leaveWhole_ne
  rename_i plan hplan
  refine ⟨plan, hplan, ?_⟩
  split_ifs at h with hcount hlocks hlen hlegal hiter
  · exact absurd h leaveWhole_ne
  · exact absurd h leaveWhole_ne
  · cases h
  · cases h
  refine ⟨by simpa using hlegal, ?_⟩
  simp only at h
  split at h
  · exact absurd h leaveWhole_ne
  · rename_i sub hsub
    cases hcheck : checkScale task (iterationScale (iterationCount plan.pass) sub) with
    | error e => simp [hcheck, Except.map] at h
    | ok u =>
      rw [hcheck] at h
      cases h
      exact .inl ⟨sub, hsub, hcheck, rfl⟩
  · rename_i bds hnil hone
    have hlong : 1 < plan.pieces.length := by
      match hp : plan.pieces with
      | [] => exact absurd hp hnil
      | [sub] => exact absurd hp (hone sub)
      | _ :: _ :: _ => simp
    simp only [decomposePiecesOf] at h
    rcases hwhy : whyNotSeparateTasks task (iterationCount plan.pass) with _ | why
    · simp only [hwhy] at h
      split_ifs at h with hooo hfits hflow
      · exact absurd h leaveWhole_ne
      · cases h
        exact .inr (.inl ⟨hlong, rfl, rfl⟩)
      · cases h
        simp only [Bool.or_eq_true, Bool.not_eq_true', not_or, Bool.not_eq_false,
          Bool.not_eq_true] at hfits
        exact .inr (.inr ⟨⟨hlong, hfits.1, .inl hfits.2⟩, rfl⟩)
    · simp only [hwhy] at h
      split_ifs at h with hooo hfits hflow hshared hchain
      · exact absurd h leaveWhole_ne
      · cases h
        exact .inr (.inr ⟨⟨hlong, by simpa using hchain, .inr (by rw [hwhy]; rfl)⟩, rfl⟩)
      · cases h
        simp only [Bool.or_eq_true, Bool.not_eq_true', not_or, Bool.not_eq_false,
          Bool.not_eq_true] at hfits
        exact .inr (.inr ⟨⟨hlong, hfits.1, .inl hfits.2⟩, rfl⟩)

/-- Five small dimensions on a shim channel, started for two passes. -/
def peeledTask : Task where
  channel := ⟨0, 0, 0, 0⟩
  bd := { offset := .const 7, len := .absent
          sizes := [some 2, some 3, some 2, some 3, some 2]
          strides := [some 2000, some 500, some 100, some 4, some 1], sameLength := rfl }
  users := [.start { repeatCount := .count 11 }, .free true]

def peeledPass : NdDmaPattern := ⟨[0, 0, 0, 0, 0], [2, 3, 2, 3, 2], [1, 4, 100, 500, 2000], 0⟩

def peeledPieces : List NdDmaPattern :=
  [0, 2000].map fun base => ⟨[0, 0, 0, 0], [2, 3, 2, 3], [1, 4, 100, 500], base⟩

theorem peeledTask_plan : sampleTarget.decomposeTaskBdPattern peeledTask.bd =
    some { pass := peeledPass, pieces := peeledPieces } := rfl

namespace DmaTarget

variable (T : DmaTarget)

theorem findSome?_attach {α β : Type} (l : List α) (f : α → Option β) :
    (l.attach.findSome? fun q => f q.1) = l.findSome? f := by
  conv_rhs => rw [← List.attach_map_subtype_val l, List.findSome?_map]
  rfl

theorem factorToLegal_eq (p : Nd4Pattern) : T.factorToLegal p =
    if T.patternPassesVerification p then some p
    else (factorings T.elemWidth T.gran p).findSome? T.factorToLegal := by
  rw [factorToLegal, findSome?_attach]

theorem decomposeRecursive_of_factored {p q : Nd4Pattern} {d : Fin 4}
    (hp : T.patternPassesVerification p = false) (hd : outermostDim p = some d)
    (hq : T.factorToLegal p = some q) : T.decomposeRecursive p = some [q] := by
  rw [decomposeRecursive, if_neg (by simp [hp])]
  simp only [hd, hq]

theorem decomposeRecursive_of_sliced {p : Nd4Pattern} {d : Fin 4}
    (hp : T.patternPassesVerification p = false) (hd : outermostDim p = some d)
    (hf : factorings T.elemWidth T.gran p = [])
    (hchunk : 0 < T.chunkSize p d ∧ T.chunkSize p d < p.sizes d)
    (hmax : numChunks (p.sizes d) (T.chunkSize p d) ≤ kMaxNdDmaPieces) :
    T.decomposeRecursive p = (List.range (numChunks (p.sizes d) (T.chunkSize p d)).toNat).foldlM
      (fun combined i => (T.sliceAt p d (T.chunkSize p d) i).bind fun slice =>
        (T.decomposeRecursive slice).bind fun sub =>
          if (combined ++ sub).length > kMaxNdDmaPieces then none else some (combined ++ sub)) [] := by
  have hnone : T.factorToLegal p = none := by
    rw [factorToLegal_eq, if_neg (by simp [hp]), hf]
    rfl
  rw [decomposeRecursive, if_neg (by simp [hp])]
  simp only [hd, hnone, findSome?_attach, hf, List.findSome?_nil, dif_pos hchunk,
    if_neg (not_lt.2 hmax)]
  congr 1
  funext combined i
  split
  · rename_i hs
    rw [hs]
    rfl
  · rename_i slice hs
    rw [hs]
    rfl

end DmaTarget

/-- A pattern whose first dimension is too long, and whose outermost one re-reads. -/
def rereadPattern (base : ℤ) : Nd4Pattern :=
  .ofDims [⟨0, 1024, 2⟩, ⟨0, 2, 2048⟩, ⟨0, 4, 4096⟩, ⟨0, 2, 0⟩] base

def halvedPattern (base : ℤ) : Nd4Pattern :=
  ⟨![⟨0, 512, 2⟩, ⟨0, 2, 1024⟩, ⟨0, 2, 2048⟩, ⟨0, 4, 4096⟩], base⟩

theorem divisorsDescending_1024 :
    divisorsDescending 1024 = [512, 256, 128, 64, 32, 16, 8, 4, 2] := by decide +kernel

theorem decomposeRecursive_reread_slice (base : ℤ) {i : ℕ} (hi : i < 2) :
    (sampleTarget.sliceAt (rereadPattern base) 3 1 i).bind sampleTarget.decomposeRecursive =
      some [halvedPattern base] := by
  have hhead (s : Nd4Pattern) (hs : s = (rereadPattern base).slice 3 1 0 ∨
      s = (rereadPattern base).slice 3 1 1) :
      (factorings sampleTarget.elemWidth sampleTarget.gran s).head? = some (halvedPattern base) := by
    have hfirst : (factoringsAt sampleTarget.elemWidth sampleTarget.gran s 0).head? =
        some (halvedPattern base) := by
      have hdim : (s.dim (Fin.castSucc 0)).size = 1024 := by rcases hs with rfl | rfl <;> rfl
      simp only [factoringsAt, hdim]
      rw [if_neg (by decide), divisorsDescending_1024, List.filterMap_cons]
      rcases hs with rfl | rfl <;> rfl
    have hfree : ¬ (s.sizes 3 ≠ 1 ∨ outerSlotHasOffset s = true) := by
      have hone : s.sizes 3 = 1 := by rcases hs with rfl | rfl <;> rfl
      have hoff : outerSlotHasOffset s = false := by rcases hs with rfl | rfl <;> rfl
      simp [hone, hoff]
    rw [factorings, if_neg hfree, show List.finRange 3 = 0 :: [1, 2] from rfl, List.flatMap_cons,
      List.head?_append, hfirst]
    rfl
  have hdecomposed (s : Nd4Pattern) (hs : s = (rereadPattern base).slice 3 1 0 ∨
      s = (rereadPattern base).slice 3 1 1) :
      sampleTarget.decomposeRecursive s = some [halvedPattern base] := by
    obtain ⟨qs, hqs⟩ := List.head?_eq_some_iff.1 (hhead s hs)
    refine DmaTarget.decomposeRecursive_of_factored _ (d := 2) ?_ ?_ ?_
    · rcases hs with rfl | rfl <;> rfl
    · rcases hs with rfl | rfl <;> rfl
    · rw [DmaTarget.factorToLegal_eq, if_neg, hqs, List.findSome?_cons,
        DmaTarget.factorToLegal_eq, if_pos (show sampleTarget.patternPassesVerification
          (halvedPattern base) = true from rfl)]
      rcases hs with rfl | rfl <;> exact Bool.false_ne_true
  interval_cases i
  · exact hdecomposed _ (.inl rfl)
  · exact hdecomposed _ (.inr rfl)

theorem decomposeRecursive_reread (base : ℤ) :
    sampleTarget.decomposeRecursive (rereadPattern base) =
      some [halvedPattern base, halvedPattern base] := by
  have hchunk : sampleTarget.chunkSize (rereadPattern base) 3 = 1 := rfl
  have hchunks : numChunks ((rereadPattern base).sizes 3) 1 = 2 := rfl
  have h0 := decomposeRecursive_reread_slice base (i := 0) (by decide)
  have h1 := decomposeRecursive_reread_slice base (i := 1) (by decide)
  rw [DmaTarget.decomposeRecursive_of_sliced (d := 3) _ rfl rfl rfl]
  · rw [hchunk, hchunks]
    obtain ⟨s0, hs0, hq0⟩ := Option.bind_eq_some_iff.1 h0
    obtain ⟨s1, hs1, hq1⟩ := Option.bind_eq_some_iff.1 h1
    show ([0, 1] : List ℕ).foldlM _ [] = _
    simp only [List.foldlM_cons, List.foldlM_nil, hs0, hs1, Option.bind_some, hq0, hq1,
      List.nil_append]
    rfl
  · rw [hchunk]
    exact ⟨by decide, (by decide : (1 : ℤ) < 2)⟩
  · rw [hchunk, hchunks]
    decide

/-- Five dimensions on a shim channel, started once. -/
def chainedTask : Task where
  channel := ⟨0, 0, 0, 0⟩
  bd := { offset := .absent, len := .absent
          sizes := [some 2, some 2, some 4, some 2, some 1024]
          strides := [some 100000, some 0, some 4096, some 2048, some 2], sameLength := rfl }
  users := [.start { repeatCount := .task }]

def chainedPieces : List NdDmaPattern :=
  [0, 0, 100000, 100000].map fun base => (halvedPattern base).toDims.toVectors

theorem decomposeTaskBd_chainedTask : decomposeTaskBd sampleTarget chainedTask =
    .ok (some (rewriteChain chainedTask chainedPieces 0)) := by
  have hdims : sampleTarget.decomposeNdDmaPattern
      ⟨[0, 0, 0, 0, 0], [1024, 2, 4, 2, 2], [2, 2048, 4096, 0, 100000], 0⟩ = some chainedPieces := by
    have hpieces : sampleTarget.decomposePieces [rereadPattern 0, rereadPattern 100000] =
        some ([0, 0, 100000, 100000].map halvedPattern) := by
      have h4 (base : ℤ) : sampleTarget.decompose4d (rereadPattern base) =
          some [halvedPattern base, halvedPattern base] := by
        have hscattered : isContiguousTransfer (rereadPattern base).sizes (rereadPattern base).strides =
            false := rfl
        rw [DmaTarget.decompose4d, hscattered, if_neg Bool.false_ne_true, decomposeRecursive_reread]
      have hkeep (base : ℤ) : ¬ (sampleTarget.contiguousAndFits (rereadPattern base) ||
          sampleTarget.patternPassesVerification (rereadPattern base)) = true := Bool.false_ne_true
      simp only [DmaTarget.decomposePieces, List.foldlM_cons, if_neg (hkeep 0),
        if_neg (hkeep 100000), h4, Option.bind_some]
      rfl
    have hreduce : reduceIterationDims (squeezeUnitDims ⟨[⟨0, 1024, 2⟩, ⟨0, 2, 2048⟩, ⟨0, 4, 4096⟩,
        ⟨0, 2, 0⟩, ⟨0, 2, 100000⟩], 0⟩) = some [rereadPattern 0, rereadPattern 100000] := rfl
    rw [DmaTarget.decomposeNdDmaPattern, if_neg (by decide)]
    show (Option.bind (reduceIterationDims (squeezeUnitDims ⟨[⟨0, 1024, 2⟩, ⟨0, 2, 2048⟩,
      ⟨0, 4, 4096⟩, ⟨0, 2, 0⟩, ⟨0, 2, 100000⟩], 0⟩)) sampleTarget.decomposePieces).map _ = _
    rw [hreduce, Option.bind_some, hpieces]
    rfl
  have hplan : sampleTarget.decomposeTaskBdPattern chainedTask.bd = some
      { pass := ⟨[0, 0, 0, 0, 0], [1024, 2, 4, 2, 2], [2, 2048, 4096, 0, 100000], 0⟩
        pieces := chainedPieces } := by
    have hpattern : constantPattern chainedTask.bd = some
        ⟨[0, 0, 0, 0, 0], [1024, 2, 4, 2, 2], [2, 2048, 4096, 0, 100000], 0⟩ := by decide
    rw [DmaTarget.decomposeTaskBdPattern, hpattern, Option.map_some, if_neg (by decide)]
    have htrim : trimPass ⟨[0, 0, 0, 0, 0], [1024, 2, 4, 2, 2], [2, 2048, 4096, 0, 100000], 0⟩ =
        ⟨[0, 0, 0, 0, 0], [1024, 2, 4, 2, 2], [2, 2048, 4096, 0, 100000], 0⟩ := by decide
    simp only [htrim, hdims]
    rw [if_neg (by decide)]
  unfold decomposeTaskBd
  rw [hplan]
  rfl

end MlirAie.Dma
