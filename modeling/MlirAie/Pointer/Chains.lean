import MlirAie.Pointer.Loops

/-!
# The indices that are converted

An index is converted with the sums that are made of it. No two conversions meet, and what they hold
is used only where the rewrite knows what to do with a pointer.

* **`IsChain`**: the index and its sums; **`isChain_of_canConvert`**;
* **`Converts`**: how a body uses the pointers; `Accepted.converts`;
* `convertOp`, **`Converts.convertOp_cases`**: what an operation becomes;
* **`ForOp.matchAndRewrite_spec`**: the new loop.
-/

namespace MlirAie.Pointer

variable {κ : Type}

/-! ## Uses -/

section Uses

variable {f : ForOp κ} {v : Ref} {k : ℕ} {op : Op κ}

theorem ForOp.operand_mem_usesOf (h : f.body[k]? = some op) (hv : v ∈ op.operands) :
    ForOp.Use.operand k op ∈ f.usesOf v := by
  refine List.mem_append_left _ (List.mem_flatMap.2 ⟨(op, k), ?_, List.mem_append_left _ ?_⟩)
  · exact List.mk_mem_zipIdx_iff_getElem?.2 h
  · exact List.mem_map.2 ⟨v, List.mem_filter.2 ⟨hv, by simp⟩, rfl⟩

theorem ForOp.nested_mem_usesOf (h : f.body[k]? = some op) (hv : v ∈ op.nested) :
    ForOp.Use.nested ∈ f.usesOf v := by
  refine List.mem_append_left _ (List.mem_flatMap.2 ⟨(op, k), ?_, List.mem_append_right _ ?_⟩)
  · exact List.mk_mem_zipIdx_iff_getElem?.2 h
  · exact List.mem_map.2 ⟨v, List.mem_filter.2 ⟨hv, by simp⟩, rfl⟩

theorem ForOp.yielded_mem_usesOf {n : ℕ} (h : f.yields[n]? = some v) :
    ForOp.Use.yielded n ∈ f.usesOf v := by
  refine List.mem_append_right _ (List.mem_map.2 ⟨(v, n), List.mem_filter.2 ⟨?_, by simp⟩, rfl⟩)
  exact List.mk_mem_zipIdx_iff_getElem?.2 h

theorem ForOp.getElem?_of_operand_mem_usesOf (h : ForOp.Use.operand k op ∈ f.usesOf v) :
    f.body[k]? = some op ∧ v ∈ op.operands := by
  rcases List.mem_append.1 h with h | h
  · obtain ⟨p, hp, h⟩ := List.mem_flatMap.1 h
    rcases List.mem_append.1 h with h | h
    · obtain ⟨w, hw, heq⟩ := List.mem_map.1 h
      cases heq
      obtain ⟨hw, hvw⟩ := List.mem_filter.1 hw
      rw [of_decide_eq_true hvw] at hw
      exact ⟨List.mk_mem_zipIdx_iff_getElem?.1 hp, hw⟩
    · obtain ⟨_, -, heq⟩ := List.mem_map.1 h
      cases heq
  · obtain ⟨_, -, heq⟩ := List.mem_map.1 h
    cases heq

theorem Op.of_mem_accesses {a : Ref × Ref} (ha : a ∈ op.accesses) :
    (∃ shape, op = .load a.1 [a.2] shape) ∨ (∃ value shape, op = .store value a.1 [a.2] shape) ∨
      a.2 ∈ op.nested := by
  cases op with
  | load base indices shape =>
    match indices with
    | [] | _ :: _ :: _ => cases ha
    | [v] =>
      cases List.mem_singleton.1 ha
      exact Or.inl ⟨shape, rfl⟩
  | store value base indices shape =>
    match indices with
    | [] | _ :: _ :: _ => cases ha
    | [v] =>
      cases List.mem_singleton.1 ha
      exact Or.inr (Or.inl ⟨value, shape, rfl⟩)
  | addi => cases ha
  | other kind operands captured accesses =>
    exact Or.inr (Or.inr (List.mem_append_right _ (List.mem_flatMap.2 ⟨a, ha,
      List.mem_cons_of_mem _ List.mem_cons_self⟩)))

end Uses

/-! ## Chains -/

def ForOp.Use.Allowed (pos : ℕ) (memref : Ref) (chain : List Ref) (v : Ref) :
    ForOp.Use κ → Prop
  | .nested => False
  | .yielded n => n = pos
  | .operand _ (.load base indices _) => base = memref ∧ indices = [v]
  | .operand _ (.store value base indices _) => base = memref ∧ indices = [v] ∧ value ≠ v
  | .operand k (.addi _ _) => .result k 0 ∈ chain
  | .operand _ (.other ..) => False

theorem ForOp.Use.Allowed.mono {pos : ℕ} {memref v : Ref} {chain chain' : List Ref}
    {u : ForOp.Use κ} (h : u.Allowed pos memref chain v) (hle : chain ⊆ chain') :
    u.Allowed pos memref chain' v := by
  cases u with
  | nested => exact h
  | yielded n => exact h
  | operand k op =>
    cases op with
    | load => exact h
    | store => exact h
    | addi => exact hle h
    | other => exact h

/-- Operation `k` is this addition. -/
def ForOp.HasAddi (f : ForOp κ) (k : ℕ) (lhs rhs : Ref) : Prop :=
  f.body[k]? = some (.addi lhs rhs)

def ForOp.Use.Adds (values : List Ref) : ForOp.Use κ → Prop
  | .operand _ (.addi lhs rhs) => lhs ∈ values ∧ rhs ∈ values
  | _ => False

/-- **A chain**: the index at `pos`, and sums of a value of the chain and another one, whose uses
are all understood. -/
structure IsChain (f : ForOp κ) (pos : ℕ) (memref : Ref) (chain : List Ref) : Prop where
  outer : memref.isOuter
  unused : f.resultUsed pos = false
  arg : .arg pos ∈ chain
  made : ∀ r ∈ chain, r = .arg pos ∨ ∃ k lhs rhs, r = .result k 0 ∧
    f.HasAddi k lhs rhs ∧ (lhs ∈ chain ∨ rhs ∈ chain)
  allowed : ∀ v ∈ chain, ∀ u ∈ f.usesOf v, u.Allowed pos memref chain v
  one : ∀ k lhs rhs, f.HasAddi k lhs rhs → ¬(lhs ∈ chain ∧ rhs ∈ chain)
  yielded : ∃ y, f.yields[pos]? = some y ∧ y ∈ chain

section Close

variable {f : ForOp κ} {pos : ℕ} {memref v : Ref}

theorem useStep_spec {s s' : List Ref × List Ref} {u : ForOp.Use κ}
    (h : ForOp.useStep pos memref v s u = some s') :
    u.Allowed pos memref s'.2 v ∧ ¬u.Adds s.2 ∧
      (s' = s ∨ ∃ k lhs rhs, u = .operand k (.addi lhs rhs) ∧ Ref.result k 0 ∉ s.2 ∧
        s' = (.result k 0 :: s.1, .result k 0 :: s.2)) := by
  cases u with
  | nested => cases h
  | yielded n =>
    rw [ForOp.useStep] at h
    split_ifs at h with hn
    cases h
    exact ⟨hn, id, Or.inl rfl⟩
  | operand k op =>
    cases op with
    | load base indices shape =>
      rw [ForOp.useStep] at h
      split_ifs at h with hload
      cases h
      exact ⟨hload, id, Or.inl rfl⟩
    | store value base indices shape =>
      rw [ForOp.useStep] at h
      split_ifs at h with hstore
      cases h
      exact ⟨hstore, id, Or.inl rfl⟩
    | addi lhs rhs =>
      rw [ForOp.useStep] at h
      split_ifs at h with hadds hmem
      · cases h
        exact ⟨hmem, hadds, Or.inl rfl⟩
      · cases h
        exact ⟨List.mem_cons_self, hadds, Or.inr ⟨k, lhs, rhs, rfl, hmem, rfl⟩⟩
    | other => cases h

/-- The uses of a value, one after the other. -/
structure Swept (f : ForOp κ) (pos : ℕ) (memref v : Ref) (us : List (ForOp.Use κ))
    (s s' : List Ref × List Ref) : Prop where
  worklist : s.1 ⊆ s'.1
  chain : s.2 ⊆ s'.2
  work : ∀ r ∈ s'.1, r ∈ s.1 ∨ r ∈ s'.2
  fresh : ∀ r ∈ s'.2, r ∈ s.2 ∨ r ∈ s'.1 ∧
    ∃ k lhs rhs, r = .result k 0 ∧ .operand k (.addi lhs rhs) ∈ us
  allowed : ∀ u ∈ us, u.Allowed pos memref s'.2 v
  one : ∀ u ∈ us, ¬u.Adds s.2

theorem swept_of_foldlM {us : List (ForOp.Use κ)} {s s' : List Ref × List Ref}
    (h : us.foldlM (ForOp.useStep pos memref v) s = some s') : Swept f pos memref v us s s' := by
  induction us generalizing s with
  | nil =>
    cases h
    exact ⟨fun _ => id, fun _ => id, fun r hr => Or.inl hr, fun r hr => Or.inl hr,
      fun u hu => absurd hu List.not_mem_nil, fun u hu => absurd hu List.not_mem_nil⟩
  | cons u us ih =>
    rw [List.foldlM_cons] at h
    obtain ⟨s₁, hstep, hrest⟩ := Option.bind_eq_some_iff.1 h
    have hswept := ih hrest
    obtain ⟨hallowed, hone, hcase⟩ := useStep_spec hstep
    have hsub : s.1 ⊆ s₁.1 ∧ s.2 ⊆ s₁.2 := by
      rcases hcase with rfl | ⟨k, lhs, rhs, -, -, rfl⟩
      · exact ⟨fun _ => id, fun _ => id⟩
      · exact ⟨List.subset_cons_self _ _, List.subset_cons_self _ _⟩
    refine ⟨List.Subset.trans hsub.1 hswept.worklist,
      List.Subset.trans hsub.2 hswept.chain, fun r hr => ?_, fun r hr => ?_,
      List.forall_mem_cons.2 ⟨hallowed.mono hswept.chain, hswept.allowed⟩,
      List.forall_mem_cons.2 ⟨hone, fun u' hu' hadds => hswept.one u' hu' ?_⟩⟩
    · rcases hswept.work r hr with hr | hr
      · rcases hcase with rfl | ⟨k, lhs, rhs, -, -, rfl⟩
        · exact Or.inl hr
        · rcases List.mem_cons.1 hr with rfl | hr
          · exact Or.inr (hswept.chain List.mem_cons_self)
          · exact Or.inl hr
      · exact Or.inr hr
    · rcases hswept.fresh r hr with hr | ⟨hwork, k, lhs, rhs, hk, hu⟩
      · rcases hcase with rfl | ⟨k, lhs, rhs, rfl, -, rfl⟩
        · exact Or.inl hr
        · rcases List.mem_cons.1 hr with rfl | hr
          · exact Or.inr ⟨hswept.worklist List.mem_cons_self, k, lhs, rhs, rfl,
              List.mem_cons_self⟩
          · exact Or.inl hr
      · exact Or.inr ⟨hwork, k, lhs, rhs, hk, List.mem_cons_of_mem _ hu⟩
    · cases u' with
      | nested => exact hadds
      | yielded n => exact hadds
      | operand k op =>
        cases op with
        | addi => exact ⟨hsub.2 hadds.1, hsub.2 hadds.2⟩
        | _ => exact hadds

/-- Worklist and chain, with the values of the chain that were visited. -/
structure Closing (f : ForOp κ) (pos : ℕ) (memref : Ref) (visited worklist chain : List Ref) :
    Prop where
  arg : .arg pos ∈ chain
  visited_sub : visited ⊆ chain
  worklist_sub : worklist ⊆ chain
  mem : ∀ r ∈ chain, r ∈ visited ∨ r ∈ worklist
  made : ∀ r ∈ chain, r = .arg pos ∨ ∃ k lhs rhs, r = .result k 0 ∧
    f.HasAddi k lhs rhs ∧ (lhs ∈ chain ∨ rhs ∈ chain)
  allowed : ∀ v ∈ visited, ∀ u ∈ f.usesOf v, u.Allowed pos memref chain v
  one : ∀ k lhs rhs, f.HasAddi k lhs rhs → ¬(lhs ∈ visited ∧ rhs ∈ visited)

variable {visited worklist chain : List Ref}

theorem Closing.pass (h : Closing f pos memref visited (v :: worklist) chain)
    {s : List Ref × List Ref}
    (hfold : (f.usesOf v).foldlM (ForOp.useStep pos memref v) (worklist, chain) = some s) :
    Closing f pos memref (v :: visited) s.1 s.2 := by
  have hswept : Swept f pos memref v (f.usesOf v) (worklist, chain) s := swept_of_foldlM hfold
  have hv : v ∈ chain := h.worklist_sub List.mem_cons_self
  have hvisited : v :: visited ⊆ chain := List.cons_subset.2 ⟨hv, h.visited_sub⟩
  have hadded : ∀ k lhs rhs, ForOp.Use.operand k (Op.addi lhs rhs) ∈ f.usesOf v →
      f.HasAddi k lhs rhs ∧ (lhs ∈ chain ∨ rhs ∈ chain) := by
    intro k lhs rhs hu
    obtain ⟨hk, hmem⟩ := ForOp.getElem?_of_operand_mem_usesOf hu
    refine ⟨hk, ?_⟩
    rcases List.mem_cons.1 hmem with rfl | hmem
    · exact Or.inl hv
    · rw [List.mem_singleton] at hmem
      exact Or.inr (hmem ▸ hv)
  refine ⟨hswept.chain h.arg, fun r hr => hswept.chain (hvisited hr), fun r hr => ?_,
    fun r hr => ?_, fun r hr => ?_, fun w hw u hu => ?_, fun k lhs rhs hk hboth => ?_⟩
  · rcases hswept.work r hr with hr | hr
    · exact hswept.chain (h.worklist_sub (List.mem_cons_of_mem _ hr))
    · exact hr
  · rcases hswept.fresh r hr with hr | ⟨hwork, -⟩
    · rcases h.mem r hr with hr | hr
      · exact Or.inl (List.mem_cons_of_mem _ hr)
      · rcases List.mem_cons.1 hr with rfl | hr
        · exact Or.inl List.mem_cons_self
        · exact Or.inr (hswept.worklist hr)
    · exact Or.inr hwork
  · rcases hswept.fresh r hr with hr | ⟨-, k, lhs, rhs, rfl, hu⟩
    · rcases h.made r hr with hr | ⟨k, lhs, rhs, hr, hk, hop⟩
      · exact Or.inl hr
      · exact Or.inr ⟨k, lhs, rhs, hr, hk, hop.imp (fun h => hswept.chain h)
          fun h => hswept.chain h⟩
    · obtain ⟨hk, hop⟩ := hadded k lhs rhs hu
      exact Or.inr ⟨k, lhs, rhs, rfl, hk, hop.imp (fun h => hswept.chain h)
        fun h => hswept.chain h⟩
  · rcases List.mem_cons.1 hw with rfl | hw
    · exact hswept.allowed u hu
    · exact (h.allowed w hw u hu).mono hswept.chain
  · -- if both were visited before, the invariant says so; otherwise `v` is one of them
    by_cases hold : lhs ∈ visited ∧ rhs ∈ visited
    · exact h.one k lhs rhs hk hold
    · have hmem : v ∈ (Op.addi lhs rhs : Op κ).operands := by
        rcases List.mem_cons.1 hboth.1 with rfl | hlhs
        · exact List.mem_cons_self
        · rcases List.mem_cons.1 hboth.2 with rfl | hrhs
          · exact List.mem_cons_of_mem _ List.mem_cons_self
          · exact absurd ⟨hlhs, hrhs⟩ hold
      exact hswept.one _ (ForOp.operand_mem_usesOf hk hmem)
        ⟨hvisited hboth.1, hvisited hboth.2⟩

theorem Closing.close {fuel : ℕ} {chain' : List Ref}
    (h : Closing f pos memref visited worklist chain)
    (hclose : f.close pos memref fuel worklist chain = some chain') :
    ∃ visited', Closing f pos memref visited' [] chain' := by
  induction fuel generalizing visited worklist chain with
  | zero =>
    cases worklist with
    | nil =>
      cases hclose
      exact ⟨visited, h⟩
    | cons => cases hclose
  | succ fuel ih =>
    cases worklist with
    | nil =>
      cases hclose
      exact ⟨visited, h⟩
    | cons v worklist =>
      rw [ForOp.close] at hclose
      obtain ⟨s, hfold, hrest⟩ := Option.bind_eq_some_iff.1 hclose
      exact ih (h.pass hfold) hrest

/-- **What is converted has a chain.** -/
theorem isChain_of_canConvert {chain : List Ref}
    (h : f.canConvertIndexIterArg pos memref = some chain) : IsChain f pos memref chain := by
  unfold ForOp.canConvertIndexIterArg at h
  split_ifs at h with houter hused
  obtain ⟨chain', hclose, h⟩ := Option.bind_eq_some_iff.1 h
  split_ifs at h with hyield
  cases h
  have hstart : Closing f pos memref [] [.arg pos] [.arg pos] := by
    refine ⟨List.mem_singleton_self _, List.nil_subset _, fun _ => id, fun r hr => Or.inr hr,
      fun r hr => Or.inl (List.mem_singleton.1 hr), fun v hv => absurd hv List.not_mem_nil,
      fun k lhs rhs _ hboth => absurd hboth.1 List.not_mem_nil⟩
  obtain ⟨visited, hclosing⟩ := hstart.close hclose
  have hvisited : ∀ r ∈ chain, r ∈ visited := fun r hr =>
    (hclosing.mem r hr).resolve_right List.not_mem_nil
  obtain ⟨y, hy, hmem⟩ := hyield
  exact ⟨by simpa using houter, by simpa using hused, hclosing.arg, hclosing.made,
    fun v hv => hclosing.allowed v (hvisited v hv),
    fun k lhs rhs hk hboth => hclosing.one k lhs rhs hk
      ⟨hvisited lhs hboth.1, hvisited rhs hboth.2⟩, y, hy, hmem⟩

/-- The results that may still join the chain. -/
def missing (f : ForOp κ) (chain : List Ref) : ℕ :=
  ((Finset.range f.body.length).filter fun k => Ref.result k 0 ∉ chain).card

theorem missing_cons {k : ℕ} (hk : k < f.body.length) (hmem : Ref.result k 0 ∉ chain) :
    missing f (.result k 0 :: chain) < missing f chain := by
  refine Finset.card_lt_card (Finset.ssubset_iff_subset_ne.2 ⟨fun i hi => ?_, fun heq => ?_⟩)
  · rw [Finset.mem_filter] at hi ⊢
    exact ⟨hi.1, fun h => hi.2 (List.mem_cons_of_mem _ h)⟩
  · have : k ∈ (Finset.range f.body.length).filter fun i =>
        Ref.result i 0 ∉ Ref.result k 0 :: chain := by
      rw [heq, Finset.mem_filter, Finset.mem_range]
      exact ⟨hk, hmem⟩
    exact (Finset.mem_filter.1 this).2 List.mem_cons_self

theorem length_add_missing_le {us : List (ForOp.Use κ)} (hus : us ⊆ f.usesOf v)
    {s s' : List Ref × List Ref} (h : us.foldlM (ForOp.useStep pos memref v) s = some s') :
    s'.1.length + missing f s'.2 ≤ s.1.length + missing f s.2 := by
  induction us generalizing s with
  | nil =>
    cases h
    exact le_rfl
  | cons u us ih =>
    rw [List.foldlM_cons] at h
    obtain ⟨s₁, hstep, hrest⟩ := Option.bind_eq_some_iff.1 h
    refine (ih (fun u hu => hus (List.mem_cons_of_mem _ hu)) hrest).trans ?_
    obtain ⟨-, -, rfl | ⟨k, lhs, rhs, rfl, hmem, rfl⟩⟩ := useStep_spec hstep
    · exact le_rfl
    · have hk := (ForOp.getElem?_of_operand_mem_usesOf (hus List.mem_cons_self)).1
      have := missing_cons (List.getElem?_eq_some_iff.1 hk).1 hmem
      show (Ref.result k 0 :: s.1).length + missing f (Ref.result k 0 :: s.2) ≤ _
      rw [List.length_cons]
      omega

/-- **The passes suffice**: more change nothing, as each takes a value that is never put back. -/
theorem close_eq_of_le {fuel fuel' : ℕ} (h : worklist.length + missing f chain ≤ fuel)
    (hle : fuel ≤ fuel') :
    f.close pos memref fuel' worklist chain = f.close pos memref fuel worklist chain := by
  induction fuel generalizing fuel' worklist chain with
  | zero =>
    cases worklist with
    | nil => rw [ForOp.close, ForOp.close]
    | cons v worklist =>
      rw [List.length_cons] at h
      omega
  | succ fuel ih =>
    cases worklist with
    | nil => rw [ForOp.close, ForOp.close]
    | cons v worklist =>
      obtain ⟨n, rfl⟩ := Nat.exists_eq_add_of_le' (Nat.lt_of_lt_of_le (Nat.succ_pos fuel) hle)
      rw [ForOp.close, ForOp.close]
      refine Option.bind_congr fun s hs => ih ?_ (Nat.le_of_succ_le_succ hle)
      have hs : s.1.length + missing f s.2 ≤ worklist.length + missing f chain :=
        length_add_missing_le (fun _ => id) hs
      rw [List.length_cons] at h
      omega

end Close

/-! ## All conversions -/

theorem IsChain.eq_arg_or {f : ForOp κ} {pos : ℕ} {memref r : Ref} {chain : List Ref}
    (h : IsChain f pos memref chain) (hr : r ∈ chain) :
    r.isOuter = false ∧ r ≠ .iv ∧
      ∀ k i, r = .result k i → i = 0 ∧ ∃ lhs rhs, f.HasAddi k lhs rhs := by
  rcases h.made r hr with rfl | ⟨k, lhs, rhs, rfl, hk, -⟩
  · exact ⟨rfl, nofun, nofun⟩
  · refine ⟨rfl, nofun, fun k' i heq => ?_⟩
    cases heq
    exact ⟨rfl, lhs, rhs, hk⟩

theorem IsChain.induction {f : ForOp κ} {pos : ℕ} {memref r : Ref} {chain : List Ref}
    (h : IsChain f pos memref chain) (P : Ref → Prop) (harg : P (.arg pos))
    (hadd : ∀ k lhs rhs, f.HasAddi k lhs rhs → P lhs ∨ P rhs → P (.result k 0)) (hr : r ∈ chain) :
    P r := by
  have hresult : ∀ n k, k < n → Ref.result k 0 ∈ chain → P (.result k 0) := by
    intro n
    induction n with
    | zero => exact fun k hk => absurd hk (Nat.not_lt_zero k)
    | succ n ih =>
      intro k hk hmem
      have hoperand : ∀ v ∈ chain, v.Before k → P v := by
        intro v hv hbefore
        rcases h.made v hv with rfl | ⟨k', lhs, rhs, rfl, -, -⟩
        · exact harg
        · have : k' < k := hbefore
          exact ih k' (by omega) hv
      rcases h.made _ hmem with heq | ⟨k', lhs, rhs, heq, hk', hop⟩
      · cases heq
      · cases heq
        have hbefore := f.operands_before k _ hk'
        refine hadd k lhs rhs hk' (hop.imp (fun hop => ?_) fun hop => ?_)
        · exact hoperand lhs hop (hbefore lhs List.mem_cons_self)
        · exact hoperand rhs hop (hbefore rhs (List.mem_cons_of_mem _ List.mem_cons_self))
  rcases h.made r hr with rfl | ⟨k, lhs, rhs, rfl, -, -⟩
  · exact harg
  · exact hresult (k + 1) k (Nat.lt_succ_self k) hr

structure Accepted (f : ForOp κ) (cs : List ForOp.Conversion) : Prop where
  owners : ∀ c ∈ cs, f.owners c.pos = [c.memref]
  chain : ∀ c ∈ cs, IsChain f c.pos c.memref c.chain
  disjoint : cs.Pairwise fun c d => ∀ r ∈ c.chain, r ∉ d.chain

theorem accepted_of_conversions {f : ForOp κ} {positions : List ℕ} {converted : List Ref}
    {cs : List ForOp.Conversion} (h : f.conversions positions converted = some cs) :
    Accepted f cs ∧ ∀ c ∈ cs, ∀ r ∈ c.chain, r ∉ converted := by
  induction positions generalizing converted cs with
  | nil =>
    cases h
    exact ⟨⟨fun _ h => absurd h List.not_mem_nil, fun _ h => absurd h List.not_mem_nil, .nil⟩,
      fun _ h => absurd h List.not_mem_nil⟩
  | cons pos positions ih =>
    rw [ForOp.conversions] at h
    cases howners : f.owners pos with
    | nil =>
      rw [howners] at h
      exact ih h
    | cons memref others =>
      rw [howners] at h
      cases others with
      | cons => cases h
      | nil =>
        obtain ⟨chain, hchain, h⟩ := Option.bind_eq_some_iff.1 h
        split_ifs at h with hmeet
        obtain ⟨later, hlater, rfl⟩ := Option.map_eq_some_iff.1 h
        obtain ⟨haccepted, hfresh⟩ := ih hlater
        refine ⟨⟨List.forall_mem_cons.2 ⟨howners, haccepted.owners⟩,
          List.forall_mem_cons.2 ⟨isChain_of_canConvert hchain, haccepted.chain⟩,
          List.pairwise_cons.2 ⟨fun d hd r hr hmem => ?_, haccepted.disjoint⟩⟩,
          List.forall_mem_cons.2 ⟨fun r hr hmem => hmeet ⟨r, hr, hmem⟩, fun d hd r hr hmem => ?_⟩⟩
        · exact hfresh d hd r hmem (List.mem_append_right _ hr)
        · exact hfresh d hd r hr (List.mem_append_left _ hmem)

/-- An index that an access uses is converted, or nothing is. -/
theorem exists_conversion {f : ForOp κ} {positions : List ℕ} {converted : List Ref}
    {cs : List ForOp.Conversion} (h : f.conversions positions converted = some cs) {pos : ℕ}
    (hpos : pos ∈ positions) (howner : f.owners pos ≠ []) : ∃ c ∈ cs, c.pos = pos := by
  induction positions generalizing converted cs with
  | nil => exact absurd hpos List.not_mem_nil
  | cons pos' positions ih =>
    rw [ForOp.conversions] at h
    cases howners : f.owners pos' with
    | nil =>
      rw [howners] at h
      rcases List.mem_cons.1 hpos with rfl | hpos
      · exact absurd howners howner
      · exact ih h hpos
    | cons memref others =>
      rw [howners] at h
      cases others with
      | cons => cases h
      | nil =>
        obtain ⟨chain, -, h⟩ := Option.bind_eq_some_iff.1 h
        split_ifs at h
        obtain ⟨later, hlater, rfl⟩ := Option.map_eq_some_iff.1 h
        rcases List.mem_cons.1 hpos with rfl | hpos
        · exact ⟨_, List.mem_cons_self, rfl⟩
        · obtain ⟨c, hc, heq⟩ := ih hlater hpos
          exact ⟨c, List.mem_cons_of_mem _ hc, heq⟩

/-- The memref that each value of a chain points into. -/
def ownerOf (cs : List ForOp.Conversion) : Pointers := fun r =>
  (cs.find? fun c => r ∈ c.chain).map (·.memref)

section Accepted

variable {f : ForOp κ} {cs : List ForOp.Conversion} (h : Accepted f cs)

include h

theorem Accepted.eq_of_mem {c d : ForOp.Conversion} {r : Ref} (hc : c ∈ cs) (hd : d ∈ cs)
    (hrc : r ∈ c.chain) (hrd : r ∈ d.chain) : c = d := by
  by_contra hne
  have : Std.Symm fun c d : ForOp.Conversion => ∀ r ∈ c.chain, r ∉ d.chain :=
    ⟨fun _ _ h r hd hc => h r hc hd⟩
  exact h.disjoint.forall hc hd hne r hrc hrd

theorem Accepted.ownerOf_eq {c : ForOp.Conversion} {r : Ref} (hc : c ∈ cs) (hr : r ∈ c.chain) :
    ownerOf cs r = some c.memref := by
  have hsome : (cs.find? fun c => r ∈ c.chain).isSome := List.find?_isSome.2 ⟨c, hc, by simpa⟩
  obtain ⟨d, hd⟩ := Option.isSome_iff_exists.1 hsome
  have hmem := List.find?_some hd
  have heq := h.eq_of_mem hc (List.mem_of_find?_eq_some hd) hr (by simpa using hmem)
  rw [ownerOf, hd, heq]
  rfl

theorem Accepted.eq_pos {c : ForOp.Conversion} (hc : c ∈ cs) {j : ℕ} (hj : .arg j ∈ c.chain) :
    j = c.pos := by
  rcases (h.chain c hc).made _ hj with heq | ⟨k, lhs, rhs, heq, -, -⟩
  · cases heq
    rfl
  · cases heq

omit h in
theorem exists_of_ownerOf {r m : Ref} (hr : ownerOf cs r = some m) :
    ∃ c ∈ cs, r ∈ c.chain ∧ c.memref = m := by
  obtain ⟨c, hc, rfl⟩ := Option.map_eq_some_iff.1 hr
  exact ⟨c, List.mem_of_find?_eq_some hc, by simpa using List.find?_some hc, rfl⟩

omit h in
theorem ownerOf_eq_none {r : Ref} : ownerOf cs r = none ↔ ∀ c ∈ cs, r ∉ c.chain := by
  rw [ownerOf, Option.map_eq_none_iff, List.find?_eq_none]
  simp only [decide_eq_true_eq]

end Accepted

/-- The pointers into each memref, and how the body uses them. -/
structure Converts (f : ForOp κ) (owner : Pointers) : Prop where
  outer : ∀ r m, owner r = some m → m.isOuter
  unused : ∀ j m, owner (.arg j) = some m → f.resultUsed j = false
  inside : ∀ r, r.isOuter → owner r = none
  result : ∀ k i m, owner (.result k i) = some m → i = 0 ∧ ∃ lhs rhs, f.HasAddi k lhs rhs
  iv : owner .iv = none
  addi : ∀ k lhs rhs, f.HasAddi k lhs rhs →
    (owner lhs = none ∧ owner rhs = none ∧ owner (.result k 0) = none) ∨
      (∃ m, owner lhs = some m ∧ owner rhs = none ∧ owner (.result k 0) = some m) ∨
        ∃ m, owner lhs = none ∧ owner rhs = some m ∧ owner (.result k 0) = some m
  load : ∀ (k : ℕ) base indices shape, f.body[k]? = some (.load base indices shape) →
    owner base = none ∧
      ((∀ r ∈ indices, owner r = none) ∨ ∃ v, indices = [v] ∧ owner v = some base)
  store : ∀ (k : ℕ) value base indices shape,
    f.body[k]? = some (.store value base indices shape) → owner value = none ∧ owner base = none ∧
      ((∀ r ∈ indices, owner r = none) ∨ ∃ v, indices = [v] ∧ owner v = some base)
  other : ∀ (k : ℕ) kind operands captured accesses,
    f.body[k]? = some (.other kind operands captured accesses) →
      ∀ r ∈ operands, owner r = none
  nested : ∀ (k : ℕ) (op : Op κ), f.body[k]? = some op → ∀ r ∈ op.nested, owner r = none
  yielded : ∀ (j : ℕ) y, f.yields[j]? = some y → owner y = owner (.arg j)
  yields : ∀ j m, owner (.arg j) = some m → ∃ y, f.yields[j]? = some y
  index : ∀ r m, owner r = some m → f.type r = .index
  memref : ∀ r m, owner r = some m → ∃ bytes, f.type m = .memref bytes

section Accepted

variable {f : ForOp κ} {cs : List ForOp.Conversion} (h : Accepted f cs)

include h

theorem Accepted.addi {k : ℕ} {lhs rhs : Ref} (hk : f.HasAddi k lhs rhs) :
    (ownerOf cs lhs = none ∧ ownerOf cs rhs = none ∧ ownerOf cs (.result k 0) = none) ∨
      (∃ m, ownerOf cs lhs = some m ∧ ownerOf cs rhs = none ∧
        ownerOf cs (.result k 0) = some m) ∨
        ∃ m, ownerOf cs lhs = none ∧ ownerOf cs rhs = some m ∧
          ownerOf cs (.result k 0) = some m := by
  -- a chain that has an operand has the result, and then no chain has the other operand
  have hjoin : ∀ c ∈ cs, ∀ v ∈ (Op.addi lhs rhs : Op κ).operands, v ∈ c.chain →
      Ref.result k 0 ∈ c.chain := fun c hc v hv hmem =>
    (h.chain c hc).allowed v hmem _ (ForOp.operand_mem_usesOf hk hv)
  have hone : ∀ c ∈ cs, ∀ d ∈ cs, lhs ∈ c.chain → rhs ∈ d.chain → False := by
    intro c hc d hd hl hr
    have heq := h.eq_of_mem hc hd (hjoin c hc lhs List.mem_cons_self hl)
      (hjoin d hd rhs (List.mem_cons_of_mem _ List.mem_cons_self) hr)
    subst heq
    exact (h.chain c hc).one k lhs rhs hk ⟨hl, hr⟩
  by_cases hlhs : ∃ c ∈ cs, lhs ∈ c.chain
  · obtain ⟨c, hc, hl⟩ := hlhs
    refine Or.inr (Or.inl ⟨c.memref, h.ownerOf_eq hc hl, ?_, h.ownerOf_eq hc ?_⟩)
    · exact ownerOf_eq_none.2 fun d hd hr => hone c hc d hd hl hr
    · exact hjoin c hc lhs List.mem_cons_self hl
  · push Not at hlhs
    by_cases hrhs : ∃ c ∈ cs, rhs ∈ c.chain
    · obtain ⟨c, hc, hr⟩ := hrhs
      refine Or.inr (Or.inr ⟨c.memref, ownerOf_eq_none.2 hlhs, h.ownerOf_eq hc hr,
        h.ownerOf_eq hc ?_⟩)
      exact hjoin c hc rhs (List.mem_cons_of_mem _ List.mem_cons_self) hr
    · push Not at hrhs
      refine Or.inl ⟨ownerOf_eq_none.2 hlhs, ownerOf_eq_none.2 hrhs, ?_⟩
      refine ownerOf_eq_none.2 fun c hc hmem => ?_
      rcases (h.chain c hc).made _ hmem with heq | ⟨k', lhs', rhs', heq, hk', hop⟩
      · cases heq
      · cases heq
        cases hk.symm.trans hk'
        exact hop.elim (hlhs c hc) (hrhs c hc)

/-- A pointer is used by an access as its index only, into its own memref. -/
theorem Accepted.access (op : Op κ) {base : Ref} {indices : List Ref}
    (hindices : ∀ r ∈ base :: indices, r ∈ op.operands)
    (hallowed : ∀ c ∈ cs, ∀ v ∈ op.operands, v ∈ c.chain → base = c.memref ∧ indices = [v]) :
    ownerOf cs base = none ∧
      ((∀ r ∈ indices, ownerOf cs r = none) ∨
        ∃ v, indices = [v] ∧ ownerOf cs v = some base) := by
  constructor
  · refine ownerOf_eq_none.2 fun c hc hmem => ?_
    obtain ⟨hbase, -⟩ := hallowed c hc base (hindices base List.mem_cons_self) hmem
    have houter := (h.chain c hc).outer
    rw [← hbase, ((h.chain c hc).eq_arg_or hmem).1] at houter
    cases houter
  · by_cases hex : ∃ r ∈ indices, ∃ c ∈ cs, r ∈ c.chain
    · obtain ⟨r, hr, c, hc, hmem⟩ := hex
      obtain ⟨hbase, hsole⟩ := hallowed c hc r (hindices r (List.mem_cons_of_mem _ hr)) hmem
      exact Or.inr ⟨r, hsole, by rw [h.ownerOf_eq hc hmem, hbase]⟩
    · push Not at hex
      exact Or.inl fun r hr => ownerOf_eq_none.2 (hex r hr)

omit h in
theorem exists_access_of_owners {pos : ℕ} {m : Ref} (hm : f.owners pos = [m]) :
    ∃ (k : ℕ) (op : Op κ), f.body[k]? = some op ∧ (m, Ref.arg pos) ∈ op.accesses := by
  have hmem : m ∈ f.owners pos := by
    rw [hm]
    exact List.mem_singleton_self m
  obtain ⟨⟨base, j⟩, hacc, hbase⟩ := List.mem_map.1 (List.mem_dedup.1 hmem)
  obtain ⟨hacc, hj⟩ := List.mem_filter.1 hacc
  obtain ⟨⟨base', index⟩, hflat, hsome⟩ := List.mem_filterMap.1 hacc
  obtain ⟨op, hop, hin⟩ := List.mem_flatMap.1 hflat
  obtain ⟨k, hk⟩ := List.mem_iff_getElem?.1 hop
  have hj : j = pos := of_decide_eq_true hj
  have hbase : base = m := hbase
  subst hj hbase
  cases index with
  | arg j' =>
    cases hsome
    exact ⟨k, op, hk, hin⟩
  | _ => cases hsome

/-- The index that starts a chain is the sole index of an access to its memref. -/
theorem Accepted.types {c : ForOp.Conversion} (hc : c ∈ cs) :
    f.type (.arg c.pos) = .index ∧ ∃ bytes, f.type c.memref = .memref bytes := by
  obtain ⟨k, op, hop, hacc⟩ := exists_access_of_owners (h.owners c hc)
  have htyped := f.typed k op hop
  rcases Op.of_mem_accesses hacc with ⟨shape, rfl⟩ | ⟨value, shape, rfl⟩ | hnested
  · exact ⟨htyped.2 _ List.mem_cons_self, htyped.1⟩
  · exact ⟨htyped.2 _ List.mem_cons_self, htyped.1⟩
  · exact ((h.chain c hc).allowed _ (h.chain c hc).arg _
      (ForOp.nested_mem_usesOf hop hnested)).elim

theorem Accepted.index {c : ForOp.Conversion} (hc : c ∈ cs) {r : Ref} (hr : r ∈ c.chain) :
    f.type r = .index := by
  refine (h.chain c hc).induction (f.type · = .index) (h.types hc).1 (fun k lhs rhs hk hop => ?_) hr
  obtain ⟨hl, hr⟩ := f.typed k _ hk
  rcases hop with hop | hop
  · rw [← hl]
    exact hop
  · rw [← hr]
    exact hop

/-- **The accepted conversions** use pointers only as they may be used. -/
theorem Accepted.converts : Converts f (ownerOf cs) where
  outer := fun r m hr => by
    obtain ⟨c, hc, -, rfl⟩ := exists_of_ownerOf hr
    exact (h.chain c hc).outer
  unused := fun j m hj => by
    obtain ⟨c, hc, hmem, -⟩ := exists_of_ownerOf hj
    rw [h.eq_pos hc hmem]
    exact (h.chain c hc).unused
  inside := fun r hr => ownerOf_eq_none.2 fun c hc hmem => by
    rw [((h.chain c hc).eq_arg_or hmem).1] at hr
    cases hr
  result := fun k i m hr => by
    obtain ⟨c, hc, hmem, -⟩ := exists_of_ownerOf hr
    exact ((h.chain c hc).eq_arg_or hmem).2.2 k i rfl
  iv := ownerOf_eq_none.2 fun c hc hmem => ((h.chain c hc).eq_arg_or hmem).2.1 rfl
  addi := fun k lhs rhs hk => h.addi hk
  load := fun k base indices shape hop => h.access (.load base indices shape) (fun _ => id)
    fun c hc v hv hmem => (h.chain c hc).allowed v hmem _ (ForOp.operand_mem_usesOf hop hv)
  store := fun k value base indices shape hop => by
    have hallowed : ∀ c ∈ cs, ∀ v ∈ (Op.store value base indices shape : Op κ).operands,
        v ∈ c.chain → base = c.memref ∧ indices = [v] ∧ value ≠ v := fun c hc v hv hmem =>
      (h.chain c hc).allowed v hmem _ (ForOp.operand_mem_usesOf hop hv)
    refine ⟨ownerOf_eq_none.2 fun c hc hmem => ?_, h.access (.store value base indices shape)
      (fun r hr => List.mem_cons_of_mem _ hr) fun c hc v hv hmem => ?_⟩
    · exact (hallowed c hc value List.mem_cons_self hmem).2.2 rfl
    · obtain ⟨hbase, hsole, -⟩ := hallowed c hc v hv hmem
      exact ⟨hbase, hsole⟩
  other := fun k kind operands captured accesses hop r hr => ownerOf_eq_none.2 fun c hc hmem =>
    ((h.chain c hc).allowed r hmem _ (ForOp.operand_mem_usesOf hop hr)).elim
  nested := fun k op hop r hr => ownerOf_eq_none.2 fun c hc hmem =>
    ((h.chain c hc).allowed r hmem _ (ForOp.nested_mem_usesOf hop hr)).elim
  yielded := fun j y hy => by
    by_cases hex : ∃ c ∈ cs, y ∈ c.chain
    · obtain ⟨c, hc, hmem⟩ := hex
      have hj : j = c.pos := (h.chain c hc).allowed y hmem _ (ForOp.yielded_mem_usesOf hy)
      rw [h.ownerOf_eq hc hmem, hj, h.ownerOf_eq hc (h.chain c hc).arg]
    · push Not at hex
      rw [ownerOf_eq_none.2 hex, eq_comm]
      refine ownerOf_eq_none.2 fun c hc hmem => ?_
      obtain ⟨y', hy', hmem'⟩ := (h.chain c hc).yielded
      rw [← h.eq_pos hc hmem, hy] at hy'
      cases hy'
      exact hex c hc hmem'
  yields := fun j m hj => by
    obtain ⟨c, hc, hmem, -⟩ := exists_of_ownerOf hj
    obtain ⟨y, hy, -⟩ := (h.chain c hc).yielded
    exact ⟨y, h.eq_pos hc hmem ▸ hy⟩
  index := fun r m hr => by
    obtain ⟨c, hc, hmem, -⟩ := exists_of_ownerOf hr
    exact h.index hc hmem
  memref := fun r m hr => by
    obtain ⟨c, hc, -, rfl⟩ := exists_of_ownerOf hr
    exact (h.types hc).2

end Accepted

/-! ## The rewritten body -/

/-- What an operation becomes, by the pointers of the whole body. -/
def convertOp (f : ForOp κ) (owner : Pointers) : Op κ → NewOp κ
  | .load base (idx :: rest) shape =>
    if (owner idx).isSome then .ptrLoad idx base shape else .clone (.load base (idx :: rest) shape)
  | .store value base (idx :: rest) shape =>
    if (owner idx).isSome then .ptrStore value idx base shape
    else .clone (.store value base (idx :: rest) shape)
  | .addi lhs rhs =>
    match owner lhs, owner rhs with
    | none, some memref => .ptrAdd rhs lhs (f.type memref).elementSizeBytes
    | some memref, _ => .ptrAdd lhs rhs (f.type memref).elementSizeBytes
    | none, none => .clone (.addi lhs rhs)
  | op => .clone op

/-- The pointers before operation `k`. -/
def pointersAt (owner : Pointers) (k : ℕ) : Pointers
  | .result k' i => if k' < k then owner (.result k' i) else none
  | r => owner r

section Rewritten

variable {f : ForOp κ} {owner : Pointers}

theorem pointersAt_of_before {k : ℕ} {r : Ref} (h : r.Before k) :
    pointersAt owner k r = owner r := by
  cases r with
  | result k' i => exact if_pos h
  | _ => rfl

theorem pointersAt_succ {k : ℕ} (h : ∀ i, owner (.result k i) = none) :
    pointersAt owner (k + 1) = pointersAt owner k := by
  funext r
  cases r with
  | result k' i =>
    show (if k' < k + 1 then owner (.result k' i) else none) =
      if k' < k then owner (.result k' i) else none
    rcases Nat.lt_trichotomy k' k with hlt | rfl | hgt
    · rw [if_pos hlt, if_pos (by omega)]
    · rw [if_pos (Nat.lt_succ_self _), if_neg (Nat.lt_irrefl _), h]
    · rw [if_neg (by omega), if_neg (by omega)]
  | _ => rfl

theorem pointersAt_update {k : ℕ} {m : Ref} (hm : owner (.result k 0) = some m)
    (h : ∀ {i}, i ≠ 0 → owner (.result k i) = none) :
    pointersAt owner (k + 1) = Function.update (pointersAt owner k) (.result k 0) (some m) := by
  funext r
  by_cases hr : r = .result k 0
  · rw [hr, Function.update_self, ← hm]
    exact if_pos (Nat.lt_succ_self k)
  · rw [Function.update_of_ne hr]
    cases r with
    | result k' i =>
      show (if k' < k + 1 then owner (.result k' i) else none) =
        if k' < k then owner (.result k' i) else none
      rcases Nat.lt_trichotomy k' k with hlt | rfl | hgt
      · rw [if_pos hlt, if_pos (by omega)]
      · rw [if_pos (Nat.lt_succ_self _), if_neg (Nat.lt_irrefl _)]
        exact h fun hi => hr (by rw [hi])
      · rw [if_neg (by omega), if_neg (by omega)]
    | _ => rfl

theorem Converts.result_of_ne (h : Converts f owner) {k : ℕ} {op : Op κ}
    (hop : f.body[k]? = some op) (hne : ∀ lhs rhs, op ≠ .addi lhs rhs) (i : ℕ) :
    owner (.result k i) = none := by
  by_contra hsome
  obtain ⟨m, hm⟩ := Option.ne_none_iff_exists'.1 hsome
  obtain ⟨-, lhs, rhs, hk⟩ := h.result k i m hm
  exact hne lhs rhs (Option.some.inj (hop.symm.trans hk))

theorem Converts.result_ne_zero (h : Converts f owner) {k i : ℕ} (hi : i ≠ 0) :
    owner (.result k i) = none := by
  by_contra hsome
  obtain ⟨m, hm⟩ := Option.ne_none_iff_exists'.1 hsome
  exact hi (h.result k i m hm).1

theorem Converts.result_of_zero (h : Converts f owner) {k : ℕ} (hk : owner (.result k 0) = none)
    (i : ℕ) : owner (.result k i) = none := by
  rcases Nat.eq_zero_or_pos i with rfl | hi
  · exact hk
  · exact h.result_ne_zero (Nat.ne_of_gt hi)

theorem convertOp_of_none {op : Op κ} (h : ∀ r ∈ op.operands, owner r = none) :
    convertOp f owner op = .clone op := by
  cases op with
  | load base indices shape =>
    match indices with
    | [] => rfl
    | v :: rest =>
      rw [convertOp, h v (List.mem_cons_of_mem _ List.mem_cons_self)]
      rfl
  | store value base indices shape =>
    match indices with
    | [] => rfl
    | v :: rest =>
      rw [convertOp, h v (List.mem_cons_of_mem _ (List.mem_cons_of_mem _ List.mem_cons_self))]
      rfl
  | addi lhs rhs =>
    simp only [convertOp, h lhs List.mem_cons_self,
      h rhs (List.mem_cons_of_mem _ List.mem_cons_self)]
  | other => rfl

def IsCopied (f : ForOp κ) (owner : Pointers) (k : ℕ) (op : Op κ) : Prop :=
  convertOp f owner op = .clone op ∧ (∀ r ∈ op.operands, owner r = none) ∧
    ∀ i, owner (.result k i) = none

def IsAccess (f : ForOp κ) (owner : Pointers) (k : ℕ) (op : Op κ) : Prop :=
  ∃ base v shape, owner v = some base ∧ owner base = none ∧ (∀ i, owner (.result k i) = none) ∧
    ((op = .load base [v] shape ∧ convertOp f owner op = .ptrLoad v base shape) ∨
      ∃ value, owner value = none ∧ op = .store value base [v] shape ∧
        convertOp f owner op = .ptrStore value v base shape)

def IsStep (f : ForOp κ) (owner : Pointers) (k : ℕ) (op : Op κ) : Prop :=
  ∃ m v o, owner v = some m ∧ owner o = none ∧ owner (.result k 0) = some m ∧
    (op = .addi v o ∨ op = .addi o v) ∧
      convertOp f owner op = .ptrAdd v o (f.type m).elementSizeBytes

/-- **What an operation becomes**. -/
theorem Converts.convertOp_cases (h : Converts f owner) {k : ℕ} {op : Op κ}
    (hop : f.body[k]? = some op) :
    IsCopied f owner k op ∨ IsAccess f owner k op ∨ IsStep f owner k op := by
  cases op with
  | load base indices shape =>
    have hresult := h.result_of_ne hop nofun
    obtain ⟨hbase, hindices | ⟨v, rfl, hv⟩⟩ := h.load k base indices shape hop
    · have hnone : ∀ r ∈ (Op.load base indices shape : Op κ).operands, owner r = none :=
        List.forall_mem_cons.2 ⟨hbase, hindices⟩
      exact Or.inl ⟨convertOp_of_none hnone, hnone, hresult⟩
    · refine Or.inr (Or.inl ⟨base, v, shape, hv, hbase, hresult, Or.inl ⟨rfl, ?_⟩⟩)
      rw [convertOp, hv]
      rfl
  | store value base indices shape =>
    have hresult := h.result_of_ne hop nofun
    obtain ⟨hvalue, hbase, hindices | ⟨v, rfl, hv⟩⟩ := h.store k value base indices shape hop
    · have hnone : ∀ r ∈ (Op.store value base indices shape : Op κ).operands, owner r = none :=
        List.forall_mem_cons.2 ⟨hvalue, List.forall_mem_cons.2 ⟨hbase, hindices⟩⟩
      exact Or.inl ⟨convertOp_of_none hnone, hnone, hresult⟩
    · refine Or.inr (Or.inl ⟨base, v, shape, hv, hbase, hresult, Or.inr ⟨value, hvalue, rfl, ?_⟩⟩)
      rw [convertOp, hv]
      rfl
  | addi lhs rhs =>
    rcases h.addi k lhs rhs hop with ⟨hl, hr, hres⟩ | ⟨m, hl, hr, hres⟩ | ⟨m, hl, hr, hres⟩
    · have hnone : ∀ r ∈ (Op.addi lhs rhs : Op κ).operands, owner r = none :=
        List.forall_mem_cons.2 ⟨hl, List.forall_mem_singleton.2 hr⟩
      exact Or.inl ⟨convertOp_of_none hnone, hnone, h.result_of_zero hres⟩
    · refine Or.inr (Or.inr ⟨m, lhs, rhs, hl, hr, hres, Or.inl rfl, ?_⟩)
      rw [convertOp, hl, hr]
    · refine Or.inr (Or.inr ⟨m, rhs, lhs, hr, hl, hres, Or.inr rfl, ?_⟩)
      rw [convertOp, hl, hr]
  | other kind operands captured accesses =>
    exact Or.inl ⟨rfl, h.other k kind operands captured accesses hop, h.result_of_ne hop nofun⟩

theorem Converts.lt_length (h : Converts f owner) {j : ℕ} {m : Ref} (hj : owner (.arg j) = some m) :
    j < f.inits.length := by
  obtain ⟨y, hy⟩ := h.yields j m hj
  rw [← f.length_yields]
  exact (List.getElem?_eq_some_iff.1 hy).1

theorem Converts.rewriteOp (h : Converts f owner) {k : ℕ} {op : Op κ} {new : NewOp κ × Pointers}
    (hop : f.body[k]? = some op) (hnew : f.rewriteOp k (pointersAt owner k) op = some new) :
    new = (convertOp f owner op, pointersAt owner (k + 1)) := by
  have hbefore := f.operands_before k op hop
  have hat : ∀ r ∈ op.operands, pointersAt owner k r = owner r := fun r hr =>
    pointersAt_of_before (hbefore r (List.mem_append_left _ hr))
  cases op with
  | load base indices shape =>
    have hnext := pointersAt_succ (h.result_of_ne hop nofun)
    cases indices with
    | nil => cases hnew
    | cons idx rest =>
      have hidx := hat idx (List.mem_cons_of_mem _ List.mem_cons_self)
      cases hnew
      simp only [hidx, hnext, convertOp]
      split_ifs <;> rfl
  | store value base indices shape =>
    have hnext := pointersAt_succ (h.result_of_ne hop nofun)
    cases indices with
    | nil => cases hnew
    | cons idx rest =>
      have hidx := hat idx (List.mem_cons_of_mem _ (List.mem_cons_of_mem _ List.mem_cons_self))
      cases hnew
      simp only [hidx, hnext, convertOp]
      split_ifs <;> rfl
  | addi lhs rhs =>
    have hl := hat lhs List.mem_cons_self
    have hr := hat rhs (List.mem_cons_of_mem _ List.mem_cons_self)
    cases hnew
    rcases h.addi k lhs rhs hop with ⟨hl', hr', hres⟩ | ⟨m, hl', hr', hres⟩ | ⟨m, hl', hr', hres⟩
    · simp only [hl, hr, hl', hr', Option.isSome_none, Bool.false_eq_true, if_false, convertOp,
        pointersAt_succ (h.result_of_zero hres)]
    · simp only [hl, hr, hl', hr', Option.isSome_none, Bool.false_eq_true, if_false, convertOp,
        pointersAt_update hres h.result_ne_zero]
    · simp only [hr, hl', hr', Option.isSome_some, if_true, convertOp,
        pointersAt_update hres h.result_ne_zero]
  | other kind operands captured accesses =>
    cases hnew
    rw [pointersAt_succ (h.result_of_ne hop nofun)]
    rfl

theorem Converts.rewriteOps (h : Converts f owner) {k : ℕ} {ops : List (Op κ)}
    {new : List (NewOp κ) × Pointers} (hops : f.body.drop k = ops)
    (hnew : f.rewriteOps k (pointersAt owner k) ops = some new) :
    new = (ops.map (convertOp f owner), pointersAt owner (k + ops.length)) := by
  induction ops generalizing k new with
  | nil =>
    cases hnew
    rfl
  | cons op ops ih =>
    have hop : f.body[k]? = some op := by
      rw [← List.head?_drop, hops]
      rfl
    have hrest : f.body.drop (k + 1) = ops := by
      rw [← List.tail_drop, hops]
      rfl
    rw [ForOp.rewriteOps] at hnew
    obtain ⟨first, hfirst, hnew⟩ := Option.bind_eq_some_iff.1 hnew
    obtain ⟨later, hlater, rfl⟩ := Option.map_eq_some_iff.1 hnew
    cases h.rewriteOp hop hfirst
    cases ih hrest hlater
    rw [List.map_cons, List.length_cons, Nat.add_right_comm, Nat.add_assoc]

theorem Converts.pointersAt_length (h : Converts f owner) :
    pointersAt owner f.body.length = owner := by
  funext r
  cases r with
  | result k i =>
    show (if k < f.body.length then owner (.result k i) else none) = _
    split_ifs with hk
    · rfl
    · rw [eq_comm]
      by_contra hsome
      obtain ⟨m, hm⟩ := Option.ne_none_iff_exists'.1 hsome
      obtain ⟨-, lhs, rhs, hadd⟩ := h.result k i m hm
      exact hk (List.getElem?_eq_some_iff.1 hadd).1
  | _ => rfl

end Rewritten

theorem Accepted.argPointers_eq {f : ForOp κ} {cs : List ForOp.Conversion} (h : Accepted f cs) :
    ForOp.argPointers cs = pointersAt (ownerOf cs) 0 := by
  funext r
  cases r with
  | arg j =>
    show (cs.find? (·.pos = j)).map (·.memref) = (cs.find? fun c => Ref.arg j ∈ c.chain).map _
    rw [List.find?_congr fun c hc => ?_]
    exact decide_eq_decide.2 ⟨fun hpos => hpos ▸ (h.chain c hc).arg,
      fun hmem => (h.eq_pos hc hmem).symm⟩
  | result k i => rfl
  | outer n => exact (h.converts.inside (.outer n) rfl).symm
  | iv => exact h.converts.iv.symm
  | inner n =>
    refine (ownerOf_eq_none.2 fun c hc hmem => ?_).symm
    rcases (h.chain c hc).made _ hmem with heq | ⟨k, lhs, rhs, heq, -, -⟩ <;> cases heq

/-! ## What is derived from an index -/

inductive ForOp.Derived (f : ForOp κ) : Ref → Prop
  | arg {j : ℕ} : j < f.inits.length → f.owners j ≠ [] → Derived f (.arg j)
  | lhs {k : ℕ} {lhs rhs : Ref} : f.HasAddi k lhs rhs → Derived f lhs → Derived f (.result k 0)
  | rhs {k : ℕ} {lhs rhs : Ref} : f.HasAddi k lhs rhs → Derived f rhs → Derived f (.result k 0)

section Derived

variable {f : ForOp κ} {cs : List ForOp.Conversion}

theorem Accepted.derived_of_mem (h : Accepted f cs) {c : ForOp.Conversion} (hc : c ∈ cs) {r : Ref}
    (hr : r ∈ c.chain) : f.Derived r := by
  have harg : f.Derived (.arg c.pos) := by
    obtain ⟨y, hy, -⟩ := (h.chain c hc).yielded
    refine .arg ?_ ?_
    · rw [← f.length_yields]
      exact (List.getElem?_eq_some_iff.1 hy).1
    · rw [h.owners c hc]
      exact List.cons_ne_nil _ _
  exact (h.chain c hc).induction f.Derived harg
    (fun k lhs rhs hk hop => hop.elim (.lhs hk) (.rhs hk)) hr

/-- **The pointers** are what is derived from an index. -/
theorem isSome_ownerOf_iff (hcs : f.conversions (List.range f.inits.length) [] = some cs)
    (r : Ref) : (ownerOf cs r).isSome ↔ f.Derived r := by
  have h := (accepted_of_conversions hcs).1
  refine ⟨fun hr => ?_, fun hr => ?_⟩
  · obtain ⟨m, hm⟩ := Option.isSome_iff_exists.1 hr
    obtain ⟨c, hc, hmem, -⟩ := exists_of_ownerOf hm
    exact h.derived_of_mem hc hmem
  · induction hr with
    | @arg j hj howner =>
      obtain ⟨c, hc, rfl⟩ := exists_conversion hcs (List.mem_range.2 hj) howner
      rw [h.ownerOf_eq hc (h.chain c hc).arg]
      rfl
    | lhs hk _ ih =>
      obtain ⟨hl, -⟩ | ⟨m, -, -, hm⟩ | ⟨m, -, -, hm⟩ := h.addi hk
      · rw [hl] at ih
        cases ih
      · rw [hm]
        rfl
      · rw [hm]
        rfl
    | rhs hk _ ih =>
      obtain ⟨-, hr, -⟩ | ⟨m, -, -, hm⟩ | ⟨m, -, -, hm⟩ := h.addi hk
      · rw [hr] at ih
        cases ih
      · rw [hm]
        rfl
      · rw [hm]
        rfl

end Derived

/-! ## The new loop -/

/-- **The new loop**: the pointers are used as they may be, and each operation is converted by
them. -/
theorem ForOp.matchAndRewrite_spec {f : ForOp κ} {new : NewFor κ}
    (h : f.matchAndRewrite = some new) :
    Converts f new.pointers ∧ new.body = f.body.map (convertOp f new.pointers) ∧
      new.yields = f.yields ∧ (∀ r, (new.pointers r).isSome ↔ f.Derived r) ∧
        ∃ cs, new.inits = f.inits.zipIdx.map (fun p => f.newInit cs p.1 p.2) ∧
          ∀ j, new.pointers (.arg j) = (cs.find? (·.pos = j)).map (·.memref) := by
  unfold ForOp.matchAndRewrite at h
  split_ifs at h
  obtain ⟨cs, hcs, h⟩ := Option.bind_eq_some_iff.1 h
  split_ifs at h
  obtain ⟨body, hbody, rfl⟩ := Option.map_eq_some_iff.1 h
  have haccepted := (accepted_of_conversions hcs).1
  have hargs := haccepted.argPointers_eq
  rw [hargs] at hbody
  have hbody : body = (f.body.map (convertOp f (ownerOf cs)), ownerOf cs) := by
    rw [haccepted.converts.rewriteOps List.drop_zero hbody, Nat.zero_add,
      haccepted.converts.pointersAt_length]
  subst hbody
  exact ⟨haccepted.converts, rfl, rfl, isSome_ownerOf_iff hcs, cs, rfl,
    fun j => (congrFun hargs (.arg j)).symm⟩

end MlirAie.Pointer
