import MlirAie.Bd.Driver
import MlirAie.Lib.Lists

/-!
# When the driver gets the declared pattern

* `DmaBd.Verified`: what an accepted descriptor satisfies;
* `place_ne_of_cut`: a cut element does not;
* `DmaBd.Expressible`, **`configureDims_preserves_iff`**: when the walk is preserved.
-/

namespace MlirAie.BdWalk

open MlirAie.Lib

/-! ## Accepted descriptors -/

/-- Sizes and strides. -/
def pairs (dims : List BDDimLayout) : List (ℕ × ℕ) := dims.map fun d => (d.size, d.stride)

structure DmaBd.Verified (bd : DmaBd) : Prop where
  words : bd.len * bd.elementBytes % 4 = 0
  steps : ∀ d ∈ bd.dims, d.stride = 0 → d.size = 1
  size_lt : ∀ d ∈ bd.dims, d.size < 2 ^ 16
  innermost : bd.dims ≠ [] → bd.elementBytes ≠ 4 → DmaBd.innermostStride bd.dims = 1
  aligned : bd.dims ≠ [] → bd.elementBytes % 4 ≠ 0 → ∀ d ∈ bd.dims.zipIdx, 1 < d.1.size →
    if DmaBd.effectiveInnermost bd.dims = some d.2 then d.1.size * bd.elementBytes % 4 = 0
    else d.1.stride * bd.elementBytes % 4 = 0

theorem require_ok {c : Bool} {m : String} (h : DmaBd.require c m = .ok ()) : c = true := by
  unfold DmaBd.require at h
  cases c with
  | true => rfl
  | false => cases h

theorem verify_ok {tileType : ℤ → ℤ → AIETileType} {bursts : List (ℕ × ℕ)} {tile : AIETileType}
    (htile : tile = .CoreTile ∨ tile = .MemTile) {bd : DmaBd}
    (h : bd.verify (AIE2TargetModel tileType bursts) tile = .ok ()) : bd.Verified := by
  unfold DmaBd.verify at h
  obtain ⟨⟨⟩, hlen, h⟩ := bind_eq_ok.1 h
  obtain ⟨⟨⟩, -, h⟩ := bind_eq_ok.1 h
  have hwords := of_decide_eq_true (require_ok hlen)
  by_cases hnil : bd.dims = []
  · refine ⟨hwords, ?_, ?_, fun hne => absurd hnil hne, fun hne => absurd hnil hne⟩
    · rw [hnil]
      exact List.forall_mem_nil _
    · rw [hnil]
      exact List.forall_mem_nil _
  · rw [if_neg (by simpa using hnil)] at h
    obtain ⟨⟨⟩, -, h⟩ := bind_eq_ok.1 h
    unfold DmaBd.verifyDims at h
    obtain ⟨⟨⟩, -, h⟩ := bind_eq_ok.1 h
    obtain ⟨⟨⟩, hdims, h⟩ := bind_eq_ok.1 h
    obtain ⟨⟨⟩, hnarrow, h⟩ := bind_eq_ok.1 h
    obtain ⟨⟨⟩, hwide, h⟩ := bind_eq_ok.1 h
    have hdim := forM_eq_ok.1 hdims
    refine ⟨hwords, fun d hd hzero => ?_, fun d hd => ?_, fun _ hne => ?_,
      fun _ hcut d hd hsize => ?_⟩
    · obtain ⟨⟨⟩, hstep, -⟩ := bind_eq_ok.1 (hdim d hd)
      have := require_ok hstep
      simpa [hzero] using this
    · obtain ⟨⟨⟩, -, hrest⟩ := bind_eq_ok.1 (hdim d hd)
      obtain ⟨⟨⟩, -, hrest⟩ := bind_eq_ok.1 hrest
      obtain ⟨⟨⟩, hmax, -⟩ := bind_eq_ok.1 hrest
      have hle := require_ok hmax
      rw [Bool.or_eq_true] at hle
      rcases htile with rfl | rfl
      · have hbound : d.size ≤ 2 ^ 8 - 1 := of_decide_eq_true (hle.resolve_left (by simp))
        omega
      · have hbound : d.size ≤ 2 ^ 10 - 1 := of_decide_eq_true (hle.resolve_left (by simp))
        omega
    · have h1 := require_ok hnarrow
      have h2 := require_ok hwide
      by_contra hstride
      rcases Nat.lt_or_gt_of_ne hne with hlt | hgt
      · simp [hlt, hstride] at h1
      · simp [hgt, hstride] at h2
    · rw [if_pos hcut] at h
      have hword := forM_eq_ok.1 h d hd
      unfold DmaBd.verifyWords at hword
      rw [if_neg (by omega)] at hword
      split_ifs at hword ⊢ with hinner
      · exact of_decide_eq_true (require_ok hword)
      · exact of_decide_eq_true (require_ok hword)

theorem effectiveInnermost_concat {front : List BDDimLayout} {last : BDDimLayout}
    (h : 1 < last.size) : DmaBd.effectiveInnermost (front ++ [last]) = some front.length := by
  unfold DmaBd.effectiveInnermost
  rw [List.zipIdx_append, List.foldl_append]
  simp [h]

/-! ## The dimensions in words -/

/-- The sizes and strides that the hardware gets, outermost first. -/
def scaled (w : ℕ) : List BDDimLayout → List (ℕ × ℕ)
  | [] => []
  | [d] => [(d.size * w / 4, max d.stride 1)]
  | d :: e :: dims => (d.size % 2 ^ 16, max (d.stride * w / 4) 1) :: scaled w (e :: dims)

def CastsFit (w : ℕ) : List BDDimLayout → Prop
  | [] => True
  | [d] => d.size * w / 4 < 2 ^ 16
  | d :: e :: dims => d.stride * w / 4 < 2 ^ 32 ∧ CastsFit w (e :: dims)

theorem castQuarters_of_lt {bits v : ℕ} (h : v / 4 < 2 ^ bits) :
    castQuarters bits v = some (v / 4) := if_pos h

theorem castQuarters_of_not_lt {bits v : ℕ} (h : ¬ v / 4 < 2 ^ bits) :
    castQuarters bits v = none := if_neg h

theorem atLeastOne (s : ℕ) : (if 0 < s then s else 1) = max s 1 := by
  split <;> omega

theorem dimDescs_eq {w : ℕ} {dims : List BDDimLayout} (h : CastsFit w dims) :
    ∃ descs, dimDescs w dims = some descs ∧
      descs.reverse.map (fun d => (d.wrap, d.stepSize)) = scaled w dims := by
  induction dims with
  | nil => exact ⟨[], rfl, rfl⟩
  | cons d dims ih =>
    cases dims with
    | nil =>
      refine ⟨[⟨max d.stride 1, d.size * w / 4⟩], ?_, rfl⟩
      simp only [CastsFit] at h
      simp [dimDescs, dimDesc, castQuarters_of_lt h, atLeastOne]
    | cons e dims =>
      obtain ⟨hstride, hrest⟩ := h
      obtain ⟨descs, hdescs, heq⟩ := ih hrest
      refine ⟨descs ++ [⟨max (d.stride * w / 4) 1, d.size % 2 ^ 16⟩], ?_, ?_⟩
      · rw [dimDescs, hdescs]
        simp [dimDesc, castQuarters_of_lt hstride, atLeastOne]
      · rw [List.reverse_append, scaled, ← heq]
        rfl

theorem castsFit_of_dimDescs {w : ℕ} {dims : List BDDimLayout} {descs : List AieMlDimDesc}
    (h : dimDescs w dims = some descs) : CastsFit w dims := by
  induction dims generalizing descs with
  | nil => trivial
  | cons d dims ih =>
    rw [dimDescs] at h
    obtain ⟨desc, hdesc, h⟩ := Option.bind_eq_some_iff.1 h
    obtain ⟨descs', hdescs, -⟩ := Option.bind_eq_some_iff.1 h
    unfold dimDesc at hdesc
    cases dims with
    | nil =>
      change d.size * w / 4 < 2 ^ 16
      by_contra hfit
      simp [castQuarters_of_not_lt hfit] at hdesc
    | cons e dims =>
      refine ⟨?_, ih hdescs⟩
      by_contra hfit
      simp [castQuarters_of_not_lt hfit] at hdesc

theorem stepAddress_append (inner : ℕ) (descs : List AieMlDimDesc) (d : AieMlDimDesc) (k : ℕ) :
    stepAddress inner (descs ++ [d]) k = stepAddress inner descs k +
      k / (inner * (descs.map (·.wrap)).prod) % d.wrap * d.stepSize := by
  induction descs generalizing inner with
  | nil => simp [stepAddress]
  | cons c descs ih =>
    rw [List.cons_append, stepAddress, stepAddress, ih, List.map_cons, List.prod_cons, mul_assoc,
      add_assoc]

theorem stepAddress_eq (descs : List AieMlDimDesc) (k : ℕ) :
    stepAddress 1 descs k = odometer (descs.reverse.map fun d => (d.wrap, d.stepSize)) k := by
  induction descs using List.reverseRecOn with
  | nil => rfl
  | append_singleton descs d ih =>
    rw [stepAddress_append, ih, List.reverse_append, List.reverse_singleton, List.singleton_append,
      List.map_cons, odometer, one_mul, add_comm]
    congr 4
    rw [span, List.map_map, List.map_reverse, List.prod_reverse]
    rfl

/-! ## Bytes in their places -/

/-- The byte of the pattern that is visited as the one numbered `p`. -/
def place (w : ℕ) (dims : List (ℕ × ℕ)) (p : ℕ) : ℕ := odometer dims (p / w) * w + p % w

def WholeWords (w : ℕ) : List BDDimLayout → Prop
  | [] => True
  | [d] => 4 ∣ d.size * w
  | _ :: e :: dims => WholeWords w (e :: dims)

/-- The strides that are stepped, but for the last, are whole words. -/
def WholeStrides (w : ℕ) : List BDDimLayout → Prop
  | [] => True
  | [_] => True
  | d :: e :: dims => (1 < d.size → 4 ∣ d.stride * w) ∧ WholeStrides w (e :: dims)

theorem span_scaled {w : ℕ} {dims : List BDDimLayout} (hne : dims ≠ [])
    (hsize : ∀ d ∈ dims, d.size < 2 ^ 16) (hwhole : WholeWords w dims) :
    4 * span (scaled w dims) = span (pairs dims) * w := by
  induction dims with
  | nil => exact absurd rfl hne
  | cons d dims ih =>
    cases dims with
    | nil =>
      rw [scaled, pairs, List.map_cons, List.map_nil, span_cons, span_cons]
      simp only [span, List.map_nil, List.prod_nil, mul_one]
      exact Nat.mul_div_cancel' hwhole
    | cons e dims =>
      have hrest := ih (List.cons_ne_nil _ _)
        (fun c hc => hsize c (List.mem_cons_of_mem _ hc)) hwhole
      rw [scaled, span_cons, Nat.mod_eq_of_lt (hsize d List.mem_cons_self)]
      change _ = span ((d.size, d.stride) :: pairs (e :: dims)) * w
      rw [span_cons, mul_left_comm, hrest, mul_assoc]

/-- **Whole words keep every byte in its place.** -/
theorem place_eq_of_whole {w : ℕ} (hw : 0 < w) {dims : List BDDimLayout} (hne : dims ≠ [])
    (hpos : ∀ d ∈ dims, 0 < d.size) (hsize : ∀ d ∈ dims, d.size < 2 ^ 16)
    (hsteps : ∀ d ∈ dims, d.stride = 0 → d.size = 1) (hwhole : WholeWords w dims)
    (hstrides : WholeStrides w dims) (hinner : w ≠ 4 → DmaBd.innermostStride dims = 1) (p : ℕ) :
    place 4 (scaled w dims) p = place w (pairs dims) p := by
  unfold place
  induction dims with
  | nil => exact absurd rfl hne
  | cons d dims ih =>
    cases dims with
    | nil =>
      rw [scaled, pairs, List.map_cons, List.map_nil, odometer, odometer, odometer, odometer]
      simp only [span, List.map_nil, List.prod_nil, Nat.div_one, add_zero]
      have hwords : d.size * w / 4 * 4 = d.size * w := Nat.div_mul_cancel hwhole
      by_cases hfour : w = 4
      · subst hfour
        rw [Nat.mul_div_cancel _ (by decide : 0 < 4)]
        rcases Nat.eq_zero_or_pos d.stride with hzero | hstride
        · rw [hsteps d List.mem_cons_self hzero, Nat.mod_one]
          simp only [zero_mul]
        · rw [Nat.max_eq_left hstride]
      · have hone : d.stride = 1 := hinner hfour
        have hsplit : ∀ m n : ℕ, p / m % n * m + p % m = p % (m * n) := fun m n => by
          rw [Nat.mod_mul, mul_comm, add_comm]
        rw [hone, max_self, mul_one, mul_one, hsplit, hsplit, mul_comm 4, hwords, mul_comm w]
    | cons e dims =>
      have hrest := ih (List.cons_ne_nil _ _) (fun c hc => hpos c (List.mem_cons_of_mem _ hc))
        (fun c hc => hsize c (List.mem_cons_of_mem _ hc))
        (fun c hc => hsteps c (List.mem_cons_of_mem _ hc)) hwhole hstrides.2 hinner
      have hspan := span_scaled (List.cons_ne_nil e dims)
        (fun c hc => hsize c (List.mem_cons_of_mem _ hc)) hwhole
      have hindex : p / 4 / span (scaled w (e :: dims)) = p / w / span (pairs (e :: dims)) := by
        rw [Nat.div_div_eq_div_mul, Nat.div_div_eq_div_mul, hspan, mul_comm]
      rw [scaled, odometer, Nat.mod_eq_of_lt (hsize d List.mem_cons_self), hindex, add_mul,
        add_assoc, hrest]
      change _ = odometer ((d.size, d.stride) :: pairs (e :: dims)) (p / w) * w + p % w
      rw [odometer, add_mul, add_assoc]
      congr 1
      rcases Nat.lt_or_ge 1 d.size with hmany | hfew
      · have hstride := Nat.div_mul_cancel (hstrides.1 hmany)
        have hstep : 0 < d.stride := Nat.pos_of_ne_zero fun hzero => by
          have := hsteps d List.mem_cons_self hzero
          omega
        have hprod : 0 < d.stride * w := Nat.mul_pos hstep hw
        have hmax : max (d.stride * w / 4) 1 = d.stride * w / 4 := by omega
        rw [hmax, mul_assoc, hstride, mul_assoc]
      · have hone : d.size = 1 := by
          have := hpos d List.mem_cons_self
          omega
        rw [hone, Nat.mod_one, zero_mul, zero_mul, zero_mul, zero_mul]

/-! ## Cut elements -/

theorem last_of_cut {w : ℕ} {dims : List BDDimLayout} (hne : dims ≠ [])
    (hwhole : ¬ WholeWords w dims) :
    ∃ front last, dims = front ++ [last] ∧ ¬ 4 ∣ last.size * w := by
  induction dims with
  | nil => exact absurd rfl hne
  | cons d dims ih =>
    cases dims with
    | nil => exact ⟨[], d, rfl, hwhole⟩
    | cons e dims =>
      obtain ⟨front, last, heq, hcut⟩ := ih (List.cons_ne_nil _ _) hwhole
      exact ⟨d :: front, last, by rw [heq, List.cons_append], hcut⟩

theorem wholeWords_concat {w : ℕ} (front : List BDDimLayout) (last : BDDimLayout) :
    WholeWords w (front ++ [last]) ↔ 4 ∣ last.size * w := by
  induction front with
  | nil => rfl
  | cons d front ih =>
    rw [← ih]
    cases front with
    | nil => rfl
    | cons e front => rfl

theorem wholeStrides_concat {w : ℕ} {front : List BDDimLayout} {last : BDDimLayout}
    (h : ∀ d ∈ front, 1 < d.size → 4 ∣ d.stride * w) : WholeStrides w (front ++ [last]) := by
  induction front with
  | nil => trivial
  | cons d front ih =>
    have hrest := ih fun c hc => h c (List.mem_cons_of_mem _ hc)
    cases front with
    | nil => exact ⟨h d List.mem_cons_self, hrest⟩
    | cons e front => exact ⟨h d List.mem_cons_self, hrest⟩

theorem DmaBd.Verified.wholeStrides {bd : DmaBd} (h : bd.Verified) (hne : bd.dims ≠ [])
    (hpos : ∀ d ∈ bd.dims, 0 < d.size) (hwhole : WholeWords bd.elementBytes bd.dims) :
    WholeStrides bd.elementBytes bd.dims := by
  obtain ⟨front, last, hdims⟩ : ∃ front last, bd.dims = front ++ [last] :=
    ⟨_, _, (List.dropLast_concat_getLast hne).symm⟩
  have haligned := h.aligned hne
  rw [hdims] at hwhole hpos haligned ⊢
  refine wholeStrides_concat fun d hd hsize => ?_
  by_cases hwords : bd.elementBytes % 4 = 0
  · exact (Nat.dvd_of_mod_eq_zero hwords).mul_left _
  · rw [wholeWords_concat] at hwhole
    have hlast : 1 < last.size := by
      have hposLast := hpos last (by simp)
      by_contra hfew
      have hone : last.size = 1 := by omega
      rw [hone, one_mul] at hwhole
      exact hwords (Nat.mod_eq_zero_of_dvd hwhole)
    obtain ⟨i, hi, hget⟩ := List.getElem_of_mem hd
    have hmem : (d, i) ∈ (front ++ [last]).zipIdx := by
      rw [List.mem_zipIdx_iff_getElem?, List.getElem?_append_left hi, List.getElem?_eq_getElem hi,
        hget]
    have hchecked := haligned hwords (d, i) hmem hsize
    rw [effectiveInnermost_concat hlast, if_neg] at hchecked
    · exact Nat.dvd_of_mod_eq_zero hchecked
    · intro heq
      rw [Option.some_inj] at heq
      change front.length = i at heq
      omega

theorem DmaBd.Verified.last_eq_one {bd : DmaBd} (h : bd.Verified) (hne : bd.dims ≠ [])
    (hpos : ∀ d ∈ bd.dims, 0 < d.size) {front : List BDDimLayout} {last : BDDimLayout}
    (hdims : bd.dims = front ++ [last]) (hcut : ¬ 4 ∣ last.size * bd.elementBytes) :
    last.size = 1 := by
  have hwords : bd.elementBytes % 4 ≠ 0 := fun hzero =>
    hcut ((Nat.dvd_of_mod_eq_zero hzero).mul_left _)
  have haligned := h.aligned hne hwords
  rw [hdims] at hpos haligned
  have hposLast := hpos last (by simp)
  by_contra hmany
  have hlast : 1 < last.size := by omega
  have hmem : (last, front.length) ∈ (front ++ [last]).zipIdx := by
    rw [List.mem_zipIdx_iff_getElem?, List.getElem?_append_right le_rfl]
    simp
  have hchecked := haligned _ hmem hlast
  rw [if_pos (effectiveInnermost_concat hlast)] at hchecked
  exact hcut (Nat.dvd_of_mod_eq_zero hchecked)

theorem odometer_scaled_of_zero {w : ℕ} (front : List BDDimLayout) {last : BDDimLayout}
    (hzero : last.size * w / 4 = 0) (hstride : last.stride = 1) (k : ℕ) :
    span (scaled w (front ++ [last])) = 0 ∧ odometer (scaled w (front ++ [last])) k = k := by
  induction front with
  | nil =>
    rw [List.nil_append, scaled, hzero, hstride, span_cons, odometer, odometer]
    simp [span]
  | cons d front ih =>
    have hcons : ∃ n t, scaled w (d :: front ++ [last]) = (n, t) :: scaled w (front ++ [last]) := by
      cases front with
      | nil => exact ⟨_, _, rfl⟩
      | cons e front => exact ⟨_, _, rfl⟩
    obtain ⟨n, t, heq⟩ := hcons
    rw [heq, span_cons, odometer, ih.1, ih.2, mul_zero, Nat.div_zero, Nat.zero_mod, zero_mul,
      zero_add]
    exact ⟨rfl, rfl⟩

theorem span_scaled_of_one {w : ℕ} {front : List BDDimLayout} {last : BDDimLayout}
    (hsize : ∀ d ∈ front, d.size < 2 ^ 16) (hone : last.size = 1) :
    span (scaled w (front ++ [last])) = span (pairs (front ++ [last])) * (w / 4) := by
  induction front with
  | nil =>
    rw [List.nil_append, scaled, pairs, List.map_cons, List.map_nil, span_cons, span_cons, hone]
    simp [span]
  | cons d front ih =>
    have hrest := ih fun c hc => hsize c (List.mem_cons_of_mem _ hc)
    have hcons : ∃ t, scaled w (d :: front ++ [last]) =
        (d.size % 2 ^ 16, t) :: scaled w (front ++ [last]) := by
      cases front with
      | nil => exact ⟨_, rfl⟩
      | cons e front => exact ⟨_, rfl⟩
    obtain ⟨t, heq⟩ := hcons
    rw [heq, span_cons, hrest, Nat.mod_eq_of_lt (hsize d List.mem_cons_self)]
    change _ = span ((d.size, d.stride) :: pairs (front ++ [last])) * (w / 4)
    rw [span_cons, mul_assoc]

theorem eq_zero_of_odometer {dims : List BDDimLayout}
    (hsteps : ∀ d ∈ dims, d.stride = 0 → d.size = 1) {m : ℕ} (hm : m < span (pairs dims))
    (hzero : odometer (pairs dims) m = 0) : m = 0 := by
  induction dims generalizing m with
  | nil =>
    simp only [pairs, List.map_nil, span, List.prod_nil] at hm
    omega
  | cons d dims ih =>
    change m < span ((d.size, d.stride) :: pairs dims) at hm
    change odometer ((d.size, d.stride) :: pairs dims) m = 0 at hzero
    rw [span_cons] at hm
    rw [odometer, Nat.add_eq_zero_iff] at hzero
    have hpos : 0 < span (pairs dims) := Nat.pos_of_ne_zero fun h => by simp [h] at hm
    have hindex : m / span (pairs dims) < d.size := Nat.div_lt_of_lt_mul (by rwa [mul_comm])
    have hinner : m % span (pairs dims) = 0 := by
      refine ih (fun c hc => hsteps c (List.mem_cons_of_mem _ hc)) (Nat.mod_lt _ hpos) ?_
      rw [← hzero.2]
      conv_rhs => rw [← Nat.mod_add_div m (span (pairs dims))]
      exact (odometer_add_mul (Nat.dvd_mul_right _ _)).symm
    have houter : m / span (pairs dims) = 0 := by
      rw [Nat.mod_eq_of_lt hindex] at hzero
      rcases Nat.mul_eq_zero.1 hzero.1 with hq | hstride
      · exact hq
      · rw [hsteps d List.mem_cons_self hstride] at hindex
        exact Nat.lt_one_iff.1 hindex
    rw [← Nat.mod_add_div m (span (pairs dims)), hinner, houter, mul_zero, add_zero]

/-- **A cut element longer than a word** has a byte out of its place. -/
theorem place_ne_of_cut {w : ℕ} (hw : 4 < w) (hcut : w % 4 ≠ 0) {front : List BDDimLayout}
    {last : BDDimLayout} (hsize : ∀ d ∈ front, d.size < 2 ^ 16) (hone : last.size = 1)
    (hsteps : ∀ d ∈ front ++ [last], d.stride = 0 → d.size = 1)
    (hpos : 0 < span (pairs (front ++ [last]))) :
    ∃ p < span (pairs (front ++ [last])) * w,
      place 4 (scaled w (front ++ [last])) p ≠ place w (pairs (front ++ [last])) p := by
  have hspan := span_scaled_of_one (w := w) hsize hone
  generalize hN : span (pairs (front ++ [last])) = N at *
  have hq : 0 < w / 4 := by omega
  have hlt : 4 * (N * (w / 4)) < N * w := by
    have hcutlt : 4 * (w / 4) < w := by omega
    calc 4 * (N * (w / 4)) = N * (4 * (w / 4)) := by ring
      _ < N * w := Nat.mul_lt_mul_of_pos_left hcutlt hpos
  refine ⟨4 * (N * (w / 4)), hlt, fun heq => ?_⟩
  -- the hardware is back at its start
  have hback : place 4 (scaled w (front ++ [last])) (4 * (N * (w / 4))) = 0 := by
    unfold place
    rw [Nat.mul_div_cancel_left _ (by decide : 0 < 4), Nat.mul_mod_right, add_zero]
    have hturn := odometer_add_mul (k := 0) (dvd_refl (span (scaled w (front ++ [last]))))
    have hstart : odometer (scaled w (front ++ [last])) 0 = 0 := by
      generalize scaled w (front ++ [last]) = l
      induction l with
      | nil => rfl
      | cons d l ih => rw [odometer, ih, Nat.zero_div, Nat.zero_mod, zero_mul]
    rw [zero_add, hspan, hstart] at hturn
    rw [hturn, zero_mul]
  rw [hback] at heq
  unfold place at heq
  obtain ⟨hodo, hmod⟩ := Nat.add_eq_zero_iff.1 heq.symm
  have hfirst := eq_zero_of_odometer hsteps (m := 4 * (N * (w / 4)) / w)
    (by rw [hN]; exact Nat.div_lt_of_lt_mul (by rwa [mul_comm w]))
    ((Nat.mul_eq_zero.1 hodo).resolve_right (by omega))
  have hzero : 4 * (N * (w / 4)) = 0 := by
    rw [← Nat.mod_add_div (4 * (N * (w / 4))) w, hmod, hfirst, mul_zero, add_zero]
  have : 0 < N * (w / 4) := Nat.mul_pos hpos hq
  omega

/-! ## The walks -/

theorem dense_iff_rowMajor {dims : List BDDimLayout} (h : DmaBd.innermostStride dims = 1) :
    Lib.Dense (pairs dims) ↔ DmaBd.isContiguousBDTransfer dims = true := by
  unfold DmaBd.isContiguousBDTransfer
  induction dims with
  | nil => exact iff_of_true trivial rfl
  | cons d dims ih =>
    cases dims with
    | nil =>
      have hone : d.stride = 1 := h
      simp [pairs, Lib.Dense, DmaBd.rowMajorStrides, span, hone]
    | cons e dims =>
      rw [DmaBd.rowMajorStrides, Bool.and_eq_true, ← ih h, Bool.or_eq_true, decide_eq_true_eq,
        decide_eq_true_eq]
      have hspan : span (pairs (e :: dims)) = ((e :: dims).map (·.size)).prod := by
        rw [span, pairs, List.map_map]
        rfl
      change (1 < d.size → d.stride = span (pairs (e :: dims))) ∧ Lib.Dense (pairs (e :: dims)) ↔ _
      rw [hspan, ← not_lt, ← imp_iff_not_or]

theorem flatMap_bytes {w : ℕ} (start : ℤ) (dims : List (ℕ × ℕ)) :
    ((offsets (dims.map Prod.fst) (dims.map fun d => (d.2 : ℤ))).flatMap fun a =>
      (List.range w).map fun b : ℕ => start + a * w + b) =
      (List.range (span dims * w)).map fun p => start + (place w dims p : ℕ) := by
  rw [offsets_eq_odometer, range_mul, List.flatMap_map, List.map_flatMap]
  refine List.flatMap_congr fun i _ => ?_
  rw [List.map_map]
  refine List.map_congr_left fun b hb => ?_
  have hb' := List.mem_range.1 hb
  rw [Function.comp_apply, place, mul_comm i, Nat.mul_add_div (by omega), Nat.div_eq_of_lt hb',
    Nat.mul_add_mod, Nat.mod_eq_of_lt hb', add_zero]
  push_cast
  ring

def DmaBd.start (bd : DmaBd) : ℕ := bd.baseAddr + bd.offset * bd.elementBytes

theorem DmaBd.bytes_eq (bd : DmaBd) (hne : bd.dims ≠ []) :
    bd.bytes = (List.range (span (pairs bd.dims) * bd.elementBytes)).map
      fun p => ((bd.start + place bd.elementBytes (pairs bd.dims) p : ℕ) : ℤ) := by
  have hmap : bd.elements = offsets ((pairs bd.dims).map Prod.fst)
      ((pairs bd.dims).map fun d => (d.2 : ℤ)) := by
    unfold DmaBd.elements pairs
    rw [if_neg (by simpa using hne), List.map_map, List.map_map]
    rfl
  unfold DmaBd.bytes
  rw [hmap]
  have h := @flatMap_bytes bd.elementBytes bd.start (pairs bd.dims)
  simp only [Nat.cast_add]
  rw [← h]
  refine List.flatMap_congr fun a _ => List.map_congr_left fun b _ => ?_
  unfold DmaBd.start
  push_cast
  ring

theorem DmaBd.bytes_linear (bd : DmaBd) (hnil : bd.dims = []) :
    bd.bytes = (List.range bd.getLenInBytes).map fun p : ℕ => ((bd.start + p : ℕ) : ℤ) := by
  have hmap : bd.elements = offsets ([(bd.len, 1)].map Prod.fst)
      ([(bd.len, 1)].map fun d : ℕ × ℕ => (d.2 : ℤ)) := by
    unfold DmaBd.elements
    rw [hnil]
    simp [offsets, run]
  unfold DmaBd.bytes
  rw [hmap]
  have h := @flatMap_bytes bd.elementBytes bd.start [(bd.len, 1)]
  have hspan : span [(bd.len, 1)] = bd.len := by simp [span]
  rw [hspan] at h
  have hplace : ∀ p ∈ List.range bd.getLenInBytes, place bd.elementBytes [(bd.len, 1)] p = p := by
    intro p hp
    have hlt : p / bd.elementBytes < bd.len :=
      Nat.div_lt_of_lt_mul (by rw [mul_comm]; exact List.mem_range.1 hp)
    rw [place, odometer, odometer, mul_one, add_zero, span, List.map_nil, List.prod_nil,
      Nat.div_one, Nat.mod_eq_of_lt hlt, mul_comm, Nat.div_add_mod]
  rw [DmaBd.getLenInBytes] at *
  calc _ = (List.range (bd.len * bd.elementBytes)).map fun p =>
        (bd.start : ℤ) + (place bd.elementBytes [(bd.len, 1)] p : ℕ) := by
        rw [← h]
        refine List.flatMap_congr fun a _ => List.map_congr_left fun b _ => ?_
        unfold DmaBd.start
        push_cast
        ring
    _ = _ := by
        refine List.map_congr_left fun p hp => ?_
        rw [hplace p hp]
        push_cast
        rfl

theorem DriverCall.bytes_eq {w : ℕ} {dims : List BDDimLayout} {descs : List AieMlDimDesc}
    (hdescs : descs.reverse.map (fun d => (d.wrap, d.stepSize)) = scaled w dims) (addr len : ℕ) :
    (DriverCall.setMultiDimAddr descs addr len).bytes =
      (List.range len).map fun p => ((addr + place 4 (scaled w dims) p : ℕ) : ℤ) := by
  unfold DriverCall.bytes place
  refine List.map_congr_left fun p _ => ?_
  rw [stepAddress_eq, hdescs, mul_comm 4]

theorem map_range_iff (start n : ℕ) (f g : ℕ → ℕ) :
    ((List.range n).map fun p => ((start + f p : ℕ) : ℤ)) =
      ((List.range n).map fun p => ((start + g p : ℕ) : ℤ)) ↔ ∀ p < n, f p = g p := by
  rw [List.map_inj_left]
  refine forall_congr' fun p => ?_
  rw [List.mem_range, Nat.cast_inj, Nat.add_left_cancel_iff]

theorem place_eq_self_iff {w : ℕ} (hw : 0 < w) {dims : List (ℕ × ℕ)} (hpos : 0 < span dims) :
    (∀ p < span dims * w, p = place w dims p) ↔ Lib.Dense dims := by
  constructor
  · refine fun h => @dense_of_odometer [] dims hpos.ne' fun k hk => ?_
    have hplace := h (k * w) (Nat.mul_lt_mul_of_pos_right hk hw)
    rw [place, Nat.mul_div_cancel _ hw, Nat.mul_mod_left, add_zero] at hplace
    exact (Nat.eq_of_mul_eq_mul_right hw hplace).symm
  · intro hdense p hp
    rw [place, odometer_eq_self hdense _ (Nat.div_lt_of_lt_mul (by rwa [mul_comm])), mul_comm,
      Nat.div_add_mod]

/-! ## The condition -/

/-- The last listed dimension is a whole number of words long, or the elements are shorter than a
word and the pattern is row-major. -/
def DmaBd.Expressible (bd : DmaBd) : Prop :=
  bd.dims = [] ∨ CastsFit bd.elementBytes bd.dims ∧
    (bd.len = 0 ∨ WholeWords bd.elementBytes bd.dims ∨
      bd.elementBytes < 4 ∧ DmaBd.isContiguousBDTransfer bd.dims = true)

theorem DmaBd.Verified.place_iff {bd : DmaBd} (h : bd.Verified) (hne : bd.dims ≠ [])
    (hpos : 0 < span (pairs bd.dims)) :
    (∀ p < span (pairs bd.dims) * bd.elementBytes,
      place 4 (scaled bd.elementBytes bd.dims) p = place bd.elementBytes (pairs bd.dims) p) ↔
      WholeWords bd.elementBytes bd.dims ∨
        bd.elementBytes < 4 ∧ DmaBd.isContiguousBDTransfer bd.dims = true := by
  have hw := bd.elementBytes_pos
  have hsizes : ∀ d ∈ bd.dims, 0 < d.size := fun d hd => Nat.pos_of_ne_zero fun hzero => by
    refine hpos.ne' (List.prod_eq_zero ?_)
    rw [pairs, List.map_map]
    exact List.mem_map.2 ⟨d, hd, hzero⟩
  by_cases hwhole : WholeWords bd.elementBytes bd.dims
  · refine iff_of_true (fun p _ => ?_) (Or.inl hwhole)
    exact place_eq_of_whole hw hne hsizes h.size_lt h.steps hwhole
      (h.wholeStrides hne hsizes hwhole) (h.innermost hne) p
  rw [or_iff_right hwhole]
  obtain ⟨front, last, hdims, hcut⟩ := last_of_cut hne hwhole
  have hone := h.last_eq_one hne hsizes hdims hcut
  rw [hone, one_mul] at hcut
  rcases Nat.lt_or_ge bd.elementBytes 4 with hlt | hge
  · rw [and_iff_right hlt]
    have hinner := h.innermost hne hlt.ne
    have hstride : last.stride = 1 := by
      rw [hdims, DmaBd.innermostStride, List.getLast?_concat] at hinner
      exact hinner
    rw [← dense_iff_rowMajor hinner, ← place_eq_self_iff hw hpos]
    refine forall_congr' fun p => imp_congr_right fun _ => ?_
    have hcount := (@odometer_scaled_of_zero bd.elementBytes front last
      (by rw [hone, one_mul]; exact Nat.div_eq_of_lt hlt) hstride (p / 4)).2
    rw [← hdims] at hcount
    rw [place, hcount, mul_comm, Nat.div_add_mod]
  · refine iff_of_false (fun hall => ?_) (fun hnarrow => absurd hnarrow.1 (by omega))
    have hmod : bd.elementBytes % 4 ≠ 0 := fun hzero => hcut (Nat.dvd_of_mod_eq_zero hzero)
    have hlong : 4 < bd.elementBytes := by
      rcases Nat.lt_or_eq_of_le hge with hlong | heq
      · exact hlong
      · rw [← heq] at hmod
        exact absurd rfl hmod
    have hsteps := h.steps
    have hsize := h.size_lt
    rw [hdims] at hpos hsteps hsize hall
    obtain ⟨p, hp, hplace⟩ := place_ne_of_cut hlong hmod
      (fun d hd => hsize d (List.mem_append_left _ hd)) hone hsteps hpos
    exact hplace (hall p hp)

/-- **The driver gets the declared pattern** exactly if it is expressible in words. -/
theorem configureDims_preserves_iff (tileType : ℤ → ℤ → AIETileType) (bursts : List (ℕ × ℕ))
    (tile : AIETileType) (htile : tile = .CoreTile ∨ tile = .MemTile) (bd : DmaBd)
    (hverify : bd.verify (AIE2TargetModel tileType bursts) tile = .ok ())
    (hlen : bd.dims ≠ [] → bd.len = (bd.dims.map (·.size)).prod) :
    (∃ call, configureDims bd = some call ∧ call.bytes = bd.bytes) ↔ bd.Expressible := by
  have hverified := verify_ok htile hverify
  unfold DmaBd.Expressible configureDims
  by_cases hnil : bd.dims = []
  · refine iff_of_true ⟨_, if_pos (by simp [hnil]), ?_⟩ (Or.inl hnil)
    rw [bd.bytes_linear hnil]
    rfl
  rw [if_neg (by simpa using hnil), or_iff_right hnil]
  have hspan : bd.len = span (pairs bd.dims) := by
    rw [hlen hnil, span, pairs, List.map_map]
    rfl
  have hbytes := bd.bytes_eq hnil
  by_cases hcasts : CastsFit bd.elementBytes bd.dims
  · obtain ⟨descs, hdescs, hscaled⟩ := dimDescs_eq hcasts
    have hcall : ∀ P : DriverCall → Prop, (∃ call, ((dimDescs bd.elementBytes bd.dims).bind fun
        descs => some (DriverCall.setMultiDimAddr descs (bd.baseAddr + bd.offset * bd.elementBytes)
          bd.getLenInBytes)) = some call ∧ P call) ↔
        P (.setMultiDimAddr descs bd.start bd.getLenInBytes) := fun P => by
      rw [hdescs]
      simp [DmaBd.start]
    refine (hcall _).trans ?_
    rw [and_iff_right hcasts, DriverCall.bytes_eq hscaled, hbytes, DmaBd.getLenInBytes, hspan,
      map_range_iff]
    rcases Nat.eq_zero_or_pos (span (pairs bd.dims)) with hzero | hpos
    · refine iff_of_true (fun p hp => ?_) (Or.inl hzero)
      rw [hzero, zero_mul] at hp
      omega
    · rw [hverified.place_iff hnil hpos, or_iff_right hpos.ne']
  · refine iff_of_false ?_ fun h => hcasts h.1
    rintro ⟨call, hcall, -⟩
    obtain ⟨descs, hdescs, -⟩ := Option.bind_eq_some_iff.1 hcall
    exact hcasts (castsFit_of_dimDescs hdescs)

/-- Halfwords, two at a time, a row apart. -/
def rowPairs : DmaBd := ⟨2, by decide, 32, 1024, 0, 8, [⟨4, 8⟩, ⟨2, 1⟩]⟩

theorem rowPairs_preserves_iff :
    (∃ call, configureDims rowPairs = some call ∧ call.bytes = rowPairs.bytes) ↔
      rowPairs.Expressible :=
  configureDims_preserves_iff (fun _ _ => .CoreTile) [] .CoreTile (Or.inl rfl) rowPairs rfl
    fun _ => rfl

/-- Halfwords, one at a time, a row apart, with a unit dimension at the end. -/
def rowHeads : DmaBd := ⟨2, by decide, 32, 1024, 0, 4, [⟨4, 8⟩, ⟨1, 1⟩]⟩

/-- The unit dimension is no word long: it never wraps, and the hardware counts through. -/
theorem rowHeads_not_preserved :
    rowHeads.verify (AIE2TargetModel (fun _ _ => .CoreTile) []) .CoreTile = .ok () ∧
      rowHeads.len = (rowHeads.dims.map (·.size)).prod ∧
      configureDims rowHeads = some (.setMultiDimAddr [⟨1, 0⟩, ⟨4, 4⟩] 1024 8) ∧
      (DriverCall.setMultiDimAddr [⟨1, 0⟩, ⟨4, 4⟩] 1024 8).bytes =
        [1024, 1025, 1026, 1027, 1028, 1029, 1030, 1031] ∧
      rowHeads.bytes = [1024, 1025, 1040, 1041, 1056, 1057, 1072, 1073] := by
  refine ⟨rfl, rfl, rfl, by decide, by decide⟩

end MlirAie.BdWalk
