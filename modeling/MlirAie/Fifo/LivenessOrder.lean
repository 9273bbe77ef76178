import MlirAie.Fifo.Liveness

/-!
# When the liveness verdict depends on the order of the fifos

The fifos of one base name are coupled greedily: the first multicast owns the base, and takes in
those after it that agree with everything it took.

* `Connected`, `multicasts`: cycles and cyclic multicasts, without an order;
* `Grouped`: what the groups hold; **`rejected_iff`**: the verdict, from the packs of the bases;
* **`rejected_order_free_iff`**: when every order gives the same verdict.
-/

namespace MlirAie.Liveness

open MlirAie.Lib

variable {Tile Ty : Type}

/-! ## Agreeing fifos -/

/-- The gates: one signature, and other consumers. -/
def Agree (f g : F Tile Ty) : Prop :=
  f.elemTy = g.elemTy ∧ f.depth = g.depth ∧ f.repeats = g.repeats ∧ ∀ c ∈ g.cons, c ∉ f.cons

theorem Agree.symm {f g : F Tile Ty} (h : Agree f g) : Agree g f :=
  ⟨h.1.symm, h.2.1.symm, h.2.2.1.symm, fun c hf hg => h.2.2.2 c hg hf⟩

instance : Std.Symm (@Agree Tile Ty) := ⟨fun _ _ => Agree.symm⟩

def fan (S : List (F Tile Ty)) : ℕ := (S.map (·.cons.length)).sum

theorem fan_concat (S : List (F Tile Ty)) (f : F Tile Ty) :
    fan (S ++ [f]) = fan S + f.cons.length := by
  simp [fan]

theorem fan_le {S S' : List (F Tile Ty)} (hnodup : S.Nodup) (hsub : S ⊆ S') : fan S ≤ fan S' := by
  obtain ⟨l, hperm, hl⟩ := List.subperm_of_subset hnodup hsub
  unfold fan
  rw [← (hperm.map _).sum_eq]
  exact List.Sublist.sum_le_sum (hl.map fun f => f.cons.length) fun _ _ => Nat.zero_le _

def ofBase (seen : List (F Tile Ty)) (b : String) : List (F Tile Ty) :=
  seen.filter fun f => nameBase f.name = b

theorem mem_ofBase {seen : List (F Tile Ty)} {b : String} {f : F Tile Ty} :
    f ∈ ofBase seen b ↔ f ∈ seen ∧ nameBase f.name = b := by
  unfold ofBase
  rw [List.mem_filter, decide_eq_true_eq]

theorem ofBase_concat (seen : List (F Tile Ty)) (f : F Tile Ty) (b : String) :
    ofBase (seen ++ [f]) b =
      if nameBase f.name = b then ofBase seen b ++ [f] else ofBase seen b := by
  unfold ofBase
  rw [List.filter_append, List.filter_singleton]
  split_ifs <;> simp_all

theorem index_unique {fifos : List (F Tile Ty)} (hnodup : fifos.Nodup) {i j : ℕ} {f : F Tile Ty}
    (hi : fifos[i]? = some f) (hj : fifos[j]? = some f) : i = j := by
  obtain ⟨hi', -⟩ := List.getElem?_eq_some_iff.1 hi
  exact (List.getElem?_inj hi' hnodup).1 (hi.trans hj.symm)

theorem getElem?_openGroup {st : Groups Tile Ty} {f : F Tile Ty} {i scc k : ℕ} {g : Group Tile Ty} :
    (st.openGroup f i scc).groupList[k]? = some g ↔ st.groupList[k]? = some g ∨
      k = st.groupList.length ∧ (Group.fresh f i).insert f scc = g := by
  rw [Groups.openGroup, List.getElem?_append]
  split_ifs with hk
  · simp [hk.ne]
  · rw [List.getElem?_eq_none (not_lt.1 hk), List.getElem?_singleton]
    split_ifs with hzero
    · have : k = st.groupList.length := by omega
      simp [this]
    · have : k ≠ st.groupList.length := by omega
      simp [this]

variable [DecidableEq Tile]

/-! ## Cycles, without an order -/

/-- Fifos that are tied together by shared tiles. -/
def Connected (fifos : List (F Tile Ty)) : F Tile Ty → F Tile Ty → Prop :=
  Relation.EqvGen fun f g => f ∈ fifos ∧ g ∈ fifos ∧ linked f g = true

/-- Tied to another one. -/
def Cyclic (fifos : List (F Tile Ty)) (f : F Tile Ty) : Prop :=
  ∃ g ∈ fifos, g ≠ f ∧ Connected fifos f g

def Multicast (fifos : List (F Tile Ty)) (f : F Tile Ty) : Prop :=
  Cyclic fifos f ∧ 1 < f.cons.length

open Classical in
noncomputable def multicasts (fifos : List (F Tile Ty)) : List (F Tile Ty) :=
  fifos.filter fun f => Multicast fifos f

theorem mem_edges {fifos : List (F Tile Ty)} {i j : ℕ} :
    (i, j) ∈ edges fifos ↔
      ∃ f g, fifos[i]? = some f ∧ fifos[j]? = some g ∧ linked f g = true := by
  unfold edges adj
  simp only [List.mem_flatMap, List.mem_map, List.mem_filter, Prod.exists, Prod.mk.injEq,
    List.mem_zipIdx_iff_getElem?]
  constructor
  · rintro ⟨f, a, hf, b, ⟨g, c, ⟨hg, hlinked⟩, rfl⟩, rfl, rfl⟩
    exact ⟨f, g, hf, hg, hlinked⟩
  · rintro ⟨f, g, hf, hg, hlinked⟩
    exact ⟨f, i, hf, j, ⟨g, j, ⟨hg, hlinked⟩, rfl⟩, rfl, rfl⟩

section Records

variable {fifos : List (F Tile Ty)} (hnodup : fifos.Nodup)

include hnodup in
theorem find_eq_iff {i j : ℕ} {f g : F Tile Ty} (hi : fifos[i]? = some f)
    (hj : fifos[j]? = some g) : find fifos i = find fifos j ↔ Connected fifos f g := by
  rw [find, uniteAll_eq_iff]
  constructor
  · intro h
    have hvalues : i = j ∨ ∃ f g, fifos[i]? = some f ∧ fifos[j]? = some g ∧
        Connected fifos f g := by
      clear hi hj
      induction h with
      | rel a b h =>
        obtain ⟨f, g, hf, hg, hlinked⟩ := mem_edges.1 h
        exact Or.inr ⟨f, g, hf, hg,
          .rel _ _ ⟨List.mem_of_getElem? hf, List.mem_of_getElem? hg, hlinked⟩⟩
      | refl _ => exact Or.inl rfl
      | symm _ _ _ ih =>
        rcases ih with h | ⟨f, g, hf, hg, h⟩
        · exact Or.inl h.symm
        · exact Or.inr ⟨g, f, hg, hf, h.symm _ _⟩
      | trans _ _ _ _ _ ih1 ih2 =>
        rcases ih1 with rfl | ⟨f, g, hf, hg, h⟩
        · exact ih2
        · rcases ih2 with rfl | ⟨g', k, hg', hk, h'⟩
          · exact Or.inr ⟨f, g, hf, hg, h⟩
          · obtain rfl := Option.some_inj.1 (hg.symm.trans hg')
            exact Or.inr ⟨f, k, hf, hk, h.trans _ _ _ h'⟩
    rcases hvalues with rfl | ⟨f', g', hf, hg, h⟩
    · obtain rfl := Option.some_inj.1 (hi.symm.trans hj)
      exact .refl _
    · obtain rfl := Option.some_inj.1 (hi.symm.trans hf)
      obtain rfl := Option.some_inj.1 (hj.symm.trans hg)
      exact h
  · intro h
    have hindices : f = g ∨ ∃ i j, fifos[i]? = some f ∧ fifos[j]? = some g ∧
        Relation.EqvGen (fun a b => (a, b) ∈ edges fifos) i j := by
      clear hi hj
      induction h with
      | rel a b h =>
        obtain ⟨ha, hb, hlinked⟩ := h
        obtain ⟨i, hi⟩ := List.getElem?_of_mem ha
        obtain ⟨j, hj⟩ := List.getElem?_of_mem hb
        exact Or.inr ⟨i, j, hi, hj, .rel _ _ (mem_edges.2 ⟨a, b, hi, hj, hlinked⟩)⟩
      | refl _ => exact Or.inl rfl
      | symm _ _ _ ih =>
        rcases ih with h | ⟨i, j, hi, hj, h⟩
        · exact Or.inl h.symm
        · exact Or.inr ⟨j, i, hj, hi, h.symm _ _⟩
      | trans _ _ _ _ _ ih1 ih2 =>
        rcases ih1 with rfl | ⟨i, j, hi, hj, h⟩
        · exact ih2
        · rcases ih2 with rfl | ⟨j', k, hj', hk, h'⟩
          · exact Or.inr ⟨i, j, hi, hj, h⟩
          · obtain rfl := index_unique hnodup hj hj'
            exact Or.inr ⟨i, k, hi, hk, h.trans _ _ _ h'⟩
    rcases hindices with rfl | ⟨i', j', hi', hj', h⟩
    · obtain rfl := index_unique hnodup hi hj
      exact .refl _
    · obtain rfl := index_unique hnodup hi hi'
      obtain rfl := index_unique hnodup hj hj'
      exact h

include hnodup in
theorem one_lt_compSize_iff {i : ℕ} {f : F Tile Ty} (hi : fifos[i]? = some f) :
    1 < compSize fifos (find fifos i) ↔ Cyclic fifos f := by
  have hmem : (f, i) ∈ fifos.zipIdx := List.mem_zipIdx_iff_getElem?.2 hi
  have hzip : fifos.zipIdx.Nodup := by
    refine List.Nodup.of_map Prod.fst ?_
    rwa [List.zipIdx_map_fst]
  rw [compSize, one_lt_countP_iff hzip hmem (decide_eq_true rfl)]
  constructor
  · rintro ⟨⟨g, j⟩, hg, hne, hroot⟩
    have hj := List.mem_zipIdx_iff_getElem?.1 hg
    refine ⟨g, List.mem_of_getElem? hj, fun heq => hne ?_, ?_⟩
    · change g = f at heq
      subst heq
      exact Prod.ext rfl (index_unique hnodup hj hi)
    · exact (find_eq_iff hnodup hi hj).1 (of_decide_eq_true hroot).symm
  · rintro ⟨g, hg, hne, hconnected⟩
    obtain ⟨j, hj⟩ := List.getElem?_of_mem hg
    refine ⟨(g, j), List.mem_zipIdx_iff_getElem?.2 hj, fun heq => hne (congrArg Prod.fst heq), ?_⟩
    exact decide_eq_true ((find_eq_iff hnodup hi hj).2 hconnected).symm

include hnodup in
theorem sccId_of_cyclic {i : ℕ} {f : F Tile Ty} (hi : fifos[i]? = some f)
    (h : Cyclic fifos f) : sccId fifos i = some (find fifos i) :=
  if_pos ((one_lt_compSize_iff hnodup hi).2 h)

include hnodup in
theorem sccId_of_not_cyclic {i : ℕ} {f : F Tile Ty} (hi : fifos[i]? = some f)
    (h : ¬ Cyclic fifos f) : sccId fifos i = none :=
  if_neg fun hsize => h ((one_lt_compSize_iff hnodup hi).1 hsize)

theorem sccId_eq {i s : ℕ} (h : sccId fifos i = some s) : s = find fifos i := by
  unfold sccId at h
  split_ifs at h
  exact (Option.some_inj.1 h).symm

end Records

/-! ## Coupled broadcasts -/

def Exceeds (fifos S : List (F Tile Ty)) : Prop :=
  ∃ m ∈ S, ∃ f ∈ fifos, (∃ m' ∈ S, Connected fifos m' f) ∧ 0 < m.depth ∧ 2 ≤ f.repeats ∧
    2 * m.depth < fan S * f.repeats

/-- Multicasts of one base that agree with each other. -/
structure Coupled (fifos : List (F Tile Ty)) (b : String) (S : List (F Tile Ty)) : Prop where
  sub : S ⊆ ofBase (multicasts fifos) b
  agree : S.Pairwise Agree

/-- Every other multicast of the base disagrees with one of them. -/
structure Maximal (fifos : List (F Tile Ty)) (b : String) (S : List (F Tile Ty)) : Prop
    extends Coupled fifos b S where
  other : ∀ f ∈ ofBase (multicasts fifos) b, f ∉ S → ∃ g ∈ S, ¬ Agree g f

theorem mem_multicasts {fifos : List (F Tile Ty)} {f : F Tile Ty} :
    f ∈ multicasts fifos ↔ f ∈ fifos ∧ Multicast fifos f := by
  classical
  unfold multicasts
  rw [List.mem_filter, decide_eq_true_eq]

theorem not_exceeds_nil (fifos : List (F Tile Ty)) : ¬ Exceeds fifos [] :=
  fun ⟨_, hm, _⟩ => absurd hm List.not_mem_nil

theorem Coupled.nodup {fifos S : List (F Tile Ty)} {b : String} (h : Coupled fifos b S) :
    S.Nodup := by
  refine List.Pairwise.imp_of_mem (fun {f g} hf _ hagree heq => ?_) h.agree
  subst heq
  have hlen := (mem_multicasts.1 (mem_ofBase.1 (h.sub hf)).1).2.2
  obtain ⟨c, hc⟩ := List.exists_mem_of_length_pos (Nat.zero_lt_of_lt hlen)
  exact hagree.2.2.2 c hc hc

/-- More coupled fifos have no smaller demand. -/
theorem Exceeds.mono {fifos S S' : List (F Tile Ty)} (h : Exceeds fifos S) (hnodup : S.Nodup)
    (hsub : S ⊆ S') : Exceeds fifos S' := by
  obtain ⟨m, hm, f, hf, ⟨m', hm', hconnected⟩, hdepth, hrepeats, hdemand⟩ := h
  refine ⟨m, hsub hm, f, hf, ⟨m', hsub hm', hconnected⟩, hdepth, hrepeats, ?_⟩
  have hfan : (fan S : ℤ) ≤ fan S' := by exact_mod_cast fan_le hnodup hsub
  have hmul := Int.mul_le_mul_of_nonneg_right hfan (show 0 ≤ f.repeats by omega)
  omega

/-! ## What the groups hold -/

/-- The group is that of the fifos `S`. -/
structure Describes (fifos : List (F Tile Ty)) (g : Group Tile Ty) (S : List (F Tile Ty)) :
    Prop where
  ne : S ≠ []
  fan_eq : g.fan = fan S
  depth_eq : ∀ m ∈ S, m.depth = g.depth
  name_eq : ∀ m ∈ S, nameBase m.name = g.name
  signature : ∀ m ∈ S, g.elemTy = m.elemTy ∧ g.sigDepth = m.depth ∧ g.sigRepeat = m.repeats
  mem_cons : ∀ c, c ∈ g.cons ↔ ∃ m ∈ S, c ∈ m.cons
  mem_sccs : ∀ s, s ∈ g.sccs ↔ ∃ m ∈ S, ∃ i, fifos[i]? = some m ∧ sccId fifos i = some s

theorem describes_fresh {fifos : List (F Tile Ty)} (hnodup : fifos.Nodup) {f : F Tile Ty}
    {i scc : ℕ}
    (hi : fifos[i]? = some f) (hscc : sccId fifos i = some scc) :
    Describes fifos ((Group.fresh f i).insert f scc) [f] where
  ne := List.cons_ne_nil _ _
  fan_eq := by simp [Group.insert, Group.fresh, fan]
  depth_eq := by simp [Group.insert, Group.fresh]
  name_eq := by simp [Group.insert, Group.fresh]
  signature := by simp [Group.insert, Group.fresh]
  mem_cons := by simp [Group.insert, Group.fresh]
  mem_sccs s := by
    simp only [Group.insert, Group.fresh, List.mem_singleton, exists_eq_left]
    constructor
    · rintro rfl
      exact ⟨i, hi, hscc⟩
    · rintro ⟨j, hj, hs⟩
      obtain rfl := index_unique hnodup hi hj
      exact Option.some_inj.1 (hs.symm.trans hscc)

theorem Describes.insert {fifos : List (F Tile Ty)} (hnodup : fifos.Nodup) {g : Group Tile Ty}
    {S : List (F Tile Ty)} {f : F Tile Ty} {i scc : ℕ}
    (h : Describes fifos g S) (hagree : ∀ m ∈ S, Agree m f) (hbase : g.name = nameBase f.name)
    (hi : fifos[i]? = some f) (hscc : sccId fifos i = some scc) :
    Describes fifos ({ g with depth := min g.depth f.depth }.insert f scc) (S ++ [f]) := by
  obtain ⟨m, hm⟩ := List.exists_mem_of_ne_nil S h.ne
  obtain ⟨hty, hdepth, hrepeat, -⟩ := hagree m hm
  have hdepth' : g.depth = f.depth := (h.depth_eq m hm).symm.trans hdepth
  obtain ⟨h1, h2, h3⟩ := h.signature m hm
  refine ⟨by simp, ?_, fun n hn => ?_, fun n hn => ?_, fun n hn => ?_, fun c => ?_, fun s => ?_⟩
  · rw [fan_concat, Nat.cast_add, ← h.fan_eq]
    rfl
  · rw [Group.insert, hdepth', min_self]
    rcases List.mem_append.1 hn with hn | hn
    · rw [h.depth_eq n hn, hdepth']
    · rw [List.mem_singleton.1 hn]
  · rcases List.mem_append.1 hn with hn | hn
    · exact h.name_eq n hn
    · rw [List.mem_singleton.1 hn]
      exact hbase.symm
  · rcases List.mem_append.1 hn with hn | hn
    · exact h.signature n hn
    · rw [List.mem_singleton.1 hn]
      exact ⟨h1.trans hty, h2.trans hdepth, h3.trans hrepeat⟩
  · have hmem := h.mem_cons c
    simp only [Group.insert, List.mem_append, hmem, List.mem_singleton]
    constructor
    · rintro (⟨n, hn, hc⟩ | hc)
      · exact ⟨n, Or.inl hn, hc⟩
      · exact ⟨f, Or.inr rfl, hc⟩
    · rintro ⟨n, hn | rfl, hc⟩
      · exact Or.inl ⟨n, hn, hc⟩
      · exact Or.inr hc
  · have hmem := h.mem_sccs s
    simp only [Group.insert, List.mem_cons, hmem, List.mem_append]
    constructor
    · rintro (rfl | ⟨n, hn, hj⟩)
      · exact ⟨f, Or.inr (Or.inl rfl), i, hi, hscc⟩
      · exact ⟨n, Or.inl hn, hj⟩
    · rintro ⟨n, hn | hn, j, hj, hs⟩
      · exact Or.inr ⟨n, hn, j, hj, hs⟩
      · obtain rfl : n = f := by simpa using hn
        obtain rfl := index_unique hnodup hi hj
        exact Or.inl (Option.some_inj.1 (hs.symm.trans hscc))

variable [DecidableEq Ty]

instance : DecidableRel (@Agree Tile Ty) := fun f g =>
  inferInstanceAs (Decidable (f.elemTy = g.elemTy ∧ f.depth = g.depth ∧ f.repeats = g.repeats ∧
    ∀ c ∈ g.cons, c ∉ f.cons))

/-- What the first multicast of a base takes in. -/
def packOf (seen : List (F Tile Ty)) (b : String) : List (F Tile Ty) :=
  pack Agree [] (ofBase seen b)

theorem packOf_sublist (seen : List (F Tile Ty)) (b : String) :
    (packOf seen b).Sublist (ofBase seen b) := pack_sublist [] _

theorem packOf_pairwise (seen : List (F Tile Ty)) (b : String) : (packOf seen b).Pairwise Agree :=
  pack_pairwise .nil _

theorem packOf_concat_of_ne {seen : List (F Tile Ty)} {f : F Tile Ty} {b : String}
    (h : nameBase f.name ≠ b) : packOf (seen ++ [f]) b = packOf seen b := by
  rw [packOf, ofBase_concat, if_neg h, packOf]

theorem packOf_concat (seen : List (F Tile Ty)) (f : F Tile Ty) :
    packOf (seen ++ [f]) (nameBase f.name) =
      if ∀ g ∈ packOf seen (nameBase f.name), Agree g f then packOf seen (nameBase f.name) ++ [f]
      else packOf seen (nameBase f.name) := by
  rw [packOf, ofBase_concat, if_pos rfl, pack_concat, packOf]

/-- After the multicasts `seen`: each base has the pack it owns, and the others stand alone. -/
structure Grouped (fifos seen : List (F Tile Ty)) (st : Groups Tile Ty) : Prop where
  none_of : ∀ b, st.groupIdx b = none → ofBase seen b = []
  owner : ∀ b k, st.groupIdx b = some k →
    ∃ g, st.groupList[k]? = some g ∧ Describes fifos g (packOf seen b)
  kind : ∀ k g, st.groupList[k]? = some g →
    (∃ b, st.groupIdx b = some k) ∨ ∃ m ∈ seen, Describes fifos g [m]
  every : ∀ m ∈ seen, m ∈ packOf seen (nameBase m.name) ∨
    ∃ k g, st.groupList[k]? = some g ∧ (∀ b, st.groupIdx b ≠ some k) ∧ Describes fifos g [m]

section Steps

variable {fifos : List (F Tile Ty)} (hnodup : fifos.Nodup)

theorem Describes.consistent_iff {g : Group Tile Ty} {S : List (F Tile Ty)}
    (h : Describes fifos g S) (f : F Tile Ty) : g.consistent f = true ↔ ∀ m ∈ S, Agree m f := by
  unfold Group.consistent
  rw [Bool.and_eq_true, Bool.and_eq_true, Bool.and_eq_true, decide_eq_true_eq, decide_eq_true_eq,
    decide_eq_true_eq, List.all_eq_true]
  constructor
  · rintro ⟨⟨⟨hty, hdepth⟩, hrepeat⟩, hcons⟩ m hm
    obtain ⟨h1, h2, h3⟩ := h.signature m hm
    refine ⟨h1.symm.trans hty, h2.symm.trans hdepth, h3.symm.trans hrepeat, fun c hc hin => ?_⟩
    exact of_decide_eq_true (hcons c hc) ((h.mem_cons c).2 ⟨m, hm, hin⟩)
  · intro hagree
    obtain ⟨m, hm⟩ := List.exists_mem_of_ne_nil S h.ne
    obtain ⟨h1, h2, h3⟩ := h.signature m hm
    obtain ⟨hty, hdepth, hrepeat, -⟩ := hagree m hm
    refine ⟨⟨⟨h1.trans hty, h2.trans hdepth⟩, h3.trans hrepeat⟩, fun c hc => ?_⟩
    refine decide_eq_true fun hin => ?_
    obtain ⟨m', hm', hc'⟩ := (h.mem_cons c).1 hin
    exact (hagree m' hm').2.2.2 c hc hc'

theorem Grouped.name_of_owner {seen : List (F Tile Ty)} {st : Groups Tile Ty}
    (h : Grouped fifos seen st) {b : String} {k : ℕ} {g : Group Tile Ty}
    (hb : st.groupIdx b = some k) (hg : st.groupList[k]? = some g) : g.name = b := by
  obtain ⟨g', hg', hd⟩ := h.owner b k hb
  obtain rfl := Option.some_inj.1 (hg.symm.trans hg')
  obtain ⟨m, hm⟩ := List.exists_mem_of_ne_nil _ hd.ne
  rw [← hd.name_eq m hm]
  exact (mem_ofBase.1 ((packOf_sublist seen b).subset hm)).2

theorem Grouped.lt_of_owner {seen : List (F Tile Ty)} {st : Groups Tile Ty}
    (h : Grouped fifos seen st) {b : String} {k : ℕ} (hb : st.groupIdx b = some k) :
    k < st.groupList.length := by
  obtain ⟨g, hg, -⟩ := h.owner b k hb
  exact (List.getElem?_eq_some_iff.1 hg).1

include hnodup in
/-- A multicast that passes the gates of the owner. -/
theorem Grouped.couple {seen : List (F Tile Ty)} {st : Groups Tile Ty} (h : Grouped fifos seen st)
    {f : F Tile Ty} {i scc idx : ℕ} (hi : fifos[i]? = some f) (hscc : sccId fifos i = some scc)
    (hidx : st.groupIdx (nameBase f.name) = some idx)
    (hagree : ∀ g ∈ packOf seen (nameBase f.name), Agree g f) :
    Grouped fifos (seen ++ [f]) (st.couple idx f scc) := by
  have hpack := packOf_concat seen f
  rw [if_pos hagree] at hpack
  obtain ⟨g, hg, hd⟩ := h.owner _ _ hidx
  have hother : ∀ k, idx ≠ k → (st.couple idx f scc).groupList[k]? = st.groupList[k]? :=
    fun k hk => List.getElem?_modify_ne _ _ hk
  have hself : (st.couple idx f scc).groupList[idx]? =
      some ({ g with depth := min g.depth f.depth }.insert f scc) := by
    rw [Groups.couple, List.getElem?_modify_eq, hg]
    rfl
  have hnew := hd.insert hnodup hagree (h.name_of_owner hidx hg) hi hscc
  refine ⟨fun b hb => ?_, fun b k hb => ?_, fun k g' hk => ?_, fun m hm => ?_⟩
  · change st.groupIdx b = none at hb
    have hne : nameBase f.name ≠ b := fun heq => by
      rw [← heq, hidx] at hb
      cases hb
    rw [ofBase_concat, if_neg hne]
    exact h.none_of b hb
  · change st.groupIdx b = some k at hb
    by_cases hbase : nameBase f.name = b
    · subst hbase
      obtain rfl := Option.some_inj.1 (hidx.symm.trans hb)
      exact ⟨_, hself, hpack ▸ hnew⟩
    · obtain ⟨g', hg', hd'⟩ := h.owner b k hb
      have hne : idx ≠ k := fun heq => by
        subst heq
        exact hbase ((h.name_of_owner hidx hg).symm.trans (h.name_of_owner hb hg))
      rw [packOf_concat_of_ne hbase]
      exact ⟨g', (hother k hne).trans hg', hd'⟩
  · by_cases hk' : idx = k
    · exact Or.inl ⟨_, hk' ▸ hidx⟩
    · rw [hother k hk'] at hk
      refine (h.kind k g' hk).imp_right ?_
      rintro ⟨m, hm, hd'⟩
      exact ⟨m, List.mem_append_left _ hm, hd'⟩
  · rcases List.mem_append.1 hm with hm | hm
    · rcases h.every m hm with hin | ⟨k, g', hk, hfree, hd'⟩
      · left
        by_cases hbase : nameBase f.name = nameBase m.name
        · rw [← hbase] at hin ⊢
          rw [hpack]
          exact List.mem_append_left _ hin
        · rwa [packOf_concat_of_ne hbase]
      · have hne : idx ≠ k := fun heq => hfree _ (heq ▸ hidx)
        exact Or.inr ⟨k, g', (hother k hne).trans hk, hfree, hd'⟩
    · left
      rw [List.mem_singleton.1 hm, hpack]
      exact List.mem_append_right _ (List.mem_singleton_self f)

include hnodup in
theorem Grouped.openOwner {seen : List (F Tile Ty)} {st : Groups Tile Ty}
    (h : Grouped fifos seen st) {f : F Tile Ty} {i scc : ℕ} (hi : fifos[i]? = some f)
    (hscc : sccId fifos i = some scc) (hidx : st.groupIdx (nameBase f.name) = none) :
    Grouped fifos (seen ++ [f]) (st.openGroup f i scc) := by
  have hfresh := describes_fresh hnodup hi hscc
  have hempty : packOf seen (nameBase f.name) = [] := by
    rw [packOf, h.none_of _ hidx, pack]
  have hpack := packOf_concat seen f
  rw [hempty, if_pos (List.forall_mem_nil _), List.nil_append] at hpack
  have hself : (st.openGroup f i scc).groupIdx (nameBase f.name) = some st.groupList.length := by
    rw [Groups.openGroup, hidx]
    exact Function.update_self _ _ _
  have hother : ∀ b, b ≠ nameBase f.name → (st.openGroup f i scc).groupIdx b = st.groupIdx b := by
    intro b hne
    rw [Groups.openGroup, hidx]
    exact Function.update_of_ne hne _ _
  refine ⟨fun b hb => ?_, fun b k hb => ?_, fun k g' hk => ?_, fun m hm => ?_⟩
  · have hne : b ≠ nameBase f.name := fun heq => by
      rw [heq, hself] at hb
      cases hb
    rw [hother b hne] at hb
    rw [ofBase_concat, if_neg hne.symm]
    exact h.none_of b hb
  · by_cases hne : b = nameBase f.name
    · subst hne
      rw [hself] at hb
      rw [hpack]
      exact ⟨_, getElem?_openGroup.2 (Or.inr ⟨(Option.some_inj.1 hb).symm, rfl⟩), hfresh⟩
    · rw [hother b hne] at hb
      obtain ⟨g', hg', hd'⟩ := h.owner b k hb
      rw [packOf_concat_of_ne (Ne.symm hne)]
      exact ⟨g', getElem?_openGroup.2 (Or.inl hg'), hd'⟩
  · rcases getElem?_openGroup.1 hk with hk | ⟨rfl, rfl⟩
    · rcases h.kind k g' hk with ⟨b, hb⟩ | ⟨m, hm, hd'⟩
      · have hne : b ≠ nameBase f.name := fun heq => by
          rw [heq, hidx] at hb
          cases hb
        exact Or.inl ⟨b, (hother b hne).trans hb⟩
      · exact Or.inr ⟨m, List.mem_append_left _ hm, hd'⟩
    · exact Or.inl ⟨_, hself⟩
  · rcases List.mem_append.1 hm with hm | hm
    · rcases h.every m hm with hin | ⟨k, g', hk, hfree, hd'⟩
      · left
        have hbase : nameBase f.name ≠ nameBase m.name := fun heq => by
          rw [← heq, hempty] at hin
          exact absurd hin List.not_mem_nil
        rwa [packOf_concat_of_ne hbase]
      · have hk' := (List.getElem?_eq_some_iff.1 hk).1
        refine Or.inr ⟨k, g', getElem?_openGroup.2 (Or.inl hk), fun b hb => ?_, hd'⟩
        by_cases hne : b = nameBase f.name
        · rw [hne, hself] at hb
          exact hk'.ne (Option.some_inj.1 hb).symm
        · exact hfree b ((hother b hne).symm.trans hb)
    · left
      rw [List.mem_singleton.1 hm, hpack]
      exact List.mem_singleton_self f

include hnodup in
theorem Grouped.openAlone {seen : List (F Tile Ty)} {st : Groups Tile Ty}
    (h : Grouped fifos seen st) {f : F Tile Ty} {i scc idx : ℕ} (hi : fifos[i]? = some f)
    (hscc : sccId fifos i = some scc) (hidx : st.groupIdx (nameBase f.name) = some idx)
    (hdisagree : ¬ ∀ g ∈ packOf seen (nameBase f.name), Agree g f) :
    Grouped fifos (seen ++ [f]) (st.openGroup f i scc) := by
  have hfresh := describes_fresh hnodup hi hscc
  have hindices : (st.openGroup f i scc).groupIdx = st.groupIdx := by
    rw [Groups.openGroup, hidx]
    rfl
  have hkeep : ∀ b, packOf (seen ++ [f]) b = packOf seen b := fun b => by
    by_cases hbase : nameBase f.name = b
    · rw [← hbase, packOf_concat, if_neg hdisagree]
    · exact packOf_concat_of_ne hbase
  refine ⟨fun b hb => ?_, fun b k hb => ?_, fun k g' hk => ?_, fun m hm => ?_⟩
  · rw [hindices] at hb
    have hne : nameBase f.name ≠ b := fun heq => by
      rw [← heq, hidx] at hb
      cases hb
    rw [ofBase_concat, if_neg hne]
    exact h.none_of b hb
  · rw [hindices] at hb
    obtain ⟨g', hg', hd'⟩ := h.owner b k hb
    rw [hkeep]
    exact ⟨g', getElem?_openGroup.2 (Or.inl hg'), hd'⟩
  · rw [hindices]
    rcases getElem?_openGroup.1 hk with hk | ⟨rfl, rfl⟩
    · refine (h.kind k g' hk).imp_right ?_
      rintro ⟨m, hm, hd'⟩
      exact ⟨m, List.mem_append_left _ hm, hd'⟩
    · exact Or.inr ⟨f, List.mem_append_right _ (List.mem_singleton_self f), hfresh⟩
  · rw [hkeep, hindices]
    rcases List.mem_append.1 hm with hm | hm
    · refine (h.every m hm).imp_right ?_
      rintro ⟨k, g', hk, hfree, hd'⟩
      exact ⟨k, g', getElem?_openGroup.2 (Or.inl hk), hfree, hd'⟩
    · obtain rfl := List.mem_singleton.1 hm
      exact Or.inr ⟨_, _, getElem?_openGroup.2 (Or.inr ⟨rfl, rfl⟩),
        fun b hb => absurd (h.lt_of_owner hb) (lt_irrefl _), hfresh⟩

include hnodup in
/-- One multicast. -/
theorem Grouped.addFifo {seen : List (F Tile Ty)} {st : Groups Tile Ty} (h : Grouped fifos seen st)
    {f : F Tile Ty} {i : ℕ} (hi : fifos[i]? = some f) (hf : Multicast fifos f) :
    Grouped fifos (seen ++ [f]) (addFifo fifos st (f, i)) := by
  have hscc := sccId_of_cyclic hnodup hi hf.1
  have hmany : ¬ f.cons.length ≤ 1 := not_le.2 hf.2
  unfold Liveness.addFifo
  simp only [hscc, if_neg hmany]
  cases hidx : st.groupIdx (nameBase f.name) with
  | none =>
    have hslot : st.slot f = none := by simp [Groups.slot, hidx]
    rw [hslot]
    exact h.openOwner hnodup hi hscc hidx
  | some idx =>
    obtain ⟨cand, hcand, hd⟩ := h.owner _ _ hidx
    by_cases hagree : ∀ g ∈ packOf seen (nameBase f.name), Agree g f
    · have hslot : st.slot f = some idx := by
        simp [Groups.slot, hidx, hcand, (hd.consistent_iff f).2 hagree]
      rw [hslot]
      exact h.couple hnodup hi hscc hidx hagree
    · have hslot : st.slot f = none := by
        simp [Groups.slot, hidx, hcand, mt (hd.consistent_iff f).1 hagree]
      rw [hslot]
      exact h.openAlone hnodup hi hscc hidx hagree

include hnodup in
theorem addFifo_of_not_multicast {st : Groups Tile Ty} {f : F Tile Ty} {i : ℕ}
    (hi : fifos[i]? = some f) (hf : ¬ Multicast fifos f) : addFifo fifos st (f, i) = st := by
  unfold addFifo
  by_cases hcyclic : Cyclic fifos f
  · have hfew : f.cons.length ≤ 1 := not_lt.1 fun hmany => hf ⟨hcyclic, hmany⟩
    simp only [sccId_of_cyclic hnodup hi hcyclic, if_pos hfew]
  · simp only [sccId_of_not_cyclic hnodup hi hcyclic]

include hnodup in
/-- **The groups after all fifos.** -/
theorem grouped_groups : Grouped fifos (multicasts fifos) (groups fifos) := by
  classical
  have hrun : ∀ pre : List (F Tile Ty × ℕ), (∀ f ∈ pre, fifos[f.2]? = some f.1) →
      Grouped fifos ((pre.map Prod.fst).filter fun f => Multicast fifos f)
        (pre.foldl (addFifo fifos) {}) := by
    intro pre
    induction pre using List.reverseRecOn with
    | nil =>
      refine fun _ => ⟨fun _ _ => rfl, fun b k hb => ?_, fun k g hk => ?_, fun m hm => ?_⟩
      · cases hb
      · cases hk
      · cases hm
    | append_singleton pre f ih =>
      intro hpre
      have h := ih fun g hg => hpre g (List.mem_append_left _ hg)
      have hi := hpre f (List.mem_append_right _ (List.mem_singleton_self f))
      rw [List.map_append, List.filter_append, List.foldl_append, List.map_singleton,
        List.filter_singleton]
      by_cases hf : Multicast fifos f.1
      · rw [decide_eq_true hf, cond_true]
        exact h.addFifo hnodup hi hf
      · rw [decide_eq_false hf, cond_false, List.append_nil]
        change Grouped fifos _ (addFifo fifos _ (f.1, f.2))
        rw [addFifo_of_not_multicast hnodup hi hf]
        exact h
  have h := hrun fifos.zipIdx fun f hf => List.mem_zipIdx_iff_getElem?.1 hf
  rwa [List.zipIdx_map_fst] at h

end Steps

/-! ## The verdict -/

theorem foldl_max_cases {α : Type*} (l : List α) (p : α → Bool) (v : α → ℤ) (init : ℤ) :
    (l.foldl (fun T x => if p x = true then max T (v x) else T) init = init ∨
      ∃ x ∈ l, p x = true ∧
        l.foldl (fun T x => if p x = true then max T (v x) else T) init = v x) ∧
    init ≤ l.foldl (fun T x => if p x = true then max T (v x) else T) init ∧
    ∀ x ∈ l, p x = true →
      v x ≤ l.foldl (fun T x => if p x = true then max T (v x) else T) init := by
  induction l generalizing init with
  | nil => exact ⟨Or.inl rfl, le_rfl, fun x hx => absurd hx List.not_mem_nil⟩
  | cons a l ih =>
    rw [List.foldl_cons]
    obtain ⟨hcases, hinit, hmem⟩ := ih (if p a = true then max init (v a) else init)
    have hle : init ≤ if p a = true then max init (v a) else init := by
      split_ifs
      · exact le_max_left _ _
      · exact le_rfl
    refine ⟨?_, hle.trans hinit, fun x hx hp => ?_⟩
    · rcases hcases with h | ⟨x, hx, hp, h⟩
      · rw [h]
        split_ifs with hp
        · rcases max_choice init (v a) with h' | h'
          · exact Or.inl h'
          · exact Or.inr ⟨a, List.mem_cons_self, hp, h'⟩
        · exact Or.inl rfl
      · exact Or.inr ⟨x, List.mem_cons_of_mem _ hx, hp, h⟩
    · rcases List.mem_cons.1 hx with rfl | hx
      · rw [if_pos hp] at hinit ⊢
        exact (le_max_right _ _).trans hinit
      · exact hmem x hx hp

section Verdict

variable {fifos : List (F Tile Ty)} (hnodup : fifos.Nodup)

omit [DecidableEq Ty] in
include hnodup in
theorem Describes.any_sccs_iff {g : Group Tile Ty} {S : List (F Tile Ty)}
    (h : Describes fifos g S) (hS : S ⊆ multicasts fifos) {i : ℕ} {f : F Tile Ty}
    (hi : fifos[i]? = some f) :
    (sccId fifos i).any (· ∈ g.sccs) = true ↔ ∃ m ∈ S, Connected fifos m f := by
  constructor
  · intro hany
    obtain ⟨s, hs, hmem⟩ := (Option.any_eq_true _ _).1 hany
    obtain ⟨m, hm, j, hj, hs'⟩ := (h.mem_sccs s).1 (of_decide_eq_true hmem)
    refine ⟨m, hm, (find_eq_iff hnodup hj hi).1 ?_⟩
    rw [← sccId_eq hs, ← sccId_eq hs']
  · rintro ⟨m, hm, hconnected⟩
    obtain ⟨hmem, hmulti⟩ := mem_multicasts.1 (hS hm)
    obtain ⟨j, hj⟩ := List.getElem?_of_mem hmem
    have hfind := (find_eq_iff hnodup hj hi).2 hconnected
    have hscc := sccId_of_cyclic hnodup hj hmulti.1
    have hscc' : sccId fifos i = some (find fifos j) := by
      unfold sccId at hscc ⊢
      rwa [← hfind]
    rw [hscc', Option.any_some]
    exact decide_eq_true ((h.mem_sccs _).2 ⟨m, hm, j, hj, hscc⟩)

omit [DecidableEq Ty] in
include hnodup in
theorem Describes.check_iff {g : Group Tile Ty} {S : List (F Tile Ty)}
    (h : Describes fifos g S) (hS : S ⊆ multicasts fifos) :
    check fifos g ≠ .ok () ↔ Exceeds fifos S := by
  have hfail : check fifos g ≠ .ok () ↔
      0 < g.depth ∧ 2 ≤ trips fifos g ∧ 2 * g.depth < g.fan * trips fifos g := by
    unfold check
    simp only []
    split_ifs with hguard
    · refine iff_of_false (fun hne => hne rfl) ?_
      omega
    · refine iff_of_true (fun heq => by cases heq) ?_
      omega
  obtain ⟨hcases, -, hmem⟩ := foldl_max_cases fifos.zipIdx
    (fun f => (sccId fifos f.2).any (· ∈ g.sccs)) (fun f => f.1.repeats) 1
  change trips fifos g = 1 ∨ ∃ x ∈ fifos.zipIdx, (sccId fifos x.2).any (· ∈ g.sccs) = true ∧
    trips fifos g = x.1.repeats at hcases
  rw [hfail, h.fan_eq]
  constructor
  · rintro ⟨hdepth, htrips, hdemand⟩
    rcases hcases with hone | ⟨x, hx, hany, hx'⟩
    · omega
    · obtain ⟨m, hm⟩ := List.exists_mem_of_ne_nil S h.ne
      have hi := List.mem_zipIdx_iff_getElem?.1 hx
      refine ⟨m, hm, x.1, List.mem_of_getElem? hi, (h.any_sccs_iff hnodup hS hi).1 hany, ?_⟩
      rw [h.depth_eq m hm, ← hx']
      exact ⟨hdepth, htrips, hdemand⟩
  · rintro ⟨m, hm, f, hf, hconnected, hdepth, hrepeats, hdemand⟩
    obtain ⟨i, hi⟩ := List.getElem?_of_mem hf
    have hle : f.repeats ≤ trips fifos g := hmem (f, i) (List.mem_zipIdx_iff_getElem?.2 hi)
      ((h.any_sccs_iff hnodup hS hi).2 hconnected)
    rw [h.depth_eq m hm] at hdepth hdemand
    have hmul := Int.mul_le_mul_of_nonneg_left hle (show (0 : ℤ) ≤ fan S from Int.natCast_nonneg _)
    exact ⟨hdepth, hrepeats.trans hle, lt_of_lt_of_le hdemand hmul⟩

theorem packOf_subset (b : String) : packOf (multicasts fifos) b ⊆ multicasts fifos := fun _ hm =>
  (mem_ofBase.1 ((packOf_sublist _ b).subset hm)).1

end Verdict

omit [DecidableEq Tile] [DecidableEq Ty] in
theorem DeviceOp.records_nodup (mod : DeviceOp Tile Ty) : mod.records.Nodup := by
  have hnames : (mod.records.map (·.name)).Sublist (mod.fifos.map (·.symName)) := by
    unfold DeviceOp.records
    induction mod.fifos with
    | nil => exact List.Sublist.refl _
    | cons ofo fifos ih =>
      rw [List.filterMap_cons, List.map_cons]
      unfold ObjectFifoCreateOp.record
      cases ofo.elemNumber with
      | int depth => exact ih.cons_cons _
      | array depths => exact ih.cons _
  exact List.Nodup.of_map _ (hnames.nodup mod.symbols)

theorem DeviceOp.rejected_iff (mod : DeviceOp Tile Ty) :
    mod.Rejected ↔ (∃ m ∈ multicasts mod.records, Exceeds mod.records [m]) ∨
      ∃ b, Exceeds mod.records (packOf (multicasts mod.records) b) := by
  have hnodup := mod.records_nodup
  have hgroups := grouped_groups hnodup
  have howner : ∀ b, Exceeds mod.records (packOf (multicasts mod.records) b) → mod.Rejected := by
    intro b hexceeds hok
    cases hb : (groups mod.records).groupIdx b with
    | none =>
      rw [packOf, hgroups.none_of b hb] at hexceeds
      exact not_exceeds_nil _ hexceeds
    | some k =>
      obtain ⟨g, hg, hd⟩ := hgroups.owner b k hb
      exact (hd.check_iff hnodup (packOf_subset b)).2 hexceeds
        (forM_eq_ok.1 hok g (List.mem_of_getElem? hg))
  constructor
  · intro hrejected
    have hfail : ∃ g ∈ (groups mod.records).groupList, check mod.records g ≠ .ok () := by
      by_contra hall
      push Not at hall
      exact hrejected (forM_eq_ok.2 hall)
    obtain ⟨g, hg, hcheck⟩ := hfail
    obtain ⟨k, hk⟩ := List.getElem?_of_mem hg
    rcases hgroups.kind k g hk with ⟨b, hb⟩ | ⟨m, hm, hd⟩
    · obtain ⟨g', hg', hd⟩ := hgroups.owner b k hb
      obtain rfl := Option.some_inj.1 (hk.symm.trans hg')
      exact Or.inr ⟨b, (hd.check_iff hnodup (packOf_subset b)).1 hcheck⟩
    · exact Or.inl ⟨m, hm, (hd.check_iff hnodup (by simpa using hm)).1 hcheck⟩
  · rintro (⟨m, hm, hexceeds⟩ | ⟨b, hexceeds⟩)
    · rcases hgroups.every m hm with hin | ⟨k, g, hk, -, hd⟩
      · exact howner _ (hexceeds.mono (List.nodup_singleton m) (by simpa using hin))
      · intro hok
        exact (hd.check_iff hnodup (by simpa using hm)).2 hexceeds
          (forM_eq_ok.1 hok g (List.mem_of_getElem? hk))
    · exact howner b hexceeds

/-! ## Orders -/

omit [DecidableEq Ty] in
theorem connected_congr {fifos fifos' : List (F Tile Ty)} (h : fifos'.Perm fifos) :
    Connected fifos' = Connected fifos := by
  unfold Connected
  congr 1
  funext f g
  rw [h.mem_iff, h.mem_iff]

omit [DecidableEq Ty] in
theorem multicast_congr {fifos fifos' : List (F Tile Ty)} (h : fifos'.Perm fifos) :
    Multicast fifos' = Multicast fifos := by
  funext f
  unfold Multicast Cyclic
  rw [connected_congr h]
  simp only [h.mem_iff]

omit [DecidableEq Ty] in
theorem exceeds_congr {fifos fifos' : List (F Tile Ty)} (h : fifos'.Perm fifos)
    (S : List (F Tile Ty)) : Exceeds fifos' S ↔ Exceeds fifos S := by
  unfold Exceeds
  rw [connected_congr h]
  simp only [h.mem_iff]

omit [DecidableEq Ty] in
theorem ofBase_perm {fifos fifos' : List (F Tile Ty)} (h : fifos'.Perm fifos) (b : String) :
    (ofBase (multicasts fifos') b).Perm (ofBase (multicasts fifos) b) := by
  unfold ofBase multicasts
  rw [multicast_congr h]
  exact (h.filter _).filter _

omit [DecidableEq Tile] [DecidableEq Ty] in
theorem DeviceOp.records_perm {mod mod' : DeviceOp Tile Ty} (h : mod'.fifos.Perm mod.fifos) :
    mod'.records.Perm mod.records := h.filterMap _

theorem packOf_maximal {fifos fifos' : List (F Tile Ty)} (h : fifos'.Perm fifos) (b : String) :
    Maximal fifos b (packOf (multicasts fifos') b) where
  sub := fun _ hm => (ofBase_perm h b).mem_iff.1 ((packOf_sublist _ b).subset hm)
  agree := packOf_pairwise _ b
  other := fun _ hf hout => exists_of_notMem_pack ((ofBase_perm h b).mem_iff.2 hf) hout

noncomputable def DeviceOp.chosenFirst (mod : DeviceOp Tile Ty) (chosen : F Tile Ty → Bool) :
    DeviceOp Tile Ty where
  fifos := mod.fifos.filter (fun ofo => ofo.record.any chosen) ++
    mod.fifos.filter fun ofo => !ofo.record.any chosen
  symbols := by
    have hperm := mod.fifos.filter_append_perm fun ofo => ofo.record.any chosen
    exact (hperm.map _).nodup_iff.2 mod.symbols

omit [DecidableEq Tile] [DecidableEq Ty] in
theorem DeviceOp.chosenFirst_perm (mod : DeviceOp Tile Ty) (chosen : F Tile Ty → Bool) :
    (mod.chosenFirst chosen).fifos.Perm mod.fifos :=
  List.filter_append_perm _ _

omit [DecidableEq Tile] [DecidableEq Ty] in
theorem filterMap_record_filter (fifos : List (ObjectFifoCreateOp Tile Ty))
    (chosen : F Tile Ty → Bool) :
    (fifos.filter fun ofo => ofo.record.any chosen).filterMap ObjectFifoCreateOp.record =
      (fifos.filterMap ObjectFifoCreateOp.record).filter chosen := by
  induction fifos with
  | nil => rfl
  | cons ofo fifos ih =>
    rw [List.filter_cons, List.filterMap_cons]
    cases hrecord : ofo.record with
    | none => simpa [hrecord] using ih
    | some f =>
      simp only [Option.any_some, List.filter_cons]
      by_cases hchosen : chosen f = true
      · rw [if_pos hchosen, if_pos hchosen, List.filterMap_cons, hrecord, ih]
      · rw [if_neg hchosen, if_neg hchosen, ih]

omit [DecidableEq Ty] in
theorem DeviceOp.chosenFirst_ofBase (mod : DeviceOp Tile Ty) (chosen : F Tile Ty → Bool)
    (b : String) : ∃ rest, (∀ f, f ∈ rest ↔ f ∈ ofBase (multicasts mod.records) b ∧
        chosen f = false) ∧
      ofBase (multicasts (mod.chosenFirst chosen).records) b =
        (ofBase (multicasts mod.records) b).filter chosen ++ rest := by
  have hperm := DeviceOp.records_perm (mod.chosenFirst_perm chosen)
  have hrecords : (mod.chosenFirst chosen).records = mod.records.filter chosen ++
      (mod.fifos.filter fun ofo => !ofo.record.any chosen).filterMap
        ObjectFifoCreateOp.record := by
    unfold DeviceOp.records DeviceOp.chosenFirst
    rw [List.filterMap_append, filterMap_record_filter]
  classical
  refine ⟨ofBase (((mod.fifos.filter fun ofo => !ofo.record.any chosen).filterMap
    ObjectFifoCreateOp.record).filter fun f => Multicast mod.records f) b, fun f => ?_, ?_⟩
  · rw [mem_ofBase, mem_ofBase, mem_multicasts, List.mem_filter, decide_eq_true_eq,
      DeviceOp.records, List.mem_filterMap, List.mem_filterMap]
    constructor
    · rintro ⟨⟨⟨ofo, hofo, hrecord⟩, hmulti⟩, hbase⟩
      rw [List.mem_filter, hrecord, Option.any_some] at hofo
      exact ⟨⟨⟨⟨ofo, hofo.1, hrecord⟩, hmulti⟩, hbase⟩, by simpa using hofo.2⟩
    · rintro ⟨⟨⟨⟨ofo, hofo, hrecord⟩, hmulti⟩, hbase⟩, hchosen⟩
      refine ⟨⟨⟨ofo, ?_, hrecord⟩, hmulti⟩, hbase⟩
      rw [List.mem_filter, hrecord, Option.any_some, hchosen]
      exact ⟨hofo, rfl⟩
  · unfold multicasts
    rw [multicast_congr hperm, hrecords, List.filter_append, ofBase, List.filter_append]
    congr 1
    unfold ofBase
    rw [List.filter_filter, List.filter_filter, List.filter_filter, List.filter_filter]
    refine List.filter_congr fun f _ => ?_
    cases chosen f <;> simp

/-- Every order gives the same verdict: nothing exceeds its slack, however the fifos are coupled;
or one fifo alone does; or those of a base do, however they are coupled. -/
def OrderFree (mod : DeviceOp Tile Ty) : Prop :=
  (∀ b S, Coupled mod.records b S → ¬ Exceeds mod.records S) ∨
    (∃ m ∈ multicasts mod.records, Exceeds mod.records [m]) ∨
    ∃ b, ∀ S, Maximal mod.records b S → Exceeds mod.records S

omit [DecidableEq Tile] [DecidableEq Ty] in
theorem pairwise_of_subset {S A : List (F Tile Ty)} (hS : S.Pairwise Agree) (hA : A.Nodup)
    (hsub : A ⊆ S) : A.Pairwise Agree :=
  hA.pairwise_of_forall_ne fun _ hf _ hg hne => hS.forall (hsub hf) (hsub hg) hne

/-- Some order couples a set that exceeds its slack. -/
theorem exists_rejected {mod : DeviceOp Tile Ty} {b : String} {S : List (F Tile Ty)}
    (hS : Coupled mod.records b S) (hexceeds : Exceeds mod.records S) :
    ∃ mod' : DeviceOp Tile Ty, mod'.fifos.Perm mod.fifos ∧ mod'.Rejected := by
  classical
  have hperm := mod.chosenFirst_perm fun f => f ∈ S
  have hrecords := DeviceOp.records_perm hperm
  obtain ⟨rest, -, hlist⟩ := mod.chosenFirst_ofBase (fun f => f ∈ S) b
  refine ⟨mod.chosenFirst fun f => f ∈ S, hperm, (DeviceOp.rejected_iff _).2 (Or.inr ⟨b, ?_⟩)⟩
  rw [exceeds_congr hrecords]
  refine hexceeds.mono hS.nodup fun f hf => ?_
  have hnodup : ((ofBase (multicasts mod.records) b).filter fun f => f ∈ S).Nodup := by
    unfold ofBase multicasts
    exact ((mod.records_nodup.filter _).filter _).filter _
  have hpairwise := pairwise_of_subset hS.agree hnodup fun f hf => by
    simpa using (List.mem_filter.1 hf).2
  rw [packOf, hlist, pack_append, pack_nil_eq_self hpairwise]
  refine subset_pack _ _ ?_
  rw [List.mem_filter]
  exact ⟨hS.sub hf, by simpa using hf⟩

theorem exists_not_rejected {mod : DeviceOp Tile Ty}
    (halone : ∀ m ∈ multicasts mod.records, ¬ Exceeds mod.records [m])
    {S : String → List (F Tile Ty)}
    (hS : ∀ b, Maximal mod.records b (S b) ∧ ¬ Exceeds mod.records (S b)) :
    ∃ mod' : DeviceOp Tile Ty, mod'.fifos.Perm mod.fifos ∧ ¬ mod'.Rejected := by
  classical
  have hperm := mod.chosenFirst_perm fun f => f ∈ S (nameBase f.name)
  have hrecords := DeviceOp.records_perm hperm
  refine ⟨mod.chosenFirst fun f => f ∈ S (nameBase f.name), hperm, ?_⟩
  rw [DeviceOp.rejected_iff]
  rintro (⟨m, hm, hexceeds⟩ | ⟨b, hexceeds⟩)
  · rw [exceeds_congr hrecords] at hexceeds
    refine halone m ?_ hexceeds
    rw [mem_multicasts, multicast_congr hrecords, hrecords.mem_iff] at hm
    exact mem_multicasts.2 hm
  · rw [exceeds_congr hrecords] at hexceeds
    obtain ⟨rest, hrest, hlist⟩ := mod.chosenFirst_ofBase (fun f => f ∈ S (nameBase f.name)) b
    have hmem : ∀ f, f ∈ (ofBase (multicasts mod.records) b).filter
        (fun f => f ∈ S (nameBase f.name)) ↔ f ∈ S b := by
      intro f
      rw [List.mem_filter, decide_eq_true_eq]
      constructor
      · rintro ⟨hf, hin⟩
        rwa [(mem_ofBase.1 hf).2] at hin
      · intro hf
        have hbase := (hS b).1.sub hf
        exact ⟨hbase, by rwa [(mem_ofBase.1 hbase).2]⟩
    have hnodup : ((ofBase (multicasts mod.records) b).filter
        fun f => f ∈ S (nameBase f.name)).Nodup := by
      unfold ofBase multicasts
      exact ((mod.records_nodup.filter _).filter _).filter _
    have hpairwise := pairwise_of_subset (hS b).1.agree hnodup fun f hf => (hmem f).1 hf
    rw [packOf, hlist, pack_append, pack_nil_eq_self hpairwise, pack_eq_self] at hexceeds
    · exact (hS b).2 (hexceeds.mono hnodup fun f hf => (hmem f).1 hf)
    · intro f hf
      obtain ⟨hbase, hchosen⟩ := (hrest f).1 hf
      have hout : f ∉ S b := by
        rw [(mem_ofBase.1 hbase).2] at hchosen
        exact of_decide_eq_false hchosen
      obtain ⟨g, hg, hdisagree⟩ := (hS b).1.other f hbase hout
      exact ⟨g, (hmem g).2 hg, hdisagree⟩

/-- **When the verdict does not depend on the order of the fifos.** -/
theorem rejected_order_free_iff (mod : DeviceOp Tile Ty) :
    (∀ mod' : DeviceOp Tile Ty, mod'.fifos.Perm mod.fifos → (mod'.Rejected ↔ mod.Rejected)) ↔
      OrderFree mod := by
  constructor
  · intro hsame
    unfold OrderFree
    by_contra hnot
    push Not at hnot
    obtain ⟨⟨b, S, hS, hexceeds⟩, halone, hbases⟩ := hnot
    choose T hT using hbases
    obtain ⟨mod₁, hperm₁, hrejected⟩ := exists_rejected hS hexceeds
    obtain ⟨mod₂, hperm₂, haccepted⟩ := exists_not_rejected halone hT
    exact haccepted ((hsame mod₂ hperm₂).2 ((hsame mod₁ hperm₁).1 hrejected))
  · intro hfree mod' hperm
    have hrecords := DeviceOp.records_perm hperm
    rcases hfree with hnone | ⟨m, hm, hexceeds⟩ | ⟨b, hall⟩
    · have haccepted : ∀ mod' : DeviceOp Tile Ty, mod'.fifos.Perm mod.fifos → ¬ mod'.Rejected := by
        intro mod' hperm
        have hrecords := DeviceOp.records_perm hperm
        rw [DeviceOp.rejected_iff]
        rintro (⟨m, hm, hexceeds⟩ | ⟨b, hexceeds⟩)
        · rw [exceeds_congr hrecords] at hexceeds
          rw [mem_multicasts, multicast_congr hrecords, hrecords.mem_iff] at hm
          refine hnone (nameBase m.name) [m] ⟨?_, List.pairwise_singleton _ _⟩ hexceeds
          rintro f hf
          rw [List.mem_singleton.1 hf]
          exact mem_ofBase.2 ⟨mem_multicasts.2 hm, rfl⟩
        · rw [exceeds_congr hrecords] at hexceeds
          exact hnone b _ (packOf_maximal hrecords b).toCoupled hexceeds
      exact iff_of_false (haccepted mod' hperm) (haccepted mod (List.Perm.refl _))
    · refine iff_of_true ((DeviceOp.rejected_iff _).2 (Or.inl ⟨m, ?_, ?_⟩))
        ((DeviceOp.rejected_iff _).2 (Or.inl ⟨m, hm, hexceeds⟩))
      · rw [mem_multicasts, multicast_congr hrecords, hrecords.mem_iff]
        exact mem_multicasts.1 hm
      · exact (exceeds_congr hrecords _).2 hexceeds
    · refine iff_of_true ((DeviceOp.rejected_iff _).2 (Or.inr ⟨b, ?_⟩))
        ((DeviceOp.rejected_iff _).2 (Or.inr ⟨b, hall _ (packOf_maximal (List.Perm.refl _) b)⟩))
      exact (exceeds_congr hrecords _).2 (hall _ (packOf_maximal hrecords b))

def halves : List (ObjectFifoCreateOp ℕ ℕ) :=
  [⟨"memX_0", .int 2, 10, [11, 12], none, 0⟩, ⟨"memX_1", .int 2, 20, [21, 22], none, 0⟩]

/-- A fifo of their base name, with another element type. -/
def stray : List (ObjectFifoCreateOp ℕ ℕ) := [⟨"memX_9", .int 2, 30, [31, 32], none, 1⟩]

/-- What closes their cycles, which trip twice. -/
def outputs : List (ObjectFifoCreateOp ℕ ℕ) :=
  [⟨"memC0", .int 2, 11, [10], some 2, 2⟩, ⟨"memC1", .int 2, 21, [20], some 2, 2⟩,
    ⟨"memC9", .int 2, 31, [30], some 2, 2⟩]

/-- A stray name that is declared first owns the base, and keeps the halves apart. -/
theorem stray_first_accepted :
    (DeviceOp.mk (halves ++ stray ++ outputs) (by decide)).Rejected ∧
      ¬ (DeviceOp.mk (stray ++ halves ++ outputs) (by decide)).Rejected ∧
      (stray ++ halves ++ outputs).Perm (halves ++ stray ++ outputs) := by
  refine ⟨fun h => ?_, fun h => h rfl, List.perm_append_comm.append_right _⟩
  have herror : (runOnOperation (DeviceOp.mk (halves ++ stray ++ outputs) (by decide))).isOk =
      false := by decide
  rw [h] at herror
  cases herror

end MlirAie.Liveness
