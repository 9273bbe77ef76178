import MlirAie.Placer.Design

/-!
# What a fifo is charged

* `chargesAt`: what a list of charges adds on a tile;
* **`addFifoContribution_sub`**: what is taken away, the remembered tile being the one in use;
* **`addFifoContribution_add`**: what is added, for some choice of the tiles.
-/

namespace MlirAie.Placer

@[grind =] def chargesAt (charges : List (TileID × ℤ)) (t : TileID) : ℤ :=
  ((charges.filter fun c => c.1 = t).map Prod.snd).sum

theorem chargesAt_append (cs cs' : List (TileID × ℤ)) (t : TileID) :
    chargesAt (cs ++ cs') t = chargesAt cs t + chargesAt cs' t := by
  unfold chargesAt
  rw [List.filter_append, List.map_append, List.sum_append]

theorem chargesAt_cons (c : TileID × ℤ) (cs : List (TileID × ℤ)) (t : TileID) :
    chargesAt (c :: cs) t = (if c.1 = t then c.2 else 0) + chargesAt cs t := by
  unfold chargesAt
  by_cases h : c.1 = t
  · rw [List.filter_cons_of_pos (by simpa using h), if_pos h, List.map_cons, List.sum_cons]
  · rw [List.filter_cons_of_neg (by simpa using h), if_neg h, zero_add]

theorem addCharges_apply (sign : ℤ) (charges : List (TileID × ℤ)) (mem : TileID → ℤ)
    (t : TileID) : addCharges sign charges mem t = mem t + sign * chargesAt charges t := by
  unfold addCharges
  induction charges generalizing mem with
  | nil => simp [chargesAt]
  | cons c charges ih =>
    rw [List.foldl_cons, ih, chargesAt_cons]
    by_cases h : c.1 = t
    · subst h
      rw [Function.update_self, if_pos rfl]
      ring
    · rw [Function.update_of_ne (Ne.symm h), if_neg h, zero_add]

namespace Device

variable (d : Device)

/-- The charges of some consumers, one after the other, where `chosen` says for each of them which
tile holds the objects that it shares with the producer. -/
def chargesFrom (fb : FifoBufferInfo) (delegatePos : Option TileID) (chosen : ℕ → TileID) :
    List Connection → Bool → List (TileID × ℤ)
  | [], _ => []
  | c :: l, prodCharged =>
    let charges := d.memCharges fb delegatePos c (chosen c.ci) prodCharged
    charges.1 ++ chargesFrom fb delegatePos chosen l charges.2

/-- **The contribution of a fifo** to the memory in use under a choice of its tiles. -/
def fifoCharges (placement : Placement) (fb : FifoBufferInfo) (chosen : ℕ → TileID) :
    List (TileID × ℤ) :=
  d.chargesFrom fb (positionOf placement fb.delegate) chosen (placedConnections placement fb) false

/-- The consumers whose objects could be held at either end. -/
def twoWay (placement : Placement) (fb : FifoBufferInfo) : List Connection :=
  (placedConnections placement fb).filter
    (d.choosesShared fb (positionOf placement fb.delegate))

/-- Each chosen tile is that of the producer or that of the consumer. -/
def ValidChoice (placement : Placement) (fb : FifoBufferInfo) (chosen : ℕ → TileID) : Prop :=
  ∀ c ∈ d.twoWay placement fb, chosen c.ci = c.prodPos ∨ chosen c.ci = c.consPos

def Remembered (placement : Placement) (fifoIdx : ℕ) (fb : FifoBufferInfo) (chosen : ℕ → TileID)
    (dest : ℕ → Option TileID) : Prop :=
  fb.consumers.length = 1 → ∀ c ∈ d.twoWay placement fb, dest fifoIdx = some (chosen c.ci)

variable {d} {fb : FifoBufferInfo} {delegatePos : Option TileID} {sign : ℤ} {fifoIdx : ℕ}

/-! ## The choice matters where both ends reach each other -/

theorem memCharges_congr {c : Connection} {chosen chosen' : TileID} {prodCharged : Bool}
    (h : d.choosesShared fb delegatePos c = true → chosen = chosen') :
    d.memCharges fb delegatePos c chosen prodCharged =
      d.memCharges fb delegatePos c chosen' prodCharged := by
  by_cases hchoose : d.choosesShared fb delegatePos c = true
  · rw [h hchoose]
  unfold memCharges
  by_cases hpos : c.prodPos = c.consPos
  · simp only [if_pos hpos]
  by_cases hshared : d.isSharedMem fb c = true
  · have hbuf : d.bufTile delegatePos c chosen = d.bufTile delegatePos c chosen' := by
      unfold bufTile
      cases delegatePos with
      | some pos => rfl
      | none =>
        have hone : ¬(d.rightShared c && d.leftShared c) = true := by
          intro hboth
          refine hchoose ?_
          unfold choosesShared
          simp only [hshared, Option.isNone_none, Bool.and_true, Bool.and_eq_true]
          rw [Bool.and_eq_true] at hboth
          exact ⟨⟨by simpa using hpos, hboth.1⟩, hboth.2⟩
        simp only [if_neg hone]
    simp only [if_neg hpos, if_pos hshared, hbuf]
  · simp only [if_neg hpos, if_neg hshared]

theorem chargesFrom_congr {chosen chosen' : ℕ → TileID} {l : List Connection} {prodCharged : Bool}
    (h : ∀ c ∈ l, d.choosesShared fb delegatePos c = true → chosen c.ci = chosen' c.ci) :
    d.chargesFrom fb delegatePos chosen l prodCharged =
      d.chargesFrom fb delegatePos chosen' l prodCharged := by
  induction l generalizing prodCharged with
  | nil => rfl
  | cons c l ih =>
    unfold chargesFrom
    rw [memCharges_congr (h c List.mem_cons_self)]
    exact congrArg _ (ih fun c' hc' => h c' (List.mem_cons_of_mem _ hc'))

theorem fifoCharges_congr {placement : Placement} {chosen chosen' : ℕ → TileID}
    (h : ∀ c ∈ d.twoWay placement fb, chosen c.ci = chosen' c.ci) :
    d.fifoCharges placement fb chosen = d.fifoCharges placement fb chosen' :=
  chargesFrom_congr fun c hc hchoose => h c (List.mem_filter.2 ⟨hc, hchoose⟩)

/-! ## One consumer after the other -/

theorem addConsumer_mem (r : Charging) (c : Connection) (t : TileID) :
    (d.addConsumer fifoIdx fb delegatePos sign r c).usage.mem t = r.usage.mem t + sign *
      chargesAt (d.memCharges fb delegatePos c (chooseShared fifoIdx c sign r.usage)
        r.prodCharged).1 t :=
  addCharges_apply ..

theorem addConsumer_dest_of_ne (r : Charging) (c : Connection) {fi : ℕ} (hne : fi ≠ fifoIdx) :
    (d.addConsumer fifoIdx fb delegatePos sign r c).usage.dest fi = r.usage.dest fi := by
  show d.noteShared fifoIdx fb delegatePos c sign r.usage fi = _
  unfold noteShared
  split_ifs
  · exact Function.update_of_ne hne ..
  · rfl

theorem addConsumer_dest_sub (r : Charging) (c : Connection) :
    (d.addConsumer fifoIdx fb delegatePos (-1) r c).usage.dest = r.usage.dest := by
  show d.noteShared fifoIdx fb delegatePos c (-1) r.usage = _
  unfold noteShared
  rw [if_neg (by simp)]

theorem foldl_addConsumer_dest_of_ne (l : List Connection) (r : Charging) {fi : ℕ}
    (hne : fi ≠ fifoIdx) :
    (l.foldl (d.addConsumer fifoIdx fb delegatePos sign) r).usage.dest fi = r.usage.dest fi := by
  induction l generalizing r with
  | nil => rfl
  | cons c l ih => rw [List.foldl_cons, ih, addConsumer_dest_of_ne r c hne]

theorem foldl_addConsumer_sub {chosen : ℕ → TileID} (l : List Connection) (r : Charging)
    (h : ∀ c ∈ l, d.choosesShared fb delegatePos c = true →
      (r.usage.dest fifoIdx).getD c.prodPos = chosen c.ci) :
    let r' := l.foldl (d.addConsumer fifoIdx fb delegatePos (-1)) r
    r'.usage.dest = r.usage.dest ∧ ∀ t, r'.usage.mem t =
      r.usage.mem t - chargesAt (d.chargesFrom fb delegatePos chosen l r.prodCharged) t := by
  induction l generalizing r with
  | nil => exact ⟨rfl, fun t => (sub_zero _).symm⟩
  | cons c l ih =>
    have hdest := @addConsumer_dest_sub d fb delegatePos fifoIdx r c
    obtain ⟨hdest', hmem⟩ := ih (d.addConsumer fifoIdx fb delegatePos (-1) r c) (by
      rw [hdest]
      exact fun c' hc' => h c' (List.mem_cons_of_mem _ hc'))
    refine ⟨hdest'.trans hdest, fun t => ?_⟩
    have hcongr := @memCharges_congr d fb delegatePos c (chooseShared fifoIdx c (-1) r.usage)
      (chosen c.ci) r.prodCharged fun hchoose => by
        rw [← h c List.mem_cons_self hchoose]
        exact if_neg (by decide)
    have hcharged : (d.addConsumer fifoIdx fb delegatePos (-1) r c).prodCharged =
        (d.memCharges fb delegatePos c (chosen c.ci) r.prodCharged).2 := congrArg Prod.snd hcongr
    rw [List.foldl_cons, hmem, addConsumer_mem, hcongr, hcharged]
    show _ = r.usage.mem t - chargesAt (_ ++ _) t
    rw [chargesAt_append]
    ring

theorem foldl_addConsumer_add (l : List Connection) (hci : (l.map Connection.ci).Nodup)
    (r : Charging) :
    let r' := l.foldl (d.addConsumer fifoIdx fb delegatePos 1) r
    ∃ chosen : ℕ → TileID,
      (∀ c ∈ l, chosen c.ci = c.prodPos ∨ chosen c.ci = c.consPos) ∧
      (∀ c, l = [c] → fb.consumers.length = 1 → d.choosesShared fb delegatePos c = true →
        r'.usage.dest fifoIdx = some (chosen c.ci)) ∧
      ∀ t, r'.usage.mem t =
        r.usage.mem t + chargesAt (d.chargesFrom fb delegatePos chosen l r.prodCharged) t := by
  induction l generalizing r with
  | nil => exact ⟨fun _ => ⟨0, 0⟩, by simp, by simp, fun t => (add_zero _).symm⟩
  | cons c l ih =>
    rw [List.map_cons, List.nodup_cons] at hci
    obtain ⟨chosen, hvalid, -, hmem⟩ := ih hci.2 (d.addConsumer fifoIdx fb delegatePos 1 r c)
    have hother : ∀ c' ∈ l, Function.update chosen c.ci (chooseShared fifoIdx c 1 r.usage) c'.ci =
        chosen c'.ci := fun c' hc' =>
      Function.update_of_ne (fun heq => hci.1 (by rw [← heq]; exact List.mem_map_of_mem hc')) ..
    refine ⟨Function.update chosen c.ci (chooseShared fifoIdx c 1 r.usage), ?_, ?_, fun t => ?_⟩
    · intro c' hc'
      rcases List.mem_cons.1 hc' with rfl | hc'
      · rw [Function.update_self]
        unfold chooseShared
        rw [if_pos one_pos]
        split_ifs
        · exact .inl rfl
        · exact .inr rfl
      · rw [hother c' hc']
        exact hvalid c' hc'
    · intro c' heq hone hchoose
      obtain ⟨rfl, rfl⟩ := List.cons.inj heq
      show d.noteShared fifoIdx fb delegatePos c 1 r.usage fifoIdx = _
      unfold noteShared
      rw [if_pos (by simp [hchoose, hone]), Function.update_self, Function.update_self]
    · have hrest := @chargesFrom_congr d fb delegatePos _ _ l
        (d.addConsumer fifoIdx fb delegatePos 1 r c).prodCharged fun c' hc' _ => hother c' hc'
      rw [List.foldl_cons, hmem, addConsumer_mem, ← hrest]
      show _ = r.usage.mem t + chargesAt (_ ++ _) t
      rw [chargesAt_append, Function.update_self]
      show _ + _ = _ + (_ + chargesAt (d.chargesFrom fb delegatePos _ l _) t)
      rw [one_mul, add_assoc]
      rfl

/-! ## The fifo as a whole -/

variable {placement placement' : Placement} {u : Usage}

theorem connections_ci_nodup (prod : ℕ) (prodPos : TileID) (consumers : List ℕ) :
    ((connections placement prod prodPos consumers).map Connection.ci).Nodup := by
  unfold connections
  rw [List.map_filterMap]
  have hsub : (consumers.zipIdx.filterMap fun x => Option.map Connection.ci
      ((placement x.1).map fun consPos => (⟨prod, prodPos, x.1, consPos, x.2⟩ : Connection))).Sublist
        (consumers.zipIdx.map Prod.snd) := by
    generalize consumers.zipIdx = l
    induction l with
    | nil => exact .slnil
    | cons x l ih =>
      rw [List.filterMap_cons, List.map_cons]
      cases placement x.1 with
      | none => exact ih.cons _
      | some consPos => exact ih.cons_cons _
  refine hsub.nodup ?_
  rw [List.zipIdx_map_snd]
  exact List.nodup_range'

theorem placedConnections_ci_nodup :
    ((placedConnections placement fb).map Connection.ci).Nodup := by
  unfold placedConnections
  cases fb.producer with
  | none => exact List.nodup_nil
  | some prod =>
    cases hpos : placement prod with
    | none => simp [hpos]
    | some prodPos =>
      simp only [hpos, Option.bind_some, Option.map_some, Option.getD_some]
      exact connections_ci_nodup ..

theorem addFifoContribution_eq :
    let r := (placedConnections placement fb).foldl
      (d.addConsumer fifoIdx fb (positionOf placement fb.delegate) sign) { usage := u }
    (d.addFifoContribution placement fifoIdx fb sign u).mem = r.usage.mem ∧
      (d.addFifoContribution placement fifoIdx fb sign u).dest = r.usage.dest := by
  unfold addFifoContribution placedConnections
  cases fb.producer with
  | none => exact ⟨rfl, rfl⟩
  | some prod =>
    cases hpos : placement prod with
    | none =>
      simp only [hpos, Option.bind_some, Option.map_none, Option.getD_none]
      exact ⟨rfl, rfl⟩
    | some prodPos =>
      simp only [hpos, Option.bind_some, Option.map_some, Option.getD_some]
      split_ifs
      · exact ⟨rfl, rfl⟩
      · exact ⟨rfl, rfl⟩

theorem addFifoContribution_dest_of_ne {fi : ℕ} (hne : fi ≠ fifoIdx) :
    (d.addFifoContribution placement fifoIdx fb sign u).dest fi = u.dest fi := by
  rw [addFifoContribution_eq.2, foldl_addConsumer_dest_of_ne _ _ hne]

/-- **A fifo is taken away** from the tiles that were chosen for it, where the choice for its only
consumer is remembered, and no consumer of several could use both ends. -/
theorem addFifoContribution_sub {chosen : ℕ → TileID}
    (hrem : d.Remembered placement fifoIdx fb chosen u.dest)
    (hone : d.twoWay placement fb ≠ [] → fb.consumers.length = 1) :
    let u' := d.addFifoContribution placement fifoIdx fb (-1) u
    u'.dest = u.dest ∧
      ∀ t, u'.mem t = u.mem t - chargesAt (d.fifoCharges placement fb chosen) t := by
  obtain ⟨hmem, hdest⟩ := @addFifoContribution_eq d fb (-1) fifoIdx placement u
  simp only [hmem, hdest]
  refine foldl_addConsumer_sub _ { usage := u } fun c hc hchoose => ?_
  have htwo : c ∈ d.twoWay placement fb := List.mem_filter.2 ⟨hc, hchoose⟩
  rw [hrem (hone (List.ne_nil_of_mem htwo)) c htwo]
  rfl

theorem placedConnections_length_le :
    (placedConnections placement fb).length ≤ fb.consumers.length := by
  unfold placedConnections
  cases fb.producer with
  | none => exact Nat.zero_le _
  | some prod =>
    cases hpos : placement prod with
    | none => simp [hpos]
    | some prodPos =>
      simp only [hpos, Option.bind_some, Option.map_some, Option.getD_some]
      refine (List.length_filterMap_le ..).trans ?_
      rw [List.length_zipIdx]

/-- **A fifo is added** under some choice of its tiles, which is remembered for one consumer. -/
theorem addFifoContribution_add :
    let u' := d.addFifoContribution placement fifoIdx fb 1 u
    ∃ chosen, d.ValidChoice placement fb chosen ∧ d.Remembered placement fifoIdx fb chosen u'.dest ∧
      ∀ t, u'.mem t = u.mem t + chargesAt (d.fifoCharges placement fb chosen) t := by
  obtain ⟨hmem, hdest⟩ := @addFifoContribution_eq d fb 1 fifoIdx placement u
  simp only [hmem, hdest]
  obtain ⟨chosen, hvalid, hrem, hadd⟩ := @foldl_addConsumer_add d fb
    (positionOf placement fb.delegate) fifoIdx (placedConnections placement fb)
    placedConnections_ci_nodup { usage := u }
  refine ⟨chosen, fun c hc => hvalid c (List.mem_filter.1 hc).1, fun hone c hc => ?_, hadd⟩
  obtain ⟨hc, hchoose⟩ := List.mem_filter.1 hc
  refine hrem c ?_ hone hchoose
  have hlen := @placedConnections_length_le fb placement
  cases hl : placedConnections placement fb with
  | nil => rw [hl] at hc; cases hc
  | cons c' l =>
    rw [hl, List.length_cons, hone] at hlen
    obtain rfl : l = [] := List.length_eq_zero_iff.1 (by omega)
    rw [hl] at hc
    rw [List.mem_singleton.1 hc]

/-! ## What the contribution depends on -/

theorem placedConnections_congr (h : ∀ op ∈ fb.tiles, placement' op = placement op) :
    placedConnections placement' fb = placedConnections placement fb := by
  unfold placedConnections
  cases hprod : fb.producer with
  | none => rfl
  | some prod =>
    have hp : placement' prod = placement prod := h prod (by simp [FifoBufferInfo.tiles, hprod])
    simp only [Option.bind_some, hp]
    congr 2
    funext prodPos
    refine List.filterMap_congr fun x hx => ?_
    rw [h x.1 (by
      have := (List.mem_zipIdx' hx).2
      simp only [FifoBufferInfo.tiles, List.mem_append]
      exact .inl (.inr (this ▸ List.getElem_mem _)))]

theorem positionOf_congr (h : ∀ op ∈ fb.tiles, placement' op = placement op) :
    positionOf placement' fb.delegate = positionOf placement fb.delegate := by
  cases hdelegate : fb.delegate with
  | none => rfl
  | some tile =>
    cases tile with
    | placed pos => rfl
    | logical op => exact h op (by simp [FifoBufferInfo.tiles, hdelegate, Tile.logical?])

/-- A fifo none of whose tiles moves keeps its connections and what it is charged. -/
theorem unmoved (h : ∀ op ∈ fb.tiles, placement' op = placement op) :
    d.channels placement' fb = d.channels placement fb ∧
      d.fifoCharges placement' fb = d.fifoCharges placement fb ∧
      d.twoWay placement' fb = d.twoWay placement fb := by
  unfold channels fifoCharges twoWay
  rw [placedConnections_congr h, positionOf_congr h]
  exact ⟨rfl, rfl, rfl⟩

end Device

end MlirAie.Placer
