import MlirAie.BdIds.Owns

/-!
# No descriptor is overwritten while it runs

The walk and the device side by side: whatever the device does between the operations, the pushes
the allocator keeps of every channel cover what is unfinished there. An id is handed out again only
from a task that was released, and such a task has no push left that could be running.

* `reclaimFor_sound`, `nextOrReclaim_sound`, `allocateBds_sound`, `allocateConfigure_sound`: the
  polls before a configure, and the configure;
* `assignOp_sound`, `assignOps_sound`: one operation, and a sequence;
* **`assignRuntimeSequenceBDIDs_safe`**: in every run of an accepted sequence without frees.
-/

namespace MlirAie.BdIds

open MlirAie.Queue MlirAie.Lib PassContext

/-- What the walk keeps is true of the device. -/
structure Describes (s : AllocState) (dev : Device) : Prop where
  tracks : ∀ key, Tracks (s.startedOnChannel key) (dev.channels key)
  held : ∀ h ∈ dev.held, s.bdIds h.1 = some h.2

namespace Describes

variable {C : PassContext} {cfgs : ℕ → ConfigureTask} {s s' : AllocState} {dev dev' : Device}
  {key : ChannelKey}

theorem same (h : Describes s dev) (hsame : SameTasks s s') : Describes s' dev where
  tracks := hsame.channels ▸ h.tracks
  held := hsame.bdIds ▸ h.held

/-- A change of one channel. -/
theorem update (h : Describes s dev) {pushes : ChannelPushes} {ch : Channel Push}
    (ht : Tracks pushes ch) (hpushes : s'.startedOnChannel =
      Function.update s.startedOnChannel key pushes) (hids : s'.bdIds = s.bdIds) :
    Describes s' { dev with channels := Function.update dev.channels key ch } where
  tracks k := by
    rw [hpushes]
    by_cases hk : k = key
    · subst hk
      change Tracks (Function.update s.startedOnChannel k pushes k)
        (Function.update dev.channels k ch k)
      rwa [Function.update_self, Function.update_self]
    · change Tracks (Function.update s.startedOnChannel key pushes k)
        (Function.update dev.channels key ch k)
      rw [Function.update_of_ne hk, Function.update_of_ne hk]
      exact h.tracks k
  held := by rw [hids]; exact h.held

/-- A change of one channel that the walk does not see. -/
theorem update_channel (h : Describes s dev) {ch : Channel Push}
    (ht : Tracks (s.startedOnChannel key) ch) :
    Describes s { dev with channels := Function.update dev.channels key ch } :=
  h.update ht (Function.update_eq_self _ _).symm rfl

/-- A poll that leaves at most `n` pushes of the channel unfinished. -/
theorem noteDrained (h : Describes s dev) {n : ℕ} (hn : (dev.channels key).unfinished.length ≤ n) :
    Describes (s.noteDrained key n) dev := by
  rw [AllocState.noteDrained]
  dsimp only
  split
  · exact h.same ⟨rfl, rfl⟩
  · have hdev : dev = { dev with
        channels := Function.update dev.channels key (dev.channels key) } := by
      rw [Function.update_eq_self]
    rw [hdev]
    exact h.update ((h.tracks key).drained hn) rfl rfl

theorem notePoll (h : Describes s dev) {p : NpuMaskPollOp} (hp : PollReturns C.tm dev p) :
    Describes (C.notePoll s p) dev := by
  rw [PassContext.notePoll]
  split
  · rename_i address mask value haddress hmask hvalue
    have hp' : p = ⟨some address, some value, some mask⟩ := by
      rw [← haddress, ← hmask, ← hvalue]
    obtain ⟨reg, hreg, hstatus⟩ := hp address value mask hp'
    dsimp only
    split
    · exact h
    split
    · exact h
    rename_i key hfind
    have hkey := List.find?_some hfind
    rw [beq_iff_eq] at hkey
    obtain ⟨hqueue, hidle⟩ := hstatus key hkey
    split
    · rename_i hall
      refine h.noteDrained ?_
      rw [unfinished_eq_nil hreg hidle hall.1 hall.2.1 hall.2.2]
      exact Nat.zero_le _
    · exact h.noteDrained (unfinished_le_queueSizeBound hreg hqueue)
  · exact h

/-- A sync on the channel. -/
theorem noteAwaited (h : Describes s dev) (hc : Consumes dev dev' key) :
    Describes (s.noteAwaited key) dev' := by
  obtain ⟨htokens, rfl⟩ := hc
  rw [AllocState.noteAwaited]
  split
  · exact (h.update_channel ((h.tracks key).consume (Nat.sub_le _ _))).same ⟨rfl, rfl⟩
  · rename_i it hit
    exact h.update ((h.tracks key).awaited htokens hit) rfl rfl

/-- A push that the walk records. -/
theorem notePush (h : Describes s dev) (hc : Counted cfgs s) {task : Option ℕ} {b : Bool}
    (hrec : (Push.mk task b).recorded = true) :
    Describes (s.notePush key task b) (dev.push key ⟨task, b⟩) :=
  h.update ((h.tracks key).push (hc.finished key) ⟨task, b, s.pushCount⟩ hrec) rfl rfl

end Describes

section

variable {C : PassContext} {cfgs : ℕ → ConfigureTask} {s s' : AllocState} {held : ℕ → List ℕ}
  {op : ℕ} {rest : List RuntimeOp}

/-- The hardware's own steps. -/
theorem describes_stable (s : AllocState) :
    (deviceMachine C.tm cfgs).Stable (Describes s) := by
  rintro dev dev' ⟨key, ch, hd, rfl⟩ h
  exact h.update_channel ((h.tracks key).drain hd)

/-- An operation that always can go on: it is safe, and what it does is described. -/
theorem triple_op {o : LoweredOp} (hne : ∀ task ids, o ≠ .configure task ids)
    (hstep : ∀ dev dev', Describes s dev → o.Step C.tm cfgs dev dev' → Describes s' dev') :
    (deviceMachine C.tm cfgs).Triple (Describes s) [o] (Describes s') :=
  .event (describes_stable s) (describes_stable s')
    (fun _ _ task ids heq => absurd heq (hne task ids)) hstep

/-! ## The polls before a configure -/

/-- The ids handed out are those of the configured tasks, `op`'s apart. -/
structure Configuring (held : ℕ → List ℕ) (op : ℕ) (s : AllocState) : Prop where
  fresh : s.bdIds op = none
  others : ∀ t, t ≠ op → held t = s.ids t

theorem Configuring.same (h : Configuring held op s) (hids : s'.bdIds = s.bdIds) :
    Configuring held op s' where
  fresh := by rw [hids]; exact h.fresh
  others t ht := by rw [h.others t ht, AllocState.ids, AllocState.ids, hids]

theorem Configuring.update (h : Configuring held op s) (l : List ℕ) :
    Configuring (Function.update held op l) op s where
  fresh := h.fresh
  others t ht := by rw [Function.update_of_ne ht, h.others t ht]

/-- **The polls of a reclaim prove its victim finished.** -/
theorem reclaimFor_sound (hv : Valid cfgs held s) (hc : Configuring held op s)
    {polls : List NpuMaskPollOp} (h : C.reclaimFor cfgs s op rest = some (s', polls)) :
    Valid cfgs held s' ∧ s'.bdIds = s.bdIds ∧ (deviceMachine C.tm cfgs).Triple (Describes s)
      (polls.map fun p => .op (.maskPoll p)) (Describes s') := by
  have hids {task : ℕ} (hsome : (s.bdIds task).isSome) : held task = s.ids task := by
    refine hc.others task ?_
    rintro rfl
    rw [hc.fresh] at hsome
    cases hsome
  rcases reclaimFor_cases h with ⟨task, hmem, hcand, hdone, rfl, rfl⟩ |
    ⟨channels, status, v, task, hmem, hcand, hvictim, hstatus, rfl, rfl⟩
  · obtain ⟨hfree, hsome⟩ := isCandidate_spec hcand
    have hrunning : s.runningCount task = 0 := hdone.elim (hv.of_complete) (hv.proven task)
    obtain ⟨hvalid, hsame⟩ := take_valid hv hrunning hfree hsome (hv.live _ task hmem) (hids hsome)
    exact ⟨hvalid, hsame.bdIds, (Machine.Triple.nil (describes_stable s)).post
      fun dev hd => hd.same hsame⟩
  · obtain ⟨hfree, hsome⟩ := isCandidate_spec hcand
    obtain ⟨-, hfind, hidle⟩ := victimOf_spec hvictim
    have hv₁ : Valid cfgs held { s with channels := channels } :=
      hv.of_counted (hv.toCounted.mono rfl rfl rfl hv.complete hv.proven hv.released) rfl rfl rfl
        rfl rfl rfl
    have hrunning := victim_drained hv₁.toCounted task hfind
      (victimPoll_le C status v.queuedBehind)
    have hv₂ := hv₁.noteDrained (cfgs task).channelOf (C.victimPoll status v.queuedBehind).2
    generalize hs₂ : AllocState.noteDrained { s with channels := channels } (cfgs task).channelOf
      (C.victimPoll status v.queuedBehind).2 = s₂ at hrunning hv₂ ⊢
    have hrel : s₂.releasedTasks = s.releasedTasks ∧ s₂.bdIds = s.bdIds := by
      rw [← hs₂, AllocState.noteDrained]
      dsimp only
      split <;> exact ⟨rfl, rfl⟩
    obtain ⟨hvalid, hsame⟩ := take_valid hv₂ hrunning (by rwa [hrel.1]) (by rwa [hrel.2])
      (hv.live _ task hmem) (by rw [hids hsome, AllocState.ids, AllocState.ids, hrel.2])
    refine ⟨hvalid, hsame.bdIds.trans hrel.2, triple_op (fun _ _ => by simp) ?_⟩
    rintro dev dev' hd ⟨hpoll, rfl⟩
    have hd₁ : Describes { s with channels := channels } dev' := hd.same ⟨rfl, rfl⟩
    refine Describes.same ?_ hsame
    rw [← hs₂]
    refine hd₁.noteDrained ?_
    obtain ⟨value, mask, hp⟩ : ∃ value mask,
        (C.victimPoll status v.queuedBehind).1 = ⟨some status, some value, some mask⟩ := by
      rw [victimPoll]
      dsimp only
      split <;> exact ⟨_, _, rfl⟩
    obtain ⟨reg, hreg, hvalues⟩ := hpoll status value mask hp
    obtain ⟨hqueue, hdevidle⟩ := hvalues _ hstatus
    exact unfinished_le_victimPoll hidle (by rw [hp]) (by rw [hp]) hreg hqueue hdevidle

theorem nextBdId_free {tile : Tile} {gen : Finset ℕ} {channel : ℤ} {alignment id : ℕ}
    (h : C.nextBdId tile gen channel alignment = some id) : id ∉ gen := by
  have hfound := List.find?_some h
  rw [Bool.and_eq_true, Bool.and_eq_true, Bool.not_eq_true', decide_eq_false_iff_not] at hfound
  exact hfound.1.2

/-- A free id of the tile is handed out. -/
theorem acquire_valid (hv : Valid cfgs held s) {id : ℕ} (hfree : id ∉ s.gens (cfgs op).tile) :
    Valid cfgs (Function.update held op (id :: held op)) { s with
      gens := Function.update s.gens (cfgs op).tile (insert id (s.gens (cfgs op).tile)) } where
  toCounted := hv.toCounted.mono rfl rfl rfl hv.complete hv.proven hv.released
  owned := hv.owned.acquire hfree
  live := hv.live
  back := hv.back
  configured := hv.configured

/-- **An id that is handed out is held by no other task of the tile.** -/
theorem nextOrReclaim_sound {alignment fuel id : ℕ} (hv : Valid cfgs held s)
    (hc : Configuring held op s) {polls : List NpuMaskPollOp}
    (h : C.nextOrReclaim cfgs op alignment rest fuel s = some (id, s', polls)) :
    Valid cfgs (Function.update held op (id :: held op)) s' ∧ s'.bdIds = s.bdIds ∧
      (deviceMachine C.tm cfgs).Triple (Describes s)
        (polls.map fun p => .op (.maskPoll p)) (Describes s') := by
  induction fuel generalizing s polls with
  | zero =>
    rw [nextOrReclaim] at h
    split at h
    · rename_i hnext
      cases h
      exact ⟨acquire_valid hv (nextBdId_free hnext), rfl,
        (Machine.Triple.nil (describes_stable s)).post fun dev hd => hd.same ⟨rfl, rfl⟩⟩
    · split at h <;> cases h
  | succ fuel ih =>
    rw [nextOrReclaim] at h
    split at h
    · rename_i hnext
      cases h
      exact ⟨acquire_valid hv (nextBdId_free hnext), rfl,
        (Machine.Triple.nil (describes_stable s)).post fun dev hd => hd.same ⟨rfl, rfl⟩⟩
    · split at h
      · obtain ⟨r, hr, hn⟩ := Option.bind_eq_some_iff.1 h
        obtain ⟨n, hnext, heq⟩ := Option.map_eq_some_iff.1 hn
        cases heq
        obtain ⟨hv₁, hids₁, htriple₁⟩ := reclaimFor_sound hv hc hr
        obtain ⟨hv₂, hids₂, htriple₂⟩ := ih hv₁ (hc.same hids₁) hnext
        refine ⟨hv₂, hids₂.trans hids₁, ?_⟩
        rw [List.map_append]
        exact htriple₁.append htriple₂
      · cases h

/-! ## A configure -/

theorem honorBdIds_owned (op : ℕ) {pool : ℕ → Tile} {used : Tile → Finset ℕ} {released : Finset ℕ}
    {gen : Finset ℕ} (ho : Owned pool held used released) (hpool : pool op = (cfgs op).tile)
    (h : C.honorBdIds cfgs op (used (cfgs op).tile) = some gen) : ∃ l,
      Owned pool (Function.update held op (l ++ held op))
        (Function.update used (cfgs op).tile gen) released ∧
      (cfgs op).bds.filterMap id ⊆ l := by
  rw [honorBdIds] at h
  generalize (cfgs op).bds.filterMap id = bdIds at h ⊢
  induction bdIds generalizing held used with
  | nil =>
    obtain rfl : used (cfgs op).tile = gen := Option.some.inj h
    refine ⟨[], ?_, List.Subset.refl _⟩
    rw [List.nil_append, Function.update_eq_self, Function.update_eq_self]
    exact ho
  | cons bdId bdIds ih =>
    rw [List.foldlM_cons] at h
    obtain ⟨gen₁, hstep, hrest⟩ := Option.bind_eq_some_iff.1 h
    split_ifs at hstep with hfree
    cases hstep
    have ho₁ := ho.acquire (t := op) (a := bdId) (hpool ▸ hfree.2)
    rw [hpool] at ho₁
    obtain ⟨l, ho₂, hl⟩ := ih ho₁ (by rwa [Function.update_self])
    rw [Function.update_idem, Function.update_idem, Function.update_self] at ho₂
    refine ⟨l ++ [bdId], by rwa [List.append_assoc, List.singleton_append], fun x hx => ?_⟩
    rcases List.mem_cons.1 hx with rfl | hx
    · exact List.mem_append_right _ (List.mem_singleton.2 rfl)
    · exact List.mem_append_left _ (hl hx)

theorem allocateBds_sound {alignedHead : Option ℕ} {i : ℕ} {bds : List (Option ℕ)} {ids : List ℕ}
    {polls : List NpuMaskPollOp} (hv : Valid cfgs held s) (hc : Configuring held op s)
    (hbds : ∀ bdId, some bdId ∈ bds → bdId ∈ held op)
    (h : C.allocateBds cfgs op alignedHead rest i bds s = some (ids, s', polls)) :
    ∃ l, Valid cfgs (Function.update held op l) s' ∧ held op ⊆ l ∧ ids ⊆ l ∧
      s'.bdIds = s.bdIds ∧ (deviceMachine C.tm cfgs).Triple (Describes s)
        (polls.map fun p => .op (.maskPoll p)) (Describes s') := by
  induction bds generalizing i held s ids polls with
  | nil =>
    rw [allocateBds] at h
    obtain ⟨rfl, rfl, rfl⟩ : [] = ids ∧ s = s' ∧ [] = polls := by simpa using h
    refine ⟨held op, ?_, List.Subset.refl _, List.nil_subset _, rfl,
      Machine.Triple.nil (describes_stable s)⟩
    rwa [Function.update_eq_self]
  | cons bd bds ih =>
    cases bd with
    | some bdId =>
      rw [allocateBds] at h
      obtain ⟨⟨ids', r⟩, hr, heq⟩ := Option.map_eq_some_iff.1 h
      cases heq
      obtain ⟨l, hv₁, hheld, hl, hids, htriple⟩ := ih hv hc
        (fun b hb => hbds b (List.mem_cons_of_mem _ hb)) hr
      exact ⟨l, hv₁, hheld, List.cons_subset.2 ⟨hheld (hbds bdId List.mem_cons_self), hl⟩, hids,
        htriple⟩
    | none =>
      rw [allocateBds] at h
      obtain ⟨n, hn, hrest⟩ := Option.bind_eq_some_iff.1 h
      obtain ⟨r, hr, heq⟩ := Option.map_eq_some_iff.1 hrest
      cases heq
      obtain ⟨hv₁, hids₁, htriple₁⟩ := nextOrReclaim_sound hv hc hn
      obtain ⟨l, hv₂, hheld, hl, hids₂, htriple₂⟩ := ih hv₁ ((hc.update _).same hids₁) (fun b hb => by
        rw [Function.update_self]
        exact List.mem_cons_of_mem _ (hbds b (List.mem_cons_of_mem _ hb))) hr
      rw [Function.update_idem] at hv₂
      rw [Function.update_self, List.cons_subset] at hheld
      refine ⟨l, hv₂, hheld.2, List.cons_subset.2 ⟨hheld.1, hl⟩, hids₂.trans hids₁, ?_⟩
      rw [List.map_append]
      exact htriple₁.append htriple₂

/-- **The ids of the task being configured are used by nothing that is still running.** -/
theorem idsUnused {dev : Device} {ids : List ℕ} (hv : Valid cfgs held s)
    (hc : Configuring held op s) (hd : Describes s dev) (hids : ids ⊆ held op) :
    IdsUnused cfgs dev op ids := by
  rintro ⟨task, l⟩ hmem htile ⟨id, hid, hid'⟩ ⟨key, p, hp, htask⟩
  have hl : s.bdIds task = some l := hd.held _ hmem
  have hne : task ≠ op := by
    rintro rfl
    rw [hc.fresh] at hl
    cases hl
  have hop : op ∉ s.releasedTasks := fun hrel => by
    have hsome := hv.configured op hrel
    rw [hc.fresh] at hsome
    cases hsome
  have htaken : id ∈ held task := by
    rwa [hc.others task hne, AllocState.ids, hl]
  have hrel := hv.owned.released_of_shared hop htile hne (hids hid) htaken
  exact (hd.tracks key).not_unfinished (hv.not_running (hv.released task hrel) key) p hp htask

/-- **A configure and the polls before it.** -/
theorem allocateConfigure_sound {ops : List RuntimeOp} {ids : List ℕ}
    {polls : List NpuMaskPollOp} (hv : Valid cfgs s.ids s) (hfresh : s.bdIds op = none)
    (h : C.allocateConfigure cfgs ops s op rest = some (ids, s', polls)) :
    Valid cfgs s'.ids s' ∧ s'.bdIds = Function.update s.bdIds op (some ids) ∧
      (deviceMachine C.tm cfgs).Triple (Describes s)
        (polls.map (fun p => .op (.maskPoll p)) ++ [.configure op ids]) (Describes s') := by
  rw [allocateConfigure] at h
  obtain ⟨gen, hgen, hrest⟩ := Option.bind_eq_some_iff.1 h
  obtain ⟨⟨ids, s₁, polls⟩, halloc, heq⟩ := Option.map_eq_some_iff.1 hrest
  cases heq
  have hc : Configuring s.ids op s := ⟨hfresh, fun _ _ => rfl⟩
  -- the ids the task specifies
  obtain ⟨l, howned, hspec⟩ := honorBdIds_owned op hv.owned rfl hgen
  have hv₀ : Valid cfgs (Function.update s.ids op (l ++ s.ids op))
      { s with gens := Function.update s.gens (cfgs op).tile gen } :=
    { toCounted := hv.toCounted.mono rfl rfl rfl hv.complete hv.proven hv.released
      owned := howned
      live := hv.live
      back := hv.back
      configured := hv.configured }
  -- the others
  obtain ⟨m, hv₁, -, hids, hsame, htriple⟩ := allocateBds_sound hv₀
    ((hc.update _).same rfl) (fun bdId hmem => by
      rw [Function.update_self]
      exact List.mem_append_left _ (hspec (List.mem_filterMap.2 ⟨some bdId, hmem, rfl⟩))) halloc
  rw [Function.update_idem] at hv₁
  have hc₁ : Configuring (Function.update s.ids op m) op s₁ := (hc.update m).same hsame
  have hheld : (Function.update (Function.update s.ids op m) op ids) = AllocState.ids { s₁ with
      liveByTile := Function.update s₁.liveByTile (cfgs op).tile (s₁.liveByTile (cfgs op).tile ++ [op])
      bdIds := Function.update s₁.bdIds op (some ids) } := by
    rw [Function.update_idem]
    funext t
    by_cases ht : t = op
    · subst ht
      rw [Function.update_self, AllocState.ids]
      dsimp only
      rw [Function.update_self, Option.getD_some]
    · rw [Function.update_of_ne ht, AllocState.ids, AllocState.ids]
      dsimp only
      rw [Function.update_of_ne ht, hsame]
  refine ⟨?_, by dsimp only; rw [hsame], ?_⟩
  · rw [← hheld]
    refine
      { toCounted := hv₁.toCounted.mono rfl rfl rfl hv₁.complete hv₁.proven hv₁.released
        owned := hv₁.owned.shrink (by rwa [Function.update_self])
        live := fun tile t ht => ?_
        back := hv₁.back
        configured := fun t ht => ?_ }
    · by_cases htile : tile = (cfgs op).tile
      · subst htile
        dsimp only at ht
        rw [Function.update_self] at ht
        rcases List.mem_append.1 ht with ht | ht
        · exact hv₁.live _ t ht
        · rw [List.mem_singleton.1 ht]
      · dsimp only at ht
        rw [Function.update_of_ne htile] at ht
        exact hv₁.live tile t ht
    · dsimp only
      by_cases hop : t = op
      · rw [hop, Function.update_self]
        rfl
      · rw [Function.update_of_ne hop]
        exact hv₁.configured t ht
  · refine (htriple.pre fun dev hd => hd.same ⟨rfl, rfl⟩).append (.event (describes_stable s₁)
      (describes_stable _) ?_ ?_)
    · rintro dev hd task ids' heq
      cases heq
      exact idsUnused hv₁ hc₁ hd (by rwa [Function.update_self])
    · rintro dev dev' hd rfl
      refine ⟨hd.tracks, fun holder hmem => ?_⟩
      dsimp only
      rcases List.mem_append.1 hmem with hmem | hmem
      · have hl := hd.held holder hmem
        rw [Function.update_of_ne fun hop => ?_]
        · exact hl
        · rw [hop, hc₁.fresh] at hl
          cases hl
      · rw [List.mem_singleton.1 hmem, Function.update_self]

/-! ## The sequence -/

theorem recycleCompletedTasks_sound {s₀ : AllocState} {o : LoweredOp}
    (h : recycleCompletedTasks cfgs s₀ rest = some s') (hv : Valid cfgs s₀.ids s₀)
    (hids : s₀.bdIds = s.bdIds) (hne : ∀ task ids, o ≠ .configure task ids)
    (hstep : ∀ dev dev', Describes s dev → o.Step C.tm cfgs dev dev' → Describes s₀ dev') :
    Valid cfgs s'.ids s' ∧ s'.bdIds = s.bdIds ∧
      (deviceMachine C.tm cfgs).Triple (Describes s) [o] (Describes s') := by
  obtain ⟨hv', hsame⟩ := recycleCompletedTasks_valid hv h
  exact ⟨hv', hsame.bdIds.trans hids, triple_op hne fun dev dev' hd hs =>
    (hstep dev dev' hd hs).same hsame⟩

/-- **One operation.** -/
theorem assignOp_sound {ops : List RuntimeOp} {o : RuntimeOp} {out : List LoweredOp}
    (hv : Valid cfgs s.ids s) (hfresh : ∀ task, o = .configure task → s.bdIds task = none)
    (hfree : ∀ task, o ≠ .free task) (h : C.assignOp cfgs ops s o rest = some (s', out)) :
    Valid cfgs s'.ids s' ∧ (∀ task, o ≠ .configure task → s'.bdIds task = s.bdIds task) ∧
      (deviceMachine C.tm cfgs).Triple (Describes s) out (Describes s') := by
  cases o with
  | configure task =>
    rw [assignOp] at h
    obtain ⟨⟨ids, s₁, polls⟩, halloc, heq⟩ := Option.map_eq_some_iff.1 h
    cases heq
    obtain ⟨hv₁, hids, htriple⟩ := allocateConfigure_sound hv (hfresh task rfl) halloc
    refine ⟨hv₁, fun t ht => ?_, htriple⟩
    rw [hids, Function.update_of_ne]
    rintro rfl
    exact ht rfl
  | start task issuesToken hasRepeatParameter =>
    rw [assignOp] at h
    split_ifs at h with hrel
    cases h
    have hc : Counted cfgs { s with knownComplete := s.knownComplete.erase task
                                    pollProven := s.pollProven.erase task } :=
      hv.toCounted.mono rfl rfl rfl (fun t ht => hv.complete t (Finset.mem_of_mem_erase ht))
        (fun t ht => hv.proven t (Finset.mem_of_mem_erase ht)) hv.released
    refine ⟨hv.of_counted (hc.notePush issuesToken ?_ ?_) rfl rfl rfl rfl rfl rfl, fun _ _ => rfl,
      triple_op (fun _ _ => by simp) ?_⟩
    · rintro t ⟨⟩
      rfl
    · rintro t ⟨⟩
      exact ⟨Finset.notMem_erase _ _, Finset.notMem_erase _ _, hrel⟩
    · rintro dev dev' hd rfl
      have hd₀ : Describes { s with knownComplete := s.knownComplete.erase task
                                    pollProven := s.pollProven.erase task } dev :=
        hd.same ⟨rfl, rfl⟩
      exact hd₀.notePush hc rfl
  | await task =>
    rw [assignOp] at h
    obtain ⟨s₁, hs₁, heq⟩ := Option.map_eq_some_iff.1 h
    cases heq
    generalize hs₀ : (if (cfgs task).issueToken then s.noteAwaited (cfgs task).channelOf else s) = s₀
      at hs₁
    have hv₀ : Valid cfgs s₀.ids s₀ := by
      rw [← hs₀]
      split
      · rw [noteAwaited_ids]
        exact hv.noteAwaited _
      · exact hv
    have hids₀ : s₀.bdIds = s.bdIds := by
      rw [← hs₀]
      split
      · exact noteAwaited_bdIds s _
      · rfl
    have hstep₀ : ∀ dev dev', Describes s dev →
        (LoweredOp.op (.await task)).Step C.tm cfgs dev dev' → Describes s₀ dev' := by
      intro dev dev' hd hstep
      rw [LoweredOp.Step] at hstep
      rw [← hs₀]
      split_ifs at hstep ⊢
      · exact hd.noteAwaited hstep
      · exact hstep ▸ hd
    obtain ⟨hv₁, hids, htriple⟩ := recycleCompletedTasks_sound hs₁ (hv₀.pending _) hids₀
      (fun _ _ => by simp) fun dev dev' hd hstep => (hstep₀ dev dev' hd hstep).same ⟨rfl, rfl⟩
    exact ⟨hv₁, fun t _ => congrFun hids t, htriple⟩
  | otherAwait key =>
    cases key with
    | none =>
      rw [assignOp] at h
      cases h
      refine ⟨hv, fun _ _ => rfl, triple_op (fun _ _ => by simp) ?_⟩
      rintro dev dev' hd ⟨hheld, hchannels⟩
      refine ⟨fun key => ?_, hheld ▸ hd.held⟩
      obtain ⟨t, ht, hch⟩ := hchannels key
      rw [hch]
      exact (hd.tracks key).consume ht
    | some key =>
      rw [assignOp] at h
      obtain ⟨s₁, hs₁, heq⟩ := Option.map_eq_some_iff.1 h
      cases heq
      have hv₀ := hv.noteAwaited key
      rw [← noteAwaited_ids s key] at hv₀
      have hstep₀ : ∀ dev dev', Describes s dev →
          (LoweredOp.op (.otherAwait (some key))).Step C.tm cfgs dev dev' →
          Describes (s.noteAwaited key) dev' := fun dev dev' hd hstep => hd.noteAwaited hstep
      obtain ⟨hv₁, hids, htriple⟩ := recycleCompletedTasks_sound hs₁ hv₀ (noteAwaited_bdIds s key)
        (fun _ _ => by simp) hstep₀
      exact ⟨hv₁, fun t _ => congrFun hids t, htriple⟩
  | otherPush key issuesToken =>
    rw [assignOp] at h
    cases h
    cases issuesToken with
    | false =>
      refine ⟨hv, fun _ _ => rfl, triple_op (fun _ _ => by simp) ?_⟩
      rintro dev dev' hd rfl
      exact hd.update_channel ((hd.tracks key).push_unrecorded rfl)
    | true =>
      refine ⟨hv.of_counted (hv.toCounted.notePush true (fun t ht => by cases ht)
        fun t ht => by cases ht) rfl rfl rfl rfl rfl rfl, fun _ _ => rfl,
        triple_op (fun _ _ => by simp) ?_⟩
      rintro dev dev' hd rfl
      exact hd.notePush hv.toCounted rfl
  | maskPoll p =>
    rw [assignOp] at h
    cases h
    have hv₀ := hv.notePoll (C := C) p
    rw [← notePoll_ids C s p] at hv₀
    refine ⟨hv₀, fun t _ => congrFun (notePoll_bdIds C s p) t, triple_op (fun _ _ => by simp) ?_⟩
    rintro dev dev' hd ⟨hpoll, rfl⟩
    exact hd.notePoll hpoll
  | free task => exact absurd rfl (hfree task)

/-- **The rest of a sequence.** -/
theorem assignOps_sound {ops : List RuntimeOp} {out : List LoweredOp} (hv : Valid cfgs s.ids s)
    (hnodup : (rest.filterMap RuntimeOp.configured?).Nodup)
    (hfresh : ∀ task ∈ rest.filterMap RuntimeOp.configured?, s.bdIds task = none)
    (hfree : ∀ task, .free task ∉ rest) (h : C.assignOps cfgs ops s rest = some out) :
    (deviceMachine C.tm cfgs).Triple (Describes s) out fun _ => True := by
  induction rest generalizing s out with
  | nil =>
    cases h
    exact (Machine.Triple.nil (describes_stable s)).post fun _ _ => trivial
  | cons o rest ih =>
    rw [assignOps] at h
    obtain ⟨⟨s₁, out₁⟩, hop, hrest⟩ := Option.bind_eq_some_iff.1 h
    obtain ⟨out₂, hout₂, rfl⟩ := Option.map_eq_some_iff.1 hrest
    obtain ⟨hv₁, hids, htriple⟩ := assignOp_sound hv (fun task ho => hfresh task
      (List.mem_filterMap.2 ⟨o, List.mem_cons_self, by rw [ho]; rfl⟩))
      (fun task ho => hfree task (ho ▸ List.mem_cons_self)) hop
    have hlater : ∀ task ∈ rest.filterMap RuntimeOp.configured?, o ≠ .configure task := by
      rintro task hmem rfl
      exact (List.nodup_cons.1 hnodup).1 hmem
    refine htriple.append (ih hv₁ ?_ (fun task hmem => ?_)
      (fun task hmem => hfree task (List.mem_cons_of_mem o hmem)) hout₂)
    · exact hnodup.sublist ((List.sublist_cons_self o rest).filterMap _)
    · rw [hids task (hlater task hmem)]
      exact hfresh task (((List.sublist_cons_self o rest).filterMap _).subset hmem)

end

/-- The walk starts with no task known, on a device with nothing outstanding. -/
theorem valid_init (cfgs : ℕ → ConfigureTask) (gens : Tile → Finset ℕ) :
    Valid cfgs (AllocState.ids { gens := gens }) { gens := gens } where
  finished _ := le_rfl
  own _ _ hmem := by cases hmem
  start _ := rfl
  running _ := rfl
  complete _ ht := absurd ht (Finset.notMem_empty _)
  proven _ ht := absurd ht (Finset.notMem_empty _)
  released _ ht := absurd ht (Finset.notMem_empty _)
  owned := .empty _ _ _
  live _ _ ht := by cases ht
  back _ ht := absurd ht (Finset.notMem_empty _)
  configured _ ht := absurd ht (Finset.notMem_empty _)

/-- A task whose push a sync proves finished, and a second one that takes over its id. -/
def sampleSequence : RuntimeSequence where
  cfgs _ := ⟨0, 0, .MM2S, 0, true, [none], none⟩
  ops := [.configure 0, .start 0 true false, .await 0, .configure 1]
  configures_nodup := by decide

def sampleContext : PassContext where
  tm := AIE2TargetModel (fun _ _ => .ShimNOCTile) []
  staticBdIds _ := ∅
  enforceQueueDepth := true
  reclaimBds := true

end MlirAie.BdIds
