import MlirAie.Trace.Decode

/-!
# Repeats in a trace

The hardware folds equal commands into a repeat. The converter replays it from what the commands
before have left in its variables.

* **`convertCommandsToJson`**: the begin and end events of the commands of a tile;
* `Fits`: a repeat begins the events that a copy would;
* **`convertCommandsToJson_expand_iff`**: the events are those of the expansion exactly if it does.
-/

namespace MlirAie.Trace

/-! ## Events -/

/-- `"B"`, `"E"` and `"i"`. -/
inductive Phase
  | begins
  | ends
  | instant (pc : ℕ)
deriving DecidableEq

structure TraceEvent where
  name : String
  ts : ℕ
  ph : Phase
  pid : ℕ
  tid : ℕ
deriving DecidableEq

/-- A traced tile: its process, and the name of the event in each slot. -/
structure Tile where
  pid : ℕ
  eventName : ℕ → String

def NUM_EVENTS : ℕ := 8

def EVENT_SYNC_CYCLES : ℕ := 1 <<< 18

/-- The variables of the loop over the commands. -/
structure ConvertState where
  traceEvents : List TraceEvent
  timer : ℕ
  activeEvents : ℕ → Bool
  cycles : ℕ
  multipleList : List ℕ
  event : Option ℕ
  captureIndex : ℕ
  repeated : Option Command

variable (tile : Tile)

/-- What `deactivate_events` ends. -/
def endsNow (multiples : List ℕ) (cycles k : ℕ) : Bool :=
  0 < cycles || cycles = 0 && k ∉ multiples

/-- `deactivate_events`. -/
def deactivateEvents (multiples : List ℕ) (cycles : ℕ) (s : ConvertState) : ConvertState :=
  { s with
    traceEvents := s.traceEvents ++
      ((List.range NUM_EVENTS).filter fun k => endsNow multiples cycles k && s.activeEvents k).map
        fun k => ⟨tile.eventName k, s.timer, .ends, tile.pid, k⟩
    activeEvents := fun k => !endsNow multiples cycles k && s.activeEvents k }

/-- `activate_event`: a slot that is none is a key error, which is passed over. -/
def activateEvent (s : ConvertState) (event : ℕ) : ConvertState :=
  if event < NUM_EVENTS && !s.activeEvents event then
    { s with
      traceEvents := s.traceEvents ++ [⟨tile.eventName event, s.timer, .begins, tile.pid, event⟩]
      activeEvents := Function.update s.activeEvents event true }
  else s

/-- One occurrence of a command: the clock ticks, events end, the cycles pass, events begin. -/
def occur (multiples : List ℕ) (cycles : ℕ) (begun : List ℕ) (s : ConvertState) : ConvertState :=
  let s := deactivateEvents tile multiples cycles { s with timer := s.timer + 1 }
  begun.foldl (activateEvent tile) { s with timer := s.timer + cycles }

def Command.isRepeat : Command → Bool
  | .repeated _ _ => true
  | _ => false

def Command.isEventPC : Command → Bool
  | .eventPC _ _ => true
  | _ => false

/-- The values of the keys that `"event"` is in. -/
def Command.eventKeys : Command → List ℕ
  | .single _ event _ => [event]
  | .multiple _ events _ => events
  | .eventPC events _ => events
  | _ => []

/-- One repeat, from the variables; the keys looked at are those of the repeat. -/
def repeatOnce (c : Command) (s : ConvertState) : ConvertState :=
  occur tile s.multipleList s.cycles
    (if 1 < s.multipleList.length then c.eventKeys else s.event.toList) s

def convertBranch (s : ConvertState) (c : Command) : ConvertState :=
  match c with
  | .eventPC events pc =>
    { s with
      traceEvents := s.traceEvents ++ ((List.range NUM_EVENTS).filter (· ∈ events)).map
        fun k => ⟨tile.eventName k, s.captureIndex, .instant pc, tile.pid, k⟩
      captureIndex := s.captureIndex + 1 }
  | .single _ event cycles =>
    occur tile [event] cycles [event]
      { s with event := some event, cycles := cycles, multipleList := [event] }
  | .multiple _ events cycles =>
    occur tile events cycles events { s with cycles := cycles, multipleList := events }
  | .repeated _ repeats =>
    if s.repeated = some .eventSync then
      { s with timer := s.timer + repeats * EVENT_SYNC_CYCLES }
    else if s.cycles = 0 then { s with timer := s.timer + repeats }
    else (repeatOnce tile c)^[repeats] s
  | .eventSync => { s with timer := s.timer + EVENT_SYNC_CYCLES }
  | .start _ => s

/-- One command; a repeat repeats the last that is none. -/
def convertCommand (s : ConvertState) (c : Command) : ConvertState :=
  convertBranch tile (if c.isRepeat then s else { s with repeated := some c }) c

/-- `flatten_repeat_command`. -/
def flattenRepeatCommand : Option Command → List Command → List Command
  | _, [] => []
  | prev, .repeated _ repeats :: commands =>
    prev.elim [] (List.replicate repeats) ++ flattenRepeatCommand prev commands
  | _, c :: commands => c :: flattenRepeatCommand (some c) commands

def initialState : ConvertState := ⟨[], 0, fun _ => false, 0, [], none, 0, none⟩

/-- `convert_commands_to_json` on the commands of one tile. -/
def convertCommandsToJson (commands : List Command) : List TraceEvent :=
  let commands :=
    if commands.any Command.isEventPC then flattenRepeatCommand none commands else commands
  (commands.foldl (convertCommand tile) initialState).traceEvents

/-! ## Expansions -/

/-- The commands with every repeat replaced by copies of the last command that is none. -/
def expand : Option Command → List Command → List Command
  | _, [] => []
  | prev, .repeated _ repeats :: commands =>
    prev.elim [] (List.replicate repeats) ++ expand prev commands
  | _, c :: commands => c :: expand (some c) commands

def Command.isRepeatable : Command → Bool
  | .single _ _ _ => true
  | .multiple _ _ _ => true
  | .eventSync => true
  | _ => false

/-- Commands of an event-time trace, whose repeats repeat singles, multiples and syncs. -/
def RepeatsFollow : Option Command → List Command → Prop
  | _, [] => True
  | prev, .repeated _ _ :: commands =>
    (∃ c, prev = some c ∧ c.isRepeatable = true) ∧ RepeatsFollow prev commands
  | _, c :: commands => c.isEventPC = false ∧ RepeatsFollow (some c) commands

def slots (events : List ℕ) : List ℕ := events.filter (· < NUM_EVENTS)

/-- A repeat of a multiple begins the events of the multiple: it names no event, and no single came
before, or it names the event of the last single. -/
def RepeatFits (events : List ℕ) (last : Option ℕ) : Prop :=
  slots events = slots (if 1 < events.length then [] else last.toList)

/-- The repeat of a command fits; only multiples with cycles may not. -/
def FitsAfter (last : Option ℕ) : Option Command → Prop
  | some (.multiple _ events cycles) => 0 < cycles → RepeatFits events last
  | _ => True

/-- **Each repeat fits** what it repeats. -/
def Fits : Option Command → Option ℕ → List Command → Prop
  | _, _, [] => True
  | prev, last, .repeated _ repeats :: commands =>
    (0 < repeats → FitsAfter last prev) ∧ Fits prev last commands
  | _, _, .single form event cycles :: commands =>
    Fits (some (.single form event cycles)) (some event) commands
  | _, last, c :: commands => Fits (some c) last commands

variable {tile}

/-! ## One occurrence -/

/-- The slots that begin, each when it is first met inactive. -/
def newly : (ℕ → Bool) → List ℕ → List ℕ
  | _, [] => []
  | active, k :: begun =>
    if k < NUM_EVENTS && !active k then k :: newly (Function.update active k true) begun
    else newly active begun

theorem newly_eq_nil {begun : List ℕ} :
    newly (fun _ => false) begun = [] ↔ slots begun = [] := by
  induction begun with
  | nil => simp [newly, slots]
  | cons k begun ih =>
    by_cases h : k < NUM_EVENTS
    · simp [newly, slots, h]
    · simpa [newly, slots, h] using ih

theorem newly_eq_nil_of_active {active : ℕ → Bool} {begun : List ℕ}
    (h : ∀ k ∈ begun, k < NUM_EVENTS → active k = true) : newly active begun = [] := by
  induction begun with
  | nil => rfl
  | cons k begun ih =>
    rw [List.forall_mem_cons] at h
    rw [newly, if_neg (by simpa using h.1), ih h.2]

theorem newly_of_length_le_one {begun : List ℕ} (h : begun.length ≤ 1) :
    newly (fun _ => false) begun = slots begun := by
  match begun, h with
  | [], _ => rfl
  | [k], _ => by_cases hk : k < NUM_EVENTS <;> simp [newly, slots, hk]

theorem foldl_activateEvent (begun : List ℕ) (s : ConvertState) :
    begun.foldl (activateEvent tile) s =
      { s with
        traceEvents := s.traceEvents ++ (newly s.activeEvents begun).map
          fun k => ⟨tile.eventName k, s.timer, .begins, tile.pid, k⟩
        activeEvents := fun k => s.activeEvents k || k < NUM_EVENTS && k ∈ begun } := by
  induction begun generalizing s with
  | nil => simp [newly]
  | cons event begun ih =>
    rw [List.foldl_cons, ih]
    by_cases h : event < NUM_EVENTS && !s.activeEvents event
    · simp only [activateEvent, h, if_true, newly, ConvertState.mk.injEq, List.append_assoc,
        List.map_cons, List.singleton_append, true_and, and_true]
      funext k
      rcases eq_or_ne k event with rfl | hk
      · simp_all
      · simp [hk]
    · simp only [activateEvent, h, newly, ConvertState.mk.injEq, Bool.false_eq_true, if_false,
        true_and, and_true]
      funext k
      rcases eq_or_ne k event with rfl | hk
      · by_cases hk : k < NUM_EVENTS
        · simp_all
        · simp [hk]
      · simp [hk]

theorem foldl_activateEvent_slots (begun : List ℕ) (s : ConvertState) :
    begun.foldl (activateEvent tile) s = (slots begun).foldl (activateEvent tile) s := by
  induction begun generalizing s with
  | nil => rfl
  | cons event begun ih =>
    by_cases h : event < NUM_EVENTS
    · rw [List.foldl_cons, ih, slots, slots, List.filter_cons_of_pos (by simpa using h)]
      rfl
    · have : activateEvent tile s event = s := by simp [activateEvent, h]
      rw [List.foldl_cons, this, ih, slots, slots, List.filter_cons_of_neg (by simpa using h)]

theorem occur_congr {begun begun' : List ℕ} (h : slots begun = slots begun') (multiples : List ℕ)
    (cycles : ℕ) : occur tile multiples cycles begun = occur tile multiples cycles begun' := by
  funext s
  simp only [occur]
  rw [foldl_activateEvent_slots, h, ← foldl_activateEvent_slots]

/-! ## Runs -/

/-- Further on: what is emitted in between is later than the clock was. -/
def Later (s s' : ConvertState) : Prop :=
  s.timer ≤ s'.timer ∧
    ∃ events, s'.traceEvents = s.traceEvents ++ events ∧ ∀ e ∈ events, s.timer < e.ts

theorem Later.refl (s : ConvertState) : Later s s := ⟨le_rfl, [], by simp⟩

theorem Later.trans {s s' s'' : ConvertState} (h : Later s s') (h' : Later s' s'') :
    Later s s'' := by
  obtain ⟨hle, events, heq, hlt⟩ := h
  obtain ⟨hle', events', heq', hlt'⟩ := h'
  refine ⟨hle.trans hle', events ++ events', by rw [heq', heq, List.append_assoc], ?_⟩
  intro e he
  rcases List.mem_append.1 he with he | he
  · exact hlt e he
  · exact hle.trans_lt (hlt' e he)

variable (tile) in
/-- The events an occurrence ends. -/
def ended (multiples : List ℕ) (cycles : ℕ) (s : ConvertState) : List TraceEvent :=
  ((List.range NUM_EVENTS).filter fun k => endsNow multiples cycles k && s.activeEvents k).map
    fun k => ⟨tile.eventName k, s.timer + 1, .ends, tile.pid, k⟩

theorem occur_eq (multiples : List ℕ) (cycles : ℕ) (begun : List ℕ) (s : ConvertState) :
    occur tile multiples cycles begun s =
      { s with
        traceEvents := s.traceEvents ++ ended tile multiples cycles s ++
          (newly (fun k => !endsNow multiples cycles k && s.activeEvents k) begun).map
            fun k => ⟨tile.eventName k, s.timer + 1 + cycles, .begins, tile.pid, k⟩
        timer := s.timer + 1 + cycles
        activeEvents := fun k =>
          !endsNow multiples cycles k && s.activeEvents k || k < NUM_EVENTS && k ∈ begun } := by
  simp only [occur, deactivateEvents, foldl_activateEvent, ended]

theorem later_occur (multiples : List ℕ) (cycles : ℕ) (begun : List ℕ) (s : ConvertState) :
    Later s (occur tile multiples cycles begun s) := by
  rw [occur_eq]
  refine ⟨by simp only; omega, _, List.append_assoc .., ?_⟩
  intro e he
  rcases List.mem_append.1 he with he | he <;> obtain ⟨k, -, rfl⟩ := List.mem_map.1 he
  · exact Nat.lt_succ_self _
  · simp only
    omega

theorem Later.iterate {f : ConvertState → ConvertState} (hf : ∀ s, Later s (f s)) (r : ℕ)
    (s : ConvertState) : Later s (f^[r] s) := by
  induction r generalizing s with
  | zero => exact .refl s
  | succ r ih => exact (hf s).trans (ih (f s))

theorem later_convertCommand {c : Command} (hc : c.isEventPC = false) (s : ConvertState) :
    Later s (convertCommand tile s c) := by
  cases c with
  | start _ => exact ⟨le_rfl, [], by simp [convertCommand, convertBranch, Command.isRepeat]⟩
  | single form event cycles =>
    exact later_occur [event] cycles [event] ⟨s.traceEvents, s.timer, s.activeEvents, cycles,
      [event], some event, s.captureIndex, some (.single form event cycles)⟩
  | multiple form events cycles =>
    exact later_occur events cycles events ⟨s.traceEvents, s.timer, s.activeEvents, cycles,
      events, s.event, s.captureIndex, some (.multiple form events cycles)⟩
  | repeated form repeats =>
    simp only [convertCommand, Command.isRepeat, if_true, convertBranch]
    split
    · exact ⟨Nat.le_add_right .., [], by simp⟩
    · split
      · exact ⟨Nat.le_add_right .., [], by simp⟩
      · exact .iterate (fun s => later_occur _ _ _ s) _ _
  | eventSync =>
    exact ⟨Nat.le_add_right .., [], by simp [convertCommand, convertBranch, Command.isRepeat]⟩
  | eventPC events pc => cases hc

theorem later_foldl {commands : List Command} (h : ∀ c ∈ commands, c.isEventPC = false)
    (s : ConvertState) : Later s (commands.foldl (convertCommand tile) s) := by
  induction commands generalizing s with
  | nil => exact .refl s
  | cons c commands ih =>
    rw [List.forall_mem_cons] at h
    exact (later_convertCommand h.1 s).trans (ih h.2 _)

theorem traceEvents_ne {s t u v : ConvertState} {emitted : List TraceEvent}
    {begun begun' : List ℕ}
    (hs : s.traceEvents = emitted ++ begun.map
      fun k => ⟨tile.eventName k, s.timer, .begins, tile.pid, k⟩)
    (ht : t.traceEvents = emitted ++ begun'.map
      fun k => ⟨tile.eventName k, t.timer, .begins, tile.pid, k⟩)
    (hst : t.timer = s.timer) (hu : Later s u) (hv : Later t v)
    (h : u.traceEvents = v.traceEvents) : begun = begun' := by
  obtain ⟨-, events, hu, hlt⟩ := hu
  obtain ⟨-, events', hv, hlt'⟩ := hv
  rw [hu, hv, hs, ht, hst, List.append_assoc, List.append_assoc, List.append_cancel_left_eq] at h
  have hnow : ∀ (ks : List ℕ) {later : List TraceEvent}, (∀ e ∈ later, s.timer < e.ts) →
      ((ks.map (fun k => (⟨tile.eventName k, s.timer, .begins, tile.pid, k⟩ : TraceEvent)) ++
        later).filter (·.ts = s.timer)).map TraceEvent.tid = ks := by
    intro ks later hlater
    rw [List.filter_append, List.filter_eq_self.2 (by simp), List.filter_eq_nil_iff.2
      (fun e he => by simpa using (hlater e he).ne'), List.append_nil, List.map_map]
    exact List.map_id _
  rw [← hnow begun hlt, h, hnow begun' (hst ▸ hlt')]

/-! ## What a repeat finds -/

section Occur

variable (multiples : List ℕ) (cycles : ℕ) (begun : List ℕ) (s : ConvertState)

@[simp] theorem occur_event : (occur tile multiples cycles begun s).event = s.event := by
  rw [occur_eq]

@[simp] theorem occur_repeated : (occur tile multiples cycles begun s).repeated = s.repeated := by
  rw [occur_eq]

@[simp] theorem occur_cycles : (occur tile multiples cycles begun s).cycles = s.cycles := by
  rw [occur_eq]

@[simp] theorem occur_multipleList :
    (occur tile multiples cycles begun s).multipleList = s.multipleList := by
  rw [occur_eq]

theorem occur_timer : (occur tile multiples cycles begun s).timer = s.timer + 1 + cycles := by
  rw [occur_eq]

theorem occur_traceEvents {cycles : ℕ} (h : 0 < cycles) :
    (occur tile multiples cycles begun s).traceEvents =
      (s.traceEvents ++ ended tile multiples cycles s) ++
        (newly (fun _ => false) begun).map fun k =>
          ⟨tile.eventName k, (occur tile multiples cycles begun s).timer, .begins, tile.pid,
            k⟩ := by
  have hends (k : ℕ) : endsNow multiples cycles k = true := by simp [endsNow, h]
  simp only [occur_eq, hends, Bool.not_true, Bool.false_and]

theorem convertCommand_single (form event : ℕ) :
    convertCommand tile s (.single form event cycles) = occur tile [event] cycles [event]
      ⟨s.traceEvents, s.timer, s.activeEvents, cycles, [event], some event, s.captureIndex,
        some (.single form event cycles)⟩ := rfl

theorem convertCommand_multiple (form : ℕ) (events : List ℕ) :
    convertCommand tile s (.multiple form events cycles) = occur tile events cycles events
      ⟨s.traceEvents, s.timer, s.activeEvents, cycles, events, s.event, s.captureIndex,
        some (.multiple form events cycles)⟩ := rfl

end Occur

/-- The variables stand as a command with these events and cycles left them. -/
structure Stands (events : List ℕ) (cycles : ℕ) (s : ConvertState) : Prop where
  list : s.multipleList = events
  count : s.cycles = cycles
  active : cycles = 0 → ∀ k, s.activeEvents k = (k < NUM_EVENTS && k ∈ events)

/-- The variables a repeat of the command reads. -/
def LeftBy (s : ConvertState) : Command → Prop
  | .single _ event cycles => s.event = some event ∧ Stands [event] cycles s
  | .multiple _ events cycles => Stands events cycles s
  | _ => True

def Command.lastSingle (last : Option ℕ) : Command → Option ℕ
  | .single _ event _ => some event
  | _ => last

/-- The state after the command `prev` and the single of `last`. -/
structure After (prev : Option Command) (last : Option ℕ) (s : ConvertState) : Prop where
  event : s.event = last
  repeated : s.repeated = prev
  slot : ∀ k, s.activeEvents k = true → k < NUM_EVENTS
  left : ∀ c, prev = some c → LeftBy s c

theorem after_initialState : After none none initialState :=
  ⟨rfl, rfl, fun _ h => Bool.noConfusion h, by rintro _ ⟨⟩⟩

theorem occur_slot {multiples begun : List ℕ} {cycles : ℕ} {s : ConvertState}
    (h : ∀ k, s.activeEvents k = true → k < NUM_EVENTS) (k : ℕ)
    (hk : (occur tile multiples cycles begun s).activeEvents k = true) : k < NUM_EVENTS := by
  simp only [occur_eq, Bool.or_eq_true, Bool.and_eq_true, decide_eq_true_eq] at hk
  exact hk.elim (fun hk => h k hk.2) And.left

/-- A command leaves its own variables behind. -/
theorem stands_occur {events : List ℕ} {cycles : ℕ} {s : ConvertState}
    (h : ∀ k, s.activeEvents k = true → k < NUM_EVENTS) (hl : s.multipleList = events)
    (hc : s.cycles = cycles) : Stands events cycles (occur tile events cycles events s) := by
  refine ⟨by simpa using hl, by simpa using hc, ?_⟩
  rintro rfl k
  have hk := h k
  rw [occur_eq, Bool.eq_iff_iff]
  simp only [endsNow, lt_irrefl, decide_false, decide_true, Bool.false_or, Bool.true_and,
    Bool.or_eq_true, Bool.and_eq_true, Bool.not_eq_true', decide_eq_false_iff_not, not_not,
    decide_eq_true_eq]
  tauto

/-- **The variables after a command.** -/
theorem After.convertCommand {prev : Option Command} {last : Option ℕ} {s : ConvertState}
    (h : After prev last s) {c : Command} (hr : c.isRepeat = false) (hp : c.isEventPC = false) :
    After (some c) (c.lastSingle last) (convertCommand tile s c) := by
  cases c with
  | start _ => exact ⟨h.event, rfl, h.slot, by rintro _ ⟨⟩; trivial⟩
  | single form event cycles =>
    rw [convertCommand_single]
    refine ⟨by simp [Command.lastSingle], by simp, occur_slot h.slot, ?_⟩
    rintro _ ⟨⟩
    exact ⟨by simp, stands_occur h.slot rfl rfl⟩
  | multiple form events cycles =>
    rw [convertCommand_multiple]
    refine ⟨by simp [Command.lastSingle, h.event], by simp, occur_slot h.slot, ?_⟩
    rintro _ ⟨⟩
    exact stands_occur h.slot rfl rfl
  | repeated form repeats => cases hr
  | eventSync => exact ⟨h.event, rfl, h.slot, by rintro _ ⟨⟩; trivial⟩
  | eventPC events pc => cases hp

theorem After.copy {c : Command} {last : Option ℕ} {s : ConvertState} (hs : After (some c) last s)
    (hr : c.isRepeat = false) (hp : c.isEventPC = false) (hlast : c.lastSingle last = last) :
    After (some c) last (Trace.convertCommand tile s c) := by
  simpa only [hlast] using hs.convertCommand hr hp

theorem After.copies {c : Command} {last : Option ℕ} {s : ConvertState}
    (hs : After (some c) last s) (hr : c.isRepeat = false) (hp : c.isEventPC = false)
    (hlast : c.lastSingle last = last) (r : ℕ) :
    After (some c) last ((Trace.convertCommand tile · c)^[r] s) := by
  induction r generalizing s with
  | zero => exact hs
  | succ r ih => exact ih (hs.copy hr hp hlast)

/-! ## Repeats and copies -/

/-- Time passes. -/
def tick (cycles : ℕ) (s : ConvertState) : ConvertState := { s with timer := s.timer + cycles }

theorem iterate_tick (cycles r : ℕ) (s : ConvertState) :
    (tick cycles)^[r] s = { s with timer := s.timer + r * cycles } := by
  induction r generalizing s with
  | zero => simp
  | succ r ih =>
    rw [Function.iterate_succ_apply, ih]
    simp only [tick, Nat.succ_mul, Nat.add_assoc]
    rw [Nat.add_comm (r * cycles)]

theorem iterate_congr {P : ConvertState → Prop} {f g : ConvertState → ConvertState}
    (hfg : ∀ s, P s → f s = g s) (hP : ∀ s, P s → P (g s)) (r : ℕ) {s : ConvertState} (h : P s) :
    f^[r] s = g^[r] s := by
  induction r generalizing s with
  | zero => rfl
  | succ r ih => rw [Function.iterate_succ_apply, Function.iterate_succ_apply, hfg s h, ih (hP s h)]

theorem Stands.occur_zero {events : List ℕ} {s : ConvertState} (h : Stands events 0 s) :
    occur tile events 0 events s = tick 1 s := by
  have hstays (k : ℕ) : (!endsNow events 0 k && s.activeEvents k) = s.activeEvents k := by
    by_cases hk : k ∈ events <;> simp [endsNow, h.active rfl, hk]
  have hended : ended tile events 0 s = [] := by
    rw [ended, List.map_eq_nil_iff, List.filter_eq_nil_iff]
    intro k _
    by_cases hk : k ∈ events <;> simp [endsNow, h.active rfl, hk]
  have hnewly : newly s.activeEvents events = [] :=
    newly_eq_nil_of_active fun k hk hlt => by simp [h.active rfl, hk, hlt]
  rw [occur_eq, hended]
  simp only [hstays, hnewly, tick, List.append_nil, List.map_nil, Nat.add_zero]
  congr
  funext k
  simp [h.active rfl]

variable (tile) in
/-- What a repeat of a command reads, and what a copy of it does. -/
structure Repeats (c : Command) (last : Option ℕ) (events : List ℕ) (cycles : ℕ) : Prop where
  isRepeat : c.isRepeat = false
  isEventPC : c.isEventPC = false
  notSync : c ≠ .eventSync
  single : c.lastSingle last = last
  left : ∀ s, LeftBy s c → Stands events cycles s
  copy : ∀ {s}, After (some c) last s → convertCommand tile s c = occur tile events cycles events s

theorem repeats_single {last : Option ℕ} {form event cycles : ℕ} (h : last = some event) :
    Repeats tile (.single form event cycles) last [event] cycles where
  isRepeat := rfl
  isEventPC := rfl
  notSync := by simp
  single := h.symm
  left _ h := h.2
  copy {s} hs := by
    have hl : Stands [event] cycles s := (hs.left _ rfl).2
    have hevent := hs.event.trans h
    have hrepeated := hs.repeated
    have hlist := hl.list
    have hcount := hl.count
    rw [convertCommand_single]
    congr 1
    cases s
    simp_all

theorem repeats_multiple {last : Option ℕ} {form cycles : ℕ} {events : List ℕ} :
    Repeats tile (.multiple form events cycles) last events cycles where
  isRepeat := rfl
  isEventPC := rfl
  notSync := by simp
  single := rfl
  left _ h := h
  copy {s} hs := by
    have hl : Stands events cycles s := hs.left _ rfl
    have hrepeated := hs.repeated
    have hlist := hl.list
    have hcount := hl.count
    rw [convertCommand_multiple]
    congr 1
    cases s
    simp_all

namespace Repeats

variable {c : Command} {last : Option ℕ} {events : List ℕ} {cycles : ℕ}

theorem after_copy (h : Repeats tile c last events cycles) {s : ConvertState}
    (hs : After (some c) last s) : After (some c) last (convertCommand tile s c) :=
  hs.copy h.isRepeat h.isEventPC h.single

theorem stands (h : Repeats tile c last events cycles) {s : ConvertState}
    (hs : After (some c) last s) : Stands events cycles s :=
  h.left s (hs.left c rfl)

theorem convertCommand_repeated (h : Repeats tile c last events cycles) (hc : 0 < cycles)
    {s : ConvertState} (hs : After (some c) last s) (form r : ℕ) :
    convertCommand tile s (.repeated form r) =
      (occur tile events cycles (if 1 < events.length then [] else last.toList))^[r] s := by
  have hl := h.stands hs
  have hsync : s.repeated ≠ some .eventSync := by
    rw [hs.repeated]
    exact fun h' => h.notSync (Option.some_inj.1 h')
  rw [convertCommand, if_pos (by rfl), convertBranch, if_neg hsync,
    if_neg (by rw [hl.count]; exact hc.ne')]
  refine iterate_congr
    (P := fun s => s.multipleList = events ∧ s.cycles = cycles ∧ s.event = last)
    ?_ (fun s => by simp) r ⟨hl.list, hl.count, hs.event⟩
  rintro s ⟨rfl, rfl, rfl⟩
  rfl

/-- **A repeat that fits is its copies.** -/
theorem repeated_eq (h : Repeats tile c last events cycles) {s : ConvertState}
    (hs : After (some c) last s) (form : ℕ) {r : ℕ}
    (hfit : 0 < r → 0 < cycles → RepeatFits events last) :
    convertCommand tile s (.repeated form r) = (convertCommand tile · c)^[r] s := by
  have hl := h.stands hs
  rcases Nat.eq_zero_or_pos cycles with rfl | hc
  · have hsync : s.repeated ≠ some .eventSync := by
      rw [hs.repeated]
      exact fun h' => h.notSync (Option.some_inj.1 h')
    have hcopies : (convertCommand tile · c)^[r] s = (tick 1)^[r] s :=
      Eq.symm <| iterate_congr (P := After (some c) last)
        (fun s hs => by rw [h.copy hs, (h.stands hs).occur_zero]) (fun _ => h.after_copy) r hs
    rw [hcopies, iterate_tick, mul_one, convertCommand, if_pos (by rfl), convertBranch,
      if_neg hsync, if_pos hl.count]
  · rw [h.convertCommand_repeated hc hs]
    rcases Nat.eq_zero_or_pos r with rfl | hr
    · rfl
    · refine iterate_congr (P := After (some c) last) (fun s hs => ?_) (fun _ => h.after_copy) r hs
      rw [h.copy hs]
      exact congrFun (occur_congr (hfit hr hc).symm events cycles) s

/-- **A repeat that does not fit shows**, whatever comes after. -/
theorem repeated_ne (h : Repeats tile c last events cycles) {s : ConvertState}
    (hs : After (some c) last s) (form : ℕ) {r : ℕ} (hr : 0 < r) (hc : 0 < cycles)
    (hfit : ¬RepeatFits events last) {u v : ConvertState}
    (hu : Later (convertCommand tile s (.repeated form r)) u)
    (hv : Later ((convertCommand tile · c)^[r] s) v) : u.traceEvents ≠ v.traceEvents := by
  obtain ⟨r, rfl⟩ := Nat.exists_eq_succ_of_ne_zero hr.ne'
  intro heq
  rw [h.convertCommand_repeated hc hs, Function.iterate_succ_apply] at hu
  rw [Function.iterate_succ_apply, h.copy hs] at hv
  have hu := (Later.iterate (fun s => later_occur events cycles _ s) r _).trans hu
  have hv := (Later.iterate (fun s => later_convertCommand h.isEventPC s) r _).trans hv
  have hbegun := traceEvents_ne (occur_traceEvents events _ s hc)
    (occur_traceEvents events events s hc) (by rw [occur_timer, occur_timer]) hu hv heq
  refine hfit ?_
  rw [RepeatFits]
  split at hbegun
  · rename_i hlen
    rw [if_pos hlen]
    exact newly_eq_nil.1 hbegun.symm
  · rename_i hlen
    rw [if_neg hlen, ← newly_of_length_le_one (by omega), ← hbegun, newly_of_length_le_one]
    cases last <;> simp

end Repeats

theorem repeated_eventSync {last : Option ℕ} {s : ConvertState}
    (hs : After (some .eventSync) last s) (form r : ℕ) :
    convertCommand tile s (.repeated form r) = (convertCommand tile · .eventSync)^[r] s := by
  have hcopies : (convertCommand tile · .eventSync)^[r] s = (tick EVENT_SYNC_CYCLES)^[r] s := by
    refine iterate_congr (P := fun s => s.repeated = some .eventSync) (fun s h => ?_)
      (fun s h => ?_) r hs.repeated
    · rw [convertCommand, if_neg (by decide), convertBranch, tick, ← h]
    · rw [tick, h]
  rw [hcopies, iterate_tick, convertCommand, if_pos (by rfl), convertBranch, if_pos hs.repeated]

/-! ## Runs of commands -/

theorem foldl_replicate (c : Command) (r : ℕ) (s : ConvertState) :
    (List.replicate r c).foldl (convertCommand tile) s = (convertCommand tile · c)^[r] s := by
  induction r generalizing s with
  | zero => rfl
  | succ r ih => rw [List.replicate_succ, List.foldl_cons, ih, Function.iterate_succ_apply]

theorem RepeatsFollow.notEventPC {prev : Option Command} {commands : List Command}
    (h : RepeatsFollow prev commands) :
    (∀ c ∈ commands, c.isEventPC = false) ∧ ∀ c ∈ expand prev commands, c.isEventPC = false := by
  induction prev, commands using RepeatsFollow.induct with
  | case1 => simp [expand]
  | case2 prev form repeats commands ih =>
    obtain ⟨⟨c, rfl, hc⟩, h⟩ := h
    have := ih h
    refine ⟨List.forall_mem_cons.2 ⟨rfl, this.1⟩, ?_⟩
    rw [expand, Option.elim_some]
    refine List.forall_mem_append.2 ⟨?_, this.2⟩
    intro c' hc'
    rw [List.eq_of_mem_replicate hc']
    cases c <;> first | rfl | cases hc
  | case3 prev c commands hc ih =>
    rw [RepeatsFollow.eq_3 _ _ _ hc] at h
    rw [expand.eq_3 _ _ _ hc]
    exact ⟨List.forall_mem_cons.2 ⟨h.1, (ih h.2).1⟩, List.forall_mem_cons.2 ⟨h.1, (ih h.2).2⟩⟩

theorem fits_cons {c : Command} (hc : c.isRepeat = false) (prev : Option Command)
    (last : Option ℕ) (commands : List Command) :
    Fits prev last (c :: commands) ↔ Fits (some c) (c.lastSingle last) commands := by
  cases c with
  | repeated _ _ => cases hc
  | _ => rfl

/-- The repeat of a repeatable command is its copies, or it does not fit and shows. -/
theorem repeated_cases {c : Command} {last : Option ℕ} (hc : c.isRepeatable = true)
    {s : ConvertState} (hs : After (some c) last s) (form r : ℕ) :
    After (some c) last ((convertCommand tile · c)^[r] s) ∧
      ((0 < r → FitsAfter last (some c)) ∧
        convertCommand tile s (.repeated form r) = (convertCommand tile · c)^[r] s ∨
      (0 < r ∧ ¬FitsAfter last (some c)) ∧
        ∀ u v, Later (convertCommand tile s (.repeated form r)) u →
          Later ((convertCommand tile · c)^[r] s) v → u.traceEvents ≠ v.traceEvents) := by
  cases c with
  | single form' event cycles =>
    have hlast : last = some event := hs.event.symm.trans (hs.left _ rfl).1
    have hc : Repeats tile (.single form' event cycles) last [event] cycles := repeats_single hlast
    have hfit : RepeatFits [event] last := by simp [RepeatFits, hlast]
    exact ⟨hs.copies rfl rfl hc.single r,
      .inl ⟨fun _ => trivial, hc.repeated_eq hs form fun _ _ => hfit⟩⟩
  | multiple form' events cycles =>
    have hc : Repeats tile (.multiple form' events cycles) last events cycles := repeats_multiple
    refine ⟨hs.copies rfl rfl rfl r, ?_⟩
    by_cases hfit : 0 < r → 0 < cycles → RepeatFits events last
    · exact .inl ⟨hfit, hc.repeated_eq hs form hfit⟩
    · push Not at hfit
      obtain ⟨hr, hpos, hfit⟩ := hfit
      exact .inr ⟨⟨hr, fun h => hfit (h hpos)⟩,
        fun u v => hc.repeated_ne hs form hr hpos hfit⟩
  | eventSync =>
    exact ⟨hs.copies rfl rfl rfl r, .inl ⟨fun _ => trivial, repeated_eventSync hs form r⟩⟩
  | _ => cases hc

theorem foldl_expand_iff {prev : Option Command} {last : Option ℕ} {commands : List Command}
    (h : RepeatsFollow prev commands) {s : ConvertState} (hs : After prev last s) :
    (commands.foldl (convertCommand tile) s).traceEvents =
      ((expand prev commands).foldl (convertCommand tile) s).traceEvents ↔
      Fits prev last commands := by
  induction prev, commands using RepeatsFollow.induct generalizing last s with
  | case1 => simp [expand, Fits]
  | case2 prev form r commands ih =>
    obtain ⟨⟨c, rfl, hc⟩, h⟩ := h
    obtain ⟨hcopies, ⟨hfit, heq⟩ | ⟨hfit, hne⟩⟩ := @repeated_cases tile _ _ hc _ hs form r
    · rw [List.foldl_cons, expand, Option.elim_some, List.foldl_append, foldl_replicate, heq,
        ih h hcopies, Fits, and_iff_right hfit]
    · rw [List.foldl_cons, expand, Option.elim_some, List.foldl_append, foldl_replicate]
      refine iff_of_false (hne _ _ (later_foldl h.notEventPC.1 _) (later_foldl h.notEventPC.2 _)) ?_
      exact fun h' => hfit.2 (h'.1 hfit.1)
  | case3 prev c commands hc ih =>
    rw [RepeatsFollow.eq_3 _ _ _ hc] at h
    have hr : c.isRepeat = false := by
      cases c with
      | repeated form r => exact (hc form r rfl).elim
      | _ => rfl
    rw [List.foldl_cons, expand.eq_3 _ _ _ hc, List.foldl_cons, fits_cons hr]
    exact ih h.2 (hs.convertCommand hr h.1)

variable (tile) in
/-- **Repeats mean their expansion**, in the begin and end events of a tile, exactly if each
fits. -/
theorem convertCommandsToJson_expand_iff (commands : List Command)
    (h : RepeatsFollow none commands) :
    convertCommandsToJson tile commands = convertCommandsToJson tile (expand none commands) ↔
      Fits none none commands := by
  have hany {commands : List Command} (h : ∀ c ∈ commands, c.isEventPC = false) :
      commands.any Command.isEventPC = false := by simpa using h
  rw [convertCommandsToJson, convertCommandsToJson, if_neg (by simp [hany h.notEventPC.1]),
    if_neg (by simp [hany h.notEventPC.2])]
  exact foldl_expand_iff h after_initialState

def plainTile : Tile := ⟨0, fun k => toString k⟩

def twoRepeated : List Command := [.multiple 0 [0, 1] 5, .repeated 0 1]

/-- The events of a multiple end and do not begin again. -/
theorem twoRepeated_not_expand :
    convertCommandsToJson plainTile twoRepeated ≠
      convertCommandsToJson plainTile (expand none twoRepeated) := by
  decide

theorem oneRepeated_expand_iff :
    convertCommandsToJson plainTile [.single 0 3 2, .repeated 0 4] =
        convertCommandsToJson plainTile (expand none [.single 0 3 2, .repeated 0 4]) ↔
      Fits none none [.single 0 3 2, .repeated 0 4] :=
  convertCommandsToJson_expand_iff plainTile _ ⟨rfl, ⟨_, rfl, rfl⟩, trivial⟩

end MlirAie.Trace
