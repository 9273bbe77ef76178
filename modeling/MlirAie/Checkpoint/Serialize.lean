import MlirAie.Checkpoint.Item

/-!
# Capturing and restoring the items of a node

The three pairs of `NodeSerializer` and `NodeDeserializer`:

* `Payload.write`, `Payload.read`: each item is an artifact of its own;
* `Printer.write`, `Printer.read`: operations in a module that is written once;
* `Directory.write`, `Directory.read`: items that carry a folder.
-/

namespace MlirAie.Checkpoint

/-! ## Independent artifacts -/

namespace Payload

variable {T : Type} (P : Payload T)

/-- The loop of the default `NodeSerializer::write`; `used` holds the names given so far. -/
def writeItems (dir : Path) : List Path → Disk → List (Item T) → List Json × Disk
  | _, d, [] => ([], d)
  | used, d, it :: items =>
    let (src, d) := it.asFile P d
    let name := uniqueName used (filename it.filePath)
    let (entries, d) := writeItems dir (name :: used) (d.copyFile src (append dir name)) items
    (.object [("key", .string it.key), ("path", .string name)] :: entries, d)

def write (items : List (Item T)) (dir : Path) (d : Disk) : Json × Disk :=
  let (entries, d) := P.writeItems dir [] d items
  (.object [("items", .array entries)], d)

def readItem (dir : Path) (d : Disk) (e : Json) : Option (Item T) := do
  let p := append dir ((e.getString "path").getD [])
  let v ← P.deserialize (d.files p)
  return .own ((e.getString "key").getD []) p v true

/-- The default `NodeDeserializer::read`. -/
def read (desc : Json) (dir : Path) (d : Disk) : Option (List (Item T)) :=
  match desc.getArray "items" with
  | none => some []
  | some entries => entries.mapM (P.readItem dir d)

end Payload

/-! ## Operations in a module -/

/-- A parsed module: its content, and its operations of the focus kind as the walk meets them. -/
structure Module (C : Type) where
  content : C
  keyOps : List ℕ
  nodup : keyOps.Nodup

/-- `OpInModule`: a module and one of its operations. -/
structure OpInModule (C : Type) where
  module : Module C
  op : ℕ
  mem : op ∈ module.keyOps

/-- `opWalkIndex`: the walk counts up to the target, `-1` without it. -/
def opWalkIndex (target : ℕ) : ℤ → List ℕ → ℤ
  | _, [] => -1
  | idx, op :: ops => if op = target then idx else opWalkIndex target (idx + 1) ops

/-- `opAtWalkIndex`: the operation that the walk meets at the target position. -/
def opAtWalkIndex (target : ℤ) : ℤ → List ℕ → Option ℕ
  | _, [] => none
  | idx, op :: ops => if idx = target then some op else opAtWalkIndex target (idx + 1) ops

theorem opAtWalkIndex_mem {target idx : ℤ} {ops : List ℕ} {op : ℕ}
    (h : opAtWalkIndex target idx ops = some op) : op ∈ ops := by
  induction ops generalizing idx with
  | nil => cases h
  | cons o ops ih =>
    rw [opAtWalkIndex] at h
    by_cases hi : idx = target
    · rw [if_pos hi] at h
      exact Option.some.inj h ▸ List.mem_cons_self
    · rw [if_neg hi] at h
      exact List.mem_cons_of_mem _ (ih h)

/-- `printModuleWithDebugInfo` and `parseSourceFile`. A printed module is parsed back to a module
of the same content, whose walk meets as many operations. -/
structure Printer (C : Type) where
  print : C → Bytes
  parse : Bytes → Option (Module C)
  parse_print : ∀ m : Module C, ∃ m', parse (print m.content) = some m' ∧
    m'.content = m.content ∧ m'.keyOps.length = m.keyOps.length

namespace Printer

variable {C : Type} (P : Printer C)

def moduleName : Text := "module.mlir".toList

/-- `NodeSerializer<OpInModule>::write`: the module of the first item is printed. -/
def write (items : List (Item (OpInModule C))) (dir : Path) (d : Disk) : Json × Disk :=
  let d := match items with
    | [] => d
    | front :: _ => d.writeFile (append dir moduleName) (P.print front.get.module.content)
  let entries := items.map fun it => Json.object
    [("key", .string it.key),
      ("walkIdx", .integer (opWalkIndex it.get.op 0 it.get.module.keyOps))]
  (.object [("module", .string moduleName), ("items", .array entries)], d)

def readItem (shared : Module C) (e : Json) : Option (Item (OpInModule C)) :=
  match h : opAtWalkIndex ((e.getInteger "walkIdx").getD (-1)) 0 shared.keyOps with
  | none => none
  | some op =>
    some (.own ((e.getString "key").getD []) [] ⟨shared, op, opAtWalkIndex_mem h⟩ false)

/-- `NodeDeserializer<OpInModule>::read`; `mlirContext` tells whether there is a context. -/
def read (mlirContext : Bool) (desc : Json) (dir : Path) (d : Disk) :
    Option (List (Item (OpInModule C))) :=
  if mlirContext then
    match (d.files (append dir ((desc.getString "module").getD []))).bind P.parse with
    | none => none
    | some shared =>
      match desc.getArray "items" with
      | none => some []
      | some entries => entries.mapM (readItem shared)
  else none

end Printer

/-! ## Folders -/

/-- `Directory`: the folder that travels with the item. -/
structure Directory where
  dir : Path

namespace Directory

/-- The primary artifact's path within the bundle: what the item's own path adds to it. -/
def relative (it : Item Directory) : Path :=
  (it.filePath.drop it.get.dir.length).dropWhile (· == '/')

/-- The loop of `NodeSerializer<Directory>::write`. -/
def writeItems (dir : Path) : List Path → Disk → List (Item Directory) → List Json × Disk
  | _, d, [] => ([], d)
  | used, d, it :: items =>
    let bundle := it.get.dir
    let name := uniqueName used (filename bundle)
    let (entries, d) :=
      writeItems dir (name :: used) (d.copyDirectory bundle (append dir name)) items
    (.object [("key", .string it.key), ("path", .string name), ("file", .string (relative it))]
      :: entries, d)

def write (items : List (Item Directory)) (dir : Path) (d : Disk) : Json × Disk :=
  let (entries, d) := writeItems dir [] d items
  (.object [("items", .array entries)], d)

def readItem (dir : Path) (e : Json) : Item Directory :=
  let folder := append dir ((e.getString "path").getD [])
  let rel := (e.getString "file").getD []
  let primary := if rel = [] then folder else append folder rel
  .own ((e.getString "key").getD []) primary ⟨folder⟩ true

/-- `NodeDeserializer<Directory>::read`. -/
def read (desc : Json) (dir : Path) : Option (List (Item Directory)) :=
  match desc.getArray "items" with
  | none => some []
  | some entries => entries.mapM fun e => some (readItem dir e)

end Directory

end MlirAie.Checkpoint
