import MlirAie.Checkpoint.Path

/-!
# Items, the disk and descriptors

* `Disk`: the regular files of the file system;
* `Payload`: how payloads of a type are written to a file and read back;
* `Json`: the descriptors that `captureNode` returns.
-/

namespace MlirAie.Checkpoint

abbrev Bytes := List UInt8

/-! ## The disk -/

/-- The regular files. No regular file is reached by the path of a directory. -/
structure Disk where
  files : Path → Option Bytes
  proper : ∀ p b, files p = some b → IsName (filename p)

namespace Disk

/-- `raw_fd_ostream` on a path: the path of a directory cannot be written. -/
def writeFile (d : Disk) (p : Path) (b : Bytes) : Disk where
  files q := if q = p ∧ IsName (filename p) then some b else d.files q
  proper q c h := by
    by_cases hq : q = p ∧ IsName (filename p)
    · exact hq.1 ▸ hq.2
    · rw [if_neg hq] at h
      exact d.proper q c h

/-- `fs::copy_file`: nothing happens without a source, or where the target is a directory. -/
def copyFile (d : Disk) (src dest : Path) : Disk :=
  match d.files src with
  | none => d
  | some b => d.writeFile dest b

def relativeTo (folder p : Path) : Option Path :=
  ((folder ++ ['/']).isPrefixOf? p).filter fun rel => rel.head? ≠ some '/'

/-- `copyDirectoryRecursively`: the files below `src` are copied below `dest`. -/
def copyDirectory (d : Disk) (src dest : Path) : Disk where
  files p := ((relativeTo dest p).bind fun rel => d.files (src ++ '/' :: rel)).or (d.files p)
  proper p b h := by
    rcases Option.or_eq_some_iff.1 h with h | ⟨_, h⟩
    · obtain ⟨rel, hr, h⟩ := Option.bind_eq_some_iff.1 h
      have hp := List.isPrefixOf?_eq_some_iff_append_eq.1 (Option.filter_eq_some_iff.1 hr).1
      rw [← hp, List.append_assoc, List.singleton_append, isName_filename_sep]
      exact (isName_filename_sep src rel).1 (d.proper _ _ h)
    · exact d.proper p b h

variable {d : Disk}

theorem writeFile_self {p : Path} (h : IsName (filename p)) (b : Bytes) :
    (d.writeFile p b).files p = some b := if_pos ⟨rfl, h⟩

theorem writeFile_other {p q : Path} (h : q ≠ p) (b : Bytes) :
    (d.writeFile p b).files q = d.files q := if_neg fun hq => h hq.1

theorem copyFile_self {src dest : Path} {b : Bytes} (h : IsName (filename dest))
    (hs : d.files src = some b) : (d.copyFile src dest).files dest = some b := by
  rw [copyFile, hs]
  exact writeFile_self h b

theorem copyFile_other {src dest p : Path} (h : p ≠ dest) :
    (d.copyFile src dest).files p = d.files p := by
  unfold copyFile
  cases d.files src with
  | none => rfl
  | some b => exact writeFile_other h b

theorem files_eq_none {p : Path} (h : ¬ IsName (filename p)) : d.files p = none :=
  Option.eq_none_iff_forall_ne_some.2 fun b hb => h (d.proper p b hb)

theorem relativeTo_eq {folder p rel : Path} :
    relativeTo folder p = some rel ↔ p = folder ++ '/' :: rel ∧ rel.head? ≠ some '/' := by
  rw [relativeTo, Option.filter_eq_some_iff, List.isPrefixOf?_eq_some_iff_append_eq,
    List.append_assoc, List.singleton_append, decide_eq_true_iff]
  exact ⟨fun h => ⟨h.1.symm, h.2⟩, fun h => ⟨h.1.symm, h.2⟩⟩

theorem copyDirectory_below {src dest rel : Path} (hr : rel.head? ≠ some '/')
    (hd : d.files (dest ++ '/' :: rel) = none) :
    (d.copyDirectory src dest).files (dest ++ '/' :: rel) = d.files (src ++ '/' :: rel) := by
  show ((relativeTo dest _).bind _).or _ = _
  rw [relativeTo_eq.2 ⟨rfl, hr⟩, hd, Option.or_none]
  rfl

theorem copyDirectory_other {src dest p : Path} (h : ∀ rel, p ≠ dest ++ '/' :: rel) :
    (d.copyDirectory src dest).files p = d.files p := by
  show ((relativeTo dest p).bind _).or _ = _
  cases hr : relativeTo dest p with
  | none => rfl
  | some rel => exact absurd (relativeTo_eq.1 hr).1 (h rel)

end Disk

/-! ## Items -/

inductive Item (T : Type) where
  | own (key : Text) (filePath : Path) (value : T) (fileWritten : Bool)
  | view (key : Text) (aliasSource : Item T)

/-- `Serializer<T>`, `Deserializer<T>` and `IsFileLikeV<T>`. A deserializer is given what stands
at the path, and is inverse to the serializer; a file-like payload is an opaque tag. -/
structure Payload (T : Type) where
  fileLike : Bool
  serialize : T → Bytes
  deserialize : Option Bytes → Option T
  inverse : fileLike = false → ∀ v, deserialize (some (serialize v)) = some v
  tag : fileLike = true → ∀ f v, deserialize f = some v

/-- `File`: the path stands for the payload. -/
def filePayload : Payload Unit where
  fileLike := true
  serialize _ := []
  deserialize _ := some ()
  inverse h := by cases h
  tag _ _ _ := rfl

/-- `std::vector<char>`, whose file holds the bytes themselves. -/
def binaryPayload : Payload Bytes where
  fileLike := false
  serialize v := v
  deserialize f := f
  inverse _ _ := rfl
  tag h := by cases h

namespace Item

variable {T : Type}

def key : Item T → Text
  | own k _ _ _ => k
  | view k _ => k

/-- `ItemBase::filePath`: views have none of their own. -/
def filePath : Item T → Path
  | own _ p _ _ => p
  | view _ _ => []

def isView : Item T → Bool
  | own _ _ _ _ => false
  | view _ _ => true

def get : Item T → T
  | own _ _ v _ => v
  | view _ s => s.get

/-- The path that `asFile` materializes the item to. -/
def path : Item T → Path
  | own _ p _ _ => p
  | view _ s => s.path

/-- Whether the payload still has to be written when `asFile` is called. -/
def pending (P : Payload T) : Item T → Bool
  | own _ _ _ w => !P.fileLike && !w
  | view _ s => s.pending P

/-- `Item::asFile`: the payload is written when it is not file-like and not yet written. -/
def asFile (P : Payload T) (d : Disk) : Item T → Path × Disk
  | own _ p v w => (p, if P.fileLike || w then d else d.writeFile p (P.serialize v))
  | view _ s => s.asFile P d

theorem asFile_eq (P : Payload T) (d : Disk) (it : Item T) :
    it.asFile P d =
      (it.path, if it.pending P then d.writeFile it.path (P.serialize it.get) else d) := by
  induction it with
  | own k p v w =>
    rw [asFile, pending, path, get]
    cases P.fileLike <;> cases w <;> rfl
  | view k s ih => exact ih

theorem filePath_of_own {it : Item T} (h : it.isView = false) : it.filePath = it.path := by
  cases it with
  | own => rfl
  | view => cases h

theorem filePath_of_view {it : Item T} (h : it.isView = true) : it.filePath = [] := by
  cases it with
  | own => cases h
  | view => rfl

end Item

/-! ## Descriptors -/

/-- `llvm::json::Value`, as far as descriptors use it. -/
inductive Json where
  | integer (n : ℤ)
  | string (s : Text)
  | array (l : List Json)
  | object (fields : List (String × Json))

namespace Json

def field (name : String) : Json → Option Json
  | object fields => fields.lookup name
  | _ => none

def getString (name : String) (j : Json) : Option Text :=
  match j.field name with
  | some (string s) => some s
  | _ => none

def getInteger (name : String) (j : Json) : Option ℤ :=
  match j.field name with
  | some (integer n) => some n
  | _ => none

def getArray (name : String) (j : Json) : Option (List Json) :=
  match j.field name with
  | some (array l) => some l
  | _ => none

end Json

end MlirAie.Checkpoint
