import MlirAie.Checkpoint.Artifacts

/-!
# Nodes of folders

The primary artifact is stored as what an item's own path adds to its folder, which is nothing for
a view.

* `Directory.writeItems_files`: the folders that the capture leaves in the directory;
* **`Directory.roundTrips_iff`**: the nodes that are restored as they were captured.
-/

namespace MlirAie.Checkpoint

open MlirAie.Lib

namespace Directory

variable {dir : Path} {d : Disk} {items : List (Item Directory)}

/-- A file of a folder; the folder itself is the empty path in it. -/
@[grind =]
def primary (folder rel : Path) : Path := if rel = [] then folder else folder ++ '/' :: rel

def Same (d : Disk) (it it' : Item Directory) : Prop :=
  (∀ rel : Path, rel.head? ≠ some '/' →
    d.files (it'.get.dir ++ '/' :: rel) = d.files (it.get.dir ++ '/' :: rel)) ∧
  ∃ rel, it.path = primary it.get.dir rel ∧ it'.path = primary it'.get.dir rel

/-- The node is restored from what its capture returned and left in the directory. -/
def RoundTrips (items : List (Item Directory)) (dir : Path) (d : Disk) : Prop :=
  let (desc, d') := write items dir d
  ∃ items', read desc dir = some items' ∧ SameItems (Same d') items items'

/-- A node as the edges leave it: named folders outside the directory, each with its primary file
or itself as the item's path. The directory is empty. -/
structure WellFormed (items : List (Item Directory)) (dir : Path) (d : Disk) : Prop where
  named : ∀ it ∈ items, IsName (filename it.get.dir)
  primary : ∀ it ∈ items, ∃ rel : Path, rel.head? ≠ some '/' ∧ it.path = primary it.get.dir rel
  outside : ∀ it ∈ items, ∀ rel n, it.get.dir ++ '/' :: rel ≠ dir ++ '/' :: n
  fresh : ∀ n, d.files (dir ++ '/' :: n) = none

/-! ## The capture -/

def entry (it : Item Directory) (name : Path) : Json :=
  .object [("key", .string it.key), ("path", .string name), ("file", .string (relative it))]

@[grind =] def names (used : List Path) (items : List (Item Directory)) : List Path :=
  uniqueNames used (items.map fun it => filename it.get.dir)

theorem writeItems_entries (dir : Path) (used : List Path) (d : Disk) (items : List (Item Directory)) :
    (writeItems dir used d items).1 = List.zipWith entry items (names used items) := by
  induction items generalizing used d with
  | nil => rfl
  | cons it items ih =>
    rw [names, List.map_cons, uniqueNames, List.zipWith_cons_cons]
    exact congrArg (entry it _ :: ·) (ih _ _)

/-- Folders of different names have no path in common. -/
theorem below_inj (hd : IsName (filename dir)) {m n rel rel' : Path} (hm : IsName m)
    (hn : IsName n) (h : append dir m ++ '/' :: rel = append dir n ++ '/' :: rel') : m = n := by
  rw [append_eq hd (head_ne_sep hm.2.2.2), append_eq hd (head_ne_sep hn.2.2.2), List.append_assoc,
    List.append_assoc] at h
  exact (cons_split hm.2.2.2 hn.2.2.2 (List.cons.inj (List.append_cancel_left h)).2).1

/-- What the capture leaves on the disk: a copy of each folder under its name, and everything else
as it was. -/
theorem writeItems_files (hd : IsName (filename dir)) (used : List Path)
    (hnamed : ∀ it ∈ items, IsName (filename it.get.dir))
    (hout : ∀ it ∈ items, ∀ rel n, it.get.dir ++ '/' :: rel ≠ dir ++ '/' :: n)
    (hfresh : ∀ n ∉ used, IsName n → ∀ rel, d.files (append dir n ++ '/' :: rel) = none) :
    (∀ p, (∀ n ∉ used, IsName n → ∀ rel, p ≠ append dir n ++ '/' :: rel) →
      (writeItems dir used d items).2.files p = d.files p) ∧
    ∀ x ∈ items.zip (names used items), ∀ rel : Path, rel.head? ≠ some '/' →
      (writeItems dir used d items).2.files (append dir x.2 ++ '/' :: rel) =
        d.files (x.1.get.dir ++ '/' :: rel) := by
  induction items generalizing used d with
  | nil => exact ⟨fun _ _ => rfl, List.forall_mem_nil _⟩
  | cons it items ih =>
    have hname := uniqueName_isName (hnamed it List.mem_cons_self) used
    have hnew := uniqueName_not_mem used (filename it.get.dir)
    -- the disk after the head is stored
    obtain ⟨hframe, hstored⟩ := ih (uniqueName used (filename it.get.dir) :: used)
      (d := d.copyDirectory it.get.dir (append dir (uniqueName used (filename it.get.dir))))
      (fun it' h => hnamed it' (List.mem_cons_of_mem it h))
      (fun it' h => hout it' (List.mem_cons_of_mem it h))
      (fun n hn hisName rel => by
        rw [Disk.copyDirectory_other fun rel' h => hn
          (below_inj hd hisName hname h ▸ List.mem_cons_self)]
        exact hfresh n (fun h => hn (List.mem_cons_of_mem _ h)) hisName rel)
    refine ⟨?_, ?_⟩
    · intro p hp
      refine (hframe p fun n hn => hp n fun h => hn (List.mem_cons_of_mem _ h)).trans ?_
      exact Disk.copyDirectory_other (hp _ hnew hname)
    · rw [names, List.map_cons, uniqueNames, List.zip_cons_cons, List.forall_mem_cons]
      constructor
      · intro rel hrel
        refine (hframe _ fun n hn hisName rel' h => ?_).trans
          (Disk.copyDirectory_below hrel (hfresh _ hnew hname rel))
        exact hn (below_inj hd hname hisName h ▸ List.mem_cons_self)
      · intro x hx rel hrel
        refine (hstored x hx rel hrel).trans (Disk.copyDirectory_other fun rel' h => ?_)
        refine hout x.1 (List.mem_cons_of_mem it (List.of_mem_zip hx).1) rel
          (uniqueName used (filename it.get.dir) ++ '/' :: rel') ?_
        rw [h, append_eq hd (head_ne_sep hname.2.2.2), List.append_assoc]
        rfl

/-! ## The round trip -/

theorem getString_entry (it : Item Directory) (n : Path) :
    (entry it n).getString "key" = some it.key ∧ (entry it n).getString "path" = some n ∧
      (entry it n).getString "file" = some (relative it) := by
  simp [entry, Json.getString, Json.field, List.lookup]

theorem relative_of_view {it : Item Directory} (h : it.isView = true) : relative it = [] := by
  rw [relative, Item.filePath_of_view h, List.drop_nil]
  rfl

theorem relative_of_own {it : Item Directory} (h : it.isView = false) {rel : Path}
    (hrel : rel.head? ≠ some '/') (hp : it.path = primary it.get.dir rel) : relative it = rel := by
  rw [relative, Item.filePath_of_own h, hp, primary]
  by_cases hr : rel = []
  · rw [if_pos hr, List.drop_length, hr]
    rfl
  · rw [if_neg hr, List.drop_left, List.dropWhile_cons_of_pos (by decide)]
    cases rel with
    | nil => rfl
    | cons c rel =>
      rw [List.dropWhile_cons_of_neg]
      simpa using hrel

theorem readItem_entry (hd : IsName (filename dir)) (it : Item Directory) {n : Path}
    (hn : IsName n) (hrel : (relative it).head? ≠ some '/') :
    readItem dir (entry it n) =
      .own it.key (primary (append dir n) (relative it)) ⟨append dir n⟩ true := by
  obtain ⟨hkey, hpath, hfile⟩ := getString_entry it n
  have hfolder : IsName (filename (append dir n)) := by
    rw [append_eq hd (head_ne_sep hn.2.2.2), isName_filename_sep, filename_isName hn]
    exact hn
  rw [readItem, hkey, hpath, hfile, primary, ← append_eq hfolder hrel]
  rfl

theorem primary_eq_self {folder rel : Path} (h : folder = primary folder rel) : rel = [] := by
  by_contra hr
  rw [primary, if_neg hr] at h
  have := congrArg List.length h
  rw [List.length_append, List.length_cons] at this
  omega

/-- **A node of folders is restored as it was captured exactly if the primary file of each of its
views is the folder itself.** -/
theorem roundTrips_iff (hd : IsName (filename dir)) (hw : WellFormed items dir d) :
    RoundTrips items dir d ↔ ∀ it ∈ items, it.isView = true → it.path = it.get.dir := by
  obtain ⟨hframe, hstored⟩ := writeItems_files (d := d) hd [] hw.named hw.outside
    fun n _ hn rel => by
      rw [append_eq hd (head_ne_sep hn.2.2.2), List.append_assoc]
      exact hw.fresh _
  have hlen : items.length = (names [] items).length := by
    rw [names, uniqueNames_length, List.length_map]
  have hread : RoundTrips items dir d ↔
      ∃ r, (List.zipWith entry items (names [] items)).mapM
          (fun e => some (readItem dir e)) = some r ∧
        SameItems (Same (writeItems dir [] d items).2) items r := by
    rw [← writeItems_entries dir [] d items]
    rfl
  have hfiles (x) (hx : x ∈ items.zip (names [] items)) (rel : Path)
      (hrel : rel.head? ≠ some '/') :
      (writeItems dir [] d items).2.files (append dir x.2 ++ '/' :: rel) =
        (writeItems dir [] d items).2.files (x.1.get.dir ++ '/' :: rel) := by
    rw [hstored x hx rel hrel, hframe]
    intro n _ hn rel' h
    rw [append_eq hd (head_ne_sep hn.2.2.2), List.append_assoc] at h
    exact hw.outside x.1 (List.of_mem_zip hx).1 rel _ h
  have hname (x) (hx : x ∈ items.zip (names [] items)) : IsName x.2 := by
    refine uniqueNames_isName ?_ [] x.2 (List.of_mem_zip hx).2
    rw [List.forall_mem_map]
    exact hw.named
  rw [hread]
  unfold SameItems
  rw [exists_mapM_zipWith hlen]
  constructor
  · intro h it hit hv
    obtain ⟨n, hn⟩ : ∃ n, (it, n) ∈ items.zip (names [] items) := by
      obtain ⟨i, hi⟩ := List.mem_iff_getElem?.1 hit
      obtain ⟨hlt, _⟩ := List.getElem?_eq_some_iff.1 hi
      refine ⟨(names [] items)[i], List.mem_of_getElem? (i := i) ?_⟩
      exact List.getElem?_zip_eq_some.2 ⟨hi, List.getElem?_eq_getElem (by omega)⟩
    obtain ⟨it', hit', _, _, rel, hp, hp'⟩ := h _ hn
    have hrel := relative_of_view hv
    rw [readItem_entry hd it (hname _ hn) (by rw [hrel]; simp), hrel] at hit'
    rw [← Option.some.inj hit'] at hp'
    rw [hp, primary_eq_self hp']
    exact if_pos rfl
  · intro h x hx
    have hmem : x.1 ∈ items := (List.of_mem_zip hx).1
    obtain ⟨rel, hrel, hp⟩ := hw.primary x.1 hmem
    have hrelative : relative x.1 = rel := by
      cases hv : x.1.isView with
      | false => exact relative_of_own hv hrel hp
      | true =>
        rw [h x.1 hmem hv] at hp
        rw [relative_of_view hv, primary_eq_self hp]
    refine ⟨_, congrArg some (readItem_entry hd x.1 (hname x hx) (by rwa [hrelative])), rfl,
      hfiles x hx, rel, hp, ?_⟩
    rw [hrelative]
    rfl

end Directory

end MlirAie.Checkpoint
