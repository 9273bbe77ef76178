import MlirAie.Checkpoint.Serialize
import MlirAie.Lib.Lists

/-!
# Nodes of independent artifacts

A view has no path of its own: the first view of a node is stored under the empty name, which is
the directory itself.

* `Payload.writeItems_files`: what the capture leaves on the disk;
* **`Payload.roundTrips_iff`**: the nodes that are restored as they were captured.
-/

namespace MlirAie.Checkpoint

open MlirAie.Lib

/-- A node has the same items: the keys in the same order, and the same content for each. -/
def SameItems {T : Type} (Same : Item T → Item T → Prop) (items items' : List (Item T)) : Prop :=
  List.Forall₂ (fun it it' => it'.key = it.key ∧ Same it it') items items'

namespace Payload

variable {T : Type} {P : Payload T} {dir : Path} {d : Disk} {items : List (Item T)}

/-- A node as the edges leave it: outside the directory, each pending item with a path it can be
written to, each other item with its file, and no path shared by different items. -/
structure WellFormed (P : Payload T) (items : List (Item T)) (dir : Path) (d : Disk) : Prop where
  outside : ∀ it ∈ items, ∀ n, it.path ≠ dir ++ '/' :: n
  pending : ∀ it ∈ items, it.pending P = true → IsName (filename it.path)
  written : ∀ it ∈ items, it.pending P = false →
    ∃ b, d.files it.path = some b ∧ P.deserialize (some b) = some it.get
  unique : ∀ it ∈ items, ∀ it' ∈ items, it.path = it'.path →
    it.get = it'.get ∧ it.pending P = it'.pending P

def Same (d : Disk) (it it' : Item T) : Prop :=
  it'.get = it.get ∧ d.files it'.path = d.files it.path

/-- The node is restored from what its capture returned and left in the directory. -/
def RoundTrips (P : Payload T) (items : List (Item T)) (dir : Path) (d : Disk) : Prop :=
  let (desc, d') := P.write items dir d
  ∃ items', P.read desc dir d' = some items' ∧ SameItems (Same d') items items'

/-! ## The capture -/

def entry (it : Item T) (name : Path) : Json :=
  .object [("key", .string it.key), ("path", .string name)]

@[grind =] def names (used : List Path) (items : List (Item T)) : List Path :=
  uniqueNames used (items.map fun it => filename it.filePath)

theorem writeItems_entries (dir : Path) (used : List Path) (d : Disk) (items : List (Item T)) :
    (P.writeItems dir used d items).1 = List.zipWith entry items (names used items) := by
  induction items generalizing used d with
  | nil => rfl
  | cons it items ih =>
    rw [names, List.map_cons, uniqueNames, List.zipWith_cons_cons]
    exact congrArg (entry it _ :: ·) (ih _ _)

/-- The file that `asFile` finds or writes at the path of an item. -/
@[grind =] def Materializes (P : Payload T) (E : Path → Bytes) (d : Disk) (it : Item T) : Prop :=
  if it.pending P then IsName (filename it.path) ∧ P.serialize it.get = E it.path
  else d.files it.path = some (E it.path)

variable {E : Path → Bytes}

theorem asFile_files {it : Item T} (h : Materializes P E d it) :
    (it.asFile P d).2.files it.path = some (E it.path) ∧
      ∀ p ≠ it.path, (it.asFile P d).2.files p = d.files p := by
  rw [Item.asFile_eq]
  unfold Materializes at h
  by_cases hp : it.pending P = true
  · rw [if_pos hp] at h
    rw [if_pos hp, h.2]
    exact ⟨Disk.writeFile_self h.1 _, fun p hne => Disk.writeFile_other hne _⟩
  · rw [if_neg hp] at h
    rw [if_neg hp]
    exact ⟨h, fun _ _ => rfl⟩

theorem Materializes.mono {it : Item T} {d' : Disk} (h : Materializes P E d it)
    (hd : d.files it.path = some (E it.path) → d'.files it.path = some (E it.path)) :
    Materializes P E d' it := by
  unfold Materializes at h ⊢
  by_cases hp : it.pending P = true
  · rw [if_pos hp] at h ⊢
    exact h
  · rw [if_neg hp] at h ⊢
    exact hd h

/-- What the capture leaves on the disk: the files of the items, a copy of each under its name,
and everything else as it was. -/
theorem writeItems_files (hd : IsName (filename dir)) (used : List Path)
    (hout : ∀ it ∈ items, ∀ n, it.path ≠ dir ++ '/' :: n)
    (hsep : ∀ it ∈ items, '/' ∉ filename it.filePath)
    (hE : ∀ it ∈ items, Materializes P E d it) :
    (∀ p, (∀ it ∈ items, p ≠ it.path) → (∀ n ∉ used, '/' ∉ n → p ≠ append dir n) →
      (P.writeItems dir used d items).2.files p = d.files p) ∧
    (∀ it ∈ items, (P.writeItems dir used d items).2.files it.path = some (E it.path)) ∧
    ∀ x ∈ items.zip (names used items), IsName x.2 →
      (P.writeItems dir used d items).2.files (append dir x.2) = some (E x.1.path) := by
  induction items generalizing used d with
  | nil => exact ⟨fun _ _ _ => rfl, List.forall_mem_nil _, List.forall_mem_nil _⟩
  | cons it items ih =>
    obtain ⟨hself, hother⟩ := asFile_files (hE it List.mem_cons_self)
    have hne (n : Path) : it.path ≠ append dir n := by
      obtain ⟨m, hm⟩ := append_below hd n
      rw [hm]
      exact hout it List.mem_cons_self m
    have hhead := uniqueName_no_sep (hsep it List.mem_cons_self) used
    -- the disk after the head is stored
    have hstep (it' : Item T) (hmem : it' ∈ it :: items)
        (h : d.files it'.path = some (E it'.path) ∨ it'.path = it.path) :
        ((it.asFile P d).2.copyFile (it.asFile P d).1
          (append dir (uniqueName used (filename it.filePath)))).files it'.path =
            some (E it'.path) := by
      obtain ⟨m, hm⟩ := append_below hd (uniqueName used (filename it.filePath))
      rw [hm, Disk.copyFile_other (hout it' hmem m)]
      by_cases hp : it'.path = it.path
      · rw [hp]
        exact hself
      · rw [hother _ hp]
        exact h.resolve_right hp
    obtain ⟨hframe, hpaths, hstored⟩ := ih (uniqueName used (filename it.filePath) :: used)
      (d := (it.asFile P d).2.copyFile (it.asFile P d).1
        (append dir (uniqueName used (filename it.filePath))))
      (fun it' h => hout it' (List.mem_cons_of_mem it h))
      (fun it' h => hsep it' (List.mem_cons_of_mem it h))
      (fun it' h => (hE it' (List.mem_cons_of_mem it h)).mono fun h' =>
        hstep it' (List.mem_cons_of_mem it h) (Or.inl h'))
    refine ⟨?_, ?_, ?_⟩
    · intro p hp hn
      rw [List.forall_mem_cons] at hp
      show Disk.files (writeItems P dir _ _ items).2 p = _
      rw [hframe p hp.2 fun n hnn => hn n fun h => hnn (List.mem_cons_of_mem _ h),
        Disk.copyFile_other (hn _ (uniqueName_not_mem used _) hhead), hother p hp.1]
    · rw [List.forall_mem_cons]
      refine ⟨?_, hpaths⟩
      by_cases hshared : ∃ it' ∈ items, it'.path = it.path
      · obtain ⟨it', hmem, hp⟩ := hshared
        rw [← hp]
        exact hpaths it' hmem
      · push Not at hshared
        exact (hframe it.path (fun it' h => (hshared it' h).symm) fun n _ _ => hne n).trans
          (hstep it List.mem_cons_self (Or.inr rfl))
    · rw [names, List.map_cons, uniqueNames, List.zip_cons_cons, List.forall_mem_cons]
      refine ⟨fun hname => ?_, hstored⟩
      have hcopied : IsName (filename (append dir (uniqueName used (filename it.filePath)))) := by
        rw [append_eq hd (head_ne_sep hhead), isName_filename_sep, filename_isName hname]
        exact hname
      refine (hframe _ (fun it' h => ?_) fun n hn hs hp => ?_).trans
        (Disk.copyFile_self hcopied ?_)
      · obtain ⟨m, hm⟩ := append_below hd (uniqueName used (filename it.filePath))
        rw [hm]
        exact (hout it' (List.mem_cons_of_mem it h) m).symm
      · exact hn (append_inj hd hhead hs hp ▸ List.mem_cons_self)
      · rw [Item.asFile_eq] at hself ⊢
        exact hself

/-! ## The files of a well-formed node -/

/-- What each path holds once its items are materialized. -/
def fileOf (P : Payload T) (d : Disk) (items : List (Item T)) (p : Path) : Bytes :=
  match items.find? fun it => it.path = p && it.pending P with
  | some it => P.serialize it.get
  | none => (d.files p).getD []

theorem not_fileLike_of_pending {it : Item T} (h : it.pending P = true) : P.fileLike = false := by
  induction it with
  | own k p v w =>
    rw [Item.pending, Bool.and_eq_true, Bool.not_eq_true'] at h
    exact h.1
  | view k s ih => exact ih h

namespace WellFormed

variable {it : Item T} (hw : WellFormed P items dir d) (hit : it ∈ items)

include hw hit

theorem fileOf_pending (hp : it.pending P = true) :
    fileOf P d items it.path = P.serialize it.get := by
  rw [fileOf]
  cases hf : items.find? fun it' => it'.path = it.path && it'.pending P with
  | none =>
    refine absurd ?_ (List.find?_eq_none.1 hf it hit)
    rw [Bool.and_eq_true, decide_eq_true_iff]
    exact ⟨rfl, hp⟩
  | some it' =>
    have hpath := List.find?_some hf
    rw [Bool.and_eq_true, decide_eq_true_iff] at hpath
    show P.serialize it'.get = _
    rw [(hw.unique it' (List.mem_of_find?_eq_some hf) it hit hpath.1).1]

theorem fileOf_written (hp : it.pending P = false) :
    d.files it.path = some (fileOf P d items it.path) := by
  obtain ⟨b, hb, _⟩ := hw.written it hit hp
  rw [fileOf]
  cases hf : items.find? fun it' => it'.path = it.path && it'.pending P with
  | none =>
    show _ = some ((d.files it.path).getD [])
    rw [hb, Option.getD_some]
  | some it' =>
    have hpath := List.find?_some hf
    rw [Bool.and_eq_true, decide_eq_true_iff] at hpath
    have := (hw.unique it' (List.mem_of_find?_eq_some hf) it hit hpath.1).2
    rw [hp, hpath.2] at this
    cases this

theorem materializes : Materializes P (fileOf P d items) d it := by
  unfold Materializes
  by_cases hp : it.pending P = true
  · rw [if_pos hp]
    exact ⟨hw.pending it hit hp, (hw.fileOf_pending hit hp).symm⟩
  · rw [if_neg hp]
    exact hw.fileOf_written hit (Bool.eq_false_of_not_eq_true hp)

theorem deserialize_fileOf :
    P.deserialize (some (fileOf P d items it.path)) = some it.get := by
  by_cases hp : it.pending P = true
  · rw [hw.fileOf_pending hit hp]
    exact P.inverse (not_fileLike_of_pending hp) it.get
  · have hp := Bool.eq_false_of_not_eq_true hp
    obtain ⟨b, hb, hread⟩ := hw.written it hit hp
    rw [← (hw.fileOf_written hit hp), hb]
    exact hread

theorem isName_path : IsName (filename it.path) := by
  cases hp : it.pending P with
  | true => exact hw.pending it hit hp
  | false => exact d.proper _ _ (hw.fileOf_written hit hp)

theorem filename_no_sep : '/' ∉ filename it.filePath := by
  cases hv : it.isView with
  | false =>
    rw [Item.filePath_of_own hv]
    exact (hw.isName_path hit).2.2.2
  | true =>
    rw [Item.filePath_of_view hv]
    exact List.not_mem_nil

end WellFormed

/-! ## The round trip -/

theorem getString_entry (it : Item T) (n : Path) :
    (entry it n).getString "key" = some it.key ∧ (entry it n).getString "path" = some n := by
  simp [entry, Json.getString, Json.field, List.lookup]

theorem readItem_entry (it : Item T) (n : Path) :
    P.readItem dir d (entry it n) =
      (P.deserialize (d.files (append dir n))).map fun v =>
        .own it.key (append dir n) v true := by
  obtain ⟨hkey, hpath⟩ := getString_entry it n
  rw [readItem, hkey, hpath]
  show (P.deserialize (d.files (append dir n))).bind _ = _
  cases P.deserialize (d.files (append dir n)) with
  | none => rfl
  | some v => rfl

/-- **A node of artifacts is restored as it was captured exactly if none of its items is a
view.** -/
theorem roundTrips_iff (hd : IsName (filename dir)) (hw : WellFormed P items dir d) :
    P.RoundTrips items dir d ↔ ∀ it ∈ items, it.isView = false := by
  obtain ⟨_, hpaths, hstored⟩ := writeItems_files (P := P) (E := fileOf P d items) hd []
    hw.outside (fun it hit => hw.filename_no_sep hit) fun it hit => hw.materializes hit
  have hlen : items.length = (names [] items).length := by
    rw [names, uniqueNames_length, List.length_map]
  have hread : P.RoundTrips items dir d ↔
      ∃ r, (List.zipWith entry items (names [] items)).mapM
          (P.readItem dir (P.writeItems dir [] d items).2) = some r ∧
        SameItems (Same (P.writeItems dir [] d items).2) items r := by
    rw [← writeItems_entries (P := P) dir [] d items]
    rfl
  rw [hread]
  unfold SameItems
  rw [exists_mapM_zipWith hlen]
  constructor
  · intro h it hit
    by_contra hv
    -- the first view takes the empty name
    obtain ⟨v, hv⟩ : ∃ v, items.find? Item.isView = some v :=
      Option.isSome_iff_exists.1
        (List.find?_isSome.2 ⟨it, hit, Bool.eq_true_of_not_eq_false hv⟩)
    obtain ⟨hview, pre, post, hsplit, hpre⟩ := List.find?_eq_some_iff_append.1 hv
    have hmem : v ∈ items := List.mem_of_find?_eq_some hv
    have hname : (names [] items)[pre.length]? = some [] := by
      have hbases : ∀ b ∈ pre.map fun it => filename it.filePath, IsName b := by
        intro b hb
        obtain ⟨it, hit, rfl⟩ := List.mem_map.1 hb
        rw [Item.filePath_of_own (by simpa using hpre it hit)]
        exact hw.isName_path (hsplit ▸ List.mem_append_left _ hit)
      have := uniqueNames_nil_mem hbases (post.map fun it => filename it.filePath)
        List.not_mem_nil
      rw [List.length_map] at this
      rw [names, hsplit, List.map_append, List.map_cons, Item.filePath_of_view hview]
      exact this
    have hpair : (v, []) ∈ items.zip (names [] items) := by
      apply List.mem_of_getElem? (i := pre.length)
      rw [List.getElem?_zip_eq_some]
      refine ⟨?_, hname⟩
      rw [hsplit, List.getElem?_append_right le_rfl, Nat.sub_self]
      rfl
    obtain ⟨it', hread, _, _, hfile⟩ := h _ hpair
    rw [readItem_entry] at hread
    obtain ⟨_, _, rfl⟩ := Option.map_eq_some_iff.1 hread
    have hdir : ¬ IsName (filename (append dir [])) := by
      rw [append_eq hd (head_ne_sep List.not_mem_nil), isName_filename_sep]
      exact not_isName_nil
    rw [hpaths v hmem] at hfile
    exact Option.some_ne_none _ (hfile.symm.trans (Disk.files_eq_none hdir))
  · intro h x hx
    have hmem : x.1 ∈ items := (List.of_mem_zip hx).1
    have hname : IsName x.2 := by
      refine uniqueNames_isName ?_ [] x.2 (List.of_mem_zip hx).2
      intro b hb
      obtain ⟨it, hit, rfl⟩ := List.mem_map.1 hb
      rw [Item.filePath_of_own (h it hit)]
      exact hw.isName_path hit
    refine ⟨.own x.1.key (append dir x.2) x.1.get true, ?_, rfl, rfl, ?_⟩
    · rw [readItem_entry, hstored x hx hname, hw.deserialize_fileOf hmem]
      rfl
    · exact (hstored x hx hname).trans (hpaths x.1 hmem).symm

end Payload

end MlirAie.Checkpoint
