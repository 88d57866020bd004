import Mathlib.Data.List.Forall2
import Mathlib.Data.List.Sort
import Tapeworks.MachineFile
import Tapeworks.Proofs.Gather
import Tapeworks.Proofs.Path

/-! Loading a folder. Every machine file of a folder gives one result, in the order of the paths: the machine that loading
    the file alone gives, or the error that this gives, told with the path. So what is wrong with one file concerns no
    other: two folders that differ in one entry give the same results for all others, in the same order. -/

namespace Tapeworks.MachineFile

variable {files files' : Files} {folder name : String} {names names' : List String}

/-! ### Machine files -/

/-- A name with one of the two extensions. The dot at the start of a name begins no extension. -/
def IsMachineName (name : String) : Prop :=
  ∃ stem, stem ≠ "" ∧ (name = stem ++ ".json" ∨ name = stem ++ ".ab")

theorem isSome_ofPath?_entry (folder : String) (h : Path.IsName name) :
    (Format.ofPath? (Path.entry folder name)).isSome ↔ IsMachineName name := by
  have hextension : (Format.ofPath? (Path.entry folder name)).isSome ↔
      Path.extension? (Path.entry folder name) = some "json" ∨
        Path.extension? (Path.entry folder name) = some "ab" := by
    unfold Format.ofPath?
    split
    · rename_i heq
      exact ⟨fun _ => Or.inl heq, fun _ => rfl⟩
    · rename_i heq
      exact ⟨fun _ => Or.inr heq, fun _ => rfl⟩
    · rename_i hjson hab
      exact ⟨nofun, fun h => absurd h (not_or.mpr ⟨hjson, hab⟩)⟩
  rw [hextension, Path.extension?_entry_eq_iff folder h, Path.extension?_entry_eq_iff folder h]
  simp only [String.append_assoc]
  constructor
  · rintro (⟨-, stem, hstem, hname⟩ | ⟨-, stem, hstem, hname⟩)
    · exact ⟨stem, hstem, Or.inl hname⟩
    · exact ⟨stem, hstem, Or.inr hname⟩
  · rintro ⟨stem, hstem, hname | hname⟩
    · exact Or.inl ⟨by decide, stem, hstem, hname⟩
    · exact Or.inr ⟨by decide, stem, hstem, hname⟩

theorem isMachineFile_entry_iff (files : Files) (folder : String) (h : Path.IsName name) :
    isMachineFile files (Path.entry folder name) ↔
      IsMachineName name ∧ ¬files.isFolder (Path.entry folder name) := by
  rw [isMachineFile, Bool.and_eq_true, isSome_ofPath?_entry folder h, Bool.not_eq_true', Bool.not_eq_true]

/-! ### The results -/

theorem pairwise_mergeSort_names (h : names.Nodup) : (names.mergeSort (· ≤ ·)).Pairwise (· < ·) := by
  have hsorted := List.pairwise_mergeSort' (· ≤ ·) names
  have hnodup : (names.mergeSort (· ≤ ·)).Nodup := (List.mergeSort_perm names _).nodup_iff.mpr h
  exact (hsorted.and hnodup).imp fun ⟨hle, hne⟩ => String.not_le.mp fun hge => hne (String.le_antisymm hle hge)

/-- The paths of the machine files of a folder, in the order of the names. -/
def machinePaths (files : Files) (folder : String) (names : List String) : List String :=
  ((names.mergeSort (· ≤ ·)).map (Path.entry folder)).filter (isMachineFile files)

theorem loadFolder_eq (h : files folder = .ok (.folder names)) :
    loadFolder files folder = (machinePaths files folder names).map (loadFrom files) := by
  have hexists : files.exists? folder = true := by rw [Files.exists?, h]
  have hnames : files.names folder = .ok names := by rw [Files.names, h]
  rw [loadFolder, hexists, hnames]
  rfl

theorem mem_machinePaths (hnames : ∀ name ∈ names, Path.IsName name) {path : String} :
    path ∈ machinePaths files folder names ↔
      ∃ name ∈ names, path = Path.entry folder name ∧ IsMachineName name ∧ ¬files.isFolder path := by
  simp only [machinePaths, List.mem_filter, List.mem_map, List.mem_mergeSort]
  constructor
  · rintro ⟨⟨name, hname, rfl⟩, hfile⟩
    exact ⟨name, hname, rfl, (isMachineFile_entry_iff files folder (hnames name hname)).mp hfile⟩
  · rintro ⟨name, hname, rfl, hfile⟩
    exact ⟨⟨name, hname, rfl⟩, (isMachineFile_entry_iff files folder (hnames name hname)).mpr hfile⟩

theorem pairwise_machinePaths (hnodup : names.Nodup) (hnames : ∀ name ∈ names, Path.IsName name) :
    (machinePaths files folder names).Pairwise Path.Precedes := by
  refine List.Pairwise.filter _ (List.pairwise_map.mpr ?_)
  refine (pairwise_mergeSort_names hnodup).imp_of_mem fun ha hb hlt => ?_
  exact Path.precedes_entry (hnames _ (List.mem_mergeSort.mp ha)) (hnames _ (List.mem_mergeSort.mp hb)) hlt

/-- What is told of a machine file: its path with the machine that loading it alone gives, or the error that this gives,
    wrapped in one that names the path. -/
inductive Told (files : Files) (path : String) : Except LoadError (String × MachineRecord) → Prop
  | loaded {r : MachineRecord} : load files path = .ok r → Told files path (.ok (path, r))
  | failed {e : LoadError} : load files path = .error e → Told files path (.error (.inFolder path e))

theorem told_loadFrom (files : Files) (path : String) : Told files path (loadFrom files path) := by
  unfold loadFrom
  cases h : load files path with
  | error e => exact .failed h
  | ok r => exact .loaded h

/-- The path that a result is about. -/
def pathOf? : Except LoadError (String × MachineRecord) → Option String
  | .ok (path, _) => some path
  | .error (.inFolder path _) => some path
  | .error _ => none

theorem pathOf?_loadFrom (files : Files) (path : String) : pathOf? (loadFrom files path) = some path := by
  unfold loadFrom
  cases load files path with
  | error e => rfl
  | ok r => rfl

/-! ### One entry changed -/

/-- Another view of the files, in which the folder has these names, shows all entries but one as before. That one may be
    new, gone or changed. -/
structure Touched (changed : String) (files : Files) (names : List String) (files' : Files) (names' : List String)
    (folder : String) : Prop where
  found : files' folder = .ok (.folder names')
  nodup : names'.Nodup
  mem_iff : ∀ name, name ≠ changed → (name ∈ names' ↔ name ∈ names)
  shown : ∀ name ∈ names, name ≠ changed → files' (Path.entry folder name) = files (Path.entry folder name)

theorem loadFrom_congr {path : String} (h : files' path = files path) : loadFrom files' path = loadFrom files path := by
  unfold loadFrom load Files.text
  rw [h]

theorem isMachineFile_congr {path : String} (h : files' path = files path) :
    isMachineFile files' path = isMachineFile files path := by
  unfold isMachineFile Files.isFolder
  rw [h]

/-- The paths of all entries of a folder but one, in the order of the names. -/
def otherPaths (changed folder : String) (names : List String) : List String :=
  ((names.mergeSort (· ≤ ·)).filter (· ≠ changed)).map (Path.entry folder)

theorem filter_machinePaths (changed : String) :
    (machinePaths files folder names).filter (· ≠ Path.entry folder changed) =
      (otherPaths changed folder names).filter (isMachineFile files) := by
  have hother : ∀ name, decide (Path.entry folder name ≠ Path.entry folder changed) = decide (name ≠ changed) :=
    fun name => decide_eq_decide.mpr (not_congr ⟨Path.entry_injective, fun heq => heq ▸ rfl⟩)
  rw [machinePaths, List.filter_comm, List.filter_map]
  simp only [Function.comp_def, hother]
  rfl

/-- The results about all entries but one. -/
theorem filter_loadFolder (h : files folder = .ok (.folder names)) (changed : String) :
    (loadFolder files folder).filter (pathOf? · ≠ some (Path.entry folder changed)) =
      ((otherPaths changed folder names).filter (isMachineFile files)).map (loadFrom files) := by
  rw [loadFolder_eq h, List.filter_map, ← filter_machinePaths]
  simp only [Function.comp_def, pathOf?_loadFrom, ne_eq, Option.some.injEq]

theorem Touched.otherPaths_eq {changed : String} (h : Touched changed files names files' names' folder)
    (hnodup : names.Nodup) : otherPaths changed folder names' = otherPaths changed folder names := by
  refine congrArg (List.map _) (eq_of_mem_iff (fun a b hab hba => String.lt_irrefl a (String.lt_trans hab hba))
    ((pairwise_mergeSort_names h.nodup).filter _) ((pairwise_mergeSort_names hnodup).filter _) fun name => ?_)
  simp only [List.mem_filter, List.mem_mergeSort, decide_eq_true_eq]
  exact and_congr_left fun hne => h.mem_iff name hne

theorem Touched.shown_of_mem {changed path : String} (h : Touched changed files names files' names' folder)
    (hpath : path ∈ otherPaths changed folder names) : files' path = files path := by
  obtain ⟨name, hname, rfl⟩ := List.mem_map.mp hpath
  obtain ⟨hmem, hne⟩ := List.mem_filter.mp hname
  exact h.shown name (List.mem_mergeSort.mp hmem) (of_decide_eq_true hne)

/-! ### What loading a folder comes to -/

/-- The results of loading a folder are those of its machine files, which are its entries with one of the two extensions
    that are no folders: one for each, in the order of the paths. A change of one entry leaves the results about all
    others alone, and their order. -/
structure Isolated (files : Files) (folder : String) (names : List String) : Prop where
  results : ∃ paths : List String, paths.Pairwise Path.Precedes ∧
    (∀ path, path ∈ paths ↔
      ∃ name ∈ names, path = Path.entry folder name ∧ IsMachineName name ∧ ¬files.isFolder path) ∧
    List.Forall₂ (Told files) paths (loadFolder files folder)
  message : ∀ path e, .error (.inFolder path e) ∈ loadFolder files folder →
    (LoadError.inFolder path e).message = "File error: Failed to load machine from " ++ path ++ ": " ++ e.message
  undisturbed : ∀ changed files' names', Touched changed files names files' names' folder →
    (loadFolder files' folder).filter (pathOf? · ≠ some (Path.entry folder changed)) =
      (loadFolder files folder).filter (pathOf? · ≠ some (Path.entry folder changed))

theorem isolated (h : files folder = .ok (.folder names)) (hnodup : names.Nodup)
    (hnames : ∀ name ∈ names, Path.IsName name) : Isolated files folder names where
  results := by
    refine ⟨machinePaths files folder names, pairwise_machinePaths hnodup hnames,
      fun _ => mem_machinePaths hnames, ?_⟩
    rw [loadFolder_eq h, List.forall₂_map_right_iff, List.forall₂_same]
    exact fun path _ => told_loadFrom files path
  message _ _ _ := rfl
  undisturbed changed files' names' htouched := by
    rw [filter_loadFolder htouched.found, filter_loadFolder h, htouched.otherPaths_eq hnodup]
    have hfiles : (otherPaths changed folder names).filter (isMachineFile files') =
        (otherPaths changed folder names).filter (isMachineFile files) :=
      List.filter_congr fun path hpath => isMachineFile_congr (htouched.shown_of_mem hpath)
    rw [hfiles]
    exact List.map_congr_left fun path hpath => loadFrom_congr (htouched.shown_of_mem (List.mem_of_mem_filter hpath))

/-- A folder with two machine files, one of which is no text, among notes, a hidden file and a folder. -/
def shelf : FileTree :=
  .folder [("shelf", .folder [("b.ab", .file "abaabab".toUTF8), ("notes.md", .file "".toUTF8),
    ("nested.json", .folder []), (".json", .file "[]".toUTF8), ("a.json", .file ⟨#[255, 254]⟩)])]

theorem isolated_shelf :
    shelf.files [] "shelf" = .ok (.folder ["b.ab", "notes.md", "nested.json", ".json", "a.json"]) ∧
      Isolated (shelf.files []) "shelf" ["b.ab", "notes.md", "nested.json", ".json", "a.json"] := by
  have hshelf : shelf.files [] "shelf" =
      .ok (.folder ["b.ab", "notes.md", "nested.json", ".json", "a.json"]) := by rfl
  exact ⟨hshelf, isolated hshelf (by decide) (by decide)⟩

end Tapeworks.MachineFile
