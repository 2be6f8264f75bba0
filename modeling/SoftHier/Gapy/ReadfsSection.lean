/-
  Gapy/ReadfsSection.lean --- what a ReadFS section holds once its content is
  set.

  The header comes first, then one header per file, then the file contents.
  The headers have different lengths, so every place is a sum over what comes
  before it.
-/
import SoftHier.Gapy.RomSection

set_option autoImplicit false

namespace SoftHier.Gapy

open SoftHier.Foundation Program FlashSection

/-! ## The structures -/

/-- `ReadfsHeader`, freshly created. -/
def ReadfsHeader.spec : StructSpec :=
  .ofDecls "header" ReadfsHeader.fields (by simp [ReadfsHeader.fields, FieldDecl.toSpec])

/-- `ReadfsFileHeader` of file number `i`, freshly created. -/
def ReadfsFileHeader.spec (i : Nat) (name : String) : StructSpec :=
  .ofDecls ("file" ++ toString i ++ " header") (ReadfsFileHeader.fields (name.length + 1))
    (by simp [ReadfsFileHeader.fields, FieldDecl.toSpec])

/-- `ReadfsFile` number `i`, freshly created. -/
def ReadfsFile.spec (i : Nat) (size : Nat) : StructSpec :=
  .ofDecls ("file" ++ toString i) (ReadfsFile.fields size) (by simp [ReadfsFile.fields])

/-- The main header with its values. -/
def ReadfsHeader.filled (fsSize : Int) (nbFiles : Nat) : StructSpec :=
  (ReadfsHeader.spec.set "fs_size" (.int fsSize)).set "nb_files" (.int nbFiles)

/-- The header of a file with its values. -/
def ReadfsFileHeader.filled (i : Nat) (name : String) (offset : Int) (size : Nat) : StructSpec :=
  ((((ReadfsFileHeader.spec i name).set "offset" (.int offset)).set "file_size"
    (.int size)).set "name_len" (.int (name.length + 1))).set "name" (.bytes (utf8 name ++ [0]))

/-- A file with its content. -/
def ReadfsFile.filled (i : Nat) (size : Nat) (data : Bytes) : StructSpec :=
  (ReadfsFile.spec i size).set "data" (.bytes data)

namespace ReadfsSection

variable {host : Host} {s s' : FlashSection ReadfsAttrs} {t : String} {specs : List StructSpec}

/-! ## The list of files -/

/-- The paths of a directory's files. -/
def directoryFiles (h : Host) (entry : String) : Except PyError (List (String × String)) := do
  let d ← directoryEntry entry
  let files ← h.listdir d.1
  pure (files.map (directoryFile d))

/-- The paths a content asks for: the files, then the files of each directory. -/
def PathsOf (h : Host) (content : ContentSection) (paths : List (String × String)) : Prop :=
  ∃ files dirs, paths = files ++ dirs.flatten ∧
    (∃ value items, content.property "files" = .ok value ∧ value.iterate = .ok items ∧
      List.Forall₂ (fun file p => fileEntry file = .ok p) items files) ∧
    ∃ value, content.property "dirs" = .ok value ∧
      (value = .none ∧ dirs = [] ∨
        ∃ items, value.iterate = .ok items ∧
          List.Forall₂ (fun entry ps => directoryFiles h entry = .ok ps) items dirs)

/-- The section with more paths. -/
def withPaths (s : FlashSection ReadfsAttrs) (paths : List (String × String)) :
    FlashSection ReadfsAttrs :=
  s.withSelf { s.self with filePaths := s.self.filePaths ++ paths }

theorem withPaths_nil (s : FlashSection ReadfsAttrs) : withPaths s [] = s := by
  simp only [withPaths, List.append_nil]
  rfl

theorem withPaths_append (s : FlashSection ReadfsAttrs) (a b : List (String × String)) :
    withPaths (withPaths s a) b = withPaths s (a ++ b) := by
  simp only [withPaths, withSelf_self, List.append_assoc]
  rfl

theorem returns_appendPaths {α : Type} (f : α → String × String) (xs : List α)
    (s : FlashSection ReadfsAttrs) :
    Returns (forEach (fun x => appendPath (f x)) xs) s () (withPaths s (xs.map f)) := by
  induction xs generalizing s with
  | nil =>
    rw [List.map_nil, withPaths_nil]
    exact returns_forEach_nil.mpr rfl
  | cons x xs ih =>
    refine returns_forEach_cons.mpr ⟨withPaths s [f x], rfl, ?_⟩
    have := ih (withPaths s [f x])
    rwa [withPaths_append, List.singleton_append] at this

theorem returns_addFiles {items : List String} (h : Returns (forEach addFile items) s () s') :
    ∃ paths, List.Forall₂ (fun file p => fileEntry file = .ok p) items paths ∧
      s' = withPaths s paths := by
  induction items generalizing s with
  | nil => exact ⟨[], .nil, by rw [withPaths_nil, returns_forEach_nil.mp h]⟩
  | cons file items ih =>
    obtain ⟨u, hone, hrest⟩ := returns_forEach_cons.mp h
    obtain ⟨p, u', hread, hone⟩ := returns_bind.mp hone
    obtain ⟨hp, rfl⟩ := returns_reading.mp hread
    obtain rfl : withPaths s [p] = u := returns_modify.mp hone
    obtain ⟨paths, hpaths, rfl⟩ := ih hrest
    exact ⟨p :: paths, .cons hp hpaths, by rw [withPaths_append, List.singleton_append]⟩

theorem returns_addDirectories {items : List String}
    (h : Returns (forEach (addDirectory host) items) s () s') :
    ∃ paths, List.Forall₂ (fun entry ps => directoryFiles host entry = .ok ps) items paths ∧
      s' = withPaths s paths.flatten := by
  induction items generalizing s with
  | nil => exact ⟨[], .nil, by rw [List.flatten_nil, withPaths_nil, returns_forEach_nil.mp h]⟩
  | cons entry items ih =>
    obtain ⟨u, hone, hrest⟩ := returns_forEach_cons.mp h
    obtain ⟨d, u₁, hread, hone⟩ := returns_bind.mp hone
    obtain ⟨hd, rfl⟩ := returns_reading.mp hread
    obtain ⟨files, u₂, hread, hone⟩ := returns_bind.mp hone
    obtain ⟨hfiles, rfl⟩ := returns_reading.mp hread
    obtain rfl := (hone.unique (returns_appendPaths (directoryFile d) files s)).2
    obtain ⟨paths, hpaths, rfl⟩ := ih hrest
    refine ⟨files.map (directoryFile d) :: paths, .cons ?_ hpaths, ?_⟩
    · simp only [directoryFiles, hd, hfiles, bind, Except.bind, pure, Except.pure]
    · rw [withPaths_append, List.flatten_cons]

/-- `set_content` appends the paths the content asks for. -/
theorem returns_addPaths {content : ContentSection} (h : Returns (addPaths host content) s () s') :
    ∃ paths, PathsOf host content paths ∧ s' = withPaths s paths := by
  unfold addPaths at h
  obtain ⟨value, s₁, hread, h⟩ := returns_bind.mp h
  obtain ⟨hvalue, rfl⟩ := returns_reading.mp hread
  obtain ⟨items, s₁, hread, h⟩ := returns_bind.mp h
  obtain ⟨hitems, rfl⟩ := returns_reading.mp hread
  obtain ⟨_, s₁, hadd, h⟩ := returns_bind.mp h
  obtain ⟨files, hfiles, rfl⟩ := returns_addFiles hadd
  obtain ⟨dirValue, s₁, hread, h⟩ := returns_bind.mp h
  obtain ⟨hdirValue, rfl⟩ := returns_reading.mp hread
  have hfilesOf : ∃ value items, content.property "files" = .ok value ∧
      value.iterate = .ok items ∧
      List.Forall₂ (fun file p => fileEntry file = .ok p) items files :=
    ⟨value, items, hvalue, hitems, hfiles⟩
  by_cases hnone : dirValue = .none
  · rw [if_neg (not_not.mpr hnone)] at h
    refine ⟨files, ⟨files, [], by simp, hfilesOf, dirValue, hdirValue, .inl ⟨hnone, rfl⟩⟩, ?_⟩
    exact (returns_pure.mp h).2.symm
  · rw [if_pos hnone] at h
    obtain ⟨dirItems, s₁, hread, h⟩ := returns_bind.mp h
    obtain ⟨hdirItems, rfl⟩ := returns_reading.mp hread
    obtain ⟨dirs, hdirs, rfl⟩ := returns_addDirectories h
    refine ⟨files ++ dirs.flatten,
      ⟨files, dirs, rfl, hfilesOf, dirValue, hdirValue, .inr ⟨dirItems, hdirItems, hdirs⟩⟩, ?_⟩
    rw [withPaths_append]

/-! ## Creating -/

/-- The headers of the files, before their values are set. -/
def fileHeaderSpecs (paths : List (String × String)) : List StructSpec :=
  paths.zipIdx.map fun p => ReadfsFileHeader.spec p.2 p.1.1

theorem returns_createHeaders {paths : List (String × String)} {n : Nat}
    (hn : s.structs.length = n)
    (h : Returns (forEach (createHeader n) paths.zipIdx) (s.holding t specs) () s') :
    s' = (s.withSelf { s.self with
        fileHeaders := s.self.fileHeaders ++ refsFrom n specs.length paths.length }).holding
      t (specs ++ fileHeaderSpecs paths) := by
  obtain ⟨created, hcreated, rfl⟩ := returns_forEach_create
    (fun (p : (String × String) × Nat) spec => spec = ReadfsFileHeader.spec p.2 p.1.1)
    (fun refs (a : ReadfsAttrs) => { a with fileHeaders := a.fileHeaders ++ refs })
    (fun a => by simp) (fun r rs a => by simp) (fun p u u' specs hlen h => by
      exact ⟨_, rfl, (h.unique (returns_newOf_filed hlen _ _
        (ReadfsFileHeader.spec p.2 p.1.1).nodup _)).2⟩) hn h
  rw [forall₂_eq_map hcreated, List.length_zipIdx]
  rfl

/-- A file's structure takes the size the machine reports. -/
def FileSpec (h : Host) (p : (String × String) × Nat) (spec : StructSpec) : Prop :=
  ∃ size, h.getsize p.1.2 = .ok size ∧ spec = ReadfsFile.spec p.2 size

theorem returns_createFiles {paths : List (String × String)} {n : Nat} (hn : s.structs.length = n)
    (h : Returns (forEach (createFile host n) paths.zipIdx) (s.holding t specs) () s') :
    ∃ files, List.Forall₂ (FileSpec host) paths.zipIdx files ∧
      s' = (s.withSelf { s.self with
          files := s.self.files ++ refsFrom n specs.length paths.length }).holding
        t (specs ++ files) := by
  obtain ⟨created, hcreated, rfl⟩ := returns_forEach_create (FileSpec host)
    (fun refs (a : ReadfsAttrs) => { a with files := a.files ++ refs })
    (fun a => by simp) (fun r rs a => by simp) (fun p u u' specs hlen h => by
      obtain ⟨size, u₁, hread, h⟩ := returns_bind.mp h
      obtain ⟨hsize, rfl⟩ := returns_reading.mp hread
      exact ⟨_, ⟨size, hsize, rfl⟩, (h.unique (returns_newOf_filed hlen _ _
        (ReadfsFile.spec p.2 size).nodup _)).2⟩) hn h
  rw [List.length_zipIdx]
  exact ⟨created, hcreated, rfl⟩

/-- The structures of a ReadFS, before their values are set. -/
def created (paths : List (String × String)) (files : List StructSpec) : List StructSpec :=
  [ReadfsHeader.spec] ++ fileHeaderSpecs paths ++ files

/-- The state in which the values are filled in. -/
def unfilled (s : FlashSection ReadfsAttrs) (files : List StructSpec) :
    FlashSection ReadfsAttrs :=
  (s.withSelf
    { filePaths := s.self.filePaths
      fileHeaders := s.self.fileHeaders ++
        refsFrom s.structs.length 1 s.self.filePaths.length
      files := s.self.files ++
        refsFrom s.structs.length (1 + s.self.filePaths.length) s.self.filePaths.length
      topStruct := some s.structs.length
      header := some ⟨s.structs.length, 0⟩ }).holding "readfs" (created s.self.filePaths files)

theorem length_fileHeaderSpecs (paths : List (String × String)) :
    (fileHeaderSpecs paths).length = paths.length := by
  rw [fileHeaderSpecs, List.length_map, List.length_zipIdx]

/-- `set_content` up to the point where the values are filled in. -/
theorem returns_create {offset : Int} {content : ContentSection}
    (h : Returns (setContent host offset content) s () s') :
    ∃ s₁ paths files, Returns (FlashSection.setContent offset content) s () s₁ ∧
      PathsOf host content paths ∧
      List.Forall₂ (FileSpec host) (withPaths s₁ paths).self.filePaths.zipIdx files ∧
      Returns (fill host ⟨s.structs.length, 0⟩ (withPaths s₁ paths).self.filePaths)
        (unfilled (withPaths s₁ paths) files) () s' := by
  obtain ⟨_, s₁, hstart, h⟩ := returns_bind.mp h
  obtain ⟨properties, hs₁, -⟩ := FlashSection.returns_setContent hstart
  have hlen : s₁.structs.length = s.structs.length := by rw [hs₁]; rfl
  have hfresh : s₁.currentOffset = s₁.offset := by rw [hs₁]; rfl
  obtain ⟨_, s₂, hpaths, h⟩ := returns_bind.mp h
  obtain ⟨paths, hpathsOf, rfl⟩ := returns_addPaths hpaths
  refine ⟨s₁, paths, ?_⟩
  have h := (returns_newParent (by exact hfresh) "readfs").advance h
  have hlen' : (withPaths s₁ paths).structs.length = s.structs.length := hlen
  generalize hu : withPaths s₁ paths = u at h hlen'
  rw [hlen'] at h
  simp only [returns_modifySelf_bind, withSelf_holding, holding_self] at h
  have h := (returns_newOf (by exact hlen') _ _ ReadfsHeader.spec.nodup).advance h
  simp only [returns_modifySelf_bind, returns_get_bind, withSelf_holding, withSelf_withSelf,
    withSelf_self, holding_self] at h
  obtain ⟨_, s₄, hheaders, h⟩ := returns_bind.mp h
  obtain rfl := returns_createHeaders (by exact hlen') hheaders
  obtain ⟨_, s₅, hfiles, h⟩ := returns_bind.mp h
  obtain ⟨files, hfileSpecs, rfl⟩ := returns_createFiles (by exact hlen') hfiles
  refine ⟨files, hstart, hpathsOf, hfileSpecs, ?_⟩
  have hcount : ([ReadfsHeader.spec] ++ fileHeaderSpecs u.self.filePaths).length =
      1 + u.self.filePaths.length := by
    rw [List.length_append, length_fileHeaderSpecs, List.length_singleton]
  rw [unfilled, ← hcount, hlen']
  exact h

/-! ## Filling -/

theorem keepsLayout_fillFile (p : (String × String) × Nat) : KeepsLayout (fillFile host p) := by
  unfold fillFile
  refine keepsLayout_bind (keeps_get SameLayout.refl) fun _ => ?_
  refine keepsLayout_bind (keepsLayout_refAt _ _) fun _ => ?_
  refine keepsLayout_bind (keepsLayout_refAt _ _) fun _ => ?_
  refine keepsLayout_bind (keepsLayout_read _ _) fun _ => ?_
  refine keepsLayout_bind (keepsLayout_setField _ _ _) fun _ => ?_
  refine keepsLayout_bind (keeps_reading SameLayout.refl _) fun _ => ?_
  refine keepsLayout_bind (keepsLayout_setField _ _ _) fun _ => ?_
  refine keepsLayout_bind (keepsLayout_setField _ _ _) fun _ => ?_
  refine keepsLayout_bind (keepsLayout_setField _ _ _) fun _ => ?_
  refine keepsLayout_bind (keeps_reading SameLayout.refl _) fun _ => ?_
  exact keepsLayout_setField _ _ _

theorem keepsLayout_fill (header : CStructRef) (paths : List (String × String)) :
    KeepsLayout (fill host header paths) := by
  unfold fill
  refine keepsLayout_bind (keeps_get SameLayout.refl) fun _ => ?_
  refine keepsLayout_bind (keepsLayout_read _ _) fun _ => ?_
  refine keepsLayout_bind (keeps_reading SameLayout.refl _) fun _ => ?_
  refine keepsLayout_bind (keepsLayout_setField _ _ _) fun _ => ?_
  refine keepsLayout_bind (keepsLayout_setField _ _ _) fun _ => ?_
  exact keepsLayout_forEach keepsLayout_fillFile _

theorem mem_fileHeaderSpecs {paths : List (String × String)} {spec : StructSpec}
    (h : spec ∈ fileHeaderSpecs paths) :
    ∃ i name, spec = ReadfsFileHeader.spec i name := by
  obtain ⟨p, -, rfl⟩ := List.mem_map.mp h
  exact ⟨p.2, p.1.1, rfl⟩

theorem size_fileHeaderSpec (i : Nat) (name : String) :
    (ReadfsFileHeader.spec i name).size = 12 + (name.length + 1) := by
  simp [StructSpec.size, fieldsSize, ReadfsFileHeader.spec, StructSpec.ofDecls,
    ReadfsFileHeader.fields, FieldDecl.toSpec, FieldSpec.size, FormatItem.size, ScalarFormat.size]
  omega

theorem size_fileSpec (i size : Nat) : (ReadfsFile.spec i size).size = size := by
  simp [StructSpec.size, fieldsSize, ReadfsFile.spec, StructSpec.ofDecls, ReadfsFile.fields,
    FieldDecl.toSpec, FieldSpec.size, FormatItem.size]

/-- `set_content` places the headers and the files behind one another. -/
theorem placedAt_setContent {offset : Int} {content : ContentSection}
    (h : Returns (setContent host offset content) s () s') :
    ∃ specs, s.PlacedAt s' (s.startOffset offset) content specs ∧
      ∀ spec ∈ specs, 0 ≤ spec.size := by
  obtain ⟨s₁, paths, files, hstart, -, hfiles, hfill⟩ := returns_create h
  obtain ⟨properties, rfl, hget⟩ := FlashSection.returns_setContent hstart
  refine ⟨created _ files, PlacedAt.of_sameLayout hget (keepsLayout_fill _ _ _ _ _ hfill), ?_⟩
  intro spec hspec
  simp only [created, List.mem_append, List.mem_singleton] at hspec
  obtain (rfl | hspec) | hspec := hspec
  · decide
  · obtain ⟨i, name, rfl⟩ := mem_fileHeaderSpecs hspec
    rw [size_fileHeaderSpec]
    omega
  · obtain ⟨i, hi, rfl⟩ := List.getElem_of_mem hspec
    obtain ⟨size, -, hsize⟩ := hfiles.get (by rw [hfiles.length_eq]; exact hi) hi
    rw [List.get_eq_getElem] at hsize
    rw [hsize, size_fileSpec]
    exact Int.natCast_nonneg _

theorem structSizes_holding {u : FlashSection ReadfsAttrs} {n : Nat} (hn : u.structs.length = n) :
    ∀ (k i : Nat), i + k ≤ specs.length →
      structSizes (u.holding t specs) (refsFrom n i k) =
        .ok (specsSize ((specs.drop i).take k)) := by
  intro k
  induction k with
  | zero => intro i _; rfl
  | succ k ih =>
    intro i hi
    have hlt : i < specs.length := by omega
    rw [refsFrom_succ, structSizes, structAt_holding hn, List.getElem?_eq_getElem hlt,
      ih (i + 1) (by omega), List.drop_eq_getElem_cons hlt, List.take_succ_cons, specsSize_cons]
    rfl

/-- The structures once the values of the main header and of the first `m`
files are set. -/
structure FilledTo (h : Host) (paths : List (String × String)) (files : List StructSpec)
    (m : Nat) (specs : List StructSpec) : Prop where
  sizes : specs.map StructSpec.size = (created paths files).map StructSpec.size
  header : specs[0]? =
    some (ReadfsHeader.filled (12 + specsSize (fileHeaderSpecs paths)) paths.length)
  done : ∀ i p, i < m → paths[i]? = some p → ∃ size data,
    h.getsize p.2 = .ok size ∧ h.readFile (.path p.2) = .ok data ∧
    specs[1 + i]? = some (ReadfsFileHeader.filled i p.1
      (specsSize ((created paths files).take (1 + paths.length + i))) size) ∧
    specs[1 + paths.length + i]? = some (ReadfsFile.filled i size data)
  todo : ∀ i p, m ≤ i → paths[i]? = some p → ∃ size, h.getsize p.2 = .ok size ∧
    specs[1 + i]? = some (ReadfsFileHeader.spec i p.1) ∧
    specs[1 + paths.length + i]? = some (ReadfsFile.spec i size)

/-- One pass of the loop fills one header and one file. -/
theorem fillFile_filledTo {paths : List (String × String)} {files : List StructSpec} {n m : Nat}
    {p : String × String} {u : FlashSection ReadfsAttrs} (hn : u.structs.length = n)
    (hheaders : u.self.fileHeaders = refsFrom n 1 paths.length)
    (hfiles : u.self.files = refsFrom n (1 + paths.length) paths.length)
    (hp : paths[m]? = some p) (hfilled : FilledTo host paths files m specs)
    (h : Returns (fillFile host (p, m)) (u.holding t specs) () s') :
    ∃ specs', s' = u.holding t specs' ∧ FilledTo host paths files (m + 1) specs' := by
  have hlt : m < paths.length := (List.getElem?_eq_some_iff.mp hp).1
  obtain ⟨name, path⟩ := p
  unfold fillFile at h
  simp only [returns_get_bind, holding_self, hheaders, hfiles, refAt, getElem?_refsFrom hlt] at h
  obtain ⟨size, hsize, hheader, hfile⟩ := hfilled.todo m _ (le_refl m) hp
  have h := (returns_read hn CStruct.getOffset hfile).advance h
  have hnames : (ReadfsFileHeader.spec m name).fieldNames =
      ["offset", "file_size", "name_len", "name"] := rfl
  obtain ⟨specs₁, h₁, h⟩ := setField_bind_inv hn hheader (by rw [hnames]; decide) h
  obtain ⟨size', u₁, hread, h⟩ := returns_bind.mp h
  obtain ⟨hsize', rfl⟩ := returns_reading.mp hread
  obtain rfl : size = size' := Except.ok.inj (hsize.symm.trans hsize')
  obtain ⟨specs₂, h₂, h⟩ := h₁.bind_inv hn
    (by simp only [StructSpec.fieldNames_set, hnames]; decide) h
  obtain ⟨specs₃, h₃, h⟩ := h₂.bind_inv hn
    (by simp only [StructSpec.fieldNames_set, hnames]; decide) h
  obtain ⟨specs₄, h₄, h⟩ := h₃.bind_inv hn
    (by simp only [StructSpec.fieldNames_set, hnames]; decide) h
  obtain ⟨data, u₂, hread, h⟩ := returns_bind.mp h
  obtain ⟨hdata, rfl⟩ := returns_reading.mp hread
  have hfile₄ := (h₄.others (1 + paths.length + m) (by omega)).trans hfile
  have hfileNames : (ReadfsFile.spec m size).fieldNames = ["data"] := rfl
  obtain ⟨specs₅, h₅, rfl⟩ := setField_inv hn hfile₄ (by rw [hfileNames]; decide) h
  -- the place of the file, relative to the section
  have hplace : CStruct.getOffset (structOf
      (u.offset + specsSize (specs.take (1 + paths.length + m))) (ReadfsFile.spec m size)) -
        (u.holding t specs).offset =
      specsSize ((created paths files).take (1 + paths.length + m)) := by
    rw [← specsSize_take_congr hfilled.sizes, holding_offset]
    change u.offset + _ - u.offset = _
    omega
  refine ⟨specs₅, rfl, ?_, ?_, fun i q him hq => ?_, fun i q him hq => ?_⟩
  · rw [h₅.sizes, h₄.sizes, hfilled.sizes]
  · rw [h₅.others 0 (by omega), h₄.others 0 (by omega), hfilled.header]
  · have hi : i < paths.length := (List.getElem?_eq_some_iff.mp hq).1
    by_cases heq : i = m
    · subst heq
      obtain rfl : (name, path) = q := Option.some.inj (hp.symm.trans hq)
      refine ⟨size, data, hsize, hdata, ?_, h₅.at_index⟩
      rw [h₅.others _ (by omega), h₄.at_index, hplace]
      rfl
    · obtain ⟨size', data', hs, hd, hat, hat'⟩ := hfilled.done i q (by omega) hq
      refine ⟨size', data', hs, hd, ?_, ?_⟩
      · rw [h₅.others _ (by omega), h₄.others _ (by omega), hat]
      · rw [h₅.others _ (by omega), h₄.others _ (by omega), hat']
  · have hi : i < paths.length := (List.getElem?_eq_some_iff.mp hq).1
    obtain ⟨size', hs, hat, hat'⟩ := hfilled.todo i q (by omega) hq
    refine ⟨size', hs, ?_, ?_⟩
    · rw [h₅.others _ (by omega), h₄.others _ (by omega), hat]
    · rw [h₅.others _ (by omega), h₄.others _ (by omega), hat']

theorem getElem?_created_header {paths : List (String × String)} {files : List StructSpec} {i : Nat}
    {p : String × String} (h : paths[i]? = some p) :
    (created paths files)[1 + i]? = some (ReadfsFileHeader.spec i p.1) := by
  have hlt : i < paths.length := (List.getElem?_eq_some_iff.mp h).1
  rw [created, List.append_assoc, List.getElem?_append_right (by simp),
    List.getElem?_append_left (by simp [length_fileHeaderSpecs]; omega)]
  simp [fileHeaderSpecs, List.getElem?_zipIdx, h]

theorem getElem?_created_file {paths : List (String × String)} {files : List StructSpec} (i : Nat) :
    (created paths files)[1 + paths.length + i]? = files[i]? := by
  have hlen : ([ReadfsHeader.spec] ++ fileHeaderSpecs paths).length = 1 + paths.length := by
    rw [List.length_append, length_fileHeaderSpecs, List.length_singleton]
  rw [created, List.getElem?_append_right (by omega), hlen, Nat.add_sub_cancel_left]

/-- The values of a ReadFS section that was empty before. -/
theorem fill_filledTo {files : List StructSpec} (hheaders : s.self.fileHeaders = [])
    (hself : s.self.files = [])
    (hfiles : List.Forall₂ (FileSpec host) s.self.filePaths.zipIdx files)
    (h : Returns (fill host ⟨s.structs.length, 0⟩ s.self.filePaths) (unfilled s files) () s') :
    ∃ u specs, s' = FlashSection.holding u "readfs" specs ∧ u.offset = s.offset ∧
      u.structs = s.structs ∧ u.self.filePaths = s.self.filePaths ∧
      FilledTo host s.self.filePaths files s.self.filePaths.length specs := by
  unfold unfilled at h
  generalize ha : ({ filePaths := _, fileHeaders := _, files := _, topStruct := _, header := _ } :
    ReadfsAttrs) = a at h
  rw [hheaders, hself] at ha
  generalize hpaths : s.self.filePaths = paths at *
  have hheaders' : a.fileHeaders = refsFrom s.structs.length 1 paths.length := by
    rw [← ha]
    exact List.nil_append _
  have hfiles' : a.files = refsFrom s.structs.length (1 + paths.length) paths.length := by
    rw [← ha]
    exact List.nil_append _
  have hpaths' : a.filePaths = paths := by rw [← ha]
  unfold fill at h
  simp only [returns_get_bind, holding_self, withSelf_self, hheaders', hfiles',
    length_refsFrom] at h
  have hheader : (created paths files)[0]? = some ReadfsHeader.spec := rfl
  have h := (returns_read (by rfl) CStruct.size hheader).advance h
  obtain ⟨headerSizes, s₁, hread, h⟩ := returns_bind.mp h
  obtain ⟨hsizes, rfl⟩ := returns_reading.mp hread
  have htotal : 1 + paths.length ≤ (created paths files).length := by
    simp only [created, List.length_append, length_fileHeaderSpecs, List.length_singleton]
    omega
  have hdrop : ((created paths files).drop 1).take paths.length = fileHeaderSpecs paths := by
    rw [created, List.append_assoc, List.drop_append_of_le_length (by simp)]
    simp [List.take_left' (length_fileHeaderSpecs paths)]
  rw [structSizes_holding (by rfl) paths.length 1 htotal, hdrop, Except.ok.injEq] at hsizes
  subst hsizes
  obtain ⟨specs₁, h₁, h⟩ := setField_bind_inv (by rfl) hheader (by decide) h
  obtain ⟨specs₂, h₂, h⟩ := h₁.bind_inv (by rfl)
    (by simp only [StructSpec.fieldNames_set]; decide) h
  have hinit : FilledTo host paths files 0 specs₂ := by
    refine ⟨h₂.sizes, h₂.at_index, fun i p hi => absurd hi (Nat.not_lt_zero i),
      fun i p _ hp => ?_⟩
    have hi : i < paths.length := (List.getElem?_eq_some_iff.mp hp).1
    have hzip : (paths.zipIdx)[i]? = some (p, i) := by simp [List.getElem?_zipIdx, hp]
    obtain ⟨spec, hspec, size, hsize, rfl⟩ := getElem?_forall₂ hfiles hzip
    refine ⟨size, hsize, ?_, ?_⟩
    · rw [h₂.others _ (by omega), getElem?_created_header hp]
    · rw [h₂.others _ (by omega), getElem?_created_file, hspec]
  obtain ⟨specs, rfl, hfilled⟩ := forEach_zipIdx_induct
    (fun m u => ∃ specs, u = (s.withSelf a).holding "readfs" specs ∧
      FilledTo host paths files m specs)
    (fun m p u u' hp hI hbody => by
      obtain ⟨specs, rfl, hfilled⟩ := hI
      exact fillFile_filledTo (by rfl) hheaders' hfiles' hp hfilled hbody)
    ⟨specs₂, rfl, hinit⟩ h
  exact ⟨s.withSelf a, specs, rfl, rfl, rfl, hpaths', hfilled⟩

end ReadfsSection

end SoftHier.Gapy
