/-
  Gapy/PlannedFiles.lean --- the file systems allocate what the plan says.

  A ReadFS, a HostFS and a LittleFS fail where a file or a command does, in the
  order in which they reach it; a raw section fails for its size alone.
-/
import SoftHier.Gapy.PlannedContent

set_option autoImplicit false

namespace SoftHier.Gapy

open SoftHier.Foundation Program FlashSection

variable {host : Host} {flash : FlashContext}

/-! ## ReadFS -/

namespace ReadfsSection

variable {s v : FlashSection ReadfsAttrs}

theorem refines_addFiles (items : List String) :
    Refines (forEach addFile items) s (fun paths _ s' => s' = withPaths s paths)
      (items.mapM fileEntry) := by
  refine Refines.forEach_mapM (I := fun _ paths u => u = withPaths s paths)
    (fun _ file _ paths u _ hu => ?_) (withPaths_nil s).symm
  unfold addFile
  refine .eval_last fun path _ => ?_
  rw [hu]
  exact .returns (a := ()) (returns_modify.mpr rfl) (withPaths_append s paths [path])

theorem refines_addDirectories (items : List String) :
    Refines (forEach (addDirectory host) items) s
      (fun paths _ s' => s' = withPaths s paths.flatten) (items.mapM (directoryFiles host)) := by
  refine Refines.forEach_mapM (I := fun _ paths u => u = withPaths s paths.flatten)
    (fun _ entry _ paths u _ hu => ?_) (withPaths_nil s).symm
  unfold addDirectory directoryFiles
  refine .eval fun d _ => .eval fun files _ => ?_
  rw [hu]
  refine .returns (returns_appendPaths (directoryFile d) files _) ?_
  rw [withPaths_append, List.flatten_concat]

/-- `set_content` appends the paths of the entry. -/
theorem refines_addPaths (content : ContentSection) :
    Refines (addPaths host content) s (fun paths _ s' => s' = withPaths s paths)
      (content.paths host) := by
  unfold addPaths ContentSection.paths
  refine .eval fun files _ => .eval fun items _ => ?_
  refine (refines_addFiles items).bind ?_
  rintro paths _ _ rfl
  refine .eval fun dirs _ => ?_
  by_cases hdirs : dirs ≠ .none
  · rw [if_pos hdirs, if_pos hdirs]
    refine .eval fun items _ => ?_
    refine (refines_addDirectories items).map fun found _ s' hs' => ?_
    rw [hs', withPaths_append]
  · rw [if_neg hdirs, if_neg hdirs]
    exact .pure rfl

theorem runs_createHeader {n : Nat} (hn : s.structs.length = n) (t : String)
    (specs : List StructSpec) (p : (String × String) × Nat) :
    Returns (createHeader n p) (s.holding t specs) ()
      ((s.withSelf { s.self with
        fileHeaders := s.self.fileHeaders ++ [⟨n, specs.length⟩] }).holding
        t (specs ++ [ReadfsFileHeader.spec p.2 p.1.1])) :=
  returns_newOf_filed hn _ _ (ReadfsFileHeader.spec p.2 p.1.1).nodup _

theorem runs_createHeaders {n : Nat} (hn : s.structs.length = n) (t : String)
    (specs : List StructSpec) (paths : List (String × String)) :
    Returns (forEach (createHeader n) paths.zipIdx) (s.holding t specs) ()
      ((s.withSelf { s.self with
        fileHeaders := s.self.fileHeaders ++ refsFrom n specs.length paths.length }).holding
        t (specs ++ fileHeaderSpecs paths)) := by
  have hloop := runs_forEach_create (fun p : (String × String) × Nat =>
      ReadfsFileHeader.spec p.2 p.1.1)
    (fun refs (a : ReadfsAttrs) => { a with fileHeaders := a.fileHeaders ++ refs })
    (fun a => by simp) (fun rs r a => by simp)
    (fun p _ specs hlen => runs_createHeader hlen t specs p) hn specs paths.zipIdx
  rw [List.length_zipIdx] at hloop
  exact hloop

/-- The structures of the files, with the sizes the machine reports. -/
def fileSpecs (paths : List (String × String)) (sizes : List Nat) : List StructSpec :=
  List.zipWith (fun p size => ReadfsFile.spec p.2 size) paths.zipIdx sizes

theorem refines_createFiles {n : Nat} (hn : s.structs.length = n) (t : String)
    (specs : List StructSpec) (paths : List (String × String)) :
    Refines (forEach (createFile host n) paths.zipIdx) (s.holding t specs) (fun sizes _ s' =>
        List.Forall₂ (fun p size => host.getsize p.1.2 = .ok size) paths.zipIdx sizes ∧
        s' = (s.withSelf { s.self with
          files := s.self.files ++ refsFrom n specs.length paths.length }).holding
          t (specs ++ fileSpecs paths sizes))
      (paths.mapM fun p => host.getsize p.2) := by
  have hloop : Refines (forEach (createFile host n) paths.zipIdx) (s.holding t specs) _ _ :=
    refines_forEach_create (g := fun p => host.getsize p.1.2)
      (fun p size => ReadfsFile.spec p.2 size)
      (fun refs (a : ReadfsAttrs) => { a with files := a.files ++ refs })
      (fun a => by simp) (fun rs r a => by simp) (fun p u specs hlen => by
        unfold createFile
        exact .eval_last fun size _ =>
          .returns (returns_newOf_filed hlen _ _ (ReadfsFile.spec p.2 size).nodup _) rfl)
      hn specs paths.zipIdx
  have hpaths : (paths.zipIdx.mapM fun p => host.getsize p.1.2) =
      paths.mapM fun p => host.getsize p.2 := by
    conv_rhs => rw [← List.zipIdx_map_fst 0 paths, List.mapM_map]
    rfl
  rw [hpaths, List.length_zipIdx] at hloop
  exact hloop

theorem specsSize_created {paths : List (String × String)} {sizes : List Nat}
    (hlen : paths.length = sizes.length) :
    specsSize (created paths (fileSpecs paths sizes)) = PlanEntry.readfsBytes paths sizes := by
  have hfiles : specsSize (fileSpecs paths sizes) = (sizes.map (Nat.cast : Nat → Int)).sum := by
    have hmap : (fileSpecs paths sizes).map StructSpec.size =
        ((paths.zipIdx.zip sizes).map Prod.snd).map (Nat.cast : Nat → Int) := by
      rw [fileSpecs, List.map_zipWith, List.map_map, List.zip, List.map_zipWith]
      exact congrArg (fun f => List.zipWith f paths.zipIdx sizes)
        (funext fun p => funext fun size => size_fileSpec p.2 size)
    have hzip : sizes.length ≤ paths.zipIdx.length := by
      rw [List.length_zipIdx, hlen]
    rw [specsSize, hmap, List.map_snd_zip hzip]
  have hheaders : specsSize (fileHeaderSpecs paths) =
      (paths.map fun p => 12 + ((p.1.length : Int) + 1)).sum := by
    have hmap : (fileHeaderSpecs paths).map StructSpec.size =
        (paths.zipIdx.map Prod.fst).map fun p => 12 + ((p.1.length : Int) + 1) := by
      rw [fileHeaderSpecs, List.map_map, List.map_map]
      exact List.map_congr_left fun p _ => size_fileHeaderSpec p.2 p.1.1
    rw [specsSize, hmap, List.zipIdx_map_fst]
  have hheader : ReadfsHeader.spec.size = 12 := by decide
  unfold created PlanEntry.readfsBytes
  rw [specsSize_append, specsSize_append, specsSize_cons, specsSize_nil, hheader, hheaders, hfiles,
    Int.add_zero]

/-- The headers and the files a ReadFS has filed are there to be filled in. -/
structure Filed (s : FlashSection ReadfsAttrs) : Prop where
  fileHeader : ∀ r ∈ s.self.fileHeaders, ∀ name ∈ ["offset", "file_size", "name_len", "name"],
    (s.storedAt r name).isSome
  file : ∀ r ∈ s.self.files, (s.storedAt r "data").isSome

theorem Filed.of_keepsFields {t : FlashSection ReadfsAttrs} (h : Filed s)
    (hkept : s.KeepsFields t) : Filed t := by
  refine ⟨fun r hr name hname => ?_, fun r hr => ?_⟩
  · rw [hkept.stored]
    exact h.fileHeader r (hkept.self ▸ hr) name hname
  · rw [hkept.stored]
    exact h.file r (hkept.self ▸ hr)

/-- The new structures are filed behind those of the entries before. -/
theorem Filed.unfilled (h : Filed s) {sizes : List Nat}
    (hlen : s.self.filePaths.length = sizes.length) :
    Filed (unfilled s (fileSpecs s.self.filePaths sizes)) := by
  refine ⟨fun r hr name hname => ?_, fun r hr => ?_⟩
  · rcases List.mem_append.mp hr with hr | hr
    · exact (storedAt_holding_of_isSome (h.fileHeader r hr name hname) _ _).symm ▸
        h.fileHeader r hr name hname
    · obtain ⟨i, hi, rfl⟩ := exists_refsFrom hr
      exact isSome_storedAt_holding (by rfl)
        (getElem?_created_header (List.getElem?_eq_getElem hi)) hname
  · rcases List.mem_append.mp hr with hr | hr
    · exact (storedAt_holding_of_isSome (h.file r hr) _ _).symm ▸ h.file r hr
    · obtain ⟨i, hi, rfl⟩ := exists_refsFrom hr
      have hspec : (fileSpecs s.self.filePaths sizes)[i]? =
          some (ReadfsFile.spec i (sizes.get ⟨i, hlen ▸ hi⟩)) := by
        simp [fileSpecs, List.getElem?_zipWith, List.getElem?_zipIdx, List.getElem?_eq_getElem hi,
          List.getElem?_eq_getElem (hlen ▸ hi)]
      exact isSome_storedAt_holding (by rfl) ((getElem?_created_file i).trans hspec)
        (List.mem_singleton.mpr rfl)

/-- A section with a main header and a header and a file for every path. -/
structure Fillable (v : FlashSection ReadfsAttrs) (header : CStructRef) (count : Nat) : Prop where
  header : ∀ name ∈ ReadfsHeader.spec.fieldNames, (v.storedAt header name).isSome
  filed : Filed v
  fileHeaders : count ≤ v.self.fileHeaders.length
  files : count ≤ v.self.files.length

theorem fillable_unfilled (h : Filed s) {sizes : List Nat}
    (hlen : s.self.filePaths.length = sizes.length) :
    Fillable (unfilled s (fileSpecs s.self.filePaths sizes)) ⟨s.structs.length, 0⟩
      s.self.filePaths.length := by
  refine ⟨fun name hname => isSome_storedAt_holding (by rfl) (by rfl) hname, h.unfilled hlen,
    ?_, ?_⟩
  · unfold unfilled
    rw [holding_self, withSelf_self, List.length_append, length_refsFrom]
    exact Nat.le_add_left _ _
  · unfold unfilled
    rw [holding_self, withSelf_self, List.length_append, length_refsFrom]
    exact Nat.le_add_left _ _

theorem exists_structSizes {refs : List CStructRef}
    (h : ∀ r ∈ refs, ∃ name, (v.storedAt r name).isSome) {u : FlashSection ReadfsAttrs}
    (hu : v.KeepsFields u) : ∃ total, structSizes u refs = .ok total := by
  induction refs with
  | nil => exact ⟨0, rfl⟩
  | cons r refs ih =>
    obtain ⟨name, hstored⟩ := h r List.mem_cons_self
    rw [← hu.stored] at hstored
    obtain ⟨c, -, hc, -⟩ := exists_structAt hstored
    obtain ⟨rest, hrest⟩ := ih fun r' hr' => h r' (List.mem_cons_of_mem r hr')
    exact ⟨c.size + rest, by rw [structSizes, hc, hrest]⟩

section Fill

variable {header : CStructRef} {count : Nat}

/-- A pass of the loop fails only where the file cannot be read. -/
theorem refines_fillFile {p : (String × String) × Nat} {size : Nat}
    (hfill : Fillable v header count) (hp : p.2 < count) (hsize : host.getsize p.1.2 = .ok size)
    {u : FlashSection ReadfsAttrs} (hu : v.KeepsFields u) :
    Refines (fillFile host p) u (fun _ _ s' => v.KeepsFields s') (host.readFile (.path p.1.2)) := by
  have hheader := List.getElem?_eq_getElem (lt_of_lt_of_le hp hfill.fileHeaders)
  have hfile := List.getElem?_eq_getElem (lt_of_lt_of_le hp hfill.files)
  have hfields := hfill.filed.fileHeader _ (List.mem_of_getElem? hheader)
  have hdata := hfill.filed.file _ (List.mem_of_getElem? hfile)
  obtain ⟨⟨name, path⟩, i⟩ := p
  unfold fillFile
  refine .get_bind ?_
  dsimp only
  rw [hu.self]
  refine .step (runs_refAt hheader u) (.step (runs_refAt hfile u) ?_)
  refine .after (succeeds_read hdata _) hu fun _ u hu => ?_
  refine .after (succeeds_setField (hfields _ (by decide)) _) hu fun _ u hu => ?_
  refine .step (returns_reading.mpr ⟨hsize, rfl⟩) ?_
  refine .after (succeeds_setField (hfields _ (by decide)) _) hu fun _ u hu => ?_
  refine .after (succeeds_setField (hfields _ (by decide)) _) hu fun _ u hu => ?_
  refine .after (succeeds_setField (hfields _ (by decide)) _) hu fun _ u hu => ?_
  refine .eval_last fun data _ => ?_
  obtain ⟨_, s', run, hkept⟩ := succeeds_setField hdata (.bytes data) u hu
  exact .returns run hkept

/-- Filling in the values fails only where a file cannot be read. -/
theorem refines_fill {paths : List (String × String)} {sizes : List Nat}
    (hfill : Fillable v header paths.length)
    (hsizes : List.Forall₂ (fun p size => host.getsize p.1.2 = .ok size) paths.zipIdx sizes) :
    Refines (fill host header paths) v (fun _ _ s' => v.KeepsFields s')
      (paths.mapM fun p => host.readFile (.path p.2)) := by
  have hpaths : (paths.zipIdx.mapM fun p => host.readFile (.path p.1.2)) =
      paths.mapM fun p => host.readFile (.path p.2) := by
    conv_rhs => rw [← List.zipIdx_map_fst 0 paths, List.mapM_map]
    rfl
  have hheaders : ∀ r ∈ v.self.fileHeaders, ∃ name, (v.storedAt r name).isSome :=
    fun r hr => ⟨"offset", hfill.filed.fileHeader r hr _ (by decide)⟩
  rw [← hpaths]
  unfold fill
  refine .get_bind ?_
  refine .after (succeeds_read (hfill.header "fs_size" (by decide)) _) (.refl v) fun _ u hu => ?_
  refine .after (succeeds_reading fun u hu => exists_structSizes hheaders hu) hu fun _ u hu => ?_
  refine .after (succeeds_setField (hfill.header "fs_size" (by decide)) _) hu fun _ u hu => ?_
  refine .after (succeeds_setField (hfill.header "nb_files" (by decide)) _) hu fun _ u hu => ?_
  refine Refines.forEach_mapM (I := fun _ _ u => v.KeepsFields u)
    (fun done p rest _ u hsplit hu => ?_) hu
  have hp : p ∈ paths.zipIdx := by
    rw [hsplit]
    exact List.mem_append_right done List.mem_cons_self
  obtain ⟨i, hi⟩ := List.mem_iff_getElem?.mp hp
  obtain ⟨size, -, hsize⟩ := getElem?_forall₂ hsizes hi
  exact refines_fillFile hfill (List.snd_lt_of_mem_zipIdx hp) hsize hu

end Fill

/-- A ReadFS after some entries: it keeps the files of all of them. -/
structure KeepsPaths (host : Host) (earlier : List ContentSection) (s : FlashSection ReadfsAttrs) :
    Prop where
  paths : (do
    let found ← earlier.mapM (ContentSection.paths host)
    pure found.flatten) = .ok s.self.filePaths
  filed : Filed s

theorem keepsPaths_new (hself : s.self = {}) : KeepsPaths host [] s := by
  refine ⟨?_, fun r hr => ?_, fun r hr => ?_⟩
  · rw [hself]
    rfl
  · rw [hself] at hr
    cases hr
  · rw [hself] at hr
    cases hr

/-- The files of an entry come behind those of the entries before. -/
theorem KeepsPaths.paths_append {earlier : List ContentSection} (h : KeepsPaths host earlier s)
    (content : ContentSection) :
    (do
      let found ← (earlier ++ [content]).mapM (ContentSection.paths host)
      pure found.flatten) = (do
      let paths ← content.paths host
      pure (s.self.filePaths ++ paths)) := by
  obtain ⟨found, hfound, hpaths⟩ := bind_eq_ok_iff.mp h.paths
  have hkept : found.flatten = s.self.filePaths := Except.ok.inj hpaths
  rw [← hkept, List.mapM_append, hfound]
  simp only [List.mapM_cons, List.mapM_nil, bind_assoc, pure_bind]
  refine (pure_bind found _).trans (bind_congr fun paths => ?_)
  rw [List.flatten_concat]

/-- The bytes of the files, if every file has a size and can be read. -/
theorem refines_setContent {e : PlanEntry} (hs : Valued e.template e.earlier s.properties)
    (hkeeps : KeepsPaths host e.earlier s) (offset : Int) :
    Refines (setContent host offset e.content) s
      (fun allocated _ s' => Took e allocated s' ∧ KeepsPaths host e.contents s')
      (do
        let _ ← e.content.given.entries.mapM e.checkProperty
        let paths ← e.paths host
        let sizes ← paths.mapM fun p => host.getsize p.2
        let _ ← paths.mapM fun p => host.readFile (.path p.2)
        pure (PlanEntry.readfsBytes paths sizes)) := by
  unfold setContent
  refine (FlashSection.refines_setContent e hs offset).bind ?_
  rintro _ _ s₁ ⟨properties, rfl, hproperties⟩
  have hvalued : Valued e.template e.contents
      (s.started properties (s.startOffset offset)).properties := hproperties
  have hkeeps₁ : KeepsPaths host e.earlier (s.started properties (s.startOffset offset)) :=
    ⟨hkeeps.paths, hkeeps.filed.fileHeader, hkeeps.filed.file⟩
  have hfresh : (s.started properties (s.startOffset offset)).currentOffset =
      (s.started properties (s.startOffset offset)).offset := rfl
  generalize s.started properties (s.startOffset offset) = u at *
  have hall := hkeeps₁.paths_append e.content
  change e.paths host = _ at hall
  rw [hall, bind_assoc]
  refine ((refines_addPaths e.content).weaken fun _ _ _ hpaths _ hs' =>
    And.intro hpaths hs').bind ?_
  rintro paths _ _ ⟨hpaths, rfl⟩
  rw [pure_bind]
  have hkept : (withPaths u paths).self.filePaths = u.self.filePaths ++ paths := rfl
  have hfiled : Filed (withPaths u paths) := ⟨hkeeps₁.filed.fileHeader, hkeeps₁.filed.file⟩
  have hvalued' : Valued e.template e.contents (withPaths u paths).properties := hvalued
  have hfresh' : (withPaths u paths).currentOffset = (withPaths u paths).offset := hfresh
  have hcontents : (do
      let found ← e.contents.mapM (ContentSection.paths host)
      pure found.flatten) = .ok (withPaths u paths).self.filePaths := by
    refine hall.trans ?_
    rw [hpaths]
    rfl
  rw [← hkept]
  generalize withPaths u paths = w at *
  refine .step (returns_newParent (by exact hfresh') "readfs") (refines_modifySelf_bind ?_)
  simp only [withSelf_holding, holding_self]
  refine .step (returns_newOf (by rfl) _ _ ReadfsHeader.spec.nodup) (refines_modifySelf_bind ?_)
  refine .get_bind ?_
  simp only [withSelf_holding, withSelf_withSelf, withSelf_self, holding_self]
  refine .step (runs_createHeaders (by rfl) "readfs" _ w.self.filePaths) ?_
  refine (refines_createFiles (by rfl) "readfs" _ w.self.filePaths).bind ?_
  rintro sizes _ _ ⟨hsizes, rfl⟩
  have hlen : w.self.filePaths.length = sizes.length := by
    rw [← hsizes.length_eq, List.length_zipIdx]
  have hfillable := fillable_unfilled hfiled hlen
  have htook : Took e (PlanEntry.readfsBytes w.self.filePaths sizes)
      (unfilled w (fileSpecs w.self.filePaths sizes)) :=
    ⟨(allocated_holding _ "readfs" _).trans (specsSize_created hlen), hvalued'⟩
  have hcontents' : (do
      let found ← e.contents.mapM (ContentSection.paths host)
      pure found.flatten) =
        .ok (unfilled w (fileSpecs w.self.filePaths sizes)).self.filePaths := hcontents
  have hcount : ([ReadfsHeader.spec] ++ fileHeaderSpecs w.self.filePaths).length =
      1 + w.self.filePaths.length := by
    rw [List.length_append, length_fileHeaderSpecs, List.length_singleton]
  have hfiled' := hfillable.filed
  have hfill := (refines_fill hfillable hsizes).map
    (S := fun allocated _ s' => Took e allocated s' ∧ KeepsPaths host e.contents s') fun _ _ s' hkept =>
      ⟨htook.of_keepsFields hkept, hkept.self ▸ hcontents', hfiled'.of_keepsFields hkept⟩
  unfold unfilled at hfill
  rw [← hcount] at hfill
  exact hfill

end ReadfsSection

/-! ## HostFS -/

namespace HostfsSection

variable {s : FlashSection Unit}

/-- Nothing is allocated; every file is copied. -/
theorem refines_setContent {e : PlanEntry} (hs : Valued e.template e.earlier s.properties)
    (offset : Int) :
    Refines (setContent host offset e.content) s (fun allocated _ s' => Took e allocated s')
      (do
        let _ ← e.content.given.entries.mapM e.checkProperty
        let files ← e.content.property "files"
        let items ← files.iterate
        let _ ← items.mapM fun file => host.copy file (host.getAbspath (basename file))
        pure 0) := by
  unfold setContent
  refine (FlashSection.refines_setContent e hs offset).bind ?_
  rintro _ _ _ ⟨properties, rfl, hvalued⟩
  refine .eval fun files _ => .eval fun items _ => ?_
  have hcopy : ∀ file, ∀ u : FlashSection Unit,
      u = s.started properties (s.startOffset offset) →
      Refines (outcome (host.copy file (host.getAbspath (basename file)))) u
        (fun _ _ u' => u' = s.started properties (s.startOffset offset)) _ :=
    fun _ u hu => (Refines.reading rfl).weaken fun _ _ _ _ _ h => h.2.trans hu
  have hloop := Refines.forEach_mapM
    (I := fun _ _ u => u = s.started properties (s.startOffset offset))
    (fun _ file _ _ u (_ : items = _) hu => hcopy file u hu) rfl
  refine hloop.map fun _ _ s' hs' => ?_
  rw [hs']
  exact ⟨Int.sub_self _, hvalued⟩

end HostfsSection

/-! ## Raw -/

namespace RawSection

variable {s : FlashSection Unit}

/-- What `set_content` takes for the size of the array is the requested size. -/
theorem number_requested (value : PyValue) (start : Int) :
    (if value.eqInt (-1) then PyValue.int (flash.size - start) else value).number =
      if value.eqInt (-1) then pure (.int (flash.size - start)) else value.number := by
  split <;> rfl

theorem operand_requested (value : PyValue) (start : Int) :
    (if value.eqInt (-1) then pure (flash.size - start) else value.operand) =
      (if value.eqInt (-1) then pure (.int (flash.size - start)) else value.number) >>=
        fun size => pure size.toInt := by
  split
  · rfl
  · rw [PyValue.operand_eq_map]
    cases value.number <;> rfl

/-- One array of the requested size. -/
theorem refines_setContent {e : PlanEntry} (hs : Valued e.template e.earlier s.properties)
    (offset : Int) :
    Refines (setContent flash offset e.content) s (fun allocated _ s' => Took e allocated s')
      (do
        let _ ← e.content.given.entries.mapM e.checkProperty
        requestedSize flash (s.startOffset offset) (e.value "size")) := by
  unfold setContent
  refine (FlashSection.refines_setContent e hs offset).bind ?_
  rintro _ _ _ ⟨properties, rfl, hproperties⟩
  have hvalued : Valued e.template e.contents
      (s.started properties (s.startOffset offset)).properties := hproperties
  have hsize := hvalued.getProperty (declared_size _)
  refine .step (returns_newParent (by rfl) "readfs") ?_
  refine .step (returns_reading.mpr ⟨hsize, rfl⟩) ?_
  unfold requestedSize
  refine .eval fun value _ => .get_bind ?_
  refine .step (returns_newStruct _ "readfs" [] "header") ?_
  rw [number_requested, operand_requested]
  refine .eval fun size _ => ?_
  -- creating the structure and declaring its field is the constructor of the class
  have hnewOf : Returns (CStruct.newOf (RawHeader.fields size) "header" _)
      ((s.started properties (s.startOffset offset)).holding "readfs" []) _ _ :=
    returns_newOf (by rfl) _ "header" (headerSpec size).nodup
  obtain ⟨_, _, hnew, hdeclare⟩ := returns_bind.mp hnewOf
  obtain ⟨rfl, rfl⟩ := hnew.unique (returns_newStruct _ "readfs" [] "header")
  obtain ⟨_, _, hdeclare, hdone⟩ := returns_bind.mp hdeclare
  obtain ⟨-, rfl⟩ := returns_pure.mp hdone
  refine .returns hdeclare ⟨(allocated_holding _ "readfs" _).trans ?_, hvalued⟩
  exact (Int.add_zero _).trans (size_headerSpec size)

end RawSection

/-! ## LittleFS -/

namespace LfsSection

variable {s : FlashSection LfsAttrs}

theorem runs_realign (offset : Int) (properties : Dict String FlashSectionProperty) :
    Returns (realign flash offset) (s.started properties (s.startOffset offset)) ()
      (s.started properties (startOffset flash s offset)) := by
  unfold realign startOffset
  cases flash.attributes.get "littlefs_align" with
  | none => exact returns_pure.mpr ⟨rfl, rfl⟩
  | some align => exact returns_modify.mpr rfl

/-- The properties are taken in the order of the demand. -/
theorem refines_readProperties {e : PlanEntry} {property : PyValue}
    (hproperty : s.getProperty "size" = .ok property) :
    Refines (readProperties flash e.content) s
      (fun b size s' => size = b.2.2 ∧
        ∃ value, s' = s.withSelf (attributesOf flash s.name s.self.extImg b.1 b.2.1 value))
      (do
        let rootDir ← e.content.property "root_dir"
        let imgPath ← e.content.property "img_path"
        let size ← RawSection.requestedNumber flash s.offset property
        pure (rootDir, imgPath, size)) := by
  unfold readProperties
  refine .eval fun rootDir _ => refines_modifySelf_bind ?_
  refine .step (returns_reading.mpr ⟨hproperty, rfl⟩) (refines_modifySelf_bind ?_)
  refine .eval fun imgPath _ => .get_bind (refines_modifySelf_bind ?_)
  unfold RawSection.requestedNumber
  rw [bind_assoc]
  refine .eval fun value _ => refines_modifySelf_bind ?_
  have hnumber : ∀ u : FlashSection LfsAttrs, Refines (Program.reading fun _ =>
      (if value.eqInt (-1) then PyValue.int (flash.size - s.offset) else value).number) u _ _ :=
    fun u => Refines.reading (RawSection.number_requested value s.offset)
  refine (hnumber _).map fun size _ s' hread => ?_
  obtain ⟨rfl, rfl⟩ := hread
  refine ⟨rfl, if value.eqInt (-1) then .int (flash.size - s.offset) else value, ?_⟩
  rw [withSelf_withSelf, withSelf_withSelf, withSelf_withSelf]
  unfold attributesOf
  by_cases hgiven : imgPath = .none
  · simp only [if_pos hgiven]
    rfl
  · simp only [if_neg hgiven]
    rfl

/-- The properties say whether the entry names an image. -/
theorem namesImage_of_read {content : ContentSection} {property : PyValue} {offset : Int}
    {b : PyValue × PyValue × PyNumber}
    (h : (do
      let rootDir ← content.property "root_dir"
      let imgPath ← content.property "img_path"
      let size ← RawSection.requestedNumber flash offset property
      pure (rootDir, imgPath, size)) = .ok b) : content.namesImage = decide (b.2.1 ≠ .none) := by
  obtain ⟨rootDir, -, h⟩ := bind_eq_ok_iff.mp h
  obtain ⟨imgPath, himgPath, h⟩ := bind_eq_ok_iff.mp h
  obtain ⟨size, -, h⟩ := bind_eq_ok_iff.mp h
  obtain rfl := Except.ok.inj h
  unfold ContentSection.namesImage
  rw [himgPath]

/-- The image is made or read as the plan says. -/
theorem refines_fill {v : FlashSection LfsAttrs} {header : CStructRef} {name : String}
    (hdata : (v.storedAt header "data").isSome) {rootDir imgPath value : PyValue}
    {size : PyNumber} {external : Bool}
    (hself : v.self = attributesOf flash name external rootDir imgPath value) :
    Refines (fill host flash header size) v (fun _ _ s' => v.KeepsFields s')
      (PlanEntry.lfsImage host flash name external size rootDir imgPath) := by
  have hread : ∀ path : PyValue, Refines (do
      CStruct.setField header "data" (.bytes (← outcome (readImage host path))) :
        SectionM LfsAttrs Unit) v (fun _ _ s' => v.KeepsFields s')
      (do
        let _ ← readImage host path
        pure ()) := by
    intro path
    refine .eval fun data _ => ?_
    obtain ⟨_, s', run, hkept⟩ := succeeds_setField hdata (.bytes data) v (.refl v)
    exact .returns run hkept
  unfold fill PlanEntry.lfsImage
  refine .get_bind ?_
  dsimp only
  rw [hself]
  unfold attributesOf
  dsimp only
  by_cases hroot : rootDir ≠ .none
  · rw [if_pos hroot, if_pos hroot]
    refine .eval fun code _ => ?_
    by_cases hcode : code ≠ 0
    · rw [if_pos hcode, if_pos hcode]
      exact .raises (Raises.bind (raises_throw _ v) _)
    · rw [if_neg hcode, if_neg hcode]
      exact hread _
  · rw [if_neg hroot, if_neg hroot]
    by_cases hexternal : external = true ∨ imgPath ≠ .none
    · have hread' : (if imgPath = .none then external else true) = true := by
        by_cases himg : imgPath = .none
        · rw [if_pos himg]
          exact hexternal.resolve_right (not_not.mpr himg)
        · rw [if_neg himg]
      rw [if_pos hexternal, if_pos hread']
      exact hread _
    · have hnone : ¬ (if imgPath = .none then external else true) = true := by
        rw [not_or, not_not] at hexternal
        rw [if_pos hexternal.2]
        exact hexternal.1
      rw [if_neg hexternal, if_neg hnone]
      exact .pure (.refl v)

/-- Creating the array and filling it. -/
theorem refines_createImage {n : Nat} (hn : s.structs.length = n) {e : PlanEntry}
    {external : Bool} {rootDir imgPath value : PyValue}
    (hself : s.self = attributesOf flash e.name external rootDir imgPath value)
    (hvalued : Valued e.template e.contents s.properties) (size : PyNumber) :
    Refines (do
        let header ← CStruct.newOf (LfsHeader.fields size) "header" n
        fill host flash header size) (s.holding "readfs" [])
      (fun allocated _ s' => Took e allocated s' ∧ s'.self = s.self)
      (do
        PlanEntry.lfsImage host flash e.name external size rootDir imgPath
        pure size.toInt) := by
  refine .step (returns_newOf hn _ "header" (headerSpec size).nodup) ?_
  have hdata : ((s.holding "readfs" [headerSpec size]).storedAt ⟨n, 0⟩ "data").isSome :=
    isSome_storedAt_holding hn rfl (List.mem_singleton.mpr rfl)
  have htook : Took e size.toInt (s.holding "readfs" [headerSpec size]) :=
    ⟨(allocated_holding s "readfs" _).trans ((Int.add_zero _).trans (size_headerSpec size)), hvalued⟩
  exact (refines_fill hdata hself).map fun _ _ s' hkept =>
    ⟨htook.of_keepsFields hkept, hkept.self⟩

/-- One array of the requested size with the image, or nothing. -/
theorem refines_setContent {e : PlanEntry} (he : e.name = s.name)
    (hs : Valued e.template e.earlier s.properties)
    (hexternal : s.self.extImg = e.earlier.any ContentSection.namesImage) (offset : Int) :
    Refines (setContent host flash offset e.content) s
      (fun allocated _ s' => Took e allocated s' ∧
        s'.self.extImg = e.contents.any ContentSection.namesImage)
      (do
        let _ ← e.content.given.entries.mapM e.checkProperty
        let rootDir ← e.content.property "root_dir"
        let imgPath ← e.content.property "img_path"
        let size ← RawSection.requestedNumber flash (startOffset flash s offset) (e.value "size")
        if 0 < size.toInt then do
          PlanEntry.lfsImage host flash e.name (e.earlier.any ContentSection.namesImage) size
            rootDir imgPath
          pure size.toInt
        else pure 0) := by
  unfold setContent
  refine (FlashSection.refines_setContent e hs offset).bind ?_
  rintro _ _ _ ⟨properties, rfl, hproperties⟩
  have hvalued : Valued e.template e.contents
      (s.started properties (startOffset flash s offset)).properties := hproperties
  have hsize := hvalued.getProperty (declared_size _)
  have hname : (s.started properties (startOffset flash s offset)).name = e.name := he.symm
  have hself : (s.started properties (startOffset flash s offset)).self.extImg =
      e.earlier.any ContentSection.namesImage := hexternal
  have hoffset : (s.started properties (startOffset flash s offset)).offset =
      startOffset flash s offset := rfl
  refine .step (runs_realign offset properties) (.step (returns_newParent (by rfl) "readfs") ?_)
  generalize s.started properties (startOffset flash s offset) = u at *
  have hread : Refines (readProperties flash e.content) (u.holding "readfs" []) _ _ :=
    refines_readProperties hsize
  have hnext := (hread.weaken fun b size s' hb _ hs' =>
      And.intro (namesImage_of_read hb) hs').bind (g := fun b => do
    if 0 < b.2.2.toInt then do
      PlanEntry.lfsImage host flash e.name (e.earlier.any ContentSection.namesImage) b.2.2 b.1 b.2.1
      pure b.2.2.toInt
    else pure 0) (f := fun size => do
    if 0 < size.toInt then
      let header ← CStruct.newOf (LfsHeader.fields size) "header" u.structs.length
      fill host flash header size)
    (S := fun allocated _ s' => Took e allocated s' ∧
      s'.self.extImg = e.contents.any ContentSection.namesImage) ?_
  · simp only [bind_assoc, pure_bind, holding_offset, hoffset] at hnext
    exact hnext
  · rintro ⟨rootDir, imgPath, _⟩ size s₁ ⟨hnames, rfl, value, hs₁⟩
    have hstate : s₁ = (u.withSelf (attributesOf flash e.name
        (e.earlier.any ContentSection.namesImage) rootDir imgPath value)).holding "readfs" [] := by
      rw [hs₁, withSelf_holding, holding_name, holding_self, hname, hself]
    have hext : (attributesOf flash e.name (e.earlier.any ContentSection.namesImage) rootDir imgPath
        value).extImg = e.contents.any ContentSection.namesImage := by
      unfold PlanEntry.contents
      rw [List.any_append, List.any_cons, List.any_nil, hnames, Bool.or_false]
      unfold attributesOf
      by_cases himg : imgPath = .none
      · simp [himg]
      · simp [himg]
    dsimp only
    rw [hstate]
    by_cases hpos : 0 < size.toInt
    · rw [if_pos hpos, if_pos hpos]
      have hself' : (u.withSelf (attributesOf flash e.name
          (e.earlier.any ContentSection.namesImage) rootDir imgPath value)).self =
            attributesOf flash e.name (e.earlier.any ContentSection.namesImage) rootDir imgPath
              value := rfl
      refine (refines_createImage (by rfl) hself' hvalued size).weaken fun _ _ s' _ _ hs' =>
        ⟨hs'.1, (congrArg LfsAttrs.extImg hs'.2).trans hext⟩
    · rw [if_neg hpos, if_neg hpos]
      exact .pure ⟨⟨allocated_holding _ "readfs" [], hvalued⟩, hext⟩

end LfsSection

end SoftHier.Gapy
