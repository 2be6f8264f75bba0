/-
  Gapy/ReadfsImage.lean --- the files a reader finds in a ReadFS.

  The headers have different lengths, so the reader finds each header behind the
  one before: `walkHeaders` steps by the name length it has just read.  It visits
  one header per file, and the contents are where the headers say.
-/
import SoftHier.Gapy.RomImage

set_option autoImplicit false

namespace SoftHier.Gapy

open SoftHier.Foundation Program

/-! ## The reader -/

/-- The size of the headers, as a reader finds it. -/
def readFsSize (image : Bytes) : Nat := readNat image 0 8

/-- The number of files. -/
def readNbFiles (image : Bytes) : Nat := readNat image 8 4

/-- A file header as a reader sees it; the name ends with a zero byte if there
is room for it. -/
structure ReadfsFileFields where
  offset : Nat
  fileSize : Nat
  nameLen : Nat
  name : Bytes
  deriving DecidableEq, Repr

/-- The file header at a position. -/
def readFileHeader (image : Bytes) (pos : Nat) : ReadfsFileFields where
  offset := readNat image pos 4
  fileSize := readNat image (pos + 4) 4
  nameLen := readNat image (pos + 8) 4
  name := slice image (pos + 12) (readNat image (pos + 8) 4)

/-- The headers from a position on, each behind the one before. -/
def walkHeaders (image : Bytes) : Nat → Nat → List ReadfsFileFields
  | 0, _ => []
  | count + 1, pos =>
      let header := readFileHeader image pos
      header :: walkHeaders image count (pos + 12 + header.nameLen)

/-- All file headers of a ReadFS. -/
def readHeaders (image : Bytes) : List ReadfsFileFields := walkHeaders image (readNbFiles image) 12

/-- The contents of the files of a ReadFS. -/
def readContents (image : Bytes) : List Bytes :=
  (readHeaders image).map fun header => slice image header.offset header.fileSize

/-! ## Where the headers and the contents lie -/

/-- The place of file header `i`. -/
def headerStart (paths : List (String × String)) (i : Nat) : Nat :=
  12 + ((paths.take i).map fun p => 12 + (p.1.length + 1)).sum

/-- The place of the content of file `i`. -/
def contentStart (paths : List (String × String)) (contents : List Bytes) (i : Nat) : Nat :=
  headerStart paths paths.length + ((contents.take i).map List.length).sum

theorem headerStart_succ {paths : List (String × String)} {i : Nat} {p : String × String}
    (hp : paths[i]? = some p) :
    headerStart paths (i + 1) = headerStart paths i + 12 + (p.1.length + 1) := by
  rw [headerStart, headerStart, List.take_add_one, hp, List.map_append, List.sum_append]
  simp only [Option.toList_some, List.map_cons, List.map_nil, List.sum_cons, List.sum_nil]
  omega

theorem contentStart_succ {paths : List (String × String)} {contents : List Bytes} {i : Nat}
    {data : Bytes} (hdata : contents[i]? = some data) :
    contentStart paths contents (i + 1) = contentStart paths contents i + data.length := by
  rw [contentStart, contentStart, List.take_add_one, hdata, List.map_append, List.sum_append]
  simp only [Option.toList_some, List.map_cons, List.map_nil, List.sum_cons, List.sum_nil]
  omega

theorem headerStart_mono (paths : List (String × String)) (i k : Nat) :
    headerStart paths i ≤ headerStart paths (i + k) := by
  induction k with
  | zero => exact le_refl _
  | succ k ih =>
    rw [← Nat.add_assoc]
    cases hp : paths[i + k]? with
    | none =>
      have hle : paths.length ≤ i + k := List.getElem?_eq_none_iff.mp hp
      refine le_trans ih ?_
      rw [headerStart, headerStart, List.take_of_length_le hle, List.take_of_length_le (by omega)]
    | some p =>
      rw [headerStart_succ hp]
      omega

theorem contentStart_mono (paths : List (String × String)) (contents : List Bytes) (i k : Nat) :
    contentStart paths contents i ≤ contentStart paths contents (i + k) := by
  induction k with
  | zero => exact le_refl _
  | succ k ih =>
    rw [← Nat.add_assoc]
    cases hdata : contents[i + k]? with
    | none =>
      have hle : contents.length ≤ i + k := List.getElem?_eq_none_iff.mp hdata
      refine le_trans ih ?_
      rw [contentStart, contentStart, List.take_of_length_le hle,
        List.take_of_length_le (by omega)]
    | some data =>
      rw [contentStart_succ hdata]
      omega

/-- The contents follow one another. -/
theorem contentStart_add_le {paths : List (String × String)} {contents : List Bytes} {i j : Nat}
    {data : Bytes} (hdata : contents[i]? = some data) (hij : i < j) :
    contentStart paths contents i + data.length ≤ contentStart paths contents j := by
  obtain ⟨k, rfl⟩ : ∃ k, j = i + 1 + k := ⟨j - (i + 1), by omega⟩
  rw [← contentStart_succ hdata]
  exact contentStart_mono paths contents (i + 1) k

namespace ReadfsSection

theorem header_fields (fsSize : Int) (nbFiles : Nat) :
    (ReadfsHeader.filled fsSize nbFiles).fields =
      [⟨"fs_size", .scalar .Q, .int fsSize⟩, ⟨"nb_files", .scalar .I, .int nbFiles⟩] := rfl

theorem fileHeader_fields (i : Nat) (name : String) (offset : Int) (size : Nat) :
    (ReadfsFileHeader.filled i name offset size).fields =
      [⟨"offset", .scalar .I, .int offset⟩, ⟨"file_size", .scalar .I, .int size⟩,
        ⟨"name_len", .scalar .I, .int (name.length + 1)⟩,
        ⟨"name", .bytes (.int (name.length + 1)), .bytes (utf8 name ++ [0])⟩] := rfl

theorem file_fields (i size : Nat) (data : Bytes) :
    (ReadfsFile.filled i size data).fields = [⟨"data", .bytes (.int size), .bytes data⟩] := rfl

/-- The headers before file header `i`. -/
theorem specsSize_take_headers {paths : List (String × String)} (files : List StructSpec)
    {i : Nat} (hi : i ≤ paths.length) :
    specsSize ((created paths files).take (1 + i)) = (headerStart paths i : Int) := by
  have hheaders : ∀ (l : List (String × String)) (k : Nat), specsSize
      ((l.zipIdx k).map fun p => ReadfsFileHeader.spec p.2 p.1.1) =
        ((l.map fun p => 12 + (p.1.length + 1)).sum : Nat) := by
    intro l
    induction l with
    | nil => intro k; rfl
    | cons p l ih =>
      intro k
      rw [List.zipIdx_cons, List.map_cons, specsSize_cons, ih, size_fileHeaderSpec, List.map_cons,
        List.sum_cons]
      push_cast
      rfl
  have hzip : paths.zipIdx.take i = (paths.take i).zipIdx := by
    refine List.ext_getElem? fun j => ?_
    simp only [List.getElem?_take, List.getElem?_zipIdx]
    split <;> rfl
  have htake : (created paths files).take (1 + i) =
      ReadfsHeader.spec :: (paths.take i).zipIdx.map fun p => ReadfsFileHeader.spec p.2 p.1.1 := by
    rw [created, Nat.add_comm 1 i, List.append_assoc, List.singleton_append, List.take_succ_cons,
      List.take_append_of_le_length (by rw [length_fileHeaderSpecs]; exact hi), fileHeaderSpecs,
      ← List.map_take, hzip]
  rw [htake, specsSize_cons, hheaders, headerStart]
  change (12 : Int) + _ = _
  push_cast
  rfl

/-- Everything before the content of file `i`. -/
theorem specsSize_take_files {paths : List (String × String)} {files : List StructSpec}
    {contents : List Bytes}
    (hsizes : files.map StructSpec.size = contents.map fun data => (data.length : Int)) (i : Nat) :
    specsSize ((created paths files).take (1 + paths.length + i)) =
      (contentStart paths contents i : Int) := by
  have hlen : ([ReadfsHeader.spec] ++ fileHeaderSpecs paths).length = 1 + paths.length := by
    rw [List.length_append, length_fileHeaderSpecs, List.length_singleton]
  have htake : (created paths files).take (1 + paths.length + i) =
      (created paths files).take (1 + paths.length) ++ files.take i := by
    rw [created, ← hlen, List.take_length_add_append, List.take_left']
    rfl
  rw [htake, specsSize_append, specsSize_take_headers files (le_refl _), contentStart]
  have hcast : ((((contents.take i).map List.length).sum : Nat) : Int) =
      (((contents.take i).map List.length).map Nat.cast).sum :=
    map_list_sum (Nat.castAddMonoidHom Int) _
  unfold specsSize
  rw [List.map_take, hsizes, ← List.map_take, Nat.cast_add, hcast, List.map_map]
  rfl

/-! ## The values of a section -/

section Values

variable {host : Host} {paths : List (String × String)} {contents : List Bytes}
  {specs files : List StructSpec}

/-- The structures of a ReadFS with the contents of its files. -/
structure HoldsFiles (paths : List (String × String)) (contents : List Bytes)
    (specs : List StructSpec) : Prop where
  length : specs.length = 1 + paths.length + contents.length
  header : specs[0]? =
    some (ReadfsHeader.filled (headerStart paths paths.length : Nat) paths.length)
  fileHeader : ∀ i p data, paths[i]? = some p → contents[i]? = some data → specs[1 + i]? =
    some (ReadfsFileHeader.filled i p.1 (contentStart paths contents i : Nat) data.length)
  file : ∀ i data, contents[i]? = some data →
    specs[1 + paths.length + i]? = some (ReadfsFile.filled i data.length data)
  headers : ∀ i, i ≤ paths.length → specsSize (specs.take (1 + i)) = (headerStart paths i : Nat)
  contents : ∀ i, specsSize (specs.take (1 + paths.length + i)) =
    (contentStart paths contents i : Nat)

/-- When a file is as long as the machine says, the filled structures hold the
contents of the files. -/
theorem FilledTo.holdsFiles
    (hlength : ∀ path size data, host.getsize path = .ok size → host.readFile (.path path) = .ok data →
      size = data.length)
    (hfiles : List.Forall₂ (FileSpec host) paths.zipIdx files)
    (h : FilledTo host paths files paths.length specs) :
    ∃ contents, List.Forall₂ (fun p data => host.readFile (.path p.2) = .ok data) paths contents ∧
      HoldsFiles paths contents specs := by
  obtain ⟨contents, hcontents⟩ : ∃ contents, List.Forall₂
      (fun (p : String × String) data => host.readFile (.path p.2) = .ok data) paths contents := by
    refine exists_forall₂ fun p hp => ?_
    obtain ⟨i, hi⟩ := List.mem_iff_getElem?.mp hp
    obtain ⟨size, data, -, hdata, -⟩ := h.done i p (List.getElem?_eq_some_iff.mp hi).1 hi
    exact ⟨data, hdata⟩
  -- the size of a file structure is the length of the file
  have hsizes : files.map StructSpec.size = contents.map fun data => (data.length : Int) := by
    refine List.ext_getElem? fun i => ?_
    rw [List.getElem?_map, List.getElem?_map]
    cases hdata : contents[i]? with
    | none =>
      have hlen := hfiles.length_eq
      rw [List.length_zipIdx, hcontents.length_eq] at hlen
      rw [List.getElem?_eq_none (by rw [← hlen]; exact List.getElem?_eq_none_iff.mp hdata)]
      rfl
    | some data =>
      obtain ⟨p, hp, hread⟩ := getElem?_forall₂ hcontents.flip hdata
      have hzip : paths.zipIdx[i]? = some (p, i) := by simp [List.getElem?_zipIdx, hp]
      obtain ⟨spec, hspec, size, hsize, rfl⟩ := getElem?_forall₂ hfiles hzip
      rw [hspec, Option.map_some, Option.map_some, size_fileSpec, hlength _ _ _ hsize hread]
  refine ⟨contents, hcontents, ?_, ?_, fun i p data hp hdata => ?_, fun i data hdata => ?_,
    fun i hi => ?_, fun i => ?_⟩
  · have hlen := congrArg List.length h.sizes
    have hlen' := congrArg List.length hsizes
    simp only [List.length_map, created, List.length_append, List.length_singleton,
      length_fileHeaderSpecs] at hlen hlen'
    omega
  · have hall := specsSize_take_headers [] (le_refl paths.length)
    have hcount : (created paths []).length = 1 + paths.length := by
      rw [created, List.append_nil, List.length_append, length_fileHeaderSpecs,
        List.length_singleton]
    rw [List.take_of_length_le (le_of_eq hcount)] at hall
    rw [h.header, ← hall, created, List.append_nil, specsSize_append]
    rfl
  · have hi : i < paths.length := (List.getElem?_eq_some_iff.mp hp).1
    obtain ⟨size, data', hsize, hread, hat, -⟩ := h.done i p hi hp
    obtain ⟨q, hq, hread'⟩ := getElem?_forall₂ hcontents.flip hdata
    obtain rfl : p = q := Option.some.inj (hp.symm.trans hq)
    rw [hat, specsSize_take_files hsizes, hlength _ _ _ hsize hread']
  · obtain ⟨p, hp, hread⟩ := getElem?_forall₂ hcontents.flip hdata
    have hi : i < paths.length := (List.getElem?_eq_some_iff.mp hp).1
    obtain ⟨size, data', hsize, hread', -, hat⟩ := h.done i p hi hp
    obtain rfl : data = data' := Except.ok.inj (hread.symm.trans hread')
    rw [hat, hlength _ _ _ hsize hread]
  · rw [specsSize_take_congr h.sizes, specsSize_take_headers files hi]
  · rw [specsSize_take_congr h.sizes, specsSize_take_files hsizes]

end Values

/-! ## Reading a filled section -/

section Read

variable {u : FlashSection ReadfsAttrs} {paths : List (String × String)} {contents : List Bytes}
  {specs : List StructSpec} {image : Bytes}

/-- The header of file `i` as a reader sees it. -/
def fileFields (paths : List (String × String)) (contents : List Bytes) (i : Nat) (name : String)
    (data : Bytes) : ReadfsFileFields where
  offset := contentStart paths contents i
  fileSize := data.length
  nameLen := name.length + 1
  name := fitBytes (name.length + 1) (utf8 name ++ [0])

/-- The main header. -/
theorem HoldsFiles.readHeader (hu : u.structs = []) (h : HoldsFiles paths contents specs)
    (himage : (u.holding "readfs" specs).getImage = .ok image) :
    readFsSize image = headerStart paths paths.length ∧ readNbFiles image = paths.length := by
  obtain ⟨b, off, hb, hoff, hat, -⟩ := FlashSection.holdsAt_struct hu himage h.header
  obtain rfl : off = 0 := by simpa using hoff
  have hfields := header_fields (headerStart paths paths.length : Nat) paths.length
  obtain ⟨-, hsize⟩ := hat.readField hb (j := 0) (by rw [hfields]; rfl)
    (show ((0 : Nat) : Int) = _ by rw [hfields]; rfl)
  obtain ⟨-, hnb⟩ := hat.readField hb (j := 1) (by rw [hfields]; rfl)
    (show ((8 : Nat) : Int) = _ by rw [hfields]; rfl)
  exact ⟨hsize, hnb⟩

/-- The header of a file. -/
theorem HoldsFiles.readFileHeader_eq (hu : u.structs = []) (h : HoldsFiles paths contents specs)
    (himage : (u.holding "readfs" specs).getImage = .ok image) {i : Nat} {p : String × String}
    {data : Bytes} (hp : paths[i]? = some p) (hdata : contents[i]? = some data) :
    readFileHeader image (headerStart paths i) = fileFields paths contents i p.1 data := by
  have hi : i < paths.length := (List.getElem?_eq_some_iff.mp hp).1
  obtain ⟨b, off, hb, hoff, hat, -⟩ :=
    FlashSection.holdsAt_struct hu himage (h.fileHeader i p data hp hdata)
  rw [h.headers i (le_of_lt hi)] at hoff
  obtain rfl : off = headerStart paths i := by exact_mod_cast hoff
  have hfields := fileHeader_fields i p.1 (contentStart paths contents i : Nat) data.length
  obtain ⟨-, hoffset⟩ := hat.readField hb (j := 0) (by rw [hfields]; rfl)
    (show ((0 : Nat) : Int) = _ by rw [hfields]; rfl)
  obtain ⟨-, hsize⟩ := hat.readField hb (j := 1) (by rw [hfields]; rfl)
    (show ((4 : Nat) : Int) = _ by rw [hfields]; rfl)
  obtain ⟨-, hnameLen⟩ := hat.readField hb (j := 2) (by rw [hfields]; rfl)
    (show ((8 : Nat) : Int) = _ by rw [hfields]; rfl)
  have hname := hat.field_array hb (j := 3) (by rw [hfields]; rfl)
    (show ((12 : Nat) : Int) = _ by rw [hfields]; rfl)
  simp only [ScalarFormat.size, Nat.add_zero, Int.toNat_natCast] at hoffset hsize hnameLen
  have hlen : ((p.1.length : Int) + 1).toNat = p.1.length + 1 := by omega
  rw [PyNumber.toInt_int] at hname
  rw [hlen] at hnameLen hname
  unfold HoldsAt at hname
  rw [length_fitBytes] at hname
  simp only [readFileHeader, fileFields, hoffset, hsize, hnameLen, hname]

/-- The content of a file. -/
theorem HoldsFiles.slice_eq (hu : u.structs = []) (h : HoldsFiles paths contents specs)
    (himage : (u.holding "readfs" specs).getImage = .ok image) {i : Nat} {data : Bytes}
    (hdata : contents[i]? = some data) :
    slice image (contentStart paths contents i) data.length = data := by
  obtain ⟨b, off, hb, hoff, hat, -⟩ := FlashSection.holdsAt_struct hu himage (h.file i data hdata)
  rw [h.contents i] at hoff
  obtain rfl : off = contentStart paths contents i := by exact_mod_cast hoff
  have hfile := hat.field_array hb (j := 0) (by rw [file_fields]; rfl)
    (show ((0 : Nat) : Int) = _ by rw [file_fields]; rfl)
  rw [PyNumber.toInt_int, Int.toNat_natCast, fitBytes_self rfl, Nat.add_zero] at hfile
  exact hfile

/-- Stepping over the headers, one after the other, visits all of them. -/
theorem walkHeaders_eq {headers : List ReadfsFileFields} (start : Nat → Nat)
    (hread : ∀ i header, headers[i]? = some header → readFileHeader image (start i) = header ∧
      start (i + 1) = start i + 12 + header.nameLen) :
    walkHeaders image headers.length (start 0) = headers := by
  induction headers generalizing start with
  | nil => rfl
  | cons header headers ih =>
    obtain ⟨hfirst, hnext⟩ := hread 0 header rfl
    rw [List.length_cons, walkHeaders]
    simp only [hfirst]
    rw [← hnext, ih (fun i => start (i + 1)) fun i header' h => hread (i + 1) header' h]

/-- The walk over the headers: one for each file, in order. -/
theorem HoldsFiles.readHeaders_spec (hu : u.structs = []) (h : HoldsFiles paths contents specs)
    (hlen : paths.length = contents.length)
    (himage : (u.holding "readfs" specs).getImage = .ok image) :
    readHeaders image = ((paths.zip contents).zipIdx.map fun e =>
      fileFields paths contents e.2 e.1.1.1 e.1.2) := by
  have hcount : ((paths.zip contents).zipIdx.map fun e =>
      fileFields paths contents e.2 e.1.1.1 e.1.2).length = paths.length := by
    rw [List.length_map, List.length_zipIdx, List.length_zip, ← hlen, Nat.min_self]
  rw [readHeaders, (h.readHeader hu himage).2]
  conv_lhs => rw [← hcount]
  refine walkHeaders_eq (headerStart paths) fun i header hheader => ?_
  rw [List.getElem?_map] at hheader
  obtain ⟨⟨e, j⟩, he, rfl⟩ := Option.map_eq_some_iff.mp hheader
  rw [List.getElem?_zipIdx, Nat.zero_add] at he
  obtain ⟨⟨p, data⟩, hzip, he⟩ := Option.map_eq_some_iff.mp he
  cases he
  obtain ⟨hp, hdata⟩ := List.getElem?_zip_eq_some.mp hzip
  exact ⟨h.readFileHeader_eq hu himage hp hdata, headerStart_succ hp⟩

/-! ## When there is an image -/

theorem exists_pack_spec {spec : StructSpec} (h : ∀ f ∈ spec.fields, f.kind.Holds f.value) :
    ∃ b, spec.pack = .ok b :=
  exists_packAll fun f hf => exists_packItem (h f hf)

/-- Offsets and sizes below `2 ^ 32`. -/
def Addressable (paths : List (String × String)) (contents : List Bytes) : Prop :=
  ∀ i data, contents[i]? = some data →
    contentStart paths contents i < 2 ^ 32 ∧ data.length < 2 ^ 32

theorem length_le_headerStart (paths : List (String × String)) :
    paths.length ≤ headerStart paths paths.length := by
  rw [headerStart, List.take_length]
  have hsum : paths.length ≤ (paths.map fun p => 12 + (p.1.length + 1)).sum := by
    induction paths with
    | nil => exact Nat.zero_le _
    | cons p paths ih =>
      rw [List.length_cons, List.map_cons, List.sum_cons]
      omega
  omega

/-- With offsets and sizes below `2 ^ 32` every structure can be packed. -/
theorem HoldsFiles.exists_packed (h : HoldsFiles paths contents specs)
    (hlen : paths.length = contents.length) (hbound : Addressable paths contents) :
    ∃ b, packAll StructSpec.pack specs = .ok b := by
  have hstart : headerStart paths paths.length < 2 ^ 32 := by
    cases hdata : contents[0]? with
    | none =>
      have hnil : paths.length = 0 := by
        rw [hlen]
        exact Nat.le_zero.mp (List.getElem?_eq_none_iff.mp hdata)
      rw [List.eq_nil_of_length_eq_zero hnil]
      decide
    | some data => exact (hbound 0 data hdata).1
  have hcount := length_le_headerStart paths
  refine exists_packAll fun spec hspec => exists_pack_spec ?_
  obtain ⟨j, hj⟩ := List.mem_iff_getElem?.mp hspec
  have hjlt : j < 1 + paths.length + contents.length := by
    rw [← h.length]
    exact (List.getElem?_eq_some_iff.mp hj).1
  obtain rfl | ⟨i, hi, rfl⟩ | ⟨i, hi, rfl⟩ : j = 0 ∨ (∃ i, i < paths.length ∧ j = 1 + i) ∨
      ∃ i, i < contents.length ∧ j = 1 + paths.length + i := by
    by_cases hzero : j = 0
    · exact .inl hzero
    · by_cases hheader : j - 1 < paths.length
      · exact .inr (.inl ⟨j - 1, hheader, by omega⟩)
      · exact .inr (.inr ⟨j - 1 - paths.length, by omega, by omega⟩)
  · obtain rfl := Option.some.inj (h.header.symm.trans hj)
    rw [header_fields]
    simp only [List.forall_mem_cons, FormatItem.Holds, ScalarFormat.size]
    refine ⟨⟨by omega, by omega⟩, ⟨by omega, by omega⟩, by simp⟩
  · obtain rfl := Option.some.inj ((h.fileHeader i _ _ (List.getElem?_eq_getElem hi)
      (List.getElem?_eq_getElem (hlen ▸ hi))).symm.trans hj)
    obtain ⟨hoffset, hsize⟩ := hbound i _ (List.getElem?_eq_getElem (hlen ▸ hi))
    have hname := headerStart_succ (List.getElem?_eq_getElem hi)
    have hle := headerStart_mono paths (i + 1) (paths.length - (i + 1))
    rw [Nat.add_sub_cancel' (show i + 1 ≤ paths.length from hi)] at hle
    rw [fileHeader_fields]
    simp only [List.forall_mem_cons, FormatItem.Holds, ScalarFormat.size, PyNumber.isSize_int]
    refine ⟨⟨by omega, by omega⟩, ⟨by omega, by omega⟩, ⟨by omega, by omega⟩, by omega, by simp⟩
  · obtain rfl := Option.some.inj ((h.file i _ (List.getElem?_eq_getElem hi)).symm.trans hj)
    rw [file_fields]
    simp only [List.forall_mem_cons, FormatItem.Holds]
    exact ⟨Int.natCast_nonneg _, by simp⟩

end Read

/-! ## The whole section -/

/-- What a reader finds in the image of a ReadFS: the files, in order, at
disjoint places behind the headers. -/
structure ReadsBack (image : Bytes) (paths : List (String × String)) (contents : List Bytes) :
    Prop where
  nbFiles : readNbFiles image = paths.length
  length : (readHeaders image).length = paths.length
  header : ∀ (i : Nat) (p : String × String) (data : Bytes), paths[i]? = some p →
    contents[i]? = some data → ∃ header : ReadfsFileFields,
    (readHeaders image)[i]? = some header ∧ header.nameLen = p.1.length + 1 ∧
    header.name = fitBytes (p.1.length + 1) (utf8 p.1 ++ [0]) ∧ header.fileSize = data.length ∧
    slice image header.offset header.fileSize = data
  contents : readContents image = contents
  disjoint : (readHeaders image).Pairwise fun a b => a.offset + a.fileSize ≤ b.offset
  fsSize : readFsSize image = 12 + ((readHeaders image).map fun header => 12 + header.nameLen).sum
  first : ∀ header, (readHeaders image).head? = some header → header.offset = readFsSize image

theorem HoldsFiles.readsBack {u : FlashSection ReadfsAttrs} {paths : List (String × String)}
    {contents : List Bytes} {specs : List StructSpec} {image : Bytes} (hu : u.structs = [])
    (h : HoldsFiles paths contents specs) (hlen : paths.length = contents.length)
    (himage : (u.holding "readfs" specs).getImage = .ok image) :
    ReadsBack image paths contents := by
  have hheaders := h.readHeaders_spec hu hlen himage
  have hget : ∀ {i : Nat} {p : String × String} {data : Bytes}, paths[i]? = some p →
      contents[i]? = some data →
      (readHeaders image)[i]? = some (fileFields paths contents i p.1 data) := by
    intro i p data hp hdata
    have hzip : (paths.zip contents)[i]? = some (p, data) :=
      List.getElem?_zip_eq_some.mpr ⟨hp, hdata⟩
    rw [hheaders, List.getElem?_map, List.getElem?_zipIdx, hzip]
    simp
  have hcount : (readHeaders image).length = paths.length := by
    rw [hheaders, List.length_map, List.length_zipIdx, List.length_zip, ← hlen, Nat.min_self]
  have hinv : ∀ {i : Nat} {header : ReadfsFileFields}, (readHeaders image)[i]? = some header →
      ∃ p data, paths[i]? = some p ∧ contents[i]? = some data ∧
      header = fileFields paths contents i p.1 data := by
    intro i header hi
    have hlt : i < paths.length := hcount ▸ (List.getElem?_eq_some_iff.mp hi).1
    have hp := List.getElem?_eq_getElem hlt
    have hdata := List.getElem?_eq_getElem (hlen ▸ hlt : i < contents.length)
    exact ⟨_, _, hp, hdata, Option.some.inj (hi.symm.trans (hget hp hdata))⟩
  refine ⟨(h.readHeader hu himage).2, hcount, fun i p data hp hdata => ?_, ?_, ?_, ?_,
    fun header hhead => ?_⟩
  · exact ⟨_, hget hp hdata, rfl, rfl, rfl, h.slice_eq hu himage hdata⟩
  · refine List.ext_getElem? fun i => ?_
    rw [readContents, List.getElem?_map]
    cases hi : (readHeaders image)[i]? with
    | none =>
      have hle : paths.length ≤ i := hcount ▸ List.getElem?_eq_none_iff.mp hi
      rw [List.getElem?_eq_none (hlen ▸ hle)]
      rfl
    | some header =>
      obtain ⟨p, data, -, hdata, rfl⟩ := hinv hi
      rw [hdata, Option.map_some]
      exact congrArg some (h.slice_eq hu himage hdata)
  · rw [List.pairwise_iff_getElem]
    intro i j hi hj hij
    obtain ⟨p, data, -, hdata, ha⟩ := hinv (List.getElem?_eq_getElem hi)
    obtain ⟨q, data', -, -, hb⟩ := hinv (List.getElem?_eq_getElem hj)
    rw [ha, hb]
    exact contentStart_add_le hdata hij
  · have hnames : (readHeaders image).map (fun header => 12 + header.nameLen) =
        paths.map fun p => 12 + (p.1.length + 1) := by
      refine List.ext_getElem? fun i => ?_
      rw [List.getElem?_map, List.getElem?_map]
      cases hi : (readHeaders image)[i]? with
      | none =>
        rw [List.getElem?_eq_none (hcount ▸ List.getElem?_eq_none_iff.mp hi)]
        rfl
      | some header =>
        obtain ⟨p, data, hp, -, rfl⟩ := hinv hi
        rw [hp]
        rfl
    rw [hnames, (h.readHeader hu himage).1, headerStart, List.take_length]
  · rw [List.head?_eq_getElem?] at hhead
    obtain ⟨p, data, -, -, rfl⟩ := hinv hhead
    exact (h.readHeader hu himage).1.symm

/-- Walking the image of a ReadFS finds every file of the content, with its
contents; and there is an image when the section is large enough and all offsets
and sizes are below `2 ^ 32`. -/
theorem readfs_readBack {host : Host} {name : String} {sectionId : Nat}
    {startAlign sizeAlign : Option Int} {offset : Int} {content : ContentSection}
    {s' : FlashSection ReadfsAttrs}
    (hlength : ∀ path size data, host.getsize path = .ok size → host.readFile (.path path) = .ok data →
      size = data.length)
    (hset : Returns (setContent host offset content)
      ((new name sectionId).setAlignments startAlign sizeAlign) () s') :
    ∃ paths contents, PathsOf host content paths ∧
      List.Forall₂ (fun p data => host.readFile (.path p.2) = .ok data) paths contents ∧
      (∀ image, s'.getImage = .ok image → ReadsBack image paths contents) ∧
      ((∀ a, sizeAlign = some a → 1 ≤ a) → Addressable paths contents →
        ∀ size, s'.getSize = .ok size → ∃ image, s'.getImage = .ok image) := by
  obtain ⟨s₁, paths, files, hstart, hpaths, hfiles, hfill⟩ := returns_create hset
  obtain ⟨properties, rfl, -⟩ := FlashSection.returns_setContent hstart
  obtain ⟨u, specs, rfl, -, hu, -, hfilled⟩ := fill_filledTo (by rfl) (by rfl) hfiles hfill
  obtain ⟨contents, hcontents, hholds⟩ := hfilled.holdsFiles hlength hfiles
  have hu : u.structs = [] := hu
  refine ⟨paths, contents, hpaths, hcontents, fun image himage => ?_,
    fun ha hbound size hsize => ?_⟩
  · exact hholds.readsBack hu hcontents.length_eq himage
  · obtain ⟨b, hb⟩ := hholds.exists_packed hcontents.length_eq hbound
    rw [← FlashSection.packed_holding hu "readfs"] at hb
    have halign : (u.holding "readfs" specs).sizeAlign = sizeAlign := by
      obtain ⟨specs', hplaced, -⟩ := placedAt_setContent hset
      exact hplaced.sizeAlign
    exact ⟨_, (FlashSection.laidOut_holding hu "readfs" specs).getImage
      (fun a hsome => ha a (halign ▸ hsome)) hb hsize⟩

/-- A ReadFS with two files, one of them empty. -/
theorem readfs_readBack_two :
    let host : Host := { Host.noFiles with
      getsize := fun path => if path = "dir/a" then .ok 3 else .ok 0
      readFile := fun file => if file = .path "dir/a" then .ok [1, 2, 3] else .ok [] }
    let content : ContentSection :=
      { name := some "files", template := some "readfs",
        properties := some (Dict.empty.set "files" (.list ["dir/a", "dir/b"])) }
    ∃ s' paths contents, Returns (setContent host 64 content)
        ((new "files" 0).setAlignments none none) () s' ∧
      PathsOf host content paths ∧
      List.Forall₂ (fun p data => host.readFile (.path p.2) = .ok data) paths contents ∧
      ∃ image, s'.getImage = .ok image ∧ ReadsBack image paths contents := by
  intro host content
  have hset : Returns (setContent host 64 content)
      ((new "files" 0).setAlignments none none) () _ := returns_of_returned? (by decide +kernel)
  have hlength : ∀ path size data, host.getsize path = .ok size →
      host.readFile (.path path) = .ok data → size = data.length := by
    intro path size data hsize hdata
    simp only [host] at hsize hdata
    split at hsize
    next h =>
      rw [if_pos (congrArg PyFile.path h)] at hdata
      cases hsize
      cases hdata
      rfl
    next h =>
      rw [if_neg fun heq => h (PyFile.path.inj heq)] at hdata
      cases hsize
      cases hdata
      rfl
  obtain ⟨paths, contents, hpaths, hcontents, hreads, -⟩ := readfs_readBack hlength hset
  have hsome : (finalState (setContent host 64 content)
      ((new "files" 0).setAlignments none none)).getImage.toOption.isSome = true := by
    decide +kernel
  cases himage : (finalState (setContent host 64 content)
      ((new "files" 0).setAlignments none none)).getImage with
  | error e =>
    rw [himage] at hsome
    exact absurd hsome nofun
  | ok image =>
    exact ⟨_, paths, contents, hset, hpaths, hcontents, image, himage, hreads image himage⟩

end ReadfsSection

end SoftHier.Gapy
