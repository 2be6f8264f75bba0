/-
  Gapy/ReadfsNames.lean --- the names a reader finds in a ReadFS.

  The room for a name and its stored length are counted in characters, the name
  itself is stored as UTF-8.  The packer cuts what does not fit, so a name is
  stored with its terminating zero exactly when it has as many bytes as
  characters, that is when it is ASCII.
-/
import SoftHier.Foundation.Utf8
import SoftHier.Gapy.ReadfsImage

set_option autoImplicit false

namespace SoftHier.Gapy

open SoftHier.Foundation Program

/-- An image that was computed. -/
theorem ok_of_toOption {α : Type} {x : Except PyError α} {a : α} (h : x.toOption = some a) :
    x = .ok a := by
  cases x with
  | ok _ => rw [Option.some.inj h]
  | error _ => cases h

namespace ReadfsSection

/-! ## What a reader expects of the names -/

/-- The bytes stored as the name of file `i`: `name_len` of them, behind the
header. -/
def storedName (image : Bytes) (i : Nat) : Option Bytes :=
  (readHeaders image)[i]?.map ReadfsFileFields.name

/-- The text of a stored name: the bytes up to the first NUL, decoded. -/
def decodeName (stored : Bytes) : Option String := Utf8.decode? (stored.takeWhile (· ≠ 0))

/-- The names of the files are stored as UTF-8 with a terminating zero, so they
can be read back and told apart. -/
structure NamesStored (image : Bytes) (paths : List (String × String)) : Prop where
  stored : ∀ i p, paths[i]? = some p → storedName image i = some (utf8 p.1 ++ [0])
  decoded : ∀ i p, paths[i]? = some p → (storedName image i).bind decodeName = some p.1
  different : ∀ i j p q, paths[i]? = some p → paths[j]? = some q → p.1 ≠ q.1 →
    storedName image i ≠ storedName image j

/-! ## Reading the names -/

section Read

variable {host : Host} {u : FlashSection ReadfsAttrs} {paths : List (String × String)}
  {specs files : List StructSpec} {image : Bytes}

/-- The length and the bytes of a name, from the header of its file. -/
theorem FilledTo.readName (hu : u.structs = []) (h : FilledTo host paths files paths.length specs)
    (himage : (u.holding "readfs" specs).getImage = .ok image) {i : Nat} {p : String × String}
    (hp : paths[i]? = some p) :
    (readFileHeader image (headerStart paths i)).nameLen = p.1.length + 1 ∧
      (readFileHeader image (headerStart paths i)).name =
        fitBytes (p.1.length + 1) (utf8 p.1 ++ [0]) := by
  have hi : i < paths.length := (List.getElem?_eq_some_iff.mp hp).1
  obtain ⟨size, data, -, -, hspec, -⟩ := h.done i p hi hp
  obtain ⟨b, off, hb, hoff, hat, -⟩ := FlashSection.holdsAt_struct hu himage hspec
  rw [specsSize_take_congr h.sizes, specsSize_take_headers files (le_of_lt hi)] at hoff
  obtain rfl : off = headerStart paths i := by exact_mod_cast hoff
  have hfields := fileHeader_fields i p.1
    (specsSize ((created paths files).take (1 + paths.length + i))) size
  obtain ⟨-, hnameLen⟩ := hat.readField hb (j := 2) (by rw [hfields]; rfl)
    (show ((8 : Nat) : Int) = _ by rw [hfields]; rfl)
  have hname := hat.field_array hb (j := 3) (by rw [hfields]; rfl)
    (show ((12 : Nat) : Int) = _ by rw [hfields]; rfl)
  have hlen : ((p.1.length : Int) + 1).toNat = p.1.length + 1 := by omega
  simp only [ScalarFormat.size] at hnameLen
  rw [PyNumber.toInt_int] at hname
  rw [hlen] at hnameLen hname
  unfold HoldsAt at hname
  rw [length_fitBytes] at hname
  refine ⟨hnameLen, ?_⟩
  change slice image (headerStart paths i + 12) (readNat image (headerStart paths i + 8) 4) = _
  rw [hnameLen, hname]

/-- The number of files, from the main header. -/
theorem FilledTo.readNbFiles_eq (hu : u.structs = [])
    (h : FilledTo host paths files paths.length specs)
    (himage : (u.holding "readfs" specs).getImage = .ok image) :
    readNbFiles image = paths.length := by
  obtain ⟨b, off, hb, hoff, hat, -⟩ := FlashSection.holdsAt_struct hu himage h.header
  obtain rfl : off = 0 := by simpa using hoff
  have hfields := header_fields (12 + specsSize (fileHeaderSpecs paths)) paths.length
  obtain ⟨-, hnb⟩ := hat.readField hb (j := 1) (by rw [hfields]; rfl)
    (show ((8 : Nat) : Int) = _ by rw [hfields]; rfl)
  exact hnb

/-- The walk over the headers finds the name of every file, cut to its room. -/
theorem FilledTo.storedName_eq (hu : u.structs = [])
    (h : FilledTo host paths files paths.length specs)
    (himage : (u.holding "readfs" specs).getImage = .ok image) {i : Nat} {p : String × String}
    (hp : paths[i]? = some p) :
    storedName image i = some (fitBytes (p.1.length + 1) (utf8 p.1 ++ [0])) := by
  have hwalk : readHeaders image =
      (List.range paths.length).map fun j => readFileHeader image (headerStart paths j) := by
    have hlength : ((List.range paths.length).map fun j =>
        readFileHeader image (headerStart paths j)).length = paths.length := by
      rw [List.length_map, List.length_range]
    have hsteps := @walkHeaders_eq image ((List.range paths.length).map
      fun j => readFileHeader image (headerStart paths j)) (headerStart paths)
      fun j header hheader => by
        rw [List.getElem?_map] at hheader
        obtain ⟨k, hk, rfl⟩ := Option.map_eq_some_iff.mp hheader
        have hj : j < paths.length := by
          have := (List.getElem?_eq_some_iff.mp hk).1
          rwa [List.length_range] at this
        rw [List.getElem?_range hj, Option.some.injEq] at hk
        subst hk
        have hq := List.getElem?_eq_getElem hj
        exact ⟨rfl, by rw [headerStart_succ hq, (h.readName hu himage hq).1]⟩
    rw [hlength] at hsteps
    rw [readHeaders, h.readNbFiles_eq hu himage]
    exact hsteps
  have hi : i < paths.length := (List.getElem?_eq_some_iff.mp hp).1
  rw [storedName, hwalk, List.getElem?_map, List.getElem?_range hi, Option.map_some,
    Option.map_some, (h.readName hu himage hp).2]

end Read

/-! ## Names that fit -/

theorem utf8_eq_encode (name : String) : utf8 name = Utf8.encode name := rfl

/-- The room of a name holds its bytes and the zero exactly when it is ASCII. -/
theorem fitBytes_name_iff (name : String) :
    fitBytes (name.length + 1) (utf8 name ++ [0]) = utf8 name ++ [0] ↔ Utf8.Ascii name := by
  rw [← Utf8.length_encode_eq_iff, ← utf8_eq_encode]
  constructor
  · intro h
    have hlength := congrArg List.length h
    rw [length_fitBytes, List.length_append, List.length_singleton] at hlength
    omega
  · intro h
    exact fitBytes_self (by rw [List.length_append, List.length_singleton, h])

/-- For every list of files whose names hold no NUL: the names are stored as
UTF-8 with a terminating zero exactly when all of them are ASCII. -/
theorem namesStored_iff {host : Host} {name : String} {sectionId : Nat}
    {startAlign sizeAlign : Option Int} {offset : Int} {content : ContentSection}
    {s' : FlashSection ReadfsAttrs}
    (hset : Returns (setContent host offset content)
      ((new name sectionId).setAlignments startAlign sizeAlign) () s')
    {image : Bytes} (himage : s'.getImage = .ok image)
    (hnul : ∀ p ∈ s'.self.filePaths, '\x00' ∉ p.1.toList) :
    NamesStored image s'.self.filePaths ↔ ∀ p ∈ s'.self.filePaths, Utf8.Ascii p.1 := by
  obtain ⟨s₁, paths, files, hstart, -, hfiles, hfill⟩ := returns_create hset
  obtain ⟨properties, rfl, -⟩ := FlashSection.returns_setContent hstart
  obtain ⟨u, specs, rfl, -, hu, hpaths, hfilled⟩ := fill_filledTo (by rfl) (by rfl) hfiles hfill
  have hu : u.structs = [] := hu
  have hself : (u.holding "readfs" specs).self.filePaths = u.self.filePaths := rfl
  rw [hself] at hnul ⊢
  rw [hpaths] at hnul ⊢
  generalize FlashSection.self _ = attrs at *
  have hname := fun i p hp => hfilled.storedName_eq hu himage (i := i) (p := p) hp
  constructor
  · intro hstored p hp
    obtain ⟨i, hi⟩ := List.mem_iff_getElem?.mp hp
    rw [← fitBytes_name_iff]
    exact Option.some.inj ((hname i p hi).symm.trans (hstored.stored i p hi))
  · intro hascii
    have hfit : ∀ i p, attrs.filePaths[i]? = some p →
        storedName image i = some (utf8 p.1 ++ [0]) := by
      intro i p hp
      rw [hname i p hp, (fitBytes_name_iff p.1).mpr (hascii p (List.mem_of_getElem? hp))]
    refine ⟨hfit, fun i p hp => ?_, fun i j p q hp hq hne => ?_⟩
    · have hmem := List.mem_of_getElem? hp
      rw [hfit i p hp, Option.bind_some, decodeName, utf8_eq_encode,
        Utf8.takeWhile_terminated (Utf8.ne_zero_of_mem_encode (hascii p hmem) (hnul p hmem)),
        Utf8.decode?_encode]
    · rw [hfit i p hp, hfit j q hq, Ne, Option.some.injEq, List.append_left_inj]
      exact fun heq => hne (Utf8.encode_injective heq)

/-- A machine whose files are all empty. -/
def emptyFiles : Host :=
  { Host.noFiles with
    getsize := fun _ => .ok 0
    readFile := fun _ => .ok [] }

/-- A ReadFS with some files in a content. -/
def filesEntry (files : List String) : ContentSection where
  name := some "files"
  template := some "readfs"
  properties := some (Dict.empty.set "files" (.list files))

theorem namesStored_iff_two :
    ∃ s' image, Returns (setContent emptyFiles 64 (filesEntry ["dir/a", "dir/bc"]))
        ((new "files" 0).setAlignments none none) () s' ∧ s'.getImage = .ok image ∧
      NamesStored image s'.self.filePaths := by
  have hset : Returns (setContent emptyFiles 64 (filesEntry ["dir/a", "dir/bc"]))
      ((new "files" 0).setAlignments none none) () _ := returns_of_returned? (by decide +kernel)
  have hsome : (finalState (setContent emptyFiles 64 (filesEntry ["dir/a", "dir/bc"]))
      ((new "files" 0).setAlignments none none)).getImage.toOption.isSome = true := by
    decide +kernel
  have hnul : ∀ p ∈ (finalState (setContent emptyFiles 64 (filesEntry ["dir/a", "dir/bc"]))
      ((new "files" 0).setAlignments none none)).self.filePaths, '\x00' ∉ p.1.toList := by
    decide +kernel
  have hascii : ∀ p ∈ (finalState (setContent emptyFiles 64 (filesEntry ["dir/a", "dir/bc"]))
      ((new "files" 0).setAlignments none none)).self.filePaths, Utf8.Ascii p.1 := by
    decide +kernel
  obtain ⟨image, himage⟩ := Option.isSome_iff_exists.mp hsome
  have himage := ok_of_toOption himage
  exact ⟨_, image, hset, himage, (namesStored_iff hset himage hnul).mpr hascii⟩

/-- The name `é` takes two bytes, and so does the room for it and its zero. -/
theorem not_namesStored : ¬ ∀ (host : Host) (name : String) (sectionId : Nat)
    (startAlign sizeAlign : Option Int) (offset : Int) (content : ContentSection)
    (s' : FlashSection ReadfsAttrs) (image : Bytes),
    Returns (setContent host offset content)
      ((new name sectionId).setAlignments startAlign sizeAlign) () s' →
    s'.getImage = .ok image → (∀ p ∈ s'.self.filePaths, '\x00' ∉ p.1.toList) →
    NamesStored image s'.self.filePaths := by
  intro h
  have hset : Returns (setContent emptyFiles 0 (filesEntry ["dir/é"]))
      ((new "files" 0).setAlignments none none) () _ := returns_of_returned? (by decide +kernel)
  have hname : (finalState (setContent emptyFiles 0 (filesEntry ["dir/é"]))
      ((new "files" 0).setAlignments none none)).getImage.toOption.bind
        (fun image => storedName image 0) = some [0xC3, 0xA9] := by
    decide +kernel
  have hpaths : (finalState (setContent emptyFiles 0 (filesEntry ["dir/é"]))
      ((new "files" 0).setAlignments none none)).self.filePaths = [("é", "dir/é")] := by
    decide +kernel
  generalize finalState (setContent emptyFiles 0 (filesEntry ["dir/é"])) _ = s' at *
  obtain ⟨image, himage, hname⟩ := Option.bind_eq_some_iff.mp hname
  have hstored := (h _ _ _ _ _ _ _ _ image hset (ok_of_toOption himage) (by
    rw [hpaths]
    decide)).stored 0 ("é", "dir/é") (by rw [hpaths]; rfl)
  exact absurd (hname.symm.trans hstored) (by decide)

end ReadfsSection

end SoftHier.Gapy
