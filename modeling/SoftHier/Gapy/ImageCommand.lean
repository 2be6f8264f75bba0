/-
  Gapy/ImageCommand.lean --- the `image` command.

  For every flash with a section that is not empty, the command looks for the last
  one from the end of the sections and dumps the image up to it.  A partition
  table is empty when the sections it lists are, so the search never runs past the
  first section.
-/
import SoftHier.Gapy.PartitionImage
import SoftHier.Gapy.SectionLookup

set_option autoImplicit false

namespace SoftHier.Gapy

open SoftHier.Foundation Program

/-! ## The command -/

/-- What becomes of opening a file and writing to it: the text of the `OSError`,
if there is one. -/
structure Disk where
  openFile : String → Option String
  write : String → Bytes → Option String

/-- `OSError`, if there is one. -/
def refused : Option String → Except PyError Unit
  | none => .ok ()
  | some message => .error (.osError message)

/-- A target and the images it has dumped, with the paths they went to. -/
structure Dumping where
  target : Target
  dumped : List (String × Bytes) := []

/-- A method of a target that dumps images. -/
abbrev DumpM (α : Type) : Type := Program PyError Dumping α

namespace Dumping

/-- Change the flash with a name. -/
def setFlash (d : Dumping) (name : String) (f : Flash) : Dumping :=
  { d with target := { d.target with flashes := d.target.flashes.set name f } }

end Dumping

/-- A method of the flash with a name. -/
def onFlash {α : Type} (name : String) (p : FlashM α) : DumpM α := fun d =>
  match d.target.flashes.get name with
  | none => .error .keyError d
  | some f =>
      match p f with
      | .ok a f' => .ok a (d.setFlash name f')
      | .error e f' => .error e (d.setFlash name f')

/-- `except OSError as exc: raise RuntimeError(text + str(exc))`. -/
def wrapOsError (text : String) (p : DumpM Unit) : DumpM Unit := fun d =>
  match p d with
  | .error (.osError message) d' => .error (.runtimeError (text ++ message)) d'
  | result => result

/-- The `with` of `dump_image`. -/
def Flash.writeImage (h : Host) (disk : Disk) (name : String) (first last : Nat) : DumpM Unit := do
  let path ← onFlash name (Program.reading fun f => .ok f.imagePath)
  Program.reading fun _ => refused (disk.openFile path)
  let image ← onFlash name (Flash.getImage h (some first) (some last))
  Program.reading fun _ => refused (disk.write path image)
  modify fun d => { d with dumped := d.dumped ++ [(path, image)] }

/-- `Flash.dump_image`. -/
def Flash.dumpImage (h : Host) (disk : Disk) (name : String) (first last : Nat) : DumpM Unit :=
  wrapOsError "Unable to open flash image for writing " (Flash.writeImage h disk name first last)

/-- `section.is_empty()`. -/
def Flash.emptySection (f : Flash) (s : Section) : Except PyError Bool :=
  Flash.sectionIsEmpty f (f.sections.length + 1) s

/-- The loop of `handle_command_image`: `index_to_last`, from the sections left
before the end. -/
def Flash.indexToLast (f : Flash) : List Section → Nat → Except PyError Nat
  | [], _ => .error .indexError
  | s :: before, index => do
      if ← f.emptySection s then f.indexToLast before (index + 1) else .ok index

namespace Target

/-- The body of `handle_command_image`. -/
def handleFlashImage (h : Host) (disk : Disk) (name : String) : DumpM Unit := do
  if ← onFlash name (Flash.isEmpty h) then pure ()
  else do
    let sections ← onFlash name (Flash.getSections h)
    let indexToLast ← onFlash name (Program.reading fun f => f.indexToLast sections.reverse 0)
    Flash.dumpImage h disk name 0 (sections.length - 1 - indexToLast)

/-- `handle_command_image`. -/
def handleCommandImage (h : Host) (disk : Disk) : DumpM Unit := do
  let d ← get
  Program.forEach (handleFlashImage h disk) d.target.flashes.keys

end Target

/-! ## Which sections are empty -/

/-- What a section says of itself; a partition table has nothing of its own. -/
def Section.holdsNothing : Section → Bool
  | .rom s => RomFlashSection.isEmpty s
  | .readfs s => ReadfsSection.isEmpty s
  | .lfs s => LfsSection.isEmpty s
  | .partitionTable _ => true
  | .hostfs _ => true
  | .raw _ => true

/-- Whether the first of some sections is empty: a partition table is when all
behind it are. -/
def firstEmpty : List Section → Bool
  | [] => true
  | .partitionTable _ :: rest => rest.all Section.holdsNothing
  | s :: _ => s.holdsNothing

/-- A section that holds something says so. -/
theorem firstEmpty_of_holds {s : Section} (h : s.holdsNothing = false) (rest : List Section) :
    firstEmpty (s :: rest) = false := by
  cases s with
  | partitionTable s => cases h
  | _ => exact h

/-- All sections hold nothing when the first is empty and the others hold nothing. -/
theorem all_holdsNothing_cons (s : Section) (rest : List Section) :
    (s :: rest).all Section.holdsNothing =
      (firstEmpty (s :: rest) && rest.all Section.holdsNothing) := by
  rw [List.all_cons]
  cases s with
  | partitionTable s => exact (Bool.and_self _).symm
  | _ => rfl

namespace PartitionTableSection

/-- The second section has the attributes of the first. -/
def KeepsAttrs (s s' : FlashSection PartitionAttrs) : Prop := s'.self = s.self

theorem KeepsAttrs.refl (s : FlashSection PartitionAttrs) : KeepsAttrs s s := rfl

theorem KeepsAttrs.trans ⦃s t u : FlashSection PartitionAttrs⦄ (h : KeepsAttrs s t)
    (h' : KeepsAttrs t u) : KeepsAttrs s u := Eq.trans h' h

theorem keepsAttrs_setField (r : CStructRef) (name : String) (value : FieldValue) :
    Keeps KeepsAttrs (CStruct.setField r name value) := by
  intro s u s' h
  obtain ⟨c, f, -, -, rfl⟩ := updated_of_setField h
  rfl

theorem keepsAttrs_fillEntry (sections : List SectionView) (p : CStructRef × Nat) :
    Keeps KeepsAttrs (fillEntry sections p) := by
  unfold fillEntry
  refine keeps_bind .trans (keepsAttrs_setField _ _ _) fun _ => ?_
  cases sections[p.2]? with
  | none => exact keeps_throw _
  | some v =>
    refine keeps_bind .trans (keepsAttrs_setField _ _ _) fun _ => ?_
    refine keeps_bind .trans (keepsAttrs_setField _ _ _) fun _ => ?_
    refine keeps_bind .trans (keepsAttrs_setField _ _ _) fun _ => ?_
    refine keeps_bind .trans (keeps_reading .refl _) fun size => ?_
    exact keeps_bind .trans (keepsAttrs_setField _ _ _) fun _ => keepsAttrs_setField _ _ _

/-- Finalizing fills in values only. -/
theorem keepsAttrs_finalize (allSections : List SectionView) :
    Keeps KeepsAttrs (finalize allSections) := by
  unfold finalize
  refine keeps_bind .trans (keeps_get .refl) fun s => ?_
  cases s.self.header with
  | none => exact keeps_throw _
  | some header =>
    refine keeps_bind .trans (keepsAttrs_setField _ _ _) fun _ => ?_
    refine keeps_bind .trans (keepsAttrs_setField _ _ _) fun _ => ?_
    refine keeps_bind .trans (keepsAttrs_setField _ _ _) fun _ => ?_
    exact keeps_forEach .refl .trans fun p _ => keepsAttrs_fillEntry _ p

end PartitionTableSection

namespace Flash

variable {host : Host} {f f' : Flash}

/-- Every partition table of a flash lists the sections behind it. -/
def TablesList (f : Flash) : Prop :=
  ∀ i t, f.sections.values[i]? = some (.partitionTable t) →
    t.self.sections = some (f.sections.keys.drop (i + 1))

theorem ParseOf.tablesList {entries : List ContentSection}
    {created placed : List (String × Section)} (hof : ParseOf host f f' entries created placed) :
    f'.TablesList := by
  intro i t ht
  obtain ⟨c, o, name, t₀, ht₀, ht₁⟩ := hof.partitionTable_run ht
  have hself : t.self = t₀.self := PartitionTableSection.keepsAttrs_finalize _ _ _ _ ht₁
  obtain ⟨s₁, -, rfl⟩ := PartitionTableSection.returns_create ht₀
  rw [hself]
  rfl

/-- Sections number `i` on, as names and as sections. -/
theorem drop_keys_values {i : Nat} {s : Section} (hs : f.sections.values[i]? = some s) :
    ∃ name, f.sections.get name = some s ∧
      f.sections.keys.drop i = name :: f.sections.keys.drop (i + 1) ∧
      f.sections.values.drop i = s :: f.sections.values.drop (i + 1) := by
  unfold Dict.values at hs ⊢
  unfold Dict.keys
  rw [List.getElem?_map] at hs
  obtain ⟨e, he, rfl⟩ := Option.map_eq_some_iff.mp hs
  obtain ⟨hi, hget⟩ := List.getElem?_eq_some_iff.mp he
  have hdrop : f.sections.entries.drop i = e :: f.sections.entries.drop (i + 1) := by
    rw [List.drop_eq_getElem_cons hi, hget]
  refine ⟨e.1, Dict.get_eq_some_iff.mpr (List.mem_of_getElem? he), ?_, ?_⟩
  · rw [← List.map_drop, hdrop, List.map_cons, List.map_drop]
  · rw [← List.map_drop, hdrop, List.map_cons, List.map_drop]

/-- What a partition table asks a section it lists. -/
def askSection (f : Flash) (fuel : Nat) (empty : Bool) (name : String) : Except PyError Bool :=
  if empty then
    match f.sections.get name with
    | some t => f.sectionIsEmpty fuel t
    | none => .error .keyError
  else .ok false

theorem sectionIsEmpty_table {fuel : Nat} {t : FlashSection PartitionAttrs} {names : List String}
    (h : t.self.sections = some names) :
    f.sectionIsEmpty (fuel + 1) (.partitionTable t) = names.foldlM (f.askSection fuel) true := by
  rw [sectionIsEmpty, h]
  rfl

theorem foldlM_askSection_false (fuel : Nat) (names : List String) :
    names.foldlM (f.askSection fuel) false = .ok false := by
  induction names with
  | nil => rfl
  | cons name names ih => exact ih

/-- The answers of the sections from one on. -/
theorem foldlM_askSection {fuel i : Nat} (hanswer : ∀ j s, i ≤ j →
      f.sections.values[j]? = some s →
        f.sectionIsEmpty fuel s = .ok (firstEmpty (f.sections.values.drop j))) :
    ∀ k j, f.sections.length = j + k → i ≤ j →
      (f.sections.keys.drop j).foldlM (f.askSection fuel) true =
        .ok ((f.sections.values.drop j).all Section.holdsNothing) := by
  intro k
  induction k with
  | zero =>
    intro j hj _
    rw [List.drop_eq_nil_of_le (by rw [Dict.length_keys]; omega),
      List.drop_eq_nil_of_le (by rw [Dict.length_values]; omega)]
    rfl
  | succ k ih =>
    intro j hj hij
    obtain ⟨s, hs⟩ : ∃ s, f.sections.values[j]? = some s :=
      ⟨_, List.getElem?_eq_getElem (by rw [Dict.length_values]; omega)⟩
    obtain ⟨name, hget, hkeys, hvalues⟩ := drop_keys_values hs
    have hone : f.askSection fuel true name =
        .ok (firstEmpty (f.sections.values.drop j)) := by
      unfold askSection
      rw [if_pos rfl, hget]
      exact hanswer j s hij hs
    have hall : (f.sections.values.drop j).all Section.holdsNothing =
        (firstEmpty (f.sections.values.drop j) &&
          (f.sections.values.drop (j + 1)).all Section.holdsNothing) := by
      rw [hvalues]
      exact all_holdsNothing_cons s _
    rw [hkeys, List.foldlM_cons, hone, hall]
    cases firstEmpty (f.sections.values.drop j) with
    | true => exact ih (j + 1) (by omega) (by omega)
    | false => exact foldlM_askSection_false fuel _

/-- A section asks those behind it only, so fuel for each of them suffices. -/
theorem sectionIsEmpty_eq (htables : f.TablesList) : ∀ {fuel i : Nat} {s : Section},
    f.sections.values[i]? = some s → f.sections.length ≤ i + fuel →
      f.sectionIsEmpty fuel s = .ok (firstEmpty (f.sections.values.drop i)) := by
  intro fuel
  induction fuel with
  | zero =>
    intro i s hs hfuel
    have hi := (List.getElem?_eq_some_iff.mp hs).1
    rw [Dict.length_values] at hi
    omega
  | succ fuel ih =>
    intro i s hs hfuel
    have hi := (List.getElem?_eq_some_iff.mp hs).1
    rw [Dict.length_values] at hi
    obtain ⟨name, -, -, hdrop⟩ := drop_keys_values hs
    rw [hdrop]
    cases s with
    | partitionTable t =>
      have hanswer : ∀ j s, i + 1 ≤ j → f.sections.values[j]? = some s →
          f.sectionIsEmpty fuel s = .ok (firstEmpty (f.sections.values.drop j)) :=
        fun j s hj hs => ih hs (by omega)
      rw [sectionIsEmpty_table (htables i t hs)]
      exact foldlM_askSection hanswer (f.sections.length - (i + 1)) (i + 1) (by omega) (le_refl _)
    | rom s => rfl
    | readfs s => rfl
    | hostfs s => rfl
    | lfs s => rfl
    | raw s => rfl

/-- `is_empty()` of every section returns. -/
theorem emptySection_eq (htables : f.TablesList) {i : Nat} {s : Section}
    (hs : f.sections.values[i]? = some s) :
    f.emptySection s = .ok (firstEmpty (f.sections.values.drop i)) :=
  sectionIsEmpty_eq htables hs (by omega)

/-- `is_empty()` of the flash. -/
theorem allEmpty_eq (htables : f.TablesList) :
    allEmpty f f.sections.values = .ok (f.sections.values.all Section.holdsNothing) := by
  have hfrom : ∀ k i, f.sections.length = i + k → allEmpty f (f.sections.values.drop i) =
      .ok ((f.sections.values.drop i).all Section.holdsNothing) := by
    intro k
    induction k with
    | zero =>
      intro i hi
      rw [List.drop_eq_nil_of_le (by rw [Dict.length_values]; omega)]
      rfl
    | succ k ih =>
      intro i hi
      obtain ⟨s, hs⟩ : ∃ s, f.sections.values[i]? = some s :=
        ⟨_, List.getElem?_eq_getElem (by rw [Dict.length_values]; omega)⟩
      obtain ⟨name, -, -, hvalues⟩ := drop_keys_values hs
      have hone := emptySection_eq htables hs
      unfold emptySection at hone
      rw [hvalues] at hone ⊢
      rw [allEmpty, hone, all_holdsNothing_cons]
      cases firstEmpty (s :: f.sections.values.drop (i + 1)) with
      | true => exact ih (i + 1) (by omega)
      | false => rfl
  exact hfrom f.sections.length 0 (by omega)

/-- `is_empty()` of all sections from one on. -/
theorem emptySections_iff (htables : f.TablesList) (i : Nat) :
    (∀ u ∈ f.sections.values.drop i, f.emptySection u = .ok true) ↔
      (f.sections.values.drop i).all Section.holdsNothing = true := by
  have hanswer : ∀ {pre post : List Section} {u : Section},
      f.sections.values = pre ++ u :: post →
        f.emptySection u = .ok (firstEmpty (u :: post)) := by
    intro pre post u hsplit
    have h := emptySection_eq htables (s := u) (i := pre.length) (by simp [hsplit])
    rw [hsplit, List.drop_left] at h
    exact h
  refine ⟨fun h => ?_, fun h u hu => ?_⟩
  · by_contra hnot
    obtain ⟨pre, s, post, hdrop, hs, -⟩ := exists_last_false (Bool.eq_false_iff.mpr hnot)
    have hsplit : f.sections.values = f.sections.values.take i ++ pre ++ s :: post := by
      rw [List.append_assoc, ← hdrop, List.take_append_drop]
    have hs' := hanswer hsplit
    rw [h s (by simp [hdrop]), firstEmpty_of_holds hs] at hs'
    cases hs'
  · obtain ⟨pre, post, hdrop⟩ := List.append_of_mem hu
    have hsplit : f.sections.values = f.sections.values.take i ++ pre ++ u :: post := by
      rw [List.append_assoc, ← hdrop, List.take_append_drop]
    rw [hdrop, List.all_append, Bool.and_eq_true, all_holdsNothing_cons, Bool.and_eq_true] at h
    rw [hanswer hsplit, h.2.1]

/-- The search for the last section that is not empty: it ends there. -/
theorem indexToLast_eq (htables : f.TablesList) {pre post : List Section} {s : Section}
    (hvalues : f.sections.values = pre ++ s :: post) (hs : s.holdsNothing = false)
    (hpost : post.all Section.holdsNothing = true) :
    f.indexToLast f.sections.values.reverse 0 = .ok post.length := by
  -- the sections behind the ones left are empty, and counted
  have hfrom : ∀ left done, post = left ++ done →
      f.indexToLast (pre ++ s :: left).reverse done.length = .ok post.length := by
    intro left
    induction left using List.reverseRecOn with
    | nil =>
      intro done hsplit
      have hat : f.sections.values[pre.length]? = some s := by simp [hvalues]
      have hanswer := emptySection_eq htables hat
      have hdrop : f.sections.values.drop pre.length = s :: post := by simp [hvalues]
      rw [hdrop, firstEmpty_of_holds hs post] at hanswer
      rw [List.reverse_append, List.reverse_cons, List.reverse_nil, List.nil_append,
        List.singleton_append, indexToLast, hanswer, hsplit]
      rfl
    | append_singleton left u ih =>
      intro done hsplit
      have hat : f.sections.values[(pre ++ s :: left).length]? = some u := by
        simp [hvalues, hsplit]
      have hdrop : f.sections.values.drop (pre ++ s :: left).length = u :: done := by
        simp [hvalues, hsplit]
      have hanswer := emptySection_eq htables hat
      rw [hdrop] at hanswer
      have hempty : firstEmpty (u :: done) = true := by
        rw [hsplit, List.append_assoc, List.all_append, Bool.and_eq_true, List.singleton_append,
          all_holdsNothing_cons, Bool.and_eq_true] at hpost
        exact hpost.2.1
      rw [hempty] at hanswer
      have hreverse : (pre ++ s :: (left ++ [u])).reverse = u :: (pre ++ s :: left).reverse := by
        simp
      rw [hreverse, indexToLast, hanswer]
      exact ih (u :: done) (by rw [hsplit, List.append_assoc]; rfl)
  have hstart := hfrom post [] (List.append_nil post).symm
  rw [← hvalues] at hstart
  exact hstart

/-! ## The image up to a section -/

/-- Where all sections have an image, the first ones have one, and it is a prefix. -/
theorem imageFrom_append {ss ts : List Section} (hne : ss ≠ []) {full : Bytes}
    (h : imageFrom none (ss ++ ts) = .ok full) :
    ∃ image, imageFrom none ss = .ok image ∧ image <+: full := by
  cases ss with
  | nil => exact absurd rfl hne
  | cons a ss =>
    obtain ⟨bs, hbs, horder, rfl⟩ := imageFrom_none_iff.mp h
    have htake : BlocksOf (a :: ss) (bs.take (ss.length + 1)) := by
      have htake := List.forall₂_take (ss.length + 1) hbs
      have hss : (a :: ss ++ ts).take (ss.length + 1) = a :: ss := by simp
      change List.Forall₂ _ ((a :: ss ++ ts).take (ss.length + 1)) _ at htake
      rwa [hss] at htake
    have hsplit := List.take_append_drop (ss.length + 1) bs
    rw [← hsplit] at horder
    refine ⟨_, imageFrom_none_iff.mpr ⟨_, htake, horder.left, rfl⟩, ?_⟩
    have happend := assemble_append a.offset (bs.take (ss.length + 1)) (bs.drop (ss.length + 1))
    rw [hsplit] at happend
    rw [happend]
    exact List.prefix_append _ _

/-- An image from the start of the flash ends where its last section ends. -/
theorem length_imageFrom {a s : Section} {ss : List Section} {image : Bytes} {size : Int}
    (h : imageFrom none (a :: ss) = .ok image) (ha : a.offset = 0)
    (hs : (a :: ss).getLast? = some s) (hsize : s.getSize = .ok size) :
    (image.length : Int) = s.offset + size := by
  obtain ⟨bs, hbs, horder, rfl⟩ := imageFrom_none_iff.mp h
  rw [length_assemble horder, stopOf_eq hbs hs hsize, ha, Int.sub_zero]

/-- What `dump_image` is to write: the image up to the end of the last section
that is not empty. -/
structure DumpedImage (f : Flash) (image : Bytes) : Prop where
  ends : ∃ pre s post size, f.sections.values = pre ++ s :: post ∧ f.emptySection s = .ok false ∧
    (∀ u ∈ post, f.emptySection u = .ok true) ∧ s.getSize = .ok size ∧
    (image.length : Int) = s.offset + size ∧ imageFrom none (pre ++ [s]) = .ok image
  isPrefix : ∀ full, imageFrom none f.sections.values = .ok full → image <+: full

/-- A flash with distinct names whose content passes a parse, or one without a
content. -/
def Accepted (h : Host) (f : Flash) : Prop :=
  f.Opens h ∧ f.DistinctNames ∨ f.sections = Dict.empty ∧ f.contentDict.isNone = true

/-- What the command relies on in an accepted flash. -/
structure Commanded (f : Flash) : Prop where
  tables : f.TablesList
  start : ∀ a, f.sections.values[0]? = some a → a.offset = 0
  sizes : ∀ s ∈ f.sections.values, ∃ size, s.getSize = .ok size

/-- A flash without a content is never parsed. -/
theorem returns_parseContent_none (h : f.contentDict.isNone = true) (checkOverflow : Bool) :
    Returns (parseContent host checkOverflow) f () f := by
  unfold Flash.parseContent
  rw [returns_get_bind, if_pos (.inr h)]
  exact returns_pure.mpr ⟨rfl, rfl⟩

theorem opened_none (h : f.contentDict.isNone = true) : f.opened host = f :=
  (returns_parseContent_none h true).finalState

theorem Accepted.returns (h : f.Accepted host) :
    Returns (parseContent host true) f () (f.opened host) := by
  rcases h with ⟨hopens, -⟩ | ⟨-, hnone⟩
  · exact hopens.returns
  · rw [opened_none hnone]
    exact returns_parseContent_none hnone true

theorem Accepted.again (h : f.Accepted host) :
    Returns (parseContent host true) (f.opened host) () (f.opened host) := by
  rcases h with ⟨hopens, -⟩ | ⟨-, hnone⟩
  · exact returns_parseContent_again hopens.looked.parsed
  · rw [opened_none hnone]
    exact returns_parseContent_none hnone true

theorem Accepted.call (h : f.Accepted host) (c : Call) :
    finalState (c.run host) f = f.opened host ∧
      finalState (c.run host) (f.opened host) = f.opened host := by
  rcases h with ⟨hopens, -⟩ | ⟨-, hnone⟩
  · exact hopens.call c
  · rw [opened_none hnone, finalState_run, (returns_parseContent_none hnone _).finalState]
    exact ⟨rfl, rfl⟩

theorem Accepted.commanded (h : f.Accepted host) : (f.opened host).Commanded := by
  rcases h with ⟨hopens, hdistinct⟩ | ⟨hempty, hnone⟩
  · obtain ⟨entries, created, placed, hof⟩ :=
      parseContent_parseOf hopens.1 hdistinct hopens.returns
    refine ⟨hof.tablesList, fun a ha => hof.first_offset ha, fun s hs => ?_⟩
    obtain ⟨-, -, size, hsize⟩ := hof.laidOut hs
    exact ⟨size, hsize⟩
  · have hvalues : f.sections.values = [] := by
      rw [hempty]
      rfl
    rw [opened_none hnone]
    refine ⟨fun i t ht => ?_, fun a ha => ?_, fun s hs => ?_⟩
    · rw [hvalues] at ht
      cases ht
    · rw [hvalues] at ha
      cases ha
    · rw [hvalues] at hs
      cases hs

theorem Accepted.imagePath (h : f.Accepted host) : (f.opened host).imagePath = f.imagePath := by
  rcases h with ⟨hopens, hdistinct⟩ | ⟨-, hnone⟩
  · obtain ⟨entries, created, placed, hof⟩ :=
      parseContent_parseOf hopens.1 hdistinct hopens.returns
    rw [hof.frame]
  · rw [opened_none hnone]

/-- The image of the sections up to the last one that holds something. -/
theorem Commanded.dumpedImage (h : f.Commanded) {pre post : List Section} {s : Section}
    (hvalues : f.sections.values = pre ++ s :: post) (hs : s.holdsNothing = false)
    (hpost : post.all Section.holdsNothing = true) {image : Bytes}
    (himage : imageFrom none (pre ++ [s]) = .ok image) : DumpedImage f image := by
  have hat : f.sections.values[pre.length]? = some s := by simp [hvalues]
  have hanswer := emptySection_eq h.tables hat
  have hdrop : f.sections.values.drop pre.length = s :: post := by simp [hvalues]
  rw [hdrop, firstEmpty_of_holds hs] at hanswer
  have hrest : ∀ u ∈ post, f.emptySection u = .ok true := by
    intro u hu
    obtain ⟨left, right, hpostSplit⟩ := List.append_of_mem hu
    have hat : f.sections.values[(pre ++ s :: left).length]? = some u := by
      simp [hvalues, hpostSplit]
    have hdrop : f.sections.values.drop (pre ++ s :: left).length = u :: right := by
      simp [hvalues, hpostSplit]
    have hanswer := emptySection_eq h.tables hat
    rw [hpostSplit, List.all_append, Bool.and_eq_true, all_holdsNothing_cons,
      Bool.and_eq_true] at hpost
    rw [hdrop, hpost.2.1] at hanswer
    exact hanswer
  obtain ⟨size, hsize⟩ := h.sizes s (by rw [hvalues]; simp)
  refine ⟨⟨pre, s, post, size, hvalues, hanswer, hrest, hsize, ?_, himage⟩, fun full hfull => ?_⟩
  · cases pre with
    | nil => exact length_imageFrom himage (h.start s (by simp [hvalues])) rfl hsize
    | cons a pre =>
      have hlast : (a :: pre ++ [s]).getLast? = some s := List.getLast?_concat ..
      exact length_imageFrom himage (h.start a (by simp [hvalues])) hlast hsize
  · rw [hvalues, ← List.singleton_append, ← List.append_assoc] at hfull
    obtain ⟨image', himage', hprefix⟩ := imageFrom_append (by simp) hfull
    rw [himage] at himage'
    cases himage'
    exact hprefix

end Flash

/-! ## No image fails with an index error -/

theorem packAll_error {α : Type} {pack : α → Except PyError Bytes}
    (hpack : ∀ x e, pack x = .error e → e = .structError) {xs : List α} {e : PyError}
    (h : packAll pack xs = .error e) : e = .structError := by
  induction xs with
  | nil => cases h
  | cons x xs ih =>
    rw [packAll] at h
    cases hx : pack x with
    | error e' =>
      rw [hx] at h
      cases h
      exact hpack x _ hx
    | ok b =>
      rw [hx] at h
      cases hxs : packAll pack xs with
      | error e' =>
        rw [hxs] at h
        cases h
        exact ih hxs
      | ok rest =>
        rw [hxs] at h
        cases h

namespace Flash

/-- A section with a size has an image, or its values do not fit. -/
theorem getImage_error {s : Section} {size : Int} (hsize : s.getSize = .ok size) {e : PyError}
    (h : s.getImage = .error e) : e ≠ .indexError := by
  have hsize : s.base.getSize = .ok size := hsize
  have h : s.base.getImage = .error e := h
  have hstruct : ∀ (c : CStruct) (e : PyError), c.pack = .error e → e = .structError := by
    intro c e h
    unfold CStruct.pack at h
    dsimp only at h
    split at h
    · refine packAll_error (fun p e h => ?_) h
      unfold packItem at h
      split at h
      · split at h
        · cases h
        · cases h
          rfl
      · unfold packBytes at h
        split at h
        · split at h
          · cases h
          · cases h
            rfl
        · cases h
          rfl
      · cases h
        rfl
    · cases h
      rfl
  unfold FlashSection.getImage at h
  cases hpack : packAll CStructParent.pack s.base.structs with
  | error e' =>
    have he' : e' = .structError :=
      packAll_error (fun p e h => packAll_error hstruct h) hpack
    rw [hpack] at h
    cases h
    rw [he']
    exact nofun
  | ok b =>
    obtain ⟨number, hnumber, -⟩ := map_eq_ok_iff.mp hsize
    rw [hpack, hnumber] at h
    simp only [bind, Except.bind] at h
    split at h
    · cases h
    · split at h
      · cases h
        exact nofun
      · cases h

/-- No image of sections with sizes fails with an index error. -/
theorem imageFrom_error {ss : List Section} (hsizes : ∀ s ∈ ss, ∃ size, s.getSize = .ok size) :
    ∀ {prev : Option Section}, (∀ p, prev = some p → ∃ size, p.getSize = .ok size) →
      ∀ {e : PyError}, imageFrom prev ss = .error e → e ≠ .indexError := by
  induction ss with
  | nil =>
    intro prev _ e h
    cases h
  | cons s ss ih =>
    intro prev hprev e h
    obtain ⟨size, hsize⟩ := hsizes s List.mem_cons_self
    have hrest : ∀ {e : PyError}, imageFrom (some s) ss = .error e → e ≠ .indexError :=
      ih (fun t ht => hsizes t (List.mem_cons_of_mem s ht)) fun p hp => by
        cases hp
        exact ⟨size, hsize⟩
    have himages : ∀ padding : Bytes, (do
        let image ← s.getImage
        let result ← imageFrom (some s) ss
        pure (padding ++ image ++ result)) = (.error e : Except PyError Bytes) →
          e ≠ .indexError := by
      intro padding h
      simp only [bind, Except.bind, pure, Except.pure] at h
      cases himage : s.getImage with
      | error e' =>
        rw [himage] at h
        cases h
        exact getImage_error hsize himage
      | ok image =>
        cases hresult : imageFrom (some s) ss with
        | error e' =>
          rw [himage, hresult] at h
          cases h
          exact hrest hresult
        | ok result =>
          rw [himage, hresult] at h
          cases h
    cases prev with
    | none =>
      rw [imageFrom] at h
      exact himages [] h
    | some p =>
      obtain ⟨before, hbefore⟩ := hprev p rfl
      rw [imageFrom] at h
      simp only [hbefore] at h
      by_cases hneg : s.offset - p.offset - before < 0
      · simp only [bind, Except.bind, throw, throwThe, MonadExceptOf.throw, if_pos hneg] at h
        cases h
        intro heq
        cases heq
      · refine himages (List.replicate (s.offset - p.offset - before).toNat 0) ?_
        simp only [bind, Except.bind, pure, Except.pure, if_neg hneg] at h ⊢
        exact h

end Flash

/-! ## One flash -/

namespace Dumping

theorem get_setFlash (d : Dumping) (name : String) (f : Flash) :
    (d.setFlash name f).target.flashes.get name = some f := Dict.get_set_self _ _ _

theorem setFlash_setFlash (d : Dumping) (name : String) (f f' : Flash) :
    (d.setFlash name f).setFlash name f' = d.setFlash name f' :=
  congrArg (fun flashes => { d with target := { d.target with flashes := flashes } })
    (Dict.set_set _ _ _ _)

end Dumping

section OnFlash

variable {α : Type} {d : Dumping} {name : String} {p : FlashM α} {f f' : Flash} {a : α}

theorem returns_onFlash (hf : d.target.flashes.get name = some f) (hp : Returns p f a f') :
    Returns (onFlash name p) d a (d.setFlash name f') := by
  unfold Returns onFlash
  rw [hf]
  change (match p f with
    | .ok a f' => EStateM.Result.ok a (d.setFlash name f')
    | .error e f' => .error e (d.setFlash name f')) = _
  rw [show p f = .ok a f' from hp]

/-- A method that leaves the flash as it is. -/
theorem returns_onFlash_self (hp : Returns p f a f) :
    Returns (onFlash name p) (d.setFlash name f) a (d.setFlash name f) := by
  have h := returns_onFlash (d.get_setFlash name f) hp
  rwa [Dumping.setFlash_setFlash] at h

theorem raises_onFlash_self {e : PyError} (hp : Raises p f e f) :
    Raises (onFlash name p) (d.setFlash name f) e (d.setFlash name f) := by
  unfold Raises onFlash
  rw [d.get_setFlash name f]
  change (match p f with
    | .ok a f' => EStateM.Result.ok a ((d.setFlash name f).setFlash name f')
    | .error e f' => .error e ((d.setFlash name f).setFlash name f')) = _
  rw [show p f = .error e f from hp]
  exact congrArg (EStateM.Result.error e) (Dumping.setFlash_setFlash d name f f)

end OnFlash

theorem returns_wrapOsError {text : String} {p : DumpM Unit} {d d' : Dumping}
    (h : Returns p d () d') : Returns (wrapOsError text p) d () d' := by
  unfold Returns wrapOsError
  rw [show p d = .ok () d' from h]

theorem raises_wrapOsError {text : String} {p : DumpM Unit} {d d' : Dumping} {e : PyError}
    (h : Raises p d e d') (he : e ≠ .indexError) :
    ∃ e', Raises (wrapOsError text p) d e' d' ∧ e' ≠ .indexError := by
  unfold Raises wrapOsError
  rw [show p d = .error e d' from h]
  cases e with
  | osError message => exact ⟨_, rfl, nofun⟩
  | _ => exact ⟨_, rfl, he⟩

theorem raises_refused {message : String} {x : Option String} (hx : x = some message)
    (d : Dumping) :
    Raises (Program.reading fun _ => refused x : DumpM Unit) d (.osError message) d :=
  raises_reading.mpr ⟨by rw [hx]; rfl, rfl⟩

namespace Flash

/-- The file can be written, and all sections have an image. -/
def Dumpable (disk : Disk) (f : Flash) : Prop :=
  disk.openFile f.imagePath = none ∧ (∀ image, disk.write f.imagePath image = none) ∧
    ∃ full, imageFrom none f.sections.values = .ok full

/-- Writing the image up to the last section that holds something. -/
theorem writeImage_cases (host : Host) (disk : Disk) {f : Flash}
    (hagain : Returns (parseContent host true) f () f) (hf : f.Commanded)
    {pre post : List Section} {s : Section} (hvalues : f.sections.values = pre ++ s :: post)
    (hs : s.holdsNothing = false) (hpost : post.all Section.holdsNothing = true) (d : Dumping)
    (name : String) :
    (∃ image, Returns (writeImage host disk name 0 pre.length) (d.setFlash name f) ()
        { d.setFlash name f with dumped := d.dumped ++ [(f.imagePath, image)] } ∧
      DumpedImage f image) ∨
      ∃ e d', Raises (writeImage host disk name 0 pre.length) (d.setFlash name f) e d' ∧
        e ≠ .indexError ∧ ¬ f.Dumpable disk := by
  have hpath : Returns (onFlash name (Program.reading fun f => .ok f.imagePath))
      (d.setFlash name f) f.imagePath (d.setFlash name f) :=
    returns_onFlash_self (returns_reading.mpr ⟨rfl, rfl⟩)
  have hslice : (f.sections.values.take (pre.length + 1)).drop 0 = pre ++ [s] := by
    simp [hvalues, List.take_append]
  have hrun : getImage host (some 0) (some pre.length) f =
      Program.reading (fun f => imageFrom none
        ((f.sections.values.take (pre.length + 1)).drop 0)) f :=
    hagain.run_bind _
  unfold writeImage Returns Raises
  rw [hpath.run_bind]
  cases hopen : disk.openFile f.imagePath with
  | some message =>
    refine .inr ⟨.osError message, _, (raises_refused rfl _).bind _, nofun, fun hdumpable => ?_⟩
    rw [hdumpable.1] at hopen
    cases hopen
  | none =>
    have hopened : Returns (Program.reading fun _ => refused none : DumpM Unit)
        (d.setFlash name f) () (d.setFlash name f) := returns_reading.mpr ⟨rfl, rfl⟩
    rw [hopened.run_bind]
    cases himage : imageFrom none (pre ++ [s]) with
    | error e =>
      have hraises : Raises (getImage host (some 0) (some pre.length)) f e f := by
        unfold Raises
        rw [hrun]
        exact raises_reading.mpr ⟨by rw [hslice]; exact himage, rfl⟩
      have hsizes : ∀ u ∈ pre ++ [s], ∃ size, u.getSize = .ok size := by
        intro u hu
        refine hf.sizes u ?_
        rw [hvalues]
        rcases List.mem_append.mp hu with hu | hu
        · exact List.mem_append_left _ hu
        · rw [List.mem_singleton.mp hu]
          exact List.mem_append_right _ List.mem_cons_self
      refine .inr ⟨e, _, (raises_onFlash_self hraises).bind _,
        imageFrom_error hsizes (fun p hp => by cases hp) himage, ?_⟩
      rintro ⟨-, -, full, hfull⟩
      rw [hvalues, ← List.singleton_append, ← List.append_assoc] at hfull
      obtain ⟨image, himage', -⟩ := imageFrom_append (by simp) hfull
      rw [himage] at himage'
      cases himage'
    | ok image =>
      have hreturns : Returns (getImage host (some 0) (some pre.length)) f image f := by
        unfold Returns
        rw [hrun]
        exact returns_reading.mpr ⟨by rw [hslice]; exact himage, rfl⟩
      rw [(returns_onFlash_self hreturns).run_bind]
      cases hwrite : disk.write f.imagePath image with
      | some message =>
        refine .inr ⟨.osError message, _, (raises_refused rfl _).bind _, nofun, fun hdumpable => ?_⟩
        rw [hdumpable.2.1 image] at hwrite
        cases hwrite
      | none => exact .inl ⟨image, rfl, hf.dumpedImage hvalues hs hpost himage⟩

/-- `dump_image` up to the last section that holds something. -/
theorem dumpImage_cases (host : Host) (disk : Disk) {f : Flash}
    (hagain : Returns (parseContent host true) f () f) (hf : f.Commanded)
    {pre post : List Section} {s : Section} (hvalues : f.sections.values = pre ++ s :: post)
    (hs : s.holdsNothing = false) (hpost : post.all Section.holdsNothing = true) (d : Dumping)
    (name : String) :
    (∃ image, Returns (dumpImage host disk name 0 pre.length) (d.setFlash name f) ()
        { d.setFlash name f with dumped := d.dumped ++ [(f.imagePath, image)] } ∧
      DumpedImage f image) ∨
      ∃ e d', Raises (dumpImage host disk name 0 pre.length) (d.setFlash name f) e d' ∧
        e ≠ .indexError ∧ ¬ f.Dumpable disk := by
  rcases writeImage_cases host disk hagain hf hvalues hs hpost d name with
    ⟨image, h, hdumped⟩ | ⟨e, d', h, he, hnot⟩
  · exact .inl ⟨image, returns_wrapOsError h, hdumped⟩
  · obtain ⟨e', h', he'⟩ := raises_wrapOsError h he
    exact .inr ⟨e', d', h', he', hnot⟩

end Flash

namespace Target

variable {host : Host} {disk : Disk} {t : Target} {d : Dumping}

/-- Every flash of the target is as it was, or open. -/
def Handling (h : Host) (t : Target) (d : Dumping) : Prop :=
  ∀ name f, t.flashes.get name = some f →
    ∃ g, d.target.flashes.get name = some g ∧ (g = f ∨ g = f.opened h)

theorem Handling.setFlash (hd : Handling host t d) {name : String} {f : Flash}
    (hf : t.flashes.get name = some f) : Handling host t (d.setFlash name (f.opened host)) := by
  intro n u hu
  change ∃ g, (d.target.flashes.set name (f.opened host)).get n = some g ∧ _
  rw [Dict.get_set]
  by_cases hname : name = n
  · subst hname
    rw [hf, Option.some.injEq] at hu
    subst hu
    exact ⟨_, if_pos rfl, .inr rfl⟩
  · rw [if_neg hname]
    exact hd n u hu

/-- `is_empty()` is false for some section of a flash. -/
def NonEmpty (h : Host) (p : String × Flash) : Prop :=
  ∃ s ∈ (p.2.opened h).sections.values, (p.2.opened h).emptySection s = .ok false

instance (h : Host) : DecidablePred (NonEmpty h) := fun _ =>
  inferInstanceAs (Decidable (∃ s ∈ _, _))

theorem nonEmpty_iff {p : String × Flash} (htables : (p.2.opened host).TablesList) :
    NonEmpty host p ↔ (p.2.opened host).sections.values.all Section.holdsNothing = false := by
  have hiff := Flash.emptySections_iff htables 0
  rw [List.drop_zero] at hiff
  rw [← Bool.not_eq_true, ← hiff]
  unfold NonEmpty
  push Not
  refine exists_congr fun s => and_congr_right fun hs => ?_
  obtain ⟨i, hi⟩ := List.mem_iff_getElem?.mp hs
  rw [Flash.emptySection_eq htables hi]
  cases firstEmpty ((p.2.opened host).sections.values.drop i) with
  | true => exact ⟨nofun, fun h => absurd rfl h⟩
  | false => exact ⟨fun _ => nofun, fun _ => rfl⟩

/-- The outcome for one flash. -/
theorem handleFlashImage_cases (disk : Disk) {name : String} {f : Flash} (hf : f.Accepted host)
    (hget : t.flashes.get name = some f) (hd : Handling host t d) :
    ((f.opened host).sections.values.all Section.holdsNothing = true ∧
      ∃ d', Returns (handleFlashImage host disk name) d () d' ∧ Handling host t d' ∧
        d'.dumped = d.dumped) ∨
    (f.opened host).sections.values.all Section.holdsNothing = false ∧
      ((∃ image d', Returns (handleFlashImage host disk name) d () d' ∧ Handling host t d' ∧
        d'.dumped = d.dumped ++ [(f.imagePath, image)] ∧ Flash.DumpedImage (f.opened host) image) ∨
      ∃ e d', Raises (handleFlashImage host disk name) d e d' ∧ e ≠ .indexError ∧
        ¬ (f.opened host).Dumpable disk) := by
  obtain ⟨g, hg, hcases⟩ := hd name f hget
  have hcommanded := hf.commanded
  have hparse : Returns (Flash.parseContent host true) g () (f.opened host) := by
    rcases hcases with rfl | rfl
    · exact hf.returns
    · exact hf.again
  have hempty : Returns (onFlash name (Flash.isEmpty host)) d
      ((f.opened host).sections.values.all Section.holdsNothing)
      (d.setFlash name (f.opened host)) := by
    refine returns_onFlash hg (Returns.bind hparse ?_)
    exact returns_reading.mpr ⟨Flash.allEmpty_eq hcommanded.tables, rfl⟩
  cases hall : (f.opened host).sections.values.all Section.holdsNothing with
  | true =>
    rw [hall] at hempty
    exact .inl ⟨rfl, _, Returns.bind hempty (returns_pure.mpr ⟨rfl, rfl⟩), hd.setFlash hget, rfl⟩
  | false =>
    refine .inr ⟨rfl, ?_⟩
    obtain ⟨pre, s, post, hvalues, hs, hpost⟩ := exists_last_false hall
    have hsections : Returns (onFlash name (Flash.getSections host))
        (d.setFlash name (f.opened host)) (f.opened host).sections.values
        (d.setFlash name (f.opened host)) := by
      refine returns_onFlash_self (Returns.bind hf.again ?_)
      rw [returns_get_bind]
      exact returns_pure.mpr ⟨rfl, rfl⟩
    have hindex : Returns (onFlash name (Program.reading fun g =>
          g.indexToLast (f.opened host).sections.values.reverse 0))
        (d.setFlash name (f.opened host)) post.length (d.setFlash name (f.opened host)) :=
      returns_onFlash_self (returns_reading.mpr
        ⟨Flash.indexToLast_eq hcommanded.tables hvalues hs hpost, rfl⟩)
    have hlast : (f.opened host).sections.values.length - 1 - post.length = pre.length := by
      rw [hvalues, List.length_append, List.length_cons]
      omega
    have hrun : handleFlashImage host disk name d =
        Flash.dumpImage host disk name 0 pre.length (d.setFlash name (f.opened host)) := by
      unfold handleFlashImage
      rw [hempty.run_bind, hall]
      refine (hsections.run_bind _).trans ((hindex.run_bind _).trans ?_)
      rw [hlast]
    unfold Returns Raises
    rw [hrun]
    rcases Flash.dumpImage_cases host disk hf.again hcommanded hvalues hs hpost d name with
      ⟨image, hreturns, hdumped⟩ | ⟨e, d', hraises, he, hnot⟩
    · rw [hf.imagePath] at hreturns
      exact .inl ⟨image, _, hreturns, hd.setFlash hget, rfl, hdumped⟩
    · exact .inr ⟨e, d', hraises, he, hnot⟩

/-! ## All flashes -/

/-- What the command writes for a flash: the path it goes to and the image. -/
def Written (h : Host) (p : String × Flash) (out : String × Bytes) : Prop :=
  out.1 = p.2.imagePath ∧ Flash.DumpedImage (p.2.opened h) out.2

/-- The outcome of the loop over some of the flashes. -/
theorem handleFlashes_cases (disk : Disk)
    (haccepted : ∀ p ∈ t.flashes.entries, p.2.Accepted host)
    {es : List (String × Flash)} (hes : es ⊆ t.flashes.entries) : ∀ {d : Dumping},
      Handling host t d →
        (∃ d' outs, Returns (forEach (handleFlashImage host disk) (es.map Prod.fst)) d () d' ∧
          d'.dumped = d.dumped ++ outs ∧
          List.Forall₂ (Written host) (es.filter (NonEmpty host)) outs) ∨
        ∃ e d', Raises (forEach (handleFlashImage host disk) (es.map Prod.fst)) d e d' ∧
          e ≠ .indexError ∧
          ∃ p ∈ es, NonEmpty host p ∧ ¬ (p.2.opened host).Dumpable disk := by
  induction es with
  | nil =>
    intro d hd
    exact .inl ⟨d, [], returns_forEach_nil.mpr rfl, (List.append_nil _).symm, .nil⟩
  | cons p es ih =>
    intro d hd
    have hp : p ∈ t.flashes.entries := hes List.mem_cons_self
    have hf := haccepted p hp
    have hnonEmpty := nonEmpty_iff (p := p) hf.commanded.tables
    have hrest : ∀ {d₁ : Dumping} (outs₁ : List (String × Bytes)),
        Returns (handleFlashImage host disk p.1) d () d₁ → Handling host t d₁ →
        d₁.dumped = d.dumped ++ outs₁ →
        (∀ {outs}, List.Forall₂ (Written host) (es.filter (NonEmpty host)) outs →
          List.Forall₂ (Written host) ((p :: es).filter (NonEmpty host)) (outs₁ ++ outs)) →
        (∃ d' outs,
          Returns (forEach (handleFlashImage host disk) ((p :: es).map Prod.fst)) d () d' ∧
          d'.dumped = d.dumped ++ outs ∧
          List.Forall₂ (Written host) ((p :: es).filter (NonEmpty host)) outs) ∨
        ∃ e d', Raises (forEach (handleFlashImage host disk) ((p :: es).map Prod.fst)) d e d' ∧
          e ≠ .indexError ∧
          ∃ q ∈ p :: es, NonEmpty host q ∧ ¬ (q.2.opened host).Dumpable disk := by
      intro d₁ outs₁ hone hd₁ hdumped₁ hall
      rcases ih (fun q hq => hes (List.mem_cons_of_mem p hq)) hd₁ with
        ⟨d', outs, hreturns, hdumped, hwritten⟩ | ⟨e, d', hraises, he, q, hq, hcause⟩
      · refine .inl ⟨d', outs₁ ++ outs, returns_forEach_cons.mpr ⟨d₁, hone, hreturns⟩, ?_,
          hall hwritten⟩
        rw [hdumped, hdumped₁, List.append_assoc]
      · exact .inr ⟨e, d', raises_forEach_cons.mpr (.inr ⟨d₁, hone, hraises⟩), he, q,
          List.mem_cons_of_mem p hq, hcause⟩
    rcases handleFlashImage_cases disk hf (Dict.get_eq_some_iff.mpr hp) hd with
      ⟨hempty, d₁, hone, hd₁, hdumped₁⟩ | ⟨hholds, ⟨image, d₁, hone, hd₁, hdumped₁, himage⟩ |
        ⟨e, d', hraises, he, hnot⟩⟩
    · refine hrest [] hone hd₁ (by rw [hdumped₁, List.append_nil]) fun hwritten => ?_
      have hnot : ¬ NonEmpty host p := by
        rw [hnonEmpty, hempty]
        exact nofun
      rw [List.filter_cons_of_neg (by simpa using hnot)]
      exact hwritten
    · refine hrest [_] hone hd₁ hdumped₁ fun hwritten => ?_
      rw [List.filter_cons_of_pos (by simpa using hnonEmpty.mpr hholds)]
      exact .cons ⟨rfl, himage⟩ hwritten
    · exact .inr ⟨e, d', raises_forEach_cons.mpr (.inl hraises), he, p, List.mem_cons_self,
        hnonEmpty.mpr hholds, hnot⟩

/-- What the `image` command does. -/
structure HandlesImages (h : Host) (disk : Disk) (t : Target) (d : Dumping) : Prop where
  noIndexError : ∀ e d', Raises (handleCommandImage h disk) d e d' → e ≠ .indexError
  dumps : ∀ d', Returns (handleCommandImage h disk) d () d' →
    List.Forall₂ (Written h) (t.flashes.entries.filter (NonEmpty h)) d'.dumped
  returns : (∀ p ∈ t.flashes.entries, NonEmpty h p → (p.2.opened h).Dumpable disk) →
    ∃ d', Returns (handleCommandImage h disk) d () d'
  tables : ∀ p ∈ t.flashes.entries, ∀ i table,
    (p.2.opened h).sections.values[i]? = some (.partitionTable table) →
      ((p.2.opened h).emptySection (.partitionTable table) = .ok true ↔
        ∀ u ∈ (p.2.opened h).sections.values.drop (i + 1), (p.2.opened h).emptySection u = .ok true)

/-- Whatever was called on the flashes before, the command dumps those that are not
empty, up to their last section that is not. -/
theorem handlesImages (host : Host) (disk : Disk) (history : List (String × Flash.Call))
    {t : Target} (haccepted : ∀ p ∈ t.flashes.entries, p.2.Accepted host) :
    HandlesImages host disk t { target := t.after host history } := by
  have hentries := entries_after_of_calls history fun p hp => (haccepted p hp).call
  have hkeys : (t.after host history).flashes.keys = t.flashes.entries.map Prod.fst := by
    unfold Dict.keys
    rw [hentries, List.map_map]
    exact List.map_congr_left fun p _ => seen_fst p
  have hhandling : Handling host t { target := t.after host history } := by
    intro name f hf
    have hmem : seen host history (name, f) ∈ (t.after host history).flashes.entries := by
      rw [hentries]
      exact List.mem_map_of_mem (Dict.get_eq_some_iff.mp hf)
    refine ⟨(seen host history (name, f)).2, Dict.get_eq_some_iff.mpr ?_, ?_⟩
    · have hname : (seen host history (name, f)).1 = name := seen_fst (name, f)
      rw [← Prod.mk.eta (p := seen host history (name, f)), hname] at hmem
      exact hmem
    · unfold seen
      split
      · exact .inr rfl
      · exact .inl rfl
  have hcommand : handleCommandImage host disk { target := t.after host history } =
      forEach (handleFlashImage host disk) (t.flashes.entries.map Prod.fst)
        { target := t.after host history } := by
    rw [← hkeys]
    rfl
  have hcases := handleFlashes_cases disk haccepted (List.Subset.refl _) hhandling
  refine ⟨fun e d' h => ?_, fun d' h => ?_, fun hdumpable => ?_, fun p hp i table htable => ?_⟩
  · have h := hcommand.symm.trans h
    rcases hcases with ⟨d₁, outs, hreturns, -⟩ | ⟨e₁, d₁, hraises, he, -⟩
    · cases hreturns.symm.trans h
    · cases hraises.symm.trans h
      exact he
  · have h := hcommand.symm.trans h
    rcases hcases with ⟨d₁, outs, hreturns, hdumped, hwritten⟩ | ⟨e₁, d₁, hraises, -⟩
    · cases hreturns.symm.trans h
      rw [hdumped]
      exact hwritten
    · cases hraises.symm.trans h
  · rcases hcases with ⟨d₁, outs, hreturns, -⟩ | ⟨e₁, d₁, -, -, p, hp, hnonEmpty, hnot⟩
    · exact ⟨d₁, hcommand.trans hreturns⟩
    · exact absurd (hdumpable p hp hnonEmpty) hnot
  · have htables := (haccepted p hp).commanded.tables
    obtain ⟨name, -, -, hdrop⟩ := Flash.drop_keys_values htable
    rw [Flash.emptySection_eq htables htable, Flash.emptySections_iff htables, hdrop]
    exact ⟨fun h => Except.ok.inj h, fun h => congrArg Except.ok h⟩

/-- A host with one file. -/
def oneFileHost : Host :=
  { Host.noFiles with getsize := fun _ => .ok 3, readFile := fun _ => .ok [1, 2, 3] }

/-- A flash with a table in front of a file and of a raw section, and one with a
raw section only. -/
def imageTarget : Target where
  parser := ⟨[], []⟩
  flashes := (Dict.empty.set "mram" (Flash.ofContent 0x200 Dict.empty
    [{ name := some "table", template := some "partition table", properties := none },
      { name := some "files", template := some "readfs",
        properties := some (Dict.empty.set "files" (.list ["dir/a"])) },
      rawEntry "data" 8])).set "flash" (Flash.ofContent 0x20 Dict.empty [rawEntry "data" 4])

/-- Only the first of them is dumped. -/
theorem handlesImages_two :
    HandlesImages oneFileHost ⟨fun _ => none, fun _ _ => none⟩ imageTarget
      { target := imageTarget.after oneFileHost [("flash", .isEmpty)] } := by
  refine handlesImages _ _ _ fun p hp => .inl ?_
  rcases List.mem_pair.mp hp with rfl | rfl
  · exact ⟨⟨⟨rfl, rfl, rfl⟩, _, returns_of_returned? (by decide +kernel)⟩, by decide⟩
  · exact ⟨⟨⟨rfl, rfl, rfl⟩, _, returns_of_returned? (by decide +kernel)⟩, by decide⟩

end Target

end SoftHier.Gapy
