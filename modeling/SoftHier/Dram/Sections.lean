/-
  Dram/Sections.lean --- the sections that ELF files left behind.

  `elfloader_read_elf` notes each segment it copies, and `elfloader_get_section`
  hands the notes out one after the other.  Files may be loaded in between: the
  notes of a later file come behind those of the earlier ones.  The loader writes
  into the last channel of the DRAM.
-/
import SoftHier.Dram.ElfImage
import SoftHier.Dram.ElfReads
import SoftHier.Dram.Preload

set_option autoImplicit false

namespace SoftHier.Dram.ElfLoader

open SoftHier.Foundation Program

/-! ## The functions of the library -/

/-- The DRAM that is filled, and the variables of the loader.  `section_index` is an
`int`, which starts at zero and only ever grows. -/
structure Preloader where
  dramsys : DramSys
  sections : List (Nat × Nat)
  entry : Nat
  sectionIndex : Nat
deriving Repr, DecidableEq

namespace Preloader

/-- What the loader works on: `getDramBasePointer` is the memory of the last channel. -/
def loader (s : Preloader) : Loader where
  destBuffer := s.dramsys.drams.getLast?.getD []
  sections := s.sections
  entry := s.entry

/-- What the loader left. -/
def left (s : Preloader) (l : Loader) : Preloader where
  dramsys := { s.dramsys with
    drams := s.dramsys.drams.dropLast ++ (s.dramsys.drams.getLast?.map fun _ => l.destBuffer).toList }
  sections := l.sections
  entry := l.entry
  sectionIndex := s.sectionIndex

/-- Before any file is loaded. -/
def start (dramsys : DramSys) : Preloader := ⟨dramsys, [], 0, 0⟩

end Preloader

/-- `dram_load_elf`, where the file is there or cannot be opened. -/
def dramLoadElf (dest : Dest) (file : Option Bytes) : Program LoaderFault Preloader Unit := fun s =>
  match file with
  | none => .ok () s
  | some file =>
    match elfloaderReadElf file dest s.loader with
    | .ok _ l => .ok () (s.left l)
    | .error e l => .error e (s.left l)

/-- `elfloader_get_section`: the address and the length, where there is a section. -/
def elfloaderGetSection : Program LoaderFault Preloader (Option (Nat × Nat)) := do
  let s ← get
  match s.sections[s.sectionIndex]? with
  | none => pure none
  | some range =>
    if 2 ^ 31 ≤ s.sectionIndex + 1 then throw .undefined
    else do
      modify fun s => { s with sectionIndex := s.sectionIndex + 1 }
      pure (some range)

/-! ## What one file leaves -/

/-- The segments that are copied, as sections. -/
def noted (phs : List Phdr) : List (Nat × Nat) :=
  phs.filterMap fun ph =>
    if ph.pType = ptLoad ∧ ph.pMemsz ≠ 0 ∧ ph.pFilesz ≠ 0 then some (ph.pPaddr, ph.pMemsz) else none

/-- The sections a file leaves, in the order of its program headers. -/
def sectionsOf (file : Bytes) : Except LoaderFault (List (Nat × Nat)) :=
  match elfClass? file with
  | none => .error .assertion
  | some c => do
    let eh ← readEhdr file c
    let phs ← (List.range eh.ePhnum).mapM (readPhdr file c eh)
    pure (noted phs)

variable {file : Bytes} {dest : Dest} {c : ElfClass} {s s' : Loader} {u : Unit}

theorem sections_writeByte {address pos i : Nat}
    (h : Returns (writeByte file dest address pos i) s u s') : s'.sections = s.sections := by
  unfold writeByte at h
  rw [returns_get_bind] at h
  simp only at h
  split at h
  · exact absurd h not_returns_throw
  · split at h
    · exact absurd h not_returns_throw
    · split at h
      · exact absurd h not_returns_throw
      · rw [returns_modify_bind] at h
        split at h
        · exact absurd h not_returns_throw
        · rw [← (returns_pure.mp h).2]

theorem sections_write {address len pos : Nat}
    (h : Returns (write file dest address len pos) s u s') : s'.sections = s.sections := by
  refine keeps_forEach (R := fun s s' : Loader => s'.sections = s.sections) (fun _ => rfl)
    (fun _ _ _ h1 h2 => h2.trans h1) (fun i _ => ?_) _ _ _ h
  exact fun _ _ _ h => sections_writeByte h

theorem noted_append (phs phs' : List Phdr) : noted (phs ++ phs') = noted phs ++ noted phs' :=
  List.filterMap_append

theorem noted_singleton (ph : Phdr) : noted [ph] =
    if ph.pType = ptLoad ∧ ph.pMemsz ≠ 0 ∧ ph.pFilesz ≠ 0 then [(ph.pPaddr, ph.pMemsz)] else [] := by
  unfold noted
  rw [List.filterMap_cons, List.filterMap_nil]
  by_cases h : ph.pType = ptLoad ∧ ph.pMemsz ≠ 0 ∧ ph.pFilesz ≠ 0
  · simp only [if_pos h]
  · simp only [if_neg h]

theorem sections_loadSegment {ph : Phdr} (h : Returns (loadSegment file dest c ph) s () s') :
    s'.sections = s.sections ++ noted [ph] := by
  have hzeros : ∀ {t : Loader}, Returns (resizeZeros c ph) t () s' → s'.sections = t.sections :=
    fun ht => by rw [← (returns_resizeZeros.mp ht).2]
  rw [noted_singleton]
  unfold Returns at h
  rcases loadSegment_cases c ph s with ⟨hskip, hrun⟩ | ⟨hload, ⟨hzero, hrun⟩ | ⟨hne, hrun⟩⟩
  · rw [if_neg fun hall => hskip ⟨hall.1, hall.2.1⟩, List.append_nil]
    rw [hrun] at h
    cases h
    rfl
  · rw [if_neg fun hall => hall.2.2 hzero, List.append_nil]
    rw [hrun] at h
    exact hzeros h
  · rw [if_pos ⟨hload.1, hload.2, hne⟩]
    rcases hrun with ⟨_, hrun⟩ | ⟨_, hrun⟩
    · rw [hrun] at h
      cases h
    · rw [hrun] at h
      obtain ⟨_, t, hwrite, hrest⟩ := returns_bind.mp h
      rw [hzeros hrest, sections_write hwrite]
      rfl

/-- After some program headers: they were read, and those copied are noted. -/
def NotedSoFar (file : Bytes) (c : ElfClass) (eh : Ehdr) (before : List (Nat × Nat))
    (done : List Nat) (s : Loader) : Prop :=
  ∃ phs, List.Forall₂ (fun i ph => readPhdr file c eh i = .ok ph) done phs ∧
    s.sections = before ++ noted phs

theorem sections_elfloaderReadElf (h : Returns (elfloaderReadElf file dest) s () s') :
    ∃ new, sectionsOf file = .ok new ∧ s'.sections = s.sections ++ new := by
  unfold elfloaderReadElf at h
  obtain ⟨_, t, hsize, h⟩ := returns_bind.mp h
  obtain ⟨_, rfl⟩ := returns_reading.mp hsize
  unfold sectionsOf
  cases hclass : elfClass? file with
  | none =>
    rw [hclass] at h
    exact absurd h not_returns_throw
  | some c =>
    simp only [hclass] at h
    obtain ⟨eh, t, hread, h⟩ := returns_bind.mp h
    obtain ⟨heh, rfl⟩ := returns_reading.mp hread
    rw [returns_modify_bind] at h
    obtain ⟨_, t, hcheck, h⟩ := returns_bind.mp h
    obtain ⟨_, rfl⟩ := returns_reading.mp hcheck
    obtain ⟨_, t, hloop, h⟩ := returns_bind.mp h
    obtain ⟨_, rfl⟩ := returns_reading.mp h
    have hentry : NotedSoFar file c eh s.sections [] { s with entry := eh.eEntry } :=
      ⟨[], .nil, (List.append_nil _).symm⟩
    obtain ⟨phs, hphs, hsections⟩ := forEach_induct (NotedSoFar file c eh s.sections) (by
      rintro done i v v' ⟨phs, hphs, hv⟩ hone
      obtain ⟨ph, v, hread, hload⟩ := returns_bind.mp hone
      obtain ⟨hph, rfl⟩ := returns_reading.mp hread
      refine ⟨phs ++ [ph], List.rel_append hphs (.cons hph .nil), ?_⟩
      rw [sections_loadSegment hload, hv, noted_append, List.append_assoc]) [] hentry hloop
    rw [List.nil_append] at hphs
    refine ⟨noted phs, ?_, hsections⟩
    simp only [heh]
    change (List.range eh.ePhnum).mapM (readPhdr file c eh) >>= (fun phs => pure (noted phs)) = _
    rw [mapM_eq_ok_iff.mpr hphs]
    rfl

/-! ## Runs -/

/-- What happened: a file was loaded, or `elfloader_get_section` returned. -/
inductive SectionEvent where
  | loaded (file : Bytes)
  | got (range : Option (Nat × Nat))
deriving Repr, DecidableEq

namespace SectionEvent

def file? : SectionEvent → Option Bytes
  | loaded file => some file
  | got _ => none

def range? : SectionEvent → Option (Nat × Nat)
  | loaded _ => none
  | got range => range

end SectionEvent

/-- A run of the two functions from a state in which no file was loaded. -/
inductive SectionRun (dramsys : DramSys) : List SectionEvent → Preloader → Prop
  | start : SectionRun dramsys [] (.start dramsys)
  | load {events : List SectionEvent} {s s' : Preloader} {dest : Dest} {file : Bytes} :
      SectionRun dramsys events s → Returns (dramLoadElf dest (some file)) s () s' →
      SectionRun dramsys (events ++ [.loaded file]) s'
  | get {events : List SectionEvent} {s s' : Preloader} {range : Option (Nat × Nat)} :
      SectionRun dramsys events s → Returns elfloaderGetSection s range s' →
      SectionRun dramsys (events ++ [.got range]) s'

/-- The sections of the files that were loaded, file by file. -/
def allSections (events : List SectionEvent) : List (Nat × Nat) :=
  (events.filterMap SectionEvent.file?).flatMap fun file => (sectionsOf file).toOption.getD []

/-- The invariant: the sections are those of the files, and as many were handed
out as the index says. -/
structure HandsOut (events : List SectionEvent) (s : Preloader) : Prop where
  sections : s.sections = allSections events
  handed : events.filterMap SectionEvent.range? = s.sections.take s.sectionIndex
  bound : s.sectionIndex ≤ s.sections.length

theorem SectionRun.handsOut {dramsys : DramSys} {events : List SectionEvent} {s : Preloader}
    (h : SectionRun dramsys events s) : HandsOut events s := by
  induction h with
  | start => exact ⟨rfl, rfl, le_refl _⟩
  | @load events s s' dest file _ hrun ih =>
    unfold Returns dramLoadElf at hrun
    simp only at hrun
    cases hloader : elfloaderReadElf file dest s.loader with
    | error e l =>
      rw [hloader] at hrun
      cases hrun
    | ok a l =>
      rw [hloader] at hrun
      cases hrun
      obtain ⟨new, hnew, hsections⟩ := sections_elfloaderReadElf hloader
      have hall : allSections (events ++ [.loaded file]) = allSections events ++ new := by
        unfold allSections
        rw [List.filterMap_append, List.flatMap_append]
        congr 1
        simp [SectionEvent.file?, hnew, Except.toOption]
      have hgrown : (s.left l).sections = s.sections ++ new := hsections
      refine ⟨?_, ?_, ?_⟩
      · rw [hgrown, hall, ih.sections]
      · rw [hgrown, List.filterMap_append]
        change _ ++ [] = _
        rw [List.append_nil, ih.handed]
        exact (List.take_append_of_le_length ih.bound).symm
      · rw [hgrown, List.length_append]
        exact Nat.le_add_right_of_le ih.bound
  | @get events s s' range _ hrun ih =>
    unfold elfloaderGetSection at hrun
    rw [returns_get_bind] at hrun
    have hall : allSections (events ++ [.got range]) = allSections events := by
      unfold allSections
      rw [List.filterMap_append]
      exact congrArg (List.flatMap _) (List.append_nil _)
    cases hnext : s.sections[s.sectionIndex]? with
    | none =>
      rw [hnext] at hrun
      obtain ⟨rfl, rfl⟩ := returns_pure.mp hrun
      refine ⟨ih.sections.trans hall.symm, ?_, ih.bound⟩
      rw [List.filterMap_append]
      exact (List.append_nil _).trans ih.handed
    | some next =>
      simp only [hnext] at hrun
      split at hrun
      · exact absurd hrun not_returns_throw
      rw [returns_modify_bind] at hrun
      obtain ⟨rfl, rfl⟩ := returns_pure.mp hrun
      refine ⟨ih.sections.trans hall.symm, ?_, ?_⟩
      · rw [List.filterMap_append, ih.handed]
        change _ ++ [next] = s.sections.take (s.sectionIndex + 1)
        rw [List.take_add_one, hnext]
        rfl
      · exact (List.getElem?_eq_some_iff.mp hnext).1

/-- The sections that were handed out. -/
def handedOut (events : List SectionEvent) : List (Nat × Nat) :=
  events.filterMap SectionEvent.range?

theorem HandsOut.length_handedOut {events : List SectionEvent} {s : Preloader}
    (h : HandsOut events s) : (handedOut events).length = s.sectionIndex := by
  unfold handedOut
  rw [h.handed, List.length_take]
  exact Nat.min_eq_left h.bound

/-- What a call does: it hands out the next section, if there is one and the index can
be counted on. -/
theorem returns_elfloaderGetSection {s : Preloader} {range : Option (Nat × Nat)} :
    (∃ s', Returns elfloaderGetSection s range s') ↔
      range = s.sections[s.sectionIndex]? ∧ (range = none ∨ s.sectionIndex + 1 < 2 ^ 31) := by
  unfold elfloaderGetSection
  simp only [returns_get_bind]
  cases hnext : s.sections[s.sectionIndex]? with
  | none =>
    constructor
    · rintro ⟨s', hs'⟩
      obtain ⟨rfl, -⟩ := returns_pure.mp hs'
      exact ⟨rfl, .inl rfl⟩
    · rintro ⟨rfl, -⟩
      exact ⟨s, returns_pure.mpr ⟨rfl, rfl⟩⟩
  | some next =>
    by_cases hroom : s.sectionIndex + 1 < 2 ^ 31
    · simp only [if_neg (not_le.mpr hroom), returns_modify_bind]
      constructor
      · rintro ⟨s', hs'⟩
        obtain ⟨rfl, -⟩ := returns_pure.mp hs'
        exact ⟨rfl, .inr hroom⟩
      · rintro ⟨rfl, -⟩
        exact ⟨_, returns_pure.mpr ⟨rfl, rfl⟩⟩
    · simp only [if_pos (not_lt.mp hroom)]
      constructor
      · rintro ⟨s', hs'⟩
        exact absurd hs' not_returns_throw
      · rintro ⟨rfl, hnone | hlt⟩
        · cases hnone
        · exact absurd hlt hroom

/-- Whatever files are loaded, and whenever `elfloader_get_section` is called: it hands
out the segments that were copied, file by file and in the order of the program
headers, each once, and says that there is none exactly when all are out.  A call comes
to its end unless it is to hand out section number `2 ^ 31`. -/
theorem sections_handed_out {dramsys : DramSys} {events : List SectionEvent} {s : Preloader}
    (h : SectionRun dramsys events s) :
    handedOut events <+: allSections events ∧ ∀ range,
      ((∃ s', Returns elfloaderGetSection s range s') ↔
        range = (allSections events)[(handedOut events).length]? ∧
          (range = none ∨ (handedOut events).length + 1 < 2 ^ 31)) := by
  have hout := h.handsOut
  rw [hout.length_handedOut, ← hout.sections]
  refine ⟨?_, fun range => returns_elfloaderGetSection⟩
  unfold handedOut
  rw [hout.handed]
  exact List.take_prefix _ _

/-- A DRAM of one channel of eight bytes. -/
def tinyDram : DramSys := ⟨"DRAMSysRecordable0", true, [List.replicate 8 0]⟩

/-- After a file with one segment was loaded. -/
def tinyLoaded : Preloader := finalState (dramLoadElf tinyDest (some bssElf)) (.start tinyDram)

theorem sections_handed_out_tiny :
    (∃ s, Returns elfloaderGetSection tinyLoaded (some (0x80000000, 4)) s) ∧
      tinyLoaded.dramsys.drams = [[0xAA, 0xBB, 0, 0, 0, 0, 0, 0]] := by
  have hrun : SectionRun tinyDram [.loaded bssElf] tinyLoaded :=
    SectionRun.load .start (returns_of_returned? (by decide +kernel))
  exact ⟨((sections_handed_out hrun).2 _).mpr ⟨by decide +kernel, .inr (by decide)⟩,
    by decide +kernel⟩

end SoftHier.Dram.ElfLoader
