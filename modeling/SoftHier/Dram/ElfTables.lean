/-
  Dram/ElfTables.lean --- the sections, names and symbols of `elfloader_read_elf`.

  Behind the segments the loader compares the names of all sections with three
  literals and walks over the symbols.  `strcmp` and `strnlen` stop at the first
  zero, which nothing promises to be in the file, and where the symbols are is not
  compared with its size.
-/
import SoftHier.Dram.ElfImage
import SoftHier.Dram.ElfReads

set_option autoImplicit false

namespace SoftHier.Dram.ElfLoader
open SoftHier.Foundation Program
variable {file : Bytes} {dest : Dest} {c : ElfClass} {eh : Ehdr} {s : Loader}

/-! ## Section names -/

theorem ok_bind {α β : Type} (a : α) (f : α → Except LoaderFault β) :
    (Except.ok a >>= f) = f a := rfl

theorem error_bind {α β : Type} (e : LoaderFault) (f : α → Except LoaderFault β) :
    (Except.error e >>= f) = .error e := rfl

theorem check_true : check true = .ok () := rfl

theorem check_false : check false = .error .assertion := rfl

/-- Without `P`, `x` reads past the file; with `P` an assertion fails, unless `G`: then
`x` is `a`. -/
def Checked {α : Type} (P G : Prop) (a : α) (x : Except LoaderFault α) : Prop :=
  ¬ P ∧ x = .error .strayRead ∨ P ∧ (¬ G ∧ x = .error .assertion ∨ G ∧ x = .ok a)

namespace Checked

variable {α : Type} {P G : Prop} {a : α} {x : Except LoaderFault α}

theorem eq_stray_iff (h : Checked P G a x) : x = .error .strayRead ↔ ¬ P := by
  rcases h with ⟨hP, rfl⟩ | ⟨hP, ⟨-, rfl⟩ | ⟨-, rfl⟩⟩
  · exact iff_of_true rfl hP
  · exact iff_of_false (by simp) (not_not.mpr hP)
  · exact iff_of_false (by simp) (not_not.mpr hP)

theorem exists_ok_iff (h : Checked P G a x) (hP : P) : (∃ b, x = .ok b) ↔ G := by
  rcases h with ⟨hnot, rfl⟩ | ⟨-, ⟨hG, rfl⟩ | ⟨hG, rfl⟩⟩
  · exact absurd hP hnot
  · exact iff_of_false (by simp) hG
  · exact iff_of_true ⟨a, rfl⟩ hG

theorem eq_ok (h : Checked P G a x) (hP : P) (hG : G) : x = .ok a := by
  rcases h with ⟨hnot, -⟩ | ⟨-, ⟨hnot, -⟩ | ⟨-, hx⟩⟩
  · exact absurd hP hnot
  · exact absurd hG hnot
  · exact hx

end Checked

theorem zero_not_mem_of_cut {rest literal : Bytes} (hliteral : 0 ∉ literal) (h : rest <+: literal) :
    0 ∉ rest := fun hmem => hliteral (h.subset hmem)

theorem zero_mem_of_terminated {rest literal : Bytes} (h : literal ++ [0] <+: rest) : 0 ∈ rest :=
  h.subset (List.mem_append_right literal (List.mem_singleton_self 0))

namespace Shdr

/-- What the name of a section points at. -/
def nameAt (file : Bytes) (sh names : Shdr) : Bytes := file.drop (names.shOffset + sh.shName)

def Named (file : Bytes) (sh names : Shdr) (literal : Bytes) : Prop :=
  literal ++ [0] <+: sh.nameAt file names

instance (file : Bytes) (sh names : Shdr) (literal : Bytes) :
    Decidable (sh.Named file names literal) :=
  inferInstanceAs (Decidable (_ <+: _))

/-- The section is taken for the table with the name `literal`. -/
def IsTable (file : Bytes) (sh names : Shdr) (literal : Bytes) : Prop :=
  sh.shType &&& 0x1 = 0 ∧ sh.Named file names literal

instance (file : Bytes) (sh names : Shdr) (literal : Bytes) :
    Decidable (sh.IsTable file names literal) :=
  inferInstanceAs (Decidable (_ = 0 ∧ _))

/-- The comparisons of a name end within the file: the name does, or each of them ends
before it. -/
def NameInside (file : Bytes) (sh names : Shdr) : Prop :=
  0 ∈ sh.nameAt file names ∨
    ¬ sh.nameAt file names <+: strtabName ∧
      if sh.shType &&& 0x11 ≠ 0 then
        ¬ sh.nameAt file names <+: shstrtabName ∧
          maxLen names.shSize sh.shName ≤ (sh.nameAt file names).length
      else ¬ sh.nameAt file names <+: symtabName

/-- The assertion on a name holds. -/
def NameEnds (file : Bytes) (sh names : Shdr) : Prop :=
  sh.shType &&& 0x11 ≠ 0 →
    sh.Named file names strtabName ∨ sh.Named file names shstrtabName ∨
      0 ∈ (sh.nameAt file names).take (maxLen names.shSize sh.shName)

/-- What a section is noted as. -/
def note (file : Bytes) (sh names : Shdr) (i : Nat) (found : Tables) : Tables where
  strtabidx := if sh.IsTable file names strtabName then i else found.strtabidx
  symtabidx := if sh.IsTable file names symtabName then i else found.symtabidx

end Shdr

/-- The first part of a round of the loop over the section headers. -/
def checkName (file : Bytes) (name n : Nat) : Except LoaderFault Unit := do
  if ! (← strEq file name strtabName) then
    if ! (← strEq file name shstrtabName) then
      check (decide ((← strnlen file name n) < n))

/-- The last part of it. -/
def noteTable (file : Bytes) (name i : Nat) (found : Tables) : Except LoaderFault Tables := do
  let found := if ← strEq file name strtabName then { found with strtabidx := i } else found
  return if ← strEq file name symtabName then { found with symtabidx := i } else found

theorem checkSection_eq {names sh : Shdr} {found : Tables} {i : Nat}
    (hread : readShdr file c eh i = .ok sh) : checkSection file c eh names found i =
      ((if sh.shType &&& 0x11 ≠ 0 then
          checkName file (names.shOffset + sh.shName) (maxLen names.shSize sh.shName)
        else pure ()) >>= fun _ =>
        if sh.shType &&& 0x1 ≠ 0 then pure found
        else noteTable file (names.shOffset + sh.shName) i found) := by
  unfold checkSection
  simp only [hread, ok_bind]
  generalize maxLen names.shSize sh.shName = n
  by_cases h : sh.shType &&& 0x11 ≠ 0
  · simp only [if_pos h, checkName, bind_assoc]
    congr 1
    funext named
    cases named with
    | true => rfl
    | false =>
      simp only [Bool.not_false, if_true, bind_assoc]
      congr 1
      funext named
      cases named with
      | true => rfl
      | false =>
        simp only [Bool.not_false, if_true, bind_assoc]
        rfl
  · simp only [if_neg h]
    rfl

/-- `strcmp` and `strnlen` on a name. -/
theorem checkName_cases (file : Bytes) (name n : Nat) :
    let rest := file.drop name
    (0 ∉ rest ∧ (rest <+: strtabName ∨ rest <+: shstrtabName ∨ rest.length < n)) ∧
        checkName file name n = .error .strayRead ∨
      (0 ∈ rest ∨ ¬ rest <+: strtabName ∧ ¬ rest <+: shstrtabName ∧ n ≤ rest.length) ∧
        ((strtabName ++ [0] <+: rest ∨ shstrtabName ++ [0] <+: rest ∨ 0 ∈ rest.take n) ∧
            checkName file name n = .ok () ∨
          ¬ (strtabName ++ [0] <+: rest ∨ shstrtabName ++ [0] <+: rest ∨ 0 ∈ rest.take n) ∧
            checkName file name n = .error .assertion) := by
  intro rest
  unfold checkName
  simp only [strEq_eq]
  by_cases hshort : rest <+: strtabName
  · left
    rw [if_pos hshort]
    exact ⟨⟨zero_not_mem_of_cut (by decide) hshort, .inl hshort⟩, rfl⟩
  rw [if_neg hshort, ok_bind]
  by_cases hnamed : strtabName ++ [0] <+: rest
  · right
    rw [decide_eq_true hnamed]
    exact ⟨.inl (zero_mem_of_terminated hnamed), .inl ⟨.inl hnamed, rfl⟩⟩
  rw [decide_eq_false hnamed]
  by_cases hshort' : rest <+: shstrtabName
  · left
    rw [if_pos hshort']
    exact ⟨⟨zero_not_mem_of_cut (by decide) hshort', .inr (.inl hshort')⟩, rfl⟩
  rw [if_neg hshort', ok_bind]
  by_cases hnamed' : shstrtabName ++ [0] <+: rest
  · right
    rw [decide_eq_true hnamed']
    exact ⟨.inl (zero_mem_of_terminated hnamed'), .inl ⟨.inr (.inl hnamed'), rfl⟩⟩
  rw [decide_eq_false hnamed']
  rcases strnlen_cases file n name with ⟨hmem, k, hk, hrun⟩ | ⟨hmem, hlen, hrun⟩ |
    ⟨hmem, hlen, hrun⟩
  · right
    rw [hrun]
    refine ⟨.inl (List.mem_of_mem_take hmem), .inl ⟨.inr (.inr hmem), ?_⟩⟩
    simp [ok_bind, check, hk]
  · right
    rw [hrun]
    refine ⟨.inr ⟨hshort, hshort', hlen⟩, .inr ⟨?_, ?_⟩⟩
    · rintro (h | h | h)
      exacts [hnamed h, hnamed' h, hmem h]
    · simp [ok_bind, check]
  · left
    rw [hrun]
    rw [List.take_of_length_le hlen.le] at hmem
    exact ⟨⟨hmem, .inr (.inr hlen)⟩, rfl⟩

theorem note_of_progbits {names sh : Shdr} {i : Nat} {found : Tables}
    (h : sh.shType &&& 0x1 ≠ 0) : sh.note file names i found = found := by
  have hnot : ∀ literal, ¬ sh.IsTable file names literal := fun literal hn => h hn.1
  simp only [Shdr.note, hnot, if_false]

/-- Noting a section that can be a table. -/
theorem noteTable_cases {names sh : Shdr} (hprogbits : sh.shType &&& 0x1 = 0) (i : Nat)
    (found : Tables) :
    (0 ∉ sh.nameAt file names ∧
          (sh.nameAt file names <+: strtabName ∨ sh.nameAt file names <+: symtabName)) ∧
        noteTable file (names.shOffset + sh.shName) i found = .error .strayRead ∨
      (¬ sh.nameAt file names <+: strtabName ∧ ¬ sh.nameAt file names <+: symtabName) ∧
        noteTable file (names.shOffset + sh.shName) i found = .ok (sh.note file names i found) := by
  have htable : ∀ literal, sh.IsTable file names literal ↔ sh.Named file names literal :=
    fun literal => and_iff_right hprogbits
  have hrest : file.drop (names.shOffset + sh.shName) = sh.nameAt file names := rfl
  unfold noteTable
  simp only [strEq_eq, hrest]
  by_cases hshort : sh.nameAt file names <+: strtabName
  · left
    rw [if_pos hshort]
    exact ⟨⟨zero_not_mem_of_cut (by decide) hshort, .inl hshort⟩, rfl⟩
  rw [if_neg hshort, ok_bind]
  by_cases hshort' : sh.nameAt file names <+: symtabName
  · left
    rw [if_pos hshort']
    exact ⟨⟨zero_not_mem_of_cut (by decide) hshort', .inr hshort'⟩, rfl⟩
  right
  rw [if_neg hshort', ok_bind]
  refine ⟨⟨hshort, hshort'⟩, ?_⟩
  simp only [decide_eq_true_eq, Shdr.note, htable, Shdr.Named]
  by_cases hnamed : strtabName ++ [0] <+: sh.nameAt file names
  · by_cases hnamed' : symtabName ++ [0] <+: sh.nameAt file names
    · simp only [hnamed, hnamed', if_true]
      rfl
    · simp only [hnamed, hnamed', if_true, if_false]
      rfl
  · by_cases hnamed' : symtabName ++ [0] <+: sh.nameAt file names
    · simp only [hnamed, hnamed', if_true, if_false]
      rfl
    · simp only [hnamed, hnamed', if_false]
      rfl

/-- A round of the loop over the section headers. -/
theorem checked_checkSection (names : Shdr) {sh : Shdr} {i : Nat}
    (hread : readShdr file c eh i = .ok sh) (found : Tables) :
    Checked (sh.NameInside file names) (sh.NameEnds file names) (sh.note file names i found)
      (checkSection file c eh names found i) := by
  rw [checkSection_eq hread, Checked]
  unfold Shdr.NameInside Shdr.NameEnds
  by_cases hgroup : sh.shType &&& 0x11 ≠ 0
  · simp only [if_pos hgroup]
    rcases checkName_cases file (names.shOffset + sh.shName)
      (maxLen names.shSize sh.shName) with ⟨hout, hrun⟩ | ⟨hin, ⟨hends, hrun⟩ | ⟨hends, hrun⟩⟩
    · left
      rw [hrun]
      refine ⟨?_, rfl⟩
      rintro (hmem | ⟨hstrtab, hshstrtab, hlen⟩)
      · exact hout.1 hmem
      · rcases hout.2 with h | h | h
        exacts [hstrtab h, hshstrtab h, absurd hlen (not_le.mpr h)]
    · right
      rw [hrun, ok_bind]
      refine ⟨hin, .inr ⟨fun _ => hends, ?_⟩⟩
      by_cases hprogbits : sh.shType &&& 0x1 ≠ 0
      · rw [if_pos hprogbits, note_of_progbits hprogbits]
        rfl
      · rw [if_neg hprogbits]
        have hmem : 0 ∈ sh.nameAt file names := by
          rcases hends with h | h | h
          exacts [zero_mem_of_terminated h, zero_mem_of_terminated h, List.mem_of_mem_take h]
        rcases noteTable_cases (not_not.mp hprogbits) i found with ⟨h, -⟩ | ⟨-, h⟩
        · exact absurd hmem h.1
        · exact h
    · right
      rw [hrun]
      exact ⟨hin, .inl ⟨fun h => hends (h hgroup), rfl⟩⟩
  · have hprogbits : sh.shType &&& 0x1 = 0 := by
      have hbit := congrArg (· &&& 0x1) (not_not.mp hgroup)
      rwa [Nat.and_assoc, Nat.zero_and] at hbit
    simp only [if_neg hgroup, hprogbits]
    change _ ∧ noteTable file (names.shOffset + sh.shName) i found = _ ∨
      _ ∧ (_ ∧ noteTable file (names.shOffset + sh.shName) i found = _ ∨
        _ ∧ noteTable file (names.shOffset + sh.shName) i found = _)
    rcases noteTable_cases hprogbits i found with ⟨⟨hmem, hshort⟩, hrun⟩ | ⟨hlong, hrun⟩
    · left
      refine ⟨?_, hrun⟩
      rintro (h | ⟨hstrtab, hsymtab⟩)
      · exact hmem h
      · rcases hshort with h | h
        exacts [hstrtab h, hsymtab h]
    · right
      exact ⟨.inr hlong, .inr ⟨fun h => absurd h hgroup, hrun⟩⟩

/-! ## Symbols -/

/-- Where a symbol stands. -/
def symbolAt (c : ElfClass) (symtab : Shdr) (i : Nat) : Nat := symtab.shOffset + i * c.symSize

/-- `sym[i].st_name`. -/
def stName (file : Bytes) (c : ElfClass) (symtab : Shdr) (i : Nat) : Nat :=
  leValue (slice file (symbolAt c symtab i) 4)

/-- What the name of a symbol points at. -/
def symbolName (file : Bytes) (c : ElfClass) (strtab symtab : Shdr) (i : Nat) : Bytes :=
  file.drop (strtab.shOffset + stName file c symtab i)

/-- The assertions on a symbol hold. -/
def SymbolEnds (file : Bytes) (c : ElfClass) (strtab symtab : Shdr) (i : Nat) : Prop :=
  stName file c symtab i < strtab.shSize ∧
    0 ∈ (symbolName file c strtab symtab i).take
      (maxLen strtab.shSize (stName file c symtab i))

/-- The fields of a symbol lie in the file, and so does as much of its name as is looked
at. -/
def SymbolInside (file : Bytes) (c : ElfClass) (strtab symtab : Shdr) (i : Nat) : Prop :=
  symbolAt c symtab i + 4 ≤ file.length ∧
    (stName file c symtab i < strtab.shSize →
      0 ∈ symbolName file c strtab symtab i ∨
        maxLen strtab.shSize (stName file c symtab i) ≤
          (symbolName file c strtab symtab i).length) ∧
    (SymbolEnds file c strtab symtab i →
      symbolAt c symtab i + c.stValueAt.1 + c.stValueAt.2 ≤ file.length)

theorem checkSymbol_eq {strtab symtab : Shdr} {i : Nat}
    (h : symbolAt c symtab i + 4 ≤ file.length) : checkSymbol file c strtab symtab i =
      (check (decide (stName file c symtab i < strtab.shSize)) >>= fun _ =>
        strnlen file (strtab.shOffset + stName file c symtab i)
            (maxLen strtab.shSize (stName file c symtab i)) >>= fun n =>
          check (decide (n < maxLen strtab.shSize (stName file c symtab i))) >>= fun _ =>
            field file (symbolAt c symtab i + c.stValueAt.1) c.stValueAt.2 >>= fun _ =>
              pure ()) := by
  unfold checkSymbol
  change (field file (symbolAt c symtab i) 4 >>= _) = _
  rw [field_of_le h, ok_bind]
  rfl

/-- A round of the loop over the symbols. -/
theorem checked_checkSymbol (file : Bytes) (c : ElfClass) (strtab symtab : Shdr) (i : Nat) :
    Checked (SymbolInside file c strtab symtab i) (SymbolEnds file c strtab symtab i) ()
      (checkSymbol file c strtab symtab i) := by
  unfold Checked
  by_cases hat : symbolAt c symtab i + 4 ≤ file.length
  swap
  · left
    refine ⟨fun h => hat h.1, ?_⟩
    unfold checkSymbol
    change (field file (symbolAt c symtab i) 4 >>= _) = _
    rw [field_of_lt (not_le.mp hat)]
    rfl
  rw [checkSymbol_eq hat]
  unfold SymbolInside SymbolEnds symbolName
  generalize maxLen strtab.shSize (stName file c symtab i) = n
  by_cases hname : stName file c symtab i < strtab.shSize
  swap
  · right
    rw [decide_eq_false hname, check_false]
    exact ⟨⟨hat, fun h => absurd h hname, fun h => absurd h.1 hname⟩,
      .inl ⟨fun h => hname h.1, rfl⟩⟩
  rw [decide_eq_true hname, check_true, ok_bind]
  rcases strnlen_cases file n (strtab.shOffset + stName file c symtab i) with
    ⟨hmem, k, hk, hrun⟩ | ⟨hmem, hlen, hrun⟩ | ⟨hmem, hlen, hrun⟩
  · rw [hrun, ok_bind, decide_eq_true hk, check_true, ok_bind]
    by_cases hvalue : symbolAt c symtab i + c.stValueAt.1 + c.stValueAt.2 ≤ file.length
    · right
      rw [field_of_le hvalue]
      exact ⟨⟨hat, fun _ => .inl (List.mem_of_mem_take hmem), fun _ => hvalue⟩,
        .inr ⟨⟨hname, hmem⟩, rfl⟩⟩
    · left
      rw [field_of_lt (not_le.mp hvalue)]
      exact ⟨fun h => hvalue (h.2.2 ⟨hname, hmem⟩), rfl⟩
  · right
    rw [hrun, ok_bind, decide_eq_false (Nat.lt_irrefl n), check_false]
    exact ⟨⟨hat, fun _ => .inr hlen, fun h => absurd h.2 hmem⟩, .inl ⟨fun h => hmem h.2, rfl⟩⟩
  · left
    rw [hrun]
    rw [List.take_of_length_le hlen.le] at hmem
    refine ⟨?_, rfl⟩
    rintro ⟨-, hread, -⟩
    rcases hread hname with h | h
    · exact hmem h
    · exact absurd hlen (not_lt.mpr h)

/-- Every symbol the loop gets to lies in the file, and so does its name. -/
def SymbolsInside (file : Bytes) (c : ElfClass) (strtab symtab : Shdr) : Prop :=
  UpToStop (SymbolEnds file c strtab symtab) (SymbolInside file c strtab symtab)
    (List.range (min (symtab.shSize / c.symSize) (2 ^ 32)))

theorem checkSymbols_eq_stray_iff {strtab symtab : Shdr} :
    checkSymbols file c strtab symtab = .error .strayRead ↔
      ¬ SymbolsInside file c strtab symtab := by
  unfold checkSymbols SymbolsInside
  generalize 2 ^ 32 = bound
  dsimp only
  rw [bind_eq_error_iff, forM_eq_foldlM]
  have hchecked := checked_checkSymbol file c strtab symtab
  rw [foldlM_eq_error_iff (fun i _ _ => (hchecked i).eq_stray_iff)
    fun i _ hin _ => (hchecked i).exists_ok_iff hin]
  refine or_iff_left ?_
  rintro ⟨_, -, hend⟩
  split at hend
  · cases hend
  · cases hend

/-! ## The section headers -/

/-- The loop over the section headers, from the reading of a header on. -/
def NameInsideAt (file : Bytes) (c : ElfClass) (eh : Ehdr) (names : Shdr) (i : Nat) : Prop :=
  ∀ sh, readShdr file c eh i = .ok sh → sh.NameInside file names

def NameEndsAt (file : Bytes) (c : ElfClass) (eh : Ehdr) (names : Shdr) (i : Nat) : Prop :=
  ∀ sh, readShdr file c eh i = .ok sh → sh.NameEnds file names

def TableAt (file : Bytes) (c : ElfClass) (eh : Ehdr) (names : Shdr) (literal : Bytes)
    (i : Nat) : Prop :=
  ∃ sh, readShdr file c eh i = .ok sh ∧ sh.IsTable file names literal

/-- The last section that is taken for the table with the name `literal`. -/
def LastTable (file : Bytes) (c : ElfClass) (eh : Ehdr) (names : Shdr) (literal : Bytes)
    (i : Nat) : Prop :=
  i < eh.eShnum ∧ TableAt file c eh names literal i ∧
    ∀ j, i < j → j < eh.eShnum → ¬ TableAt file c eh names literal j

/-- The names of the sections lie in the file as far as they are looked at, and so do
the symbols of the last `.symtab` with their names in the last `.strtab`. -/
def NamesInside (file : Bytes) (c : ElfClass) (eh : Ehdr) (names : Shdr) : Prop :=
  UpToStop (NameEndsAt file c eh names) (NameInsideAt file c eh names) (List.range eh.eShnum) ∧
    ((∀ i ∈ List.range eh.eShnum, NameEndsAt file c eh names i) →
      ∀ si yi strtab symtab, si ≠ 0 → yi ≠ 0 →
        LastTable file c eh names strtabName si → LastTable file c eh names symtabName yi →
        readShdr file c eh si = .ok strtab → readShdr file c eh yi = .ok symtab →
          SymbolsInside file c strtab symtab)

/-- The table of section headers lies in the file, and so does what it leads to. -/
def SectionsInside (file : Bytes) (c : ElfClass) (eh : Ehdr) : Prop :=
  (eh.eShoff + eh.eShnum * c.shdrSize) % 2 ^ 64 ≤ file.length → eh.eShstrndx < eh.eShnum →
    eh.eShoff + eh.eShnum * c.shdrSize < 2 ^ 64 ∧
      ∀ names, readShdr file c eh eh.eShstrndx = .ok names →
        c.wrap (names.shOffset + names.shSize) ≤ file.length → NamesInside file c eh names

/-- The tables that are found behind a header. -/
def noteAt (file : Bytes) (c : ElfClass) (eh : Ehdr) (names : Shdr) (found : Tables) (i : Nat) :
    Tables :=
  match readShdr file c eh i with
  | .ok sh => sh.note file names i found
  | .error _ => found

theorem checked_section {names : Shdr} {i : Nat} (hread : ∃ sh, readShdr file c eh i = .ok sh)
    (found : Tables) :
    Checked (NameInsideAt file c eh names i) (NameEndsAt file c eh names i)
      (noteAt file c eh names found i) (checkSection file c eh names found i) := by
  obtain ⟨sh, hread⟩ := hread
  have hchecked := checked_checkSection names hread found
  have hall : ∀ P : Shdr → Prop, (∀ sh', readShdr file c eh i = .ok sh' → P sh') ↔ P sh := by
    intro P
    rw [hread]
    exact ⟨fun h => h sh rfl, fun h sh' heq => by cases heq; exact h⟩
  unfold NameInsideAt NameEndsAt noteAt
  rw [hall, hall, hread]
  exact hchecked

theorem foldl_noteAt {names : Shdr} {get : Tables → Nat} {literal : Bytes}
    (hnote : ∀ (sh : Shdr) (i : Nat) (found : Tables), get (sh.note file names i found) =
      if sh.IsTable file names literal then i else get found)
    {found : Tables} {m : Nat} (hm : get found ≠ m) :
    get ((List.range eh.eShnum).foldl (noteAt file c eh names) found) = m ↔
      LastTable file c eh names literal m := by
  refine foldl_last get (fun b i hi => ?_) (fun b i hi => ?_) hm eh.eShnum
  · obtain ⟨sh, hread, htable⟩ := hi
    rw [noteAt, hread]
    exact (hnote sh i b).trans (if_pos htable)
  · unfold noteAt
    cases hread : readShdr file c eh i with
    | error e => rfl
    | ok sh => exact (hnote sh i b).trans (if_neg fun htable => hi ⟨sh, hread, htable⟩)

theorem strtabidx_eq_iff {names : Shdr} {m : Nat} (hm : m ≠ 0) :
    ((List.range eh.eShnum).foldl (noteAt file c eh names) ⟨0, 0⟩).strtabidx = m ↔
      LastTable file c eh names strtabName m :=
  foldl_noteAt (fun _ _ _ => rfl) (Ne.symm hm)

theorem symtabidx_eq_iff {names : Shdr} {m : Nat} (hm : m ≠ 0) :
    ((List.range eh.eShnum).foldl (noteAt file c eh names) ⟨0, 0⟩).symtabidx = m ↔
      LastTable file c eh names symtabName m :=
  foldl_noteAt (fun _ _ _ => rfl) (Ne.symm hm)

theorem check_bind_eq_stray_iff {α : Type} {b : Bool} {f : Unit → Except LoaderFault α} :
    check b >>= f = .error .strayRead ↔ b = true ∧ f () = .error .strayRead := by
  cases b with
  | false => simp [check_false, error_bind]
  | true => simp [check_true, ok_bind]

/-- What the loader does behind the check on the section that holds the names. -/
theorem names_eq_stray_iff {names : Shdr}
    (hread : ∀ i < eh.eShnum, ∃ sh, readShdr file c eh i = .ok sh) :
    ((List.range eh.eShnum).foldlM (checkSection file c eh names) ⟨0, 0⟩ >>= fun found =>
        if found.strtabidx ≠ 0 ∧ found.symtabidx ≠ 0 then do
          let strtab ← readShdr file c eh found.strtabidx
          let symtab ← readShdr file c eh found.symtabidx
          checkSymbols file c strtab symtab
        else pure ()) = .error .strayRead ↔ ¬ NamesInside file c eh names := by
  have hchecked : ∀ i ∈ List.range eh.eShnum, ∀ found, Checked (NameInsideAt file c eh names i)
      (NameEndsAt file c eh names i) (noteAt file c eh names found i)
      (checkSection file c eh names found i) :=
    fun i hi => checked_section (hread i (List.mem_range.mp hi))
  have hok : ∀ i ∈ List.range eh.eShnum, NameInsideAt file c eh names i → ∀ found,
      (∃ found', checkSection file c eh names found i = .ok found') ↔
        NameEndsAt file c eh names i :=
    fun i hi hin found => (hchecked i hi found).exists_ok_iff hin
  rw [bind_eq_error_iff, NamesInside, not_and_or,
    foldlM_eq_error_iff (fun i hi found => (hchecked i hi found).eq_stray_iff) hok]
  by_cases hstop : UpToStop (NameEndsAt file c eh names) (NameInsideAt file c eh names)
      (List.range eh.eShnum)
  swap
  · exact iff_of_true (.inl hstop) (.inl hstop)
  refine or_congr_right ?_
  by_cases hends : ∀ i ∈ List.range eh.eShnum, NameEndsAt file c eh names i
  swap
  · refine iff_of_false ?_ (not_not.mpr fun h => absurd h hends)
    rintro ⟨found, hrun, -⟩
    exact hends ((exists_foldlM_eq_ok_iff hok hstop ⟨0, 0⟩).mp ⟨found, hrun⟩)
  have hinside := hstop.of_goes hends
  rw [foldlM_eq_ok fun i hi found => (hchecked i hi found).eq_ok (hinside i hi) (hends i hi)]
  constructor
  · rintro ⟨_, heq, hrun⟩ hsymbols
    cases heq
    split at hrun
    next hne =>
      have hlast := (strtabidx_eq_iff hne.1).mp rfl
      have hlast' := (symtabidx_eq_iff hne.2).mp rfl
      obtain ⟨strtab, hstrtab⟩ := hread _ hlast.1
      obtain ⟨symtab, hsymtab⟩ := hread _ hlast'.1
      rw [hstrtab, ok_bind, hsymtab, ok_bind, checkSymbols_eq_stray_iff] at hrun
      exact hrun (hsymbols hends _ _ _ _ hne.1 hne.2 hlast hlast' hstrtab hsymtab)
    next => cases hrun
  · intro hnot
    by_contra hrun
    refine hnot fun _ si yi strtab symtab hsi hyi hlast hlast' hstrtab hsymtab => ?_
    by_contra hsymbols
    refine hrun ⟨_, rfl, ?_⟩
    rw [(strtabidx_eq_iff hsi).mpr hlast, (symtabidx_eq_iff hyi).mpr hlast', if_pos ⟨hsi, hyi⟩,
      hstrtab, ok_bind, hsymtab, ok_bind, checkSymbols_eq_stray_iff]
    exact hsymbols

/-- What the loader does behind the loop over the program headers reads past the file
unless the table of section headers lies there, with what it leads to. -/
theorem checkSections_eq_stray_iff (heh : eh.Sized) (hlen : file.length < 2 ^ 63) :
    checkSections file c eh = .error .strayRead ↔ ¬ SectionsInside file c eh := by
  have hsize : c.shdrSize ≤ 64 := by cases c <;> decide
  unfold checkSections SectionsInside
  rw [check_bind_eq_stray_iff, check_bind_eq_stray_iff, decide_eq_true_iff, decide_eq_true_iff,
    Classical.not_imp, Classical.not_imp]
  refine and_congr_right fun hend => and_congr_right fun hstrndx => ?_
  rcases table_cases heh.eShoff heh.eShnum hsize hlen hend with ⟨hwrap, hin⟩ | ⟨hwrap, -, hout⟩
  · have hread : ∀ i < eh.eShnum, ∃ sh, readShdr file c eh i = .ok sh :=
      fun i hi => readShdr_of_le (hin i hi)
    obtain ⟨names, hnames⟩ := hread _ hstrndx
    rw [hnames, ok_bind, check_bind_eq_stray_iff, decide_eq_true_iff, names_eq_stray_iff hread]
    simp only [hwrap, true_and, Except.ok.injEq, forall_eq', Classical.not_imp]
  · rw [readShdr_of_lt (hout _), error_bind]
    exact iff_of_true rfl fun h => absurd h.1 (not_lt.mpr hwrap)

/-! ## The whole file -/

/-- The table of program headers lies in the file, the bytes of the segments do as far as
they are copied, and so do the section headers with what they lead to. -/
def SegmentsInside (file : Bytes) (dest : Dest) (c : ElfClass) (eh : Ehdr) : Prop :=
  (eh.ePhoff + eh.ePhnum * c.phdrSize) % 2 ^ 64 ≤ file.length →
    eh.ePhoff + eh.ePhnum * c.phdrSize < 2 ^ 64 ∧
      ∀ phs, (List.range eh.ePhnum).mapM (readPhdr file c eh) = .ok phs →
        UpToStop (Phdr.GoesOn file dest c) (Phdr.CopyInside file dest c) phs ∧
          ((∀ ph ∈ phs, ph.GoesOn file dest c) → SectionsInside file c eh)

/-- What the header of the file leads to lies in the file. -/
def ReadsInside (file : Bytes) (dest : Dest) : Prop :=
  ∀ c eh, elfClass? file = some c → readEhdr file c = .ok eh → SegmentsInside file dest c eh

theorem readsInside_iff (hclass : elfClass? file = some c) (hread : readEhdr file c = .ok eh) :
    ReadsInside file dest ↔ SegmentsInside file dest c eh := by
  refine ⟨fun h => h c eh hclass hread, fun h c' eh' hclass' hread' => ?_⟩
  cases hclass.symm.trans hclass'
  cases hread.symm.trans hread'
  exact h

/-- The program headers and what follows them. -/
def loadAll (file : Bytes) (dest : Dest) (c : ElfClass) (eh : Ehdr) :
    Program LoaderFault Loader Unit := do
  forEach (fun i => do
      let ph ← reading fun _ => readPhdr file c eh i
      loadSegment file dest c ph)
    (List.range eh.ePhnum)
  reading fun _ => checkSections file c eh

/-- A table of program headers that is not in the file makes the loader read past it. -/
theorem exists_raises_loadAll (hpos : 0 < eh.ePhnum)
    (hread : readPhdr file c eh 0 = .error .strayRead) :
    ∃ s', Raises (loadAll file dest c eh) s .strayRead s' := by
  obtain ⟨n, hn⟩ := Nat.exists_eq_succ_of_ne_zero (Nat.pos_iff_ne_zero.mp hpos)
  refine ⟨s, raises_bind.mpr (.inl ?_)⟩
  rw [hn, List.range_succ_eq_map, raises_forEach_cons]
  rw [reading_error_bind hread]
  exact .inl (raises_throw _ s)

theorem exists_raises_loadAll_iff {phs : List Phdr} (heh : eh.Sized) (hlen : file.length < 2 ^ 63)
    (hs : dest.destSize.toNat ≤ s.destBuffer.length)
    (hphs : (List.range eh.ePhnum).mapM (readPhdr file c eh) = .ok phs) :
    (∃ s', Raises (loadAll file dest c eh) s .strayRead s') ↔
      ¬ (UpToStop (Phdr.GoesOn file dest c) (Phdr.CopyInside file dest c) phs ∧
        ((∀ ph ∈ phs, ph.GoesOn file dest c) → SectionsInside file c eh)) := by
  have hraises := (steered_loadSegment file c).exists_raises_iff phs hs
  unfold loadAll
  rw [forEach_reading_eq hphs]
  simp only [raises_bind, raises_reading, checkSections_eq_stray_iff heh hlen]
  by_cases hstop : UpToStop (Phdr.GoesOn file dest c) (Phdr.CopyInside file dest c) phs
  · have hreturns := (steered_loadSegment file c).exists_returns_iff hs hstop
    have hnot := (not_congr hraises).mpr (not_not.mpr hstop)
    simp only [hstop, true_and, Classical.not_imp, ← hreturns]
    constructor
    · rintro ⟨s', h | ⟨_, t, hrun, hsections, -⟩⟩
      · exact absurd ⟨s', h⟩ hnot
      · exact ⟨⟨t, hrun⟩, hsections⟩
    · rintro ⟨⟨t, hrun⟩, hsections⟩
      exact ⟨t, .inr ⟨(), t, hrun, hsections, rfl⟩⟩
  · obtain ⟨s', h⟩ := hraises.mpr hstop
    exact iff_of_true ⟨s', .inl h⟩ fun h => hstop h.1

/-- The loader reads past the end of the file unless every stage it gets to finds in the
file what it reads. -/
theorem elfloaderReadElf_reads_iff (hsize : ehdrSize ≤ file.length)
    (hlen : file.length < 2 ^ 63) (hs : dest.destSize.toNat ≤ s.destBuffer.length) :
    (∀ s', ¬ Raises (elfloaderReadElf file dest) s .strayRead s') ↔ ReadsInside file dest := by
  rw [← not_exists]
  unfold elfloaderReadElf
  rw [decide_eq_true hsize, reading_ok_bind check_true]
  cases hclass : elfClass? file with
  | none =>
    refine iff_of_true ?_ fun c eh h => absurd (hclass.symm.trans h) (by simp)
    rintro ⟨s', h⟩
    cases (raises_throw_iff.mp h).1
  | some c =>
    obtain ⟨eh, hread, heh⟩ := readEhdr_of_le hsize c
    have hphdr : c.phdrSize ≤ 64 := by cases c <;> decide
    rw [readsInside_iff hclass hread, SegmentsInside]
    simp only [reading_ok_bind hread, raises_modify_bind]
    by_cases hend : (eh.ePhoff + eh.ePhnum * c.phdrSize) % 2 ^ 64 ≤ file.length
    swap
    · rw [decide_eq_false hend, reading_error_bind check_false]
      refine iff_of_true ?_ fun h => absurd h hend
      rintro ⟨s', h⟩
      cases (raises_throw_iff.mp h).1
    rw [decide_eq_true hend, reading_ok_bind check_true]
    simp only [hend, true_imp_iff]
    change ¬ (∃ s', Raises (loadAll file dest c eh) _ .strayRead s') ↔ _
    replace hs : dest.destSize.toNat ≤ { s with entry := eh.eEntry }.destBuffer.length := hs
    generalize { s with entry := eh.eEntry } = t at hs ⊢
    rcases table_cases heh.ePhoff heh.ePhnum hphdr hlen hend with
      ⟨hwrap, hin⟩ | ⟨hwrap, hpos, hout⟩
    · obtain ⟨phs, hphs⟩ := exists_mapM_ok (f := readPhdr file c eh)
        fun i hi => readPhdr_of_le (hin i (List.mem_range.mp hi))
      rw [exists_raises_loadAll_iff heh hlen hs hphs, not_not]
      simp only [hwrap, true_and, hphs, Except.ok.injEq, forall_eq']
    · refine iff_of_false (not_not.mpr ?_) fun h => absurd h.1 (not_lt.mpr hwrap)
      exact exists_raises_loadAll hpos (readPhdr_of_lt (hout 0))

theorem readsInside_bssElf : ReadsInside bssElf tinyDest := by
  have hlen : bssElf.length = 127 := by decide +kernel
  refine (elfloaderReadElf_reads_iff (s := ⟨List.replicate 8 0, [], 0⟩) (by decide +kernel)
    (by rw [hlen]; decide) (by decide)).mp fun s' h => ?_
  have hreturns : returned? (elfloaderReadElf bssElf tinyDest) ⟨List.replicate 8 0, [], 0⟩ =
      some () := by decide +kernel
  unfold returned? at hreturns
  rw [show elfloaderReadElf bssElf tinyDest ⟨List.replicate 8 0, [], 0⟩ = _ from h] at hreturns
  cases hreturns

/-- An ELF64 header with a single program header, at an offset that wraps. -/
def wrapElf : Bytes :=
  [0x7f, 0x45, 0x4c, 0x46, 2, 1, 1, 0] ++ List.replicate 8 0 ++
  leBytes 2 2 ++ leBytes 2 243 ++ leBytes 4 1 ++
  leBytes 8 0x80000000 ++ leBytes 8 (2 ^ 64 - 56) ++ leBytes 8 0 ++ leBytes 4 0 ++
  leBytes 2 64 ++ leBytes 2 56 ++ leBytes 2 1 ++ leBytes 2 64 ++ leBytes 2 0 ++ leBytes 2 0

/-- The end of that header is offset 0, so the assertion on it holds. -/
theorem not_readsInFile : ¬ ∀ (file : Bytes) (dest : Dest) (s : Loader),
    ehdrSize ≤ file.length → file.length < 2 ^ 63 →
    dest.destSize.toNat ≤ s.destBuffer.length →
    ∀ s', ¬ Raises (elfloaderReadElf file dest) s .strayRead s' := by
  intro hall
  have hlen : wrapElf.length = 64 := by decide +kernel
  have hraised : raised? (elfloaderReadElf wrapElf tinyDest) ⟨List.replicate 8 0, [], 0⟩ =
      some .strayRead := by decide +kernel
  exact hall wrapElf tinyDest ⟨List.replicate 8 0, [], 0⟩ (by rw [hlen]; decide)
    (by rw [hlen]; decide) (by decide) _ (raises_of_raised? hraised)

end SoftHier.Dram.ElfLoader
