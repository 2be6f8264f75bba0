/-
  Dram/Preload.lean --- filling the memory of a DRAM before a run.

  `dram_preload_byte` stores one byte in every channel.  `dram_load_memfile`
  does that for each line of a text file, at increasing addresses; a line is read
  by `>>` of a stream in hexadecimal, so it may hold more than a number, and less.
  `dram_check_byte` looks at the first channel.
-/
import SoftHier.Dram.Conv
import SoftHier.Foundation.Blocks
import SoftHier.Foundation.Numeral

set_option autoImplicit false

namespace SoftHier.Dram

open SoftHier.Foundation Program Numeral

/-! ## The memory -/

/-- What a `DRAMSys` holds: its name, whether its storage mode is `Store`, and the
memory of each channel. -/
structure DramSys where
  name : String
  store : Bool
  drams : List Bytes
deriving Repr, DecidableEq

/-- `perloadByteInDram`. -/
def perloadByteInDram (addr : UInt64) (data : UInt8) (memory : Bytes) : Except Fault Bytes :=
  if addr.toNat < memory.length then .ok (memory.set addr.toNat data) else .error .undefined

/-- `perloadByte`: the byte goes to every channel. -/
def perloadByte (addr : UInt64) (data : UInt8) : Program Fault DramSys Unit := do
  let d ← get
  if d.store then do
    let drams ← reading fun d => d.drams.mapM (perloadByteInDram addr data)
    modify fun d => { d with drams := drams }
  else throw (.fatal d.name "Storage not configured!")

/-- `checkByte`: the byte of the first channel. -/
def checkByte (addr : UInt64) : Program Fault DramSys UInt8 := do
  let d ← get
  if d.store then
    match d.drams with
    | [] => pure 0
    | memory :: _ =>
      match memory[addr.toNat]? with
      | none => throw .undefined
      | some byte => pure byte
  else throw (.fatal d.name "Storage not configured!")

/-! ## `std::stringstream` -/

/-- White space of the C locale. -/
def isSpace (c : Char) : Bool :=
  c == ' ' || c == '\t' || c == '\n' || c == '\x0b' || c == '\x0c' || c == '\r'

/-- A sign in front of a number: whether it is a minus, and what follows it. -/
def takeSign : Text → Bool × Text
  | [] => (false, [])
  | c :: t => if c = '-' then (true, t) else if c = '+' then (false, t) else (false, c :: t)

/-- What follows `0x` or `0X`. -/
def dropPrefix : Text → Text
  | c :: x :: t => if c = '0' ∧ (x = 'x' ∨ x = 'X') then t else c :: x :: t
  | t => t

/-- The digits in front of a text, of either case, after the value `acc`. -/
def hexPrefix (acc : Nat) : Text → Nat
  | [] => acc
  | c :: cs =>
    match hexDigit? c.toUpper with
    | none => acc
    | some d => hexPrefix (16 * acc + d) cs

/-- `ss >> data` after `ss << std::hex << line`.  Without a digit, `data` becomes
zero; when the number is too large, the largest; when there is nothing but white
space, it is left as it was. -/
def extractHex (line : Text) : Option UInt32 :=
  match line.dropWhile isSpace with
  | [] => none
  | c :: t =>
    let n := hexPrefix 0 (dropPrefix (takeSign (c :: t)).2)
    some (if 2 ^ 32 ≤ n then 0xFFFFFFFF
      else if (takeSign (c :: t)).1 then 0 - UInt32.ofNat n
      else UInt32.ofNat n)

/-! ## The functions of the library -/

/-- `dram_preload_byte`; `byteInt` are the bits of the `int`. -/
def dramPreloadByte (addr : UInt64) (byteInt : UInt32) : Program Fault DramSys Unit :=
  perloadByte addr byteInt.toUInt8

/-- The loop of `dram_load_memfile` over the lines; `data` is not initialised
before a line is read. -/
def loadLines (addr : UInt64) : List Text → Program Fault DramSys Unit
  | [] => pure ()
  | line :: lines =>
    match extractHex line with
    | none => throw .undefined
    | some data => do
      perloadByte addr data.toUInt8
      loadLines (addr + 1) lines

/-- `dram_load_memfile`, where the file is a text or cannot be opened. -/
def dramLoadMemfile (addrOfst : UInt64) (file : Option Text) : Program Fault DramSys Unit :=
  match file with
  | none => pure ()
  | some text => loadLines addrOfst (textLines text)

/-- The value a line stores. -/
def lineByte (line : Text) : UInt8 := ((extractHex line).getD 0).toUInt8

/-- A call that fills memory. -/
inductive Preload where
  | byte (addr : UInt64) (byteInt : UInt32)
  | memfile (addrOfst : UInt64) (file : Option Text)
deriving Repr, DecidableEq

namespace Preload

def run : Preload → Program Fault DramSys Unit
  | byte addr byteInt => dramPreloadByte addr byteInt
  | memfile addrOfst file => dramLoadMemfile addrOfst file

/-- The lines a call reads as numbers. -/
def lines : Preload → List Text
  | byte _ _ => []
  | memfile _ file => (file.map textLines).getD []

/-- Where the call stores, and which bytes. -/
def block : Preload → Nat × Bytes
  | byte addr byteInt => (addr.toNat, [byteInt.toUInt8])
  | memfile addrOfst file =>
    (addrOfst.toNat, ((file.map textLines).getD []).map lineByte)

/-- Every line holds something, and what is stored fits into every channel. -/
structure Fits (p : Preload) (d : DramSys) : Prop where
  lines : ∀ line ∈ p.lines, (extractHex line).isSome
  store : p.block.2 ≠ [] → d.store = true
  inside : p.block.2 ≠ [] → ∀ memory ∈ d.drams, p.block.1 + p.block.2.length ≤ memory.length

end Preload

/-! ## One byte, one file -/

namespace DramSys

variable {d d' : DramSys}

/-- Every channel with these bytes stored at a position. -/
def stored (d : DramSys) (pos : Nat) (bytes : Bytes) : DramSys :=
  { d with drams := d.drams.map fun memory => overwrite memory pos bytes }

/-- The memories are indexed by 64 bits. -/
def Addressable (d : DramSys) : Prop := ∀ memory ∈ d.drams, memory.length < 2 ^ 64

@[simp] theorem stored_nil (pos : Nat) : d.stored pos [] = d := by
  unfold stored
  simp

end DramSys

theorem overwrite_singleton {memory : Bytes} {pos : Nat} {byte : UInt8}
    (h : pos < memory.length) : memory.set pos byte = overwrite memory pos [byte] := by
  have hset : (overwrite memory pos []).set pos byte = overwrite memory pos ([] ++ [byte]) :=
    set_overwrite h byte
  rwa [overwrite_nil] at hset

/-- A byte and then the bytes behind it. -/
theorem overwrite_cons {memory : Bytes} {pos : Nat} {byte : UInt8} {bytes : Bytes}
    (h : pos + (bytes.length + 1) ≤ memory.length) :
    overwrite (overwrite memory pos [byte]) (pos + 1) bytes =
      overwrite memory pos (byte :: bytes) := by
  have hone : pos + [byte].length ≤ memory.length := by
    rw [List.length_singleton]
    omega
  have hlen : (overwrite memory pos [byte]).length = memory.length := length_overwrite hone
  apply List.ext_getElem?
  intro k
  by_cases hrest : pos + 1 ≤ k ∧ k < pos + 1 + bytes.length
  · rw [getElem?_overwrite_of_mem (by omega) hrest.1 hrest.2,
      getElem?_overwrite_of_mem (d := byte :: bytes) (by rw [List.length_cons]; omega) (by omega)
        (by rw [List.length_cons]; omega)]
    rw [show k - pos = k - (pos + 1) + 1 by omega, List.getElem?_cons_succ]
  · rw [getElem?_overwrite_of_not_mem (by omega) hrest]
    by_cases hk : k = pos
    · rw [hk, getElem?_overwrite_of_mem hone (le_refl _) (by rw [List.length_singleton]; omega),
        getElem?_overwrite_of_mem (d := byte :: bytes) (by rw [List.length_cons]; omega) (le_refl _)
          (by rw [List.length_cons]; omega), Nat.sub_self]
      rfl
    · rw [getElem?_overwrite_of_not_mem hone (by rw [List.length_singleton]; omega),
        getElem?_overwrite_of_not_mem (d := byte :: bytes) (by rw [List.length_cons]; omega)
          (by rw [List.length_cons]; omega)]

theorem succ_toNat {addr : UInt64} {memory : Bytes} (hsize : memory.length < 2 ^ 64)
    (hin : addr.toNat < memory.length) : (addr + 1).toNat = addr.toNat + 1 := by
  rw [UInt64.toNat_add, UInt64.toNat_one, Nat.mod_eq_of_lt (by omega)]

namespace DramSys

variable {d : DramSys} {addr : UInt64} {byte : UInt8} {bytes : Bytes}

theorem length_of_mem_stored {pos : Nat} (hin : ∀ memory ∈ d.drams, pos < memory.length)
    {memory' : Bytes} (h : memory' ∈ (d.stored pos [byte]).drams) :
    ∃ memory ∈ d.drams, memory'.length = memory.length := by
  obtain ⟨memory, hm, rfl⟩ := List.mem_map.mp h
  have hlt := hin memory hm
  exact ⟨memory, hm, length_overwrite (by rw [List.length_singleton]; omega)⟩

theorem Addressable.stored (h : d.Addressable)
    (hin : ∀ memory ∈ d.drams, addr.toNat < memory.length) :
    (d.stored addr.toNat [byte]).Addressable := by
  intro memory' hm'
  obtain ⟨memory, hm, hlen⟩ := length_of_mem_stored hin hm'
  rw [hlen]
  exact h memory hm

/-- A byte is stored, and then the bytes behind it. -/
theorem stored_stored (hsize : d.Addressable)
    (hfits : ∀ memory ∈ d.drams, addr.toNat + (bytes.length + 1) ≤ memory.length) :
    (d.stored addr.toNat [byte]).stored (addr + 1).toNat bytes =
      d.stored addr.toNat (byte :: bytes) := by
  unfold stored
  rw [List.map_map]
  congr 1
  apply List.map_congr_left
  intro memory hm
  have hfit := hfits memory hm
  rw [Function.comp_apply, succ_toNat (hsize memory hm) (by omega), overwrite_cons hfit]

end DramSys

theorem perloadByteInDram_eq_ok {addr : UInt64} {data : UInt8} {memory memory' : Bytes} :
    perloadByteInDram addr data memory = .ok memory' ↔
      addr.toNat < memory.length ∧ memory' = overwrite memory addr.toNat [data] := by
  unfold perloadByteInDram
  split
  next hlt =>
    rw [overwrite_singleton hlt]
    exact ⟨fun h => ⟨hlt, (Except.ok.inj h).symm⟩, fun h => congrArg _ h.2.symm⟩
  next hge => exact ⟨nofun, fun h => absurd h.1 hge⟩

theorem perloadByte_returns_iff {addr : UInt64} {data : UInt8} {d d' : DramSys} {u : Unit} :
    Returns (perloadByte addr data) d u d' ↔ d.store = true ∧
      (∀ memory ∈ d.drams, addr.toNat < memory.length) ∧ d' = d.stored addr.toNat [data] := by
  unfold perloadByte
  rw [returns_get_bind]
  cases hstore : d.store with
  | false =>
    rw [if_neg Bool.false_ne_true]
    exact ⟨fun h => absurd h not_returns_throw, nofun⟩
  | true =>
    rw [if_pos rfl, returns_bind]
    simp only [returns_reading, returns_modify,
      mapM_eq_ok_map_iff fun memory memory' => perloadByteInDram_eq_ok, true_and]
    constructor
    · rintro ⟨drams, t, ⟨⟨hin, rfl⟩, rfl⟩, rfl⟩
      exact ⟨hin, rfl⟩
    · rintro ⟨hin, rfl⟩
      exact ⟨_, d, ⟨⟨hin, rfl⟩, rfl⟩, rfl⟩

theorem loadLines_returns_iff {addr : UInt64} {lines : List Text} {d d' : DramSys} {u : Unit}
    (hsize : d.Addressable) : Returns (loadLines addr lines) d u d' ↔
      (∀ line ∈ lines, (extractHex line).isSome) ∧
        (lines ≠ [] → d.store = true ∧
          ∀ memory ∈ d.drams, addr.toNat + lines.length ≤ memory.length) ∧
        d' = d.stored addr.toNat (lines.map lineByte) := by
  induction lines generalizing addr d with
  | nil =>
    rw [loadLines, returns_pure, List.map_nil, DramSys.stored_nil]
    constructor
    · rintro ⟨_, rfl⟩
      exact ⟨fun _ h => absurd h List.not_mem_nil, fun h => absurd rfl h, rfl⟩
    · rintro ⟨_, _, rfl⟩
      exact ⟨rfl, rfl⟩
  | cons line lines ih =>
    cases hline : extractHex line with
    | none =>
      rw [loadLines, hline]
      constructor
      · intro h
        exact absurd h not_returns_throw
      · rintro ⟨hlines, _⟩
        have hsome := hlines line List.mem_cons_self
        rw [hline] at hsome
        cases hsome
    | some data =>
      have hbyte : lineByte line = data.toUInt8 := by
        unfold lineByte
        rw [hline]
        rfl
      rw [loadLines, hline, returns_bind]
      simp only [perloadByte_returns_iff]
      constructor
      · rintro ⟨_, t, ⟨hstore, hin, rfl⟩, hrest⟩
        obtain ⟨hlines, hfit, rfl⟩ := (ih (hsize.stored hin)).mp hrest
        have hfits : ∀ memory ∈ d.drams, addr.toNat + (lines.length + 1) ≤ memory.length := by
          intro memory hm
          have hlt := hin memory hm
          cases lines with
          | nil => exact hlt
          | cons next rest =>
            have hlen : (overwrite memory addr.toNat [data.toUInt8]).length = memory.length :=
              length_overwrite (by rw [List.length_singleton]; omega)
            have hle := (hfit (List.cons_ne_nil _ _)).2 _ (List.mem_map_of_mem hm)
            rw [hlen, succ_toNat (hsize memory hm) hlt] at hle
            omega
        refine ⟨List.forall_mem_cons.mpr ⟨by rw [hline]; rfl, hlines⟩,
          fun _ => ⟨hstore, hfits⟩, ?_⟩
        rw [List.map_cons, hbyte]
        exact DramSys.stored_stored hsize (by rw [List.length_map]; exact hfits)
      · rintro ⟨hlines, hfit, rfl⟩
        obtain ⟨hstore, hfits⟩ := hfit (List.cons_ne_nil _ _)
        rw [List.length_cons] at hfits
        have hin : ∀ memory ∈ d.drams, addr.toNat < memory.length := fun memory hm => by
          have := hfits memory hm
          omega
        refine ⟨(), _, ⟨hstore, hin, rfl⟩, (ih (hsize.stored hin)).mpr
          ⟨(List.forall_mem_cons.mp hlines).2, fun _ => ⟨hstore, ?_⟩, ?_⟩⟩
        · intro memory' hm'
          obtain ⟨memory, hm, hlen⟩ := DramSys.length_of_mem_stored hin hm'
          rw [hlen, succ_toNat (hsize memory hm) (hin memory hm)]
          have := hfits memory hm
          omega
        · rw [List.map_cons, hbyte]
          exact (DramSys.stored_stored hsize (by rw [List.length_map]; exact hfits)).symm

/-! ## Many calls -/

namespace Preload

variable {d d' : DramSys} {u : Unit}

theorem run_returns_iff (p : Preload) (hsize : d.Addressable) :
    Returns p.run d u d' ↔ p.Fits d ∧ d' = d.stored p.block.1 p.block.2 := by
  cases p with
  | byte addr byteInt =>
    change Returns (perloadByte addr byteInt.toUInt8) d u d' ↔ _
    rw [perloadByte_returns_iff]
    constructor
    · rintro ⟨hstore, hin, rfl⟩
      exact ⟨⟨fun _ h => absurd h List.not_mem_nil, fun _ => hstore, fun _ => hin⟩, rfl⟩
    · rintro ⟨hfits, rfl⟩
      exact ⟨hfits.store (List.cons_ne_nil _ _), hfits.inside (List.cons_ne_nil _ _), rfl⟩
  | memfile addrOfst file =>
    have hrun : (memfile addrOfst file).run =
        loadLines addrOfst ((file.map textLines).getD []) := by
      cases file <;> rfl
    rw [hrun, loadLines_returns_iff hsize]
    generalize hlines : (file.map textLines).getD [] = lines
    have hblock : (memfile addrOfst file).block = (addrOfst.toNat, lines.map lineByte) := by
      rw [← hlines]
      rfl
    have hread : (memfile addrOfst file).lines = lines := hlines
    rw [hblock]
    constructor
    · rintro ⟨hsome, hfit, rfl⟩
      refine ⟨⟨?_, ?_, ?_⟩, rfl⟩
      · rwa [hread]
      · rw [hblock]
        exact fun hne => (hfit fun hnil => hne (by rw [hnil]; rfl)).1
      · rw [hblock]
        intro hne
        rw [List.length_map]
        exact (hfit fun hnil => hne (by rw [hnil]; rfl)).2
    · rintro ⟨hfits, rfl⟩
      have hstore := hfits.store
      have hinside := hfits.inside
      have hsome := hfits.lines
      rw [hblock] at hstore hinside
      rw [hread] at hsome
      rw [List.length_map] at hinside
      refine ⟨hsome, fun hne => ?_, rfl⟩
      have hne' : lines.map lineByte ≠ [] := fun hnil => hne (List.map_eq_nil_iff.mp hnil)
      exact ⟨hstore hne', hinside hne'⟩

/-- A call that fits leaves the memories as long as they were. -/
theorem Fits.length_eq {p : Preload} (h : p.Fits d) {memory : Bytes} (hm : memory ∈ d.drams) :
    (overwrite memory p.block.1 p.block.2).length = memory.length := by
  by_cases hnil : p.block.2 = []
  · rw [hnil, overwrite_nil]
  · exact length_overwrite (h.inside hnil memory hm)

theorem Fits.fits_iff {p q : Preload} (h : p.Fits d) :
    q.Fits (d.stored p.block.1 p.block.2) ↔ q.Fits d := by
  have hlengths : (∀ memory ∈ (d.stored p.block.1 p.block.2).drams,
        q.block.1 + q.block.2.length ≤ memory.length) ↔
      ∀ memory ∈ d.drams, q.block.1 + q.block.2.length ≤ memory.length := by
    unfold DramSys.stored
    rw [List.forall_mem_map]
    exact forall₂_congr fun memory hm => by rw [h.length_eq hm]
  constructor
  · exact fun hq => ⟨hq.lines, hq.store, fun hne => hlengths.mp (hq.inside hne)⟩
  · exact fun hq => ⟨hq.lines, hq.store, fun hne => hlengths.mpr (hq.inside hne)⟩

/-- Calls one after the other come to their end exactly when each fits, and then
every channel holds their blocks, the later over the earlier. -/
theorem runs_return_iff {ps : List Preload} (hsize : d.Addressable) :
    Returns (forEach run ps) d u d' ↔ (∀ p ∈ ps, p.Fits d) ∧
      d' = { d with drams := d.drams.map fun memory => overwriteAll memory (ps.map block) } := by
  induction ps generalizing d with
  | nil =>
    rw [returns_forEach_nil]
    have hsame : d = { d with drams := d.drams.map fun memory => overwriteAll memory [] } := by
      simp [overwriteAll]
    rw [List.map_nil, ← hsame]
    exact ⟨fun h => ⟨fun _ hp => absurd hp List.not_mem_nil, h.symm⟩, fun h => h.2.symm⟩
  | cons p ps ih =>
    have hsized : p.Fits d → (d.stored p.block.1 p.block.2).Addressable := by
      intro hp memory' hm'
      obtain ⟨memory, hm, rfl⟩ := List.mem_map.mp hm'
      rw [hp.length_eq hm]
      exact hsize memory hm
    have hfold : ({ d.stored p.block.1 p.block.2 with
        drams := (d.stored p.block.1 p.block.2).drams.map fun memory =>
          overwriteAll memory (ps.map block) } : DramSys) =
        { d with drams := d.drams.map fun memory => overwriteAll memory ((p :: ps).map block) } := by
      unfold DramSys.stored
      simp only [List.map_map, List.map_cons]
      rfl
    rw [returns_forEach_cons, List.forall_mem_cons]
    constructor
    · rintro ⟨t, hone, hrest⟩
      obtain ⟨hp, rfl⟩ := (p.run_returns_iff hsize).mp hone
      obtain ⟨hps, rfl⟩ := (ih (hsized hp)).mp hrest
      exact ⟨⟨hp, fun q hq => hp.fits_iff.mp (hps q hq)⟩, hfold⟩
    · rintro ⟨⟨hp, hps⟩, rfl⟩
      refine ⟨_, (p.run_returns_iff hsize).mpr ⟨hp, rfl⟩, (ih (hsized hp)).mpr
        ⟨fun q hq => hp.fits_iff.mpr (hps q hq), hfold.symm⟩⟩

end Preload

/-! ## What is read back -/

/-- Calls come to their end exactly when every line holds something and all that is
stored fits.  Then `dram_check_byte` returns the byte of the last call that stored
at the address, and what was there if none did. -/
theorem check_after_preloads {ps : List Preload} {d : DramSys} (hsize : d.Addressable)
    (hstore : d.store = true) {memory : Bytes} {rest : List Bytes}
    (hdrams : d.drams = memory :: rest) :
    ((∃ d', Returns (forEach Preload.run ps) d () d') ↔ ∀ p ∈ ps, p.Fits d) ∧
      ∀ d', Returns (forEach Preload.run ps) d () d' →
        ∀ addr : UInt64, addr.toNat < memory.length →
          ∃ byte, Returns (checkByte addr) d' byte d' ∧
            (∀ before p after, ps = before ++ p :: after → Takes p.block addr.toNat →
              (∀ q ∈ after, ¬ Takes q.block addr.toNat) →
                p.block.2[addr.toNat - p.block.1]? = some byte) ∧
            ((∀ p ∈ ps, ¬ Takes p.block addr.toNat) → memory[addr.toNat]? = some byte) := by
  refine ⟨⟨fun ⟨d', h⟩ => ((Preload.runs_return_iff hsize).mp h).1,
    fun hfits => ⟨_, (Preload.runs_return_iff hsize).mpr ⟨hfits, rfl⟩⟩⟩, ?_⟩
  intro d' h addr haddr
  obtain ⟨hfits, rfl⟩ := (Preload.runs_return_iff hsize).mp h
  have hmem : memory ∈ d.drams := by
    rw [hdrams]
    exact List.mem_cons_self
  -- Calls that store nothing may lie anywhere.
  have hinside : ∀ c ∈ (ps.map Preload.block).filter fun c => c.2 ≠ [],
      c.1 + c.2.length ≤ memory.length := by
    intro c hc
    obtain ⟨hc, hne⟩ := List.mem_filter.mp hc
    obtain ⟨p, hp, rfl⟩ := List.mem_map.mp hc
    exact (hfits p hp).inside (by simpa using hne) memory hmem
  have hnonempty : ∀ {p : Preload}, Takes p.block addr.toNat → p.block.2 ≠ [] := by
    intro p htakes hnil
    unfold Takes at htakes
    rw [hnil, List.length_nil] at htakes
    omega
  have hbyte : addr.toNat < (overwriteAll memory (ps.map Preload.block)).length := by
    rw [← overwriteAll_filter, length_overwriteAll hinside]
    exact haddr
  obtain ⟨byte, hget⟩ : ∃ byte,
      (overwriteAll memory (ps.map Preload.block))[addr.toNat]? = some byte :=
    ⟨_, List.getElem?_eq_getElem hbyte⟩
  refine ⟨byte, ?_, ?_, ?_⟩
  · unfold checkByte
    rw [returns_get_bind, if_pos hstore]
    simp only [hdrams, List.map_cons, hget]
    exact returns_pure.mpr ⟨rfl, rfl⟩
  · intro before p after hps htakes hlast
    rw [← hget, ← overwriteAll_filter]
    rw [hps, List.map_append, List.map_cons] at hinside ⊢
    rw [List.filter_append, List.filter_cons_of_pos (by simpa using hnonempty htakes)] at hinside ⊢
    refine (getElem?_overwriteAll_of_last hinside htakes ?_).symm
    intro c hc
    obtain ⟨q, hq, rfl⟩ := List.mem_map.mp (List.mem_of_mem_filter hc)
    exact hlast q hq
  · intro hnone
    rw [← hget, ← overwriteAll_filter]
    refine (getElem?_overwriteAll_of_not_taken hinside ?_).symm
    intro c hc
    obtain ⟨p, hp, rfl⟩ := List.mem_map.mp (List.mem_of_mem_filter hc)
    exact hnone p hp

/-- A DRAM with two channels of four bytes. -/
def twoChannels : DramSys := ⟨"DRAMSysRecordable0", true, [[9, 9, 9, 9], [8, 8, 8, 8]]⟩

/-- A file of two lines, and a byte over the second. -/
def twoPreloads : List Preload :=
  [.memfile 1 (some ['1', 'f', '\n', ' ', '0', 'X', 'A', 'b', '\r', '\n']), .byte 2 0x1FE]

theorem check_after_preloads_twoChannels :
    ∃ d' byte, Returns (forEach Preload.run twoPreloads) twoChannels () d' ∧
      Returns (checkByte 2) d' byte d' ∧ some 0xFE = some byte := by
  have hsize : twoChannels.Addressable := by
    unfold DramSys.Addressable
    decide
  obtain ⟨hreturns, hcheck⟩ := @check_after_preloads twoPreloads twoChannels hsize rfl _ _ rfl
  obtain ⟨d', hrun⟩ := hreturns.mpr (by
    intro p hp
    rcases List.mem_cons.mp hp with rfl | hp
    · exact ⟨by decide, fun _ => rfl, fun _ => by decide⟩
    · rw [List.mem_singleton.mp hp]
      exact ⟨by decide, fun _ => rfl, fun _ => by decide⟩)
  obtain ⟨byte, hbyte, hlast, _⟩ := hcheck d' hrun 2 (by decide)
  exact ⟨d', byte, hrun, hbyte, hlast (twoPreloads.take 1) (.byte 2 0x1FE) [] rfl
    ⟨by decide, by decide⟩ fun _ hq => absurd hq List.not_mem_nil⟩

/-! ## Printed bytes -/

/-- A line that shows a byte in hexadecimal: digits of either case, zeros in front
as far as a width asks, and maybe `0x`. -/
def PrintsByte (line : Text) (byte : UInt8) : Prop :=
  ∃ width digits, digits.map Char.toUpper = zeroPad width (upperHex byte.toNat) ∧
    (line = digits ∨ line = '0' :: 'x' :: digits ∨ line = '0' :: 'X' :: digits)

theorem hexPrefix_of_readHex {acc n : Nat} {t : Text} (h : readHex acc (t.map Char.toUpper) = some n) :
    hexPrefix acc t = n := by
  induction t generalizing acc with
  | nil => exact Option.some.inj h
  | cons c cs ih =>
    rw [List.map_cons, readHex] at h
    rw [hexPrefix]
    cases hc : hexDigit? c.toUpper with
    | none =>
      rw [hc] at h
      cases h
    | some d =>
      rw [hc] at h
      exact ih h

theorem isSome_of_readHex {acc n : Nat} {t : Text} (h : readHex acc t = some n) :
    ∀ c ∈ t, (hexDigit? c).isSome := by
  induction t generalizing acc with
  | nil => exact fun _ hc => absurd hc List.not_mem_nil
  | cons c cs ih =>
    rw [readHex] at h
    cases hc : hexDigit? c with
    | none =>
      rw [hc] at h
      cases h
    | some d =>
      rw [hc] at h
      exact List.forall_mem_cons.mpr ⟨by rw [hc]; rfl, ih h⟩

/-- A hexadecimal digit is neither white space nor a sign nor an `x`. -/
theorem not_digit {c : Char} (h : isSpace c = true ∨ c = '-' ∨ c = '+' ∨ c = 'x' ∨ c = 'X') :
    hexDigit? c.toUpper = none := by
  unfold isSpace at h
  simp only [Bool.or_eq_true, beq_iff_eq] at h
  rcases h with (((((rfl | rfl) | rfl) | rfl) | rfl) | rfl) | rfl | rfl | rfl | rfl <;> decide

theorem extractHex_digits {digits : Text} {n : Nat} (hne : digits ≠ [])
    (h : readHex 0 (digits.map Char.toUpper) = some n) (hn : n < 2 ^ 32)
    {line : Text} (hline : line = digits ∨ line = '0' :: 'x' :: digits ∨ line = '0' :: 'X' :: digits) :
    extractHex line = some (UInt32.ofNat n) := by
  have hdigit : ∀ c ∈ digits, (hexDigit? c.toUpper).isSome := fun c hc =>
    isSome_of_readHex h _ (List.mem_map_of_mem hc)
  have hnot : ∀ c ∈ digits, ¬ (isSpace c = true ∨ c = '-' ∨ c = '+' ∨ c = 'x' ∨ c = 'X') := by
    intro c hc hbad
    have hsome := hdigit c hc
    rw [not_digit hbad] at hsome
    cases hsome
  have hdigits := hexPrefix_of_readHex h
  have hsmall : ¬ 2 ^ 32 ≤ n := not_le.mpr hn
  rcases hline with rfl | rfl | rfl
  · obtain ⟨c, t, rfl⟩ := List.exists_cons_of_ne_nil hne
    have hc := hnot c List.mem_cons_self
    push Not at hc
    have hsign : takeSign (c :: t) = (false, c :: t) := by
      rw [takeSign, if_neg hc.2.1, if_neg hc.2.2.1]
    have hdrop : dropPrefix (c :: t) = c :: t := by
      cases t with
      | nil => rfl
      | cons x t =>
        have hx := hnot x (List.mem_cons_of_mem _ List.mem_cons_self)
        push Not at hx
        rw [dropPrefix, if_neg fun hbad => hbad.2.elim hx.2.2.2.1 hx.2.2.2.2]
    rw [extractHex, List.dropWhile_cons_of_neg (by simpa using hc.1)]
    simp only [hsign, hdrop, hdigits, if_neg hsmall, Bool.false_eq_true, if_false]
  · have hskip : extractHex ('0' :: 'x' :: digits) = some (if 2 ^ 32 ≤ hexPrefix 0 digits
        then 0xFFFFFFFF else UInt32.ofNat (hexPrefix 0 digits)) := rfl
    rw [hskip, hdigits, if_neg hsmall]
  · have hskip : extractHex ('0' :: 'X' :: digits) = some (if 2 ^ 32 ≤ hexPrefix 0 digits
        then 0xFFFFFFFF else UInt32.ofNat (hexPrefix 0 digits)) := rfl
    rw [hskip, hdigits, if_neg hsmall]

theorem PrintsByte.extractHex {line : Text} {byte : UInt8} (h : PrintsByte line byte) :
    extractHex line = some (UInt32.ofNat byte.toNat) := by
  obtain ⟨width, digits, hdigits, hline⟩ := h
  have hread : readHex 0 (digits.map Char.toUpper) = some byte.toNat := by
    rw [hdigits, zeroPad, readHex_zeros, readHex_upperHex]
  have hne : digits ≠ [] := by
    rintro rfl
    have hnil := List.append_eq_nil_iff.mp hdigits.symm
    exact upperHex_ne_nil _ hnil.2
  have hbyte := byte.toNat_lt
  exact extractHex_digits hne hread (by omega) hline

theorem PrintsByte.lineByte {line : Text} {byte : UInt8} (h : PrintsByte line byte) :
    lineByte line = byte := by
  unfold Dram.lineByte
  rw [h.extractHex, Option.getD_some]
  apply UInt8.toNat_inj.mp
  have hbyte := byte.toNat_lt
  simp only [UInt32.toNat_toUInt8, UInt32.toNat_ofNat']
  omega

theorem PrintsByte.no_newline {line : Text} {byte : UInt8} (h : PrintsByte line byte) :
    ∀ c ∈ line, c ≠ '\n' := by
  obtain ⟨width, digits, hdigits, hline⟩ := h
  have hread : readHex 0 (digits.map Char.toUpper) = some byte.toNat := by
    rw [hdigits, zeroPad, readHex_zeros, readHex_upperHex]
  have hdigit : ∀ c ∈ digits, c ≠ '\n' := by
    rintro c hc rfl
    have hsome := isSome_of_readHex hread _ (List.mem_map_of_mem hc)
    rw [not_digit (.inl (by decide))] at hsome
    cases hsome
  rcases hline with rfl | rfl | rfl
  · exact hdigit
  · exact List.forall_mem_cons.mpr ⟨by decide, List.forall_mem_cons.mpr ⟨by decide, hdigit⟩⟩
  · exact List.forall_mem_cons.mpr ⟨by decide, List.forall_mem_cons.mpr ⟨by decide, hdigit⟩⟩

/-- Bytes that were printed one a line are read back. -/
theorem textLines_flatMap {lines : List Text} (h : ∀ line ∈ lines, ∀ c ∈ line, c ≠ '\n') :
    textLines (lines.flatMap fun line => line ++ ['\n']) = lines := by
  induction lines with
  | nil => rfl
  | cons line lines ih =>
    rw [List.forall_mem_cons] at h
    rw [List.flatMap_cons, List.append_assoc, List.singleton_append,
      textLines_append_newline h.1, ih h.2]

/-- A file that shows bytes in hexadecimal, one a line, puts exactly these bytes at
the address, in every channel, and comes to its end if they fit. -/
theorem dramLoadMemfile_printed {d d' : DramSys} (hsize : d.Addressable) {addr : UInt64}
    {lines : List Text} {bytes : Bytes} (hprints : List.Forall₂ PrintsByte lines bytes) :
    Returns (dramLoadMemfile addr (some (lines.flatMap fun line => line ++ ['\n']))) d () d' ↔
      (bytes ≠ [] → d.store = true ∧
        ∀ memory ∈ d.drams, addr.toNat + bytes.length ≤ memory.length) ∧
      d' = d.stored addr.toNat bytes := by
  have hshown : ∀ line ∈ lines, ∃ byte, PrintsByte line byte := by
    intro line hline
    obtain ⟨byte, _, hprint⟩ := exists_left_of_forall₂ hprints.flip hline
    exact ⟨byte, hprint⟩
  have hlines : textLines (lines.flatMap fun line => line ++ ['\n']) = lines := by
    apply textLines_flatMap
    intro line hline
    obtain ⟨byte, hprint⟩ := hshown line hline
    exact PrintsByte.no_newline hprint
  have hbytes : bytes = lines.map lineByte :=
    forall₂_eq_map (hprints.imp fun _ _ hprint => (PrintsByte.lineByte hprint).symm)
  have hsome : ∀ line ∈ lines, (extractHex line).isSome := by
    intro line hline
    obtain ⟨byte, hprint⟩ := hshown line hline
    rw [PrintsByte.extractHex hprint]
    rfl
  change Returns (loadLines addr (textLines _)) d () d' ↔ _
  rw [hlines, loadLines_returns_iff hsize, hbytes, List.length_map, ne_eq, ne_eq,
    List.map_eq_nil_iff]
  exact ⟨fun h => h.2, fun h => ⟨hsome, h⟩⟩

theorem dramLoadMemfile_printed_twoChannels :
    Returns (dramLoadMemfile 2 (some ['0', '0', 'f', '\n', '0', 'x', 'A', 'b', '\n'])) twoChannels ()
      ⟨"DRAMSysRecordable0", true, [[9, 9, 0x0F, 0xAB], [8, 8, 0x0F, 0xAB]]⟩ := by
  have hprints : List.Forall₂ PrintsByte [['0', '0', 'f'], ['0', 'x', 'A', 'b']] [0x0F, 0xAB] :=
    .cons ⟨3, _, by decide, .inl rfl⟩ (.cons ⟨0, ['A', 'b'], by decide, .inr (.inl rfl)⟩ .nil)
  have hsize : twoChannels.Addressable := by
    unfold DramSys.Addressable
    decide
  have hloads := @dramLoadMemfile_printed _
    ⟨"DRAMSysRecordable0", true, [[9, 9, 0x0F, 0xAB], [8, 8, 0x0F, 0xAB]]⟩ hsize 2 _ _ hprints
  exact hloads.mpr ⟨fun _ => ⟨rfl, by decide⟩, by decide⟩

end SoftHier.Dram
