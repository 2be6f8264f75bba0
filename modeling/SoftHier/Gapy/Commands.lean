/-
  Gapy/Commands.lean --- the commands of a command line.

  The executable runs its commands one after the other on one target, and a flash
  parses its content for the first that needs it.  As long as no content
  overflows its flash the commands do not notice each other: they do what each of
  them does in a process of its own.
-/
import SoftHier.Gapy.DumpLayout
import SoftHier.Gapy.SectionDumps

set_option autoImplicit false

namespace SoftHier.Gapy

open SoftHier.Foundation Program

/-! ## The commands -/

/-- What a command prints; of a table, what its rows are made from.  The line
`Dumping flash ...` and the headings are left out. -/
inductive Shown where
  | commands (rows : List (String × String))
  | targets
  | layout (flash : String) (rows : List Flash.LayoutRow)
  | sectionProperties (flash : String) (rows : List (String × List (String × PyValue × String)))
  | targetProperties (properties : List Property)

/-- A run of the executable: the target with the files written, and what was
printed. -/
structure Session where
  dumping : Dumping
  shown : List Shown := []

/-- A step of a run. -/
abbrev SessionM (α : Type) : Type := Program PyError Session α

namespace Session

/-- A method of the target. -/
def onDumping {α : Type} (p : DumpM α) : SessionM α := fun s =>
  match p s.dumping with
  | .ok a d => .ok a { s with dumping := d }
  | .error e d => .error e { s with dumping := d }

/-- `print`. -/
def display (x : Shown) : SessionM Unit := modify fun s => { s with shown := s.shown ++ [x] }

/-- A loop over the flashes. -/
def forFlashes (body : String → SessionM Unit) : SessionM Unit := do
  let s ← get
  Program.forEach body s.dumping.target.flashes.keys

end Session

namespace Target

open Session

/-- `commands`. -/
def commands : List (String × String) :=
  [("commands", "Show the list of available commands"),
    ("targets", "Show the list of available targets"),
    ("image", "Generate the target images needed to run execution"),
    ("flash", "Upload the flash contents to the target"),
    ("flash_layout", "Dump the layout of the flashes"),
    ("flash_dump_sections", "Dump each section of each flash memory"),
    ("flash_dump_app_sections", "Dump each section of each flash memory"),
    ("flash_properties", "Dump the value of all flash section properties"),
    ("target_properties", "Dump the value of all target properties"),
    ("run", "Start execution on the target")]

/-- What `parse_args` keeps for the commands; `signed` tells whether there is a
`pem_path`. -/
structure CommandArgs where
  layoutLevel : Int
  signed : Bool

/-- The loop over `command_handlers`: whether one of them handled the command. -/
def askHandlers (cmd : String) : List (String → SessionM Bool) → SessionM Bool
  | [] => pure false
  | handler :: rest => do if ← handler cmd then pure true else askHandlers cmd rest

/-- `dump_layout`. -/
def showLayout (h : Host) (args : CommandArgs) (name : String) : SessionM Unit := do
  let rows ← onDumping (onFlash name (Flash.dumpLayout h args.layoutLevel))
  display (.layout name rows)

/-- `dump_section_properties`. -/
def showSectionProperties (h : Host) (name : String) : SessionM Unit := do
  let rows ← onDumping (onFlash name (Flash.dumpSectionProperties h))
  display (.sectionProperties name rows)

/-- `handle_command`. -/
def handleCommand (h : Host) (disk : Disk) (args : CommandArgs)
    (handlers : List (String → SessionM Bool)) (cmd : String) : SessionM Unit := do
  if ← askHandlers cmd handlers then pure ()
  else if cmd = "commands" then display (.commands commands)
  else if cmd = "targets" then display .targets
  else if cmd = "flash_layout" then forFlashes (showLayout h args)
  else if cmd = "flash_dump_sections" then
    forFlashes fun name => onDumping (Flash.dumpSections h disk false args.signed name)
  else if cmd = "flash_dump_app_sections" then
    forFlashes fun name => onDumping (Flash.dumpSections h disk true args.signed name)
  else if cmd = "flash_properties" then forFlashes (showSectionProperties h)
  else if cmd = "target_properties" then do
    let s ← get
    display (.targetProperties s.dumping.target.targetProperties.values)
  else if cmd = "image" then onDumping (handleCommandImage h disk)
  else if cmd = "flash" then pure ()
  else throw (.runtimeError ("Invalid command: " ++ cmd))

/-- The last loop of the executable. -/
def handleCommands (h : Host) (disk : Disk) (args : CommandArgs)
    (handlers : List (String → SessionM Bool)) (cmds : List String) : SessionM Unit :=
  Program.forEach (handleCommand h disk args handlers) cmds

/-- A process for each command: the files and the screen stay, the target is made
anew. -/
def handleSeparately (h : Host) (disk : Disk) (args : CommandArgs)
    (handlers : List (String → SessionM Bool)) (t : Target) (cmds : List String) :
    SessionM Unit :=
  Program.forEach (fun cmd => do
    modify fun s => { s with dumping := { s.dumping with target := t } }
    handleCommand h disk args handlers cmd) cmds

end Target

theorem raises_onFlash {α : Type} {d : Dumping} {name : String} {p : FlashM α} {f f' : Flash}
    {e : PyError} (hf : d.target.flashes.get name = some f) (hp : Raises p f e f') :
    Raises (onFlash name p) d e (d.setFlash name f') := by
  have hrun : p f = .error e f' := hp
  unfold Raises onFlash
  simp only [hf, hrun]

theorem raises_onFlash_none {α : Type} {d : Dumping} {name : String} {p : FlashM α}
    (hf : d.target.flashes.get name = none) : Raises (onFlash name p) d .keyError d := by
  unfold Raises onFlash
  rw [hf]

/-! ## Flashes some of which were parsed -/

namespace Flash

/-- A flash as it was made. -/
structure New (f : Flash) : Prop where
  sections : f.sections = Dict.empty
  contentParsed : f.contentParsed = false

/-- A parse that does not check for overflow has no other result than one that
does: no section that it placed overflows. -/
def NoOverflow (h : Host) (f : Flash) : Prop :=
  ∀ g, Returns (parseContent h false) f () g → Returns (parseContent h true) f () g

/-- The second flash is the first one, or what a parse made of it. -/
def Seen (h : Host) (f g : Flash) : Prop := g = f ∨ Returns (parseContent h true) f () g

variable {host : Host} {f g : Flash}

/-- A parse that passes the check passes without it, and is not done again. -/
theorem New.parse (hnew : f.New) (hparse : Returns (parseContent host true) f () g)
    (checkOverflow : Bool) :
    Returns (parseContent host checkOverflow) f () g ∧
      Returns (parseContent host checkOverflow) g () g := by
  cases hcontent : f.contentDict.isNone with
  | true =>
    obtain ⟨-, rfl⟩ := (returns_parseContent_none hcontent true).unique hparse
    exact ⟨returns_parseContent_none hcontent _, returns_parseContent_none hcontent _⟩
  | false =>
    have hparsed := contentParsed_of_parse ⟨hnew.sections, hnew.contentParsed, hcontent⟩ hparse
    refine ⟨?_, returns_parseContent_again hparsed⟩
    cases checkOverflow with
    | true => exact hparse
    | false => exact returns_parseContent_unchecked hnew.contentParsed hcontent hparse

/-- A content that passes the check does not overflow. -/
theorem New.noOverflow (hnew : f.New) (hparse : Returns (parseContent host true) f () g) :
    f.NoOverflow host := by
  intro u hu
  obtain ⟨-, rfl⟩ := (hnew.parse hparse false).1.unique hu
  exact hparse

end Flash

/-- The same target, some of whose flashes were parsed. -/
structure ViewOf (h : Host) (t u : Target) : Prop where
  frame : u = { t with flashes := u.flashes }
  keys : u.flashes.keys = t.flashes.keys
  flashes : ∀ name f, t.flashes.get name = some f →
    ∃ g, u.flashes.get name = some g ∧ Flash.Seen h f g

namespace ViewOf

variable {host : Host} {t u : Target}

theorem refl (t : Target) : ViewOf host t t := ⟨rfl, rfl, fun _ f hf => ⟨f, hf, .inl rfl⟩⟩

theorem get_none (h : ViewOf host t u) {name : String} (hnone : t.flashes.get name = none) :
    u.flashes.get name = none := by
  rw [Dict.get_eq_none_iff, h.keys]
  exact Dict.get_eq_none_iff.mp hnone

theorem set (h : ViewOf host t u) {name : String} {f g : Flash} (hf : t.flashes.get name = some f)
    (hg : Flash.Seen host f g) :
    ViewOf host t { u with flashes := u.flashes.set name g } := by
  obtain ⟨g₀, hg₀, -⟩ := h.flashes name f hf
  refine ⟨?_, ?_, fun n v hv => ?_⟩
  · rw [h.frame]
  · change (u.flashes.set name g).keys = t.flashes.keys
    rw [Dict.keys_set_of_mem g (Dict.mem_keys_iff.mpr ⟨g₀, hg₀⟩), h.keys]
  · change ∃ w, (u.flashes.set name g).get n = some w ∧ _
    rw [Dict.get_set]
    by_cases hname : name = n
    · subst hname
      obtain rfl := Option.some.inj (hf.symm.trans hv)
      exact ⟨g, if_pos rfl, hg⟩
    · rw [if_neg hname]
      exact h.flashes n v hv

end ViewOf

/-! ## Two runs side by side -/

/-- The same files were written. -/
def SameFiles (d d' : Dumping) : Prop := d.dumped = d'.dumped

/-- Two runs of one target with the same files, whichever flashes they parsed. -/
structure Alongside (h : Host) (t : Target) (d d' : Dumping) : Prop where
  files : SameFiles d d'
  left : ViewOf h t d.target
  right : ViewOf h t d'.target

/-- Both have parsed the flash with a name, with the same result. -/
structure AlongsideAt (h : Host) (t : Target) (name : String) (d d' : Dumping) : Prop where
  alongside : Alongside h t d d'
  parsed : ∃ f g, t.flashes.get name = some f ∧ Returns (Flash.parseContent h true) f () g ∧
    d.target.flashes.get name = some g ∧ d'.target.flashes.get name = some g

/-- The flashes of a target are as they were made, and no content overflows. -/
structure Target.Regular (h : Host) (t : Target) : Prop where
  new : ∀ p ∈ t.flashes.entries, p.2.New
  noOverflow : ∀ p ∈ t.flashes.entries, p.2.NoOverflow h

section Alongside

variable {host : Host} {disk : Disk} {t : Target} {name : String} {α : Type}

theorem Alongside.set {d d' : Dumping} (h : Alongside host t d d') {f g : Flash}
    (hf : t.flashes.get name = some f) (hparse : Returns (Flash.parseContent host true) f () g) :
    AlongsideAt host t name (d.setFlash name g) (d'.setFlash name g) :=
  ⟨⟨h.files, h.left.set hf (.inr hparse), h.right.set hf (.inr hparse)⟩,
    f, g, hf, hparse, d.get_setFlash name g, d'.get_setFlash name g⟩

/-- A method of a flash that parses the content first. -/
theorem alike_onFlash (ht : t.Regular host) (name : String) (checkOverflow : Bool)
    {k : Unit → FlashM α} (hk : ReadOnly (k ())) :
    Alike (Alongside host t) (AlongsideAt host t name) SameFiles
      (onFlash name (Flash.parseContent host checkOverflow >>= k))
      (onFlash name (Flash.parseContent host checkOverflow >>= k)) := by
  intro d d' h
  cases hf : t.flashes.get name with
  | none =>
    exact .inr ⟨.keyError, d, d', raises_onFlash_none (h.left.get_none hf),
      raises_onFlash_none (h.right.get_none hf), h.files⟩
  | some f =>
    obtain ⟨g, hg, hseen⟩ := h.left.flashes name f hf
    obtain ⟨g', hg', hseen'⟩ := h.right.flashes name f hf
    have hmem := Dict.get_eq_some_iff.mp hf
    by_cases hparses : ∃ u, Returns (Flash.parseContent host true) f () u
    · -- both flashes are the parsed one then
      obtain ⟨u, hu⟩ := hparses
      obtain ⟨hfirst, hagain⟩ := (ht.new _ hmem).parse hu checkOverflow
      have hparse : ∀ {v : Flash}, Flash.Seen host f v →
          Returns (Flash.parseContent host checkOverflow) v () u := by
        rintro v (rfl | hv)
        · exact hfirst
        · obtain ⟨-, rfl⟩ := hv.unique hu
          exact hagain
      have hkept := hk u
      unfold finalState at hkept
      cases hrun : k () u with
      | ok a v =>
        rw [hrun] at hkept
        subst hkept
        exact .inl ⟨a, _, _, returns_onFlash hg (Returns.bind (hparse hseen) hrun),
          returns_onFlash hg' (Returns.bind (hparse hseen') hrun), h.set hf hu⟩
      | error e v =>
        have hraises : ∀ {w : Flash}, Flash.Seen host f w →
            Raises (Flash.parseContent host checkOverflow >>= k) w e v := fun hw =>
          raises_bind.mpr (.inr ⟨(), u, hparse hw, hrun⟩)
        exact .inr ⟨e, _, _, raises_onFlash hg (hraises hseen),
          raises_onFlash hg' (hraises hseen'), h.files⟩
    · -- neither was parsed, and the parse raises
      have hsame : ∀ {v : Flash}, Flash.Seen host f v → v = f := by
        rintro v (rfl | hv)
        · rfl
        · exact absurd ⟨v, hv⟩ hparses
      rw [hsame hseen] at hg
      rw [hsame hseen'] at hg'
      cases hrun : Flash.parseContent host checkOverflow f with
      | ok a v =>
        cases checkOverflow with
        | true => exact absurd ⟨v, hrun⟩ hparses
        | false => exact absurd ⟨v, ht.noOverflow _ hmem v hrun⟩ hparses
      | error e v =>
        have hraises : Raises (Flash.parseContent host checkOverflow >>= k) f e v :=
          Raises.bind hrun k
        exact .inr ⟨e, _, _, raises_onFlash hg hraises, raises_onFlash hg' hraises, h.files⟩

/-- A method that leaves a parsed flash as it is. -/
theorem alike_onFlash_at {p : FlashM α}
    (hp : ∀ f g, t.flashes.get name = some f → Returns (Flash.parseContent host true) f () g →
      finalState p g = g) :
    Alike (AlongsideAt host t name) (AlongsideAt host t name) SameFiles (onFlash name p)
      (onFlash name p) := by
  intro d d' h
  obtain ⟨f, g, hf, hparse, hg, hg'⟩ := h.parsed
  have hkept := hp f g hf hparse
  unfold finalState at hkept
  cases hrun : p g with
  | ok a u =>
    rw [hrun] at hkept
    subst hkept
    exact .inl ⟨a, _, _, returns_onFlash hg hrun, returns_onFlash hg' hrun,
      h.alongside.set hf hparse⟩
  | error e u =>
    rw [hrun] at hkept
    subst hkept
    exact .inr ⟨e, _, _, raises_onFlash hg hrun, raises_onFlash hg' hrun, h.alongside.files⟩

theorem AlongsideAt.files {d d' : Dumping} (h : AlongsideAt host t name d d') : SameFiles d d' :=
  h.alongside.files

theorem AlongsideAt.wrote {d d' : Dumping} (h : AlongsideAt host t name d d')
    (outs : List (String × Bytes)) : AlongsideAt host t name (d.wrote outs) (d'.wrote outs) :=
  ⟨⟨congrArg (· ++ outs) h.files, h.alongside.left, h.alongside.right⟩, h.parsed⟩

theorem alike_wrapOsError {P Q : Dumping → Dumping → Prop} {text : String} {p : DumpM Unit}
    (h : Alike P Q SameFiles p p) :
    Alike P Q SameFiles (wrapOsError text p) (wrapOsError text p) := by
  have hraises : ∀ e, ∃ e', ∀ d d₁, Raises p d e d₁ → Raises (wrapOsError text p) d e' d₁ := by
    intro e
    by_cases hos : ∃ message, e = .osError message
    · obtain ⟨message, rfl⟩ := hos
      refine ⟨.runtimeError (text ++ message), fun d d₁ hrun => ?_⟩
      unfold Raises wrapOsError
      rw [show p d = .error (.osError message) d₁ from hrun]
    · refine ⟨e, fun d d₁ hrun => ?_⟩
      unfold Raises wrapOsError
      rw [show p d = .error e d₁ from hrun]
      cases e with
      | osError message => exact absurd ⟨message, rfl⟩ hos
      | _ => rfl
  intro d d' hP
  rcases h d d' hP with ⟨a, d₁, d₁', hrun, hrun', hQ⟩ | ⟨e, d₁, d₁', hrun, hrun', hfiles⟩
  · exact .inl ⟨a, d₁, d₁', returns_wrapOsError hrun, returns_wrapOsError hrun', hQ⟩
  · obtain ⟨e', hwrapped⟩ := hraises e
    exact .inr ⟨e', d₁, d₁', hwrapped d d₁ hrun, hwrapped d' d₁' hrun', hfiles⟩

/-- What does not depend on the run. -/
theorem alike_constant (x : Except PyError α) :
    Alike (AlongsideAt host t name) (AlongsideAt host t name) SameFiles
      (Program.reading fun _ => x : DumpM α) (Program.reading fun _ => x) :=
  alike_reading (fun _ _ h => h.files) fun _ _ _ => rfl

theorem alike_log (out : String × Bytes) :
    Alike (AlongsideAt host t name) (AlongsideAt host t name) SameFiles
      (modify fun d => { d with dumped := d.dumped ++ [out] } : DumpM Unit)
      (modify fun d => { d with dumped := d.dumped ++ [out] }) :=
  alike_modify fun _ _ h => h.wrote [out]

theorem alike_writeFile (path : String) (content : Bytes) :
    Alike (AlongsideAt host t name) (AlongsideAt host t name) SameFiles
      (Flash.writeFile disk path content) (Flash.writeFile disk path content) :=
  alike_wrapOsError (alike_bind (alike_constant _) fun _ =>
    alike_bind (alike_constant _) fun _ => alike_log _)

theorem alike_dumpSections (ht : t.Regular host) (isApp signed : Bool) (name : String) :
    Alike (Alongside host t) (Alongside host t) SameFiles
      (Flash.dumpSections host disk isApp signed name)
      (Flash.dumpSections host disk isApp signed name) := by
  have hself : Alike (AlongsideAt host t name) (AlongsideAt host t name) SameFiles
      (onFlash name get) (onFlash name get) := alike_onFlash_at fun _ _ _ _ => rfl
  have hparse := alike_onFlash ht name true (k := pure) (readOnly_pure ())
  rw [bind_pure] at hparse
  refine alike_bind hparse fun _ => alike_bind (Q := AlongsideAt host t name) ?_ fun _ => ?_
  · refine alike_bind hself fun f => alike_forEach _ fun s _ => ?_
    exact alike_bind (alike_constant _) fun image => alike_writeFile _ image
  · refine Alike.weaken (P := AlongsideAt host t name) (Q := AlongsideAt host t name) ?_
      (fun _ _ h => h) (fun _ _ h => h.alongside) fun _ _ h => h
    refine alike_bind hself fun f => alike_bind (alike_constant _) fun descriptions => ?_
    exact alike_writeFile _ _

/-- The image of a flash that both have parsed. -/
theorem alike_dumpImage (ht : t.Regular host) (first last : Nat) :
    Alike (AlongsideAt host t name) (AlongsideAt host t name) SameFiles
      (Flash.dumpImage host disk name first last) (Flash.dumpImage host disk name first last) := by
  refine alike_wrapOsError (alike_bind (alike_onFlash_at fun _ g _ _ => readOnly_reading _ g)
    fun path => alike_bind (alike_constant _) fun _ => alike_bind (alike_onFlash_at ?_)
      fun image => alike_bind (alike_constant _) fun _ => alike_log _)
  intro f g hf hparse
  have hagain := ((ht.new _ (Dict.get_eq_some_iff.mp hf)).parse hparse true).2
  unfold Flash.getImage
  rw [finalState_bind (fun _ => readOnly_get_bind fun _ => readOnly_reading _)]
  exact hagain.finalState

theorem alike_handleFlashImage (ht : t.Regular host) (name : String) :
    Alike (Alongside host t) (Alongside host t) SameFiles
      (Target.handleFlashImage host disk name) (Target.handleFlashImage host disk name) := by
  refine alike_bind (alike_onFlash ht name true (readOnly_reading _)) fun isEmpty => ?_
  refine Alike.weaken (P := AlongsideAt host t name) (Q := AlongsideAt host t name) ?_
    (fun _ _ h => h) (fun _ _ h => h.alongside) fun _ _ h => h
  cases isEmpty with
  | true => exact alike_pure (fun _ _ h => h) ()
  | false =>
    refine alike_bind (alike_onFlash_at fun f g hf hparse => ?_) fun sections =>
      alike_bind (alike_onFlash_at fun _ g _ _ => readOnly_reading _ g) fun _ =>
        alike_dumpImage ht _ _
    have hagain := ((ht.new _ (Dict.get_eq_some_iff.mp hf)).parse hparse true).2
    unfold Flash.getSections
    rw [finalState_bind (fun _ => readOnly_get_bind fun _ => readOnly_pure _)]
    exact hagain.finalState

end Alongside

namespace Session

/-- Two runs with related targets and files that printed the same. -/
def Both (R : Dumping → Dumping → Prop) (s s' : Session) : Prop :=
  R s.dumping s'.dumping ∧ s.shown = s'.shown

section Both

variable {P Q E : Dumping → Dumping → Prop} {α : Type}

theorem alike_onDumping {p q : DumpM α} (h : Alike P Q E p q) :
    Alike (Both P) (Both Q) (Both E) (onDumping p) (onDumping q) := by
  rintro s s' ⟨hP, hshown⟩
  unfold Returns Raises onDumping
  rcases h _ _ hP with ⟨a, d, d', hrun, hrun', hQ⟩ | ⟨e, d, d', hrun, hrun', hE⟩
  · rw [show p s.dumping = .ok a d from hrun, show q s'.dumping = .ok a d' from hrun']
    exact .inl ⟨a, _, _, rfl, rfl, hQ, hshown⟩
  · rw [show p s.dumping = .error e d from hrun, show q s'.dumping = .error e d' from hrun']
    exact .inr ⟨e, _, _, rfl, rfl, hE, hshown⟩

theorem alike_display (x : Shown) : Alike (Both P) (Both P) (Both E) (display x) (display x) :=
  alike_modify fun _ _ h => ⟨h.1, congrArg (· ++ [x]) h.2⟩

end Both

variable {host : Host} {t : Target}

theorem alike_forFlashes {body : String → SessionM Unit}
    (h : ∀ name, Alike (Both (Alongside host t)) (Both (Alongside host t)) (Both SameFiles)
      (body name) (body name)) :
    Alike (Both (Alongside host t)) (Both (Alongside host t)) (Both SameFiles)
      (forFlashes body) (forFlashes body) := by
  refine alike_get_bind (fun s s' hs => ?_) fun s => alike_forEach _ fun name _ => h name
  rw [hs.1.left.keys, hs.1.right.keys]

end Session

namespace Target

open Session

variable {host : Host} {disk : Disk} {args : CommandArgs} {t : Target}

/-- A handler that takes no notice of what was parsed. -/
def Indifferent (h : Host) (t : Target) (handler : String → SessionM Bool) : Prop :=
  ∀ cmd, Alike (Both (Alongside h t)) (Both (Alongside h t)) (Both SameFiles) (handler cmd)
    (handler cmd)

theorem alike_askHandlers {cmd : String} {handlers : List (String → SessionM Bool)}
    (h : ∀ handler ∈ handlers, Indifferent host t handler) :
    Alike (Both (Alongside host t)) (Both (Alongside host t)) (Both SameFiles)
      (askHandlers cmd handlers) (askHandlers cmd handlers) := by
  induction handlers with
  | nil => exact alike_pure (fun _ _ hs => hs) false
  | cons handler rest ih =>
    refine alike_bind (h handler List.mem_cons_self cmd) fun handled => ?_
    exact alike_ite (fun _ => alike_pure (fun _ _ hs => hs) true)
      fun _ => ih fun handler' hmem => h handler' (List.mem_cons_of_mem handler hmem)

/-- A command takes no notice of what was parsed before it. -/
theorem alike_handleCommand (ht : t.Regular host) {handlers : List (String → SessionM Bool)}
    (h : ∀ handler ∈ handlers, Indifferent host t handler) (cmd : String) :
    Alike (Both (Alongside host t)) (Both (Alongside host t)) (Both SameFiles)
      (handleCommand host disk args handlers cmd)
      (handleCommand host disk args handlers cmd) := by
  have hdone : Alike (Both (Alongside host t)) (Both (Alongside host t)) (Both SameFiles)
      (pure () : SessionM Unit) (pure ()) := alike_pure (fun _ _ hs => hs) ()
  have hsections : ∀ isApp, Alike (Both (Alongside host t)) (Both (Alongside host t))
      (Both SameFiles)
      (forFlashes fun name => onDumping (Flash.dumpSections host disk isApp args.signed name))
      (forFlashes fun name => onDumping (Flash.dumpSections host disk isApp args.signed name)) :=
    fun isApp => alike_forFlashes fun name =>
      alike_onDumping (alike_dumpSections ht isApp args.signed name)
  refine alike_bind (alike_askHandlers h) fun handled => ?_
  refine alike_ite (fun _ => hdone) fun _ => ?_
  refine alike_ite (fun _ => alike_display _) fun _ => ?_
  refine alike_ite (fun _ => alike_display _) fun _ => ?_
  refine alike_ite (fun _ => alike_forFlashes fun name => ?_) fun _ => ?_
  · refine alike_bind (alike_onDumping ?_) fun rows => alike_display _
    refine Alike.weaken (alike_onFlash ht name false (readOnly_reading _)) (fun _ _ hs => hs)
      (fun _ _ hs => hs.alongside) fun _ _ hs => hs
  refine alike_ite (fun _ => hsections false) fun _ => ?_
  refine alike_ite (fun _ => hsections true) fun _ => ?_
  refine alike_ite (fun _ => alike_forFlashes fun name => ?_) fun _ => ?_
  · refine alike_bind (alike_onDumping ?_) fun rows => alike_display _
    refine Alike.weaken (alike_onFlash ht name true (readOnly_get_bind fun _ => readOnly_pure _))
      (fun _ _ hs => hs) (fun _ _ hs => hs.alongside) fun _ _ hs => hs
  refine alike_ite (fun _ => ?_) fun _ => ?_
  · refine alike_get_bind (fun s s' hs => ?_) fun s => alike_display _
    rw [hs.1.left.frame, hs.1.right.frame]
  refine alike_ite (fun _ => alike_onDumping ?_) fun _ => ?_
  · refine alike_get_bind (fun d d' hd => ?_) fun d => alike_forEach _ fun name _ =>
      alike_handleFlashImage ht name
    rw [hd.left.keys, hd.right.keys]
  refine alike_ite (fun _ => hdone) fun _ => ?_
  exact alike_throw (fun _ _ hs => ⟨hs.1.files, hs.2⟩) _

/-- Two runs that end alike: with the same files written and the same printed, and
with the same error if there is one. -/
inductive SameOutcome : EStateM.Result PyError Session Unit → EStateM.Result PyError Session Unit →
    Prop
  | returned {s s' : Session} (h : Both SameFiles s s') : SameOutcome (.ok () s) (.ok () s')
  | raised {e : PyError} {s s' : Session} (h : Both SameFiles s s') :
      SameOutcome (.error e s) (.error e s')

theorem SameOutcome.isSome_returned? {p q : SessionM Unit} {s s' : Session}
    (h : SameOutcome (p s) (q s')) : (returned? p s).isSome = (returned? q s').isSome := by
  unfold returned?
  cases hp : p s with
  | ok a u =>
    rw [hp] at h
    cases hq : q s' with
    | ok b u' => rfl
    | error e u' =>
      rw [hq] at h
      cases h
  | error e u =>
    rw [hp] at h
    cases hq : q s' with
    | ok b u' =>
      rw [hq] at h
      cases h
    | error e u' => rfl

/-- As long as no content overflows its flash, the commands of one run do what
each of them does in a process of its own. -/
theorem commands_separate (host : Host) (disk : Disk) (args : CommandArgs)
    {handlers : List (String → SessionM Bool)} {t : Target} (ht : t.Regular host)
    (hhandlers : ∀ handler ∈ handlers, Indifferent host t handler) (cmds : List String)
    (written : List (String × Bytes)) (shown : List Shown) :
    SameOutcome
      (handleCommands host disk args handlers cmds ⟨⟨t, written⟩, shown⟩)
      (handleSeparately host disk args handlers t cmds ⟨⟨t, written⟩, shown⟩) := by
  have halike : Alike (Both (Alongside host t)) (Both (Alongside host t)) (Both SameFiles)
      (handleCommands host disk args handlers cmds)
      (handleSeparately host disk args handlers t cmds) := by
    refine alike_forEach _ fun cmd _ s s' hs => ?_
    -- the new process sees the target as it was made
    exact alike_handleCommand ht hhandlers cmd s
      { s' with dumping := { s'.dumping with target := t } }
      ⟨⟨hs.1.files, hs.1.left, .refl t⟩, hs.2⟩
  have hstart : Both (Alongside host t) (⟨⟨t, written⟩, shown⟩ : Session) ⟨⟨t, written⟩, shown⟩ :=
    ⟨⟨rfl, .refl t, .refl t⟩, rfl⟩
  rcases halike _ _ hstart with ⟨a, s, s', hrun, hrun', hs⟩ | ⟨e, s, s', hrun, hrun', hs⟩
  · rw [show handleCommands host disk args handlers cmds _ = .ok a s from hrun,
      show handleSeparately host disk args handlers t cmds _ = .ok a s' from hrun']
    exact .returned ⟨hs.1.files, hs.2⟩
  · rw [show handleCommands host disk args handlers cmds _ = .error e s from hrun,
      show handleSeparately host disk args handlers t cmds _ = .error e s' from hrun']
    exact .raised hs

/-- A layout, two dumps and a command that a handler takes. -/
theorem commands_separate_four :
    SameOutcome
      (handleCommands oneFileHost ⟨fun _ => none, fun _ _ => none⟩ ⟨2, false⟩
        [fun cmd => pure (cmd == "run")] ["flash_layout", "image", "flash_dump_sections", "run"]
        ⟨⟨imageTarget, []⟩, []⟩)
      (handleSeparately oneFileHost ⟨fun _ => none, fun _ _ => none⟩ ⟨2, false⟩
        [fun cmd => pure (cmd == "run")] imageTarget
        ["flash_layout", "image", "flash_dump_sections", "run"] ⟨⟨imageTarget, []⟩, []⟩) := by
  refine commands_separate _ _ _ ⟨fun p hp => ?_, fun p hp => ?_⟩ (fun handler hmem => ?_) _ _ _
  · rcases List.mem_pair.mp hp with rfl | rfl <;> exact ⟨rfl, rfl⟩
  · rcases List.mem_pair.mp hp with rfl | rfl
    · exact Flash.New.noOverflow ⟨rfl, rfl⟩ (returns_of_returned? (by decide +kernel))
    · exact Flash.New.noOverflow ⟨rfl, rfl⟩ (returns_of_returned? (by decide +kernel))
  · rw [List.mem_singleton.mp hmem]
    exact fun cmd => alike_pure (fun _ _ hs => hs) _

/-- A flash that is too small for its content. -/
def overflowTarget : Target where
  parser := ⟨[], []⟩
  flashes := Dict.empty.set "flash" (Flash.overflowFlash (rawEntry "b" 4))

/-- Once its layout was dumped, a flash that overflows is dumped as well. -/
theorem not_commands_separate : ¬ ∀ (t : Target) (cmds : List String),
    (∀ p ∈ t.flashes.entries, p.2.New) →
      SameOutcome (handleCommands Host.noFiles ⟨fun _ => none, fun _ _ => none⟩ ⟨0, false⟩ [] cmds
          ⟨⟨t, []⟩, []⟩)
        (handleSeparately Host.noFiles ⟨fun _ => none, fun _ _ => none⟩ ⟨0, false⟩ [] t cmds
          ⟨⟨t, []⟩, []⟩) := by
  intro h
  have hsame := h overflowTarget ["flash_layout", "image"] fun p hp => by
    rw [List.mem_singleton.mp hp]
    exact ⟨rfl, rfl⟩
  have htogether : (returned? (handleCommands Host.noFiles ⟨fun _ => none, fun _ _ => none⟩
      ⟨0, false⟩ [] ["flash_layout", "image"]) ⟨⟨overflowTarget, []⟩, []⟩).isSome = true := by
    decide +kernel
  have hseparate : (returned? (handleSeparately Host.noFiles ⟨fun _ => none, fun _ _ => none⟩
      ⟨0, false⟩ [] overflowTarget ["flash_layout", "image"])
        ⟨⟨overflowTarget, []⟩, []⟩).isSome = false := by
    decide +kernel
  rw [SameOutcome.isSome_returned? hsame, hseparate] at htogether
  cases htogether

end Target

end SoftHier.Gapy
