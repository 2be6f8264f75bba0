/-
  Gapy/LayoutFiles.lean --- the contents of several flashes from several files.

  Every `--multi-flash-content` names a file with contents for flashes, and the
  option may be given several times.  `parse_args` loads all the files and then
  goes through the entries of the last one only.
-/
import SoftHier.Gapy.FlashArguments

set_option autoImplicit false

namespace SoftHier.Gapy

open SoftHier.Foundation Program

namespace Target

/-- An entry of a layout: a name, if it has one, and the content under it. -/
abbrev LayoutEntry : Type := Option String × FlashContent

/-! ## What the files give -/

/-- The content in the last entry with a name. -/
def lastContent (name : String) (entries : List LayoutEntry) : Option FlashContent :=
  ((entries.filter fun entry => entry.1 = some name).getLast?).map Prod.snd

/-- The entries of all the files, in the order of the command line. -/
def allEntries (layouts : List (Option (List LayoutEntry))) : List LayoutEntry :=
  layouts.flatMap fun layout => layout.getD []

/-- The entry is for a flash the target has. -/
def Known (t : Target) (entry : LayoutEntry) : Prop :=
  ∃ name, entry.1 = some name ∧ (t.flashes.get name).isSome

/-- A file with `flashes`, all of them known. -/
def ValidLayout (t : Target) (layout : Option (List LayoutEntry)) : Prop :=
  ∃ entries, layout = some entries ∧ ∀ entry ∈ entries, t.Known entry

theorem lastContent_append (name : String) (xs ys : List LayoutEntry) :
    lastContent name (xs ++ ys) = (lastContent name ys).or (lastContent name xs) := by
  unfold lastContent
  rw [List.filter_append, List.getLast?_append, Option.map_or]

theorem lastContent_singleton (name : String) (entry : LayoutEntry) :
    lastContent name [entry] = if entry.1 = some name then some entry.2 else none := by
  unfold lastContent
  by_cases hname : entry.1 = some name
  · simp [hname]
  · simp [hname]

/-- Nothing but the last file matters: it is invalid if any file is, and each earlier
entry is overwritten there or gives a flash the content it has anyway. -/
structure LastFileDecides (t : Target) (layouts : List (Option (List LayoutEntry)))
    (last : Option (List LayoutEntry)) : Prop where
  rejects : (∃ layout ∈ layouts, ¬ t.ValidLayout layout) → ¬ t.ValidLayout last
  keeps : (∀ layout ∈ layouts, t.ValidLayout layout) → ∀ name f c,
    t.flashes.get name = some f → lastContent name (last.getD []) = none →
    lastContent name (allEntries layouts) = some c → f.contentDict = some c

/-- Every file counts: all valid, they give each flash the content of its last
entry; one invalid, they are rejected. -/
structure AppliesLayouts (files : ContentFiles) (args : Args) (t : Target)
    (layouts : List (Option (List LayoutEntry))) : Prop where
  accepted : (∀ layout ∈ layouts, t.ValidLayout layout) →
    ∃ t', Returns (parseArgs files args) t () t' ∧ ∀ name,
      (t'.flashes.get name).map Flash.contentDict =
        (t.flashes.get name).map fun f =>
          (lastContent name (allEntries layouts)).or f.contentDict
  rejected : (∃ layout ∈ layouts, ¬ t.ValidLayout layout) →
    ∀ t', ¬ Returns (parseArgs files args) t () t'

/-! ## The entries of one file -/

/-- A flash with the content of its last entry, if there is one. -/
def withLast (entries : List LayoutEntry) (name : String) (f : Flash) : Flash :=
  { f with contentDict := (lastContent name entries).or f.contentDict }

theorem withLast_withLast (xs ys : List LayoutEntry) (name : String) (f : Flash) :
    withLast ys name (withLast xs name f) = withLast (xs ++ ys) name f := by
  have hcontent : (lastContent name ys).or ((lastContent name xs).or f.contentDict) =
      (lastContent name (xs ++ ys)).or f.contentDict := by
    rw [lastContent_append, Option.or_assoc]
  exact congrArg (fun content => { f with contentDict := content }) hcontent

theorem returns_setContent {unknown : PyError} {name : String} {content : FlashContent}
    {t t' : Target} :
    Returns (setContent unknown name content) t () t' ↔ ∃ f, t.flashes.get name = some f ∧
      t' = { t with flashes := t.flashes.set name { f with contentDict := some content } } := by
  unfold setContent
  rw [returns_get_bind]
  constructor
  · intro h
    split at h
    · exact absurd h not_returns_throw
    next f hf => exact ⟨f, hf, (returns_set.mp h).symm⟩
  · rintro ⟨f, hf, rfl⟩
    rw [hf]
    exact returns_set.mpr rfl

/-- An entry that is taken is known, and only its flash changes. -/
theorem setLayoutContent_inv {entry : LayoutEntry} {t t' : Target}
    (h : Returns (setLayoutContent entry) t () t') :
    t.Known entry ∧ ∀ name,
      t'.flashes.get name = (t.flashes.get name).map (withLast [entry] name) := by
  unfold setLayoutContent at h
  split at h
  · exact absurd h not_returns_throw
  next flash hflash =>
    obtain ⟨f, hf, rfl⟩ := returns_setContent.mp h
    refine ⟨⟨flash, hflash, by rw [hf]; rfl⟩, fun name => ?_⟩
    change (t.flashes.set flash _).get name = _
    unfold withLast
    rw [Dict.get_set, lastContent_singleton, hflash]
    by_cases hname : flash = name
    · subst hname
      rw [if_pos rfl, if_pos rfl, hf]
      rfl
    · rw [if_neg hname, if_neg fun heq => hname (Option.some.inj heq)]
      cases t.flashes.get name <;> rfl

theorem returns_setLayoutContent {entry : LayoutEntry} {t : Target} (h : t.Known entry) :
    ∃ t', Returns (setLayoutContent entry) t () t' := by
  obtain ⟨name, hname, hsome⟩ := h
  obtain ⟨f, hf⟩ := Option.isSome_iff_exists.mp hsome
  unfold setLayoutContent
  rw [hname]
  exact ⟨_, returns_setContent.mpr ⟨f, hf, rfl⟩⟩

/-- Flashes that differ in their contents only are known alike. -/
theorem known_congr {t u : Target} {entries : List LayoutEntry}
    (h : ∀ name, u.flashes.get name = (t.flashes.get name).map (withLast entries name))
    (entry : LayoutEntry) : u.Known entry ↔ t.Known entry := by
  unfold Known
  simp only [h, Option.isSome_map]

/-- The loop over the entries of a file. -/
theorem setAll_inv {entries : List LayoutEntry} : ∀ {t t' : Target},
    Returns (forEach setLayoutContent entries) t () t' →
    (∀ entry ∈ entries, t.Known entry) ∧ ∀ name,
      t'.flashes.get name = (t.flashes.get name).map (withLast entries name) := by
  induction entries with
  | nil =>
    intro t t' h
    rw [returns_forEach_nil.mp h]
    refine ⟨fun _ h => absurd h List.not_mem_nil, fun name => ?_⟩
    cases t'.flashes.get name <;> rfl
  | cons entry entries ih =>
    intro t t' h
    obtain ⟨u, hone, hrest⟩ := returns_forEach_cons.mp h
    obtain ⟨hknown, hset⟩ := setLayoutContent_inv hone
    obtain ⟨hall, hsets⟩ := ih hrest
    refine ⟨fun e he => ?_, fun name => ?_⟩
    · rcases List.mem_cons.mp he with rfl | he
      · exact hknown
      · exact (known_congr hset e).mp (hall e he)
    · rw [hsets name, hset name, Option.map_map]
      refine congrArg (fun g => Option.map g _) (funext fun f => ?_)
      exact withLast_withLast [entry] entries name f

theorem returns_setAll {entries : List LayoutEntry} : ∀ {t : Target},
    (∀ entry ∈ entries, t.Known entry) →
    ∃ t', Returns (forEach setLayoutContent entries) t () t' := by
  induction entries with
  | nil => exact fun {t} _ => ⟨t, returns_forEach_nil.mpr rfl⟩
  | cons entry entries ih =>
    intro t h
    obtain ⟨u, hone⟩ := returns_setLayoutContent (h entry List.mem_cons_self)
    obtain ⟨t', hrest⟩ := ih fun e he =>
      (known_congr (setLayoutContent_inv hone).2 e).mpr (h e (List.mem_cons_of_mem entry he))
    exact ⟨t', returns_forEach_cons.mpr ⟨u, hone, hrest⟩⟩

/-! ## The files -/

theorem openError_ok {α : Type} {text : String} {result : Except PyError α} {a : α}
    (h : result = .ok a) : openError text result = .ok a := by
  rw [h]
  rfl

/-- The loop that loads the files keeps the last one. -/
theorem loadLayouts_eq {files : ContentFiles} {paths : List String} :
    ∀ {init : Option (List LayoutEntry)} {layouts : List (Option (List LayoutEntry))},
      paths.mapM files.layout = .ok layouts →
      loadLayouts files init paths = .ok (layouts.getLast?.getD init) := by
  induction paths with
  | nil =>
    intro init layouts h
    cases h
    rfl
  | cons path paths ih =>
    intro init layouts h
    rw [List.mapM_cons] at h
    cases hpath : files.layout path with
    | error e =>
      rw [hpath] at h
      cases h
    | ok layout =>
      cases hpaths : paths.mapM files.layout with
      | error e =>
        rw [hpath, hpaths] at h
        cases h
      | ok rest =>
        rw [hpath, hpaths] at h
        obtain rfl : layout :: rest = layouts := Except.ok.inj h
        have hload : loadLayouts files init (path :: paths) = loadLayouts files layout paths := by
          change (openError _ (files.layout path) >>= fun l => loadLayouts files l paths) = _
          rw [openError_ok hpath]
          rfl
        rw [hload, ih hpaths, List.getLast?_cons, Option.getD_some]

/-- `parse_args` up to the contents. -/
def takeProperties (args : Args) : TargetM Unit := do
  if args.flashProperties ≠ [] then extractFlashProperties args.flashProperties

theorem parseArgs_eq (files : ContentFiles) (args : Args) :
    parseArgs files args = takeProperties args >>= fun _ => setContents files args := by
  unfold parseArgs takeProperties
  by_cases hnone : args.flashProperties = []
  · rw [if_neg (not_not_intro hnone), if_neg (not_not_intro hnone)]
    rfl
  · rw [if_pos hnone, if_pos hnone]

/-- Handing over the properties leaves the contents alone. -/
theorem contents_takeProperties {args : Args} {t t' : Target}
    (h : Returns (takeProperties args) t () t') (name : String) :
    (t'.flashes.get name).map Flash.contentDict = (t.flashes.get name).map Flash.contentDict := by
  unfold takeProperties at h
  by_cases hnone : args.flashProperties = []
  · rw [if_neg (not_not_intro hnone)] at h
    rw [(returns_pure.mp h).2]
  · rw [if_pos hnone] at h
    unfold extractFlashProperties at h
    obtain ⟨d, u, hread, hpropagate⟩ := returns_bind.mp h
    obtain ⟨-, rfl⟩ := returns_reading.mp hread
    rw [get_propagateAll d.nodup hpropagate name, Option.map_map]
    refine congrArg (fun g => Option.map g _) (funext fun f => ?_)
    change (withProperties (Dict.lookup name d.entries) f).contentDict = f.contentDict
    cases Dict.lookup name d.entries <;> rfl

/-- With the properties taken and the files read, `parse_args` sets what the last
file says. -/
theorem returns_parseArgs_iff {files : ContentFiles} {args : Args} {t t₁ t' : Target}
    {layouts : List (Option (List LayoutEntry))} {last : Option (List LayoutEntry)}
    (hcontents : args.flashContents = [])
    (hlayouts : args.multiFlashContent.mapM files.layout = .ok layouts)
    (hlast : layouts.getLast? = some last) (hproperties : Returns (takeProperties args) t () t₁) :
    Returns (parseArgs files args) t () t' ↔
      ∃ entries, last = some entries ∧ Returns (forEach setLayoutContent entries) t₁ () t' := by
  have hgiven : args.multiFlashContent ≠ [] := by
    intro hnil
    rw [hnil] at hlayouts
    obtain rfl : [] = layouts := Except.ok.inj hlayouts
    cases hlast
  have hload : loadLayouts files none args.multiFlashContent = .ok last := by
    rw [loadLayouts_eq hlayouts, hlast]
    rfl
  have hadvance : Returns (parseArgs files args) t () t' ↔
      Returns (setContents files args) t₁ () t' := by
    rw [parseArgs_eq]
    exact ⟨fun h => hproperties.advance h, fun h => returns_bind.mpr ⟨(), t₁, hproperties, h⟩⟩
  rw [hadvance]
  unfold setContents
  rw [if_neg (not_not_intro hcontents), if_pos hgiven, returns_eval_bind hload]
  cases last with
  | none =>
    refine ⟨fun h => absurd h not_returns_throw, ?_⟩
    rintro ⟨entries, hnone, -⟩
    cases hnone
  | some entries =>
    refine ⟨fun h => ⟨entries, rfl, h⟩, ?_⟩
    rintro ⟨_, heq, h⟩
    cases heq
    exact h

theorem known_takeProperties {args : Args} {t t' : Target}
    (h : Returns (takeProperties args) t () t') (entry : LayoutEntry) :
    t'.Known entry ↔ t.Known entry := by
  have hsome : ∀ name, (t'.flashes.get name).isSome = (t.flashes.get name).isSome := by
    intro name
    have hcontents := congrArg Option.isSome (contents_takeProperties h name)
    rwa [Option.isSome_map, Option.isSome_map] at hcontents
  unfold Known
  simp only [hsome]

/-- A last file that is valid gives its contents, one that is not is rejected. -/
theorem parseArgs_layouts {files : ContentFiles} {args : Args} {t t₁ : Target}
    {layouts : List (Option (List LayoutEntry))} {last : Option (List LayoutEntry)}
    (hcontents : args.flashContents = [])
    (hlayouts : args.multiFlashContent.mapM files.layout = .ok layouts)
    (hlast : layouts.getLast? = some last) (hproperties : Returns (takeProperties args) t () t₁) :
    (t.ValidLayout last → ∃ t', Returns (parseArgs files args) t () t' ∧ ∀ name,
      (t'.flashes.get name).map Flash.contentDict = (t.flashes.get name).map fun f =>
        (lastContent name (last.getD [])).or f.contentDict) ∧
      (¬ t.ValidLayout last → ∀ t', ¬ Returns (parseArgs files args) t () t') := by
  have hiff : ∀ t', Returns (parseArgs files args) t () t' ↔
      ∃ entries, last = some entries ∧ Returns (forEach setLayoutContent entries) t₁ () t' :=
    fun _ => returns_parseArgs_iff hcontents hlayouts hlast hproperties
  refine ⟨?_, ?_⟩
  · rintro ⟨entries, rfl, hknown⟩
    obtain ⟨t', hset⟩ := returns_setAll fun entry hentry =>
      (known_takeProperties hproperties entry).mpr (hknown entry hentry)
    refine ⟨t', (hiff t').mpr ⟨entries, rfl, hset⟩, fun name => ?_⟩
    have hproperty := congrArg (Option.map fun c => (lastContent name entries).or c)
      (contents_takeProperties hproperties name)
    rw [Option.map_map, Option.map_map] at hproperty
    rw [(setAll_inv hset).2 name, Option.map_map]
    exact hproperty
  · intro hinvalid t' h
    obtain ⟨entries, rfl, hset⟩ := (hiff t').mp h
    exact hinvalid ⟨entries, rfl, fun entry hentry =>
      (known_takeProperties hproperties entry).mp ((setAll_inv hset).1 entry hentry)⟩

/-- For every target and every non-empty list of files that can be read: all the
files count exactly when nothing but the last one matters. -/
theorem appliesLayouts_iff {files : ContentFiles} {args : Args} {t t₁ : Target}
    {layouts : List (Option (List LayoutEntry))} {last : Option (List LayoutEntry)}
    (hcontents : args.flashContents = [])
    (hlayouts : args.multiFlashContent.mapM files.layout = .ok layouts)
    (hlast : layouts.getLast? = some last) (hproperties : Returns (takeProperties args) t () t₁) :
    AppliesLayouts files args t layouts ↔ LastFileDecides t layouts last := by
  obtain ⟨hvalid, hinvalid⟩ := parseArgs_layouts hcontents hlayouts hlast hproperties
  have hmem : last ∈ layouts := List.mem_of_getLast? hlast
  obtain ⟨init, rfl⟩ := List.getLast?_eq_some_iff.mp hlast
  have hall : ∀ name, lastContent name (allEntries (init ++ [last])) =
      (lastContent name (last.getD [])).or (lastContent name (allEntries init)) := by
    intro name
    unfold allEntries
    rw [List.flatMap_append, List.flatMap_singleton, lastContent_append]
  constructor
  · intro happlies
    refine ⟨fun hsome hlastValid => ?_, fun hevery name f c hf hnot hc => ?_⟩
    · obtain ⟨t', h, -⟩ := hvalid hlastValid
      exact happlies.rejected hsome t' h
    · obtain ⟨t', h, hactual⟩ := hvalid (hevery last hmem)
      obtain ⟨t'', h', hwanted⟩ := happlies.accepted hevery
      obtain ⟨-, rfl⟩ := h.unique h'
      have hequal := (hactual name).symm.trans (hwanted name)
      rw [hf, hnot, hc] at hequal
      exact Option.some.inj hequal
  · intro hdecides
    refine ⟨fun hevery => ?_, fun hsome => hinvalid (hdecides.rejects hsome)⟩
    obtain ⟨t', h, hactual⟩ := hvalid (hevery last hmem)
    refine ⟨t', h, fun name => ?_⟩
    rw [hactual name]
    cases hf : t.flashes.get name with
    | none => rfl
    | some f =>
      rw [Option.map_some, Option.map_some, hall name]
      cases hnot : lastContent name (last.getD []) with
      | some c => rfl
      | none =>
        rw [Option.none_or, Option.none_or]
        cases hc : lastContent name (allEntries init) with
        | none => rfl
        | some c =>
          have hkept := hdecides.keeps hevery name f c hf hnot (by rw [hall, hnot, hc]; rfl)
          rw [hkept]
          rfl

/-- One file alone always counts. -/
theorem lastFileDecides_singleton (t : Target) (layout : Option (List LayoutEntry)) :
    LastFileDecides t [layout] layout := by
  refine ⟨?_, fun _ name f c _ hnot hc => ?_⟩
  · rintro ⟨l, hl, hinvalid⟩
    rwa [List.mem_singleton.mp hl] at hinvalid
  · unfold allEntries at hc
    rw [List.flatMap_singleton, hnot] at hc
    cases hc

/-! ## Two flashes in two files -/

/-- Two flashes, each with an empty content. -/
def layoutTarget : Target where
  parser := ⟨[], []⟩
  flashes := (Dict.empty.set "rom" (Flash.ofContent 0x20 Dict.empty [])).set "mram"
    (Flash.ofContent 0x20 Dict.empty [])

/-- A content with one raw section. -/
def oneSection (name : String) : FlashContent := ⟨some [rawEntry name 4]⟩

/-- The files `rom`, `mram` and `both`. -/
def layoutFiles : ContentFiles where
  content path := .error (.osError path)
  layout path :=
    if path = "both" then .ok (some [(some "rom", oneSection "a"), (some "mram", oneSection "b")])
    else .ok (some [(some path, oneSection "a")])

/-- A file with both flashes in it behind a file with one of them. -/
theorem appliesLayouts_iff_both : AppliesLayouts layoutFiles ⟨[], [], ["rom", "both"]⟩ layoutTarget
    [some [(some "rom", oneSection "a")],
      some [(some "rom", oneSection "a"), (some "mram", oneSection "b")]] := by
  have hfirst : layoutTarget.Known (some "rom", oneSection "a") := ⟨"rom", rfl, rfl⟩
  have hsecond : layoutTarget.Known (some "mram", oneSection "b") := ⟨"mram", rfl, rfl⟩
  have hproperties :
      Returns (takeProperties ⟨[], [], ["rom", "both"]⟩) layoutTarget () layoutTarget :=
    rfl
  refine (appliesLayouts_iff rfl rfl rfl hproperties).mpr ⟨?_, ?_⟩
  · rintro ⟨layout, hlayout, hinvalid⟩
    refine absurd ?_ hinvalid
    rcases List.mem_pair.mp hlayout with rfl | rfl
    · exact ⟨_, rfl, by simpa using hfirst⟩
    · exact ⟨_, rfl, by simpa using ⟨hfirst, hsecond⟩⟩
  · intro _ name f c _ hnot hc
    have hrom : name ≠ "rom" := by
      rintro rfl
      cases hnot
    have hmram : name ≠ "mram" := by
      rintro rfl
      cases hnot
    have hnone : lastContent name (allEntries [some [(some "rom", oneSection "a")],
        some [(some "rom", oneSection "a"), (some "mram", oneSection "b")]]) = none := by
      simp [lastContent, allEntries, Ne.symm hrom, Ne.symm hmram]
    rw [hnone] at hc
    cases hc

/-- Of two files with a flash each, the first is lost. -/
theorem not_appliesLayouts : ¬ ∀ (files : ContentFiles) (args : Args) (t t₁ : Target)
    (layouts : List (Option (List LayoutEntry))), args.flashContents = [] →
    args.multiFlashContent ≠ [] → args.multiFlashContent.mapM files.layout = .ok layouts →
    Returns (takeProperties args) t () t₁ → AppliesLayouts files args t layouts := by
  intro h
  have happlies := h layoutFiles ⟨[], [], ["rom", "mram"]⟩ layoutTarget layoutTarget
    [some [(some "rom", oneSection "a")], some [(some "mram", oneSection "a")]] rfl (by decide) rfl
    rfl
  have hvalid : ∀ name, (layoutTarget.flashes.get name).isSome →
      layoutTarget.ValidLayout (some [(some name, oneSection "a")]) := fun name hname =>
    ⟨_, rfl, fun entry hentry => by rw [List.mem_singleton.mp hentry]; exact ⟨name, rfl, hname⟩⟩
  obtain ⟨t', hreturns, hcontents⟩ := happlies.accepted fun layout hlayout => by
    rcases List.mem_pair.mp hlayout with rfl | rfl
    · exact hvalid "rom" rfl
    · exact hvalid "mram" rfl
  have hrun :
      returned? (parseArgs layoutFiles ⟨[], [], ["rom", "mram"]⟩) layoutTarget = some () := by
    decide +kernel
  obtain ⟨-, rfl⟩ := (returns_of_returned? hrun).unique hreturns
  have hrom := congrArg (Option.map fun content => content.bind fun c =>
    c.sections.map fun entries => entries.length) (hcontents "rom")
  revert hrom
  decide +kernel

end Target

end SoftHier.Gapy
