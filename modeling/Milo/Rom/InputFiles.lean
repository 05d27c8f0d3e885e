import Milo.Rom.CommandLine

/-! # The input files of a ROM

The arguments for a file are those in front of its name. What the program makes
of a command line is compared with what the options of each file say on their
own.
-/

namespace Milo.Rom

section
variable (disk : FileContents)

/-! ## What the options say -/

/-- An option with what stands behind its letter. -/
inductive Setting
  | compress
  | output (arg : List UInt8)
  | load (arg : List UInt8)
  | firmwareId (arg : List UInt8)
  | hexId (arg : List UInt8)
  | stringId (arg : List UInt8)
  | fileId (name : List UInt8)

/-- The options in the characters behind a `-`, unless one of them asks for help
or is unknown. -/
def settings : List UInt8 → Option (List Setting)
  | [] => some []
  | option :: arg =>
      match optionLetter option with
      | .verbose => settings arg
      | .compress => (settings arg).map (.compress :: ·)
      | .output => some [.output arg]
      | .load => some [.load arg]
      | .firmwareId => some [.firmwareId arg]
      | .hexId => some [.hexId arg]
      | .stringId => some [.stringId arg]
      | .fileId => some [.fileId arg]
      | .help | .unknown => none

def Setting.apply : Setting → MakeromInfo → MakeromInfo
  | .compress, info => { info with compress := true }
  | .output arg, info => { info with outputfile := true, load := (scanWord arg).map readQuad }
  | .load arg, info => { info with load := (scanWord arg).map readQuad }
  | .firmwareId arg, info => setFirmwareId arg info
  | .hexId arg, info => { info with fwidOptional := (scanWord arg).map readQuad }
  | .stringId arg, info => { info with fwidOptional := some (packQuad arg) }
  | .fileId name, info => { info with fwidOptional := (disk name).bind optionalFromFile }

def applyAll (options : List Setting) (info : MakeromInfo) : MakeromInfo :=
  options.foldl (fun info option => option.apply disk info) info

def Setting.isOutput : Setting → Bool
  | .output _ => true
  | _ => false

/-- A file that is named by the option is there. -/
def Setting.Readable : Setting → Prop
  | .fileId name => (disk name).isSome = true
  | _ => True

/-- The characters are options that can be followed, with or without `-o`. -/
structure OptionText (text : List UInt8) (marks : Bool) : Prop where
  legible : ∃ options, settings text = some options ∧ options.any Setting.isOutput = marks ∧
    ∀ option ∈ options, option.Readable disk

def textSettings (text : List UInt8) : List Setting := (settings text).getD []

/-- The arguments for a file: options, and its name. -/
structure FileArgs where
  options : List (List UInt8)
  name : List UInt8
  isName : name.head? ≠ some dash

def FileArgs.args (g : FileArgs) : List (List UInt8) := g.options.map (dash :: ·) ++ [g.name]

/-- What the options for a file say about it. -/
def FileArgs.info (g : FileArgs) : MakeromInfo :=
  { applyAll disk (g.options.flatMap textSettings) allocateFileinfo with file := some g.name }

/-- The image of an input file with the options that were given for it. -/
def FileArgs.romFile (g : FileArgs) : Option RomFile :=
  (disk g.name).bind fun contents =>
    (processFile [] ⟨contents, (g.info disk).compress⟩).map fun (image, _) =>
      (g.info disk).romFile image

/-- A command line with one output file among the others. -/
structure CommandLine (creatable : List UInt8 → Bool) where
  before : List FileArgs
  output : FileArgs
  after : List FileArgs
  /-- Options behind the last file name. -/
  trailing : List (List UInt8)
  inputs : ∀ g ∈ before ++ after, ∀ text ∈ g.options, OptionText disk text false
  trailingText : ∀ text ∈ trailing, OptionText disk text false
  marked : ∃ front text back, output.options = front ++ text :: back ∧
    OptionText disk text true ∧ ∀ other ∈ front ++ back, OptionText disk other false
  readable : ∀ g ∈ before ++ after, (disk g.name).isSome = true
  creatable : creatable output.name = true
  apart : ∀ g ∈ before ++ after, g.name ≠ output.name

variable {disk}

def CommandLine.args {creatable : List UInt8 → Bool} (cl : CommandLine disk creatable) :
    List (List UInt8) :=
  (cl.before ++ cl.output :: cl.after).flatMap FileArgs.args ++ cl.trailing.map (dash :: ·)

/-- The input files are in the output file, each of them once, in order and with
its options, and nothing else is. -/
structure WritesInputs {creatable : List UInt8 → Bool} (cl : CommandLine disk creatable)
    (outcome : Outcome) : Prop where
  written : outcome.written.map some = (cl.before ++ cl.after).map (FileArgs.romFile disk)
  output : ∀ name, outcome.output = some name → name = cl.output.name

/-! ## Parsing -/

theorem applyAll_append (front back : List Setting) (info : MakeromInfo) :
    applyAll disk (front ++ back) info = applyAll disk back (applyAll disk front info) :=
  List.foldl_append

theorem setFirmwareId_outputfile (arg : List UInt8) (now : MakeromInfo) :
    (setFirmwareId arg now).outputfile = now.outputfile := by
  unfold setFirmwareId
  split
  · rfl
  · rfl

theorem applyAll_outputfile (options : List Setting) (info : MakeromInfo) :
    (applyAll disk options info).outputfile =
      (info.outputfile || options.any Setting.isOutput) := by
  induction options generalizing info with
  | nil => exact (Bool.or_false _).symm
  | cons option rest ih =>
      have hstep : (option.apply disk info).outputfile =
          (info.outputfile || option.isOutput) := by
        cases option with
        | firmwareId arg =>
            exact (setFirmwareId_outputfile arg info).trans (Bool.or_false _).symm
        | output arg => exact (Bool.or_true _).symm
        | _ => exact (Bool.or_false _).symm
      rw [applyAll, List.foldl_cons, ← applyAll, ih, hstep, List.any_cons, Bool.or_assoc]

/-- The loop over the characters does what the options say, unless a second
output file is marked. -/
theorem readOptions_eq {text : List UInt8} {options : List Setting}
    (h : settings text = some options) (hreadable : ∀ option ∈ options, option.Readable disk)
    {s : Parse} (honce : s.output = false ∨ options.any Setting.isOutput = false) :
    readOptions disk text s =
      .ok ⟨s.files, applyAll disk options s.now,
        s.output || options.any Setting.isOutput⟩ := by
  induction text generalizing options s with
  | nil =>
      cases h
      rw [readOptions, List.any_nil, Bool.or_false]
      rfl
  | cons option arg ih =>
      unfold settings at h
      unfold readOptions
      cases hletter : optionLetter option with
      | help | unknown =>
          rw [hletter] at h
          cases h
      | verbose =>
          rw [hletter] at h
          exact ih h hreadable honce
      | compress =>
          rw [hletter] at h
          obtain ⟨rest, hrest, rfl⟩ := Option.map_eq_some_iff.mp h
          exact ih hrest (fun option hoption => hreadable option (List.mem_cons_of_mem _ hoption))
            honce
      | output =>
          rw [hletter] at h
          cases h
          obtain hunseen | hplain := honce
          · simp only [hunseen]
            rfl
          · cases hplain
      | load | firmwareId | hexId | stringId =>
          rw [hletter] at h
          cases h
          exact congrArg Except.ok (congrArg (Parse.mk _ _) (Bool.or_false _).symm)
      | fileId =>
          rw [hletter] at h
          cases h
          obtain ⟨contents, hcontents⟩ :=
            Option.isSome_iff_exists.mp (hreadable (.fileId arg) List.mem_cons_self)
          simp [hcontents, applyAll, Setting.apply, Setting.isOutput]

theorem readArgs_text {text : List UInt8} {marks : Bool} (h : OptionText disk text marks)
    (rest : List (List UInt8)) {s : Parse} (honce : s.output = false ∨ marks = false) :
    readArgs disk ((dash :: text) :: rest) s =
      readArgs disk rest
        ⟨s.files, applyAll disk (textSettings text) s.now, s.output || marks⟩ := by
  obtain ⟨options, hsettings, rfl, hreadable⟩ := h.legible
  have hread := readOptions_eq hsettings hreadable honce
  rw [readArgs]
  simp only [if_true, hread, textSettings, hsettings, Option.getD_some]
  rfl

theorem readArgs_texts {texts : List (List UInt8)}
    (h : ∀ text ∈ texts, OptionText disk text false) (rest : List (List UInt8)) (s : Parse) :
    readArgs disk (texts.map (dash :: ·) ++ rest) s =
      readArgs disk rest
        { s with now := applyAll disk (texts.flatMap textSettings) s.now } := by
  induction texts generalizing s with
  | nil => rfl
  | cons text texts ih =>
      rw [List.map_cons, List.cons_append, readArgs_text (h text List.mem_cons_self) _ (.inr rfl),
        ih fun text htext => h text (List.mem_cons_of_mem _ htext)]
      rw [Bool.or_false, List.flatMap_cons, applyAll_append]

theorem readArgs_name {name : List UInt8} (h : name.head? ≠ some dash)
    (rest : List (List UInt8)) (s : Parse) :
    readArgs disk (name :: rest) s = readArgs disk rest (s.addFile name) := by
  cases name with
  | nil => rfl
  | cons c name =>
      have hc : c ≠ dash := fun hc => h (congrArg some hc)
      rw [readArgs]
      simp only [if_neg hc]

/-- The description of an input file is the one its own options give. -/
theorem readArgs_group {g : FileArgs} (h : ∀ text ∈ g.options, OptionText disk text false)
    (rest : List (List UInt8)) (files : List MakeromInfo) (output : Bool) :
    readArgs disk (g.args ++ rest) ⟨files, allocateFileinfo, output⟩ =
      readArgs disk rest ⟨files ++ [g.info disk], allocateFileinfo, output⟩ := by
  rw [FileArgs.args, List.append_assoc, readArgs_texts h, List.singleton_append,
    readArgs_name g.isName]
  rfl

theorem readArgs_groups {groups : List FileArgs}
    (h : ∀ g ∈ groups, ∀ text ∈ g.options, OptionText disk text false)
    (rest : List (List UInt8)) (files : List MakeromInfo) (output : Bool) :
    readArgs disk (groups.flatMap FileArgs.args ++ rest) ⟨files, allocateFileinfo, output⟩ =
      readArgs disk rest ⟨files ++ groups.map (FileArgs.info disk), allocateFileinfo, output⟩ := by
  induction groups generalizing files with
  | nil => rw [List.map_nil, List.append_nil, List.flatMap_nil, List.nil_append]
  | cons g groups ih =>
      rw [List.flatMap_cons, List.append_assoc, readArgs_group (h g List.mem_cons_self),
        ih fun g hg => h g (List.mem_cons_of_mem _ hg), List.map_cons, List.append_assoc,
        List.singleton_append]

section
variable {creatable : List UInt8 → Bool} (cl : CommandLine disk creatable)

theorem CommandLine.readArgs_output (rest : List (List UInt8)) (files : List MakeromInfo) :
    readArgs disk (cl.output.args ++ rest) ⟨files, allocateFileinfo, false⟩ =
      readArgs disk rest ⟨files ++ [cl.output.info disk], allocateFileinfo, true⟩ := by
  obtain ⟨front, text, back, hoptions, hmarks, hplain⟩ := cl.marked
  have hfront := fun other hother => hplain other (List.mem_append_left back hother)
  have hback := fun other hother => hplain other (List.mem_append_right front hother)
  rw [FileArgs.args, FileArgs.info, hoptions, List.map_append, List.map_cons, List.append_assoc,
    List.append_assoc, List.cons_append, readArgs_texts hfront, readArgs_text hmarks _ (.inl rfl),
    readArgs_texts hback, List.singleton_append, readArgs_name cl.output.isName,
    List.flatMap_append, List.flatMap_cons, applyAll_append, applyAll_append]
  rfl

/-- The list that the program makes of the command line. -/
def CommandLine.infos : List MakeromInfo :=
  cl.before.map (FileArgs.info disk) ++ cl.output.info disk :: cl.after.map (FileArgs.info disk)

theorem CommandLine.readArgs_eq :
    ∃ now, readArgs disk cl.args .init = .ok ⟨cl.infos, now, true⟩ := by
  have hbefore := fun g hg => cl.inputs g (List.mem_append_left cl.after hg)
  have hafter := fun g hg => cl.inputs g (List.mem_append_right cl.before hg)
  refine ⟨applyAll disk (cl.trailing.flatMap textSettings) allocateFileinfo, ?_⟩
  rw [CommandLine.args, List.flatMap_append, List.flatMap_cons, List.append_assoc,
    List.append_assoc, Parse.init, readArgs_groups hbefore, cl.readArgs_output,
    readArgs_groups hafter, ← List.append_nil (List.map (dash :: ·) cl.trailing),
    readArgs_texts cl.trailingText]
  simp [readArgs, CommandLine.infos]

/-! ## The files that are written -/

theorem OptionText.any_isOutput {text : List UInt8} {marks : Bool}
    (h : OptionText disk text marks) : (textSettings text).any Setting.isOutput = marks := by
  obtain ⟨options, hsettings, hmarks, -⟩ := h.legible
  rw [textSettings, hsettings, Option.getD_some, hmarks]

theorem any_isOutput_plain {texts : List (List UInt8)}
    (h : ∀ text ∈ texts, OptionText disk text false) :
    (texts.flatMap textSettings).any Setting.isOutput = false := by
  rw [List.any_flatMap, List.any_eq_false]
  intro text htext
  rw [(h text htext).any_isOutput]
  decide

theorem CommandLine.info_input {g : FileArgs} (hg : g ∈ cl.before ++ cl.after) :
    (g.info disk).outputfile = false :=
  (applyAll_outputfile _ _).trans (any_isOutput_plain (cl.inputs g hg))

theorem CommandLine.info_output : (cl.output.info disk).outputfile = true := by
  obtain ⟨front, text, back, hoptions, hmarks, -⟩ := cl.marked
  refine (applyAll_outputfile _ _).trans ?_
  rw [hoptions, List.any_flatMap, List.any_append, List.any_cons, hmarks.any_isOutput,
    Bool.true_or, Bool.or_true, Bool.or_true]

theorem findOutput_eq {front back : List MakeromInfo} {output first : MakeromInfo}
    {rest : List MakeromInfo} (h : first :: rest = front ++ output :: back)
    (hfront : ∀ info ∈ front, info.outputfile = false) (houtput : output.outputfile = true) :
    findOutput first rest = output := by
  induction front generalizing first rest with
  | nil =>
      obtain ⟨rfl, rfl⟩ := List.cons.inj h
      cases rest with
      | nil => rfl
      | cons next rest => rw [findOutput, if_pos houtput]
  | cons info front ih =>
      obtain ⟨hfirst, hrest⟩ := List.cons.inj h
      have hnot := hfront info List.mem_cons_self
      cases rest with
      | nil => exact absurd hrest.symm (by simp)
      | cons next rest =>
          rw [findOutput, hfirst, hnot, if_neg (by decide)]
          exact ih hrest fun info hinfo => hfront info (List.mem_cons_of_mem _ hinfo)

/-- What is written for a file in the list. -/
def MakeromInfo.written (disk : FileContents) (now : MakeromInfo) : Option RomFile :=
  (now.file.bind disk).bind fun contents =>
    (processFile [] ⟨contents, now.compress⟩).map fun (image, _) => now.romFile image

/-- The loop over the list writes all inputs in it but the last file. -/
theorem processList_eq {list : List MakeromInfo}
    (h : ∀ now ∈ list, now.outputfile = false → (now.file.bind disk).isSome = true) :
    (processList disk [] list).1.map some =
      (list.dropLast.filter fun now => !now.outputfile).map (MakeromInfo.written disk) := by
  induction list with
  | nil => rfl
  | cons now list ih =>
      cases list with
      | nil => rfl
      | cons next rest =>
          have hrest := ih fun now hnow => h now (List.mem_cons_of_mem _ hnow)
          rw [List.dropLast_cons_cons]
          unfold processList
          cases houtput : now.outputfile with
          | true =>
              rw [if_pos rfl, List.filter_cons_of_neg (by simp [houtput])]
              exact hrest
          | false =>
              obtain ⟨contents, hcontents⟩ :=
                Option.isSome_iff_exists.mp (h now List.mem_cons_self houtput)
              obtain ⟨image, himage, -⟩ := processFile_truthful_iff ⟨contents, now.compress⟩
              have hwritten : now.written disk = some (now.romFile image) := by
                rw [MakeromInfo.written, hcontents, Option.bind_some, himage, Option.map_some]
              rw [if_neg (by decide), List.filter_cons_of_pos (by simp [houtput]), List.map_cons,
                hwritten, ← hrest]
              simp only [hcontents, himage, List.map_cons]

theorem CommandLine.mem_infos {now : MakeromInfo} (h : now ∈ cl.infos) :
    now = cl.output.info disk ∨ ∃ g ∈ cl.before ++ cl.after, g.info disk = now := by
  unfold CommandLine.infos at h
  rw [List.mem_append, List.mem_cons, List.mem_map, List.mem_map] at h
  obtain ⟨g, hg, hnow⟩ | hnow | ⟨g, hg, hnow⟩ := h
  · exact .inr ⟨g, List.mem_append_left _ hg, hnow⟩
  · exact .inl hnow
  · exact .inr ⟨g, List.mem_append_right _ hg, hnow⟩

/-- With two files or more, the program opens the output file and goes through
the list. -/
theorem CommandLine.writeRom_eq {first second : MakeromInfo} {rest : List MakeromInfo}
    (h : cl.infos = first :: second :: rest) : writeRom disk creatable cl.infos =
      ⟨(processList disk [] cl.infos).2, some cl.output.name,
        (processList disk [] cl.infos).1⟩ := by
  have hfind : findOutput first (second :: rest) = cl.output.info disk := by
    refine findOutput_eq (h.symm.trans rfl) (fun info hinfo => ?_) cl.info_output
    obtain ⟨g, hg, rfl⟩ := List.mem_map.mp hinfo
    exact cl.info_input (List.mem_append_left _ hg)
  have hcreatable : ¬ creatable ((cl.output.info disk).file.getD []) = false := by
    rw [show (cl.output.info disk).file.getD [] = cl.output.name from rfl, cl.creatable]
    decide
  rw [h, writeRom, hfind]
  simp only
  rw [if_neg (by rw [cl.info_output]; decide), if_neg hcreatable]
  rfl

theorem CommandLine.makerom_eq :
    makerom disk creatable cl.args = writeRom disk creatable cl.infos := by
  obtain ⟨now, hread⟩ := cl.readArgs_eq
  unfold makerom
  rw [if_neg, hread]
  intro hempty
  rw [hempty, readArgs, Except.ok.injEq] at hread
  have hnone : [] = cl.infos := congrArg Parse.files hread
  exact absurd hnone (by simp [CommandLine.infos])

theorem CommandLine.written_eq :
    (makerom disk creatable cl.args).written.map some =
      (cl.infos.dropLast.filter fun now => !now.outputfile).map (MakeromInfo.written disk) := by
  rw [cl.makerom_eq]
  match h : cl.infos with
  | [] => rfl
  | [_] => rfl
  | first :: second :: rest =>
      rw [← h, cl.writeRom_eq h]
      refine processList_eq fun now hnow hinput => ?_
      obtain rfl | ⟨g, hg, rfl⟩ := cl.mem_infos hnow
      · rw [cl.info_output] at hinput
        cases hinput
      · exact cl.readable g hg

theorem CommandLine.output_eq {name : List UInt8}
    (h : (makerom disk creatable cl.args).output = some name) : name = cl.output.name := by
  rw [cl.makerom_eq] at h
  match hinfos : cl.infos with
  | [] =>
      rw [hinfos] at h
      cases h
  | [_] =>
      rw [hinfos] at h
      cases h
  | first :: second :: rest =>
      rw [cl.writeRom_eq hinfos] at h
      exact (Option.some.inj h).symm

theorem CommandLine.filter_infos {groups : List FileArgs} (h : groups ⊆ cl.before ++ cl.after) :
    (groups.map (FileArgs.info disk)).filter (fun now => !now.outputfile) =
      groups.map (FileArgs.info disk) := by
  rw [List.filter_eq_self]
  intro now hnow
  obtain ⟨g, hg, rfl⟩ := List.mem_map.mp hnow
  rw [cl.info_input (h hg)]
  rfl

/-- All input files are written if and only if the output file is named last. -/
theorem makerom_writesInputs_iff :
    WritesInputs cl (makerom disk creatable cl.args) ↔ cl.after = [] := by
  have hbefore := cl.filter_infos (List.subset_append_left cl.before cl.after)
  obtain hnone | ⟨front, last, hafter⟩ := List.eq_nil_or_concat cl.after
  · refine ⟨fun _ => hnone, fun _ => ⟨?_, fun name h => cl.output_eq h⟩⟩
    rw [cl.written_eq, CommandLine.infos, hnone, List.map_nil, List.dropLast_concat, hbefore,
      List.map_map, List.append_nil]
    rfl
  · rw [List.concat_eq_append] at hafter
    have hfront : front ⊆ cl.before ++ cl.after := fun g hg => by simp [hafter, hg]
    refine ⟨fun h => ?_, fun h => absurd (hafter.symm.trans h) (by simp)⟩
    -- one file less is written than there are input files
    have hcount := congrArg List.length h.written
    have hdrop : cl.infos.dropLast = cl.before.map (FileArgs.info disk) ++
        cl.output.info disk :: front.map (FileArgs.info disk) := by
      rw [CommandLine.infos, hafter, List.map_append, List.map_singleton, ← List.cons_append,
        ← List.append_assoc, List.dropLast_concat]
    rw [cl.written_eq, hdrop, List.filter_append, hbefore,
      List.filter_cons_of_neg (by rw [cl.info_output]; decide), cl.filter_infos hfront,
      hafter] at hcount
    simp only [List.length_map, List.length_append, List.length_singleton] at hcount
    omega

end

end

/-! ## An output file in front -/

/-- `makerom -o r a`, where every file holds one longword. -/
def outputFirst : CommandLine (fun _ => some [1, 2, 3, 4]) fun _ => true where
  before := []
  output := ⟨[chars "o"], chars "r", by decide⟩
  after := [⟨[], chars "a", by decide⟩]
  trailing := []
  inputs := by simp
  trailingText := by simp
  marked := ⟨[], chars "o", [], rfl, ⟨[.output []], rfl, rfl, by simp [Setting.Readable]⟩, by simp⟩
  readable := by simp
  creatable := rfl
  apart := by decide

/-- The input file is not written. -/
theorem input_behind_output :
    outputFirst.args = [chars "-o", chars "r", chars "a"] ∧
      ¬ WritesInputs outputFirst
        (makerom (fun _ => some [1, 2, 3, 4]) (fun _ => true) outputFirst.args) := by
  refine ⟨by decide, fun h => ?_⟩
  have hcount := congrArg List.length h.written
  exact absurd hcount (by decide)

end Milo.Rom
