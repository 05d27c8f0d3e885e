import Milo.Shell.ConfigTable

/-! # Booting an image of the configuration

`boot_config` runs the commands of an entry, merges the options and cuts the
image string at its colon, all on the strings of the buffer. When the boot fails
it returns to the `boot:` prompt.
-/

namespace Milo.Shell

open Foundation

def space : UInt8 := 0x20

/-- `"root="` -/
def rootArgument : List UInt8 := [0x72, 0x6f, 0x6f, 0x74, 0x3d]

/-- `"halt"` -/
def haltWord : List UInt8 := [0x68, 0x61, 0x6c, 0x74]

/-! ## The option string -/

/-- The string in `full_options`. -/
def fullOptions (root append optionstr : Option (List UInt8)) : List UInt8 :=
  (root.elim [] fun root => rootArgument ++ (root ++ [space])) ++
    ((append.elim [] fun append => append ++ [space]) ++ optionstr.getD [])

/-- The sum of the lengths is zero. -/
def noOptions (root append optionstr : Option (List UInt8)) : Bool :=
  root.isNone && (append.getD []).isEmpty && (optionstr.getD []).isEmpty

/-- An option replaces the first one that `strncmp` finds to start with its name. -/
def mergeOption (options : List (List UInt8)) (name option : List UInt8) : List (List UInt8) :=
  match options.findIdx? fun other => name.isPrefixOf other with
  | some i => options.set i option
  | none => options ++ [option]

/-- The scan from `start` on; there are NULs behind the bytes that are given. -/
def mergeOptions (options : List (List UInt8)) (start : List UInt8) : List (List UInt8) :=
  if start.head?.getD 0 = 0 then options
  else
    let word := start.dropWhile isBlank
    if word.head?.getD 0 = 0 then options
    else
      let name := word.takeWhile fun c => c != 0 && c != equalsSign && c != space
      let option := word.takeWhile fun c => c != 0 && c != space
      mergeOptions (mergeOption options name option) (word.drop (option.length + 1))
termination_by start.length
decreasing_by
  have hword : (start.dropWhile isBlank).length ≤ start.length :=
    (List.dropWhile_sublist isBlank).length_le
  have hpos : 0 < start.length := by
    cases start with
    | nil => contradiction
    | cons c start => exact Nat.succ_pos _
  rw [List.length_drop]
  omega

/-- The option string for `boot_cmd`. The scan steps over the character behind
each option. Behind the last one that can be the NUL, and the scan goes on in
`stale`, what the block holds behind the string. -/
def bootOptions (root append optionstr : Option (List UInt8)) (stale : List UInt8) :
    Option (List UInt8) :=
  if noOptions root append optionstr then none
  else some ((mergeOptions [] (fullOptions root append optionstr ++ 0 :: stale)).flatMap
    (· ++ [space]))

/-! ## A boot attempt -/

/-- The commands of an entry, and the buffer after them. -/
def runCommands (buf : List UInt8) : List Nat → List (List (List UInt8)) × List UInt8
  | [] => ([], buf)
  | command :: rest =>
      let (later, after) := runCommands (parseCommandAt buf command) rest
      (commandsRun (stringIn buf command) ++ later, after)

/-- What an attempt runs, and what it gives to `boot_cmd`. -/
structure Attempt where
  commands : List (List (List UInt8))
  device : List UInt8
  file : List UInt8
  options : Option (List UInt8)
  deriving DecidableEq

/-- `boot_config`, and the buffer after it. Every entry of a table has an image;
its device or else `devname` is `defdev`. -/
def bootConfig (buf : List UInt8) (image : Image Nat) (devname : List UInt8)
    (optionstr : Option (List UInt8)) (stale : List UInt8) : Attempt × List UInt8 :=
  let (ran, buf) := runCommands buf image.cmdlist
  let options := bootOptions (image.root.map (stringIn buf)) (image.append.map (stringIn buf))
    optionstr stale
  let start := image.image.getD 0
  let chptr := (stringIn buf start).findIdx (· == colon)
  if chptr < (stringIn buf start).length then
    let buf := buf.set (start + chptr) 0
    (⟨ran, stringIn buf start, stringIn buf (start + chptr + 1), options⟩, buf)
  else
    (⟨ran, (image.device.map (stringIn buf)).getD devname, stringIn buf start, options⟩, buf)

/-! ## The prompt -/

/-- The word of a line and what is behind it. -/
def splitLine (line : List UInt8) : Option (List UInt8 × List UInt8) :=
  let start := line.dropWhile (· == space)
  if start = [] then none
  else some (start.takeWhile (· != space), (start.dropWhile (· != space)).dropWhile (· == space))

/-- The label of an entry is this word. -/
def Image.isNamed (buf : List UInt8) (word : List UInt8) (i : Image Nat) : Bool :=
  i.label.map (stringIn buf) == some word

/-- The labels that the word is compared with. -/
def comparedLabels (buf word : List UInt8) : List (Image Nat) → List (Option Nat)
  | [] => []
  | image :: rest =>
      image.label :: if image.isNamed buf word then [] else comparedLabels buf word rest

/-- One pass of the loop at the prompt. -/
structure Round where
  compared : List (Option Nat)
  attempt : Option Attempt
  halted : Bool
  buf : List UInt8
  deriving DecidableEq

def promptRound (images : List (Image Nat)) (devname buf line stale : List UInt8) : Round :=
  match splitLine line with
  | none => ⟨[], none, false, buf⟩
  | some (word, args) =>
      if word = haltWord then ⟨[], none, true, buf⟩
      else
        match images.find? (Image.isNamed buf word) with
        | none => ⟨comparedLabels buf word images, none, false, buf⟩
        | some image =>
            let (attempt, after) := bootConfig buf image devname (some args) stale
            ⟨comparedLabels buf word images, some attempt, false, after⟩

/-- `fed`; `interrupted` says that a key other than ESC was hit. -/
def fedLabel (s : ConfigRun) (interrupted : Bool) : Option Nat :=
  if s.timeout > 0 then (if interrupted then none else s.images.head?.bind Image.label)
  else if s.timeout = 0 then s.images.head?.bind Image.label
  else none

/-- The label at `p` is split like a line that was typed. -/
def cutFed (buf : List UInt8) (p : Nat) : List UInt8 :=
  let line := stringIn buf p
  let stop := (line.takeWhile (· == space)).length +
    ((line.dropWhile (· == space)).takeWhile (· != space)).length
  if stop < line.length then buf.set (p + stop) 0 else buf

end Milo.Shell
