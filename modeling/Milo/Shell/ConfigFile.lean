import Milo.Boot.Atoi
import Milo.Shell.CommandResidue
import Milo.Shell.ConfigLine

/-! # The configuration file

`boot_via_config` reads the file line by line. The lines are cut in the buffer
they were loaded into, and the table of images holds pointers into it.
-/

namespace Milo.Shell

open Foundation Milo.Boot

/-! ## The table -/

/-- `struct config_image`; the strings are pointers into the buffer, or what is
read there. -/
structure Image (α : Type) where
  image : Option α
  device : Option α
  root : Option α
  label : Option α
  append : Option α
  cmdlist : List α
  deriving DecidableEq

/-- An entry as `memset` leaves it. -/
def Image.blank {α : Type} : Image α := ⟨none, none, none, none, none, []⟩

def Image.map {α β : Type} (f : α → β) (i : Image α) : Image β :=
  ⟨i.image.map f, i.device.map f, i.root.map f, i.label.map f, i.append.map f, i.cmdlist.map f⟩

/-- `"timeout"` -/
def timeoutOption : List UInt8 := [0x74, 0x69, 0x6d, 0x65, 0x6f, 0x75, 0x74]

/-- `"image"` -/
def imageOption : List UInt8 := [0x69, 0x6d, 0x61, 0x67, 0x65]

/-- `"device"` -/
def deviceOption : List UInt8 := [0x64, 0x65, 0x76, 0x69, 0x63, 0x65]

/-- `"root"` -/
def rootOption : List UInt8 := [0x72, 0x6f, 0x6f, 0x74]

/-- `"label"` -/
def labelOption : List UInt8 := [0x6c, 0x61, 0x62, 0x65, 0x6c]

/-- `"append"` -/
def appendOption : List UInt8 := [0x61, 0x70, 0x70, 0x65, 0x6e, 0x64]

/-- `"command"` -/
def commandOption : List UInt8 := [0x63, 0x6f, 0x6d, 0x6d, 0x61, 0x6e, 0x64]

/-- The time-out in seconds, -1 for one that is not legal. -/
def readTimeout (value : List UInt8) : Int :=
  let timeout := (atoi value).value
  if timeout > 10000 ∨ timeout < 0 then -1 else timeout.tdiv 10

/-- The variables of the loop, with the indices at which it has stored in the
table; `failed` is the return after an error. -/
structure ConfigRun where
  buf : List UInt8
  timeout : Int
  images : List (Image Nat)
  stores : List Nat
  failed : Bool
  deriving DecidableEq

/-- A new table, in which entry `num_images - 1` has been stored to. -/
def ConfigRun.store (s : ConfigRun) (images : List (Image Nat)) : ConfigRun :=
  { s with images := images, stores := s.stores ++ [images.length - 1] }

/-- A store in the last entry. -/
def ConfigRun.storeLast (s : ConfigRun) (f : Image Nat → Image Nat) : ConfigRun :=
  s.store (s.images.modify (s.images.length - 1) f)

/-- The comparisons with the names of the options. A command before the first
image is run at once. -/
def setOption (s : ConfigRun) (option : List UInt8) (value : Nat) : ConfigRun :=
  if option = timeoutOption then { s with timeout := readTimeout (stringIn s.buf value) }
  else if option = imageOption then s.store (s.images ++ [{ Image.blank with image := some value }])
  else if s.images ≠ [] ∧ option = deviceOption then
    s.storeLast fun i => { i with device := some value }
  else if s.images ≠ [] ∧ option = rootOption then
    s.storeLast fun i => { i with root := some value }
  else if s.images ≠ [] ∧ option = labelOption then
    s.storeLast fun i => { i with label := some value }
  else if s.images ≠ [] ∧ option = appendOption then
    s.storeLast fun i => { i with append := some value }
  else if option = commandOption then
    if s.images = [] then { s with buf := parseCommandAt s.buf value }
    else s.storeLast fun i => { i with cmdlist := i.cmdlist ++ [value] }
  else s

/-- One pass of the loop, for the line between `start` and the newline at `stop`. -/
def parseLine (s : ConfigRun) (start stop : Nat) : ConfigRun :=
  let buf := s.buf.set stop 0
  let r := parseConfigLine (stringIn buf start)
  let s := { s with buf := cutAt buf start r.cuts }
  if r.failed ∨ (r.option.isSome ∧ r.value = none) then { s with failed := true }
  else
    match r.option, r.value with
    | some option, some value => setOption s (stringIn s.buf (start + option)) (start + value)
    | _, _ => s

theorem setOption_length (s : ConfigRun) (option : List UInt8) (value : Nat) :
    (setOption s option value).buf.length = s.buf.length := by
  unfold setOption ConfigRun.storeLast ConfigRun.store
  repeat' split
  all_goals first | rfl | exact parseCommandAt_length s.buf value

theorem parseLine_length (s : ConfigRun) (start stop : Nat) :
    (parseLine s start stop).buf.length = s.buf.length := by
  have hcut : ∀ cuts, (cutAt (s.buf.set stop 0) start cuts).length = s.buf.length := by
    intro cuts
    rw [cutAt_length, List.length_set]
  unfold parseLine
  simp only
  split
  · exact hcut _
  · split
    · rw [setOption_length]
      exact hcut _
    · exact hcut _

/-- The loop. -/
def parseLines (s : ConfigRun) (start : Nat) : ConfigRun :=
  if s.buf[start]?.getD 0 = 0 then s
  else
    let stop := scan (· != newline) s.buf start
    if (parseLine s start stop).failed then parseLine s start stop
    else parseLines (parseLine s start stop) (stop + 1)
termination_by s.buf.length - start
decreasing_by
  have hstart : start < s.buf.length := by
    by_contra hover
    rw [List.getElem?_eq_none (Nat.le_of_not_lt hover)] at *
    contradiction
  have hstop := le_scan (· != newline) s.buf start
  rw [parseLine_length]
  omega

/-- The loop over a file with this text; a newline and a NUL have been stored
behind it. -/
def parseConfig (text : List UInt8) : ConfigRun :=
  parseLines ⟨text ++ [newline, 0], -1, [], [], false⟩ 0

/-- The newlines before the first NUL, the added one included. -/
def countNewlines (text : List UInt8) : Nat := (stringIn (text ++ [newline, 0]) 0).count newline

/-- The number of entries the table has been made for. -/
def tableSize (text : List UInt8) : Nat := countNewlines text / 2

end Milo.Shell
