import Milo.Boot.Atoi
import Milo.Foundation.QuadText
import Milo.Rom.Makerom
import Milo.Tools.Miloctl

/-! # The command line of makerom

`main` keeps a list of file descriptions. Options change the one at its end, a
file name completes it and puts an empty one behind it, and the empty one that is
left is cut off. The output file is one of the list.

Where the program goes on with memory that it has not set, the value is `none`.
Its messages are left out.
-/

namespace Milo.Rom

open Foundation
open Foundation.QuadText (leValue)
open Milo.Tools (toLower)

/-! ## Values of options -/

def isSpace (c : UInt8) : Bool := c == 0x20 || decide (0x09 ≤ c ∧ c ≤ 0x0d)

/-- The value of a hexadecimal digit. -/
def xdigit (c : UInt8) : Option Nat :=
  if 0x30 ≤ c ∧ c ≤ 0x39 then some (c.toNat - 0x30)
  else if 0x61 ≤ c ∧ c ≤ 0x66 then some (c.toNat - 0x57)
  else if 0x41 ≤ c ∧ c ≤ 0x46 then some (c.toNat - 0x37)
  else none

def isXdigit (c : UInt8) : Bool := (xdigit c).isSome

/-- The sign that a number may begin with, and what stands behind it. -/
def readSign : List UInt8 → Bool × List UInt8
  | [] => (false, [])
  | c :: text =>
      if c = 0x2d then (true, text) else if c = 0x2b then (false, text) else (false, c :: text)

/-- `0x` in front of the digits. -/
def skipBase : List UInt8 → List UInt8
  | c :: x :: text => if c = 0x30 ∧ toLower x = 0x78 then text else c :: x :: text
  | text => text

/-- `strtoul(text, NULL, 16)`, kept in a longword, for a text of 8 characters or less. -/
def strtoul (text : List UInt8) : Nat :=
  let (negative, text) := readSign (text.dropWhile isSpace)
  let digits := (skipBase text).takeWhile isXdigit
  let value := digits.foldl (fun n c => 16 * n + (xdigit c).getD 0) 0
  if negative then sub32 0 value else value

/-- `atoi` of the C library -/
def hostAtoi (text : List UInt8) : Int :=
  let (negative, text) := readSign (text.dropWhile isSpace)
  let value : Int := Boot.decimal (text.takeWhile Boot.isDigit)
  toInt (max (-2 ^ 63) (min (if negative then -value else value) (2 ^ 63 - 1)))

/-- `sscanf(text, "%16s", strbuf)`, if it stores anything. -/
def scanWord (text : List UInt8) : Option (List UInt8) :=
  let word := ((text.dropWhile isSpace).takeWhile fun c => !isSpace c).take 16
  if word = [] then none else some word

/-- The low and the high half of a quadword. -/
abbrev Quad := Nat × Nat

/-- The last 8 characters of `strbuf` and those in front of them. -/
def readQuad (strbuf : List UInt8) : Quad :=
  let j := strbuf.length - 8
  (strtoul (strbuf.drop j), strtoul (strbuf.take j))

/-- The 8 characters of `fwid_optional.ch`. -/
def packQuad (text : List UInt8) : Quad :=
  let ch := (text ++ List.replicate 8 0).take 8
  (leValue (ch.take 4), leValue (ch.drop 4))

def quotationMark : UInt8 := 0x22

/-- The characters that `-f` takes from a file; at the end of the file `getc` gives -1. -/
def optionalText (contents : List UInt8) : List UInt8 :=
  match contents.dropWhile isSpace with
  | [] => [0xff]
  | ch :: rest =>
      if ch = quotationMark then rest.take ((rest.takeWhile (· ≠ quotationMark)).length + 1)
      else ch :: rest

/-- What `-f` stores. -/
def optionalFromFile (contents : List UInt8) : Option Quad :=
  (scanWord contents).map fun strbuf =>
    if isXdigit (strbuf.headD 0) then readQuad (strbuf.takeWhile (· ≠ 0))
    else packQuad (optionalText contents)

/-! ## Firmware ids -/

/-- `fw_id_t` -/
structure FwId where
  firmwareId : Int
  idString : List (List UInt8)

def chars (s : String) : List UInt8 := s.toList.map fun c => UInt8.ofNat c.toNat

def fwidArray : List FwId :=
  [⟨0, ["Alpha Evaluation Board Debug Monitor", "DBM", "Debug Monitor", "Monitor"].map chars⟩,
    ⟨1, ["Windows NT Firmware", "WNT", "NTFW", "ARC", "NT"].map chars⟩,
    ⟨2, ["Alpha SRM Console", "SRM", "VMS", "OSF"].map chars⟩]

/-- `fwid_match`; only the first 80 characters count. -/
def fwidMatch (arg : List UInt8) : Option FwId :=
  fwidArray.find? fun fw =>
    fw.idString.any fun string => (arg.take 80).map toLower == string.map toLower

/-- `fwid_match_i` -/
def fwidMatchI (fwid : Int) : Option FwId := fwidArray.find? fun fw => fw.firmwareId == fwid

/-! ## The list of files -/

/-- `fileinfo_t`; `size` and `padding` are those of `processFile`. -/
structure MakeromInfo where
  file : Option (List UInt8)
  load : Option Quad
  compress : Bool
  outputfile : Bool
  fwidPtr : Option FwId
  fwidAlt : Option Int
  fwidOptional : Option Quad

/-- `allocate_fileinfo`, with `fwid_ptr` as `main` sets it. -/
def allocateFileinfo : MakeromInfo where
  file := none
  load := some (0, 0)
  compress := false
  outputfile := false
  fwidPtr := none
  fwidAlt := none
  fwidOptional := none

/-- `-i` -/
def setFirmwareId (arg : List UInt8) (now : MakeromInfo) : MakeromInfo :=
  match fwidMatch arg with
  | some fw => { now with fwidPtr := some fw }
  | none => { now with fwidAlt := some (hostAtoi arg), fwidPtr := fwidMatchI (hostAtoi arg) }

inductive MakeromReport
  | usage
  | twoOutputNames
  | insufficientFilenames
  | noOutputFile
  | openFailed (name : List UInt8)
  | aborted
  | closed

/-- The variables of `main`: the descriptions that are complete, the one behind
them, and `seen['o' - 'a']`. -/
structure Parse where
  files : List MakeromInfo
  now : MakeromInfo
  output : Bool

def Parse.init : Parse := ⟨[], allocateFileinfo, false⟩

inductive OptionLetter
  | help
  | verbose
  | compress
  | output
  | load
  | firmwareId
  | hexId
  | stringId
  | fileId
  | unknown
deriving DecidableEq

/-- The cases of the `switch`. -/
def optionLetter (option : UInt8) : OptionLetter :=
  if toLower option = 0x68 then .help
  else if toLower option = 0x76 then .verbose
  else if toLower option = 0x63 then .compress
  else if toLower option = 0x6f then .output
  else if toLower option = 0x6c then .load
  else if toLower option = 0x69 then .firmwareId
  else if toLower option = 0x78 then .hexId
  else if toLower option = 0x73 then .stringId
  else if toLower option = 0x66 then .fileId
  else .unknown

/-- What stands at the name of a file. -/
abbrev FileContents := List UInt8 → Option (List UInt8)

section
variable (disk : FileContents)

/-- The loop over the characters behind a `-`. -/
def readOptions : List UInt8 → Parse → Except MakeromReport Parse
  | [], s => .ok s
  | option :: arg, s =>
      match optionLetter option with
      | .help => .error .usage
      | .verbose => readOptions arg s
      | .compress => readOptions arg { s with now := { s.now with compress := true } }
      | .output =>
          if s.output then .error .twoOutputNames
          else
            -- this case goes on with that of `-l`
            .ok { s with
              output := true
              now := { s.now with outputfile := true, load := (scanWord arg).map readQuad } }
      | .load => .ok { s with now := { s.now with load := (scanWord arg).map readQuad } }
      | .firmwareId => .ok { s with now := setFirmwareId arg s.now }
      | .hexId => .ok { s with now := { s.now with fwidOptional := (scanWord arg).map readQuad } }
      | .stringId => .ok { s with now := { s.now with fwidOptional := some (packQuad arg) } }
      | .fileId =>
          match disk arg with
          | none => .error (.openFailed arg)
          | some contents =>
              .ok { s with now := { s.now with fwidOptional := optionalFromFile contents } }
      | .unknown => .error .usage

/-- A file name completes a description. -/
def Parse.addFile (arg : List UInt8) (s : Parse) : Parse :=
  { s with files := s.files ++ [{ s.now with file := some arg }], now := allocateFileinfo }

def dash : UInt8 := 0x2d

/-- The loop over the arguments. -/
def readArgs : List (List UInt8) → Parse → Except MakeromReport Parse
  | [], s => .ok s
  | arg :: rest, s =>
      match arg with
      | [] => readArgs rest (s.addFile [])
      | c :: text =>
          if c = dash then (readOptions disk text s).bind (readArgs rest)
          else readArgs rest (s.addFile (c :: text))

/-! ## The output -/

/-- An image in the ROM, with the fields of its header that options set. -/
structure RomFile where
  destination : Option Quad
  fwId : Option Int
  fwoptid : Option Quad
  image : RomImage

/-- The header's fields that do not depend on the contents. -/
def MakeromInfo.romFile (ifile : MakeromInfo) (image : RomImage) : RomFile where
  destination := ifile.load
  fwId := ((ifile.fwidPtr.map (·.firmwareId)).or ifile.fwidAlt).map (Int.bmod · 256)
  fwoptid := ifile.fwidOptional
  image := image

/-- The loop over the list up to the output file, or to the last one. -/
def findOutput : MakeromInfo → List MakeromInfo → MakeromInfo
  | output, [] => output
  | output, next :: rest => if output.outputfile then output else findOutput next rest

/-- The loop over the list that writes the ROM. -/
def processList (buffer : List Int) : List MakeromInfo → List RomFile × MakeromReport
  | now :: next :: rest =>
      if now.outputfile then processList buffer (next :: rest)
      else
        match now.file.bind disk with
        | none => ([], .openFailed (now.file.getD []))
        | some contents =>
            match processFile buffer ⟨contents, now.compress⟩ with
            | none => ([], .aborted)
            | some (image, buffer) =>
                let (written, report) := processList buffer (next :: rest)
                (now.romFile image :: written, report)
  | _ => ([], .closed)

/-- How the program ends, the output file it has opened and what is in it then. -/
structure Outcome where
  report : MakeromReport
  output : Option (List UInt8)
  written : List RomFile

/-- `main` behind the parsing, for a list that ends with `last`. -/
def writeRom (creatable : List UInt8 → Bool) : List MakeromInfo → Outcome
  | first :: second :: rest =>
      let output := findOutput first (second :: rest)
      if output.outputfile = false then ⟨.noOutputFile, none, []⟩
      else if creatable (output.file.getD []) = false then
        ⟨.openFailed (output.file.getD []), none, []⟩
      else
        let (written, report) := processList disk [] (first :: second :: rest)
        ⟨report, output.file, written⟩
  | _ => ⟨.insufficientFilenames, none, []⟩

/-- `main`, with the arguments behind `argv[0]` -/
def makerom (creatable : List UInt8 → Bool) (args : List (List UInt8)) : Outcome :=
  if args = [] then ⟨.usage, none, []⟩
  else
    match readArgs disk args .init with
    | .error report => ⟨report, none, []⟩
    | .ok s => writeRom disk creatable s.files

end

end Milo.Rom
