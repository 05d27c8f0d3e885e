import Milo.Foundation.CInt
import Milo.Tools.SrmBoot

/-! # The parameters in a Milo image

`miloctl` finds the parameter block of an image, behind an SRM boot sector or
not, and writes it back with the fields changed that its arguments ask for.
-/

namespace Milo.Tools

open Foundation
open Foundation.QuadText (leBytes leValue leBytes_length leValue_leBytes)

/-! ## Arguments -/

/-- `struct flag_d` -/
structure FlagName where
  val : BitVec 64
  name : List UInt8
  nick : List UInt8

/-- The table `flags`: `SERIAL_OUTPUT` and `VERBOSE`. -/
def flagNames : List FlagName :=
  [⟨16, [0x53, 0x45, 0x52, 0x49, 0x41, 0x4c, 0x5f, 0x4f, 0x55, 0x54, 0x50, 0x55, 0x54], [0x53]⟩,
    ⟨32, [0x56, 0x45, 0x52, 0x42, 0x4f, 0x53, 0x45], [0x56]⟩]

def minus : UInt8 := 0x2d
def plus : UInt8 := 0x2b

/-- A character as `strcasecmp` compares it. -/
def toLower (c : UInt8) : UInt8 := if 0x41 ≤ c ∧ c ≤ 0x5a then c + 0x20 else c

/-- The flag that an argument names behind its sign. -/
def findFlag (name : List UInt8) : Option (BitVec 64) :=
  (flagNames.find? fun f => name.map toLower == f.name.map toLower || name == f.nick).map (·.val)

structure Args where
  filename : Option (List UInt8)
  cmd : Option (List UInt8)
  mem : Option (List UInt8)
  set : BitVec 64
  clear : BitVec 64
  verbose : Bool
  tryhelp : Bool

def noArgs : Args := ⟨none, none, none, 0, 0, false, false⟩

/-- An option of single letters. -/
def parseLetters (args : Args) : List UInt8 → Except Nat Args
  | [] => .ok args
  | c :: letters =>
      if c = 0x68 then .error 0
      else if c = 0x76 then parseLetters { args with verbose := true } letters
      else parseLetters { args with tryhelp := true } letters

/-- `--verbose` -/
def verboseOption : List UInt8 := [0x2d, 0x2d, 0x76, 0x65, 0x72, 0x62, 0x6f, 0x73, 0x65]
/-- `--help` -/
def helpOption : List UInt8 := [0x2d, 0x2d, 0x68, 0x65, 0x6c, 0x70]
/-- `--version` -/
def versionOption : List UInt8 := [0x2d, 0x2d, 0x76, 0x65, 0x72, 0x73, 0x69, 0x6f, 0x6e]
/-- `cmd=` -/
def cmdPrefix : List UInt8 := [0x63, 0x6d, 0x64, 0x3d]
/-- `mem=` -/
def memPrefix : List UInt8 := [0x6d, 0x65, 0x6d, 0x3d]

/-- The flag that an argument sets or clears. -/
def signedFlag (p : List UInt8) : Option (BitVec 64) :=
  if p.head? = some minus ∨ p.head? = some plus then findFlag p.tail else none

/-- One argument, when it names no flag. -/
def parseOther (args : Args) (p : List UInt8) : Except Nat Args :=
  if cmdPrefix.isPrefixOf p then
    if args.cmd.isSome then .error 1 else .ok { args with cmd := some (p.drop 4) }
  else if memPrefix.isPrefixOf p then
    if args.mem.isSome then .error 1 else .ok { args with mem := some (p.drop 4) }
  else if args.filename.isSome then .error 1
  else .ok { args with filename := some p }

/-- The loop over the arguments; an error is the exit code of a program that ends
there. -/
def parseArgs (args : Args) : List (List UInt8) → Except Nat Args
  | [] => .ok args
  | p :: argv =>
      match signedFlag p with
      | some val =>
          if p.head? = some minus then parseArgs { args with clear := args.clear ||| val } argv
          else parseArgs { args with set := args.set ||| val } argv
      | none =>
          if p.head? ≠ some minus then
            (parseOther args p).bind fun args => parseArgs args argv
          else if p = verboseOption then parseArgs { args with verbose := true } argv
          else if p = helpOption ∨ p = versionOption then .error 0
          else if p.tail.head? = some minus then .ok { args with tryhelp := true }
          else (parseLetters args p.tail).bind fun args => parseArgs args argv

/-- Current settings are displayed instead. -/
def Args.display (args : Args) : Bool :=
  args.cmd.isNone && args.mem.isNone && args.set == 0 && args.clear == 0

/-! ## The memory size -/

def isSpace (c : UInt8) : Bool := c == 0x20 || decide (0x09 ≤ c ∧ c ≤ 0x0d)

/-- The digits at the start of a string. -/
def leadingDigits (s : List UInt8) : List UInt8 := s.takeWhile fun c => decide (0x30 ≤ c ∧ c ≤ 0x39)

/-- The C library's `atoi`, which reads a `long` and keeps an `int` of it. -/
def stdAtoi (s : List UInt8) : Int :=
  let s := s.dropWhile isSpace
  let negative := s.head? = some minus
  let s := if negative ∨ s.head? = some plus then s.tail else s
  let n : Int := (leadingDigits s).foldl (fun n c => n * 10 + (c.toNat - 0x30)) 0
  toInt (if negative then max (-2 ^ 63) (-n) else min (2 ^ 63 - 1) n)

/-- `memory`, or nothing for an illegal size. -/
def memorySize (mem : List UInt8) : Option Nat :=
  if mem = [] then some 0
  else
    let memory := (stdAtoi mem % 2 ^ 32).toNat
    if memory < 4 ∨ memory > 32767 then none else some memory

/-! ## The parameter block -/

/-- `sizeof (b.param)` -/
def paramSize : Nat := 0x400

/-- The offset of `b.param.cmd` and its size. -/
def cmdAt : Nat := 18
def cmdSize : Nat := 750
/-- The offsets of `b.param.memsig`, `b.param.mem` and `b.param.flags`. -/
def memsigAt : Nat := 768
def memAt : Nat := 772
def flagsAt : Nat := 776

def miloSignature : Nat := 0x4f4c494d

def miloStart : Nat := 0x47ff041f47ff041f

/-- `strncpy` into a field; what the string leaves is filled with NULs. -/
def strncpy (string : List UInt8) (n : Nat) : List UInt8 := (string ++ List.replicate n 0).take n

/-- The flags of a block. -/
def flagsOf (param : List UInt8) : BitVec 64 := BitVec.ofNat 64 (leValue (slice param flagsAt 8))

def editCmd (args : Args) (param : List UInt8) : List UInt8 :=
  match args.cmd with
  | some cmd => patch param cmdAt (strncpy cmd cmdSize)
  | none => param

def editMem (args : Args) (memory : Nat) (param : List UInt8) : List UInt8 :=
  if args.mem.isSome then
    patch (patch param memsigAt (leBytes 4 miloSignature)) memAt (leBytes 4 memory)
  else param

/-- The flags are written back in any case. -/
def editFlags (args : Args) (param : List UInt8) : List UInt8 :=
  patch param flagsAt (leBytes 8 ((flagsOf param &&& ~~~args.clear) ||| args.set).toNat)

/-- The block with what the arguments ask for. -/
def editParam (args : Args) (memory : Nat) (param : List UInt8) : List UInt8 :=
  editFlags args (editMem args memory (editCmd args param))

/-! ## The file -/

/-- Where the image starts, behind a boot sector or not. -/
def imageStart (contents : List UInt8) : Except Nat Nat :=
  match readAt contents 0 sectorSize with
  | none => .error 3
  | some boot =>
      if quadAt boot 0 = miloStart then .ok 0
      else if sectorSum boot ≠ quadAt boot 63 then .error 4
      else
        let position := u64 (quadAt boot 61 * 512)
        -- an `off_t` is signed
        if 2 ^ 63 ≤ position then .error 3
        else
          match readAt contents position sectorSize with
          | none => .error 3
          | some boot => if quadAt boot 0 ≠ miloStart then .error 4 else .ok position

/-- The search for the parameter block, in steps of 0x100 bytes. -/
def searchParam (contents : List UInt8) (start : Nat) : Nat → Nat → Except Nat Nat
  | 0, _ => .error 5
  | n + 1, offset =>
      match readAt contents (start + offset) 0x100 with
      | none => .error 3
      | some b =>
          if leValue (slice b 0 4) ≠ miloSignature then searchParam contents start n (offset + 0x100)
          else .ok offset

/-- `main` behind its arguments: what the file holds when the program succeeds, or
else its exit code. -/
def miloctl (args : Args) (contents : List UInt8) : Except Nat (List UInt8) :=
  if args.filename.isNone ∨ args.tryhelp then .error 1
  else if cmdSize ≤ (args.cmd.getD []).length then .error 2
  else
    match memorySize (args.mem.getD []) with
    | none => .error 2
    | some memory =>
        (imageStart contents).bind fun start =>
          (searchParam contents start 14 0x200).bind fun offset =>
            match readAt contents (start + offset + 0x100) (paramSize - 0x100) with
            | none => .error 3
            | some rest =>
                let param := slice contents (start + offset) 0x100 ++ rest
                let position := start + offset + paramSize
                if args.display then .ok contents
                else .ok (patch contents (position - paramSize) (editParam args memory param))

/-- `main` -/
def miloctlMain (argv : List (List UInt8)) (contents : List UInt8) : Except Nat (List UInt8) :=
  (parseArgs noArgs argv).bind fun args => miloctl args contents

/-! ## Edits of a block -/

section
variable {args : Args} {param : List UInt8}

theorem strncpy_length (string : List UInt8) (n : Nat) : (strncpy string n).length = n := by
  simp [strncpy]

theorem strncpy_eq {string : List UInt8} {n : Nat} (h : string.length ≤ n) :
    strncpy string n = string ++ List.replicate (n - string.length) 0 := by
  rw [strncpy, List.take_append, List.take_of_length_le h, List.take_replicate,
    Nat.min_eq_left (Nat.sub_le n _)]

theorem editCmd_length (args : Args) (h : param.length = paramSize) : (editCmd args param).length = paramSize := by
  unfold editCmd
  split
  · rw [patch_length (by rw [strncpy_length, h]; decide), h]
  · exact h

theorem slice_editCmd_other (h : param.length = paramSize) {a n : Nat}
    (hapart : a + n ≤ cmdAt ∨ cmdAt + cmdSize ≤ a) :
    slice (editCmd args param) a n = slice param a n := by
  unfold editCmd
  split
  · exact slice_patch_other (by rw [h]; decide) (by rwa [strncpy_length])
  · rfl

theorem patchField_length (h : param.length = paramSize) {a n : Nat} (value : Nat)
    (hfits : a + n ≤ paramSize) : (patch param a (leBytes n value)).length = paramSize := by
  rw [patch_length (by rwa [leBytes_length, h]), h]

theorem editMem_length (args : Args) (memory : Nat) (h : param.length = paramSize) :
    (editMem args memory param).length = paramSize := by
  unfold editMem
  split
  · have hsig := patchField_length (a := memsigAt) (n := 4) h miloSignature (by decide)
    exact patchField_length hsig _ (by decide)
  · exact h

theorem slice_editMem_other (memory : Nat) (h : param.length = paramSize) {a n : Nat}
    (hapart : a + n ≤ memsigAt ∨ flagsAt ≤ a) :
    slice (editMem args memory param) a n = slice param a n := by
  unfold memsigAt flagsAt at hapart
  unfold editMem
  split
  · have hsig := patchField_length (a := memsigAt) (n := 4) h miloSignature (by decide)
    rw [slice_patch_other (by rw [hsig]; decide) (by rw [leBytes_length, memAt]; omega),
      slice_patch_other (by rw [h]; decide) (by rw [leBytes_length, memsigAt]; omega)]
  · rfl

theorem editFlags_length (args : Args) (h : param.length = paramSize) :
    (editFlags args param).length = paramSize := by
  unfold editFlags
  exact patchField_length h _ (by decide)

theorem slice_editFlags_other (h : param.length = paramSize) {a n : Nat}
    (hapart : a + n ≤ flagsAt ∨ flagsAt + 8 ≤ a) :
    slice (editFlags args param) a n = slice param a n :=
  slice_patch_other (by rw [h]; decide) (by rwa [leBytes_length])

theorem editParam_length (args : Args) (memory : Nat) (h : param.length = paramSize) :
    (editParam args memory param).length = paramSize :=
  editFlags_length args (editMem_length args memory (editCmd_length args h))

/-- Outside the three fields nothing changes. -/
theorem slice_editParam_other (memory : Nat) (h : param.length = paramSize) {a n : Nat}
    (hapart : a + n ≤ cmdAt ∨ flagsAt + 8 ≤ a) :
    slice (editParam args memory param) a n = slice param a n := by
  have hcmd := editCmd_length args h
  have hmem := editMem_length args memory hcmd
  unfold cmdAt flagsAt at hapart
  unfold editParam
  rw [slice_editFlags_other hmem (by rw [flagsAt]; omega),
    slice_editMem_other memory hcmd (by rw [memsigAt, flagsAt]; omega),
    slice_editCmd_other h (by rw [cmdAt, cmdSize]; omega)]

theorem slice_editParam_cmd (memory : Nat) (h : param.length = paramSize) :
    slice (editParam args memory param) cmdAt cmdSize =
      match args.cmd with
      | some cmd => strncpy cmd cmdSize
      | none => slice param cmdAt cmdSize := by
  have hcmd := editCmd_length args h
  have hmem := editMem_length args memory hcmd
  unfold editParam
  rw [slice_editFlags_other hmem (by decide), slice_editMem_other memory hcmd (by decide)]
  unfold editCmd
  split
  · rename_i cmd _
    have hself : slice (patch param cmdAt (strncpy cmd cmdSize)) cmdAt (strncpy cmd cmdSize).length =
        strncpy cmd cmdSize := slice_patch_self (by rw [h]; decide)
    rwa [strncpy_length] at hself
  · rfl

theorem slice_editParam_mem (memory : Nat) (h : param.length = paramSize) :
    slice (editParam args memory param) memsigAt 8 =
      if args.mem.isSome then leBytes 4 miloSignature ++ leBytes 4 memory
      else slice param memsigAt 8 := by
  have hcmd := editCmd_length args h
  have hmem := editMem_length args memory hcmd
  unfold editParam
  rw [slice_editFlags_other hmem (by decide)]
  unfold editMem
  split
  · have hboth : patch (patch (editCmd args param) memsigAt (leBytes 4 miloSignature)) memAt
        (leBytes 4 memory) =
        patch (editCmd args param) memsigAt (leBytes 4 miloSignature ++ leBytes 4 memory) :=
      patch_patch (by rw [leBytes_length, hcmd]; decide)
    rw [hboth]
    exact slice_patch_self (by rw [hcmd]; decide)
  · rw [slice_editCmd_other h (by decide)]

theorem flagsOf_editParam (memory : Nat) (h : param.length = paramSize) :
    flagsOf (editParam args memory param) = (flagsOf param &&& ~~~args.clear) ||| args.set := by
  have hcmd := editCmd_length args h
  have hmem := editMem_length args memory hcmd
  have hold : flagsOf (editMem args memory (editCmd args param)) = flagsOf param := by
    unfold flagsOf
    rw [slice_editMem_other memory hcmd (by decide), slice_editCmd_other h (by decide)]
  have hslice : slice (editParam args memory param) flagsAt 8 =
      leBytes 8 ((flagsOf param &&& ~~~args.clear) ||| args.set).toNat := by
    rw [← hold]
    exact slice_patch_self (by rw [hmem]; decide)
  have hlt : ((flagsOf param &&& ~~~args.clear) ||| args.set).toNat < 256 ^ 8 := BitVec.isLt _
  rw [flagsOf, hslice, leValue_leBytes, Nat.mod_eq_of_lt hlt, BitVec.ofNat_toNat,
    BitVec.setWidth_eq]

/-! ## Edits of a file -/

/-- The block at which the search stops: the first one, 0x200 to 0xf00 bytes behind
the start of the image, that has the signature. -/
structure IsParamAt (contents : List UInt8) (position : Nat) : Prop where
  found : ∃ start j, imageStart contents = .ok start ∧ j < 14 ∧
    position = start + (0x200 + 0x100 * j) ∧
    ∀ i < j, leValue (slice contents (start + (0x200 + 0x100 * i)) 4) ≠ miloSignature
  signature : leValue (slice contents position 4) = miloSignature
  fits : position + paramSize ≤ contents.length

/-- The file differs only in what the arguments ask for. -/
structure EditsOnly (args : Args) (position : Nat) (contents new : List UInt8) : Prop where
  length : new.length = contents.length
  cmd : slice new (position + cmdAt) cmdSize =
    match args.cmd with
    | some cmd => cmd ++ List.replicate (cmdSize - cmd.length) 0
    | none => slice contents (position + cmdAt) cmdSize
  mem : match args.mem with
    | some mem => ∃ memory, memorySize mem = some memory ∧
        slice new (position + memsigAt) 8 = leBytes 4 miloSignature ++ leBytes 4 memory
    | none => slice new (position + memsigAt) 8 = slice contents (position + memsigAt) 8
  flags : ∀ k, (flagsOf (slice new position paramSize)).getLsbD k =
    (args.set.getLsbD k ||
      (!args.clear.getLsbD k && (flagsOf (slice contents position paramSize)).getLsbD k))
  other : ∀ i, i < position + cmdAt ∨ position + flagsAt + 8 ≤ i → new[i]? = contents[i]?

/-- The search stops at the first block with the signature. -/
theorem searchParam_spec {contents : List UInt8} {start n first offset : Nat}
    (h : searchParam contents start n first = .ok offset) :
    ∃ j < n, offset = first + 0x100 * j ∧
      leValue (slice contents (start + offset) 4) = miloSignature ∧
      ∀ i < j, leValue (slice contents (start + (first + 0x100 * i)) 4) ≠ miloSignature := by
  induction n generalizing first with
  | zero => cases h
  | succ n ih =>
      unfold searchParam readAt at h
      split at h
      · cases h
      · rename_i b hb
        have hfirst : leValue (slice b 0 4) = leValue (slice contents (start + first) 4) := by
          split at hb
          · rw [← Option.some.inj hb, slice_slice _ (by decide), Nat.add_zero]
          · cases hb
        split at h
        · rename_i hsig
          rw [hfirst] at hsig
          obtain ⟨j, hj, hoffset, hfound, hearlier⟩ := ih h
          refine ⟨j + 1, Nat.succ_lt_succ hj, ?_, hfound, fun i hi => ?_⟩
          · rw [hoffset, Nat.mul_succ, Nat.add_assoc, Nat.add_comm 0x100]
          · cases i with
            | zero => exact hsig
            | succ i =>
                have hnext := hearlier i (Nat.lt_of_succ_lt_succ hi)
                rwa [Nat.add_assoc, Nat.add_comm 0x100, ← Nat.mul_succ] at hnext
        · rename_i hsig
          have heq : first = offset := Except.ok.inj h
          subst heq
          refine ⟨0, Nat.succ_pos n, rfl, ?_, fun i hi => absurd hi (Nat.not_lt_zero i)⟩
          rw [← hfirst]
          exact not_not.mp hsig

/-- Editing the block of a file changes only what it changes in the block. -/
theorem editsOnly_patch {args : Args} {contents : List UInt8} {position memory : Nat}
    (hfits : position + paramSize ≤ contents.length)
    (hcmd : (args.cmd.getD []).length < cmdSize)
    (hmemory : memorySize (args.mem.getD []) = some memory) :
    EditsOnly args position contents
      (patch contents position (editParam args memory (slice contents position paramSize))) := by
  have hparam : (slice contents position paramSize).length = paramSize := slice_length hfits
  have hlength := editParam_length args memory hparam
  have hstart : position ≤ contents.length := by omega
  have hinside : ∀ a n, a + n ≤ paramSize →
      slice (patch contents position (editParam args memory (slice contents position paramSize)))
        (position + a) n = slice (editParam args memory (slice contents position paramSize)) a n :=
    fun a n h => slice_patch_inside hstart (by rwa [hlength])
  have hold : ∀ a n, a + n ≤ paramSize →
      slice (slice contents position paramSize) a n = slice contents (position + a) n :=
    fun a n h => slice_slice contents h
  refine ⟨patch_length (by rwa [hlength]), ?_, ?_, fun k => ?_, fun i hi => ?_⟩
  · rw [hinside cmdAt cmdSize (by decide), slice_editParam_cmd memory hparam]
    split
    · rename_i cmd heq
      rw [heq, Option.getD_some] at hcmd
      exact strncpy_eq (Nat.le_of_lt hcmd)
    · exact hold cmdAt cmdSize (by decide)
  · rw [hinside memsigAt 8 (by decide), slice_editParam_mem memory hparam]
    split
    · rename_i mem heq
      rw [heq, Option.getD_some] at hmemory
      refine ⟨memory, hmemory, ?_⟩
      rw [heq]
      rfl
    · rename_i heq
      rw [heq]
      exact hold memsigAt 8 (by decide)
  · have hflags := hinside 0 paramSize (by decide)
    rw [Nat.add_zero] at hflags
    have hall : slice (editParam args memory (slice contents position paramSize)) 0 paramSize =
        editParam args memory (slice contents position paramSize) := by
      rw [slice, List.drop_zero, List.take_of_length_le (Nat.le_of_eq hlength)]
    rw [hflags, hall, flagsOf_editParam memory hparam, BitVec.getLsbD_or, BitVec.getLsbD_and,
      BitVec.getLsbD_not, Bool.or_comm, Bool.and_comm]
    rcases Nat.lt_or_ge k 64 with hk | hk
    · rw [decide_eq_true hk, Bool.true_and]
    · rw [BitVec.getLsbD_of_ge _ _ hk, BitVec.getLsbD_of_ge _ _ hk, BitVec.getLsbD_of_ge _ _ hk,
        Bool.and_false, Bool.and_false]
  · rw [getElem?_patch hstart, hlength]
    split
    · rename_i hin
      have hother : slice (editParam args memory (slice contents position paramSize))
          (i - position) 1 = slice (slice contents position paramSize) (i - position) 1 :=
        slice_editParam_other memory hparam (by omega)
      rw [slice_eq_iff] at hother
      rw [hother _ (Nat.le_refl _) (by omega), getElem?_slice, if_pos (by omega),
        Nat.add_sub_cancel' hin.1]
    · rfl

/-- A run that succeeds changes nothing, or only what it is asked to in the block
that it has found. -/
theorem miloctl_ok {args : Args} {contents new : List UInt8}
    (h : miloctl args contents = .ok new) :
    if args.display then new = contents
    else ∃ position, IsParamAt contents position ∧ EditsOnly args position contents new := by
  unfold miloctl at h
  split at h
  · cases h
  · split at h
    · cases h
    · rename_i hcmd
      split at h
      · cases h
      · rename_i memory hmemory
        cases hstart : imageStart contents with
        | error code =>
            rw [hstart] at h
            cases h
        | ok start =>
            cases hsearch : searchParam contents start 14 0x200 with
            | error code =>
                rw [hstart, Except.bind, hsearch] at h
                cases h
            | ok offset =>
                obtain ⟨j, hj, hoffset, hfound, hearlier⟩ := searchParam_spec hsearch
                simp only [hstart, hsearch, Except.bind, readAt] at h
                split at h
                · cases h
                · rename_i rest hrest
                  split at hrest
                  · rename_i hfits
                    have hend : start + offset + paramSize ≤ contents.length := by
                      unfold paramSize at *
                      omega
                    have hparam : slice contents (start + offset) 0x100 ++ rest =
                        slice contents (start + offset) paramSize := by
                      rw [← Option.some.inj hrest, slice_append_slice]
                      rfl
                    rw [hparam, Nat.add_sub_cancel] at h
                    split
                    · rename_i hdisplay
                      rw [if_pos hdisplay] at h
                      exact (Except.ok.inj h).symm
                    · rename_i hdisplay
                      rw [if_neg hdisplay] at h
                      rw [← Except.ok.inj h]
                      have hat : IsParamAt contents (start + offset) :=
                        ⟨⟨start, j, hstart, hj, by rw [hoffset], hearlier⟩, hfound, hend⟩
                      exact ⟨start + offset, hat,
                        editsOnly_patch hend (Nat.lt_of_not_le hcmd) hmemory⟩
                  · cases hrest

/-! ## Boot sectors -/

/-- An image that starts with its own first instructions. -/
theorem imageStart_eq_zero {image : List UInt8} (h : imageStart image = .ok 0) :
    sectorSize ≤ image.length ∧ quadAt (slice image 0 sectorSize) 0 = miloStart := by
  unfold imageStart at h
  split at h
  · cases h
  · rename_i boot hboot
    obtain ⟨hlength, hslice⟩ := eq_of_readAt hboot
    refine ⟨by omega, ?_⟩
    rw [hslice]
    split at h
    · assumption
    · split at h
      · cases h
      · simp only at h
        split at h
        · cases h
        · split at h
          · cases h
          · rename_i again hagain
            split at h
            · cases h
            · rename_i hmilo
              rw [Except.ok.inj h, hboot] at hagain
              rw [Option.some.inj hagain]
              exact not_not.mp hmilo

/-- On a device to which an image has been written, the image is found behind the
boot sector. -/
theorem imageStart_srmbootraw {device image disk : List UInt8}
    (h : srmbootraw device image = .ok disk) (himage : imageStart image = .ok 0)
    (hdevice : quadAt device 0 ≠ miloStart) : imageStart disk = .ok sectorSize := by
  have hright := srmbootraw_checksumRight h
  obtain ⟨hlong, hmilo⟩ := imageStart_eq_zero himage
  unfold srmbootraw at h
  split at h
  · cases h
  · rename_i boot hboot
    obtain ⟨hdev, hslice⟩ := eq_of_readAt hboot
    have hlength := readAt_length hboot
    rw [Nat.zero_add] at hdev
    have hquads := quadAt_fillSector hlength (u64 (image.length + 511) / 512)
      (show 1 < 2 ^ 64 by decide)
    have hfilled := fillSector_length hlength 1 (u64 (image.length + 511) / 512)
    have hroom : sectorSize + image.length ≤ (patch device sectorSize image).length :=
      le_patch_length hdev
    have hdisk := Except.ok.inj h
    have hsector : slice disk 0 sectorSize =
        fillSector boot 1 (u64 (image.length + 511) / 512) := by
      rw [← hdisk]
      exact slice_filled hlength 1 _
    have hbehind : slice disk sectorSize sectorSize = slice image 0 sectorSize := by
      have hinside : slice (patch device sectorSize image) (sectorSize + 0) sectorSize =
          slice image 0 sectorSize := slice_patch_inside hdev (by omega)
      rw [← hdisk, slice_patch_other (Nat.zero_le _) (by rw [hfilled]; omega), ← hinside,
        Nat.add_zero]
    have hsize : disk.length = (patch device sectorSize image).length := by
      rw [← hdisk]
      exact patch_length (by rw [hfilled]; omega)
    have hfirst : quadAt boot 0 ≠ miloStart := by
      rw [← hslice, quadAt, slice_slice _ (by decide)]
      exact hdevice
    unfold imageStart
    rw [readAt_of_le (by omega)]
    unfold ChecksumRight at hright
    rw [hsector] at hright
    simp only [hsector]
    rw [hquads.1, if_neg hfirst, if_neg (not_not.mpr hright), hquads.2]
    have hposition : u64 (1 * 512) = sectorSize := rfl
    rw [hposition, if_neg (by decide), readAt_of_le (by omega), hbehind]
    exact if_neg (not_not.mpr hmilo)

/-- What `miloctl` writes is what it is asked to write, and it takes the boot sectors
that the other programs write. -/
theorem miloctl_edits_only_and_takes_boot_sectors :
    (∀ argv contents new, miloctlMain argv contents = .ok new →
      ∃ args, parseArgs noArgs argv = .ok args ∧
        if args.display then new = contents
        else ∃ position, IsParamAt contents position ∧ EditsOnly args position contents new) ∧
    (∀ device image disk, srmbootraw device image = .ok disk →
      ChecksumRight (slice disk 0 sectorSize) ∧
        (imageStart image = .ok 0 → quadAt device 0 ≠ miloStart →
          imageStart disk = .ok sectorSize)) ∧
    ∀ disk fat file new, srmbootfat disk fat file = some (.ok new) →
      ChecksumRight (slice new 0 sectorSize) := by
  refine ⟨fun argv contents new h => ?_, fun device image disk h => ?_, fun _ _ _ _ h => ?_⟩
  · unfold miloctlMain at h
    cases hargs : parseArgs noArgs argv with
    | error code =>
        rw [hargs] at h
        cases h
    | ok args =>
        rw [hargs] at h
        exact ⟨args, rfl, miloctl_ok h⟩
  · exact ⟨srmbootraw_checksumRight h, imageStart_srmbootraw h⟩
  · exact srmbootfat_checksumRight h

/-- The arguments `milo` and `+V`, for an image with its block at 0x200. -/
example : (miloctlMain [[0x6d, 0x69, 0x6c, 0x6f], [0x2b, 0x56]]
    (leBytes 8 miloStart ++ List.replicate 504 0 ++ leBytes 4 miloSignature ++
      List.replicate 1020 0)).toOption.map (fun new => new[0x200 + flagsAt]?) =
    some (some 32) := by decide +kernel

end

end Milo.Tools
