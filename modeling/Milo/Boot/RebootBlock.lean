import Milo.Boot.DeviceName
import Milo.Boot.MemorySize

/-! # The reboot block

`boot_cmd` writes what it boots into a block behind the HWRPB, and `reboot`
reads that block when Milo is entered again. The file name and the boot string
lie in two fields of a fixed size, the second signature right behind them.
-/

namespace Milo.Boot

open Foundation

/-! ## File system types -/

/-- The names of the file systems in `bootfs`. -/
def bootfs : List (List UInt8) :=
  [ascii ['e', 'x', 't', '2'], ascii ['i', 's', 'o', '9', '6', '6', '0'],
    ascii ['m', 's', 'd', 'o', 's']]

/-- `bootfs` is an array of pointers. -/
def sizeofBootfs : Nat := 8 * bootfs.length

/-- `struct bootfs`: a pointer, two integers and six pointers to functions. -/
def sizeofStructBootfs : Nat := 8 + 4 + 4 + 6 * 8

/-- `fs_type_to_name` -/
def fsTypeToName (type : Int) : Option (List UInt8) :=
  if 0 ≤ type ∧ type < (sizeofBootfs / sizeofStructBootfs : Nat) then bootfs[type.toNat]?
  else none

/-- `fs_name_to_type` -/
def fsNameToType : Option (List UInt8) → Int
  | none => -1
  | some name =>
      match bootfs.findIdx? (· == name) with
      | some i => i
      | none => -1

/-! ## The block -/

/-- A field of `n` bytes. -/
abbrev Field (n : Nat) := { bytes : List UInt8 // bytes.length = n }

/-- `strncpy` into a field; what the string leaves is filled with NULs. -/
def strncpy (src : List UInt8) (n : Nat) : Field n :=
  ⟨(src ++ List.replicate n 0).take n, by simp⟩

/-- The string that starts where `bytes` do. -/
def readString (bytes : List UInt8) : List UInt8 := bytes.takeWhile (· != 0)

/-- The bytes of a long in memory. -/
def longBytes (n : Nat) : List UInt8 := (List.range 8).map fun i => UInt8.ofNat (n / 256 ^ i)

/-- `Milo_reboot_t` -/
structure MiloReboot extends RebootBlock where
  bootDevice : Nat
  bootFilesystem : Int
  bootFilename : Field 32
  bootString : Field 64

/-- `REBOOT_REBOOT` -/
def rebootReboot : Nat := 1

/-- The block that `setup_boot_arguments` leaves of the one it finds: on a first
start the page it lies in is cleared. -/
def enterMilo (s : BootState) (block : MiloReboot) : MiloReboot :=
  let (rebooting, s') := (setupBootArguments { s with reboot := block.toRebootBlock }).value
  if rebooting then { block with toRebootBlock := s'.reboot }
  else ⟨s'.reboot, 0, 0, strncpy [] 32, strncpy [] 64⟩

/-- The same when the system that Milo started is left; the HWRPB has got its
signature. -/
def reenterMilo (s : BootState) (block : MiloReboot) : MiloReboot :=
  enterMilo { s with hwrpbId := hwrpbSignature } block

/-- The arguments of `boot_cmd`, NULL where there is none. -/
structure BootCommand where
  fsType : Option (List UInt8)
  devname : List UInt8
  filename : List UInt8
  bootString : Option (List UInt8)

/-- What `boot_cmd` saves once the kernel is loaded; `bootDev` is the variable
BOOT_DEV. -/
def saveCommand (bootDev : List UInt8) (block : MiloReboot) (command : BootCommand) :
    MiloReboot :=
  { block with
    bootFilesystem := (fsNameToType command.fsType).bmod (2 ^ 16)
    bootDevice := asUnsigned (deviceNameToNumber bootDev command.devname) % 2 ^ 16
    bootFilename := strncpy command.filename 32
    bootString :=
      match command.bootString with
      | none => ⟨block.bootString.val.set 0 0, by rw [List.length_set, block.bootString.property]⟩
      | some string => strncpy string 64
    flags := block.flags ||| rebootReboot }

/-- The bytes from the boot string on; `after` is what follows the block. -/
def fromString (block : MiloReboot) (after : List UInt8) : List UInt8 :=
  block.bootString.val ++ (longBytes block.signature2 ++ after)

/-- `reboot`: its call of `boot_cmd`. -/
def reboot (block : MiloReboot) (after : List UInt8) : BootCommand where
  fsType := fsTypeToName block.bootFilesystem
  devname := devName block.bootDevice
  filename := readString (block.bootFilename.val ++ fromString block after)
  bootString := some (readString (fromString block after))

/-- What `milo` boots because of the block, if anything. -/
def startedCommand (block : MiloReboot) (after : List UInt8) : Option BootCommand :=
  if block.flags &&& rebootReboot ≠ 0 then some (reboot block after) else none

/-! ## File system types do not come back -/

/-- The table has less bytes than one entry of it has. -/
theorem fsTypeToName_eq_none (type : Int) : fsTypeToName type = none := by
  unfold fsTypeToName
  rw [if_neg]
  have hcount : sizeofBootfs / sizeofStructBootfs = 0 := by decide
  rw [hcount]
  omega

theorem reboot_fsType (block : MiloReboot) (after : List UInt8) :
    (reboot block after).fsType = none := fsTypeToName_eq_none _

/-! ## Strings in fields -/

theorem readString_append_zero {s : List UInt8} (hs : 0 ∉ s) (rest : List UInt8) :
    readString (s ++ 0 :: rest) = s := by
  unfold readString
  rw [List.takeWhile_append_of_pos (fun c hc => by
    rw [bne_iff_ne]
    exact fun h => hs (h ▸ hc))]
  simp

theorem readString_append {s : List UInt8} (hs : 0 ∉ s) (rest : List UInt8) :
    readString (s ++ rest) = s ++ readString rest := by
  unfold readString
  rw [List.takeWhile_append_of_pos (fun c hc => by
    rw [bne_iff_ne]
    exact fun h => hs (h ▸ hc))]

/-- A string shorter than its field has its NUL there. -/
theorem strncpy_of_lt {s : List UInt8} {n : Nat} (h : s.length < n) :
    (strncpy s n).val = s ++ 0 :: List.replicate (n - s.length - 1) 0 := by
  unfold strncpy
  simp only
  rw [List.take_append, List.take_of_length_le (Nat.le_of_lt h), List.take_replicate,
    Nat.min_eq_left (Nat.sub_le _ _), ← List.replicate_succ, Nat.sub_add_cancel (Nat.sub_pos_of_lt h)]

theorem strncpy_of_eq {s : List UInt8} {n : Nat} (h : s.length = n) :
    (strncpy s n).val = s := by
  unfold strncpy
  simp only
  rw [List.take_append_of_le_length (Nat.le_of_eq h.symm), ← h, List.take_length]

/-- A string that fills its field goes on with what lies behind it. -/
theorem readString_field {s : List UInt8} {n : Nat} (hs : 0 ∉ s) (h : s.length ≤ n)
    (rest : List UInt8) :
    readString ((strncpy s n).val ++ rest) = if s.length < n then s else s ++ readString rest := by
  split
  · rename_i hlt
    rw [strncpy_of_lt hlt, List.append_assoc, List.cons_append, readString_append_zero hs]
  · rw [strncpy_of_eq (by omega), readString_append hs]

theorem readString_field_iff {s : List UInt8} {n : Nat} (hs : 0 ∉ s) (h : s.length ≤ n)
    (rest : List UInt8) :
    readString ((strncpy s n).val ++ rest) = s ↔ s.length < n ∨ readString rest = [] := by
  rw [readString_field hs h]
  split
  · rename_i hlt
    simp [hlt]
  · rename_i hge
    simp [hge]

/-- The signature has no NUL in it. -/
theorem readString_signature (after : List UInt8) :
    readString (longBytes rebootSignature ++ after) ≠ [] := by
  rw [readString_append (by decide)]
  intro h
  exact absurd (List.append_eq_nil_iff.mp h).1 (by decide)

/-- What is read at a field is empty when the string in it is. -/
theorem readString_field_nil {s : List UInt8} {n : Nat} (hs : 0 ∉ s) (h : s.length ≤ n)
    (hn : 0 < n) (rest : List UInt8) : readString ((strncpy s n).val ++ rest) = [] ↔ s = [] := by
  constructor
  · intro hread
    rw [readString_field hs h] at hread
    split at hread
    · exact hread
    · exact (List.append_eq_nil_iff.mp hread).1
  · intro hnil
    rw [hnil, readString_field List.not_mem_nil (Nat.zero_le n), List.length_nil, if_pos hn]

/-! ## The block comes back -/

theorem takeMegabytes_signatures (s : BootState) (mb : Int) :
    (takeMegabytes s mb).value.reboot.signature1 = s.reboot.signature1 ∧
      (takeMegabytes s mb).value.reboot.signature2 = s.reboot.signature2 := by
  unfold takeMegabytes
  simp only [Checked.value_bind, Checked.value_pure, and_self]

theorem takeParamSize_signatures (s : BootState) :
    (takeParamSize s).value.reboot.signature1 = s.reboot.signature1 ∧
      (takeParamSize s).value.reboot.signature2 = s.reboot.signature2 := by
  unfold takeParamSize
  split
  · exact takeMegabytes_signatures s _
  · split
    · exact takeMegabytes_signatures s _
    · exact ⟨rfl, rfl⟩

theorem takeRebootSize_reboot (s : BootState) : (takeRebootSize s).value.reboot = s.reboot := by
  unfold takeRebootSize
  split
  · rw [Checked.value_bind, Checked.value_bind, Checked.value_pure]
  · rw [Checked.value_pure]

/-- The signatures stand in the block from the start on. -/
theorem enterMilo_signatures (s : BootState) (block : MiloReboot) :
    (enterMilo s block).signature1 = rebootSignature ∧
      (enterMilo s block).signature2 = rebootSignature := by
  unfold enterMilo setupBootArguments
  simp only
  by_cases h : (clearZeroPage { s with reboot := block.toRebootBlock }).Rebooting
  · rw [if_pos h]
    simp only [Checked.value_bind, Checked.value_pure, if_true, takeRebootSize_reboot]
    exact h.2
  · rw [if_neg h]
    simp only [Checked.value_bind, Checked.value_pure, Bool.false_eq_true, if_false]
    exact takeParamSize_signatures _

/-- A block with its signatures is left as it is at the next start. -/
theorem reenterMilo_self (s : BootState) {block : MiloReboot}
    (hsig : block.signature1 = rebootSignature ∧ block.signature2 = rebootSignature) :
    reenterMilo s block = block := by
  unfold reenterMilo enterMilo
  rw [setupBootArguments_restart ⟨rfl, hsig⟩]
  simp only [Checked.value_bind, Checked.value_pure, if_true, takeRebootSize_reboot]
  rfl

/-- A command that was saved after a start is started at the next one. -/
theorem startedCommand_saveCommand (bootDev : List UInt8) {block : MiloReboot}
    (hsig : block.signature1 = rebootSignature ∧ block.signature2 = rebootSignature)
    (command : BootCommand) (s : BootState) (after : List UInt8) :
    startedCommand (reenterMilo s (saveCommand bootDev block command)) after =
      some (reboot (saveCommand bootDev block command) after) := by
  have hflag : (block.flags ||| rebootReboot) &&& rebootReboot ≠ 0 := by
    unfold rebootReboot
    rw [Nat.and_one_is_mod]
    simp
  have hkept : reenterMilo s (saveCommand bootDev block command) =
      saveCommand bootDev block command := reenterMilo_self s hsig
  rw [hkept]
  unfold startedCommand
  exact if_pos hflag

/-- The command `back` starts what `command` started, with the variable
BOOT_DEV as it is at each of the two starts. -/
structure SameBoot (bootDev bootDev' : List UInt8) (command back : BootCommand) : Prop where
  fsType : back.fsType = command.fsType
  device : deviceNameToNumber bootDev' back.devname = deviceNameToNumber bootDev command.devname
  filename : back.filename = command.filename
  bootString : back.bootString = command.bootString

/-- A boot is repeated at the next start exactly when no type of file system was
given, the device can be named, the boot string leaves room for its NUL, and the
file name does too or is followed by an empty boot string. -/
theorem reboot_sameBoot_iff (bootDev bootDev' : List UInt8) (s s' : BootState)
    (block : MiloReboot) (fsType : Option (List UInt8))
    (devname filename string after : List UInt8)
    (hdevice : deviceNameToNumber bootDev devname ≠ -1)
    (hfilename : 0 ∉ filename ∧ filename.length ≤ 32) (hstring : 0 ∉ string ∧ string.length ≤ 64) :
    (∃ back,
        startedCommand (reenterMilo s'
          (saveCommand bootDev (enterMilo s block) ⟨fsType, devname, filename, some string⟩)) after =
          some back ∧
        SameBoot bootDev bootDev' ⟨fsType, devname, filename, some string⟩ back) ↔
      fsType = none ∧ Nameable (fillDisk bootDev devname) ∧
        (filename.length < 32 ∨ string = []) ∧ string.length < 64 := by
  have hsig := enterMilo_signatures s block
  generalize enterMilo s block = started at hsig
  rw [startedCommand_saveCommand bootDev hsig]
  simp only [Option.some.injEq, exists_eq_left']
  have hname := readString_field_iff hfilename.1 hfilename.2
    (fromString (saveCommand bootDev started ⟨fsType, devname, filename, some string⟩) after)
  have hafter : fromString
      (saveCommand bootDev started ⟨fsType, devname, filename, some string⟩) after =
        (strncpy string 64).val ++ (longBytes rebootSignature ++ after) := by
    rw [← hsig.2]
    rfl
  have hargs := readString_field_iff hstring.1 hstring.2 (longBytes rebootSignature ++ after)
  rw [or_iff_left (readString_signature after), ← hafter] at hargs
  rw [hafter, readString_field_nil hstring.1 hstring.2 (by decide), ← hafter] at hname
  have hnumber := devName_asUnsigned_iff bootDev bootDev' devname hdevice
  rw [← devName_mod] at hnumber
  constructor
  · intro hsame
    exact ⟨hsame.fsType.symm.trans (reboot_fsType _ _), hnumber.mp hsame.device,
      hname.mp hsame.filename, hargs.mp (Option.some.inj hsame.bootString)⟩
  · intro ⟨htype, hable, hfile, hlong⟩
    exact ⟨(reboot_fsType _ _).trans htype.symm, hnumber.mpr hable, hname.mpr hfile,
      congrArg some (hargs.mpr hlong)⟩

/-- A block of zeros and the state of a machine that was switched on. -/
def switchedOn : BootState × MiloReboot :=
  (⟨0, ⟨0, 0, 0, 0⟩, fun _ => 0, fun _ => 0, 0⟩,
    ⟨⟨0, 0, 0, 0⟩, 0, 0, strncpy [] 32, strncpy [] 64⟩)

/-- `boot` of a kernel from `hda3` with the argument `ro`. -/
def bootVml (fsType : Option (List UInt8)) : BootCommand :=
  ⟨fsType, ascii ['h', 'd', 'a', '3'], ascii ['v', 'm', 'l'], some (ascii ['r', 'o'])⟩

/-- A kernel that was booted without a type is booted again. -/
theorem reboot_sameBoot_untyped :
    ∃ back,
      startedCommand (reenterMilo switchedOn.1
        (saveCommand [] (enterMilo switchedOn.1 switchedOn.2) (bootVml none))) [] = some back ∧
      SameBoot [] [] (bootVml none) back :=
  (reboot_sameBoot_iff [] [] switchedOn.1 switchedOn.1 switchedOn.2 none
    (ascii ['h', 'd', 'a', '3']) (ascii ['v', 'm', 'l']) (ascii ['r', 'o']) []
    (by decide +kernel) ⟨by decide, by decide⟩ ⟨by decide, by decide⟩).mpr
    ⟨rfl, ⟨0x300, by decide +kernel, by decide +kernel, by decide +kernel⟩,
      Or.inl (by decide), by decide⟩

/-- The type `ext2` is lost, and a boot string of 64 characters goes on with the
signature. -/
theorem ext2_is_lost :
    (¬ ∃ back,
      startedCommand (reenterMilo switchedOn.1
        (saveCommand [] (enterMilo switchedOn.1 switchedOn.2)
          (bootVml (some (ascii ['e', 'x', 't', '2']))))) [] = some back ∧
      SameBoot [] [] (bootVml (some (ascii ['e', 'x', 't', '2']))) back) ∧
      readString (fromString (saveCommand [] (enterMilo switchedOn.1 switchedOn.2)
          ⟨none, [], [], some (List.replicate 64 0x61)⟩) []) =
        List.replicate 64 0x61 ++ [0x4d, 0x49, 0x44, 0x4f, 0x4f, 0x44, 0x49, 0x4d] := by
  refine ⟨?_, by decide +kernel⟩
  intro ⟨back, hback, hsame⟩
  rw [startedCommand_saveCommand [] (enterMilo_signatures _ _), Option.some.injEq] at hback
  have htype := hsame.fsType
  rw [← hback, reboot_fsType] at htype
  exact absurd htype (by decide)

end Milo.Boot
