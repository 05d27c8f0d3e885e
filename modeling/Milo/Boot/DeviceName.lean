import Milo.Boot.Atoi

/-! # Names of devices

One table gives each device name its number. `device_name_to_number` adds a
partition number to it, and `dev_name` takes the last four bits of a number for
the partition and looks the rest up.
-/

namespace Milo.Boot

open Foundation

/-! ## The table -/

/-- A string given by its characters. -/
def ascii (cs : List Char) : List UInt8 := cs.map fun c => UInt8.ofNat c.toNat

/-- `devnames` with their `devnums`. -/
def devices : List (List UInt8 × Nat) :=
  [(ascii ['h', 'd', 'a'], 0x300), (ascii ['h', 'd', 'b'], 0x340),
    (ascii ['h', 'd', 'c'], 0x1600), (ascii ['h', 'd', 'd'], 0x1640),
    (ascii ['s', 'd', 'a'], 0x800), (ascii ['s', 'd', 'b'], 0x810),
    (ascii ['s', 'd', 'c'], 0x820), (ascii ['s', 'd', 'd'], 0x830),
    (ascii ['s', 'd', 'e'], 0x840), (ascii ['f', 'd'], 0x200),
    (ascii ['x', 'd', 'a'], 0xD00), (ascii ['x', 'd', 'b'], 0xD40),
    (ascii ['s', 'r'], 0x0B00), (ascii ['s', 'c', 'd'], 0x0B00),
    (ascii ['s', 'd', 'f'], 0x850), (ascii ['s', 'd', 'g'], 0x860),
    (ascii ['s', 'd', 'h'], 0x870), (ascii ['f', 'l', 'o', 'p', 'p', 'y'], 0x200),
    (ascii ['c', 'd', 'r', 'o', 'm'], 0x0B00)]

def devnums : List Nat := devices.map Prod.snd

/-! ## From numbers to names -/

/-- `dev_name` -/
def devName (device : Nat) : List UInt8 :=
  let number := device &&& 0xf
  let device := device &&& 0xfff0
  match devices.find? (fun d => decide (device = d.2)) with
  | some d => d.1 ++ [UInt8.ofNat (0x30 + number)]
  | none => ascii ['v', 'o', 'i', 'd']

/-! ## From names to numbers -/

/-- `strncmp(a, b, n) == 0`, for strings without their NUL. -/
def agreeUpTo (a b : List UInt8) : Nat → Bool
  | 0 => true
  | n + 1 =>
      a.headD 0 == b.headD 0 && (a.headD 0 == 0 || agreeUpTo a.tail b.tail n)

/-- The length of a name without the digits it ends in, at most `len`. -/
def trueLength (name : List UInt8) : Nat → Nat
  | 0 => 0
  | len + 1 => if isDigit (name.getD len 0) then trueLength name len else len + 1

/-- The number in the table for a name of which `len` characters count. -/
def findDevice (name : List UInt8) (len : Nat) : Option Nat :=
  (devices.find? fun d => agreeUpTo d.1 name len).map Prod.snd

/-- The partition number at the end of a name. -/
def partitionNumber (name : List UInt8) : Int :=
  let digits := name.drop (trueLength name name.length)
  if digits ≠ [] then (atoi digits).value else 0

/-- `device_name_to_number` after the default device is filled in. -/
def parseName (name : List UInt8) : Int :=
  match findDevice name (trueLength name name.length) with
  | some device => toInt (device + partitionNumber name)
  | none => -1

/-- The names `disk` and `disc` stand for the device in BOOT_DEV, or else the
one that was configured. -/
def fillDisk (bootDev name : List UInt8) : List UInt8 :=
  if name = ascii ['d', 'i', 's', 'k'] ∨ name = ascii ['d', 'i', 's', 'c'] then bootDev
  else name

/-- `device_name_to_number` -/
def deviceNameToNumber (bootDev name : List UInt8) : Int := parseName (fillDisk bootDev name)

/-- A device number as `dev_name` receives it. -/
def asUnsigned (n : Int) : Nat := (n % 2 ^ 32).toNat

/-! ## What a name means -/

theorem drop_trueLength_digits (name : List UInt8) (len : Nat) (hlen : len ≤ name.length)
    (h : (name.drop len).all isDigit = true) :
    (name.drop (trueLength name len)).all isDigit = true := by
  induction len with
  | zero => exact h
  | succ len ih =>
      unfold trueLength
      split
      · rename_i hdigit
        have hlt : len < name.length := hlen
        rw [List.getD_eq_getElem?_getD, List.getElem?_eq_getElem hlt, Option.getD_some] at hdigit
        apply ih (Nat.le_of_lt hlt)
        rw [List.drop_eq_getElem_cons hlt, List.all_cons, hdigit, h]
        rfl
      · exact h

/-- The value of the digits a name ends in. -/
def partitionDigits (name : List UInt8) : Nat :=
  decimal (name.drop (trueLength name name.length))

theorem partitionNumber_eq (name : List UInt8) :
    partitionNumber name = toInt (partitionDigits name) := by
  have hdigits := drop_trueLength_digits name name.length (Nat.le_refl _) (by simp)
  unfold partitionNumber partitionDigits
  simp only
  split
  · exact atoi_digits hdigits
  · rename_i hnone
    rw [Classical.not_not.mp hnone]
    decide

theorem parseName_eq {name : List UInt8} {device : Nat}
    (h : findDevice name (trueLength name name.length) = some device) :
    parseName name = toInt (device + partitionDigits name : Nat) := by
  unfold parseName
  rw [h, partitionNumber_eq, Int.natCast_add, Int.add_comm]
  simp only
  rw [Int.add_comm, toInt_toInt_add, Int.add_comm]

theorem toInt_mod (n : Nat) : toInt (n % 2 ^ 32 : Nat) = toInt n := by
  unfold toInt
  rw [Int.natCast_emod]
  exact Int.emod_bmod _ _

theorem asUnsigned_toInt (n : Nat) : asUnsigned (toInt n) = n % 2 ^ 32 := by
  unfold asUnsigned toInt
  rw [Int.bmod_def]
  omega

/-! ## Names that come back -/

/-- The names that `dev_name` makes, parsed one by one over the table. -/
theorem deviceNameToNumber_named (bootDev : List UInt8) :
    ∀ d ∈ devices, ∀ r < 16,
      deviceNameToNumber bootDev (d.1 ++ [UInt8.ofNat (0x30 + r)]) =
        if r ≤ 9 then (d.2 + r : Int) else -1 := by
  have hdisk : ∀ d ∈ devices, ∀ r < 16,
      ¬ (d.1 ++ [UInt8.ofNat (0x30 + r)] = ascii ['d', 'i', 's', 'k'] ∨
        d.1 ++ [UInt8.ofNat (0x30 + r)] = ascii ['d', 'i', 's', 'c']) := by decide +kernel
  have hparse : ∀ d ∈ devices, ∀ r < 16,
      parseName (d.1 ++ [UInt8.ofNat (0x30 + r)]) = if r ≤ 9 then (d.2 + r : Int) else -1 := by
    decide +kernel
  intro d hd r hr
  unfold deviceNameToNumber fillDisk
  rw [if_neg (hdisk d hd r hr), hparse d hd r hr]

theorem deviceNameToNumber_void (bootDev : List UInt8) :
    deviceNameToNumber bootDev (ascii ['v', 'o', 'i', 'd']) = -1 := by
  unfold deviceNameToNumber fillDisk
  rw [if_neg (by decide)]
  decide +kernel

/-- What `dev_name` prints is a number of 16 bits whose last hexadecimal digit
is a decimal one. -/
theorem deviceNameToNumber_devName (bootDev : List UInt8) (device : Nat) :
    deviceNameToNumber bootDev (devName device) =
      if device % 16 ≤ 9 ∧ device / 16 % 2 ^ 12 * 16 ∈ devnums then
        ((device % 2 ^ 16 : Nat) : Int)
      else -1 := by
  have hnumber : device &&& 0xf = device % 16 := Nat.and_two_pow_sub_one_eq_mod device 4
  have hdevice : device &&& 0xfff0 = device / 16 % 2 ^ 12 * 16 := and_field_eq device 4 12
  have hlast : device % 16 < 16 := Nat.mod_lt _ (by decide)
  unfold devName
  simp only
  rw [hnumber, hdevice]
  split
  · rename_i d hfind
    have hd : d ∈ devices := List.mem_of_find?_eq_some hfind
    have heq : device / 16 % 2 ^ 12 * 16 = d.2 := by
      simpa using List.find?_some hfind
    have hmem : d.2 ∈ devnums := List.mem_map_of_mem hd
    rw [deviceNameToNumber_named bootDev d hd _ hlast, heq]
    simp only [hmem, and_true]
    split
    · omega
    · rfl
  · rename_i hfind
    rw [deviceNameToNumber_void, if_neg]
    rintro ⟨_, hmem⟩
    obtain ⟨d, hd, heq⟩ := List.mem_map.mp hmem
    have hnone := List.find?_eq_none.mp hfind d hd
    exact hnone (by simp [heq])

theorem devnums_aligned : ∀ n ∈ devnums, n % 16 = 0 ∧ n < 2 ^ 16 := by decide

/-- A number comes back when its upper part is in the table and its last digit
is a decimal one. -/
theorem devName_roundTrip_iff (bootDev : List UInt8) {n : Nat} (hn : n < 2 ^ 32)
    (hknown : toInt n ≠ -1) :
    deviceNameToNumber bootDev (devName n) = toInt n ↔ n % 16 ≤ 9 ∧ n / 16 * 16 ∈ devnums := by
  have hunsigned := asUnsigned_toInt n
  rw [Nat.mod_eq_of_lt hn] at hunsigned
  rw [deviceNameToNumber_devName]
  constructor
  · intro hback
    split at hback
    · rename_i hok
      have hsmall : n < 2 ^ 16 := by
        rw [← hback] at hunsigned
        unfold asUnsigned at hunsigned
        clear hback hknown
        omega
      have hupper : n / 16 % 2 ^ 12 * 16 = n / 16 * 16 := by
        clear hback hknown hunsigned
        omega
      rwa [hupper] at hok
    · exact absurd hback.symm hknown
  · rintro ⟨hlast, hentry⟩
    have hsmall := (devnums_aligned _ hentry).2
    have hupper : n / 16 % 2 ^ 12 * 16 = n / 16 * 16 := by omega
    have hself : toInt n = n := toInt_of_inInt (inInt_iff.mpr (by omega))
    rw [hupper, if_pos ⟨hlast, hentry⟩, hself, Nat.mod_eq_of_lt (by omega)]

/-- The device number of a name is one that `dev_name` can print: what is
above the last hexadecimal digit leads to an entry of the table. -/
def Nameable (name : List UInt8) : Prop :=
  ∃ device, findDevice name (trueLength name name.length) = some device ∧
    partitionDigits name % 16 ≤ 9 ∧
      (device + partitionDigits name / 16 * 16) % 2 ^ 32 ∈ devnums

/-- Only the last 16 bits of a number count. -/
theorem devName_mod (device : Nat) : devName (device % 2 ^ 16) = devName device := by
  have hlow : device % 2 ^ 16 &&& 0xf = device &&& 0xf := by
    rw [Nat.and_two_pow_sub_one_eq_mod _ 4, Nat.and_two_pow_sub_one_eq_mod _ 4]
    omega
  have hupper : device % 2 ^ 16 &&& 0xfff0 = device &&& 0xfff0 := by
    have hshort : device % 2 ^ 16 &&& 0xfff0 = device % 2 ^ 16 / 16 % 2 ^ 12 * 16 :=
      and_field_eq (device % 2 ^ 16) 4 12
    have hlong : device &&& 0xfff0 = device / 16 % 2 ^ 12 * 16 := and_field_eq device 4 12
    rw [hshort, hlong]
    omega
  unfold devName
  rw [hlow, hupper]

/-- A name that is understood is printed as a name of the same device exactly
when its number can be printed. -/
theorem devName_asUnsigned_iff (bootDev bootDev' s : List UInt8)
    (hknown : deviceNameToNumber bootDev s ≠ -1) :
    deviceNameToNumber bootDev' (devName (asUnsigned (deviceNameToNumber bootDev s))) =
        deviceNameToNumber bootDev s ↔
      Nameable (fillDisk bootDev s) := by
  unfold Nameable
  cases hfind : findDevice (fillDisk bootDev s)
      (trueLength (fillDisk bootDev s) (fillDisk bootDev s).length) with
  | none =>
      refine absurd ?_ hknown
      unfold deviceNameToNumber parseName
      rw [hfind]
  | some device =>
      have hvalue : deviceNameToNumber bootDev s = _ := parseName_eq hfind
      have hmem : device ∈ devnums := by
        obtain ⟨d, hd, heq⟩ := Option.map_eq_some_iff.mp hfind
        exact heq ▸ List.mem_map_of_mem (List.mem_of_find?_eq_some hd)
      have haligned := (devnums_aligned device hmem).1
      rw [hvalue, ← toInt_mod] at hknown ⊢
      generalize partitionDigits (fillDisk bootDev s) = digits at hknown ⊢
      have hlast : (device + digits) % 2 ^ 32 % 16 = digits % 16 := by
        clear hknown
        omega
      have hupper : (device + digits) % 2 ^ 32 / 16 * 16 =
          (device + digits / 16 * 16) % 2 ^ 32 := by
        clear hknown
        omega
      have hlt : (device + digits) % 2 ^ 32 < 2 ^ 32 := Nat.mod_lt _ (by decide)
      rw [asUnsigned_toInt, Nat.mod_mod, devName_roundTrip_iff bootDev' hlt hknown, hlast, hupper]
      simp only [Option.some.injEq, exists_eq_left']

/-- A name that is understood is understood again after `dev_name` exactly when
its number can be printed. -/
theorem deviceNameToNumber_roundTrip_iff (bootDev s : List UInt8)
    (hknown : deviceNameToNumber bootDev s ≠ -1) :
    deviceNameToNumber bootDev (devName (asUnsigned (deviceNameToNumber bootDev s))) =
        deviceNameToNumber bootDev s ↔
      Nameable (fillDisk bootDev s) := devName_asUnsigned_iff bootDev bootDev s hknown

/-- `hda3` comes back. -/
theorem deviceNameToNumber_roundTrip_hda :
    deviceNameToNumber [] (devName (asUnsigned (deviceNameToNumber [] (ascii ['h', 'd', 'a', '3'])))) =
      deviceNameToNumber [] (ascii ['h', 'd', 'a', '3']) :=
  (deviceNameToNumber_roundTrip_iff [] (ascii ['h', 'd', 'a', '3']) (by decide +kernel)).mpr
    ⟨0x300, by decide +kernel, by decide +kernel, by decide +kernel⟩

/-- `sda10` is printed as `sda:`, which is no device. -/
theorem devName_sda10 :
    deviceNameToNumber [] (ascii ['s', 'd', 'a', '1', '0']) = 0x80a ∧
      devName (asUnsigned 0x80a) = ascii ['s', 'd', 'a', ':'] ∧
      deviceNameToNumber [] (devName (asUnsigned 0x80a)) = -1 := by
  decide +kernel

end Milo.Boot
