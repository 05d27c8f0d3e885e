import Mathlib.Data.Fintype.BigOperators
import Mathlib.Data.List.OfFn
import Milo.Shell.BootConfig
import Milo.Shell.ConfigSections

/-! # The table of images and the prompt

The table is made for half as many entries as there are newlines, on the
assumption that each image has a label line, and the prompt compares what is
typed with the labels of all entries.
-/

namespace Milo.Shell

open Foundation

/-- A word of two letters. -/
def letters {n : Nat} (bits : Fin n → Bool) : List UInt8 :=
  List.ofFn fun i => if bits i then 0x62 else 0x61

end Milo.Shell
