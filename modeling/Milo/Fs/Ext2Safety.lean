import Milo.Foundation.Guarded
import Milo.Fs.Ext2Geometry

/-! # What a super block can make the reader do

The counts of a super block are divisors, and its groups bound the index of the
group that an inode number leads to. The reader checks none of them, so only some
volumes are safe for every inode number that a directory may hold.
-/

namespace Milo.Fs.Ext2

open Foundation
open Foundation.Guarded

/-! ## The guarded reader -/

/-- `ext2_iget` with its two divisions and its look at `gds` guarded. -/
def guardedIget (r : Reader) (ino : Nat) : Guarded (Option Nat × Reader) :=
  match firstFree Slot.free r.slots 0 maxOpenFiles with
  | none => .ok (none, r)
  | some _ => do
      let group ← divide (sub32 ino 1) r.vol.inodesPerGroup
      access group 1 r.vol.inodeTables.length
      let _ ← remainder (sub32 ino 1) r.vol.inodesPerGroup
      .ok (ext2Iget r ino)

theorem guardedIget_eq {r : Reader} {ino : Nat} {x : Option Nat × Reader}
    (h : guardedIget r ino = .ok x) : x = ext2Iget r ino := by
  unfold guardedIget at h
  split at h
  · rename_i hfull
    cases h
    rw [ext2Iget, hfull]
  · simp only [bind_eq_ok] at h
    obtain ⟨group, -, u, -, place, -, hx⟩ := h
    exact (Except.ok.inj hx).symm

section
variable {vol : Volume}

end

section
variable {drive : Drive} {t : Nat}

end

/-! ## A deleted entry -/

end Milo.Fs.Ext2
