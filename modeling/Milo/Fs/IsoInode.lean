import Milo.Fs.IsoScan

/-! # Reading an iso9660 inode

`isofs_iget` reads the record of a file once more. The length of a record that
goes on in the next block is looked up in that block, at the place that it had in
the first one; the bytes that are missing then are still in `big_data_block` if
the record was found there.
-/

namespace Milo.Fs.Isofs

open Foundation

/-! ## The record in the buffers -/

theorem rest_byte (a j : Nat) :
    (a / blocksize + 1) * blocksize + j = a + (blocksize - a % blocksize + j) := by
  have hlt : a % blocksize < blocksize := Nat.mod_lt a (by decide)
  have hdiv := Nat.div_add_mod' a blocksize
  rw [Nat.succ_mul]
  omega

/-- The record goes on in the next block. -/
def GoesOn (contents : ByteMemory) (a : Nat) : Prop :=
  blocksize < a % blocksize + recLength contents a

instance (contents : ByteMemory) (a : Nat) : Decidable (GoesOn contents a) :=
  inferInstanceAs (Decidable (_ < _))

/-- The byte that is taken for its length then. -/
def nextLength (contents : ByteMemory) (a : Nat) : Nat := (contents (a + blocksize)).toNat

section
variable {drive : Drive} {t a : Nat} {s : State}

theorem fill_block (mem contents : ByteMemory) (a j : Nat) :
    fill mem 0 (fun i => contents (a / blocksize * blocksize + i)) blocksize (a % blocksize + j) =
      fill (fun i => mem (a % blocksize + i)) 0 (rawAt contents a) (blocksize - a % blocksize) j := by
  have hmod := Nat.mod_lt a (show 0 < blocksize by decide)
  by_cases hj : a % blocksize + j < blocksize
  · rw [fill_start mem _ hj, fill_start _ _ (by omega), ← Nat.add_assoc, Nat.div_add_mod']
    rfl
  · rw [fill_outside (by rw [Span.mem_mk]; omega), fill_outside (by rw [Span.mem_mk]; omega)]

theorem fill_rest {big first second contents : ByteMemory} {n : Nat}
    (hfirst : ∀ j, a % blocksize + j < blocksize → first (a % blocksize + j) = contents (a + j))
    (hsecond : ∀ j < blocksize,
      second j = contents (a + (blocksize - a % blocksize + j)))
    (hle : blocksize ≤ a % blocksize + n) (hn : n < 256) :
    fill (fill big 0 (fun i => first (a % blocksize + i)) (blocksize - a % blocksize))
        (blocksize - a % blocksize) second (a % blocksize + n - blocksize) =
      fill big 0 (rawAt contents a) n := by
  have hmod := Nat.mod_lt a (show 0 < blocksize by decide)
  funext j
  by_cases hbefore : j < blocksize - a % blocksize
  · rw [fill_outside (by rw [Span.mem_mk]; omega), fill_start _ _ hbefore,
      fill_start _ _ (by omega), hfirst j (by omega)]
    rfl
  · by_cases hinside : j < n
    · have hsplit : j = blocksize - a % blocksize + (j - (blocksize - a % blocksize)) := by omega
      rw [fill_start big _ hinside, hsplit, fill_inside (by omega), hsecond _ (by unfold blocksize at *; omega)]
      rfl
    · rw [fill_outside (by rw [Span.mem_mk]; omega), fill_outside (by rw [Span.mem_mk]; omega),
        fill_outside (by rw [Span.mem_mk]; omega)]

/-- What `rawInode` gives, and what it leaves alone. -/
inductive RawCases (drive : Drive) (t a : Nat) (s : State) :
    Option (Option ByteMemory × State) → Prop where
  | unread (s' : State) (hfail : ¬ ReadsBlock (drive.device t) (a / blocksize)) :
      RawCases drive t a s (some (none, s'))
  | here (s' : State) (hread : ReadsBlock (drive.device t) (a / blocksize))
      (hstay : ¬ GoesOn drive.contents a) (hsb : s'.sb = s.sb) (htable : s'.table = s.table)
      (hbig : s'.bigDataBlock = s.bigDataBlock) :
      RawCases drive t a s (some (some (fill (fun i => s.dataBlock (a % blocksize + i)) 0
        (rawAt drive.contents a) (blocksize - a % blocksize)), s'))
  | restUnread (s' : State) (hread : ReadsBlock (drive.device t) (a / blocksize))
      (hgoes : GoesOn drive.contents a)
      (hfail : ¬ ReadsBlock (drive.device (t + 1)) (a / blocksize + 1)) :
      RawCases drive t a s (some (none, s'))
  | stuck (hread : ReadsBlock (drive.device t) (a / blocksize)) (hgoes : GoesOn drive.contents a)
      (hrest : ReadsBlock (drive.device (t + 1)) (a / blocksize + 1))
      (hshort : a % blocksize + nextLength drive.contents a < blocksize) :
      RawCases drive t a s none
  | joined (s' : State) (hread : ReadsBlock (drive.device t) (a / blocksize))
      (hgoes : GoesOn drive.contents a)
      (hrest : ReadsBlock (drive.device (t + 1)) (a / blocksize + 1))
      (hlong : blocksize ≤ a % blocksize + nextLength drive.contents a)
      (hsb : s'.sb = s.sb) (htable : s'.table = s.table)
      (hbig : s'.bigDataBlock =
        fill s.bigDataBlock 0 (rawAt drive.contents a) (nextLength drive.contents a)) :
      RawCases drive t a s (some (some s'.bigDataBlock, s'))

theorem rawInode_cases (drive : Drive) (t : Nat) (s : State) (ha : a < 2 ^ 31) :
    RawCases drive t a s (rawInode drive t s a) := by
  have hmod := Nat.mod_lt a (show 0 < blocksize by decide)
  have hdiv := Nat.div_le_self a blocksize
  have hblock : ((a : Int) / (blocksize : Nat)) = ((a / blocksize : Nat) : Int) := rfl
  have hoffset : ((a : Int) % (blocksize : Nat)).toNat = a % blocksize := rfl
  have hcast : ((a / blocksize : Nat) : Int) + 1 = ((a / blocksize + 1 : Nat) : Int) := rfl
  obtain ⟨hok, hbytes⟩ := isofsBread_eq (drive.device t) (show a / blocksize < 2 ^ 32 by omega)
    s.dataBlock
  unfold rawInode
  simp only [hblock, hoffset, hcast]
  by_cases hread : ReadsBlock (drive.device t) (a / blocksize)
  · rw [if_neg (by rw [hok.mpr hread]; decide)]
    have hfirst : ∀ j, (isofsBread (drive.device t) ((a / blocksize : Nat) : Int) s.dataBlock 0).2
        (a % blocksize + j) = fill (fun i => s.dataBlock (a % blocksize + i)) 0
          (rawAt drive.contents a) (blocksize - a % blocksize) j := by
      intro j
      rw [hbytes hread]
      exact fill_block s.dataBlock drive.contents a j
    generalize (isofsBread (drive.device t) ((a / blocksize : Nat) : Int) s.dataBlock 0).2 = first
      at hfirst ⊢
    have hlength : first (a % blocksize) = drive.contents a := by
      have hbyte := hfirst 0
      rwa [fill_start _ _ (by omega), Nat.add_zero] at hbyte
    obtain ⟨hok', hbytes'⟩ := isofsBread_eq (drive.device (t + 1))
      (show a / blocksize + 1 < 2 ^ 32 by omega) first
    rw [hlength]
    split
    · rename_i hgoes
      by_cases hrest : ReadsBlock (drive.device (t + 1)) (a / blocksize + 1)
      · rw [if_neg (by rw [hok'.mpr hrest]; decide)]
        have hsecond : ∀ j < blocksize,
            (isofsBread (drive.device (t + 1)) ((a / blocksize + 1 : Nat) : Int) first 0).2 j =
              drive.contents (a + (blocksize - a % blocksize + j)) := by
          intro j hj
          rw [hbytes' hrest, fill_start _ _ hj]
          exact congrArg drive.contents (rest_byte a j)
        generalize (isofsBread (drive.device (t + 1)) ((a / blocksize + 1 : Nat) : Int) first 0).2 =
          second at hsecond ⊢
        have hnext : (second (a % blocksize)).toNat = nextLength drive.contents a := by
          rw [hsecond _ hmod]
          unfold nextLength
          congr 3
          omega
        rw [hnext]
        split
        · rename_i hshort
          exact .stuck hread hgoes hrest hshort
        · rename_i hlong
          have hjoin := @fill_rest a s.bigDataBlock first second drive.contents
            (nextLength drive.contents a)
            (fun j hj => by rw [hfirst j, fill_start _ _ (by omega)]; rfl) hsecond (by omega)
            (drive.contents (a + blocksize)).toNat_lt
          exact .joined ⟨s.sb, second, _, s.table⟩ hread hgoes hrest (by omega) rfl rfl hjoin
      · rw [if_pos (Bool.eq_false_iff.mpr (mt hok'.mp hrest))]
        exact .restUnread _ hread hgoes hrest
    · rename_i hstay
      have hraw := funext hfirst
      rw [hraw]
      exact .here _ hread hstay rfl rfl rfl
  · rw [if_pos (Bool.eq_false_iff.mpr (mt hok.mp hread))]
    exact .unread _ hread

end

/-! ## Records that can be read -/

/-- The record ends in the block that it starts in, or the byte of the next block
that is taken for its length makes a size that can be copied. -/
def Copied (contents : ByteMemory) (a : Nat) : Prop :=
  a % blocksize + recLength contents a ≤ blocksize ∨
    blocksize ≤ a % blocksize + (contents (a + blocksize)).toNat

instance (contents : ByteMemory) (a : Nat) : Decidable (Copied contents a) :=
  inferInstanceAs (Decidable (_ ∨ _))

/-- If the record at `a` crosses, its header is in `big_data_block`. -/
def HeaderKept (r : Reader) (a : Nat) : Prop :=
  Crosses r.drive.contents a → ∀ j < recName, r.bigDataBlock j = r.drive.contents (a + j)

theorem HeaderKept.of_same {r r' : Reader} {a : Nat} (h : HeaderKept r a)
    (hbig : r'.bigDataBlock = r.bigDataBlock) (hdrive : r'.drive = r.drive) : HeaderKept r' a := by
  unfold HeaderKept
  rw [hbig, hdrive]
  exact h

theorem isDir_recordMode (sb : IsofsSb) (raw : ByteMemory) :
    isDir (recordMode sb raw) = (recordFlags sb raw &&& 2 != 0) := by
  unfold recordMode
  simp only
  split
  · rename_i hdir
    rw [bne_iff_ne.mpr hdir]
    decide
  · rename_i hfile
    have hbit : (recordFlags sb raw &&& 2 != 0) = false := by simpa using hfile
    rw [hbit]
    split <;> decide

/-- The inode of the record at `a`. -/
structure InodeOf (sb : IsofsSb) (contents : ByteMemory) (a : Nat) (entry : InodeEntry) : Prop where
  number : entry.inumber = a
  extent : entry.firstExtent = recBase sb contents a
  size : entry.size = recBytes contents a
  mode : isDir entry.mode = recIsDir sb contents a

/-- A record that can be read: it is as long as its name, it is on the disc, and
it is not interleaved. -/
structure Sound (sb : IsofsSb) (contents : ByteMemory) (a : Nat) : Prop where
  place : a < 2 ^ 31
  long : recName ≤ recLength contents a
  inside : recBase sb contents a + recBytes contents a ≤ 700000000
  plain : contents (a + recInterleave) = 0

end Milo.Fs.Isofs
