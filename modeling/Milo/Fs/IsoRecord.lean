import Milo.Fs.IsoInode

/-! # The record that an iso9660 inode is read from

`isofs_iget` joins a record that goes on in the next block. Of the record it takes
as many bytes as the length says that it reads from the wrong block, and what is
missing is what the buffer held before. The inode is right whatever that is
exactly if none of its fields is read from there.
-/

namespace Milo.Fs.Isofs

open Foundation

/-! ## The bytes of the fields -/

/-- Where the flags are. -/
def flagsAt (sb : IsofsSb) : Nat := recFlags - if sb.highSierra then 1 else 0

/-- The size of a record, would it not be interleaved. -/
def plainSize (sb : IsofsSb) (raw : ByteMemory) : Int :=
  (recordSize sb (Function.update raw recInterleave 0)).1

/-- How many bytes of a record the fields of its inode are read from. Of a name
they are the ones up to its first `.` or `;`. The name of a directory is not
looked at, and one without bytes has the same size whether it is interleaved or
not. -/
def fieldBytes (sb : IsofsSb) (raw : ByteMemory) : Nat :=
  if recordFlags sb raw &&& 2 ≠ 0 then
    if plainSize sb raw = 0 then flagsAt sb + 1 else recInterleave + 1
  else
    recName + min (raw recNameLen).toNat (findDot raw 0 (raw recNameLen).toNat + 1)

/-- Two records of which the same inode is made. -/
structure SameFields (sb : IsofsSb) (raw raw' : ByteMemory) : Prop where
  extent : recordExtent sb raw = recordExtent sb raw'
  size : (recordSize sb raw).1 = (recordSize sb raw').1
  mode : recordMode sb raw = recordMode sb raw'

theorem findDot_bounds (raw : ByteMemory) (i n : Nat) :
    i ≤ findDot raw i n ∧ findDot raw i n ≤ i + n := by
  induction n generalizing i with
  | zero => exact ⟨Nat.le_refl i, Nat.le_refl i⟩
  | succ n ih =>
      rw [findDot]
      split
      · omega
      · have hrest := ih (i + 1)
        omega

/-- Nothing behind the first `.` or `;` is looked at. -/
theorem findDot_congr {raw raw' : ByteMemory} {i n : Nat}
    (h : ∀ k, i ≤ k → k < i + n → k ≤ findDot raw i n → raw' (recName + k) = raw (recName + k)) :
    findDot raw' i n = findDot raw i n := by
  induction n generalizing i with
  | zero => rfl
  | succ n ih =>
      have hfirst := h i (Nat.le_refl i) (by omega) (findDot_bounds raw i (n + 1)).1
      rw [findDot, findDot, hfirst]
      split
      · rfl
      · rename_i hother
        refine ih fun k hlo hhi hk => h k (by omega) (by omega) ?_
        rwa [findDot, if_neg hother]

theorem findDot_eq {raw : ByteMemory} {i n k : Nat} (hlo : i ≤ k) (hhi : k < i + n)
    (hbefore : ∀ m, i ≤ m → m < k → ¬ (raw (recName + m) = 0x2e ∨ raw (recName + m) = 0x3b))
    (hat : raw (recName + k) = 0x2e ∨ raw (recName + k) = 0x3b) : findDot raw i n = k := by
  induction n generalizing i with
  | zero => omega
  | succ n ih =>
      rw [findDot]
      by_cases hk : i = k
      · rw [if_pos (hk ▸ hat), hk]
      · rw [if_neg (hbefore i (Nat.le_refl i) (by omega))]
        exact ih (by omega) (by omega) fun m hm => hbefore m (by omega)

theorem findDot_before {raw : ByteMemory} {i n k : Nat} (hlo : i ≤ k) (hhi : k < findDot raw i n) :
    ¬ (raw (recName + k) = 0x2e ∨ raw (recName + k) = 0x3b) := by
  induction n generalizing i with
  | zero =>
      rw [findDot] at hhi
      omega
  | succ n ih =>
      rw [findDot] at hhi
      split at hhi
      · omega
      · rename_i hother
        by_cases hk : i = k
        · rwa [← hk]
        · exact ih (by omega) hhi

theorem isonum733_eq {raw raw' : ByteMemory} {k : Nat} (hk : k + 4 ≤ recName)
    (h : ∀ j < k + 4, raw j = raw' j) : isonum733 raw k = isonum733 raw' k := by
  unfold recName at hk
  exact readLe_congr 4 (by omega) (by omega) fun i hi => h (k + i) (by omega)

theorem plainSize_congr {sb : IsofsSb} {raw raw' : ByteMemory}
    (h : ∀ j < recSize + 4, raw j = raw' j) : plainSize sb raw = plainSize sb raw' := by
  have hword : isonum733 (Function.update raw recInterleave 0) recSize =
      isonum733 (Function.update raw' recInterleave 0) recSize := by
    refine isonum733_eq (by decide) fun j hj => ?_
    have hne : j ≠ recInterleave := by
      unfold recSize at hj
      unfold recInterleave
      omega
    rw [Function.update_of_ne hne, Function.update_of_ne hne, h j hj]
  unfold plainSize recordSize
  simp only [hword, Function.update_self]

theorem recordSize_eq (sb : IsofsSb) (raw : ByteMemory) :
    (recordSize sb raw).1 = if raw recInterleave ≠ 0 then 0 else plainSize sb raw := by
  split
  · rename_i hgap
    unfold recordSize
    simp only
    rw [if_pos hgap]
  · rename_i hgap
    rw [not_not] at hgap
    unfold plainSize
    rw [← hgap, Function.update_eq_self]

theorem flagsAt_le (sb : IsofsSb) : flagsAt sb ≤ recFlags := Nat.sub_le _ _

theorem recordFlags_eq (sb : IsofsSb) (raw : ByteMemory) :
    recordFlags sb raw = (raw (flagsAt sb)).toNat := rfl

theorem flagsAt_lt_fieldBytes (sb : IsofsSb) (raw : ByteMemory) :
    flagsAt sb < fieldBytes sb raw := by
  have hflags := flagsAt_le sb
  unfold fieldBytes recName recInterleave
  unfold recFlags at hflags
  split
  · split <;> omega
  · omega

/-- A file is executable if its name has no period. -/
def Executable (raw : ByteMemory) : Prop :=
  findDot raw 0 (raw recNameLen).toNat = (raw recNameLen).toNat ∨
    raw (recName + findDot raw 0 (raw recNameLen).toNat) = 0x3b

instance (raw : ByteMemory) : Decidable (Executable raw) := inferInstanceAs (Decidable (_ ∨ _))

theorem recordMode_file {sb : IsofsSb} {raw : ByteMemory} (hfile : recordFlags sb raw &&& 2 = 0) :
    recordMode sb raw =
      if Executable raw then sIrugo ||| sIfreg ||| sIxugo else sIrugo ||| sIfreg := by
  unfold recordMode
  rw [if_neg (not_not.mpr hfile)]
  rfl

theorem recordMode_executable {sb : IsofsSb} {raw raw' : ByteMemory}
    (hfile : recordFlags sb raw &&& 2 = 0) (hfile' : recordFlags sb raw' &&& 2 = 0)
    (h : recordMode sb raw = recordMode sb raw') : Executable raw ↔ Executable raw' := by
  rw [recordMode_file hfile, recordMode_file hfile'] at h
  by_cases hraw : Executable raw
  · by_cases hraw' : Executable raw'
    · exact iff_of_true hraw hraw'
    · rw [if_pos hraw, if_neg hraw'] at h
      exact absurd h (by decide)
  · by_cases hraw' : Executable raw'
    · rw [if_neg hraw, if_pos hraw'] at h
      exact absurd h (by decide)
    · exact iff_of_false hraw hraw'

/-! ## What the fields need -/

/-- Records with the same bytes there make the same inode. -/
theorem sameFields_of_agree {sb : IsofsSb} {raw raw' : ByteMemory}
    (h : ∀ j < fieldBytes sb raw, raw' j = raw j) : SameFields sb raw' raw := by
  have hflags := flagsAt_lt_fieldBytes sb raw
  have hmin : 24 ≤ flagsAt sb := by
    unfold flagsAt recFlags
    split <;> omega
  have hsame : recordFlags sb raw' = recordFlags sb raw := by
    rw [recordFlags_eq, recordFlags_eq, h _ hflags]
  have hplain : plainSize sb raw' = plainSize sb raw :=
    plainSize_congr fun j hj => h j (by unfold recSize at hj; omega)
  refine ⟨?_, ?_, ?_⟩
  · unfold recordExtent isonum711
    rw [isonum733_eq (by decide) fun j hj => h j (by unfold recExtent at hj; omega),
      h _ (by unfold recExtAttrLength; omega)]
  · rw [recordSize_eq, recordSize_eq, hplain]
    by_cases hzero : plainSize sb raw = 0
    · rw [hzero, ite_self, ite_self]
    · rw [h recInterleave]
      unfold fieldBytes recInterleave recName
      rw [if_neg hzero]
      split <;> omega
  · by_cases hdir : recordFlags sb raw &&& 2 ≠ 0
    · unfold recordMode
      rw [hsame, if_pos hdir, if_pos hdir]
    · have hbytes : fieldBytes sb raw =
          recName + min (raw recNameLen).toNat (findDot raw 0 (raw recNameLen).toNat + 1) := by
        unfold fieldBytes
        rw [if_neg hdir]
      have hlen : raw' recNameLen = raw recNameLen := by
        apply h
        unfold recName at hbytes
        unfold recNameLen at hbytes ⊢
        omega
      have hdot : findDot raw' 0 (raw recNameLen).toNat = findDot raw 0 (raw recNameLen).toNat :=
        findDot_congr fun k _ hk hdot => h _ (by omega)
      have hfile := not_not.mp hdir
      rw [recordMode_file (hsame ▸ hfile), recordMode_file hfile]
      refine if_congr ?_ rfl rfl
      unfold Executable
      rw [hlen, hdot]
      by_cases hend : findDot raw 0 (raw recNameLen).toNat = (raw recNameLen).toNat
      · exact iff_of_true (Or.inl hend) (Or.inl hend)
      · have hbound := (findDot_bounds raw 0 (raw recNameLen).toNat).2
        rw [h _ (by omega)]

theorem agree_update (raw : ByteMemory) {n k : Nat} (hk : n ≤ k) (c : UInt8) :
    ∀ j < n, Function.update raw k c j = raw j :=
  fun j hj => Function.update_of_ne (by omega) c raw

/-- A file with a name of `len` bytes, the `k`-th of which is the first `.` or `;`. -/
theorem executable_at {raw : ByteMemory} {k : Nat} (hk : k < (raw recNameLen).toNat)
    (hbefore : ∀ m < k, ¬ (raw (recName + m) = 0x2e ∨ raw (recName + m) = 0x3b))
    (hat : raw (recName + k) = 0x2e ∨ raw (recName + k) = 0x3b) :
    Executable raw ↔ raw (recName + k) = 0x3b := by
  have hdot : findDot raw 0 (raw recNameLen).toNat = k :=
    findDot_eq (Nat.zero_le k) (by omega) (fun m _ hm => hbefore m hm) hat
  unfold Executable
  rw [hdot]
  exact or_iff_right (by omega)

theorem exists_other_name {sb : IsofsSb} {raw : ByteMemory} {n : Nat} (hflags : flagsAt sb < n)
    (hn : n < recName + min (raw recNameLen).toNat (findDot raw 0 (raw recNameLen).toNat + 1)) :
    ∃ raw', (∀ j < n, raw' j = raw j) ∧ (Executable raw' ↔ ¬ Executable raw) := by
  by_cases hlength : n ≤ recNameLen
  · by_cases hexec : Executable raw
    · -- a name of one period
      have hagree : ∀ j < n,
          Function.update (Function.update raw recNameLen 1) recName 0x2e j = raw j := by
        intro j hj
        have hrecName : n ≤ recName := Nat.le_succ_of_le hlength
        rw [agree_update _ hrecName _ j hj, agree_update _ hlength _ j hj]
      have hone : Function.update (Function.update raw recNameLen 1) recName 0x2e recNameLen = 1 := by
        rw [Function.update_of_ne (by decide), Function.update_self]
      have hperiod : Function.update (Function.update raw recNameLen 1) recName 0x2e (recName + 0) =
          0x2e := Function.update_self ..
      refine ⟨_, hagree, iff_of_false ?_ (not_not.mpr hexec)⟩
      rw [executable_at (by rw [hone]; decide) (fun m hm => absurd hm (Nat.not_lt_zero m))
        (Or.inl hperiod), hperiod]
      decide
    · -- no name at all
      exact ⟨_, agree_update raw hlength 0, iff_of_true (Or.inl rfl) hexec⟩
  · -- the first byte that is not known is a period or a semicolon
    obtain ⟨k, rfl⟩ : ∃ k, n = recName + k := ⟨n - recName, by
      unfold recNameLen at hlength
      unfold recName
      omega⟩
    have hname : recNameLen ≠ recName + k := by
      unfold recNameLen recName
      omega
    have hother : ∀ c, (c = 0x2e ∨ c = 0x3b) →
        (Executable (Function.update raw (recName + k) c) ↔ c = 0x3b) := by
      intro c hc
      rw [executable_at (k := k), Function.update_self]
      · rw [Function.update_of_ne hname]
        omega
      · intro m hm
        rw [Function.update_of_ne (by omega)]
        exact findDot_before (Nat.zero_le m)
          (show m < findDot raw 0 (raw recNameLen).toNat by omega)
      · rwa [Function.update_self]
    by_cases hexec : Executable raw
    · exact ⟨_, agree_update raw (Nat.le_refl _) 0x2e,
        iff_of_false (mt (hother _ (Or.inl rfl)).mp (by decide)) (not_not.mpr hexec)⟩
    · exact ⟨_, agree_update raw (Nat.le_refl _) 0x3b,
        iff_of_true ((hother _ (Or.inr rfl)).mpr rfl) hexec⟩

/-- Otherwise there is a record that agrees with it and makes another inode. -/
theorem exists_other_fields {sb : IsofsSb} {raw : ByteMemory} {n : Nat}
    (hn : n < fieldBytes sb raw) :
    ∃ raw', (∀ j < n, raw' j = raw j) ∧ ¬ SameFields sb raw' raw := by
  by_cases hflags : n ≤ flagsAt sb
  · -- the other one is a directory if and only if this one is not
    have hother : ∃ c : UInt8, (c.toNat &&& 2 != 0) = !isDir (recordMode sb raw) := by
      cases isDir (recordMode sb raw) with
      | true => exact ⟨0, rfl⟩
      | false => exact ⟨2, rfl⟩
    obtain ⟨c, hc⟩ := hother
    refine ⟨_, agree_update raw hflags c, fun h => ?_⟩
    have hmode := congrArg isDir h.mode
    rw [isDir_recordMode, recordFlags_eq, Function.update_self, hc] at hmode
    exact (Bool.not_eq_self _).mp hmode
  · have hlt : flagsAt sb < n := by omega
    have hsame : ∀ raw', (∀ j < n, raw' j = raw j) → recordFlags sb raw' = recordFlags sb raw := by
      intro raw' h
      rw [recordFlags_eq, recordFlags_eq, h _ hlt]
    by_cases hdir : recordFlags sb raw &&& 2 ≠ 0
    · -- the other one is interleaved if and only if this one is not
      unfold fieldBytes at hn
      rw [if_pos hdir] at hn
      split at hn
      · omega
      · rename_i hsize
        have hagree := agree_update raw (n := n) (k := recInterleave) (by omega)
          (if raw recInterleave = 0 then 1 else 0)
        refine ⟨_, hagree, fun h => ?_⟩
        have hplain : plainSize sb (Function.update raw recInterleave
            (if raw recInterleave = 0 then 1 else 0)) = plainSize sb raw := by
          unfold plainSize
          rw [Function.update_idem]
        have heq := h.size
        rw [recordSize_eq, recordSize_eq, Function.update_self, hplain] at heq
        by_cases hgap : raw recInterleave = 0
        · rw [if_pos hgap, if_pos (by decide), if_neg (not_not.mpr hgap)] at heq
          exact hsize heq.symm
        · rw [if_neg hgap, if_neg (by decide), if_pos hgap] at heq
          exact hsize heq
    · unfold fieldBytes at hn
      rw [if_neg hdir] at hn
      obtain ⟨raw', hagree, hexec⟩ := exists_other_name hlt hn
      have hfile := not_not.mp hdir
      refine ⟨raw', hagree, fun h => ?_⟩
      have hiff := recordMode_executable (hsame raw' hagree ▸ hfile) hfile h.mode
      tauto

/-- A record that agrees with this one in its first `n` bytes makes the same inode,
whatever the others are, exactly if all the fields are read from these. -/
theorem fieldBytes_le_iff (sb : IsofsSb) (raw : ByteMemory) (n : Nat) :
    fieldBytes sb raw ≤ n ↔ ∀ stale, SameFields sb (fill stale 0 raw n) raw := by
  constructor
  · exact fun h stale => sameFields_of_agree fun j hj => fill_start stale raw (by omega)
  · intro h
    by_contra hlt
    obtain ⟨raw', hagree, hother⟩ := exists_other_fields (Nat.lt_of_not_le hlt)
    have hfill : fill raw' 0 raw n = raw' := by
      funext j
      by_cases hj : j < n
      · rw [fill_start raw' raw hj, hagree j hj]
      · exact fill_outside (by rw [Span.mem_mk]; omega)
    exact hother (hfill ▸ h raw')

/-! ## The inode -/

/-- An inode that is returned has extent, size and mode of the record at `ino`, and
none is returned only if there is no slot for it or its record cannot be read. -/
def FillsInode (drive : Drive) (t : Nat) (s : State) (ino : Nat) : Prop :=
  match isofsIget drive t s ino with
  | none => False
  | some (none, _) =>
      freeSlot s.table 0 maxOpenFiles = none ∨
        ¬ ReadsBlock (drive.device t) (ino / blocksize) ∨
        GoesOn drive.contents ino ∧ ¬ ReadsBlock (drive.device (t + 1)) (ino / blocksize + 1)
  | some (some slot, s') =>
      (s'.table slot).firstExtent = recordExtent s.sb (rawAt drive.contents ino) ∧
        (s'.table slot).size = (recordSize s.sb (rawAt drive.contents ino)).1 ∧
        (s'.table slot).mode = recordMode s.sb (rawAt drive.contents ino)

/-- Of what is given the inode is made. -/
theorem fillsInode_given {drive : Drive} {t ino slot : Nat} {s s' : State} {raw : ByteMemory}
    (hfree : freeSlot s.table 0 maxOpenFiles = some slot) (hino : ino < 2 ^ 31)
    (hraw : rawInode drive t s ino = some (some raw, s')) (hsb : s'.sb = s.sb) :
    FillsInode drive t s ino ↔ SameFields s.sb raw (rawAt drive.contents ino) := by
  unfold FillsInode isofsIget
  simp only [hfree, s32_of_lt hino, hraw, Function.update_self, hsb]
  exact ⟨fun ⟨hextent, hsize, hmode⟩ => ⟨hextent, hsize, hmode⟩,
    fun ⟨hextent, hsize, hmode⟩ => ⟨hextent, hsize, hmode⟩⟩

theorem fillsInode_iff {drive : Drive} {t ino slot : Nat} {s : State}
    (hfree : freeSlot s.table 0 maxOpenFiles = some slot) (hino : ino < 2 ^ 31) :
    FillsInode drive t s ino ↔
      ¬ ReadsBlock (drive.device t) (ino / blocksize) ∨
      (¬ GoesOn drive.contents ino ∧
        SameFields s.sb (fill (fun i => s.dataBlock (ino % blocksize + i)) 0
          (rawAt drive.contents ino) (blocksize - ino % blocksize)) (rawAt drive.contents ino)) ∨
      (GoesOn drive.contents ino ∧
        (¬ ReadsBlock (drive.device (t + 1)) (ino / blocksize + 1) ∨
          blocksize ≤ ino % blocksize + nextLength drive.contents ino ∧
            SameFields s.sb (fill s.bigDataBlock 0 (rawAt drive.contents ino)
              (nextLength drive.contents ino)) (rawAt drive.contents ino))) := by
  have hcases := rawInode_cases drive t s hino
  have hnone : ∀ s', rawInode drive t s ino = some (none, s') →
      (FillsInode drive t s ino ↔ ¬ ReadsBlock (drive.device t) (ino / blocksize) ∨
        GoesOn drive.contents ino ∧
          ¬ ReadsBlock (drive.device (t + 1)) (ino / blocksize + 1)) := by
    intro s' hraw
    unfold FillsInode isofsIget
    simp only [hfree, s32_of_lt hino, hraw, reduceCtorEq, false_or]
  generalize hraw : rawInode drive t s ino = result at hcases
  cases hcases with
  | unread s' hfail => exact iff_of_true ((hnone s' hraw).mpr (Or.inl hfail)) (Or.inl hfail)
  | restUnread s' hread hgoes hfail =>
      exact iff_of_true ((hnone s' hraw).mpr (Or.inr ⟨hgoes, hfail⟩))
        (Or.inr (Or.inr ⟨hgoes, Or.inl hfail⟩))
  | stuck hread hgoes hrest hshort =>
      have hnot : ¬ blocksize ≤ ino % blocksize + nextLength drive.contents ino := by omega
      refine iff_of_false (fun h => ?_) (by tauto)
      unfold FillsInode isofsIget at h
      simp only [hfree, s32_of_lt hino, hraw] at h
  | here s' hread hstay hsb htable hbig =>
      rw [fillsInode_given hfree hino hraw hsb]
      tauto
  | joined s' hread hgoes hrest hlong hsb htable hbig =>
      rw [fillsInode_given hfree hino hraw hsb, hbig]
      tauto

/-- The inode is filled from the record at `ino`, whatever the buffers held before,
exactly if all its fields lie in the bytes that are read of the record. -/
theorem isofsIget_fills_iff (drive : Drive) (t : Nat) (sb : IsofsSb) (table : Nat → InodeEntry)
    {ino : Nat} (hino : ino < 2 ^ 31) :
    (∀ data big, FillsInode drive t ⟨sb, data, big, table⟩ ino) ↔
      freeSlot table 0 maxOpenFiles = none ∨
        ¬ ReadsBlock (drive.device t) (ino / blocksize) ∨
        (¬ GoesOn drive.contents ino ∧
          ino % blocksize + fieldBytes sb (rawAt drive.contents ino) ≤ blocksize) ∨
        (GoesOn drive.contents ino ∧
          (¬ ReadsBlock (drive.device (t + 1)) (ino / blocksize + 1) ∨
            blocksize ≤ ino % blocksize + nextLength drive.contents ino ∧
              fieldBytes sb (rawAt drive.contents ino) ≤ nextLength drive.contents ino)) := by
  cases hfree : freeSlot table 0 maxOpenFiles with
  | none =>
      refine iff_of_true (fun data big => ?_) (Or.inl rfl)
      unfold FillsInode isofsIget
      simp only [hfree]
      exact Or.inl trivial
  | some slot =>
      have hmod := Nat.mod_lt ino (show 0 < blocksize by decide)
      have hhere := fieldBytes_le_iff sb (rawAt drive.contents ino) (blocksize - ino % blocksize)
      have hjoined := fieldBytes_le_iff sb (rawAt drive.contents ino) (nextLength drive.contents ino)
      -- the bytes behind `data_block`, or what `big_data_block` held
      have hstale : (∀ data : ByteMemory, SameFields sb (fill (fun i => data (ino % blocksize + i)) 0
          (rawAt drive.contents ino) (blocksize - ino % blocksize)) (rawAt drive.contents ino)) ↔
          ∀ stale, SameFields sb (fill stale 0 (rawAt drive.contents ino)
            (blocksize - ino % blocksize)) (rawAt drive.contents ino) := by
        refine ⟨fun h stale => ?_, fun h data => h _⟩
        have hdata := h fun i => stale (i - ino % blocksize)
        simpa only [Nat.add_sub_cancel_left] using hdata
      rw [← hhere] at hstale
      have hall : (∀ data big, FillsInode drive t ⟨sb, data, big, table⟩ ino) ↔
          ∀ data big : ByteMemory, _ := forall₂_congr fun data big =>
            fillsInode_iff (s := ⟨sb, data, big, table⟩) hfree hino
      rw [hall]
      by_cases hread : ReadsBlock (drive.device t) (ino / blocksize)
      · by_cases hgoes : GoesOn drive.contents ino
        · simp only [hread, hgoes, not_true_eq_false, false_and, true_and, false_or, reduceCtorEq,
            forall_const, forall_or_left, forall_and, ← hjoined]
        · simp only [hread, hgoes, not_true_eq_false, not_false_eq_true, false_and, true_and,
            false_or, or_false, reduceCtorEq, forall_const, hstale]
          omega
      · exact iff_of_true (fun _ _ => Or.inl hread) (Or.inr (Or.inl hread))

/-! ## A directory whose record goes on in the next block -/

/-- The record of 34 bytes lies in the last 24 bytes of block 40 and the first 10 of
block 41, where `next` is what lies in its place. -/
def recordDrive (next : UInt8) : Drive :=
  (Device.sound (image [(41960, 34), (41962, 24), (41971, 8), (41985, 2), (41992, 1),
    (42984, next)])).drive

/-- No inode is in use. -/
def idleState : State :=
  ⟨⟨false, 11, false, 0⟩, fun _ => 0, fun _ => 0, fun _ => ⟨0, 0, 0, 0, 0, true⟩⟩

/-- The directory is taken for a file, or the second copy has a negative length. -/
theorem straddling_record_misread :
    recName + ((recordDrive 24).contents (41960 + recNameLen)).toNat =
        recLength (recordDrive 24).contents 41960 ∧
      recIsDir idleState.sb (recordDrive 24).contents 41960 = true ∧
      (isofsIget (recordDrive 24) 0 idleState 41960).map
        (fun (slot, s) => slot.map fun slot => (s.table slot).mode) =
          some (some (sIrugo ||| sIfreg ||| sIxugo)) ∧
      isofsIget (recordDrive 0) 0 idleState 41960 = none ∧
      ¬ FillsInode (recordDrive 24) 0 idleState 41960 ∧
      ¬ FillsInode (recordDrive 0) 0 idleState 41960 := by
  have hfree : freeSlot idleState.table 0 maxOpenFiles = some 0 := by decide +kernel
  have hmode : (isofsIget (recordDrive 24) 0 idleState 41960).map
      (fun (slot, s) => slot.map fun slot => (s.table slot).mode) =
        some (some (sIrugo ||| sIfreg ||| sIxugo)) := by decide +kernel
  have hstuck : (isofsIget (recordDrive 0) 0 idleState 41960).isNone = true := by decide +kernel
  rw [Option.isNone_iff_eq_none] at hstuck
  refine ⟨by decide +kernel, by decide +kernel, hmode, hstuck, ?_, ?_⟩
  · intro h
    have hright : recordMode idleState.sb (rawAt (recordDrive 24).contents 41960) =
        sIrugo ||| sIxugo ||| sIfdir := by decide +kernel
    unfold FillsInode at h
    cases hresult : isofsIget (recordDrive 24) 0 idleState 41960 with
    | none =>
        rw [hresult] at hmode
        cases hmode
    | some result =>
        rw [hresult] at hmode h
        obtain ⟨slot, s⟩ := result
        cases slot with
        | none => cases hmode
        | some slot =>
            have hwrong : (s.table slot).mode = sIrugo ||| sIfreg ||| sIxugo :=
              Option.some.inj (Option.some.inj hmode)
            have hboth := h.2.2
            rw [hwrong, hright] at hboth
            exact absurd hboth (by decide)
  · unfold FillsInode
    rw [hstuck]
    exact id

/-- The same record where the byte in its place is larger. -/
theorem straddling_record_filled :
    fieldBytes idleState.sb (rawAt (recordDrive 200).contents 41960) = recInterleave + 1 ∧
      ∀ data big,
        FillsInode (recordDrive 200) 0 ⟨idleState.sb, data, big, idleState.table⟩ 41960 :=
  ⟨by decide +kernel,
    (isofsIget_fills_iff (recordDrive 200) 0 idleState.sb idleState.table (by decide)).mpr
      (Or.inr (Or.inr (Or.inr ⟨by decide +kernel, Or.inr (by decide +kernel)⟩)))⟩

end Milo.Fs.Isofs
