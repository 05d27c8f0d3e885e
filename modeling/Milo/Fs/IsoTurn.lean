import Milo.Fs.IsoName

/-! # One turn of the loop over an iso9660 directory

`isofs_find_entry` looks at one record in each turn of its loop, or goes on in the
next sector at a byte of zero. The records are read through `data_block`, and one
that does not end before its block is put together in `big_data_block`.
-/

namespace Milo.Fs.Isofs

open Foundation

/-! ## A record where it lies -/

/-- What a scan leaves alone. -/
structure Keeps (r r' : Reader) : Prop where
  sb : r'.sb = r.sb
  drive : r'.drive = r.drive
  table : r'.table = r.table

theorem Keeps.refl (r : Reader) : Keeps r r := ⟨rfl, rfl, rfl⟩

theorem Keeps.trans {r r' r'' : Reader} (h : Keeps r r') (h' : Keeps r' r'') : Keeps r r'' :=
  ⟨h'.sb.trans h.sb, h'.drive.trans h.drive, h'.table.trans h.table⟩

theorem keeps_setBuffer (r : Reader) (big : Bool) (buf : ByteMemory) :
    Keeps r (r.setBuffer big buf) := by
  unfold Reader.setBuffer
  split <;> exact ⟨rfl, rfl, rfl⟩

@[simp] theorem setBuffer_buffer (r : Reader) (big : Bool) (buf : ByteMemory) :
    (r.setBuffer big buf).buffer big = buf := by
  cases big <;> rfl

@[simp] theorem setBuffer_other (r : Reader) (big : Bool) (buf : ByteMemory) :
    (r.setBuffer big buf).buffer (!big) = r.buffer (!big) := by
  cases big <;> rfl

/-- The record at `a` of the disc lies at `de` of a buffer. -/
def Agrees (contents : ByteMemory) (a : Nat) (buf : ByteMemory) (de : Nat) : Prop :=
  ∀ j < recName + (contents (a + recNameLen)).toNat, buf (de + j) = contents (a + j)

theorem Agrees.identifier {contents buf : ByteMemory} {a de : Nat} (h : Agrees contents a buf de) :
    bytesAt buf (de + recName) (buf (de + recNameLen)).toNat = recIdentifier contents a := by
  have hlength := h recNameLen (by unfold recNameLen recName; omega)
  rw [hlength]
  unfold recIdentifier
  refine bytesAt_congr fun i hi => ?_
  rw [Nat.add_assoc, h (recName + i) (by omega), Nat.add_assoc]

theorem recordFlags_congr {sb : IsofsSb} {raw raw' : ByteMemory}
    (h : ∀ j < recName, raw j = raw' j) : recordFlags sb raw = recordFlags sb raw' := by
  unfold recordFlags
  rw [h _ (by unfold recFlags recName; omega)]

/-- The number and the number for `..` with which a record is found. -/
def foundAs (sb : IsofsSb) (itp : InodeEntry) (a : Nat) (identifier : List UInt8) : Nat × Nat :=
  if identifier = [0] then (itp.inumber, 0)
  else if identifier = [1] then
    (if sb.rootInode ≠ itp.inumber then itp.backlink else itp.inumber, 0)
  else (a, itp.inumber)

/-- The number 0xffffffff stands for an entry that is not found. -/
def entryOf (entry : Nat × Nat) : Option (Nat × Nat) :=
  if entry.1 = 0xffffffff then none else some entry

/-- Whether the scan stops at a record. -/
def recHits (sb : IsofsSb) (contents : ByteMemory) (name : List UInt8) (a : Nat) : Bool :=
  recVisible sb contents a && nameHits name (recIdentifier contents a)

/-- Whether `isofs_match` takes a record for the one with the name. -/
def recTaken (sb : IsofsSb) (contents : ByteMemory) (name : List UInt8) (a : Nat) : Bool :=
  recVisible sb contents a &&
    nameMatches name (comparedName name (mapIdentifier (recIdentifier contents a)))

/-- What the check of a record leaves of the two buffers. -/
structure CheckKeeps (r : Reader) (place : Place) (contents : ByteMemory) (a : Nat) (r' : Reader) :
    Prop where
  keeps : Keeps r r'
  reads : r'.t = r.t
  other : r'.buffer (!place.big) = r.buffer (!place.big)
  header : ∀ j < recName, r'.buffer place.big (place.de + j) = r.buffer place.big (place.de + j)
  behind : ∀ x, place.de + recName + (contents (a + recNameLen)).toNat ≤ x →
    r'.buffer place.big x = r.buffer place.big x

theorem setBuffer_t (r : Reader) (big : Bool) (buf : ByteMemory) : (r.setBuffer big buf).t = r.t := by
  cases big <;> rfl

theorem checkRecord_eq {r : Reader} {place : Place} {contents : ByteMemory} {a : Nat}
    (itp : InodeEntry) (number : Nat) (name : List UInt8)
    (hagree : Agrees contents a (r.buffer place.big) place.de) :
    ∃ r', checkRecord r itp place number name =
        (if recTaken r.sb contents name a = true then
            .found (entryOf (foundAs r.sb itp number (recIdentifier contents a)))
          else .next, r') ∧
      CheckKeeps r place contents a r' := by
  have hidentifier := hagree.identifier
  have hlen : (r.buffer place.big) (place.de + recNameLen) = contents (a + recNameLen) :=
    hagree recNameLen (by unfold recNameLen recName; omega)
  have hname := mapName_spec (r.buffer place.big) (place.de + recName) 0
    ((r.buffer place.big) (place.de + recNameLen)).toNat
  have hdot := singleton_iff (r.buffer place.big) (place.de + recName)
    ((r.buffer place.big) (place.de + recNameLen)).toNat
  rw [Nat.zero_add, Nat.zero_add, Nat.add_zero, hidentifier] at hname
  simp only [hidentifier] at hdot
  unfold checkRecord
  simp only
  generalize mapName (r.buffer place.big) (place.de + recName) _ 0 _ = mapped at hname ⊢
  have hkeeps := keeps_setBuffer r place.big mapped.2
  have hflags : recordFlags (r.setBuffer place.big mapped.2).sb
      (fun i => mapped.2 (place.de + i)) = recordFlags r.sb (rawAt contents a) := by
    rw [hkeeps.sb]
    refine recordFlags_congr fun j hj => ?_
    rw [hname.2.2 _ (Or.inl (by omega)), hagree j (by omega)]
    rfl
  have htaken : (¬ (recordFlags r.sb (rawAt contents a) &&& 5 ≠ 0) ∧
      isofsMatch name mapped.2 (place.de + recName)
        (dropPeriod mapped.2 (place.de + recName) mapped.1 name.length) = true) ↔
      recTaken r.sb contents name a = true := by
    rw [isofsMatch_eq, bytesAt_dropPeriod, hname.1, hname.2.1, not_not]
    unfold recTaken recVisible
    rw [Bool.and_eq_true, beq_iff_eq]
  rw [hflags, if_congr htaken rfl rfl]
  refine ⟨r.setBuffer place.big mapped.2, ?_, hkeeps, setBuffer_t r _ _, setBuffer_other r place.big _,
    fun j hj => ?_, fun x hx => ?_⟩
  · simp only [hdot]
    unfold entryOf foundAs
    by_cases hzero : recIdentifier contents a = [0]
    · simp only [hzero]
      split <;> rfl
    · by_cases hone : recIdentifier contents a = [1]
      · simp only [hone]
        split <;> rfl
      · simp only [hzero, hone, if_false, or_self]
        split <;> rfl
  · rw [setBuffer_buffer, hname.2.2 _ (Or.inl (by omega))]
  · rw [setBuffer_buffer, hname.2.2 _ (Or.inr (by rw [hlen]; exact hx))]

/-! ## Blocks -/

/-- Every read of the drive delivers all that it is asked for. -/
def AllReads (drive : Drive) : Prop := ∀ t, (drive.device t).Succeeds

/-- The device delivers all of a block. -/
def ReadsBlock (device : Device) (block : Nat) : Prop :=
  device.count (block * blocksize) blocksize = blocksize

instance (device : Device) (block : Nat) : Decidable (ReadsBlock device block) :=
  inferInstanceAs (Decidable (_ = _))

theorem isofsBread_eq (device : Device) {block : Nat} (hblock : block < 2 ^ 32) (mem : ByteMemory) :
    ((isofsBread device block mem 0).1 = true ↔ ReadsBlock device block) ∧
      (ReadsBlock device block → (isofsBread device block mem 0).2 =
        fill mem 0 (fun i => device.contents (block * blocksize + i)) blocksize) := by
  have hoffset : (((block : Int) * (blocksize : Nat)) % 2 ^ 64).toNat = block * blocksize := by
    unfold blocksize
    omega
  unfold isofsBread deviceRead ReadsBlock
  simp only [hoffset]
  refine ⟨beq_iff_eq, fun hread => ?_⟩
  rw [hread]

/-- A block that is read into `data_block`. -/
structure BlockRead (r : Reader) (block : Nat) (result : Bool × Reader) : Prop where
  ok : result.1 = true
  bytes : ∀ j < blocksize, result.2.dataBlock j = r.drive.contents (block * blocksize + j)
  big : result.2.bigDataBlock = r.bigDataBlock
  keeps : Keeps r result.2

theorem readBlock_read {r : Reader} {block : Nat} (hblock : block < 2 ^ 32)
    (hread : ReadsBlock (r.drive.device r.t) block) : BlockRead r block (readBlock r block) := by
  obtain ⟨hok, hbytes⟩ := isofsBread_eq (r.drive.device r.t) hblock r.dataBlock
  refine ⟨hok.mpr hread, fun j hj => ?_, rfl, ⟨rfl, rfl, rfl⟩⟩
  have hbyte := congrFun (hbytes hread) j
  rwa [fill_start _ _ hj] at hbyte

theorem readBlock_fails {r : Reader} {block : Nat} (hblock : block < 2 ^ 32)
    (hfail : ¬ ReadsBlock (r.drive.device r.t) block) : (readBlock r block).1 = false :=
  Bool.eq_false_iff.mpr (mt (isofsBread_eq (r.drive.device r.t) hblock r.dataBlock).1.mp hfail)

/-! ## Directories -/

/-- The directory of an inode, from the start of a block of the device on. -/
structure DirOn (itp : InodeEntry) (base size : Nat) : Prop where
  base_eq : itp.firstExtent = base
  size_eq : itp.size = size
  aligned : base % blocksize = 0
  positive : 0 < base
  place : base < 2 ^ 32
  short : size < 2 ^ 31

/-- The directory of an inode: where it lies, and how long it is. -/
structure DirAt (itp : InodeEntry) (base size : Nat) : Prop where
  base_eq : itp.firstExtent = base
  size_eq : itp.size = size
  aligned : base % isofsBlockSize = 0
  positive : 0 < base
  inside : base + size ≤ 700000000

theorem DirAt.on {itp : InodeEntry} {base size : Nat} (h : DirAt itp base size) :
    DirOn itp base size := by
  have hinside := h.inside
  have haligned := h.aligned
  unfold isofsBlockSize at haligned
  exact ⟨h.base_eq, h.size_eq, by unfold blocksize; omega, h.positive, by omega, by omega⟩

theorem DirOn.bmap {itp : InodeEntry} {base size : Nat} (h : DirOn itp base size) (fPos : Nat)
    (hfPos : fPos ≤ size + isofsBlockSize) :
    isofsBmap itp (fPos / blocksize : Nat) = (base + fPos) / blocksize := by
  have haligned := h.aligned
  have hplace := h.place
  have hshort := h.short
  unfold isofsBmap
  rw [if_neg (Int.not_lt.mpr (Int.natCast_nonneg _)), h.base_eq, Int.toNat_natCast,
    Nat.shiftRight_eq_div_pow]
  unfold isofsBlockSize at hfPos
  unfold blocksize at haligned ⊢
  rw [u32_of_lt (by omega)]
  omega

theorem DirOn.block_pos {itp : InodeEntry} {base size : Nat} (h : DirOn itp base size) (fPos : Nat) :
    (base + fPos) / blocksize ≠ 0 := by
  have haligned := h.aligned
  have hpositive := h.positive
  unfold blocksize at haligned ⊢
  omega

theorem DirOn.block_lt {itp : InodeEntry} {base size : Nat} (h : DirOn itp base size) {fPos : Nat}
    (hfPos : fPos ≤ size + isofsBlockSize) : (base + fPos) / blocksize < 2 ^ 32 := by
  have hplace := h.place
  have hshort := h.short
  unfold isofsBlockSize at hfPos
  unfold blocksize
  omega

theorem DirAt.nextSector {itp : InodeEntry} {base size : Nat} (h : DirAt itp base size)
    (fPos : Nat) : base + nextSector fPos = Isofs.nextSector (base + fPos) := by
  have haligned := h.aligned
  unfold Isofs.nextSector
  unfold isofsBlockSize at haligned ⊢
  omega

theorem nextSector_near (fPos : Nat) : nextSector fPos ≤ fPos + isofsBlockSize := by
  have hdiv := Nat.div_mul_le_self fPos isofsBlockSize
  unfold nextSector
  omega

/-- The block of a byte of the disc is in `data_block`, unchanged from there on. -/
structure ScanAt (r : Reader) (p offset block : Nat) : Prop where
  offset_eq : offset = p % blocksize
  block_eq : block = p / blocksize
  bytes : ∀ j, offset + j < blocksize → r.dataBlock (offset + j) = r.drive.contents (p + j)

theorem ScanAt.offset_lt {r : Reader} {p offset block : Nat} (h : ScanAt r p offset block) :
    offset < blocksize := by
  rw [h.offset_eq]
  exact Nat.mod_lt p (by decide)

theorem ScanAt.length {r : Reader} {p offset block : Nat} (h : ScanAt r p offset block) :
    (r.dataBlock offset).toNat = recLength r.drive.contents p := by
  have hbyte := h.bytes 0 h.offset_lt
  rw [Nat.add_zero, Nat.add_zero] at hbyte
  rw [hbyte]
  rfl

/-- The number of a record is the byte of the disc at which it starts. -/
theorem ScanAt.number {r : Reader} {p offset block : Nat} (h : ScanAt r p offset block) :
    u32 (block <<< 10 + offset % blocksize) = u32 p := by
  have hdiv : p / blocksize * 2 ^ 10 + p % blocksize = p := Nat.div_add_mod' p blocksize
  rw [Nat.shiftLeft_eq, Nat.mod_eq_of_lt h.offset_lt, h.block_eq, h.offset_eq, hdiv]

theorem BlockRead.scanAt {r : Reader} {p block : Nat} {result : Bool × Reader}
    (h : BlockRead r block result) (hblock : block = p / blocksize) :
    ScanAt result.2 p (p % blocksize) block := by
  refine ⟨rfl, hblock, fun j hj => ?_⟩
  rw [h.bytes _ hj, h.keeps.drive, hblock, ← Nat.add_assoc, Nat.div_add_mod']

/-- A record that does not end before the block that it starts in. -/
def Crosses (contents : ByteMemory) (a : Nat) : Prop :=
  blocksize ≤ a % blocksize + recLength contents a

instance (contents : ByteMemory) (a : Nat) : Decidable (Crosses contents a) :=
  inferInstanceAs (Decidable (_ ≤ _))

theorem recLength_lt (contents : ByteMemory) (a : Nat) : recLength contents a < 256 :=
  (contents a).toNat_lt

theorem not_crosses {contents : ByteMemory} {a : Nat}
    (h : (a + recLength contents a) / blocksize = a / blocksize) : ¬ Crosses contents a := by
  unfold Crosses
  have hpos : 0 < blocksize := by decide
  have hmod := Nat.div_add_mod' a blocksize
  have hmod' := Nat.div_add_mod' (a + recLength contents a) blocksize
  have hlt := Nat.mod_lt (a + recLength contents a) hpos
  rw [h] at hmod'
  omega

theorem ScanAt.nextBlock {r : Reader} {p offset block : Nat} (h : ScanAt r p offset block)
    (hcross : Crosses r.drive.contents p) :
    (p + recLength r.drive.contents p) / blocksize = block + 1 := by
  have hshort := recLength_lt r.drive.contents p
  unfold Crosses at hcross
  rw [h.block_eq]
  unfold blocksize at *
  omega

/-- The record in the two blocks that it lies in, put together in `big_data_block`. -/
theorem crossing_agrees {r : Reader} {p offset block : Nat} {s : Bool × Reader}
    (hat : ScanAt r p offset block) (hread : BlockRead (copyFirst r offset) (block + 1) s)
    (hcross : Crosses r.drive.contents p) :
    ∀ j < recLength r.drive.contents p,
      (copyRest s.2 (blocksize - offset)
        ((p + recLength r.drive.contents p) % blocksize)).bigDataBlock j =
          r.drive.contents (p + j) := by
  intro j hj
  have hpos : 0 < blocksize := by decide
  have hoffset := hat.offset_eq
  have hblock := hat.block_eq
  have hlt := Nat.mod_lt p hpos
  have hmod := Nat.div_add_mod' p blocksize
  have hlength : recLength r.drive.contents p < 256 := (r.drive.contents p).toNat_lt
  have hsecond : (p + recLength r.drive.contents p) % blocksize =
      offset + recLength r.drive.contents p - blocksize := by
    unfold Crosses at hcross
    unfold blocksize at *
    omega
  have hbig : s.2.bigDataBlock = fill r.bigDataBlock 0 (fun i => r.dataBlock (offset + i))
    (blocksize - offset) := hread.big
  have hp : block * blocksize + offset = p := by rw [hblock, hoffset, hmod]
  unfold copyRest
  simp only
  by_cases hfirst : j < blocksize - offset
  · rw [fill_outside (by rw [Span.mem_mk]; omega), hbig]
    rw [fill_start _ _ hfirst]
    exact hat.bytes j (by omega)
  · unfold Crosses at hcross
    have hsplit : j = blocksize - offset + (j - (blocksize - offset)) := by omega
    rw [hsplit, fill_inside (by omega), hread.bytes _ (by unfold blocksize at *; omega)]
    refine congrArg r.drive.contents ?_
    rw [Nat.succ_mul]
    omega

/-- Where a record is checked: in `big_data_block` if it crosses, else where it
was read; the scan goes on behind it. -/
structure Turn (r r' : Reader) (p : Nat) (place : Place) (offset block : Nat) : Prop where
  keeps : Keeps r r'
  reads : r'.t = r.t + if Crosses r.drive.contents p then 1 else 0
  agrees : ∀ j < recLength r.drive.contents p,
    r'.buffer place.big (place.de + j) = r.drive.contents (p + j)
  crossing : Crosses r.drive.contents p → place = ⟨true, 0⟩
  inside : ¬ Crosses r.drive.contents p →
    place.big = false ∧ r' = r ∧ offset = place.de + recLength r.drive.contents p
  scanAt : ScanAt r' (p + recLength r.drive.contents p) offset block

/-- A record that ends in its block is checked there. -/
theorem ScanAt.turn_stays {r : Reader} {p offset block : Nat} (hat : ScanAt r p offset block)
    (hstays : ¬ Crosses r.drive.contents p) :
    Turn r r p ⟨false, offset⟩ (offset + recLength r.drive.contents p) block := by
  have hoffset := hat.offset_eq
  have hblock := hat.block_eq
  have hshort : ¬ blocksize ≤ offset + recLength r.drive.contents p := by rwa [hoffset]
  refine ⟨Keeps.refl r, by rw [if_neg hstays]; rfl, fun j hj => hat.bytes j (by omega),
    fun hcross => absurd hcross hstays, fun _ => ⟨rfl, rfl, rfl⟩, ?_, ?_, fun j hj => ?_⟩
  · unfold blocksize at *
    omega
  · unfold blocksize at *
    omega
  · rw [Nat.add_assoc, hat.bytes _ (by omega), Nat.add_assoc]

/-- A record that crosses is put together, and the scan goes on in the second block. -/
theorem ScanAt.turn_crosses {r : Reader} {p offset block : Nat} {s : Bool × Reader}
    (hat : ScanAt r p offset block) (hcross : Crosses r.drive.contents p)
    (hread : BlockRead (copyFirst r offset) (block + 1) s) (ht : s.2.t = r.t + 1) :
    Turn r (copyRest s.2 (blocksize - offset) ((p + recLength r.drive.contents p) % blocksize)) p
      ⟨true, 0⟩ ((p + recLength r.drive.contents p) % blocksize) (block + 1) := by
  have hscan := hread.scanAt (hat.nextBlock hcross).symm
  have hagrees := crossing_agrees hat hread hcross
  exact ⟨⟨hread.keeps.sb, hread.keeps.drive, hread.keeps.table⟩, by rw [if_pos hcross, ← ht]; rfl,
    fun j hj => by rw [Nat.zero_add]; exact hagrees j hj, fun _ => rfl,
    fun hstays => absurd hcross hstays, ⟨hscan.offset_eq, hscan.block_eq, hscan.bytes⟩⟩

/-! ## Turns -/

/-- What one turn of the loop comes to. -/
inductive TurnResult where
  | returns (result : Option (Nat × Nat)) (r : Reader)
  | goesOn (r : Reader) (fPos offset block : Nat)

/-- What a scan does that can be seen from outside. -/
inductive ScanEvent where
  | read (block : Nat) (ok : Bool)
  | examined (number : Nat)
  deriving DecidableEq

/-- The read of the second block of a record that crosses. -/
def secondRead (contents : ByteMemory) (p : Nat) : List ScanEvent :=
  if Crosses contents p then [.read (p / blocksize + 1) true] else []

/-- A turn of the loop after the check of a record. -/
def afterCheck (fPos offset block : Nat) : Check × Reader → TurnResult
  | (.next, r) => .goesOn r fPos offset block
  | (.found entry, r) => .returns entry r

/-- The body of the loop of `isofs_find_entry`, with what it reads and examines. -/
def findTurn (r : Reader) (itp : InodeEntry) (name : List UInt8)
    (inoBack fPos offset block : Nat) : TurnResult × List ScanEvent :=
  if itp.size ≤ fPos then (.returns none r, [])
  else
    let length := (r.dataBlock offset).toNat
    let inodeNumber := u32 (block <<< 10 + offset % blocksize)
    if length = 0 then
      let fPos := nextSector fPos
      let block := isofsBmap itp (fPos / blocksize : Nat)
      if block = 0 then (.returns none r, [])
      else
        let (ok, r) := readBlock r block
        (if ok then .goesOn r fPos 0 block else .returns none r, [.read block ok])
    else
      let fPos := fPos + length
      if blocksize ≤ offset + length then
        let frag1 := blocksize - offset
        let r := copyFirst r offset
        let offset := fPos % blocksize
        let block := isofsBmap itp (fPos / blocksize : Nat)
        if block = 0 then (.returns none r, [])
        else
          let (ok, r) := readBlock r block
          if ok = false then (.returns (some (0, inoBack)) r, [.read block ok])
          else
            (afterCheck fPos offset block
              (checkRecord (copyRest r frag1 offset) itp ⟨true, 0⟩ inodeNumber name),
              [.read block ok, .examined inodeNumber])
      else
        (afterCheck fPos (offset + length) block
          (checkRecord r itp ⟨false, offset⟩ inodeNumber name), [.examined inodeNumber])

/-- The loop takes one turn after the other. -/
theorem findLoop_succ (r : Reader) (itp : InodeEntry) (name : List UInt8)
    (inoBack fPos offset block n : Nat) :
    findLoop r itp name inoBack fPos offset block (n + 1) =
      match (findTurn r itp name inoBack fPos offset block).1 with
      | .returns result r' => (result, r')
      | .goesOn r' fPos' offset' block' => findLoop r' itp name inoBack fPos' offset' block' n := by
  rw [findLoop]
  unfold findTurn
  split
  · rfl
  · simp only
    split
    · split
      · rfl
      · split
        · rfl
        · rfl
    · split
      · split
        · rfl
        · split
          · rfl
          · generalize checkRecord _ itp _ _ name = checked
            obtain ⟨check, r'⟩ := checked
            cases check <;> rfl
      · generalize checkRecord r itp _ _ name = checked
        obtain ⟨check, r'⟩ := checked
        cases check <;> rfl

/-- The loop with all that can be seen of it. -/
def findRun (r : Reader) (itp : InodeEntry) (name : List UInt8)
    (inoBack fPos offset block : Nat) : Nat → (Option (Nat × Nat) × Reader) × List ScanEvent
  | 0 => ((none, r), [])
  | n + 1 =>
      match findTurn r itp name inoBack fPos offset block with
      | (.returns result r', events) => ((result, r'), events)
      | (.goesOn r' fPos' offset' block', events) =>
          let (out, more) := findRun r' itp name inoBack fPos' offset' block' n
          (out, events ++ more)

theorem findRun_fst (r : Reader) (itp : InodeEntry) (name : List UInt8)
    (inoBack fPos offset block n : Nat) :
    (findRun r itp name inoBack fPos offset block n).1 =
      findLoop r itp name inoBack fPos offset block n := by
  induction n generalizing r fPos offset block with
  | zero => rfl
  | succ n ih =>
      rw [findLoop_succ, findRun]
      obtain ⟨result, events⟩ := findTurn r itp name inoBack fPos offset block
      cases result with
      | returns result r' => rfl
      | goesOn r' fPos' offset' block' => exact ih r' fPos' offset' block'

/-- `isofs_find_entry` with all that can be seen of it. -/
def isofsFindEntryRun (r : Reader) (dir : Nat) (name : List UInt8) (inoBack : Nat) :
    (Option (Nat × Nat) × Reader) × List ScanEvent :=
  let itp := r.table dir
  if itp.firstExtent = 0 then ((none, r), [])
  else
    let block := isofsBmap itp 0
    if block = 0 then ((none, r), [])
    else
      let (ok, r) := readBlock r block
      let (out, events) :=
        if ok then findRun r itp name inoBack 0 0 block (itp.size.toNat + 1) else ((none, r), [])
      (out, .read block ok :: events)

theorem isofsFindEntryRun_fst (r : Reader) (dir : Nat) (name : List UInt8) (inoBack : Nat) :
    (isofsFindEntryRun r dir name inoBack).1 = isofsFindEntry r dir name inoBack := by
  unfold isofsFindEntryRun isofsFindEntry
  simp only
  split
  · rfl
  · split
    · rfl
    · split
      · exact findRun_fst _ _ _ _ _ _ _ _
      · rfl

/-! ## What a turn does -/

section
variable {r : Reader} {itp : InodeEntry} {base size fPos offset block : Nat} (name : List UInt8)
  (inoBack : Nat)

/-- The scan has come to the end of the directory. -/
theorem findTurn_end (hdir : DirOn itp base size) (hend : size ≤ fPos) :
    findTurn r itp name inoBack fPos offset block = (.returns none r, []) := by
  unfold findTurn
  rw [if_pos (by rw [hdir.size_eq]; omega)]

/-- At a byte of zero the scan goes on in the next sector. -/
theorem findTurn_skip (hdir : DirOn itp base size) (hat : ScanAt r (base + fPos) offset block)
    (hlt : fPos < size) (hzero : r.drive.contents (base + fPos) = 0) :
    findTurn r itp name inoBack fPos offset block =
      (if (readBlock r ((base + nextSector fPos) / blocksize)).1 then
          .goesOn (readBlock r ((base + nextSector fPos) / blocksize)).2 (nextSector fPos) 0
            ((base + nextSector fPos) / blocksize)
        else .returns none (readBlock r ((base + nextSector fPos) / blocksize)).2,
        [.read ((base + nextSector fPos) / blocksize)
          (readBlock r ((base + nextSector fPos) / blocksize)).1]) := by
  have hsize := hdir.size_eq
  have hlength : r.dataBlock offset = 0 := by
    have hbyte := hat.bytes 0 (by rw [hat.offset_eq]; exact Nat.mod_lt _ (by decide))
    rwa [Nat.add_zero, Nat.add_zero, hzero] at hbyte
  have hnear := nextSector_near fPos
  have hmap := hdir.bmap (nextSector fPos) (by omega)
  have hpos := hdir.block_pos (nextSector fPos)
  unfold findTurn
  rw [if_neg (by omega)]
  simp only
  rw [hlength, if_pos UInt8.toNat_zero, hmap, if_neg hpos]

/-- The sector is read from its first byte on. -/
theorem scanAt_nextSector (hdir : DirOn itp base size) {r' : Bool × Reader}
    (hread : BlockRead r ((base + nextSector fPos) / blocksize) r') :
    ScanAt r'.2 (base + nextSector fPos) 0 ((base + nextSector fPos) / blocksize) := by
  have hstart : (base + nextSector fPos) % blocksize = 0 := by
    have haligned := hdir.aligned
    unfold nextSector isofsBlockSize
    unfold blocksize at haligned ⊢
    omega
  have hscan := hread.scanAt (p := base + nextSector fPos) rfl
  rwa [hstart] at hscan

/-- A record whose second block cannot be read. -/
theorem findTurn_fails (hdir : DirOn itp base size) (hat : ScanAt r (base + fPos) offset block)
    (hlt : fPos < size) (hnonzero : recLength r.drive.contents (base + fPos) ≠ 0)
    (hcross : Crosses r.drive.contents (base + fPos))
    (hfail : ¬ ReadsBlock (r.drive.device r.t) (block + 1)) :
    findTurn r itp name inoBack fPos offset block =
      (.returns (some (0, inoBack)) (readBlock (copyFirst r offset) (block + 1)).2,
        [.read (block + 1) false]) := by
  have hsize := hdir.size_eq
  have hlength := hat.length
  have hblock := hat.nextBlock hcross
  have hshort := recLength_lt r.drive.contents (base + fPos)
  have hmap := hdir.bmap (fPos + recLength r.drive.contents (base + fPos))
    (by unfold isofsBlockSize; omega)
  have hpos := hdir.block_pos (fPos + recLength r.drive.contents (base + fPos))
  have hlimit := hdir.block_lt
    (show fPos + recLength r.drive.contents (base + fPos) ≤ _ by unfold isofsBlockSize; omega)
  rw [← Nat.add_assoc, hblock] at hmap hpos hlimit
  have hno := readBlock_fails (r := copyFirst r offset) hlimit hfail
  unfold findTurn
  rw [if_neg (by omega)]
  simp only [hlength]
  rw [if_neg hnonzero, if_pos (by rwa [hat.offset_eq]), hmap, if_neg hpos, if_pos hno, hno]

/-- A record of which all is read is checked. -/
theorem findTurn_record (hdir : DirOn itp base size) {p : Nat} (hp : p = base + fPos)
    (hat : ScanAt r p offset block) (hlt : fPos < size)
    (hnonzero : recLength r.drive.contents p ≠ 0)
    (hread : Crosses r.drive.contents p → ReadsBlock (r.drive.device r.t) (block + 1)) :
    ∃ r' place offset' block', findTurn r itp name inoBack fPos offset block =
        (afterCheck (fPos + recLength r.drive.contents p) offset' block'
            (checkRecord r' itp place (u32 p) name),
          secondRead r.drive.contents p ++ [.examined (u32 p)]) ∧
      Turn r r' p place offset' block' := by
  have hsize := hdir.size_eq
  have hlength := hat.length
  have hnumber := hat.number
  have hmove : base + (fPos + recLength r.drive.contents p) = p + recLength r.drive.contents p := by
    omega
  have hiff : blocksize ≤ offset + recLength r.drive.contents p ↔ Crosses r.drive.contents p := by
    rw [hat.offset_eq]
    exact Iff.rfl
  unfold findTurn
  rw [if_neg (by omega)]
  simp only [hlength, hnumber]
  rw [if_neg hnonzero, if_congr hiff rfl rfl]
  by_cases hcross : Crosses r.drive.contents p
  · have hblock := hat.nextBlock hcross
    have hshort := recLength_lt r.drive.contents p
    have hmap := hdir.bmap (fPos + recLength r.drive.contents p) (by unfold isofsBlockSize; omega)
    have hpos := hdir.block_pos (fPos + recLength r.drive.contents p)
    have hlimit := hdir.block_lt
      (show fPos + recLength r.drive.contents p ≤ _ by unfold isofsBlockSize; omega)
    rw [hmove, hblock] at hmap hpos hlimit
    have hsecond := readBlock_read (r := copyFirst r offset) hlimit (hread hcross)
    have hrest : (fPos + recLength r.drive.contents p) % blocksize =
        (p + recLength r.drive.contents p) % blocksize := by
      have haligned := hdir.aligned
      rw [← hmove]
      unfold blocksize at haligned ⊢
      omega
    rw [if_pos hcross, hmap, if_neg hpos, if_neg (by rw [hsecond.ok]; decide), hsecond.ok, hrest]
    unfold secondRead
    rw [if_pos hcross, ← hat.block_eq]
    exact ⟨_, _, _, _, rfl, hat.turn_crosses hcross hsecond rfl⟩
  · unfold secondRead
    rw [if_neg hcross, if_neg hcross]
    exact ⟨_, _, _, _, rfl, hat.turn_stays hcross⟩

end

/-- The block of the next record is not touched by the check of the one before it. -/
theorem Turn.scanAt_checked {r r' r'' : Reader} {p offset block : Nat} {place : Place}
    (hturn : Turn r r' p place offset block)
    (hname : recName + (r.drive.contents (p + recNameLen)).toNat ≤ recLength r.drive.contents p)
    (hchecked : CheckKeeps r' place r.drive.contents p r'') :
    ScanAt r'' (p + recLength r.drive.contents p) offset block := by
  have hscan := hturn.scanAt
  refine ⟨hscan.offset_eq, hscan.block_eq, fun j hj => ?_⟩
  rw [hchecked.keeps.drive, ← hscan.bytes j hj]
  by_cases hcross : Crosses r.drive.contents p
  · have hother := hchecked.other
    rw [hturn.crossing hcross] at hother
    exact congrFun hother _
  · have hinside := hturn.inside hcross
    have hbehind := hchecked.behind (offset + j) (by omega)
    rw [hinside.1] at hbehind
    exact hbehind

end Milo.Fs.Isofs
