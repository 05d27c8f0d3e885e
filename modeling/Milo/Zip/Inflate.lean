import Milo.Foundation.SlidingWindow
import Milo.Zip.Gzip
import Milo.Zip.Huft

/-! # Inflating

`inflate` takes bits from a buffer that is filled byte by byte, and puts bytes into a
window that is flushed each time it is full. The copies of the globals that its parts
work on are taken for the globals: they are only told apart after an error, and then
`unzip` halts.
-/

namespace Milo.Zip

open Foundation

/-- What memory holds before it is written to: the array of values of `huft_build`, the
slots of each of its tables, and the array of lengths of `inflate_dynamic`. -/
structure Junk where
  values : Nat → Nat
  slots : Nat → Nat → Huft
  lengths : Nat → Nat

/-- The globals, what has been flushed, and how often `huft_build` has been called. -/
structure Inflater where
  input : Inbuf
  bb : Nat
  bk : Nat
  window : Buffer
  outcnt : Nat
  flushed : List Window
  builds : Nat

/-- A part of `inflate` returns, with an error code or without, or it does not: it
halts, it reads or writes outside of what it may, or it is still running after as many
turns as it is followed for. -/
abbrev Inflate := StateT Inflater (ExceptT Nat Option)

def stuck {α : Type} : Inflate α := fun _ => none

def require {α : Type} : Option α → Inflate α
  | none => stuck
  | some a => pure a

/-! ## Tables from the format -/

def wsize : Nat := 0x8000

def border : List Nat := [16, 17, 18, 0, 8, 7, 9, 6, 10, 5, 11, 4, 12, 3, 13, 2, 14, 1, 15]

def cplens : List Nat :=
  [3, 4, 5, 6, 7, 8, 9, 10, 11, 13, 15, 17, 19, 23, 27, 31,
    35, 43, 51, 59, 67, 83, 99, 115, 131, 163, 195, 227, 258, 0, 0]

def cplext : List Nat :=
  [0, 0, 0, 0, 0, 0, 0, 0, 1, 1, 1, 1, 2, 2, 2, 2,
    3, 3, 3, 3, 4, 4, 4, 4, 5, 5, 5, 5, 0, 99, 99]

def cpdist : List Nat :=
  [1, 2, 3, 4, 5, 7, 9, 13, 17, 25, 33, 49, 65, 97, 129, 193,
    257, 385, 513, 769, 1025, 1537, 2049, 3073, 4097, 6145,
    8193, 12289, 16385, 24577]

def cpdext : List Nat :=
  [0, 0, 0, 0, 1, 1, 2, 2, 3, 3, 4, 4, 5, 5, 6, 6,
    7, 7, 8, 8, 9, 9, 10, 10, 11, 11, 12, 12, 13, 13]

def maskBits : List Nat :=
  [0x0000,
    0x0001, 0x0003, 0x0007, 0x000f, 0x001f, 0x003f, 0x007f, 0x00ff,
    0x01ff, 0x03ff, 0x07ff, 0x0fff, 0x1fff, 0x3fff, 0x7fff, 0xffff]

def lbits : Nat := 9

def dbits : Nat := 6

/-- `n` of the union. -/
def HuftValue.n? : HuftValue → Option Nat
  | .n value => some value
  | .t _ => none

/-- `t` of the union. -/
def HuftValue.t? : HuftValue → Option Nat
  | .n _ => none
  | .t table => some table

def HuftTable.slot? (table : HuftTable) (i : Nat) : Option Huft :=
  if i < table.size then some (table.entry i) else none

/-! ## The window -/

/-- `flush_output(w)` -/
def flushOutput : Inflate Unit :=
  modify fun s => { s with flushed := s.flushed ++ [⟨s.outcnt, s.window⟩] }

/-- `if (w == WSIZE) { flush_output(w); w = 0; }` -/
def flushFull : Inflate Unit := do
  if (← get).outcnt = wsize then
    flushOutput
    modify fun s => { s with outcnt := 0 }

/-- `slide[w++] = c;` and what follows it. -/
def putByte (c : UInt8) : Inflate Unit := do
  modify fun s =>
    { s with window := Function.update s.window s.outcnt c, outcnt := s.outcnt + 1 }
  flushFull

/-- `slide[w++] = slide[d++];`, `e` times. -/
def moveBytes (d e : Nat) : Inflate Unit :=
  modify fun s =>
    { s with window := moveSlots s.window s.outcnt d e, outcnt := s.outcnt + e }

/-- `memcpy(slide + w, slide + d, e);`, for parts of the window that lie apart. -/
def copyBytes (d e : Nat) : Inflate Unit := do
  let w := (← get).outcnt
  if w + e ≤ d ∨ d + e ≤ w then moveBytes d e else stuck

/-- `(e = WSIZE - (d > w ? d : w)) > n ? n : e` -/
def chunk (w d n : Nat) : Nat :=
  let e := wsize - (if d > w then d else w)
  if e > n then n else e

/-- `if (w - d >= e) memcpy … else do …` -/
def moveChunk (w d e : Nat) : Inflate Unit :=
  if (w + 2 ^ 32 - d) % 2 ^ 32 ≥ e then copyBytes d e else moveBytes d e

/-- The loop that does the copy, at most `left` times. -/
def copyBack : Nat → Nat → Nat → Inflate Unit
  | 0, _, _ => stuck
  | left + 1, n, d => do
      let w := (← get).outcnt
      let d := d &&& (wsize - 1)
      let e := chunk w d n
      moveChunk w d e
      flushFull
      if n - e ≠ 0 then copyBack left (n - e) (d + e)

section
variable (file : FileReader)

/-! ## The bit buffer -/

/-- `NEXTBYTE()` -/
def nextByte : Inflate Nat := fun s =>
  (getByte file s.input).map fun (byte, input) => .ok (byte, { s with input := input })

/-- `while (k < n) …`, at most `left` times. -/
def fillBits (n : Nat) : Nat → Inflate Unit
  | 0 => pure ()
  | left + 1 => do
      if (← get).bk < n then
        let byte ← nextByte file
        modify fun s =>
          { s with bb := (s.bb ||| byte <<< s.bk) % 2 ^ 64, bk := s.bk + 8 }
        fillBits n left

/-- `NEEDBITS(n)` -/
def needBits (n : Nat) : Inflate Unit := fillBits file n n

/-- `DUMPBITS(n)` -/
def dumpBits (n : Nat) : Inflate Unit :=
  modify fun s => { s with bb := s.bb >>> n, bk := (s.bk + 2 ^ 32 - n) % 2 ^ 32 }

/-- `(unsigned) b & mask` -/
def lowBits (mask : Nat) : Inflate Nat := return (← get).bb % 2 ^ 32 &&& mask

/-- `NEEDBITS(n)`, the bits, `DUMPBITS(n)`. -/
def takeBits (n : Nat) : Inflate Nat := do
  needBits file n
  let bits ← lowBits (2 ^ n - 1)
  dumpBits n
  return bits

/-- The same with a mask from `mask_bits`. -/
def extraBits (e : Nat) : Inflate Nat := do
  needBits file e
  let mask ← require maskBits[e]?
  let bits ← lowBits mask
  dumpBits e
  return bits

/-! ## Codes -/

/-- The slot of table `t` for the next bits. -/
def lookUp (tables : HuftTables) (t bits : Nat) : Inflate Huft := do
  needBits file bits
  let mask ← require maskBits[bits]?
  let i ← lowBits mask
  let table ← require tables[t]?
  require (table.slot? i)

/-- `if ((e = (t = tl + ((unsigned) b & ml))->e) > 16) do … while …; DUMPBITS(t->b)`, at
most `left` tables. -/
def walkTables (tables : HuftTables) : Nat → Nat → Nat → Inflate Huft
  | 0, _, _ => stuck
  | left + 1, t, bits => do
      let entry ← lookUp file tables t bits
      if entry.e > 16 then
        if entry.e = 99 then throw 1
        dumpBits entry.b
        let t ← require entry.v.t?
        walkTables tables left t (entry.e - 16)
      else
        dumpBits entry.b
        return entry

/-- A walk from the first table; the tables of `huft_build` lead to later ones only. -/
def decode (tables : HuftTables) (bits : Nat) : Inflate Huft :=
  walkTables file tables tables.length 0 bits

/-- The copy that the entry of a length starts. -/
def inflateCopy (td : HuftTables) (bd : Nat) (t : Huft) : Inflate Unit := do
  let value ← require t.v.n?
  let extra ← extraBits file t.e
  let n := value + extra
  let t ← decode file td bd
  let value ← require t.v.n?
  let extra ← extraBits file t.e
  let d := ((← get).outcnt + 2 ^ 32 - (value + extra)) % 2 ^ 32
  copyBack (n + 1) n d

/-- One turn of `inflate_codes`; false at the end of the block. -/
def inflateCode (tl td : HuftTables) (bl bd : Nat) : Inflate Bool := do
  let t ← decode file tl bl
  if t.e = 16 then
    let value ← require t.v.n?
    putByte (UInt8.ofNat value)
    return true
  else if t.e = 15 then return false
  else
    inflateCopy file td bd t
    return true

/-- `inflate_codes` -/
def inflateCodes (tl td : HuftTables) (bl bd : Nat) : Nat → Inflate Unit
  | 0 => stuck
  | fuel + 1 => do
      if ← inflateCode file tl td bl bd then inflateCodes tl td bl bd fuel

/-! ## Blocks -/

/-- `while (n--) …` of `inflate_stored`. -/
def storedBytes : Nat → Inflate Unit
  | 0 => pure ()
  | n + 1 => do
      needBits file 8
      putByte (UInt8.ofNat (← get).bb)
      dumpBits 8
      storedBytes n

/-- `inflate_stored` -/
def inflateStored : Inflate Unit := do
  dumpBits ((← get).bk &&& 7)
  let n ← takeBits file 16
  needBits file 16
  if n ≠ ((← get).bb ^^^ (2 ^ 64 - 1)) &&& 0xffff then throw 1
  dumpBits 16
  storedBytes file n

variable (junk : Nat → Junk)

/-- A call of `huft_build`. -/
def buildTables (b : List Nat) (s : Nat) (d e : List Nat) (m : Nat) : Inflate HuftResult := do
  let builds := (← get).builds
  modify fun st => { st with builds := builds + 1 }
  require (huftBuild (junk builds).values (junk builds).slots b s d e m)

def fixedLengths : List Nat :=
  List.replicate 144 8 ++ List.replicate 112 9 ++ List.replicate 24 7 ++ List.replicate 8 8

/-- `inflate_fixed` -/
def inflateFixed (fuel : Nat) : Inflate Unit := do
  let tl ← buildTables junk fixedLengths 257 cplens cplext 7
  if tl.code ≠ 0 then throw tl.code
  let td ← buildTables junk (List.replicate 30 5) 0 cpdist cpdext 5
  if td.code > 1 then throw td.code
  inflateCodes file tl.tables td.tables tl.m td.m fuel

/-- The loops that set `ll[border[j]]`, `nb` of them from the input. -/
def bitLengths : List Nat → Nat → (Nat → Nat) → Inflate (Nat → Nat)
  | [], _, ll => pure ll
  | place :: places, 0, ll => bitLengths places 0 (Function.update ll place 0)
  | place :: places, nb + 1, ll => do
      let len ← takeBits file 3
      bitLengths places nb (Function.update ll place len)

/-- `while (j--) ll[i++] = l;` -/
def repeatLength (l : Nat) : Nat → Nat → (Nat → Nat) → Nat → Nat
  | 0, _, ll => ll
  | j + 1, i, ll => repeatLength l j (i + 1) (Function.update ll i l)

/-- A run of `j` lengths `l`, if it ends below `n`. -/
def putLengths (n i j l : Nat) (ll : Nat → Nat) : Inflate (Nat → Nat) :=
  if i + j > n then throw 1 else pure (repeatLength l j i ll)

/-- `j = (td = tl + ((unsigned) b & m))->b; DUMPBITS(j) j = td->v.n;` -/
def lengthCode (tl : HuftTables) (bl : Nat) : Inflate Nat := do
  let td ← lookUp file tl 0 bl
  dumpBits td.b
  require td.v.n?

/-- `while ((unsigned) i < n) …`, at most `left` times. -/
def codeLengths (tl : HuftTables) (bl n : Nat) : Nat → Nat → Nat → (Nat → Nat) →
    Inflate (Nat → Nat)
  | 0, _, _, ll => pure ll
  | left + 1, i, l, ll => do
      if i < n then
        let j ← lengthCode file tl bl
        if j < 16 then codeLengths tl bl n left (i + 1) j (Function.update ll i j)
        else if j = 16 then
          let j := 3 + (← takeBits file 2)
          let ll ← putLengths n i j l ll
          codeLengths tl bl n left (i + j) l ll
        else if j = 17 then
          let j := 3 + (← takeBits file 3)
          let ll ← putLengths n i j 0 ll
          codeLengths tl bl n left (i + j) 0 ll
        else
          let j := 11 + (← takeBits file 7)
          let ll ← putLengths n i j 0 ll
          codeLengths tl bl n left (i + j) 0 ll
      else return ll

/-- The tables for codes of a dynamic block; `error` does not return. -/
def completeTables (b : List Nat) (s : Nat) (d e : List Nat) (m : Nat) : Inflate HuftResult := do
  let res ← buildTables junk b s d e m
  if res.code = 1 then stuck
  if res.code ≠ 0 then throw res.code
  return res

/-- `inflate_dynamic` -/
def inflateDynamic (fuel : Nat) : Inflate Unit := do
  let nl := 257 + (← takeBits file 5)
  let nd := 1 + (← takeBits file 5)
  let nb := 4 + (← takeBits file 4)
  if nl > 286 ∨ nd > 30 then throw 1
  let ll ← bitLengths file border nb (junk (← get).builds).lengths
  let tl ← buildTables junk ((List.range 19).map ll) 19 [] [] 7
  if tl.code ≠ 0 then throw tl.code
  let ll ← codeLengths file tl.tables tl.m (nl + nd) (nl + nd) 0 0 ll
  let tl ← completeTables junk ((List.range nl).map ll) 257 cplens cplext lbits
  let td ← completeTables junk ((List.range nd).map fun i => ll (nl + i)) 0 cpdist cpdext dbits
  inflateCodes file tl.tables td.tables tl.m td.m fuel

/-- `inflate_block`; true for the last block. -/
def inflateBlock (fuel : Nat) : Inflate Bool := do
  let e ← takeBits file 1
  let t ← takeBits file 2
  if t = 2 then inflateDynamic file junk fuel
  else if t = 0 then inflateStored file
  else if t = 1 then inflateFixed file junk fuel
  else throw 2
  return e ≠ 0

/-- `do … while (!e);` -/
def inflateBlocks : Nat → Inflate Unit
  | 0 => stuck
  | fuel + 1 => do
      if ← inflateBlock file junk fuel then return
      else inflateBlocks fuel

end

/-- `while (bk >= 8) { bk -= 8; inptr--; }` -/
def undoLookahead : Nat → Nat → Nat → Nat × Nat
  | 0, bk, inptr => (bk, inptr)
  | left + 1, bk, inptr =>
      if bk ≥ 8 then undoLookahead left (bk - 8) ((inptr + 2 ^ 32 - 1) % 2 ^ 32) else (bk, inptr)

/-- `inflate` -/
def inflate (file : FileReader) (junk : Nat → Junk) (fuel : Nat) : Inflate Unit := do
  modify fun s => { s with outcnt := 0, bk := 0, bb := 0 }
  inflateBlocks file junk fuel
  modify fun s =>
    let (bk, inptr) := undoLookahead s.bk s.bk s.input.inptr
    { s with bk := bk, input := { s.input with inptr := inptr } }
  flushOutput

end Milo.Zip
