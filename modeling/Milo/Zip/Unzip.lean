import Milo.Foundation.ByteMemory
import Milo.Zip.DeflateEnd
import Milo.Zip.InflateSound
import Milo.Zip.InputEnd

/-! # Uncompressing a kernel

`uncompress_kernel` recognises a gzip file, inflates it to `dest_addr` and compares the
length at the end of the file with what has been flushed. Where something is wrong
`error` is called, which halts the machine. The format of other archives is never asked
for: `pkzip` is not set anywhere.
-/

namespace Milo.Zip

open Foundation

section
variable (file : FileReader) (junk : Nat → Junk)

/-- The calls of `get_byte` for the end of the file. -/
def readEnd : Nat → Inflate (List Nat)
  | 0 => pure []
  | n + 1 => do
      let byte ← nextByte file
      let bytes ← readEnd n
      return byte :: bytes

/-- `SH(p)` -/
def sh (p : List Nat) : Nat := p.getD 0 0 ||| p.getD 1 0 <<< 8

/-- `LG(p)` -/
def lg (p : List Nat) : Nat := sh p ||| sh (p.drop 2) <<< 16

/-- A call that `error` follows if it returns an error code. -/
def orHalt (m : Inflate Unit) : Inflate Unit := fun s =>
  match m.out s with
  | some (.ok out) => some (.ok out)
  | _ => none

/-- `unzip` -/
def unzip (method : Int) (fuel : Nat) : Inflate Unit := do
  if method = 8 then orHalt (inflate file junk fuel) else stuck
  let buf ← readEnd file 8
  if lg (buf.drop 4) ≠ bytesOut (← get).flushed % 2 ^ 64 then stuck

/-- `uncompress_kernel`, with what its two buffers hold at first: what it returns, and
the calls of `flush_window`. -/
def uncompressKernel (inbuf window : Buffer) (fuel : Nat) : Option (Int × List Window) := do
  let (method, input) ← getMethod file fuel (cleared inbuf)
  if method < 0 then return (-1, [])
  else
    match (unzip file junk method fuel).out ⟨input, 0, 0, window, 0, [], 0⟩ with
    | some (.ok (_, s)) => return (0, s.flushed)
    | _ => none

end

/-! ## Memory -/

theorem Window.bytes_length (w : Window) : w.bytes.length = w.outcnt := by
  rw [Window.bytes, List.length_map, List.length_range]

theorem bytesOut_eq (ws : List Window) : bytesOut ws = (flushedBytes ws).length := by
  simp [bytesOut, flushedBytes, List.length_flatMap, Window.bytes_length]

section
variable {reader : FileReader} {file : List UInt8}

theorem At.nextInput (hreader : Reports reader file) {s : Inbuf} {pos : Nat} (h : At file s pos) :
    At file (nextInput reader s) (pos + 1) ∧
      ∀ hpos : pos < file.length, nextValue reader s = (file.get ⟨pos, hpos⟩).toNat := by
  obtain ⟨b, s', hbyte, hnext, hvalue⟩ := h.getByte hreader
  rw [getByte_eq] at hbyte
  obtain ⟨rfl, rfl⟩ := Prod.mk.inj (Option.some.inj hbyte)
  exact ⟨hnext, hvalue⟩

theorem At.inputAfter (hreader : Reports reader file) {s : Inbuf} {pos : Nat} (h : At file s pos)
    (n : Nat) : At file (inputAfter reader s n) (pos + n) := by
  induction n with
  | zero => exact h
  | succ n ih => exact (ih.nextInput hreader).1

/-- The bytes to come are those of the file, as long as there are some. -/
theorem At.byteAt (hreader : Reports reader file) {s : Inbuf} {pos : Nat} (h : At file s pos)
    {n : Nat} (hn : n < (file.drop pos).length) :
    byteAt reader s n = ((file.drop pos).getD n 0).toNat := by
  have hlen := hn
  rw [List.length_drop] at hlen
  rw [Zip.byteAt, ((h.inputAfter hreader n).nextInput hreader).2 (by omega),
    List.getD_eq_getElem _ _ hn, List.getElem_drop]
  rfl

theorem At.bytes (hreader : Reports reader file) {s : Inbuf} {pos : Nat} (h : At file s pos)
    {n m : Nat} (hroom : n + m ≤ (file.drop pos).length) :
    ((List.range m).map fun i => Zip.byteAt reader s (n + i)) =
      (((file.drop pos).drop n).take m).map UInt8.toNat := by
  apply List.ext_getElem?
  intro i
  rw [List.getElem?_map, List.getElem?_map, List.getElem?_take]
  by_cases hi : i < m
  · have hlt : n + i < (file.drop pos).length := by omega
    rw [List.getElem?_range hi, if_pos hi, List.getElem?_drop, List.getElem?_eq_getElem hlt,
      Option.map_some, Option.map_some, h.byteAt hreader hlt, List.getD_eq_getElem _ _ hlt]
  · rw [List.getElem?_eq_none (by simpa using hi), if_neg hi]
    rfl

theorem At.fits {s : Inbuf} {pos : Nat} (h : At file s pos) : s.Fits := ⟨h.inptr_le, h.insize_le⟩

/-- The bytes behind the stream. -/
theorem readEnd_returns {start : Inbuf} {s : Inflater} {n : Nat}
    (h : StandsAt reader start s.input n) (m : Nat) :
    ∃ s', Returns (readEnd reader m) s
        ((List.range m).map fun i => byteAt reader start (n + i)) s' ∧
      s'.flushed = s.flushed := by
  induction m generalizing s n with
  | zero => exact ⟨s, returns_pure.mpr ⟨rfl, rfl⟩, rfl⟩
  | succ m ih =>
      let mid : Inflater := { s with input := inputAfter reader start (n + 1) }
      have hbyte : Returns (nextByte reader) s (byteAt reader start n) mid := returns_nextByte h
      obtain ⟨s', hrest, hflushed⟩ := ih (s := mid) (standsAt_inputAfter reader start (n + 1))
      refine ⟨s', ?_, hflushed⟩
      rw [List.range_succ_eq_map, List.map_cons, List.map_map]
      refine hbyte.bind (hrest.bind (returns_pure.mpr ⟨?_, rfl⟩))
      rw [Nat.add_zero, List.cons.injEq]
      refine ⟨rfl, List.map_congr_left fun i _ => ?_⟩
      rw [Function.comp_apply, Nat.succ_eq_add_one, Nat.add_assoc, Nat.add_comm 1]

theorem getBytes_inputAfter {n : Nat} {s s' : Inbuf} {bytes : List Nat}
    (h : getBytes reader n s = some (bytes, s')) : s' = inputAfter reader s n := by
  have hstep : ∀ n s, inputAfter reader (nextInput reader s) n = inputAfter reader s (n + 1) := by
    intro n s
    induction n with
    | zero => rfl
    | succ n ih => rw [inputAfter, ih, ← inputAfter]
  induction n generalizing s bytes with
  | zero =>
      cases h
      rfl
  | succ n ih =>
      obtain ⟨b, mid, hbyte, hrest⟩ := run_bind h
      obtain ⟨bytes', last, hbytes, hlast⟩ := run_bind hrest
      rw [getByte_eq] at hbyte
      cases hbyte
      cases hlast
      rw [ih hbytes, hstep]

theorem orHalt_returns {m : Inflate Unit} {s s' : Inflater} {u : Unit} :
    Returns (orHalt m) s u s' ↔ Returns m s u s' := by
  have hout : (orHalt m).out s = match m.out s with
    | some (.ok out) => some (.ok out)
    | _ => none := rfl
  rw [Returns, Returns, hout]
  split
  · rename_i heq
    rw [heq]
  · rename_i hne
    constructor
    · intro h
      exact absurd h (by simp)
    · intro h
      exact absurd h (hne _)

end

/-- Three bytes in a stored block. -/
def storedFile : List UInt8 :=
  [0x1f, 0x8b, 8, 0, 0, 0, 0, 0, 0, 3,
    0x01, 3, 0, 0xfc, 0xff, 77, 73, 76,
    1, 2, 3, 4, 3, 0, 0, 0]

section
variable {reader : FileReader} {junk : Nat → Junk} {fuel : Nat}

theorem readEnd_unique {start : Inbuf} {s s' : Inflater} {n m : Nat} {bytes : List Nat}
    (h : StandsAt reader start s.input n) (hrun : Returns (readEnd reader m) s bytes s') :
    bytes = (List.range m).map (fun i => byteAt reader start (n + i)) ∧ s'.flushed = s.flushed := by
  obtain ⟨last, hread, hflushed⟩ := readEnd_returns h m
  obtain ⟨rfl, rfl⟩ := hread.unique hrun
  exact ⟨rfl, hflushed⟩

/-- A kernel is only returned for what `get_method` knows as deflated; then the stream
behind the header is one, its meaning over what the window held has been flushed and has
the length that is named behind it, unless a block has a set with a lone word. -/
theorem uncompressKernel_sound {inbuf window : Buffer} {windows : List Window}
    (hrun : uncompressKernel reader junk inbuf window fuel = some (0, windows)) :
    ∃ input, getMethod reader fuel (cleared inbuf) = some (8, input) ∧
      ((∃ tokens q, BlocksAt (bitAt reader input) 0 tokens q ∧
        flushedBytes windows =
          (writeTokens ((List.range wsize).map window) tokens).drop wsize ∧
        lg (((List.range 8).map fun i => byteAt reader input (byteEnd q / 8 + i)).drop 4) =
          (flushedBytes windows).length % 2 ^ 64) ∨
      LoneIn (bitAt reader input) 0) := by
  obtain ⟨⟨method, input⟩, hmethod, hrest⟩ := Option.bind_eq_some_iff.mp hrun
  dsimp only at hrest
  by_cases hknown : method < 0
  · rw [if_pos hknown] at hrest
    have hminus : (-1 : Int) = 0 := congrArg Prod.fst (Option.some.inj hrest)
    exact absurd hminus (by decide)
  rw [if_neg hknown] at hrest
  have hunzip : ∃ s', Returns (unzip reader junk method fuel) ⟨input, 0, 0, window, 0, [], 0⟩ ()
      s' ∧ s'.flushed = windows := by
    split at hrest
    · rename_i s' hout
      exact ⟨s', hout, congrArg Prod.snd (Option.some.inj hrest)⟩
    · exact absurd hrest (by simp)
  obtain ⟨s', hunzip, rfl⟩ := hunzip
  unfold unzip at hunzip
  by_cases height : method = 8
  · subst height
    rw [if_pos rfl] at hunzip
    obtain ⟨_, mid, hinflate, hunzip⟩ := returns_bind.mp hunzip
    obtain ⟨buf, last, hread, hunzip⟩ := returns_bind.mp hunzip
    rw [returns_get_bind] at hunzip
    refine ⟨input, hmethod, ?_⟩
    have hfits : input.Fits := by
      obtain ⟨n, bytes, hcalls⟩ := calls_getMethod reader fuel _ _ _ hmethod
      rw [getBytes_inputAfter hcalls]
      exact inputAfter_fits reader ⟨Nat.le_refl 0, Nat.zero_le _⟩ n
    rcases inflate_sound hfits rfl (orHalt_returns.mp hinflate) with
      ⟨tokens, q, hblocks, hbytes, hend⟩ | hlone
    · left
      obtain ⟨rfl, hflushed⟩ := readEnd_unique hend hread
      by_cases hlen : lg (((List.range 8).map fun i =>
          byteAt reader input (byteEnd q / 8 + i)).drop 4) = bytesOut last.flushed % 2 ^ 64
      · rw [if_neg (not_not.mpr hlen)] at hunzip
        obtain ⟨-, rfl⟩ := returns_pure.mp hunzip
        refine ⟨tokens, q, hblocks, ?_, ?_⟩
        · rw [hflushed, hbytes]
          rfl
        · rw [hlen, bytesOut_eq]
      · rw [if_pos hlen] at hunzip
        exact absurd hunzip returns_stuck
    · exact .inr hlone
  · rw [if_neg height] at hunzip
    obtain ⟨_, _, hstuck, -⟩ := returns_bind.mp hunzip
    exact absurd hstuck returns_stuck

end

theorem uncompressKernel_sound_stored :
    ∃ windows input, getMethod (fileReader storedFile 0) 40 (cleared fun _ => 0) =
        some (8, input) ∧
      ((∃ tokens q, BlocksAt (bitAt (fileReader storedFile 0) input) 0 tokens q ∧
        flushedBytes windows =
          (writeTokens ((List.range wsize).map fun _ => 0) tokens).drop wsize ∧
        lg (((List.range 8).map fun i =>
            byteAt (fileReader storedFile 0) input (byteEnd q / 8 + i)).drop 4) =
          (flushedBytes windows).length % 2 ^ 64) ∨
      LoneIn (bitAt (fileReader storedFile 0) input) 0) := by
  have hrun : (uncompressKernel (fileReader storedFile 0) (fun _ => ⟨fun _ => 0,
      fun _ _ => ⟨0, 0, .n 0⟩, fun _ => 0⟩) (fun _ => 0) (fun _ => 0) 40).map Prod.fst = some 0 := by
    decide +kernel
  obtain ⟨⟨r, windows⟩, hout, rfl⟩ := Option.map_eq_some_iff.mp hrun
  exact ⟨windows, uncompressKernel_sound hout⟩

end Milo.Zip
