import Milo.Foundation.TextBuffer
import Milo.Zip.Gzip

/-! # Where compressed input ends

`fill_inbuf` does not look at what `__bread` reports, so the bytes that
`get_byte` gives are bytes of the file only as long as there are some. A read of
the header is followed along the part of the file that is still to come: it
either leaves a rest of the file, or the input is past the end.
-/

namespace Milo.Zip

open Foundation

/-! ## The file behind the buffer -/

/-- `__bread` gives the blocks of the file, and reports those behind its end. -/
structure Reports (reader : FileReader) (file : List UInt8) : Prop where
  block : ∀ k i buf, i < inbufSize → ∀ h : inbufSize * k + i < file.length,
    reader.fill k buf i = file.get ⟨inbufSize * k + i, h⟩
  endOfFile : ∀ k, file.length ≤ inbufSize * k → reader.status k < 0

/-- A reader whose failing calls leave the buffer alone, over a volume that holds
`pad` behind the file. -/
def fileReader (file : List UInt8) (pad : UInt8) : FileReader where
  status k := if inbufSize * k < file.length then inbufSize else -1
  fill k buf :=
    if inbufSize * k < file.length then fun i => file.getD (inbufSize * k + i) pad else buf

theorem fileReader_reports (file : List UInt8) (pad : UInt8) :
    Reports (fileReader file pad) file where
  block k i buf _ h := by
    have hblock : inbufSize * k < file.length := by omega
    simp [fileReader, hblock, h]
  endOfFile k h := by
    have hblock : ¬ inbufSize * k < file.length := by omega
    simp [fileReader, hblock]

/-- `clear_bufs`, over what the buffer's memory held before. -/
def cleared (mem : Buffer) : Inbuf := { clearBufs with inbuf := mem }

/-- `pos` bytes have been given, and what is left of the buffer is the file's. -/
structure At (file : List UInt8) (s : Inbuf) (pos : Nat) : Prop where
  inptr_le : s.inptr ≤ s.insize
  insize_le : s.insize ≤ inbufSize
  position : pos + s.insize = inbufSize * s.blockNumber + s.inptr
  ahead : ∀ i, s.inptr + i < s.insize → ∀ h : pos + i < file.length,
    s.inbuf (s.inptr + i) = file.get ⟨pos + i, h⟩

section
variable {reader : FileReader} {file : List UInt8}

theorem at_cleared (file : List UInt8) (mem : Buffer) : At file (cleared mem) 0 where
  inptr_le := Nat.le_refl 0
  insize_le := Nat.zero_le _
  position := rfl
  ahead _ hi := absurd hi (Nat.not_lt_zero _)

theorem At.pos_eq {s : Inbuf} {pos pos' : Nat} (h : At file s pos) (h' : At file s pos') :
    pos = pos' := by
  have := h.position
  have := h'.position
  omega

/-- Every call gives some byte, and the file's own one as long as there is one. -/
theorem At.getByte (hreader : Reports reader file) {s : Inbuf} {pos : Nat} (h : At file s pos) :
    ∃ b s', getByte reader s = some (b, s') ∧ At file s' (pos + 1) ∧
      ∀ hpos : pos < file.length, b = (file.get ⟨pos, hpos⟩).toNat := by
  have hposition := h.position
  have hinptr := h.inptr_le
  unfold Zip.getByte
  by_cases hleft : s.inptr < s.insize
  · rw [if_pos hleft]
    refine ⟨_, _, rfl, ?_, fun hpos => congrArg UInt8.toNat (h.ahead 0 hleft hpos)⟩
    exact {
      inptr_le := hleft
      insize_le := h.insize_le
      position := by
        simp only
        omega
      ahead := fun i hi hfile => by
        have hnext := h.ahead (i + 1) (by simp only at hi; omega) (by omega)
        simp only [Nat.add_assoc, Nat.add_comm 1 i]
        exact hnext }
  · -- the buffer is used up, at the start of a block
    have hstart : pos = inbufSize * s.blockNumber := by omega
    have hblock : ∀ i, i < inbufSize → ∀ hfile : pos + i < file.length,
        reader.fill s.blockNumber s.inbuf i = file.get ⟨pos + i, hfile⟩ := by
      subst hstart
      exact fun i hi hfile => hreader.block s.blockNumber i s.inbuf hi hfile
    rw [if_neg hleft]
    refine ⟨_, _, rfl, ?_, fun hpos => congrArg UInt8.toNat (hblock 0 (by decide) hpos)⟩
    exact {
      inptr_le := show 1 ≤ inbufSize by decide
      insize_le := Nat.le_refl _
      position := by
        simp only [fillInbuf]
        rw [hstart, Nat.mul_succ]
        omega
      ahead := fun i hi hfile => by
        have hnext := hblock (1 + i) hi (by omega)
        simp only [Nat.add_assoc]
        exact hnext }

/-! ## Calls in a row -/

/-- The bytes of `n` calls. -/
def getBytes (reader : FileReader) : Nat → Reader (List Nat)
  | 0 => pure []
  | n + 1 => do
      let byte ← getByte reader
      let bytes ← getBytes reader n
      return byte :: bytes

theorem At.getBytes (hreader : Reports reader file) {s : Inbuf} {pos : Nat} (n : Nat)
    (h : At file s pos) :
    ∃ bytes s', getBytes reader n s = some (bytes, s') ∧ At file s' (pos + n) ∧
      bytes.length = n ∧
      (pos + n ≤ file.length → bytes = ((file.drop pos).take n).map UInt8.toNat) := by
  induction n generalizing s pos with
  | zero => exact ⟨[], s, rfl, h, rfl, fun _ => by simp⟩
  | succ n ih =>
      obtain ⟨b, mid, hbyte, hmid, hvalue⟩ := h.getByte hreader
      obtain ⟨bytes, s', hrest, hend, hlen, hbytes⟩ := ih hmid
      refine ⟨b :: bytes, s', ?_, ?_, by rw [List.length_cons, hlen], fun hfile => ?_⟩
      · simp only [Zip.getBytes, bind, StateT.bind, Option.bind, hbyte, hrest]
        rfl
      · rwa [Nat.add_assoc, Nat.add_comm 1 n] at hend
      · have hpos : pos < file.length := by omega
        rw [List.drop_eq_getElem_cons hpos, List.take_succ_cons, List.map_cons,
          hvalue hpos, hbytes (by omega)]
        rfl

/-- The calls give the file's bytes exactly as long as there are enough. -/
theorem getBytes_file_iff (hreader : Reports reader file) (mem : Buffer) (n : Nat) :
    (∃ s, getBytes reader n (cleared mem) = some ((file.take n).map UInt8.toNat, s)) ↔
      n ≤ file.length := by
  obtain ⟨bytes, s, hrun, -, hlen, hbytes⟩ := (at_cleared file mem).getBytes hreader n
  rw [Nat.zero_add, List.drop_zero] at hbytes
  constructor
  · rintro ⟨s', hfile⟩
    rw [hrun] at hfile
    have hsame := congrArg List.length (Prod.mk.inj (Option.some.inj hfile)).1
    rw [hlen, List.length_map, List.length_take] at hsame
    omega
  · intro hn
    exact ⟨s, by rw [hrun, hbytes hn]⟩

/-! ## The header in the file -/

def dropBytes (n : Nat) (rest : List UInt8) : Option (List UInt8) :=
  if n ≤ rest.length then some (rest.drop n) else none

/-- What follows the first zero byte. -/
def dropString (rest : List UInt8) : Option (List UInt8) :=
  if 0 ∈ rest then some (rest.dropWhile (· ≠ 0)).tail else none

/-- What follows an extra field and the two bytes of its length. -/
def dropExtra : List UInt8 → Option (List UInt8)
  | low :: high :: rest => dropBytes (low.toNat ||| high.toNat <<< 8) rest
  | _ => none

def dropIf (flag : Prop) [Decidable flag] (drop : List UInt8 → Option (List UInt8))
    (rest : List UInt8) : Option (List UInt8) :=
  if flag then drop rest else some rest

/-- What follows the header, from the byte after its flags on. -/
def dropFields (flags : Nat) (rest : List UInt8) : Option (List UInt8) :=
  (dropBytes 6 rest).bind fun rest =>
    (dropIf (flags &&& 0x04 ≠ 0) dropExtra rest).bind fun rest =>
      (dropIf (flags &&& 0x08 ≠ 0) dropString rest).bind fun rest =>
        dropIf (flags &&& 0x10 ≠ 0) dropString rest

/-- An encrypted, multi part or unknown file. -/
def Rejected (flags : Nat) : Prop :=
  flags &&& 0x20 ≠ 0 ∨ flags &&& 0x02 ≠ 0 ∨ flags &&& 0xc0 ≠ 0

instance (flags : Nat) : Decidable (Rejected flags) := inferInstanceAs (Decidable (_ ∨ _))

/-- What follows the header, from the byte after the magic number on. -/
def afterMagic : List UInt8 → Option (List UInt8)
  | _ :: flags :: rest => if Rejected flags.toNat then some rest else dropFields flags.toNat rest
  | _ => none

/-- What follows the part of a file that tells its compression method. -/
def afterMethod : List UInt8 → Option (List UInt8)
  | magic0 :: magic1 :: rest =>
      if magic0.toNat = 0x1f ∧ (magic1.toNat = 0x8b ∨ magic1.toNat = 0x9e) then afterMagic rest
      else some rest
  | _ => none

/-- The file has all bytes of the header that it starts with. -/
def HeaderWithin (file : List UInt8) : Prop := (afterMethod file).isSome

instance (file : List UInt8) : Decidable (HeaderWithin file) :=
  inferInstanceAs (Decidable (_ = true))

/-! ## Reading along the file -/

/-- The input stands in the file, with `rest` still to come. -/
def AtRest (file : List UInt8) (s : Inbuf) (rest : List UInt8) : Prop :=
  ∃ pos, pos ≤ file.length ∧ At file s pos ∧ rest = file.drop pos

/-- More bytes have been given than the file has. -/
def Past (file : List UInt8) (s : Inbuf) : Prop := ∃ pos, file.length < pos ∧ At file s pos

/-- What the reader does to the input is a number of calls of `get_byte`. -/
def Calls {α : Type} (reader : FileReader) (m : Reader α) : Prop :=
  ∀ s a s', m s = some (a, s') → ∃ n bytes, getBytes reader n s = some (bytes, s')

/-- The reader leaves the rest `last`, or ends past the end if it ends. -/
def Reads {α : Type} (file : List UInt8) (m : Reader α) (rest : List UInt8) :
    Option (List UInt8) → Prop
  | some last => ∀ s, AtRest file s rest → ∃ a s', m s = some (a, s') ∧ AtRest file s' last
  | none => ∀ s a s', AtRest file s rest → m s = some (a, s') → Past file s'

section
variable {α β : Type}

theorem run_bind {m : Reader α} {f : α → Reader β} {s s' : Inbuf} {b : β}
    (h : (m >>= f) s = some (b, s')) : ∃ a mid, m s = some (a, mid) ∧ f a mid = some (b, s') := by
  cases hm : m s with
  | none => simp [bind, StateT.bind, hm] at h
  | some out => exact ⟨out.1, out.2, rfl, by simpa [bind, StateT.bind, hm] using h⟩

theorem bind_run {m : Reader α} {f : α → Reader β} {s mid : Inbuf} {a : α}
    (h : m s = some (a, mid)) : (m >>= f) s = f a mid := by
  simp [bind, StateT.bind, h]

theorem getBytes_add {s mid s' : Inbuf} {n m : Nat} {first second : List Nat}
    (h : getBytes reader n s = some (first, mid))
    (h' : getBytes reader m mid = some (second, s')) :
    getBytes reader (n + m) s = some (first ++ second, s') := by
  induction n generalizing s first with
  | zero =>
      cases h
      rwa [Nat.zero_add]
  | succ n ih =>
      obtain ⟨b, t, hbyte, hrest⟩ := run_bind h
      obtain ⟨bytes, t', hbytes, hend⟩ := run_bind hrest
      cases hend
      rw [Nat.succ_add, Zip.getBytes, bind_run hbyte, bind_run (ih hbytes)]
      rfl

theorem calls_pure (a : α) : Calls reader (pure a) := by
  rintro s _ _ ⟨⟩
  exact ⟨0, [], rfl⟩

theorem calls_bind {m : Reader α} {f : α → Reader β} (hm : Calls reader m)
    (hf : ∀ a, Calls reader (f a)) : Calls reader (m >>= f) := by
  intro s b s' hrun
  obtain ⟨a, mid, hfirst, hrest⟩ := run_bind hrun
  obtain ⟨n, first, hn⟩ := hm s a mid hfirst
  obtain ⟨m, second, hm⟩ := hf a mid b s' hrest
  exact ⟨n + m, first ++ second, getBytes_add hn hm⟩

theorem calls_getByte (reader : FileReader) : Calls reader (getByte reader) := by
  intro s a s' hrun
  exact ⟨1, [a], by rw [Zip.getBytes, bind_run hrun]; rfl⟩

theorem calls_skipBytes (reader : FileReader) (n : Nat) : Calls reader (skipBytes reader n) := by
  induction n with
  | zero => exact calls_pure ()
  | succ n ih => exact calls_bind (calls_getByte reader) fun _ => ih

theorem calls_skipString (reader : FileReader) (fuel : Nat) :
    Calls reader (skipString reader fuel) := by
  induction fuel with
  | zero =>
      rintro s _ _ ⟨⟩
  | succ fuel ih =>
      refine calls_bind (calls_getByte reader) fun byte => ?_
      split
      · exact ih
      · exact calls_pure ()

/-- No reader comes back from behind the end. -/
theorem Calls.past {m : Reader α} (hm : Calls reader m) (hreader : Reports reader file)
    {s s' : Inbuf} {a : α} (hpast : Past file s) (hrun : m s = some (a, s')) : Past file s' := by
  obtain ⟨pos, hpos, hat⟩ := hpast
  obtain ⟨n, bytes, hbytes⟩ := hm s a s' hrun
  obtain ⟨_, t, hcalls, hend, -, -⟩ := hat.getBytes hreader n
  cases hbytes.symm.trans hcalls
  exact ⟨pos + n, by omega, hend⟩

theorem reads_pure (a : α) (rest : List UInt8) : Reads file (pure a) rest (some rest) :=
  fun s hat => ⟨a, s, rfl, hat⟩

theorem reads_bind (hreader : Reports reader file) {m : Reader α} {f : α → Reader β} {rest : List UInt8}
    {mid : Option (List UInt8)} {last : List UInt8 → Option (List UInt8)}
    (hm : Reads file m rest mid) (hf : ∀ a rest, Reads file (f a) rest (last rest))
    (hcalls : ∀ a, Calls reader (f a)) : Reads file (m >>= f) rest (mid.bind last) := by
  cases mid with
  | none =>
      intro s b s' hat hrun
      obtain ⟨a, t, hfirst, hrest⟩ := run_bind hrun
      exact (hcalls a).past hreader (hm s a t hat hfirst) hrest
  | some middle =>
      rw [Option.bind_some]
      have hf' := fun a => hf a middle
      cases hlast : last middle with
      | none =>
          intro s b s' hat hrun
          obtain ⟨a, t, hfirst, hmid⟩ := hm s hat
          rw [bind_run hfirst] at hrun
          have hrest := hf' a
          rw [hlast] at hrest
          exact hrest t b s' hmid hrun
      | some final =>
          intro s hat
          obtain ⟨a, t, hfirst, hmid⟩ := hm s hat
          rw [bind_run hfirst]
          have hrest := hf' a
          rw [hlast] at hrest
          exact hrest t hmid

/-- A byte of the file. -/
theorem AtRest.getByte (hreader : Reports reader file) {s : Inbuf} {b : UInt8}
    {rest : List UInt8} (h : AtRest file s (b :: rest)) :
    ∃ s', getByte reader s = some (b.toNat, s') ∧ AtRest file s' rest := by
  obtain ⟨pos, hpos, hat, hdrop⟩ := h
  have hlt : pos < file.length := by
    have hlen := congrArg List.length hdrop
    rw [List.length_cons, List.length_drop] at hlen
    omega
  obtain ⟨value, s', hbyte, hmid, hvalue⟩ := hat.getByte hreader
  rw [List.drop_eq_getElem_cons hlt, List.cons.injEq] at hdrop
  refine ⟨s', ?_, pos + 1, hlt, hmid, hdrop.2⟩
  rw [hbyte, hvalue hlt, hdrop.1]
  rfl

/-- A byte from behind the file. -/
theorem AtRest.getByte_nil (hreader : Reports reader file) {s : Inbuf}
    (h : AtRest file s []) : ∃ b s', Zip.getByte reader s = some (b, s') ∧ Past file s' := by
  obtain ⟨pos, hpos, hat, hdrop⟩ := h
  have hend : file.length ≤ pos := List.drop_eq_nil_iff.mp hdrop.symm
  obtain ⟨b, s', hbyte, hmid, -⟩ := hat.getByte hreader
  exact ⟨b, s', hbyte, pos + 1, by omega, hmid⟩

theorem reads_byte (hreader : Reports reader file) {f : Nat → Reader α} {b : UInt8}
    {rest : List UInt8} {last : Option (List UInt8)} (h : Reads file (f b.toNat) rest last) :
    Reads file (getByte reader >>= f) (b :: rest) last := by
  cases last with
  | none =>
      intro s a s' hat hrun
      obtain ⟨t, hbyte, hrest⟩ := hat.getByte hreader
      rw [bind_run hbyte] at hrun
      exact h t a s' hrest hrun
  | some final =>
      intro s hat
      obtain ⟨t, hbyte, hrest⟩ := hat.getByte hreader
      rw [bind_run hbyte]
      exact h t hrest

theorem reads_noByte (hreader : Reports reader file) {f : Nat → Reader α}
    (hcalls : ∀ b, Calls reader (f b)) : Reads file (getByte reader >>= f) [] none := by
  intro s a s' hat hrun
  obtain ⟨b, t, hbyte, hpast⟩ := hat.getByte_nil hreader
  rw [bind_run hbyte] at hrun
  exact (hcalls b).past hreader hpast hrun

theorem reads_skipBytes (hreader : Reports reader file) (n : Nat) (rest : List UInt8) :
    Reads file (skipBytes reader n) rest (dropBytes n rest) := by
  induction n generalizing rest with
  | zero =>
      rw [dropBytes, if_pos (Nat.zero_le _), List.drop_zero]
      exact reads_pure () rest
  | succ n ih =>
      cases rest with
      | nil => exact reads_noByte hreader fun _ => calls_skipBytes reader n
      | cons b rest =>
          have hdrop : dropBytes (n + 1) (b :: rest) = dropBytes n rest := by simp [dropBytes]
          rw [hdrop]
          exact reads_byte hreader (ih rest)

theorem reads_skipString (hreader : Reports reader file) {fuel : Nat} {rest : List UInt8}
    (hfuel : rest.length < fuel) : Reads file (skipString reader fuel) rest (dropString rest) := by
  induction fuel generalizing rest with
  | zero => exact absurd hfuel (Nat.not_lt_zero _)
  | succ fuel ih =>
      have hcalls : ∀ byte : Nat,
          Calls reader (if byte ≠ 0 then skipString reader fuel else pure ()) := by
        intro byte
        split
        · exact calls_skipString reader fuel
        · exact calls_pure ()
      cases rest with
      | nil => exact reads_noByte hreader hcalls
      | cons b rest =>
          apply reads_byte hreader
          by_cases hzero : b = 0
          · subst hzero
            have hdrop : dropString (0 :: rest) = some rest := by simp [dropString]
            rw [hdrop]
            exact reads_pure () rest
          · have hbyte : b.toNat ≠ 0 := fun h => hzero (UInt8.toNat.inj h)
            have hdrop : dropString (b :: rest) = dropString rest := by
              simp [dropString, hzero, Ne.symm hzero]
            rw [if_pos hbyte, hdrop]
            exact ih (Nat.lt_of_succ_lt_succ hfuel)

def readIf (flag : Prop) [Decidable flag] (m : Reader Unit) : Reader Unit :=
  if flag then m else pure ()

theorem reads_if {m : Reader Unit} {drop : List UInt8 → Option (List UInt8)} {rest : List UInt8}
    (flag : Prop) [Decidable flag] (hm : Reads file m rest (drop rest)) :
    Reads file (readIf flag m) rest (dropIf flag drop rest) := by
  unfold readIf dropIf
  split
  · exact hm
  · exact reads_pure () rest

theorem calls_if {m : Reader Unit} (flag : Prop) [Decidable flag] (hm : Calls reader m) :
    Calls reader (readIf flag m) := by
  unfold readIf
  split
  · exact hm
  · exact calls_pure ()

end

/-! ## The method of a file -/

/-- The two length bytes of an extra field and the field. -/
def skipExtra (reader : FileReader) : Reader Unit := do
  let low ← getByte reader
  let high ← getByte reader
  skipBytes reader (low ||| high <<< 8)

/-- `get_method` behind the flags. -/
def skipFields (reader : FileReader) (fuel flags : Nat) : Reader Unit := do
  skipBytes reader 6
  readIf (flags &&& 0x04 ≠ 0) (skipExtra reader)
  readIf (flags &&& 0x08 ≠ 0) (skipString reader fuel)
  readIf (flags &&& 0x10 ≠ 0) (skipString reader fuel)

/-- `get_method` behind the magic number. -/
def getFields (reader : FileReader) (fuel : Nat) : Reader Int := do
  let method ← getByte reader
  let flags ← getByte reader
  if Rejected flags then pure (-1)
  else do
    skipFields reader fuel flags
    return method

theorem getMethod_eq (fuel : Nat) :
    getMethod reader fuel = do
      let magic0 ← getByte reader
      let magic1 ← getByte reader
      if magic0 = 0x1f ∧ (magic1 = 0x8b ∨ magic1 = 0x9e) then getFields reader fuel
      else return -1 := by
  unfold getMethod
  congr
  funext magic0
  congr
  funext magic1
  congr
  funext method
  congr
  funext flags
  unfold Rejected skipFields skipExtra readIf
  by_cases hencrypted : flags &&& 0x20 ≠ 0
  · simp [hencrypted]
  by_cases hmulti : flags &&& 0x02 ≠ 0
  · simp [hmulti]
  by_cases hreserved : flags &&& 0xc0 ≠ 0
  · simp [hreserved]
  by_cases hextra : flags &&& 0x04 ≠ 0 <;> by_cases hname : flags &&& 0x08 ≠ 0 <;>
    by_cases hcomment : flags &&& 0x10 ≠ 0 <;>
    simp [hencrypted, hmulti, hreserved, hextra, hname, hcomment]

theorem calls_skipExtra (reader : FileReader) : Calls reader (skipExtra reader) :=
  calls_bind (calls_getByte reader) fun _ =>
    calls_bind (calls_getByte reader) fun _ => calls_skipBytes reader _

theorem reads_skipExtra (hreader : Reports reader file) (rest : List UInt8) :
    Reads file (skipExtra reader) rest (dropExtra rest) := by
  match rest with
  | [] =>
      exact reads_noByte hreader fun _ =>
        calls_bind (calls_getByte reader) fun _ => calls_skipBytes reader _
  | [low] =>
      exact reads_byte hreader (reads_noByte hreader fun _ => calls_skipBytes reader _)
  | low :: high :: rest =>
      exact reads_byte hreader (reads_byte hreader (reads_skipBytes hreader _ rest))

theorem calls_skipFields (reader : FileReader) (fuel flags : Nat) :
    Calls reader (skipFields reader fuel flags) :=
  calls_bind (calls_skipBytes reader 6) fun _ =>
    calls_bind (calls_if _ (calls_skipExtra reader)) fun _ =>
      calls_bind (calls_if _ (calls_skipString reader fuel)) fun _ =>
        calls_if _ (calls_skipString reader fuel)

theorem AtRest.length_le {s : Inbuf} {rest : List UInt8} (h : AtRest file s rest) :
    rest.length ≤ file.length := by
  obtain ⟨pos, -, -, rfl⟩ := h
  rw [List.length_drop]
  omega

/-- A reader need only be followed where it stands in the file. -/
theorem reads_of_length {α : Type} {m : Reader α} {rest : List UInt8}
    {last : Option (List UInt8)} (h : rest.length ≤ file.length → Reads file m rest last) :
    Reads file m rest last := by
  cases last with
  | none => exact fun s a s' hat => h hat.length_le s a s' hat
  | some final => exact fun s hat => h hat.length_le s hat

theorem reads_skipFields (hreader : Reports reader file) {fuel : Nat} (flags : Nat)
    (rest : List UInt8) (hfuel : file.length < fuel) :
    Reads file (skipFields reader fuel flags) rest (dropFields flags rest) := by
  have hstring : ∀ rest, Reads file (skipString reader fuel) rest (dropString rest) := fun rest =>
    reads_of_length fun hlen => reads_skipString hreader (by omega)
  have hcalls := calls_skipString reader fuel
  exact reads_bind hreader (reads_skipBytes hreader 6 rest)
    (fun _ rest => reads_bind hreader (reads_if _ (reads_skipExtra hreader rest))
      (fun _ rest => reads_bind hreader (reads_if _ (hstring rest))
        (fun _ rest => reads_if _ (hstring rest))
        (fun _ => calls_if _ hcalls))
      (fun _ => calls_bind (calls_if _ hcalls) fun _ => calls_if _ hcalls))
    (fun _ => calls_bind (calls_if _ (calls_skipExtra reader)) fun _ =>
      calls_bind (calls_if _ hcalls) fun _ => calls_if _ hcalls)

theorem calls_flags (reader : FileReader) (fuel method flags : Nat) :
    Calls reader (if Rejected flags then pure (-1) else do
      skipFields reader fuel flags
      return (method : Int)) := by
  split
  · exact calls_pure _
  · exact calls_bind (calls_skipFields reader fuel flags) fun _ => calls_pure _

theorem calls_getFields (reader : FileReader) (fuel : Nat) :
    Calls reader (getFields reader fuel) :=
  calls_bind (calls_getByte reader) fun method =>
    calls_bind (calls_getByte reader) fun flags => calls_flags reader fuel method flags

theorem reads_getFields (hreader : Reports reader file) {fuel : Nat} (rest : List UInt8)
    (hfuel : file.length < fuel) :
    Reads file (getFields reader fuel) rest (afterMagic rest) := by
  match rest with
  | [] =>
      exact reads_noByte hreader fun method =>
        calls_bind (calls_getByte reader) fun flags => calls_flags reader fuel method flags
  | [method] =>
      exact reads_byte hreader (reads_noByte hreader fun flags => calls_flags reader fuel _ flags)
  | method :: flags :: rest =>
      apply reads_byte hreader
      apply reads_byte hreader
      rw [afterMagic]
      by_cases hrejected : Rejected flags.toNat
      · rw [if_pos hrejected, if_pos hrejected]
        exact reads_pure _ rest
      · have hfields := reads_bind hreader (reads_skipFields hreader flags.toNat rest hfuel)
          (fun _ rest => reads_pure (method.toNat : Int) rest) (fun _ => calls_pure _)
        rw [Option.bind_fun_some] at hfields
        rw [if_neg hrejected, if_neg hrejected]
        exact hfields

theorem calls_magic (reader : FileReader) (fuel magic0 magic1 : Nat) :
    Calls reader (if magic0 = 0x1f ∧ (magic1 = 0x8b ∨ magic1 = 0x9e) then getFields reader fuel
      else pure (-1)) := by
  split
  · exact calls_getFields reader fuel
  · exact calls_pure _

theorem calls_getMethod (reader : FileReader) (fuel : Nat) :
    Calls reader (getMethod reader fuel) := by
  rw [getMethod_eq]
  exact calls_bind (calls_getByte reader) fun magic0 =>
    calls_bind (calls_getByte reader) fun magic1 => calls_magic reader fuel magic0 magic1

/-- `get_method` reads as far as `afterMethod` says. -/
theorem reads_getMethod (hreader : Reports reader file) {fuel : Nat} (rest : List UInt8)
    (hfuel : file.length < fuel) :
    Reads file (getMethod reader fuel) rest (afterMethod rest) := by
  rw [getMethod_eq]
  match rest with
  | [] =>
      exact reads_noByte hreader fun magic0 =>
        calls_bind (calls_getByte reader) fun magic1 => calls_magic reader fuel magic0 magic1
  | [magic0] =>
      exact reads_byte hreader (reads_noByte hreader fun magic1 => calls_magic reader fuel _ magic1)
  | magic0 :: magic1 :: rest =>
      apply reads_byte hreader
      apply reads_byte hreader
      rw [afterMethod]
      split
      · exact reads_getFields hreader rest hfuel
      · exact reads_pure _ rest

/-- `get_method` returns, and the bytes that it was given are the first ones of
the file. -/
def MethodFromFile (reader : FileReader) (file : List UInt8) (mem : Buffer) : Prop :=
  ∃ limit, ∀ fuel, limit ≤ fuel →
    ∃ method s n, getMethod reader fuel (cleared mem) = some (method, s) ∧
      getBytes reader n (cleared mem) = some ((file.take n).map UInt8.toNat, s)

theorem methodFromFile_of_within (hreader : Reports reader file) (mem : Buffer)
    (h : HeaderWithin file) : MethodFromFile reader file mem := by
  obtain ⟨last, hlast⟩ := Option.isSome_iff_exists.mp h
  have hstart : AtRest file (cleared mem) file :=
    ⟨0, Nat.zero_le _, at_cleared file mem, List.drop_zero.symm⟩
  refine ⟨file.length + 1, fun fuel hfuel => ?_⟩
  have hreads := reads_getMethod hreader file hfuel
  rw [hlast] at hreads
  obtain ⟨method, s, hrun, pos, hpos, hat, -⟩ := hreads _ hstart
  obtain ⟨n, bytes, hbytes⟩ := calls_getMethod reader fuel _ method s hrun
  obtain ⟨_, s', hcalls, hend, -, hfile⟩ := (at_cleared file mem).getBytes hreader n
  cases hbytes.symm.trans hcalls
  rw [Nat.zero_add] at hend hfile
  cases hat.pos_eq hend
  exact ⟨method, s, pos, hrun, by rw [hbytes, hfile hpos, List.drop_zero]⟩

theorem within_of_methodFromFile (hreader : Reports reader file) (mem : Buffer)
    (h : MethodFromFile reader file mem) : HeaderWithin file := by
  obtain ⟨limit, h⟩ := h
  obtain ⟨method, s, n, hrun, hbytes⟩ := h (limit + file.length + 1) (by omega)
  have hstart : AtRest file (cleared mem) file :=
    ⟨0, Nat.zero_le _, at_cleared file mem, List.drop_zero.symm⟩
  have hreads := reads_getMethod hreader file
    (show file.length < limit + file.length + 1 by omega)
  unfold HeaderWithin
  cases hlast : afterMethod file with
  | some last => rfl
  | none =>
      -- more bytes were given than the file has
      rw [hlast] at hreads
      obtain ⟨pos, hpos, hat⟩ := hreads _ method s hstart hrun
      obtain ⟨_, s', hcalls, hend, -, -⟩ := (at_cleared file mem).getBytes hreader n
      have hn := (getBytes_file_iff hreader mem n).mp ⟨s, hbytes⟩
      cases hbytes.symm.trans hcalls
      have hsame := hat.pos_eq hend
      omega

/-- `get_byte` gives the file's bytes exactly as long as there are some, and
`get_method` returns with nothing but bytes of the file exactly if the header
that the file starts with ends in the file. -/
theorem input_ends_with_file_iff (hreader : Reports reader file) (mem : Buffer) :
    (∀ n, (∃ s, getBytes reader n (cleared mem) = some ((file.take n).map UInt8.toNat, s)) ↔
        n ≤ file.length) ∧
      (MethodFromFile reader file mem ↔ HeaderWithin file) :=
  ⟨getBytes_file_iff hreader mem,
    ⟨within_of_methodFromFile hreader mem, methodFromFile_of_within hreader mem⟩⟩

end

theorem input_ends_with_named_file :
    let file : List UInt8 := [0x1f, 0x8b, 8, 8, 0, 0, 0, 0, 0, 3, 65, 0]
    (∀ n, (∃ s, getBytes (fileReader file 0) n (cleared fun _ => 0) =
          some ((file.take n).map UInt8.toNat, s)) ↔ n ≤ file.length) ∧
      (MethodFromFile (fileReader file 0) file (fun _ => 0) ↔ HeaderWithin file) :=
  input_ends_with_file_iff (fileReader_reports _ 0) _

/-! ## A name without an end -/

/-- The last block is scanned again and again when there is no zero byte in it. -/
theorem skipString_stuck {file : List UInt8} {pad : UInt8} (fuel : Nat) {s : Inbuf}
    (hend : file.length ≤ inbufSize * s.blockNumber) (hsize : s.insize = inbufSize)
    (hbuf : ∀ i < inbufSize, s.inbuf i ≠ 0) :
    skipString (fileReader file pad) fuel s = none := by
  induction fuel generalizing s with
  | zero => rfl
  | succ fuel ih =>
      have hbyte : ∀ i < inbufSize, (s.inbuf i).toNat ≠ 0 := fun i hi h =>
        hbuf i hi (UInt8.toNat.inj h)
      by_cases hleft : s.inptr < s.insize
      · have hget : getByte (fileReader file pad) s =
            some ((s.inbuf s.inptr).toNat, { s with inptr := s.inptr + 1 }) := if_pos hleft
        rw [skipString, bind_run hget, if_pos (hbyte _ (hsize ▸ hleft))]
        exact ih hend hsize hbuf
      · have hfill : (fillInbuf (fileReader file pad) s).inbuf = s.inbuf := by
          simp [fillInbuf, fileReader, Nat.not_lt.mpr hend]
        have hget : getByte (fileReader file pad) s =
            some ((s.inbuf 0).toNat, fillInbuf (fileReader file pad) s) := by
          rw [getByte, if_neg hleft, hfill]
        rw [skipString, bind_run hget, if_pos (hbyte 0 (by decide))]
        apply ih
        · exact Nat.le_trans hend (Nat.mul_le_mul_left _ (Nat.le_succ _))
        · rfl
        · rwa [hfill]

/-- A file that ends where its name should start. -/
def cutFile : List UInt8 := [0x1f, 0x8b, 8, 8, 1, 1, 1, 1, 1, 3]

theorem cutFile_never_ends :
    Reports (fileReader cutFile 65) cutFile ∧
      ∀ fuel, getMethod (fileReader cutFile 65) fuel (cleared fun _ => 0) = none := by
  refine ⟨fileReader_reports cutFile 65, fun fuel => ?_⟩
  have hstuck : skipString (fileReader cutFile 65) fuel
      { fillInbuf (fileReader cutFile 65) (cleared fun _ => 0) with inptr := 10 } = none := by
    refine skipString_stuck fuel (by decide) rfl fun i _ => ?_
    have hbyte : ∀ b ∈ cutFile, b ≠ 0 := forall_of_all (by decide)
    change cutFile.getD (inbufSize * 0 + i) 65 ≠ 0
    rw [Nat.mul_zero, Nat.zero_add, List.getD_eq_getElem?_getD]
    cases hi : cutFile[i]? with
    | none => decide
    | some b => exact hbyte b (List.mem_of_getElem? hi)
  have hrun : getMethod (fileReader cutFile 65) fuel (cleared fun _ => 0) =
      ((skipString (fileReader cutFile 65) fuel >>= fun _ => pure ()) >>= fun _ => pure 8)
        { fillInbuf (fileReader cutFile 65) (cleared fun _ => 0) with inptr := 10 } := by
    rw [getMethod_eq]
    rfl
  rw [hrun]
  simp [bind, StateT.bind, hstuck]

end Milo.Zip
