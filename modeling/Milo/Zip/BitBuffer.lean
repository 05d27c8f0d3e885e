import Milo.Foundation.BitOrder
import Milo.Zip.Inflate

/-! # The bit buffer

The bytes that `get_byte` will give are a stream of bits, the low bits of a byte first.
The bit buffer holds the next bits of the stream, up to the end of a byte.
-/

namespace Milo.Zip

open Foundation

/-! ## Runs -/

section
variable {α β : Type} {m : Inflate α} {f : α → Inflate β} {s s' mid : Inflater}

/-- What comes of a run. -/
def Inflate.out (m : Inflate α) (s : Inflater) : Option (Except Nat (α × Inflater)) := m s

def Returns (m : Inflate α) (s : Inflater) (a : α) (s' : Inflater) : Prop :=
  m.out s = some (.ok (a, s'))

def Fails (m : Inflate α) (s : Inflater) (r : Nat) : Prop := m.out s = some (.error r)

theorem Returns.unique {a a' : α} (h : Returns m s a s') (h' : Returns m s a' mid) :
    a' = a ∧ mid = s' := by
  have heq := h'.symm.trans h
  simpa using heq

theorem Fails.not_returns {r : Nat} {a : α} (h : Fails m s r) (h' : Returns m s a s') : False := by
  have heq := h.symm.trans h'
  simp at heq

theorem bind_out : (m >>= f).out s = (m.out s).bind fun
    | .ok (a, mid) => (f a).out mid
    | .error r => some (.error r) := by
  simp only [Inflate.out, bind, StateT.bind, ExceptT.bind, ExceptT.mk]
  cases m s with
  | none => rfl
  | some out => cases out <;> rfl

/-- What a part that has returned leaves to be done. -/
theorem Returns.bind_out {a : α} (h : Returns m s a mid) : (m >>= f).out s = (f a).out mid := by
  rw [Zip.bind_out, h]
  rfl

theorem Returns.bind_iff {a : α} {b : β} (h : Returns m s a mid) :
    Returns (m >>= f) s b s' ↔ Returns (f a) mid b s' := by
  rw [Returns, Returns, h.bind_out]

theorem Returns.bind {a : α} {b : β} (h : Returns m s a mid) (hf : Returns (f a) mid b s') :
    Returns (m >>= f) s b s' := h.bind_iff.mpr hf

theorem Returns.fails {a : α} {r : Nat} (h : Returns m s a mid) (hf : Fails (f a) mid r) :
    Fails (m >>= f) s r := by
  rw [Fails, h.bind_out]
  exact hf

theorem Fails.bind {r : Nat} (h : Fails m s r) : Fails (m >>= f) s r := by
  rw [Fails, bind_out, h]
  rfl

theorem returns_bind {b : β} :
    Returns (m >>= f) s b s' ↔ ∃ a mid, Returns m s a mid ∧ Returns (f a) mid b s' := by
  constructor
  · intro h
    rw [Returns, bind_out] at h
    obtain ⟨out, hm, hrest⟩ := Option.bind_eq_some_iff.mp h
    cases out with
    | error r => simp at hrest
    | ok out => exact ⟨out.1, out.2, hm, hrest⟩
  · intro ⟨a, mid, h, hf⟩
    exact h.bind hf

theorem returns_iff_of_out {a b : α} (h : m.out s = some (.ok (b, mid))) :
    Returns m s a s' ↔ a = b ∧ s' = mid := by
  rw [Returns, h]
  simp [eq_comm]

@[simp] theorem returns_pure {a b : α} : Returns (pure a) s b s' ↔ b = a ∧ s' = s :=
  returns_iff_of_out rfl

@[simp] theorem returns_get {t : Inflater} : Returns get s t s' ↔ t = s ∧ s' = s :=
  returns_iff_of_out rfl

@[simp] theorem returns_modify {g : Inflater → Inflater} {u : Unit} :
    Returns (modify g) s u s' ↔ s' = g s := by
  rw [returns_iff_of_out rfl]
  simp

theorem fails_throw (r : Nat) : Fails (throw r : Inflate α) s r := rfl

@[simp] theorem returns_throw {r : Nat} {a : α} : ¬ Returns (throw r : Inflate α) s a s' :=
  (fails_throw r).not_returns

@[simp] theorem returns_stuck {a : α} : ¬ Returns (stuck : Inflate α) s a s' :=
  fun h => Option.some_ne_none _ h.symm

@[simp] theorem returns_require {o : Option α} {a : α} :
    Returns (require o) s a s' ↔ o = some a ∧ s' = s := by
  cases o with
  | none => simp [require]
  | some b => simp [require, eq_comm]

@[simp] theorem returns_get_bind {g : Inflater → Inflate β} {b : β} :
    Returns (get >>= g) s b s' ↔ Returns (g s) s b s' := by
  simp [returns_bind]

@[simp] theorem returns_modify_bind {g : Inflater → Inflater} {k : Unit → Inflate β} {b : β} :
    Returns (modify g >>= k) s b s' ↔ Returns (k ()) (g s) b s' := by
  rw [returns_bind]
  constructor
  · intro ⟨_, mid, hmod, hk⟩
    rwa [returns_modify.mp hmod] at hk
  · exact fun h => ⟨(), g s, returns_modify.mpr rfl, h⟩

@[simp] theorem returns_require_bind {o : Option α} {b : β} :
    Returns (require o >>= f) s b s' ↔ ∃ a, o = some a ∧ Returns (f a) s b s' := by
  simp [returns_bind, and_assoc]

end

/-! ## The stream -/

section
variable (reader : FileReader) (start : Inbuf)

/-- The input after a call of `get_byte`. -/
def nextInput (s : Inbuf) : Inbuf :=
  if s.inptr < s.insize then { s with inptr := s.inptr + 1 } else fillInbuf reader s

/-- What a call of `get_byte` gives. -/
def nextValue (s : Inbuf) : Nat :=
  if s.inptr < s.insize then (s.inbuf s.inptr).toNat else ((fillInbuf reader s).inbuf 0).toNat

def inputAfter : Nat → Inbuf
  | 0 => start
  | n + 1 => nextInput reader (inputAfter n)

/-- The bytes to come. -/
def byteAt (n : Nat) : Nat := nextValue reader (inputAfter reader start n)

/-- The bits to come. -/
def bitAt (i : Nat) : Bool := (byteAt reader start (i / 8)).testBit (i % 8)

theorem getByte_eq (s : Inbuf) :
    getByte reader s = some (nextValue reader s, nextInput reader s) := by
  unfold getByte nextValue nextInput
  split <;> rfl

variable {reader} in
theorem returns_nextByte {s : Inflater} {byte : Nat} {input : Inbuf}
    (h : getByte reader s.input = some (byte, input)) :
    Returns (nextByte reader) s byte { s with input := input } := by
  unfold Returns Inflate.out nextByte
  rw [h]
  rfl

theorem byteAt_lt (n : Nat) : byteAt reader start n < 2 ^ 8 := by
  unfold byteAt nextValue
  split <;> exact UInt8.toNat_lt _

theorem byteAt_eq_lowFirst (n : Nat) :
    byteAt reader start n = lowFirst (bitAt reader start) (8 * n) 8 := by
  apply Nat.eq_of_testBit_eq
  intro i
  rw [testBit_lowFirst, bitAt]
  by_cases hi : i < 8
  · rw [show (8 * n + i) / 8 = n by omega, show (8 * n + i) % 8 = i by omega]
    simp [hi]
  · have hlt := Nat.lt_of_lt_of_le (byteAt_lt reader start n)
      (Nat.pow_le_pow_right (show 0 < 2 by decide) (Nat.le_of_not_lt hi))
    rw [Nat.testBit_lt_two_pow hlt]
    simp [hi]

end

/-! ## The buffer holds the next bits -/

/-- The buffer holds the bits of the stream from `p` on, and the input is at the byte
behind them. -/
structure Reading (reader : FileReader) (start : Inbuf) (s : Inflater) (p : Nat) : Prop where
  aligned : (p + s.bk) % 8 = 0
  input : s.input = inputAfter reader start ((p + s.bk) / 8)
  buffer : s.bb = lowFirst (bitAt reader start) p s.bk

/-- The globals that are not about the input. -/
def Inflater.output (s : Inflater) : Buffer × Nat × List Window := (s.window, s.outcnt, s.flushed)

section
variable {reader : FileReader} {start : Inbuf} {s : Inflater} {p : Nat}

theorem Reading.nextByte (h : Reading reader start s p) :
    Returns (nextByte reader) s (lowFirst (bitAt reader start) (p + s.bk) 8)
      { s with input := inputAfter reader start ((p + s.bk) / 8 + 1) } := by
  have haligned := h.aligned
  have hbyte := byteAt_eq_lowFirst reader start ((p + s.bk) / 8)
  rw [show 8 * ((p + s.bk) / 8) = p + s.bk by omega] at hbyte
  rw [← hbyte]
  apply returns_nextByte
  rw [h.input]
  exact getByte_eq reader _

/-- One turn of the loop over bytes. -/
theorem Reading.fill (h : Reading reader start s p) (hbk : s.bk + 8 ≤ 64) :
    Reading reader start { s with
      input := inputAfter reader start ((p + s.bk) / 8 + 1)
      bb := (s.bb ||| lowFirst (bitAt reader start) (p + s.bk) 8 <<< s.bk) % 2 ^ 64
      bk := s.bk + 8 } p where
  aligned := by
    have := h.aligned
    dsimp only
    omega
  input := by
    have := h.aligned
    dsimp only
    congr 1
    omega
  buffer := by
    dsimp only
    rw [h.buffer, lowFirst_append, Nat.mod_eq_of_lt]
    exact Nat.lt_of_lt_of_le (lowFirst_lt _ _ _) (Nat.pow_le_pow_right (by decide) hbk)

theorem Reading.fillBits (h : Reading reader start s p) (n left : Nat) (hn : n ≤ 57)
    (hleft : n ≤ s.bk + 8 * left) :
    ∃ s', Returns (fillBits reader n left) s () s' ∧ Reading reader start s' p ∧
      n ≤ s'.bk ∧ s'.bk ≤ max s.bk (n + 7) ∧ s'.output = s.output := by
  induction left generalizing s with
  | zero => exact ⟨s, rfl, h, by omega, Nat.le_max_left _ _, rfl⟩
  | succ left ih =>
      by_cases hmore : s.bk < n
      · obtain ⟨s', hrun, hread, hlo, hhi, hout⟩ := ih (h.fill (by omega)) (by dsimp only; omega)
        refine ⟨s', ?_, hread, hlo, ?_, hout⟩
        · rw [Zip.fillBits, returns_get_bind, if_pos hmore]
          exact h.nextByte.bind (returns_modify_bind.mpr hrun)
        · dsimp only at hhi
          omega
      · refine ⟨s, ?_, h, by omega, Nat.le_max_left _ _, rfl⟩
        rw [Zip.fillBits, returns_get_bind, if_neg hmore]
        exact returns_pure.mpr ⟨rfl, rfl⟩

theorem Reading.needBits (h : Reading reader start s p) (n : Nat) (hn : n ≤ 57) :
    ∃ s', Returns (needBits reader n) s () s' ∧ Reading reader start s' p ∧
      n ≤ s'.bk ∧ s'.bk ≤ max s.bk (n + 7) ∧ s'.output = s.output :=
  h.fillBits n n hn (by omega)

theorem Reading.dumpBits (h : Reading reader start s p) {n : Nat} (hn : n ≤ s.bk)
    (hbk : s.bk < 2 ^ 32) :
    ∃ s', Returns (dumpBits n) s () s' ∧ Reading reader start s' (p + n) ∧
      s'.bk = s.bk - n ∧ s'.output = s.output := by
  have hleft : (s.bk + 2 ^ 32 - n) % 2 ^ 32 = s.bk - n := by
    rw [show s.bk + 2 ^ 32 - n = s.bk - n + 2 ^ 32 by omega, Nat.add_mod_right,
      Nat.mod_eq_of_lt (by omega)]
  have haligned := h.aligned
  refine ⟨_, returns_modify.mpr rfl, ⟨?_, ?_, ?_⟩, hleft, rfl⟩
  · dsimp only
    omega
  · dsimp only
    rw [hleft, h.input, Nat.add_assoc, Nat.add_sub_cancel' hn]
  · dsimp only
    rw [hleft, h.buffer, ← lowFirst_shiftRight, Nat.add_sub_cancel' hn]

theorem Reading.lowBits (h : Reading reader start s p) {n : Nat} (hn : n ≤ s.bk) (hlow : n ≤ 32) :
    Returns (lowBits (2 ^ n - 1)) s (lowFirst (bitAt reader start) p n) s := by
  refine returns_get_bind.mpr (returns_pure.mpr ⟨?_, rfl⟩)
  rw [Nat.and_two_pow_sub_one_eq_mod, Nat.mod_mod_of_dvd _ (Nat.pow_dvd_pow 2 hlow), h.buffer,
    lowFirst_mod _ _ hn]

/-- Between two parts of `inflate` the buffer holds less than two bytes. -/
structure Ready (reader : FileReader) (start : Inbuf) (s : Inflater) (p : Nat) : Prop
    extends Reading reader start s p where
  few : s.bk ≤ 15

/-- The part gives `a` for the bits from `p` to `p'`, and does nothing else. -/
def Takes {α : Type} (reader : FileReader) (start : Inbuf) (m : Inflate α) (p : Nat) (a : α)
    (p' : Nat) : Prop :=
  ∀ s, Ready reader start s p →
    ∃ s', Returns m s a s' ∧ Ready reader start s' p' ∧ s'.output = s.output

theorem Takes.bind {α β : Type} {m : Inflate α} {f : α → Inflate β} {a : α} {b : β}
    {p' p'' : Nat} (h : Takes reader start m p a p') (hf : Takes reader start (f a) p' b p'') :
    Takes reader start (m >>= f) p b p'' := by
  intro s hs
  obtain ⟨mid, hrun, hmid, hout⟩ := h s hs
  obtain ⟨s', hrest, hend, hout'⟩ := hf mid hmid
  exact ⟨s', hrun.bind hrest, hend, hout'.trans hout⟩

theorem takes_pure {α : Type} (a : α) (p : Nat) : Takes reader start (pure a) p a p :=
  fun s hs => ⟨s, returns_pure.mpr ⟨rfl, rfl⟩, hs, rfl⟩

/-- Looking at `n` bits leaves them in the buffer until they are dumped. -/
theorem Ready.needBits (h : Ready reader start s p) {n : Nat} (hn : n ≤ 16) :
    ∃ s', Returns (Zip.needBits reader n) s () s' ∧ Reading reader start s' p ∧ n ≤ s'.bk ∧
      s'.bk ≤ max 15 (n + 7) ∧ s'.output = s.output := by
  obtain ⟨s', hrun, hread, hlo, hhi, hout⟩ := h.toReading.needBits n (by omega)
  have := h.few
  exact ⟨s', hrun, hread, hlo, by omega, hout⟩

variable (reader start) in
theorem takes_takeBits (n p : Nat) (hn : n ≤ 16) :
    Takes reader start (takeBits reader n) p (lowFirst (bitAt reader start) p n) (p + n) := by
  intro s hs
  obtain ⟨mid, hrun, hread, hlo, hhi, hout⟩ := hs.needBits hn
  obtain ⟨s', hdump, hend, hbk, hout'⟩ := hread.dumpBits hlo (by omega)
  refine ⟨s', ?_, ⟨hend, by omega⟩, hout'.trans hout⟩
  exact hrun.bind ((hread.lowBits hlo (by omega)).bind
    (hdump.bind (returns_pure.mpr ⟨rfl, rfl⟩)))

theorem maskBits_eq {e : Nat} (he : e ≤ 16) : maskBits[e]? = some (2 ^ e - 1) := by
  have hall : ∀ e < 17, maskBits[e]? = some (2 ^ e - 1) := by decide
  exact hall e (by omega)

variable (reader start) in
theorem takes_extraBits (e p : Nat) (he : e ≤ 16) :
    Takes reader start (extraBits reader e) p (lowFirst (bitAt reader start) p e) (p + e) := by
  have heq : extraBits reader e = takeBits reader e := by
    rw [extraBits, takeBits, maskBits_eq he]
    rfl
  rw [heq]
  exact takes_takeBits reader start e p he

end

end Milo.Zip
