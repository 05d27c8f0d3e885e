import Milo.Foundation.PackedRuns

/-! # The compression of ROM images

`compress` keeps the characters of the input on a stack until a run of equal
ones is met, which becomes records of its own. Every character goes through
`output_c`, which counts it; the counts for the statistics are left out.
-/

namespace Milo.Rom

open Foundation

def maxDifferent : Nat := 127
def maxRepeat : Nat := 128
def minRepeat : Nat := 2
def maxBuffer : Nat := 2 * (minRepeat + maxDifferent)

/-- The values of `state`. -/
inductive RunState where
  | repeating
  | none

/-- The variables of `compress`; the stack is a variable of the program. -/
structure Encoder where
  out : List Int
  buffer : List Int
  state : RunState
  repeats : Int
  last : Int

def Encoder.write (e : Encoder) (cs : List Int) : Encoder := { e with out := e.out ++ cs }

/-! ## The stack -/

/-- `pop`. It ends the program if the stack is empty; the character is not used. -/
def pop (e : Encoder) : Option Encoder :=
  if e.buffer = [] then Option.none else some { e with buffer := e.buffer.dropLast }

/-- The records of `flush` from index `i` of the stack on, at most `n` of them. -/
def flushFrom (buffer : List Int) (i : Nat) : Nat → List Int
  | 0 => []
  | n + 1 =>
      if i < buffer.length then
        let length := min maxDifferent (buffer.length - i)
        (length : Int) :: (buffer.drop i).take length ++ flushFrom buffer (i + maxDifferent) n
      else []

/-- `flush` -/
def flush (e : Encoder) : Encoder :=
  { e.write (flushFrom e.buffer 0 e.buffer.length) with buffer := [] }

/-- `push` -/
def push (e : Encoder) (c : Int) : Encoder :=
  let e := if e.buffer.length = maxBuffer then flush e else e
  { e with buffer := e.buffer ++ [c] }

/-- `while (repeat--) push(last, out)` for a `repeat` that is not negative. -/
def pushRun (e : Encoder) (c : Int) : Nat → Encoder
  | 0 => e
  | n + 1 => pushRun (push e c) c n

/-- The records of `Repeater` from index `i` of the run on, at most `n` of them. -/
def repeaterFrom (c : Int) (repeats i : Int) : Nat → List Int
  | 0 => []
  | n + 1 =>
      if repeats > i then
        -(min (maxRepeat : Int) (repeats - i)) :: c :: repeaterFrom c repeats (i + maxRepeat) n
      else []

/-- `Repeater` -/
def repeater (e : Encoder) (c : Int) (repeats : Int) : Encoder :=
  e.write (repeaterFrom c repeats 0 repeats.toNat)

/-! ## The encoder -/

/-- One turn of the loop of `compress`. -/
def turn (e : Encoder) (this : Int) : Option Encoder :=
  match e.state with
  | .repeating =>
      if e.last = this then some { e with repeats := e.repeats + 1, last := this }
      else
        let e := { e with state := .none }
        let e :=
          if e.repeats < (minRepeat : Int) + 1 then
            { pushRun e e.last e.repeats.toNat with repeats := -1 }
          else { repeater (flush e) e.last e.repeats with repeats := 0 }
        some { push e this with last := this }
  | .none =>
      if e.last = this then
        (pop e).map fun e => { e with state := .repeating, repeats := 2, last := this }
      else some { push e this with last := this }

/-- The loop, for the characters that `getc` yields before the end of the file. -/
def turns (e : Encoder) : List Int → Option Encoder
  | [] => some e
  | this :: rest => (turn e this).bind fun e => turns e rest

/-- What is left at the end of the file, the end of the stream, and zeros up to a
multiple of 4. -/
def finish (e : Encoder) : Encoder :=
  let e := flush e
  let e := (repeater e e.last e.repeats).write [0]
  e.write (List.replicate ((4 - e.out.length % 4) % 4) 0)

/-- `EOF` -/
def eof : Int := -1

/-- `compress`: the characters that go through `output_c`, and the stack that is
left. The first `getc` of an empty file yields `EOF`. -/
def compress (buffer : List Int) (input : List UInt8) : Option (List Int × List Int) :=
  let cs := input.map fun c => (c.toNat : Int)
  let last := cs.headD eof
  let e := push ⟨[], buffer, .none, 0, last⟩ last
  (turns e cs.tail).map fun e => ((finish e).out, (finish e).buffer)

/-- `fputc`, and the cast of `COMPUTE_CHECKSUM`, keep the low byte. -/
def outputByte (c : Int) : UInt8 := UInt8.ofNat (c % 256).toNat

/-! ## Records -/

/-- What has been written are the records of a text. -/
def Packs (out : List Int) (text : List UInt8) : Prop :=
  ∃ records : List PackedRecord, (∀ r ∈ records, r.Valid) ∧
    out.map outputByte = records.flatMap PackedRecord.pack ∧
    records.flatMap PackedRecord.expand = text

theorem packs_nil : Packs [] [] := ⟨[], by simp, rfl, rfl⟩

theorem Packs.append {out out' : List Int} {text text' : List UInt8} (h : Packs out text)
    (h' : Packs out' text') : Packs (out ++ out') (text ++ text') := by
  obtain ⟨records, hvalid, hpack, hexpand⟩ := h
  obtain ⟨records', hvalid', hpack', hexpand'⟩ := h'
  refine ⟨records ++ records', ?_, ?_, ?_⟩
  · intro r hr
    rcases List.mem_append.mp hr with hr | hr
    · exact hvalid r hr
    · exact hvalid' r hr
  · rw [List.map_append, hpack, hpack', List.flatMap_append]
  · rw [List.flatMap_append, hexpand, hexpand']

theorem outputByte_natCast (n : Nat) : outputByte (n : Int) = UInt8.ofNat (n % 256) := rfl

theorem outputByte_toNat (c : UInt8) : outputByte (c.toNat : Int) = c := by
  rw [outputByte_natCast, Nat.mod_eq_of_lt c.toNat_lt, UInt8.ofNat_toNat]

theorem packs_literal (cs : List Int) (hpos : 0 < cs.length) (hle : cs.length ≤ maxDifferent) :
    Packs ((cs.length : Int) :: cs) (cs.map outputByte) := by
  refine ⟨[.literal (cs.map outputByte)], ?_, ?_, ?_⟩
  · intro r hr
    rw [List.mem_singleton.mp hr]
    have hlength : (cs.map outputByte).length = cs.length := List.length_map outputByte
    exact ⟨hlength ▸ hpos, hlength ▸ hle⟩
  · unfold maxDifferent at hle
    rw [List.map_cons, outputByte_natCast, Nat.mod_eq_of_lt (by omega)]
    simp [PackedRecord.pack]
  · simp [PackedRecord.expand]

theorem packs_run {n : Nat} (c : Int) (hpos : 0 < n) (hle : n ≤ maxRepeat) :
    Packs [-(n : Int), c] (List.replicate n (outputByte c)) := by
  refine ⟨[.run n (outputByte c)], ?_, ?_, ?_⟩
  · intro r hr
    rw [List.mem_singleton.mp hr]
    exact ⟨hpos, hle⟩
  · have hbyte : outputByte (-(n : Int)) = UInt8.ofNat (256 - n) := by
      unfold maxRepeat at hle
      unfold outputByte
      congr 1
      omega
    rw [List.map_cons, hbyte]
    rfl
  · simp [PackedRecord.expand]

/-- The stack goes out as records of at most 127 characters. -/
theorem flushFrom_packs (buffer : List Int) (i n : Nat) (h : buffer.length ≤ i + n) :
    Packs (flushFrom buffer i n) ((buffer.drop i).map outputByte) := by
  induction n generalizing i with
  | zero =>
      have hnone : buffer.drop i = [] := List.drop_eq_nil_of_le h
      rw [hnone]
      exact packs_nil
  | succ n ih =>
      unfold flushFrom
      split
      · rename_i hlt
        have hmax : 0 < maxDifferent := by decide
        have hlength : ((buffer.drop i).take (min maxDifferent (buffer.length - i))).length =
            min maxDifferent (buffer.length - i) := by
          rw [List.length_take, List.length_drop]
          omega
        have hfirst := packs_literal ((buffer.drop i).take (min maxDifferent (buffer.length - i)))
          (by omega) (by omega)
        have hrest := ih (i + maxDifferent) (by omega)
        have hsplit : (buffer.drop i).map outputByte =
            ((buffer.drop i).take (min maxDifferent (buffer.length - i))).map outputByte ++
              (buffer.drop (i + maxDifferent)).map outputByte := by
          rw [← List.map_append]
          congr 1
          by_cases hlast : buffer.length - i ≤ maxDifferent
          · have htail : buffer.drop (i + maxDifferent) = [] := List.drop_eq_nil_of_le (by omega)
            rw [Nat.min_eq_right hlast, List.take_of_length_le (Nat.le_of_eq List.length_drop), htail,
              List.append_nil]
          · rw [Nat.min_eq_left (by omega), ← List.drop_drop, List.take_append_drop]
        rw [hlength] at hfirst
        rw [hsplit]
        exact hfirst.append hrest
      · rename_i hend
        rw [List.drop_eq_nil_of_le (by omega)]
        exact packs_nil

/-- A run goes out as records of at most 128 characters. -/
theorem repeaterFrom_packs (c repeats i : Int) (n : Nat) (h : repeats ≤ i + n) :
    Packs (repeaterFrom c repeats i n) (List.replicate (repeats - i).toNat (outputByte c)) := by
  induction n generalizing i with
  | zero =>
      have hnone : (repeats - i).toNat = 0 := by omega
      rw [hnone]
      exact packs_nil
  | succ n ih =>
      unfold repeaterFrom
      split
      · rename_i hmore
        have hmax : maxRepeat = 128 := rfl
        have hfirst := packs_run (n := (min (maxRepeat : Int) (repeats - i)).toNat) c (by omega)
          (by omega)
        have hcast : (((min (maxRepeat : Int) (repeats - i)).toNat : Nat) : Int) =
            min (maxRepeat : Int) (repeats - i) := by omega
        have hrest := ih (i + maxRepeat) (by omega)
        have hsplit : (repeats - i).toNat = (min (maxRepeat : Int) (repeats - i)).toNat +
            (repeats - (i + maxRepeat)).toNat := by omega
        rw [hcast] at hfirst
        rw [hsplit, List.replicate_add]
        exact hfirst.append hrest
      · have hnone : (repeats - i).toNat = 0 := by omega
        rw [hnone]
        exact packs_nil

/-! ## What is held -/

/-- The records that were written and the stack, which is no larger than its
array, stand for a text. -/
structure Holds (e : Encoder) (text : List UInt8) : Prop where
  text : ∃ before, Packs e.out before ∧ before ++ e.buffer.map outputByte = text
  fits : e.buffer.length ≤ maxBuffer

theorem flush_holds {e : Encoder} {text : List UInt8} (h : Holds e text) :
    Holds (flush e) text ∧ Packs (flush e).out text := by
  obtain ⟨before, hpacks, htext⟩ := h.text
  have hflush := flushFrom_packs e.buffer 0 e.buffer.length (by omega)
  have hall := hpacks.append hflush
  rw [List.drop_zero, htext] at hall
  exact ⟨⟨⟨text, hall, List.append_nil text⟩, Nat.zero_le _⟩, hall⟩

theorem push_holds {e : Encoder} {text : List UInt8} (h : Holds e text) (c : Int) :
    Holds (push e c) (text ++ [outputByte c]) := by
  unfold push
  simp only
  split
  · obtain ⟨before, hpacks, htext⟩ := (flush_holds h).1.text
    refine ⟨⟨before, hpacks, ?_⟩, ?_⟩
    · rw [List.map_append, ← List.append_assoc, htext]
      rfl
    · exact (by decide : 1 ≤ maxBuffer)
  · rename_i hroom
    obtain ⟨before, hpacks, htext⟩ := h.text
    have hfits := h.fits
    refine ⟨⟨before, hpacks, ?_⟩, ?_⟩
    · rw [List.map_append, ← List.append_assoc, htext]
      rfl
    · rw [List.length_append, List.length_singleton]
      omega

/-- What the encoder keeps beside the stack. -/
structure SameRun (e e' : Encoder) : Prop where
  state : e'.state = e.state
  repeats : e'.repeats = e.repeats
  last : e'.last = e.last

theorem push_sameRun (e : Encoder) (c : Int) : SameRun e (push e c) := by
  unfold push
  simp only
  split <;> exact ⟨rfl, rfl, rfl⟩

theorem push_top (e : Encoder) (c : Int) : ∃ below, (push e c).buffer = below ++ [c] :=
  ⟨_, rfl⟩

theorem pushRun_sameRun (e : Encoder) (c : Int) (n : Nat) : SameRun e (pushRun e c n) := by
  induction n generalizing e with
  | zero => exact ⟨rfl, rfl, rfl⟩
  | succ n ih =>
      have hpush := push_sameRun e c
      have hrest := ih (push e c)
      exact ⟨hrest.state.trans hpush.state, hrest.repeats.trans hpush.repeats,
        hrest.last.trans hpush.last⟩

theorem pushRun_holds {e : Encoder} {text : List UInt8} (h : Holds e text) (c : Int) (n : Nat) :
    Holds (pushRun e c n) (text ++ List.replicate n (outputByte c)) := by
  induction n generalizing e text with
  | zero => rwa [List.replicate_zero, List.append_nil]
  | succ n ih =>
      have hrest := ih (push_holds h c)
      rwa [List.append_assoc, List.singleton_append, ← List.replicate_succ] at hrest

/-- A run is written behind a stack that was flushed. -/
theorem repeater_packs {e : Encoder} {text : List UInt8} (h : Packs e.out text) (c repeats : Int) :
    Packs (repeater e c repeats).out (text ++ List.replicate repeats.toNat (outputByte c)) := by
  have hrun := repeaterFrom_packs c repeats 0 repeats.toNat (by omega)
  rw [Int.sub_zero] at hrun
  exact h.append hrun

/-- The character on top of the stack is taken off. -/
theorem pop_holds {e : Encoder} {text : List UInt8} {below : List Int} {c : Int}
    (h : Holds e text) (hbuffer : e.buffer = below ++ [c]) :
    ∃ e' before, pop e = some e' ∧ Holds e' before ∧ text = before ++ [outputByte c] ∧
      e'.last = e.last := by
  obtain ⟨before, hpacks, htext⟩ := h.text
  have hfits := h.fits
  unfold pop
  rw [if_neg (by rw [hbuffer]; simp), hbuffer, List.dropLast_concat]
  rw [hbuffer, List.length_append] at hfits
  have hless : below.length ≤ maxBuffer := Nat.le_trans (Nat.le_add_right _ _) hfits
  refine ⟨_, before ++ below.map outputByte, rfl, ⟨⟨before, hpacks, rfl⟩, hless⟩, ?_, rfl⟩
  rw [← htext, hbuffer, List.map_append, ← List.append_assoc]
  rfl

/-! ## The encoder -/

/-- The encoder has taken in a text and is not in a run: the last character is on
top of the stack. -/
structure Literal (e : Encoder) (text : List UInt8) : Prop where
  state : e.state = .none
  holds : Holds e text
  top : ∃ below, e.buffer = below ++ [e.last]
  repeats : e.repeats ≤ 0

/-- The encoder is in a run, which is not on the stack. -/
structure Running (e : Encoder) (text : List UInt8) : Prop where
  state : e.state = .repeating
  holds : ∃ before, Holds e before ∧
    text = before ++ List.replicate e.repeats.toNat (outputByte e.last)
  repeats : 2 ≤ e.repeats

/-- The next character of the text goes on the stack. -/
theorem push_literal {e : Encoder} {text : List UInt8} (hholds : Holds e text)
    (hstate : e.state = .none) (hrepeats : e.repeats ≤ 0) (c : Int) :
    Literal { push e c with last := c } (text ++ [outputByte c]) := by
  have hpush := push_holds hholds c
  have hsame := push_sameRun e c
  exact ⟨hsame.state.trans hstate, ⟨hpush.text, hpush.fits⟩, push_top e c,
    hsame.repeats ▸ hrepeats⟩

theorem turn_literal {e : Encoder} {text : List UInt8} (h : Literal e text) (this : Int) :
    ∃ e', turn e this = some e' ∧
      (Literal e' (text ++ [outputByte this]) ∨ Running e' (text ++ [outputByte this])) := by
  unfold turn
  rw [h.state]
  simp only
  split
  · rename_i hsame
    obtain ⟨below, hbuffer⟩ := h.top
    obtain ⟨e', before, hpop, hbefore, htext, _⟩ := pop_holds h.holds hbuffer
    rw [hpop]
    refine ⟨_, rfl, Or.inr ⟨rfl, ⟨before, ⟨hbefore.text, hbefore.fits⟩, ?_⟩, Int.le_refl 2⟩⟩
    rw [htext, hsame, List.append_assoc]
    rfl
  · exact ⟨_, rfl, Or.inl (push_literal h.holds h.state h.repeats this)⟩

theorem turn_running {e : Encoder} {text : List UInt8} (h : Running e text) (this : Int) :
    ∃ e', turn e this = some e' ∧
      (Literal e' (text ++ [outputByte this]) ∨ Running e' (text ++ [outputByte this])) := by
  obtain ⟨before, hholds, htext⟩ := h.holds
  have hrepeats := h.repeats
  unfold turn
  rw [h.state]
  simp only
  split
  · rename_i hsame
    have hmore : (e.repeats + 1).toNat = e.repeats.toNat + 1 := by omega
    refine ⟨_, rfl, Or.inr ⟨rfl, ⟨before, ⟨hholds.text, hholds.fits⟩, ?_⟩, ?_⟩⟩
    · rw [htext, ← hsame, List.append_assoc, hmore, List.replicate_succ']
    · exact Int.le_trans hrepeats (by simp only; omega)
  · -- The run has ended: it goes on the stack, or behind what was on it.
    refine ⟨_, rfl, Or.inl ?_⟩
    split
    · have hrun := pushRun_holds (e := { e with state := .none }) ⟨hholds.text, hholds.fits⟩ e.last
        e.repeats.toNat
      have hsame := pushRun_sameRun { e with state := .none } e.last e.repeats.toNat
      rw [← htext] at hrun
      refine push_literal ?_ ?_ ?_ this
      · exact ⟨hrun.text, hrun.fits⟩
      · exact hsame.state
      · exact (by decide : (-1 : Int) ≤ 0)
    · have hflush := (flush_holds hholds).2
      have hrun := repeater_packs (e := flush { e with state := .none }) hflush e.last e.repeats
      rw [← htext] at hrun
      refine push_literal ?_ ?_ ?_ this
      · exact ⟨⟨text, hrun, List.append_nil text⟩, Nat.zero_le _⟩
      · rfl
      · exact Int.le_refl 0

theorem turns_encode {e : Encoder} {text : List UInt8} (h : Literal e text ∨ Running e text)
    (cs : List Int) :
    ∃ e', turns e cs = some e' ∧
      (Literal e' (text ++ cs.map outputByte) ∨ Running e' (text ++ cs.map outputByte)) := by
  induction cs generalizing e text with
  | nil =>
      rw [List.map_nil, List.append_nil]
      exact ⟨e, rfl, h⟩
  | cons this rest ih =>
      have hturn : ∃ e', turn e this = some e' ∧
          (Literal e' (text ++ [outputByte this]) ∨ Running e' (text ++ [outputByte this])) := by
        rcases h with h | h
        · exact turn_literal h this
        · exact turn_running h this
      obtain ⟨e', he', hnext⟩ := hturn
      have hrest := ih hnext
      rw [List.append_assoc] at hrest
      rw [turns, he']
      exact hrest

/-- What is left is written, and the stream ends. -/
theorem finish_packs {e : Encoder} {text : List UInt8} (h : Literal e text ∨ Running e text) :
    ∃ written padding, (finish e).out = written ++ 0 :: padding ∧ Packs written text ∧
      (finish e).buffer = [] := by
  have hrun : ∃ before, Holds e before ∧
      text = before ++ List.replicate e.repeats.toNat (outputByte e.last) := by
    rcases h with h | h
    · have hnone : e.repeats.toNat = 0 := by
        have hrepeats := h.repeats
        omega
      refine ⟨text, h.holds, ?_⟩
      rw [hnone, List.replicate_zero, List.append_nil]
    · exact h.holds
  obtain ⟨before, hholds, htext⟩ := hrun
  have hflush := (flush_holds hholds).2
  have hpacks := repeater_packs (e := flush e) hflush e.last e.repeats
  rw [← htext] at hpacks
  have hout : ∃ padding, (finish e).out = (repeater (flush e) e.last e.repeats).out ++ 0 :: padding := by
    unfold finish Encoder.write
    simp only
    rw [List.append_assoc, List.singleton_append]
    exact ⟨_, rfl⟩
  obtain ⟨padding, hout⟩ := hout
  exact ⟨_, padding, hout, hpacks, rfl⟩

theorem finish_aligned (e : Encoder) : (finish e).out.length % 4 = 0 := by
  unfold finish Encoder.write
  simp only [List.length_append, List.length_replicate]
  omega

/-- A call over a text that is not empty writes its stream and leaves an empty stack. -/
theorem compress_spec {input : List UInt8} (h : input ≠ []) :
    ∃ out, compress [] input = some (out, []) ∧ unpack (out.map outputByte) = some input ∧
      out.length % 4 = 0 := by
  obtain ⟨c, rest, rfl⟩ := List.exists_cons_of_ne_nil h
  have hempty : Holds ⟨[], [], .none, 0, (c.toNat : Int)⟩ [] :=
    ⟨⟨[], packs_nil, rfl⟩, Nat.zero_le _⟩
  have hfirst := push_literal hempty rfl (Int.le_refl 0) (c.toNat : Int)
  obtain ⟨e, hturns, hencoded⟩ := turns_encode (Or.inl hfirst) (rest.map fun c => (c.toNat : Int))
  obtain ⟨written, padding, hout, hpacks, hbuffer⟩ := finish_packs hencoded
  have hbytes : (rest.map fun c => (c.toNat : Int)).map outputByte = rest := by
    rw [List.map_map]
    exact (List.map_congr_left fun c _ => outputByte_toNat c).trans (List.map_id rest)
  rw [List.nil_append, outputByte_toNat, hbytes] at hpacks
  obtain ⟨records, hvalid, hpack, hexpand⟩ := hpacks
  refine ⟨(finish e).out, ?_, ?_, finish_aligned e⟩
  · have hcall : compress [] (c :: rest) =
        (turns { push ⟨[], [], .none, 0, (c.toNat : Int)⟩ (c.toNat : Int) with last := c.toNat }
          (rest.map fun c => (c.toNat : Int))).map fun e => ((finish e).out, (finish e).buffer) := rfl
    rw [hcall, hturns, Option.map_some, hbuffer]
  · rw [hout, List.map_append, hpack, List.map_cons]
    have hstream := unpack_records (padding.map outputByte) hvalid
    rw [hexpand] at hstream
    exact hstream

end Milo.Rom
