import Milo.Zip.InflateBlocks

/-! # Inflating a stream -/

namespace Milo.Zip

open Foundation

section
variable {reader : FileReader} {start : Inbuf} {s : Inflater} {p : Nat} {text : List UInt8}

/-! ## Blocks -/

/-- The input gives the bytes from `n` on. -/
def StandsAt (reader : FileReader) (start input : Inbuf) (n : Nat) : Prop :=
  getByte reader input = some (byteAt reader start n, inputAfter reader start (n + 1))

theorem standsAt_inputAfter (reader : FileReader) (start : Inbuf) (n : Nat) :
    StandsAt reader start (inputAfter reader start n) n := getByte_eq reader _

/-- The last byte can be given back, also when the buffer has been filled for it. -/
theorem getByte_undo (reader : FileReader) (s : Inbuf) :
    getByte reader { nextInput reader s with inptr := (nextInput reader s).inptr - 1 } =
      some (nextValue reader s, nextInput reader s) := by
  by_cases hleft : s.inptr < s.insize
  · have hnext : nextInput reader s = { s with inptr := s.inptr + 1 } := if_pos hleft
    have hvalue : nextValue reader s = (s.inbuf s.inptr).toNat := if_pos hleft
    rw [hnext, hvalue, Nat.add_sub_cancel]
    exact if_pos hleft
  · have hnext : nextInput reader s = fillInbuf reader s := if_neg hleft
    have hvalue : nextValue reader s = ((fillInbuf reader s).inbuf 0).toNat := if_neg hleft
    rw [hnext, hvalue]
    exact if_pos (show 0 < inbufSize by decide)

/-- The buffer is never longer than its memory. -/
def Inbuf.Fits (s : Inbuf) : Prop := s.inptr ≤ s.insize ∧ s.insize ≤ inbufSize

theorem nextInput_fits {s : Inbuf} (h : s.Fits) : (nextInput reader s).Fits := by
  unfold nextInput
  split
  · exact ⟨by dsimp only; omega, h.2⟩
  · exact ⟨show 1 ≤ inbufSize by decide, Nat.le_refl _⟩

variable (reader) in
theorem inputAfter_fits (h : start.Fits) (n : Nat) : (inputAfter reader start n).Fits := by
  induction n with
  | zero => exact h
  | succ n ih => exact nextInput_fits ih

variable (reader) in
theorem nextInput_pos (s : Inbuf) : 0 < (nextInput reader s).inptr := by
  unfold nextInput
  split
  · exact Nat.succ_pos _
  · exact Nat.one_pos

theorem undoLookahead_eq {bk inptr : Nat} (hbk : bk ≤ 15) (hpos : 8 ≤ bk → 0 < inptr)
    (hsmall : inptr ≤ 2 ^ 32) :
    undoLookahead bk bk inptr = if 8 ≤ bk then (bk - 8, inptr - 1) else (bk, inptr) := by
  cases bk with
  | zero => rfl
  | succ left =>
      rw [undoLookahead]
      by_cases hmore : 8 ≤ left + 1
      · have hinptr : (inptr + 2 ^ 32 - 1) % 2 ^ 32 = inptr - 1 := by
          have := hpos hmore
          omega
        rw [if_pos hmore, if_pos hmore, hinptr]
        cases left with
        | zero => rfl
        | succ left => rw [undoLookahead, if_neg (by omega)]
      · rw [if_neg hmore, if_neg hmore]

/-- What `inflate` does behind the last block. -/
def Inflater.finish (s : Inflater) : Inflater :=
  let (bk, inptr) := undoLookahead s.bk s.bk s.input.inptr
  { s with
    bk := bk, input := { s.input with inptr := inptr }
    flushed := s.flushed ++ [⟨s.outcnt, s.window⟩] }

/-- Bits that were read ahead are given back by the byte. -/
theorem Ready.finish (h : Ready reader start s p) (hstart : start.Fits) :
    StandsAt reader start s.finish.input (byteEnd p / 8) := by
  have haligned := h.aligned
  have hfew := h.few
  have hfits := inputAfter_fits reader hstart ((p + s.bk) / 8)
  rw [← h.input] at hfits
  have hsize : inbufSize ≤ 2 ^ 32 := by decide
  have hinput : s.finish.input =
      { s.input with inptr := (undoLookahead s.bk s.bk s.input.inptr).2 } := rfl
  have hend : byteEnd p / 8 = (p + 7) / 8 := Nat.mul_div_cancel _ (by decide)
  by_cases hmore : 8 ≤ s.bk
  · -- the last byte has been read ahead
    obtain ⟨n, hn⟩ : ∃ n, (p + s.bk) / 8 = n + 1 := ⟨(p + s.bk) / 8 - 1, by omega⟩
    have hlast : s.input = nextInput reader (inputAfter reader start n) := by
      rw [h.input, hn]
      rfl
    have hpos := nextInput_pos reader (inputAfter reader start n)
    rw [← hlast] at hpos
    rw [hinput, undoLookahead_eq hfew (fun _ => hpos) (by have := hfits.1; have := hfits.2; omega),
      if_pos hmore, hend, show (p + 7) / 8 = n by omega, hlast]
    exact getByte_undo reader _
  · rw [hinput, undoLookahead_eq hfew (fun h => absurd h hmore)
      (by have := hfits.1; have := hfits.2; omega), if_neg hmore, hend,
      show (p + 7) / 8 = (p + s.bk) / 8 by omega, h.input]
    exact standsAt_inputAfter reader start _

theorem inflate_iff {junk : Nat → Junk} {fuel : Nat} {u : Unit} {s' : Inflater} :
    Returns (inflate reader junk fuel) s u s' ↔
      ∃ mid, Returns (inflateBlocks reader junk fuel) { s with outcnt := 0, bk := 0, bb := 0 } ()
        mid ∧ s' = mid.finish := by
  unfold inflate
  rw [returns_modify_bind, returns_bind]
  constructor
  · intro ⟨_, mid, hblocks, hrest⟩
    rw [returns_modify_bind] at hrest
    exact ⟨mid, hblocks, returns_modify.mp hrest⟩
  · intro ⟨mid, hblocks, hrest⟩
    refine ⟨(), mid, hblocks, ?_⟩
    rw [returns_modify_bind]
    exact returns_modify.mpr hrest

/-! ## The whole stream -/

/-- What the window holds before, as text in front of the output. -/
def Inflater.before (s : Inflater) : List UInt8 := (List.range wsize).map s.window

theorem ready_start (s : Inflater) :
    Ready reader s.input { s with outcnt := 0, bk := 0, bb := 0 } 0 where
  aligned := rfl
  input := by
    rw [Nat.add_zero, Nat.zero_div]
    rfl
  buffer := rfl
  few := Nat.zero_le 15

theorem settled_start (hflushed : s.flushed = []) :
    Settled { s with outcnt := 0, bk := 0, bb := 0 } s.before := by
  have hlen : s.before.length = wsize := by
    rw [Inflater.before, List.length_map, List.length_range]
  refine ⟨⟨shows_range wsize s.window, ⟨0, ?_⟩, Nat.zero_le _, ?_, ?_⟩, (by decide : 0 < wsize)⟩
  · rw [hlen, Nat.zero_add, Nat.mul_one, Nat.add_zero]
  · dsimp only
    rw [hflushed, Nat.sub_zero, List.take_length, List.drop_eq_nil_iff.mpr (Nat.le_of_eq hlen)]
    rfl
  · dsimp only
    rw [hflushed]
    exact fun w hw => absurd hw List.not_mem_nil

/-- Everything has been flushed, by the window. -/
theorem Settled.finish (h : Settled s text) :
    flushedBytes s.finish.flushed = text.drop wsize ∧
      ∀ w ∈ s.finish.flushed, w.outcnt ≤ wsize := by
  refine ⟨h.flushed_last, fun w hw => ?_⟩
  rcases List.mem_append.mp hw with hw | hw
  · exact Nat.le_of_eq (h.sizes w hw)
  · rw [List.mem_singleton.mp hw]
    exact h.room

end

end Milo.Zip
