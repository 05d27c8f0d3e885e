import Milo.Zip.BitBuffer

/-! # The window that is flushed

The window is a ring that shows the last bytes of the text, and what has been flushed
is the text up to its last full round. The text starts with what the window held at
first, so that a copy from in front of the output has its place as well.
-/

namespace Milo.Zip

open Foundation

/-- The bytes that a call of `flush_window` copies. -/
def Window.bytes (w : Window) : List UInt8 := (List.range w.outcnt).map w.window

def flushedBytes (windows : List Window) : List UInt8 := windows.flatMap Window.bytes

/-- The window shows the text and has been flushed as often as it was full. -/
structure Written (s : Inflater) (text : List UInt8) : Prop where
  shows : Shows wsize s.window text
  rounds : ∃ k, text.length = wsize * (k + 1) + s.outcnt
  room : s.outcnt ≤ wsize
  flushed : flushedBytes s.flushed = (text.take (text.length - s.outcnt)).drop wsize
  sizes : ∀ w ∈ s.flushed, w.outcnt = wsize

/-- The same with room for the next byte. -/
structure Settled (s : Inflater) (text : List UInt8) : Prop extends Written s text where
  next : s.outcnt < wsize

/-- The globals of the input side. -/
def Inflater.reading (s : Inflater) : Inbuf × Nat × Nat := (s.input, s.bb, s.bk)

section
variable {s s' : Inflater} {text : List UInt8}

theorem Written.of_output (h : Written s text) (hout : s'.output = s.output) :
    Written s' text := by
  obtain ⟨hwindow, hrest⟩ := Prod.mk.inj hout
  obtain ⟨houtcnt, hflushed⟩ := Prod.mk.inj hrest
  obtain ⟨hshows, hrounds, hroom, hbytes, hsizes⟩ := h
  constructor
  · rwa [hwindow]
  · rwa [houtcnt]
  · rwa [houtcnt]
  · rwa [hflushed, houtcnt]
  · rwa [hflushed]

theorem Settled.of_output (h : Settled s text) (hout : s'.output = s.output) :
    Settled s' text := by
  have hnext : s'.outcnt = s.outcnt := congrArg (fun o => o.2.1) hout
  exact ⟨h.toWritten.of_output hout, by rw [hnext]; exact h.next⟩

theorem Ready.of_reading {reader : FileReader} {start : Inbuf} {p : Nat}
    (h : Ready reader start s p) (hsame : s'.reading = s.reading) : Ready reader start s' p := by
  obtain ⟨hinput, hrest⟩ := Prod.mk.inj hsame
  obtain ⟨hbb, hbk⟩ := Prod.mk.inj hrest
  obtain ⟨⟨haligned, hin, hbuffer⟩, hfew⟩ := h
  refine ⟨⟨?_, ?_, ?_⟩, ?_⟩
  · rwa [hbk]
  · rw [hinput, hbk, hin]
  · rw [hbb, hbk, hbuffer]
  · rwa [hbk]

/-! ## Flushing -/

theorem flushedBytes_append (ws : List Window) (w : Window) :
    flushedBytes (ws ++ [w]) = flushedBytes ws ++ w.bytes := by
  simp [flushedBytes]

/-- The part of the window in front of `outcnt` is the end of the text. -/
theorem Written.bytes (h : Written s text) :
    Window.bytes ⟨s.outcnt, s.window⟩ = text.drop (text.length - s.outcnt) := by
  obtain ⟨k, hk⟩ := h.rounds
  rw [show text.length - s.outcnt = wsize * (k + 1) by omega]
  exact (h.shows.this_round hk h.room).symm

/-- With what is left in the window, all of the text behind its start is flushed. -/
theorem Written.flushed_last (h : Written s text) :
    flushedBytes (s.flushed ++ [⟨s.outcnt, s.window⟩]) = text.drop wsize := by
  obtain ⟨k, hk⟩ := h.rounds
  have hle : wsize ≤ (text.take (text.length - s.outcnt)).length := by
    rw [List.length_take]
    rw [Nat.mul_succ] at hk
    omega
  rw [flushedBytes_append, h.bytes, h.flushed, ← List.drop_append_of_le_length hle,
    List.take_append_drop]

theorem Written.flushFull (h : Written s text) :
    ∃ s', Returns flushFull s () s' ∧ Settled s' text ∧ s'.reading = s.reading := by
  obtain ⟨k, hk⟩ := h.rounds
  have hsize : 0 < wsize := by decide
  by_cases hfull : s.outcnt = wsize
  · let s' : Inflater :=
      { s with flushed := s.flushed ++ [⟨s.outcnt, s.window⟩], outcnt := 0 }
    refine ⟨s', ?_, ⟨⟨h.shows, ⟨k + 1, ?_⟩, Nat.zero_le _, ?_, ?_⟩, hsize⟩, rfl⟩
    · rw [Zip.flushFull, returns_get_bind, if_pos hfull]
      exact returns_modify_bind.mpr (returns_modify.mpr rfl)
    · change text.length = wsize * (k + 1 + 1) + 0
      rw [hk, hfull, Nat.mul_add_one wsize (k + 1)]
      rfl
    · change flushedBytes (s.flushed ++ [⟨s.outcnt, s.window⟩]) = _
      rw [h.flushed_last, Nat.sub_zero, List.take_length]
    · intro w hw
      rcases List.mem_append.mp hw with hw | hw
      · exact h.sizes w hw
      · rw [List.mem_singleton.mp hw]
        exact hfull
  · refine ⟨s, ?_, ⟨h, Nat.lt_of_le_of_ne h.room hfull⟩, rfl⟩
    rw [Zip.flushFull, returns_get_bind, if_neg hfull]
    exact returns_pure.mpr ⟨rfl, rfl⟩

/-- What is put behind the text without a flush. -/
theorem Settled.extend (h : Settled s text) {window : Buffer} {more : List UInt8}
    (hshows : Shows wsize window (text ++ more)) (hroom : s.outcnt + more.length ≤ wsize) :
    Written { s with window := window, outcnt := s.outcnt + more.length } (text ++ more) where
  shows := hshows
  rounds := by
    obtain ⟨k, hk⟩ := h.rounds
    refine ⟨k, ?_⟩
    dsimp only
    rw [List.length_append, hk, Nat.add_assoc]
  room := hroom
  flushed := by
    dsimp only
    rw [List.length_append, Nat.add_sub_add_right, List.take_append_of_le_length (Nat.sub_le _ _)]
    exact h.flushed
  sizes := h.sizes

theorem Settled.outcnt_eq (h : Settled s text) : s.outcnt = text.length % wsize := by
  obtain ⟨k, hk⟩ := h.rounds
  rw [hk, Nat.mul_add_mod, Nat.mod_eq_of_lt h.next]

theorem Settled.putByte (h : Settled s text) (c : UInt8) :
    ∃ s', Returns (putByte c) s () s' ∧ Settled s' (text ++ [c]) ∧ s'.reading = s.reading := by
  have hpush := h.shows.push c
  rw [← h.outcnt_eq] at hpush
  obtain ⟨s', hrun, hend, hsame⟩ := (h.extend hpush h.next).flushFull
  exact ⟨s', returns_modify_bind.mpr hrun, hend, hsame⟩

/-! ## Copies -/

/-- Where a byte some places back stands in the window. -/
theorem Settled.back_eq (h : Settled s text) {dist : Nat} (hpos : 0 < dist) (hle : dist ≤ wsize) :
    (text.length - dist) % wsize =
      if dist ≤ s.outcnt then s.outcnt - dist else s.outcnt + wsize - dist := by
  obtain ⟨k, hk⟩ := h.rounds
  have hnext := h.next
  split
  · rw [show text.length - dist = wsize * (k + 1) + (s.outcnt - dist) by omega, Nat.mul_add_mod,
      Nat.mod_eq_of_lt (by omega)]
  · rw [Nat.mul_succ] at hk
    rw [show text.length - dist = wsize * k + (s.outcnt + wsize - dist) by omega, Nat.mul_add_mod,
      Nat.mod_eq_of_lt (by omega)]

theorem Settled.moveBytes (h : Settled s text) {dist d e : Nat} (hpos : 0 < dist)
    (hle : dist ≤ wsize) (hd : d = (text.length - dist) % wsize) (hde : d + e ≤ wsize)
    (hwe : s.outcnt + e ≤ wsize) :
    Written { s with window := moveSlots s.window s.outcnt d e, outcnt := s.outcnt + e }
      (repeatBack text dist e) := by
  obtain ⟨k, hk⟩ := h.rounds
  rw [Nat.mul_succ] at hk
  have hmoved := h.shows.moveSlots hpos (by omega) hle h.outcnt_eq hd hwe hde
  have hlen := repeatBack_length text e hpos (by omega)
  obtain ⟨more, hmore⟩ := prefix_repeatBack text dist e
  rw [hmore] at hmoved hlen ⊢
  rw [List.length_append] at hlen
  obtain rfl : more.length = e := by omega
  exact h.extend hmoved hwe

theorem chunk_le {w d n : Nat} (hw : w ≤ wsize) (hd : d ≤ wsize) :
    chunk w d n ≤ n ∧ d + chunk w d n ≤ wsize ∧ w + chunk w d n ≤ wsize := by
  unfold chunk
  dsimp only
  split <;> split <;> omega

theorem low_eq_mod (d : Nat) : d &&& (wsize - 1) = d % wsize := Nat.and_two_pow_sub_one_eq_mod d 15

theorem copyBack_succ (left n d : Nat) :
    copyBack (left + 1) n d = get >>= fun t =>
      moveChunk t.outcnt (d % wsize) (chunk t.outcnt (d % wsize) n) >>= fun _ =>
        flushFull >>= fun _ =>
          if n - chunk t.outcnt (d % wsize) n ≠ 0 then
            copyBack left (n - chunk t.outcnt (d % wsize) n)
              (d % wsize + chunk t.outcnt (d % wsize) n)
          else pure () := by
  rw [← low_eq_mod, copyBack]

/-- The move of one turn, if it comes back. -/
theorem moveChunk_returns {d e : Nat} {u : Unit} (h : Returns (moveChunk s.outcnt d e) s u s') :
    s' = { s with window := moveSlots s.window s.outcnt d e, outcnt := s.outcnt + e } := by
  unfold moveChunk at h
  split at h
  · rw [copyBytes, returns_get_bind] at h
    dsimp only at h
    split at h
    · exact returns_modify.mp h
    · exact absurd h returns_stuck
  · exact returns_modify.mp h

/-- `memcpy` is only used on parts of the window that lie apart, if nothing is copied
from just behind the place it goes to. -/
theorem Settled.moveChunk (h : Settled s text) {dist d e : Nat} (hpos : 0 < dist)
    (hle : dist ≤ wsize) (hd : d = (text.length - dist) % wsize)
    (hapart : dist = wsize ∨ dist + e ≤ wsize) :
    Returns (moveChunk s.outcnt d e) s ()
      { s with window := moveSlots s.window s.outcnt d e, outcnt := s.outcnt + e } := by
  have hnext := h.next
  have hsmall : wsize < 2 ^ 32 := by decide
  rw [h.back_eq hpos hle] at hd
  unfold Zip.moveChunk
  by_cases hbehind : d ≤ s.outcnt
  · have hdiff : (s.outcnt + 2 ^ 32 - d) % 2 ^ 32 = s.outcnt - d := by
      rw [show s.outcnt + 2 ^ 32 - d = s.outcnt - d + 2 ^ 32 by omega, Nat.add_mod_right,
        Nat.mod_eq_of_lt (by omega)]
    rw [hdiff]
    split
    · rw [copyBytes, returns_get_bind, if_pos (.inr (by omega))]
      exact returns_modify.mpr rfl
    · exact returns_modify.mpr rfl
  · -- the place it comes from is the one in front, a round before
    have hgap : s.outcnt + e ≤ d := by
      split at hd <;> omega
    split
    · rw [copyBytes, returns_get_bind, if_pos (.inl hgap)]
      exact returns_modify.mpr rfl
    · exact returns_modify.mpr rfl

/-- The source of the next turn. -/
theorem Settled.back_add (h : Settled s text) {dist e : Nat} (hpos : 0 < dist)
    (hle : dist ≤ wsize) :
    ((text.length - dist) % wsize + e) % wsize =
      ((repeatBack text dist e).length - dist) % wsize := by
  obtain ⟨k, hk⟩ := h.rounds
  rw [Nat.mul_succ] at hk
  rw [repeatBack_length text e hpos (by omega),
    show text.length + e - dist = text.length - dist + e by omega, Nat.mod_add_mod]

/-- The loop repeats what stands some places back, if it comes back. -/
theorem copyBack_sound {left n d dist : Nat} {u : Unit} (h : Settled s text) (hpos : 0 < dist)
    (hle : dist ≤ wsize) (hd : d % wsize = (text.length - dist) % wsize)
    (hrun : Returns (copyBack left n d) s u s') :
    Settled s' (repeatBack text dist n) ∧ s'.reading = s.reading := by
  induction left generalizing s text n d with
  | zero => exact absurd hrun returns_stuck
  | succ left ih =>
      have hsize : 0 < wsize := by decide
      have hdlt := Nat.mod_lt d hsize
      obtain ⟨hen, hde, hwe⟩ := chunk_le (n := n) h.room (Nat.le_of_lt hdlt)
      rw [copyBack_succ, returns_get_bind] at hrun
      generalize chunk s.outcnt (d % wsize) n = e at *
      obtain ⟨_, mid, hmove, hrest⟩ := returns_bind.mp hrun
      obtain ⟨_, mid', hflush, hlast⟩ := returns_bind.mp hrest
      have hwritten := h.moveBytes hpos hle hd hde hwe
      rw [← moveChunk_returns hmove] at hwritten
      obtain ⟨t, hflush', hmid, hsame⟩ := hwritten.flushFull
      obtain rfl := (hflush'.unique hflush).2
      have hreading : mid.reading = s.reading := by
        rw [moveChunk_returns hmove]
        rfl
      by_cases hmore : n - e ≠ 0
      · rw [if_pos hmore] at hlast
        obtain ⟨hend, hlastSame⟩ := ih hmid (by rw [hd, h.back_add hpos hle]) hlast
        rw [← repeatBack_add, Nat.add_sub_cancel' hen] at hend
        exact ⟨hend, hlastSame.trans (hsame.trans hreading)⟩
      · rw [if_neg hmore] at hlast
        obtain ⟨-, rfl⟩ := returns_pure.mp hlast
        obtain rfl : n = e := by omega
        exact ⟨hmid, hsame.trans hreading⟩

end

end Milo.Zip
