import Mathlib.Data.List.SplitBy
import Milo.Foundation.Concat
import Milo.Rom.Compress

/-! # The indices of the stack

The stack of `compress` is an array of 258 characters. `pop` reads the cell above the one
that was written last, which is not in the array when the stack is full.
-/

namespace Milo.Rom

open Foundation

/-! ## Accesses -/

/-- The cell that `pop` reads. -/
def popIndices (e : Encoder) : List Nat :=
  if e.buffer = [] then [] else [e.buffer.length]

/-- The cells that `flush` reads from index `i` on, in at most `n` records. -/
def flushIndicesFrom (height i : Nat) : Nat → List Nat
  | 0 => []
  | n + 1 =>
      if i < height then
        List.range' i (min maxDifferent (height - i)) ++
          flushIndicesFrom height (i + maxDifferent) n
      else []

def flushIndices (e : Encoder) : List Nat := flushIndicesFrom e.buffer.length 0 e.buffer.length

/-- The cells that `push` reads and writes. -/
def pushIndices (e : Encoder) : List Nat :=
  if e.buffer.length = maxBuffer then flushIndices e ++ [0] else [e.buffer.length]

def pushRunIndices (e : Encoder) (c : Int) : Nat → List Nat
  | 0 => []
  | n + 1 => pushIndices e ++ pushRunIndices (push e c) c n

/-- The cells that one turn of the loop reads and writes. -/
def turnIndices (e : Encoder) (this : Int) : List Nat :=
  match e.state with
  | .repeating =>
      if e.last = this then []
      else if e.repeats < (minRepeat : Int) + 1 then
        pushRunIndices e e.last e.repeats.toNat ++ pushIndices (pushRun e e.last e.repeats.toNat)
      else flushIndices e ++ pushIndices (flush e)
  | .none => if e.last = this then popIndices e else pushIndices e

/-- All cells are in the array. -/
def InArray (indices : List Nat) : Prop := ∀ i ∈ indices, i < maxBuffer

instance (indices : List Nat) : Decidable (InArray indices) :=
  inferInstanceAs (Decidable (∀ i ∈ indices, i < maxBuffer))

theorem inArray_append {indices indices' : List Nat} :
    InArray (indices ++ indices') ↔ InArray indices ∧ InArray indices' :=
  List.forall_mem_append

theorem flushIndicesFrom_lt (height i n : Nat) :
    ∀ j ∈ flushIndicesFrom height i n, j < height := by
  induction n generalizing i with
  | zero => nofun
  | succ n ih =>
      intro j hj
      rw [flushIndicesFrom] at hj
      split at hj
      case isTrue hlt =>
        rcases List.mem_append.mp hj with hrecord | hrest
        · rw [List.mem_range'_1] at hrecord
          omega
        · exact ih (i + maxDifferent) j hrest
      case isFalse => cases hj

theorem flushIndices_inArray {e : Encoder} (h : e.buffer.length ≤ maxBuffer) :
    InArray (flushIndices e) := fun i hi =>
  Nat.lt_of_lt_of_le (flushIndicesFrom_lt e.buffer.length 0 e.buffer.length i hi) h

theorem pushIndices_inArray {e : Encoder} (h : e.buffer.length ≤ maxBuffer) :
    InArray (pushIndices e) := by
  rw [pushIndices]
  split
  case isTrue =>
    rw [inArray_append]
    exact ⟨flushIndices_inArray h, List.forall_mem_singleton.mpr (by decide)⟩
  case isFalse hroom => exact List.forall_mem_singleton.mpr (Nat.lt_of_le_of_ne h hroom)

theorem push_length (e : Encoder) (c : Int) :
    (push e c).buffer.length =
      if e.buffer.length = maxBuffer then 1 else e.buffer.length + 1 := by
  unfold push
  simp only
  split
  case isTrue => rfl
  case isFalse => rw [List.length_append, List.length_singleton]

/-! ## Runs

Characters in runs of one or two go on the stack one after the other, until a longer run
empties it.
-/

/-- The characters put on the stack for runs of these lengths, since a longer one. -/
def literals (runs : List Nat) : Nat :=
  runs.foldl (fun count n => if n ≤ minRepeat then count + n else 0) 0

/-- No run of two or more starts with the character that fills the stack. -/
def RoomForRuns (runs : List Nat) : Prop :=
  ∀ front n back, runs = front ++ n :: back → 2 ≤ n →
    literals front % maxBuffer ≠ maxBuffer - 1

theorem literals_concat (front : List Nat) (n : Nat) :
    literals (front ++ [n]) = if n ≤ minRepeat then literals front + n else 0 := by
  rw [literals, List.foldl_append]
  rfl

theorem roomForRuns_concat (front : List Nat) (n : Nat) :
    RoomForRuns (front ++ [n]) ↔
      RoomForRuns front ∧ (2 ≤ n → literals front % maxBuffer ≠ maxBuffer - 1) := by
  constructor
  · intro h
    refine ⟨fun before m back hsplit => ?_, h front n [] rfl⟩
    apply h before m (back ++ [n])
    rw [hsplit, List.append_assoc, List.cons_append]
  · rintro ⟨hfront, hlast⟩ before m back hsplit
    rcases concat_eq_append_cons hsplit with ⟨rfl, rfl, rfl⟩ | ⟨back, rfl, rfl⟩
    · exact hlast
    · exact hfront before m back rfl

/-! ## The encoder over the input -/

/-- The encoder stands in the `n`-th character of a run behind other runs, and the cells in
`log` were used so far. -/
structure InRun (e : Encoder) (log front : List Nat) (last : UInt8) (n : Nat) : Prop where
  last : e.last = last.toNat
  nonempty : 1 ≤ n
  single : n = 1 → e.state = .none ∧ e.buffer.length = literals front % maxBuffer + 1
  more : 2 ≤ n →
    e.state = .repeating ∧ e.repeats = n ∧ e.buffer.length = literals front % maxBuffer
  log_iff : InArray log ↔ RoomForRuns (front ++ [n])

/-- A stack with `count` characters written since it was empty. -/
theorem push_height {e : Encoder} {count : Nat}
    (h : e.buffer.length = count % maxBuffer + 1) (c : Int) :
    (push e c).buffer.length = (count + 1) % maxBuffer + 1 := by
  rw [push_length, h]
  unfold maxBuffer minRepeat maxDifferent
  split <;> omega

theorem push_after_pop_height {e : Encoder} {count : Nat}
    (h : e.buffer.length = count % maxBuffer) (c : Int) :
    (push e c).buffer.length = count % maxBuffer + 1 := by
  have hlt : count % maxBuffer < maxBuffer := Nat.mod_lt _ (by decide)
  rw [push_length, h, if_neg (Nat.ne_of_lt hlt)]

theorem height_le (count : Nat) : count % maxBuffer + 1 ≤ maxBuffer :=
  Nat.mod_lt count (by decide)

/-- A run goes on. -/
theorem InRun.same {e : Encoder} {log front : List Nat} {last : UInt8} {n : Nat}
    (h : InRun e log front last n) :
    ∃ e', turn e last.toNat = some e' ∧
      InRun e' (log ++ turnIndices e last.toNat) front last (n + 1) := by
  obtain hn | hn := Nat.eq_or_lt_of_le h.nonempty
  · -- The second character takes the first one off the stack.
    obtain ⟨hstate, hheight⟩ := h.single hn.symm
    have hne : e.buffer ≠ [] := List.ne_nil_of_length_eq_add_one hheight
    have hturn : turn e last.toNat = some
        { e with buffer := e.buffer.dropLast, state := .repeating, repeats := 2,
                 last := last.toNat } := by
      simp only [turn, hstate, h.last, pop, if_neg hne, if_true, Option.map_some]
    have hindices : turnIndices e last.toNat = [literals front % maxBuffer + 1] := by
      simp only [turnIndices, hstate, h.last, popIndices, if_neg hne, hheight, if_true]
    refine ⟨_, hturn, rfl, Nat.le_add_left 1 n, by omega, fun _ => ⟨rfl, ?_, ?_⟩, ?_⟩
    · rw [← hn]
      rfl
    · simp only [List.length_dropLast, hheight, Nat.add_sub_cancel]
    · have hlog := h.log_iff
      have hlt : literals front % maxBuffer < maxBuffer := Nat.mod_lt _ (by decide)
      rw [roomForRuns_concat] at hlog ⊢
      have hroom : literals front % maxBuffer + 1 < maxBuffer ↔
          literals front % maxBuffer ≠ maxBuffer - 1 := by omega
      have hone : ¬ 2 ≤ n := by omega
      have htwo : 2 ≤ n + 1 := by omega
      rw [hindices, inArray_append, hlog, InArray, List.forall_mem_singleton, hroom]
      grind
  · obtain ⟨hstate, hrepeats, hheight⟩ := h.more hn
    have hturn : turn e last.toNat = some
        { e with repeats := e.repeats + 1, last := last.toNat } := by
      simp only [turn, hstate, h.last, if_true]
    have hindices : turnIndices e last.toNat = [] := by
      simp only [turnIndices, hstate, h.last, if_true]
    refine ⟨_, hturn, rfl, Nat.le_add_left 1 n, by omega, fun _ => ⟨hstate, ?_, hheight⟩, ?_⟩
    · simp only [hrepeats]
      omega
    · have hmore : 2 ≤ n + 1 := by omega
      rw [hindices, List.append_nil, h.log_iff, roomForRuns_concat, roomForRuns_concat]
      grind

/-- The first character of a run is pushed with cells that are in the array. -/
theorem InRun.begin {e : Encoder} {log new runs : List Nat} {c : UInt8}
    (hlog : InArray log ↔ RoomForRuns runs) (hnew : InArray new) (hlast : e.last = c.toNat)
    (hstate : e.state = .none) (hheight : e.buffer.length = literals runs % maxBuffer + 1) :
    InRun e (log ++ new) runs c 1 where
  last := hlast
  nonempty := Nat.le_refl 1
  single := fun _ => ⟨hstate, hheight⟩
  more := fun h => absurd h (by decide)
  log_iff := by
    rw [inArray_append, hlog, roomForRuns_concat]
    exact and_congr_right fun _ => iff_of_true hnew (fun h => absurd h (by decide))

theorem toNat_ne {last c : UInt8} (hc : last ≠ c) : (last.toNat : Int) ≠ c.toNat := fun h =>
  hc (UInt8.toNat_inj.mp (Int.ofNat.inj h))

theorem InRun.other_single {e : Encoder} {log front : List Nat} {last c : UInt8}
    (h : InRun e log front last 1) (hc : last ≠ c) :
    ∃ e', turn e c.toNat = some e' ∧
      InRun e' (log ++ turnIndices e c.toNat) (front ++ [1]) c 1 := by
  obtain ⟨hstate, hheight⟩ := h.single rfl
  have hne := toNat_ne hc
  have hturn : turn e c.toNat = some { push e c.toNat with last := c.toNat } := by
    simp only [turn, hstate, h.last, if_neg hne]
  have hindices : turnIndices e c.toNat = pushIndices e := by
    simp only [turnIndices, hstate, h.last, if_neg hne]
  have hnew : InArray (pushIndices e) := pushIndices_inArray (hheight ▸ height_le _)
  have hnone : (push e c.toNat).state = .none := (push_sameRun e c.toNat).state.trans hstate
  rw [hindices]
  refine ⟨_, hturn, InRun.begin h.log_iff hnew rfl hnone ?_⟩
  rw [literals_concat]
  exact push_height hheight c.toNat

/-- The two characters of the run go back on the stack. -/
theorem InRun.other_pair {e : Encoder} {log front : List Nat} {last c : UInt8}
    (h : InRun e log front last 2) (hc : last ≠ c) :
    ∃ e', turn e c.toNat = some e' ∧
      InRun e' (log ++ turnIndices e c.toNat) (front ++ [2]) c 1 := by
  obtain ⟨hstate, hrepeats, hheight⟩ := h.more (Nat.le_refl 2)
  have hne := toNat_ne hc
  have hshort : ((2 : Nat) : Int) < (minRepeat : Int) + 1 := by decide
  have hturn : turn e c.toNat = some
      { push { pushRun { e with state := .none } last.toNat 2 with repeats := -1 } c.toNat with
        last := c.toNat } := by
    simp only [turn, hstate, hrepeats, h.last, if_pos hshort, if_neg hne, Int.toNat_natCast]
  have hindices : turnIndices e c.toNat =
      pushRunIndices e last.toNat 2 ++ pushIndices (pushRun e last.toNat 2) := by
    simp only [turnIndices, hstate, hrepeats, h.last, if_pos hshort, if_neg hne,
      Int.toNat_natCast]
  have hfirst := push_after_pop_height hheight last.toNat
  have hsecond := push_height hfirst last.toNat
  have hnew : InArray (turnIndices e c.toNat) := by
    have hfits : e.buffer.length ≤ maxBuffer :=
      hheight ▸ Nat.le_of_lt (Nat.mod_lt _ (by decide))
    rw [hindices, pushRunIndices, pushRunIndices, pushRunIndices, List.append_nil,
      inArray_append, inArray_append]
    exact ⟨⟨pushIndices_inArray hfits, pushIndices_inArray (hfirst ▸ height_le _)⟩,
      pushIndices_inArray (hsecond ▸ height_le _)⟩
  let e₁ : Encoder := { e with state := .none }
  let e₂ : Encoder := { pushRun e₁ last.toNat 2 with repeats := -1 }
  have hnone : (push e₂ c.toNat).state = .none :=
    (push_sameRun e₂ c.toNat).state.trans (pushRun_sameRun e₁ last.toNat 2).state
  have hheight₁ : (push e₁ last.toNat).buffer.length = literals front % maxBuffer + 1 :=
    push_after_pop_height (e := e₁) hheight last.toNat
  have hheight₂ : e₂.buffer.length = (literals front + 1) % maxBuffer + 1 :=
    push_height hheight₁ last.toNat
  refine ⟨_, hturn, InRun.begin h.log_iff hnew rfl hnone ?_⟩
  rw [literals_concat]
  exact push_height hheight₂ c.toNat

/-- The stack is emptied, and the run is written behind it. -/
theorem InRun.other_long {e : Encoder} {log front : List Nat} {last c : UInt8} {n : Nat}
    (h : InRun e log front last n) (hn : 3 ≤ n) (hc : last ≠ c) :
    ∃ e', turn e c.toNat = some e' ∧
      InRun e' (log ++ turnIndices e c.toNat) (front ++ [n]) c 1 := by
  obtain ⟨hstate, hrepeats, hheight⟩ := h.more (by omega)
  have hne := toNat_ne hc
  have hlong : ¬ (n : Int) < (minRepeat : Int) + 1 := by
    unfold minRepeat
    omega
  have hturn : turn e c.toNat = some
      { push { repeater (flush { e with state := .none }) last.toNat n with repeats := 0 }
        c.toNat with last := c.toNat } := by
    simp only [turn, hstate, hrepeats, h.last, if_neg hlong, if_neg hne]
  have hindices : turnIndices e c.toNat = flushIndices e ++ pushIndices (flush e) := by
    simp only [turnIndices, hstate, hrepeats, h.last, if_neg hlong, if_neg hne]
  have hnew : InArray (turnIndices e c.toNat) := by
    have hfits : e.buffer.length ≤ maxBuffer :=
      hheight ▸ Nat.le_of_lt (Nat.mod_lt _ (by decide))
    rw [hindices, inArray_append]
    exact ⟨flushIndices_inArray hfits, pushIndices_inArray (Nat.zero_le maxBuffer)⟩
  let e₁ : Encoder :=
    { repeater (flush { e with state := .none }) last.toNat n with repeats := 0 }
  have hnone : (push e₁ c.toNat).state = .none := (push_sameRun e₁ c.toNat).state
  have hempty : (push e₁ c.toNat).buffer.length = 1 := push_length e₁ c.toNat
  have hshort : ¬ n ≤ minRepeat := Nat.not_le.mpr hn
  refine ⟨_, hturn, InRun.begin h.log_iff hnew rfl hnone ?_⟩
  rw [literals_concat, if_neg hshort]
  exact hempty

/-- A run ends, and the next one begins. -/
theorem InRun.other {e : Encoder} {log front : List Nat} {last c : UInt8} {n : Nat}
    (h : InRun e log front last n) (hc : last ≠ c) :
    ∃ e', turn e c.toNat = some e' ∧
      InRun e' (log ++ turnIndices e c.toNat) (front ++ [n]) c 1 := by
  match n with
  | 0 => exact absurd h.nonempty (by decide)
  | 1 => exact h.other_single hc
  | 2 => exact h.other_pair hc
  | n + 3 => exact h.other_long (Nat.le_add_left 3 n) hc

theorem InRun.fits {e : Encoder} {log front : List Nat} {last : UInt8} {n : Nat}
    (h : InRun e log front last n) : e.buffer.length ≤ maxBuffer := by
  obtain hn | hn := Nat.eq_or_lt_of_le h.nonempty
  · rw [(h.single hn.symm).2]
    exact height_le _
  · rw [(h.more hn).2.2]
    exact Nat.le_of_lt (Nat.mod_lt _ (by decide))

end Milo.Rom
