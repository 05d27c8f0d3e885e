import Milo.Zip.Deflate

/-! # What follows a stream

What a stream of bits means up to some place is said by its bits in front of it.
-/

namespace Milo.Zip

open Foundation

/-- The streams have the same bits in front of `q`. -/
def SameUpTo (stream stream' : Nat → Bool) (q : Nat) : Prop := ∀ i < q, stream i = stream' i

section
variable {stream stream' : Nat → Bool} {p q n : Nat}

theorem SameUpTo.mono (h : SameUpTo stream stream' q) {q' : Nat} (hle : q' ≤ q) :
    SameUpTo stream stream' q' := fun i hi => h i (by omega)

theorem SameUpTo.lowFirst (h : SameUpTo stream stream' q) (hle : p + n ≤ q) :
    lowFirst stream p n = lowFirst stream' p n := by
  unfold Foundation.lowFirst
  congr 1
  funext i
  exact h _ (by omega)

theorem SameUpTo.highFirst (h : SameUpTo stream stream' q) (hle : p + n ≤ q) :
    highFirst stream p n = highFirst stream' p n := by
  unfold Foundation.highFirst
  congr 1
  funext i
  exact h _ (by omega)

theorem SameUpTo.spells {lens : List Nat} {sym : Nat} (h : SameUpTo stream stream' q)
    (hle : p + lens.getD sym 0 ≤ q) (hword : Spells lens stream p sym) :
    Spells lens stream' p sym where
  used := hword.used
  word := by rw [← h.highFirst hle, hword.word]

/-! ## Tokens -/

variable {ll dl : List Nat}

theorem TokenAt.le {token : Token} (h : TokenAt ll dl stream p token q) : p ≤ q := by
  cases h <;> omega

theorem TokensAt.le {tokens : List Token} (h : TokensAt ll dl stream p tokens q) : p ≤ q := by
  induction h with
  | done => exact Nat.le_add_right _ _
  | next htoken _ ih => exact Nat.le_trans htoken.le ih

theorem TokenAt.congr {token : Token} (h : TokenAt ll dl stream p token q)
    (hsame : SameUpTo stream stream' q) : TokenAt ll dl stream' p token q := by
  cases h with
  | literal hsym hword => exact .literal hsym (hsame.spells (Nat.le_refl _) hword)
  | copy hword hbase hextra hvalid hq hdist hback hfar hr =>
      rw [hsame.lowFirst (by omega), hsame.lowFirst (by omega)]
      exact .copy (hsame.spells (by omega) hword) hbase hextra hvalid hq
        (hsame.spells (by omega) hdist) hback hfar hr

theorem TokensAt.congr {tokens : List Token} (h : TokensAt ll dl stream p tokens q)
    (hsame : SameUpTo stream stream' q) : TokensAt ll dl stream' p tokens q := by
  induction h with
  | done hword => exact .done (hsame.spells (Nat.le_refl _) hword)
  | next htoken hrest ih => exact .next (htoken.congr (hsame.mono hrest.le)) (ih hsame)

/-! ## Headers -/

variable {bl lens : List Nat} {last : Nat}

theorem LengthsAt.le (h : LengthsAt bl stream n last p lens q) : p ≤ q := by
  induction h with
  | done => exact Nat.le_refl _
  | length _ _ _ ih => omega
  | run _ _ _ _ _ _ ih => omega

theorem LengthsAt.congr (h : LengthsAt bl stream n last p lens q)
    (hsame : SameUpTo stream stream' q) : LengthsAt bl stream' n last p lens q := by
  induction h with
  | done => exact .done
  | length hlen hword hrest ih =>
      exact .length hlen (hsame.spells hrest.le hword) (ih hsame)
  | run hrun hword hr hj hagain hrest ih =>
      have hle := hrest.le
      rw [hsame.lowFirst hle] at hj
      exact .run hrun (hsame.spells (by omega) hword) hr hj hagain (ih hsame)

theorem CountsAt.congr {nl nd : Nat} (h : CountsAt stream p nl nd bl q)
    (hsame : SameUpTo stream stream' q) : CountsAt stream' p nl nd bl q := by
  obtain ⟨hliterals, hdistances, hlimit, hlengths, hlast⟩ := h
  have hnb : lowFirst stream (p + 5 + 5) 4 = lowFirst stream' (p + 5 + 5) 4 :=
    hsame.lowFirst (by omega)
  refine ⟨?_, ?_, hlimit, ?_, ?_⟩
  · rw [hliterals, hsame.lowFirst (by omega)]
  · rw [hdistances, hsame.lowFirst (by omega)]
  · rw [hlengths, ← hnb]
    refine List.map_congr_left fun sym _ => ?_
    split
    · rw [hsame.lowFirst (by omega)]
    · rfl
  · rw [hlast, hnb]

theorem HeaderAt.congr (h : HeaderAt stream p ll dl q) (hsame : SameUpTo stream stream' q) :
    HeaderAt stream' p ll dl q := by
  obtain ⟨hcounts, hcode, hlens, hliterals, hdistances⟩ := h
  exact .lengths (hcounts.congr (hsame.mono hlens.le)) hcode (hlens.congr hsame) hliterals
    hdistances

theorem CountsAt.le {nl nd : Nat} (h : CountsAt stream p nl nd bl q) : p ≤ q := by
  have := h.last
  omega

theorem HeaderAt.le (h : HeaderAt stream p ll dl q) : p ≤ q := by
  obtain ⟨hcounts, -, hlens, -, -⟩ := h
  exact Nat.le_trans hcounts.le hlens.le

/-! ## Blocks -/

theorem le_byteEnd (p : Nat) : p ≤ byteEnd p := by
  unfold byteEnd
  omega

theorem BlockAt.le {tokens : List Token} (h : BlockAt stream p tokens q) : p + 2 ≤ q := by
  cases h with
  | @stored r n htype hr =>
      have := le_byteEnd (p + 2)
      omega
  | fixed _ htokens => exact htokens.le
  | dynamic _ hheader htokens => exact Nat.le_trans hheader.le htokens.le

theorem BlockAt.congr {tokens : List Token} (h : BlockAt stream p tokens q)
    (hsame : SameUpTo stream stream' q) : BlockAt stream' p tokens q := by
  have htype := hsame.lowFirst h.le
  cases h with
  | @stored r n hzero hr hn hcheck =>
      have hbytes : ((List.range n).map fun i =>
          Token.literal (UInt8.ofNat (lowFirst stream (r + 16 + 16 + 8 * i) 8))) =
          (List.range n).map fun i =>
            .literal (UInt8.ofNat (lowFirst stream' (r + 16 + 16 + 8 * i) 8)) := by
        refine List.map_congr_left fun i hi => ?_
        rw [List.mem_range] at hi
        rw [hsame.lowFirst (by omega)]
      rw [hbytes]
      rw [hsame.lowFirst (by omega)] at hn hcheck
      exact .stored (htype ▸ hzero) hr hn hcheck
  | fixed hone htokens => exact .fixed (htype ▸ hone) (htokens.congr hsame)
  | dynamic htwo hheader htokens =>
      exact .dynamic (htype ▸ htwo) (hheader.congr (hsame.mono htokens.le)) (htokens.congr hsame)

theorem BlocksAt.le {tokens : List Token} (h : BlocksAt stream p tokens q) : p ≤ q := by
  induction h with
  | last _ hblock =>
      have := hblock.le
      omega
  | more _ hblock _ ih =>
      have := hblock.le
      omega

theorem BlocksAt.congr {tokens : List Token} (h : BlocksAt stream p tokens q)
    (hsame : SameUpTo stream stream' q) : BlocksAt stream' p tokens q := by
  induction h with
  | last hlast hblock =>
      have hle := hblock.le
      rw [hsame.lowFirst (by omega)] at hlast
      exact .last hlast (hblock.congr hsame)
  | more hmore hblock hrest ih =>
      have hle := hblock.le
      have hle' := hrest.le
      rw [hsame.lowFirst (by omega)] at hmore
      exact .more hmore (hblock.congr (hsame.mono hrest.le)) (ih hsame)

/-- The text does not depend on what follows its stream. -/
theorem DeflatedAt.congr {text : List UInt8} (h : DeflatedAt stream p text q)
    (hsame : SameUpTo stream stream' q) : DeflatedAt stream' p text q := by
  obtain ⟨tokens, hblocks, hrest⟩ := h
  exact ⟨tokens, hblocks.congr hsame, hrest⟩

end

end Milo.Zip
