import Milo.Foundation.BitOrder
import Milo.Foundation.CanonicalCode
import Milo.Foundation.SlidingWindow
import Milo.Zip.Inflate

/-! # Deflated streams

What a stream of bits means: the tokens that code words and extra bits stand for, the
blocks that are made of tokens or of bytes as they are, and the text that comes of them.
-/

namespace Milo.Zip

open Foundation

/-- What stands in a block: a byte, or a part of the text that is repeated. -/
inductive Token where
  | literal (c : UInt8)
  | copy (len dist : Nat)
  deriving DecidableEq

/-- The text with one more token. -/
def Token.write (text : List UInt8) : Token → List UInt8
  | .literal c => text ++ [c]
  | .copy len dist => repeatBack text dist len

def writeTokens (text : List UInt8) (tokens : List Token) : List UInt8 :=
  tokens.foldl Token.write text

/-- A token has its bits in the stream from `p` to `q`, for two lists of lengths. -/
inductive TokenAt (ll dl : List Nat) (stream : Nat → Bool) : Nat → Token → Nat → Prop where
  | literal {p sym : Nat} (hsym : sym < 256) (hword : Spells ll stream p sym) :
      TokenAt ll dl stream p (.literal (UInt8.ofNat sym)) (p + ll.getD sym 0)
  | copy {p q r i j base extra back far : Nat} (hword : Spells ll stream p (257 + i))
      (hbase : cplens[i]? = some base) (hextra : cplext[i]? = some extra) (hvalid : extra ≠ 99)
      (hq : q = p + ll.getD (257 + i) 0) (hdist : Spells dl stream (q + extra) j)
      (hback : cpdist[j]? = some back) (hfar : cpdext[j]? = some far)
      (hr : r = q + extra + dl.getD j 0) :
      TokenAt ll dl stream p
        (.copy (base + lowFirst stream q extra) (back + lowFirst stream r far)) (r + far)

/-- The part that is repeated ends far enough from a full window behind its start. -/
def Token.Short : Token → Prop
  | .literal _ => True
  | .copy len dist => dist = wsize ∨ dist + len ≤ wsize

/-- Tokens up to the end of a block. -/
inductive TokensAt (ll dl : List Nat) (stream : Nat → Bool) : Nat → List Token → Nat → Prop where
  | done {p : Nat} (hword : Spells ll stream p 256) :
      TokensAt ll dl stream p [] (p + ll.getD 256 0)
  | next {p q r : Nat} {token : Token} {tokens : List Token}
      (htoken : TokenAt ll dl stream p token q) (hrest : TokensAt ll dl stream q tokens r) :
      TokensAt ll dl stream p (token :: tokens) r

/-! ## Lists of lengths -/

/-- The lengths for the words of lengths: `nb` of them, in their own order. -/
def lengthsAt (stream : Nat → Bool) (p nb : Nat) : List Nat :=
  (List.range 19).map fun sym =>
    if border.idxOf sym < nb then lowFirst stream (p + 3 * border.idxOf sym) 3 else 0

/-- The shortest run that a symbol stands for, and the bits that make it longer. -/
def runOf : Nat → Option (Nat × Nat)
  | 16 => some (3, 2)
  | 17 => some (3, 3)
  | 18 => some (11, 7)
  | _ => none

/-- `n` lengths have their bits in the stream, behind a length `last`. -/
inductive LengthsAt (bl : List Nat) (stream : Nat → Bool) :
    Nat → Nat → Nat → List Nat → Nat → Prop where
  | done {last p : Nat} : LengthsAt bl stream 0 last p [] p
  | length {n last p q len : Nat} {lens : List Nat} (hlen : len < 16)
      (hword : Spells bl stream p len)
      (hrest : LengthsAt bl stream n len (p + bl.getD len 0) lens q) :
      LengthsAt bl stream (n + 1) last p (len :: lens) q
  | run {n last p q r sym j shortest extra again : Nat} {lens : List Nat}
      (hrun : runOf sym = some (shortest, extra)) (hword : Spells bl stream p sym)
      (hr : r = p + bl.getD sym 0) (hj : j = shortest + lowFirst stream r extra)
      (hagain : again = if sym = 16 then last else 0)
      (hrest : LengthsAt bl stream n again (r + extra) lens q) :
      LengthsAt bl stream (j + n) last p (List.replicate j again ++ lens) q

/-- Words that fill the tree, or none. -/
def Distances (dl : List Nat) : Prop := CompleteCode dl bmax ∨ ∀ len ∈ dl, len = 0

/-- How many lengths there are, and the lengths `bl` of the words for them. -/
structure CountsAt (stream : Nat → Bool) (p nl nd : Nat) (bl : List Nat) (q : Nat) : Prop where
  literals : nl = 257 + lowFirst stream p 5
  distances : nd = 1 + lowFirst stream (p + 5) 5
  limit : nl ≤ 286 ∧ nd ≤ 30
  lengths : bl = lengthsAt stream (p + 5 + 5 + 4) (4 + lowFirst stream (p + 5 + 5) 4)
  last : q = p + 5 + 5 + 4 + 3 * (4 + lowFirst stream (p + 5 + 5) 4)

/-- The lists of lengths in front of the tokens of a block. -/
inductive HeaderAt (stream : Nat → Bool) : Nat → List Nat → List Nat → Nat → Prop where
  | lengths {p q r nl nd : Nat} {bl lens : List Nat} (hcounts : CountsAt stream p nl nd bl q)
      (hcode : CompleteCode bl 7) (hlens : LengthsAt bl stream (nl + nd) 0 q lens r)
      (hliterals : CompleteCode (lens.take nl) bmax) (hdistances : Distances (lens.drop nl)) :
      HeaderAt stream p (lens.take nl) (lens.drop nl) r

/-! ## Blocks -/

/-- The end of the byte. -/
def byteEnd (p : Nat) : Nat := (p + 7) / 8 * 8

/-- The tokens of a block have their bits in the stream; the bytes of a stored block
count as tokens. -/
inductive BlockAt (stream : Nat → Bool) : Nat → List Token → Nat → Prop where
  | stored {p r n : Nat} (htype : lowFirst stream p 2 = 0) (hr : r = byteEnd (p + 2))
      (hn : n = lowFirst stream r 16) (hcheck : n + lowFirst stream (r + 16) 16 = 0xffff) :
      BlockAt stream p
        ((List.range n).map fun i =>
          .literal (UInt8.ofNat (lowFirst stream (r + 16 + 16 + 8 * i) 8)))
        (r + 16 + 16 + 8 * n)
  | fixed {p q : Nat} {tokens : List Token} (htype : lowFirst stream p 2 = 1)
      (htokens : TokensAt fixedLengths (List.replicate 30 5) stream (p + 2) tokens q) :
      BlockAt stream p tokens q
  | dynamic {p r q : Nat} {ll dl : List Nat} {tokens : List Token}
      (htype : lowFirst stream p 2 = 2) (hheader : HeaderAt stream (p + 2) ll dl r)
      (htokens : TokensAt ll dl stream r tokens q) : BlockAt stream p tokens q

/-- Blocks up to the one that says that it is the last. -/
inductive BlocksAt (stream : Nat → Bool) : Nat → List Token → Nat → Prop where
  | last {p q : Nat} {tokens : List Token} (hlast : lowFirst stream p 1 ≠ 0)
      (hblock : BlockAt stream (p + 1) tokens q) : BlocksAt stream p tokens q
  | more {p q r : Nat} {tokens rest : List Token} (hmore : lowFirst stream p 1 = 0)
      (hblock : BlockAt stream (p + 1) tokens q) (hrest : BlocksAt stream q rest r) :
      BlocksAt stream p (tokens ++ rest) r

/-! ## Lone words

A set with a single word of one bit leaves half of the tree unused, and is not told from
one that fills it.
-/

/-- A set of the header is a lone word. -/
inductive LoneAt (stream : Nat → Bool) : Nat → Prop where
  | lengths {p q nl nd : Nat} {bl : List Nat} (hcounts : CountsAt stream p nl nd bl q)
      (hlone : Lone bl) : LoneAt stream p
  | codes {p q r nl nd : Nat} {bl lens : List Nat} (hcounts : CountsAt stream p nl nd bl q)
      (hcode : CompleteCode bl 7) (hlens : LengthsAt bl stream (nl + nd) 0 q lens r)
      (hlone : Lone (lens.take nl) ∨ Lone (lens.drop nl)) : LoneAt stream p

/-- Behind some blocks there is a header with such a set. -/
inductive LoneIn (stream : Nat → Bool) : Nat → Prop where
  | here {p : Nat} (htype : lowFirst stream (p + 1) 2 = 2) (hlone : LoneAt stream (p + 1 + 2)) :
      LoneIn stream p
  | later {p q : Nat} {tokens : List Token} (hmore : lowFirst stream p 1 = 0)
      (hblock : BlockAt stream (p + 1) tokens q) (hrest : LoneIn stream q) : LoneIn stream p

/-! ## The text -/

/-- Nothing is repeated from in front of the text. -/
def Token.Reaches (text : List UInt8) : Token → Prop
  | .literal _ => True
  | .copy _ dist => dist ≤ text.length

def InReach : List UInt8 → List Token → Prop
  | _, [] => True
  | text, token :: tokens => token.Reaches text ∧ InReach (token.write text) tokens

/-- The stream from `p` to `q` is the text, deflated. -/
def DeflatedAt (stream : Nat → Bool) (p : Nat) (text : List UInt8) (q : Nat) : Prop :=
  ∃ tokens, BlocksAt stream p tokens q ∧ (∀ t ∈ tokens, t.Short) ∧ InReach [] tokens ∧
    writeTokens [] tokens = text

theorem writeTokens_add (text : List UInt8) (tokens rest : List Token) :
    writeTokens text (tokens ++ rest) = writeTokens (writeTokens text tokens) rest :=
  List.foldl_append

theorem writeTokens_literals (text bytes : List UInt8) :
    writeTokens text (bytes.map .literal) = text ++ bytes := by
  induction bytes generalizing text with
  | nil => exact (List.append_nil text).symm
  | cons b bytes ih =>
      change writeTokens (text ++ [b]) (bytes.map .literal) = _
      rw [ih, List.append_assoc]
      rfl

end Milo.Zip
