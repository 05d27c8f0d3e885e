import Milo.Zip.Deflate
import Milo.Zip.HuftCode
import Milo.Zip.OutputWindow

/-! # Decoding -/

namespace Milo.Zip

open Foundation

section
variable {reader : FileReader} {start : Inbuf} {s : Inflater} {p : Nat}

/-- The slot of a table for the next bits of the stream. -/
theorem Reading.lookUp (h : Reading reader start s p) (hbk : s.bk ≤ 16) {tables : HuftTables}
    {t bits : Nat} (hbits : bits ≤ 9) {table : HuftTable} (htable : tables[t]? = some table)
    (hslot : lowFirst (bitAt reader start) p bits < table.size) :
    ∃ s', Returns (lookUp reader tables t bits) s
        (table.entry (lowFirst (bitAt reader start) p bits)) s' ∧
      Reading reader start s' p ∧ bits ≤ s'.bk ∧ s'.bk ≤ 16 ∧ s'.output = s.output := by
  obtain ⟨s', hrun, hread, hlo, hhi, hout⟩ := h.needBits bits (by omega)
  refine ⟨s', ?_, hread, hlo, by omega, hout⟩
  refine hrun.bind ?_
  rw [maskBits_eq (by omega), returns_require_bind]
  refine ⟨_, rfl, (hread.lowBits hlo (by omega)).bind ?_⟩
  rw [returns_require_bind]
  refine ⟨table, htable, ?_⟩
  rw [returns_require, HuftTable.slot?, if_pos hslot]
  exact ⟨rfl, rfl⟩

/-- The tables are looked up along the way of the stream. -/
theorem Reading.walkTables {tables : HuftTables} {m t bits q : Nat} {entry : Huft}
    (hwalk : Walk tables m (bitAt reader start) t bits p entry q) (hm : m ≤ 9) (hbits : bits ≤ 9)
    (left : Nat) (hleft : tables.length ≤ t + left) (h : Reading reader start s p)
    (hbk : s.bk ≤ 16) :
    (entry.e = 99 → Fails (walkTables reader tables left t bits) s 1) ∧
      (entry.e ≤ 16 → 1 ≤ entry.b → ∃ s',
        Returns (walkTables reader tables left t bits) s entry s' ∧
          Ready reader start s' (q + entry.b) ∧ s'.output = s.output) := by
  induction hwalk generalizing s left with
  | @found t bits p table htable hslot hend hwidth =>
      have hlt := (List.getElem?_eq_some_iff.mp htable).1
      obtain ⟨left, rfl⟩ : ∃ k, left = k + 1 := ⟨left - 1, by omega⟩
      obtain ⟨mid, hrun, hread, hlo, hhi, hout⟩ := h.lookUp hbk hbits htable hslot
      generalize table.entry (lowFirst (bitAt reader start) p bits) = entry at *
      constructor
      · intro hbad
        refine hrun.fails ?_
        rw [if_pos (by omega), if_pos hbad]
        exact (fails_throw 1).bind
      · intro hgood hb
        obtain ⟨s', hdump, hready, hbk', hout'⟩ := hread.dumpBits (n := entry.b) (by omega)
          (by omega)
        refine ⟨s', hrun.bind ?_, ⟨hready, by omega⟩, hout'.trans hout⟩
        rw [if_neg (by omega)]
        exact hdump.bind (returns_pure.mpr ⟨rfl, rfl⟩)
  | @next t bits p table t' bits' b q entry htable hslot hnext hlink hlater hwidth hrest ih =>
      have hlt := (List.getElem?_eq_some_iff.mp htable).1
      obtain ⟨left, rfl⟩ : ∃ k, left = k + 1 := ⟨left - 1, by omega⟩
      obtain ⟨mid, hrun, hread, hlo, hhi, hout⟩ := h.lookUp hbk hbits htable hslot
      obtain ⟨s', hdump, hmid, hbk', hout'⟩ := hread.dumpBits (show b ≤ mid.bk by omega)
        (by omega)
      rw [hlink] at hrun
      obtain ⟨hfails, hreturns⟩ := ih (by omega) left (by omega) hmid (by omega)
      constructor
      · intro hbad
        refine hrun.fails ?_
        rw [if_pos (by dsimp only; omega), if_neg (by dsimp only; omega)]
        refine hdump.fails ?_
        rw [show 16 + bits' - 16 = bits' by omega]
        exact hfails hbad
      · intro hgood hb
        obtain ⟨last, hlast, hready, hout''⟩ := hreturns hgood hb
        refine ⟨last, hrun.bind ?_, hready, hout''.trans (hout'.trans hout)⟩
        rw [if_pos (by dsimp only; omega), if_neg (by dsimp only; omega)]
        refine hdump.bind ?_
        rw [show 16 + bits' - 16 = bits' by omega]
        exact hlast

/-- Tables for a list of lengths, or none if no length is used. -/
structure Decoder (b : List Nat) (s : Nat) (d e : List Nat) (res : HuftResult) : Prop where
  decodes : Decodes b s d e res.tables res.m ∨ res.tables = [] ∧ ∀ len ∈ b, len = 0
  narrow : res.m ≤ 9
  extras : ∀ x ∈ e, x ≤ 16 ∨ x = 99

variable {b : List Nat} {simple : Nat} {d e : List Nat} {res : HuftResult}

variable (simple d) in
theorem symbolEntry_e (he : ∀ x ∈ e, x ≤ 16 ∨ x = 99) (sym bits : Nat) :
    (symbolEntry simple d e sym bits).e ≤ 16 ∨ (symbolEntry simple d e sym bits).e = 99 := by
  unfold symbolEntry
  split
  · left
    dsimp only
    split <;> omega
  · dsimp only
    rw [List.getD_eq_getElem?_getD]
    cases hx : e[sym - simple]? with
    | none => exact .inl (Nat.zero_le _)
    | some x =>
        rcases he x (List.mem_of_getElem? hx) with hle | rfl
        · left
          exact Nat.le_trans (Nat.mod_le _ _) hle
        · exact .inr rfl

/-- The word that the stream goes on with decides what is decoded. -/
theorem Decoder.decode (hres : Decoder b simple d e res) {sym : Nat}
    (hword : Spells b (bitAt reader start) p sym) :
    ∃ bits, ((symbolEntry simple d e sym bits).e = 99 →
        ∀ s, Ready reader start s p → Fails (decode reader res.tables res.m) s 1) ∧
      ((symbolEntry simple d e sym bits).e ≤ 16 →
        Takes reader start (decode reader res.tables res.m) p
          (symbolEntry simple d e sym bits) (p + b.getD sym 0)) := by
  rcases hres.decodes with hdec | ⟨-, hunused⟩
  · obtain ⟨q, hq, -, hwalk⟩ := hdec.symbol _ p sym hword
    have hb : (symbolEntry simple d e sym (p + b.getD sym 0 - q)).b = p + b.getD sym 0 - q := by
      unfold symbolEntry
      split <;> rfl
    refine ⟨p + b.getD sym 0 - q, fun hbad s hs => ?_, fun hgood s hs => ?_⟩
    · have := hs.few
      exact (hs.toReading.walkTables hwalk hres.narrow hres.narrow _ (by omega) (by omega)).1 hbad
    · have := hs.few
      obtain ⟨s', hrun, hready, hout⟩ := (hs.toReading.walkTables hwalk hres.narrow hres.narrow
        res.tables.length (by omega) (by omega)).2 hgood (by omega)
      rw [hb, Nat.add_sub_cancel' (Nat.le_of_lt hq)] at hready
      exact ⟨s', hrun, hready, hout⟩
  · exact absurd (hunused _ (getD_mem_of_ne_zero hword.used)) hword.used

/-- What is decoded is a word of the stream. -/
theorem Decoder.decode_sound (hres : Decoder b simple d e res) {entry : Huft} {s' : Inflater}
    (hs : Ready reader start s p) (hrun : Returns (Zip.decode reader res.tables res.m) s entry s') :
    ∃ sym bits, Spells b (bitAt reader start) p sym ∧ entry = symbolEntry simple d e sym bits ∧
      entry.e ≤ 16 ∧ Ready reader start s' (p + b.getD sym 0) ∧ s'.output = s.output := by
  rcases hres.decodes with hdec | ⟨hnull, -⟩
  · by_cases hword : ∃ sym, Spells b (bitAt reader start) p sym
    · obtain ⟨sym, hword⟩ := hword
      obtain ⟨bits, hfails, htakes⟩ := hres.decode hword
      rcases symbolEntry_e simple d hres.extras sym bits with hgood | hbad
      · obtain ⟨t, hrun', hready, hout⟩ := htakes hgood s hs
        obtain ⟨rfl, rfl⟩ := hrun.unique hrun'
        exact ⟨sym, bits, hword, rfl, hgood, hready, hout⟩
      · exact ((hfails hbad s hs).not_returns hrun).elim
    · obtain ⟨entry', q, hbad, hwalk⟩ := hdec.invalid _ p (not_exists.mp hword)
      have := hs.few
      have hfails := (hs.toReading.walkTables hwalk hres.narrow hres.narrow
        res.tables.length (by omega) (by omega)).1 hbad
      exact (hfails.not_returns hrun).elim
  · -- there is no table to look in
    rw [hnull] at hrun
    exact absurd hrun returns_stuck

/-! ## Tokens -/

theorem cplext_le {i extra : Nat} (h : cplext[i]? = some extra) (hvalid : extra ≠ 99) :
    extra ≤ 5 := by
  have hall : ∀ x ∈ cplext, x ≠ 99 → x ≤ 5 := by decide
  exact hall extra (List.mem_of_getElem? h) hvalid

theorem cpdist_spec {j back far : Nat} (hback : cpdist[j]? = some back)
    (hfar : cpdext[j]? = some far) : 0 < back ∧ far ≤ 13 ∧ back + 2 ^ far ≤ wsize + 1 := by
  have hall : ∀ x ∈ cpdist.zip cpdext, 0 < x.1 ∧ x.2 ≤ 13 ∧ x.1 + 2 ^ x.2 ≤ wsize + 1 := by decide
  have hpair : (cpdist.zip cpdext)[j]? = some (back, far) :=
    List.getElem?_zip_eq_some.mpr ⟨hback, hfar⟩
  exact hall _ (List.mem_of_getElem? hpair)

/-- How far back a copy goes. -/
theorem dist_spec (stream : Nat → Bool) (r : Nat) {j back far : Nat} (hback : cpdist[j]? = some back)
    (hfar : cpdext[j]? = some far) :
    0 < back + lowFirst stream r far ∧ back + lowFirst stream r far ≤ wsize := by
  obtain ⟨hpos, -, hle⟩ := cpdist_spec hback hfar
  have hlt := lowFirst_lt stream r far
  omega

theorem symbolEntry_behind {sym i base extra bits : Nat} (hsym : sym = simple + i)
    (hbase : d[i]? = some base) (hextra : e[i]? = some extra) (hlt : extra < 256) :
    symbolEntry simple d e sym bits = ⟨extra, bits, .n base⟩ := by
  subst hsym
  rw [symbolEntry, if_neg (by omega), Nat.add_sub_cancel_left, List.getD_eq_getElem?_getD,
    List.getD_eq_getElem?_getD, hbase, hextra, Option.getD_some, Option.getD_some,
    Nat.mod_eq_of_lt hlt]

variable {ll dl : List Nat} {tl td : HuftResult} {text : List UInt8}

/-- The place that `inflate_codes` copies from. -/
theorem Settled.source (h : Settled s text) {dist : Nat} (hpos : 0 < dist) (hle : dist ≤ wsize) :
    ((s.outcnt + 2 ^ 32 - dist) % 2 ^ 32) % wsize = (text.length - dist) % wsize := by
  obtain ⟨k, hk⟩ := h.rounds
  have hnext := h.next
  unfold wsize at *
  omega

theorem inflateCopy_sound (hd : Decoder dl 0 cpdist cpdext td) (hdl : dl.length ≤ 30)
    {q base extra bits : Nat} {u : Unit} {s' : Inflater} (hextra : extra ≤ 16)
    (hs : Ready reader start s q) (hw : Settled s text)
    (hrun : Returns (inflateCopy reader td.tables td.m ⟨extra, bits, .n base⟩) s u s') :
    ∃ j back far, Spells dl (bitAt reader start) (q + extra) j ∧ cpdist[j]? = some back ∧
      cpdext[j]? = some far ∧ Ready reader start s' (q + extra + dl.getD j 0 + far) ∧
      Settled s' (repeatBack text
        (back + lowFirst (bitAt reader start) (q + extra + dl.getD j 0) far)
        (base + lowFirst (bitAt reader start) q extra)) := by
  obtain ⟨value, hvalue, hrest⟩ := returns_require_bind.mp hrun
  obtain rfl := Option.some.inj hvalue
  obtain ⟨s₁, hbits, hs₁, hout₁⟩ := takes_extraBits reader start extra q hextra s hs
  obtain ⟨_, _, hfirst, hrest⟩ := returns_bind.mp hrest
  obtain ⟨rfl, rfl⟩ := hbits.unique hfirst
  obtain ⟨entry, s₂, hcode, hrest⟩ := returns_bind.mp hrest
  obtain ⟨j, b, hword, rfl, -, hs₂, hout₂⟩ := hd.decode_sound hs₁ hcode
  have hj : j < 30 := Nat.lt_of_lt_of_le (lt_length_of_getD_ne_zero hword.used) hdl
  have hback : cpdist[j]? = some (cpdist.get ⟨j, hj⟩) := List.getElem?_eq_getElem hj
  have hfar : cpdext[j]? = some (cpdext.get ⟨j, hj⟩) := List.getElem?_eq_getElem hj
  generalize cpdist.get ⟨j, hj⟩ = back at hback
  generalize cpdext.get ⟨j, hj⟩ = far at hfar
  obtain ⟨-, hfarle, -⟩ := cpdist_spec hback hfar
  obtain ⟨hpos, hle⟩ := dist_spec (bitAt reader start) (q + extra + dl.getD j 0) hback hfar
  rw [symbolEntry_behind (Nat.zero_add j).symm hback hfar (by omega)] at hrest
  obtain ⟨value, hvalue, hrest⟩ := returns_require_bind.mp hrest
  obtain rfl := Option.some.inj hvalue
  obtain ⟨s₃, hbits', hs₃, hout₃⟩ := takes_extraBits reader start far _ (by omega) s₂ hs₂
  obtain ⟨_, _, hlast, hrest⟩ := returns_bind.mp hrest
  obtain ⟨rfl, rfl⟩ := hbits'.unique hlast
  have hw₃ := hw.of_output (hout₃.trans (hout₂.trans hout₁))
  obtain ⟨hend, hsame⟩ := copyBack_sound hw₃ hpos hle (hw₃.source hpos hle)
    (returns_get_bind.mp hrest)
  exact ⟨j, back, far, hword, hback, hfar, hs₃.of_reading hsame, hend⟩

theorem symbolEntry_literal {sym bits : Nat} (h : sym < 256) :
    symbolEntry 257 cplens cplext sym bits = ⟨16, bits, .n sym⟩ := by
  rw [symbolEntry, if_pos (by omega), if_pos h]

theorem symbolEntry_end (bits : Nat) :
    symbolEntry 257 cplens cplext 256 bits = ⟨15, bits, .n 256⟩ := rfl

/-- A turn that comes back has written a token of the stream, or is at the end of the
block. -/
theorem inflateCode_sound (hl : Decoder ll 257 cplens cplext tl)
    (hd : Decoder dl 0 cpdist cpdext td) (hll : ll.length ≤ 288) (hdl : dl.length ≤ 30)
    {more : Bool} {s' : Inflater} (hs : Ready reader start s p) (hw : Settled s text)
    (hrun : Returns (inflateCode reader tl.tables td.tables tl.m td.m) s more s') :
    (more = true ∧ ∃ token q, TokenAt ll dl (bitAt reader start) p token q ∧
        Ready reader start s' q ∧ Settled s' (token.write text)) ∨
      (more = false ∧ Spells ll (bitAt reader start) p 256 ∧
        Ready reader start s' (p + ll.getD 256 0) ∧ Settled s' text) := by
  obtain ⟨entry, s₁, hcode, hrest⟩ := returns_bind.mp hrun
  obtain ⟨sym, b, hword, rfl, hgood, hs₁, hout⟩ := hl.decode_sound hs hcode
  have hw₁ := hw.of_output hout
  have hsym := Nat.lt_of_lt_of_le (lt_length_of_getD_ne_zero hword.used) hll
  rcases Nat.lt_trichotomy sym 256 with hlit | rfl | hlen
  · left
    rw [symbolEntry_literal hlit, if_pos rfl] at hrest
    obtain ⟨_, hvalue, hrest⟩ := returns_require_bind.mp hrest
    obtain rfl := Option.some.inj hvalue
    obtain ⟨_, _, hput, hlast⟩ := returns_bind.mp hrest
    obtain ⟨t, hput', hw', hsame⟩ := hw₁.putByte (UInt8.ofNat sym)
    obtain ⟨-, rfl⟩ := hput'.unique hput
    obtain ⟨rfl, rfl⟩ := returns_pure.mp hlast
    exact ⟨rfl, _, _, .literal hlit hword, hs₁.of_reading hsame, hw'⟩
  · right
    rw [symbolEntry_end, if_neg (show ¬ 15 = 16 by decide), if_pos rfl] at hrest
    obtain ⟨rfl, rfl⟩ := returns_pure.mp hrest
    exact ⟨rfl, hword, hs₁, hw₁⟩
  · left
    obtain ⟨i, rfl⟩ : ∃ i, sym = 257 + i := ⟨sym - 257, by omega⟩
    have hi : i < 31 := by omega
    have hbase : cplens[i]? = some (cplens.get ⟨i, hi⟩) := List.getElem?_eq_getElem hi
    have hextra : cplext[i]? = some (cplext.get ⟨i, hi⟩) := List.getElem?_eq_getElem hi
    generalize cplens.get ⟨i, hi⟩ = base at hbase
    generalize cplext.get ⟨i, hi⟩ = extra at hextra
    have hsmall : extra < 256 := by
      have hall : ∀ x ∈ cplext, x < 256 := by decide
      exact hall extra (List.mem_of_getElem? hextra)
    rw [symbolEntry_behind rfl hbase hextra hsmall] at hrest hgood
    dsimp only at hgood
    have hle := cplext_le hextra (by omega)
    rw [if_neg (by dsimp only; omega), if_neg (by dsimp only; omega)] at hrest
    obtain ⟨_, _, hcopy, hlast⟩ := returns_bind.mp hrest
    obtain ⟨rfl, rfl⟩ := returns_pure.mp hlast
    obtain ⟨j, back, far, hdist, hback, hfar, hs', hw'⟩ :=
      inflateCopy_sound hd hdl hgood hs₁ hw₁ hcopy
    exact ⟨rfl, _, _, .copy hword hbase hextra (by omega) rfl hdist hback hfar rfl, hs', hw'⟩

/-! ## Blocks of tokens -/

/-- A block that is inflated consists of tokens. -/
theorem inflateCodes_sound (hl : Decoder ll 257 cplens cplext tl)
    (hd : Decoder dl 0 cpdist cpdext td) (hll : ll.length ≤ 288) (hdl : dl.length ≤ 30)
    {fuel : Nat} {u : Unit} {s' : Inflater} (hs : Ready reader start s p) (hw : Settled s text)
    (hrun : Returns (inflateCodes reader tl.tables td.tables tl.m td.m fuel) s u s') :
    ∃ tokens q, TokensAt ll dl (bitAt reader start) p tokens q ∧ Ready reader start s' q ∧
      Settled s' (writeTokens text tokens) := by
  induction fuel generalizing s p text with
  | zero => exact absurd hrun returns_stuck
  | succ fuel ih =>
      obtain ⟨more, mid, hcode, hrest⟩ := returns_bind.mp hrun
      rcases inflateCode_sound hl hd hll hdl hs hw hcode with
        ⟨rfl, token, q, htoken, hmid, hwmid⟩ | ⟨rfl, hword, hmid, hwmid⟩
      · obtain ⟨tokens, r, htokens, hend, hwend⟩ := ih hmid hwmid hrest
        exact ⟨token :: tokens, r, .next htoken htokens, hend, hwend⟩
      · obtain ⟨-, rfl⟩ := returns_pure.mp hrest
        exact ⟨[], _, .done hword, hmid, hwmid⟩

end

end Milo.Zip
