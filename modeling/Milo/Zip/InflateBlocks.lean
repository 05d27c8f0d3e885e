import Milo.Zip.InflateCodes

/-! # Inflating blocks -/

namespace Milo.Zip

open Foundation

section
variable {reader : FileReader} {start : Inbuf} {s : Inflater} {p : Nat} {text : List UInt8}

/-! ## Stored blocks -/

/-- The bytes of a stored block, as tokens. -/
def storedTokens (stream : Nat → Bool) (p n : Nat) : List Token :=
  (List.range n).map fun i => .literal (UInt8.ofNat (lowFirst stream (p + 8 * i) 8))

theorem storedTokens_succ (stream : Nat → Bool) (p n : Nat) :
    storedTokens stream p (n + 1) =
      .literal (UInt8.ofNat (lowFirst stream p 8)) :: storedTokens stream (p + 8) n := by
  simp only [storedTokens, List.range_succ_eq_map, List.map_cons, List.map_map, Nat.mul_zero,
    Nat.add_zero, List.cons.injEq, true_and]
  apply List.map_congr_left
  intro i _
  rw [Function.comp_apply, Nat.mul_succ, Nat.add_assoc, Nat.add_comm 8]

theorem UInt8_ofNat_mod (n : Nat) : UInt8.ofNat (n % 2 ^ 8) = UInt8.ofNat n := by
  apply UInt8.toNat_inj.mp
  rw [UInt8.toNat_ofNat', UInt8.toNat_ofNat', Nat.mod_mod]

theorem storedBytes_spec (n : Nat) (hs : Ready reader start s p) (hw : Settled s text) :
    ∃ s', Returns (storedBytes reader n) s () s' ∧ Ready reader start s' (p + 8 * n) ∧
      Settled s' (writeTokens text (storedTokens (bitAt reader start) p n)) := by
  induction n generalizing s p text with
  | zero => exact ⟨s, returns_pure.mpr ⟨rfl, rfl⟩, hs, hw⟩
  | succ n ih =>
      obtain ⟨s₁, hneed, hread, hlo, hhi, hout⟩ := hs.needBits (show 8 ≤ 16 by decide)
      have hbyte : UInt8.ofNat s₁.bb = UInt8.ofNat (lowFirst (bitAt reader start) p 8) := by
        rw [← UInt8_ofNat_mod, hread.buffer, lowFirst_mod _ _ hlo]
      obtain ⟨s₂, hput, hw₂, hsame⟩ := (hw.of_output hout).putByte (UInt8.ofNat s₁.bb)
      have hready : Ready reader start s₁ p := ⟨hread, hhi⟩
      have hs₂ := hready.of_reading hsame
      have hbk : s₂.bk = s₁.bk := congrArg (fun r => r.2.2) hsame
      obtain ⟨s₃, hdump, hs₃, hbk₃, hout₃⟩ := hs₂.toReading.dumpBits (n := 8) (by omega) (by omega)
      have hlast := ih ⟨hs₃, by omega⟩ (hw₂.of_output hout₃)
      obtain ⟨s', hrest, hs', hw'⟩ := hlast
      rw [Nat.mul_succ, Nat.add_comm (8 * n), ← Nat.add_assoc, storedTokens_succ, ← hbyte]
      refine ⟨s', hneed.bind ?_, hs', hw'⟩
      exact returns_get_bind.mpr (hput.bind (hdump.bind hrest))

theorem not_low16 (x : Nat) : (x ^^^ (2 ^ 64 - 1)) &&& 0xffff = 0xffff - x % 2 ^ 16 := by
  have hlt : x % 2 ^ 16 < 2 ^ 16 := Nat.mod_lt _ (by decide)
  have hsub : 0xffff - x % 2 ^ 16 = 2 ^ 16 - (x % 2 ^ 16 + 1) := by omega
  apply Nat.eq_of_testBit_eq
  intro i
  rw [hsub, Nat.testBit_two_pow_sub_succ hlt, Nat.testBit_mod_two_pow,
    show (0xffff : Nat) = 2 ^ 16 - 1 by decide, Nat.and_two_pow_sub_one_eq_mod,
    Nat.testBit_mod_two_pow, Nat.testBit_xor, Nat.testBit_two_pow_sub_one]
  by_cases hi : i < 16
  · simp [hi, show i < 64 by omega]
  · simp [hi]

theorem byteEnd_eq {p bk : Nat} (h : (p + bk) % 8 = 0) : p + (bk &&& 7) = byteEnd p := by
  rw [show (7 : Nat) = 2 ^ 3 - 1 by decide, Nat.and_two_pow_sub_one_eq_mod, byteEnd]
  omega

/-- A stored block is taken over if its length and the complement of it agree. -/
theorem inflateStored_spec (hs : Ready reader start s p) (hw : Settled s text) {r n m : Nat}
    (hr : r = byteEnd p) (hn : n = lowFirst (bitAt reader start) r 16)
    (hm : m = lowFirst (bitAt reader start) (r + 16) 16) :
    (n + m = 0xffff → ∃ s', Returns (inflateStored reader) s () s' ∧
        Ready reader start s' (r + 16 + 16 + 8 * n) ∧
        Settled s' (writeTokens text (storedTokens (bitAt reader start) (r + 16 + 16) n))) ∧
      (n + m ≠ 0xffff → Fails (inflateStored reader) s 1) := by
  have hmask : s.bk &&& 7 ≤ s.bk := Nat.and_le_left
  have hfew := hs.few
  obtain ⟨s₁, hdump, hs₁, hbk₁, hout₁⟩ := hs.toReading.dumpBits hmask (by omega)
  rw [byteEnd_eq hs.aligned, ← hr] at hs₁
  obtain ⟨s₂, hlen, hs₂, hout₂⟩ := takes_takeBits reader start 16 r (Nat.le_refl _) s₁ ⟨hs₁, by omega⟩
  rw [← hn] at hlen
  obtain ⟨s₃, hneed, hread, hlo, hhi, hout₃⟩ := hs₂.needBits (Nat.le_refl 16)
  have hcheck : (s₃.bb ^^^ (2 ^ 64 - 1)) &&& 0xffff = 0xffff - m := by
    rw [not_low16, hread.buffer, lowFirst_mod _ _ hlo, ← hm]
  have hnlt := lowFirst_lt (bitAt reader start) r 16
  have hmlt := lowFirst_lt (bitAt reader start) (r + 16) 16
  constructor
  · intro hgood
    obtain ⟨s₄, hdump', hs₄, hbk₄, hout₄⟩ := hread.dumpBits hlo (by omega)
    have hw₄ := hw.of_output (hout₄.trans (hout₃.trans (hout₂.trans hout₁)))
    obtain ⟨s', hrest, hs', hw'⟩ := storedBytes_spec n ⟨hs₄, by omega⟩ hw₄
    refine ⟨s', ?_, hs', hw'⟩
    refine returns_get_bind.mpr (hdump.bind (hlen.bind (hneed.bind (returns_get_bind.mpr ?_))))
    rw [if_neg (by rw [hcheck]; omega)]
    exact hdump'.bind hrest
  · intro hbad
    have hget : ∀ t : Inflater, Returns get t t t := fun t => returns_get.mpr ⟨rfl, rfl⟩
    refine (hget s).fails (hdump.fails (hlen.fails (hneed.fails ((hget s₃).fails ?_))))
    rw [if_pos (by rw [hcheck]; omega)]
    exact (fails_throw 1).bind

/-! ## Building the tables -/

theorem buildTables_returns {junk : Nat → Junk} {b : List Nat} {simple : Nat} {d e : List Nat}
    {m : Nat} {res : HuftResult} {s' : Inflater} :
    Returns (buildTables junk b simple d e m) s res s' ↔
      huftBuild (junk s.builds).values (junk s.builds).slots b simple d e m = some res ∧
        s' = { s with builds := s.builds + 1 } := by
  rw [buildTables, returns_get_bind, returns_modify_bind, returns_require]

/-- A complete code gets tables that decode it. -/
theorem decoder_of_complete {b : List Nat} (h : CompleteCode b bmax) {m : Nat} (hm : m ≤ 9)
    (hlen : b.length < 2 ^ m) {simple : Nat} {d e : List Nat}
    (hbases : b.length ≤ simple + d.length) (hextras : b.length ≤ simple + e.length)
    (hcodes : ∀ x ∈ e, x ≤ 16 ∨ x = 99) (stale : Nat → Nat) (fresh : Nat → Nat → Huft) :
    ∃ res, huftBuild stale fresh b simple d e m = some res ∧ res.code = 0 ∧
      Decoder b simple d e res := by
  obtain ⟨res, hrun, hcode, hlookup, hdecodes⟩ := huftBuild_decodes
    (buildable_of_complete h hlen hbases hextras hcodes) stale fresh
  have hnarrow := (lookupBits_of_complete h hlen).1
  refine ⟨res, hrun, ?_, .inl hdecodes, by omega, hcodes⟩
  rw [hcode, if_pos (.inl h.full)]

theorem cplext_codes : ∀ x ∈ cplext, x ≤ 16 ∨ x = 99 := by decide

theorem cpdext_codes : ∀ x ∈ cpdext, x ≤ 16 ∨ x = 99 := by decide

/-! ## The fixed code -/

theorem fixedLengths_mem {len : Nat} (h : len ∈ fixedLengths) : 7 ≤ len ∧ len ≤ 9 := by
  simp only [fixedLengths, List.mem_append, List.mem_replicate] at h
  omega

theorem fixedLengths_count (len : Nat) :
    fixedLengths.count len =
      if len = 7 then 24 else if len = 8 then 152 else if len = 9 then 112 else 0 := by
  simp only [fixedLengths, List.count_append, List.count_replicate, beq_iff_eq]
  split_ifs <;> omega

theorem fixedLengths_complete : CompleteCode fixedLengths bmax where
  bound len h := Nat.le_trans (fixedLengths_mem h).2 (by decide)
  full := by
    unfold leaves taken
    simp only [fixedLengths_count]
    decide

theorem fixedLengths_length : fixedLengths.length = 288 := by
  simp only [fixedLengths, List.length_append, List.length_replicate]

theorem fixed_literals (stale : Nat → Nat) (fresh : Nat → Nat → Huft) :
    ∃ res, huftBuild stale fresh fixedLengths 257 cplens cplext 7 = some res ∧ res.code = 0 ∧
      Decoder fixedLengths 257 cplens cplext res := by
  have husable := usable_of_complete fixedLengths_complete
  have hmax := (fixedLengths_mem (List.count_pos_iff.mp
    (Nat.pos_of_ne_zero husable.maxLength_spec.2.2.1))).2
  have hmin := (fixedLengths_mem (List.count_pos_iff.mp
    (Nat.pos_of_ne_zero husable.minLength_spec.2.2.1))).1
  have hlookup := husable.lookupBits_spec 7
  have hbuild : Buildable fixedLengths 257 cplens cplext 7 :=
    { toUsable := husable
      room := Nat.le_of_eq fixedLengths_complete.full
      values := .inl fixedLengths_complete.full
      lookup := .inl (by omega)
      bases := Nat.le_of_eq fixedLengths_length
      extras := Nat.le_of_eq fixedLengths_length
      codes := cplext_codes }
  obtain ⟨res, hrun, hcode, hm, hdecodes⟩ := huftBuild_decodes hbuild stale fresh
  refine ⟨res, hrun, ?_, .inl hdecodes, by omega, cplext_codes⟩
  rw [hcode, if_pos (.inl fixedLengths_complete.full)]

theorem fixed_distances (stale : Nat → Nat) (fresh : Nat → Nat → Huft) :
    ∃ res, huftBuild stale fresh (List.replicate 30 5) 0 cpdist cpdext 5 = some res ∧
      res.code = 1 ∧ Decoder (List.replicate 30 5) 0 cpdist cpdext res := by
  have hmem : ∀ {len}, len ∈ List.replicate 30 5 → len = 5 := fun h =>
    (List.mem_replicate.mp h).2
  have husable : Usable (List.replicate 30 5) :=
    ⟨fun len h => by rw [hmem h]; decide, 5, by decide, by decide⟩
  have hmax := hmem (List.count_pos_iff.mp (Nat.pos_of_ne_zero husable.maxLength_spec.2.2.1))
  have hmin := hmem (List.count_pos_iff.mp (Nat.pos_of_ne_zero husable.minLength_spec.2.2.1))
  have hlookup := husable.lookupBits_spec 5
  have hleaves : leaves (List.replicate 30 5) bmax = 30 * 2 ^ 11 := by
    unfold leaves taken
    simp only [List.count_replicate]
    decide
  have hbuild : Buildable (List.replicate 30 5) 0 cpdist cpdext 5 :=
    { toUsable := husable
      room := by rw [hleaves]; decide
      values := .inr (by decide)
      lookup := .inl (by omega)
      bases := by decide
      extras := by decide
      codes := cpdext_codes }
  obtain ⟨res, hrun, hcode, hm, hdecodes⟩ := huftBuild_decodes hbuild stale fresh
  refine ⟨res, hrun, ?_, .inl hdecodes, by omega, cpdext_codes⟩
  rw [hcode, hleaves, hmax, if_neg (by decide)]

variable (reader) in
/-- A block of the fixed code is inflated with its tables. -/
theorem inflateFixed_iff (junk : Nat → Junk) (s : Inflater) (fuel : Nat) :
    ∃ tl td t, Decoder fixedLengths 257 cplens cplext tl ∧
      Decoder (List.replicate 30 5) 0 cpdist cpdext td ∧
      t.output = s.output ∧ t.reading = s.reading ∧
      ∀ u s', Returns (inflateFixed reader junk fuel) s u s' ↔
        Returns (inflateCodes reader tl.tables td.tables tl.m td.m fuel) t u s' := by
  obtain ⟨tl, htl, hcode, hl⟩ := fixed_literals (junk s.builds).values (junk s.builds).slots
  let mid : Inflater := { s with builds := s.builds + 1 }
  obtain ⟨td, htd, hcode', hd⟩ := fixed_distances (junk mid.builds).values (junk mid.builds).slots
  let t : Inflater := { mid with builds := mid.builds + 1 }
  have hfirst : Returns (buildTables junk fixedLengths 257 cplens cplext 7) s tl mid :=
    buildTables_returns.mpr ⟨htl, rfl⟩
  have hsecond : Returns (buildTables junk (List.replicate 30 5) 0 cpdist cpdext 5) mid td t :=
    buildTables_returns.mpr ⟨htd, rfl⟩
  refine ⟨tl, td, t, hl, hd, rfl, rfl, fun u s' => ?_⟩
  unfold inflateFixed
  rw [hfirst.bind_iff, if_neg (by omega), hsecond.bind_iff, if_neg (by omega)]

theorem inflateFixed_sound {junk : Nat → Junk} {fuel : Nat} {u : Unit} {s' : Inflater}
    (hs : Ready reader start s p) (hw : Settled s text)
    (hrun : Returns (inflateFixed reader junk fuel) s u s') :
    ∃ tokens q, TokensAt fixedLengths (List.replicate 30 5) (bitAt reader start) p tokens q ∧
      Ready reader start s' q ∧ Settled s' (writeTokens text tokens) := by
  obtain ⟨tl, td, t, hl, hd, hout, hsame, hiff⟩ := inflateFixed_iff reader junk s fuel
  exact inflateCodes_sound hl hd (Nat.le_of_eq fixedLengths_length)
    (Nat.le_of_eq List.length_replicate) (hs.of_reading hsame) (hw.of_output hout)
    ((hiff _ _).mp hrun)

/-! ## The lengths for the words of lengths -/

/-- What the loops over `border` store. -/
def setLengths (stream : Nat → Bool) : List Nat → Nat → Nat → (Nat → Nat) → Nat → Nat
  | [], _, _, ll => ll
  | place :: places, 0, p, ll => setLengths stream places 0 p (Function.update ll place 0)
  | place :: places, nb + 1, p, ll =>
      setLengths stream places nb (p + 3) (Function.update ll place (lowFirst stream p 3))

variable (reader) in
theorem takes_bitLengths {places : List Nat} {nb : Nat} (hnb : nb ≤ places.length)
    (ll : Nat → Nat) (p : Nat) :
    Takes reader start (bitLengths reader places nb ll) p
      (setLengths (bitAt reader start) places nb p ll) (p + 3 * nb) := by
  induction places generalizing nb ll p with
  | nil =>
      obtain rfl : nb = 0 := Nat.le_zero.mp hnb
      exact takes_pure ll p
  | cons place places ih =>
      cases nb with
      | zero => exact ih (Nat.zero_le _) _ p
      | succ nb =>
          have hrest := ih (Nat.le_of_succ_le_succ hnb)
            (Function.update ll place (lowFirst (bitAt reader start) p 3)) (p + 3)
          rw [Nat.mul_succ, Nat.add_comm (3 * nb), ← Nat.add_assoc]
          exact (takes_takeBits reader start 3 p (by decide)).bind hrest

theorem setLengths_other {stream : Nat → Bool} {places : List Nat} {place : Nat}
    (h : place ∉ places) (nb p : Nat) (ll : Nat → Nat) :
    setLengths stream places nb p ll place = ll place := by
  induction places generalizing nb p ll with
  | nil => rfl
  | cons first places ih =>
      rw [List.mem_cons, not_or] at h
      cases nb with
      | zero => rw [setLengths, ih h.2, Function.update_of_ne h.1]
      | succ nb => rw [setLengths, ih h.2, Function.update_of_ne h.1]

theorem setLengths_mem {stream : Nat → Bool} {places : List Nat} {place : Nat}
    (hnodup : places.Nodup) (h : place ∈ places) (nb p : Nat) (ll : Nat → Nat) :
    setLengths stream places nb p ll place =
      if places.idxOf place < nb then lowFirst stream (p + 3 * places.idxOf place) 3 else 0 := by
  induction places generalizing nb p ll with
  | nil => simp at h
  | cons first places ih =>
      obtain ⟨hfirst, hnodup⟩ := List.nodup_cons.mp hnodup
      by_cases heq : place = first
      · subst heq
        rw [List.idxOf_cons_self]
        cases nb with
        | zero => rw [setLengths, setLengths_other hfirst, Function.update_self, if_neg (by omega)]
        | succ nb =>
            rw [setLengths, setLengths_other hfirst, Function.update_self, if_pos (by omega)]
            rfl
      · have hmem := (List.mem_cons.mp h).resolve_left heq
        rw [List.idxOf_cons_ne _ (Ne.symm heq)]
        cases nb with
        | zero => rw [setLengths, ih hnodup hmem, if_neg (by omega), if_neg (by omega)]
        | succ nb =>
            rw [setLengths, ih hnodup hmem]
            simp only [Nat.succ_eq_add_one, Nat.add_lt_add_iff_right, Nat.mul_succ]
            rw [Nat.add_assoc, Nat.add_comm 3]

/-- The loops store the lengths of the format. -/
theorem map_setLengths (stream : Nat → Bool) (nb p : Nat) (ll : Nat → Nat) :
    (List.range 19).map (setLengths stream border nb p ll) = lengthsAt stream p nb := by
  have hborder : ∀ sym < 19, sym ∈ border := by decide
  refine List.map_congr_left fun sym hsym => ?_
  exact setLengths_mem (by decide) (hborder sym (List.mem_range.mp hsym)) nb p ll

/-! ## The lengths of a dynamic block -/

theorem Walk.eq_found {tables : HuftTables} {m t bits p : Nat} {stream : Nat → Bool}
    {entry : Huft} (h : Walk tables m stream t bits p entry p) :
    ∃ table, tables[t]? = some table ∧ lowFirst stream p bits < table.size ∧
      table.entry (lowFirst stream p bits) = entry ∧ entry.b ≤ bits := by
  cases h with
  | found htable hslot _ hwidth => exact ⟨_, htable, hslot, rfl, hwidth⟩
  | next _ _ _ _ _ hwidth hrest =>
      have := hrest.le
      omega

/-- One table is enough for the words of lengths. -/
theorem takes_lengthCode {bl : List Nat} {tl : HuftTables} {m : Nat}
    (hdec : Decodes bl 19 [] [] tl m) (hdirect : m = maxLength bl.count) (hm : m ≤ 9)
    {sym : Nat} (hsym : sym < 19) (hword : Spells bl (bitAt reader start) p sym) :
    Takes reader start (lengthCode reader tl m) p sym (p + bl.getD sym 0) := by
  intro s hs
  have hfew := hs.few
  obtain ⟨q, hq, hhere, hwalk⟩ := hdec.symbol _ p sym hword
  obtain rfl := hhere hdirect
  obtain ⟨table, htable, hslot, hentry, hwidth⟩ := hwalk.eq_found
  rw [symbolEntry, if_pos hsym, Nat.add_sub_cancel_left] at hentry hwidth
  dsimp only at hwidth
  obtain ⟨mid, hlook, hread, hlo, hhi, hout⟩ := hs.toReading.lookUp (by omega) hm htable hslot
  rw [hentry] at hlook
  obtain ⟨s', hdump, hend, hbk, hout'⟩ := hread.dumpBits (n := bl.getD sym 0) (by omega) (by omega)
  refine ⟨s', hlook.bind (hdump.bind ?_), ⟨hend, by omega⟩, hout'.trans hout⟩
  exact returns_require.mpr ⟨rfl, rfl⟩

/-- The array with a list of lengths in it. -/
def putList (ll : Nat → Nat) (i : Nat) : List Nat → Nat → Nat
  | [] => ll
  | len :: lens => putList (Function.update ll i len) (i + 1) lens

theorem putList_append (ll : Nat → Nat) (i : Nat) (lens rest : List Nat) :
    putList ll i (lens ++ rest) = putList (putList ll i lens) (i + lens.length) rest := by
  induction lens generalizing ll i with
  | nil => rfl
  | cons len lens ih =>
      rw [List.cons_append, putList, putList, ih, List.length_cons, Nat.add_assoc,
        Nat.add_comm 1]

theorem repeatLength_eq (ll : Nat → Nat) (l i j : Nat) :
    repeatLength l j i ll = putList ll i (List.replicate j l) := by
  induction j generalizing ll i with
  | zero => rfl
  | succ j ih => rw [repeatLength, List.replicate_succ, putList, ih]

theorem putList_below (ll : Nat → Nat) {i x : Nat} (lens : List Nat) (h : x < i) :
    putList ll i lens x = ll x := by
  induction lens generalizing ll i with
  | nil => rfl
  | cons len lens ih =>
      rw [putList, ih _ (Nat.lt_succ_of_lt h), Function.update_of_ne (Nat.ne_of_lt h)]

theorem putList_get (ll : Nat → Nat) (i x : Nat) (lens : List Nat) (h : x < lens.length) :
    putList ll i lens (i + x) = lens.getD x 0 := by
  induction lens generalizing ll i x with
  | nil => exact absurd h (Nat.not_lt_zero _)
  | cons len lens ih =>
      cases x with
      | zero =>
          rw [Nat.add_zero, putList, putList_below _ _ (Nat.lt_succ_self i),
            Function.update_self]
          rfl
      | succ x =>
          rw [putList, show i + (x + 1) = i + 1 + x by omega,
            ih _ _ _ (Nat.lt_of_succ_lt_succ h)]
          rfl

theorem LengthsAt.length_eq {bl lens : List Nat} {stream : Nat → Bool} {n last p q : Nat}
    (h : LengthsAt bl stream n last p lens q) : lens.length = n := by
  induction h with
  | done => rfl
  | length _ _ _ ih => rw [List.length_cons, ih]
  | run _ _ _ _ _ _ ih => rw [List.length_append, List.length_replicate, ih]

/-- A part of the lengths that are stored. -/
theorem map_putList (ll : Nat → Nat) (lens : List Nat) {i n : Nat} (h : i + n ≤ lens.length) :
    ((List.range n).map fun j => putList ll 0 lens (i + j)) = (lens.drop i).take n := by
  apply List.ext_getElem?
  intro j
  rw [List.getElem?_map, List.getElem?_take]
  by_cases hj : j < n
  · have hget := putList_get ll 0 (i + j) lens (by omega)
    rw [Nat.zero_add] at hget
    rw [List.getElem?_range hj, Option.map_some, hget, if_pos hj, List.getElem?_drop,
      List.getD_eq_getElem _ _ (by omega)]
    exact (List.getElem?_eq_getElem _).symm
  · rw [List.getElem?_eq_none (by simpa using hj), if_neg hj]
    rfl

theorem complete_widen {b : List Nat} {g : Nat} (h : CompleteCode b g) (hg : g ≤ bmax) :
    CompleteCode b bmax where
  bound len hmem := Nat.le_trans (h.bound len hmem) hg
  full := by
    rw [leaves_scale h.bound hg, h.full, ← Nat.pow_add, Nat.add_sub_cancel' hg]

theorem lengthsAt_length (stream : Nat → Bool) (p nb : Nat) :
    (lengthsAt stream p nb).length = 19 := by
  rw [lengthsAt, List.length_map, List.length_range]

/-- The code for lengths is looked up in one table. -/
theorem decodes_lengths {bl : List Nat} (hcode : CompleteCode bl 7) (hlen : bl.length = 19)
    (stale : Nat → Nat) (fresh : Nat → Nat → Huft) :
    ∃ res, huftBuild stale fresh bl 19 [] [] 7 = some res ∧ res.code = 0 ∧ res.m ≤ 7 ∧
      res.m = maxLength bl.count ∧ Decodes bl 19 [] [] res.tables res.m := by
  have hwide := complete_widen hcode (by decide)
  have husable := usable_of_complete hwide
  have hfew : bl.length < 2 ^ 7 := by
    rw [hlen]
    decide
  obtain ⟨hle, hfits⟩ := lookupBits_of_complete hwide hfew
  have hmax := hcode.bound _ (List.count_pos_iff.mp
    (Nat.pos_of_ne_zero husable.maxLength_spec.2.2.1))
  have hlookup := (husable.lookupBits_spec 7).2
  obtain ⟨res, hrun, hzero, hm, hdecodes⟩ := huftBuild_decodes
    (buildable_of_complete hwide hfew (d := []) (e := []) (Nat.le_of_eq hlen) (Nat.le_of_eq hlen)
      (by simp)) stale fresh
  refine ⟨res, hrun, ?_, by omega, by omega, hdecodes⟩
  rw [hzero, if_pos (.inl hwide.full)]

theorem huftBuild_unused {b : List Nat} (h : ∀ len ∈ b, len = 0) (stale : Nat → Nat)
    (fresh : Nat → Nat → Huft) (simple : Nat) (d e : List Nat) (m : Nat) :
    huftBuild stale fresh b simple d e m = some ⟨0, [], 0⟩ := by
  have hall : b.count 0 = b.length := List.count_eq_length.mpr fun len hmem => (h len hmem).symm
  unfold huftBuild
  rw [if_pos hall]

/-- A set of distances gets its tables. -/
theorem decoder_distances {dl : List Nat} (h : Distances dl) (hlen : dl.length ≤ 30)
    (stale : Nat → Nat) (fresh : Nat → Nat → Huft) :
    ∃ res, huftBuild stale fresh dl 0 cpdist cpdext dbits = some res ∧ res.code = 0 ∧
      Decoder dl 0 cpdist cpdext res := by
  rcases h with hcode | hunused
  · have hlength : cpdist.length = 30 ∧ cpdext.length = 30 := by decide
    exact decoder_of_complete hcode (by decide) (Nat.lt_of_le_of_lt hlen (by decide))
      (by omega) (by omega) cpdext_codes stale fresh
  · exact ⟨_, huftBuild_unused hunused stale fresh _ _ _ _, rfl,
      .inr ⟨rfl, hunused⟩, Nat.zero_le _, cpdext_codes⟩

theorem decoder_literals {ll : List Nat} (h : CompleteCode ll bmax) (hlen : ll.length ≤ 286)
    (stale : Nat → Nat) (fresh : Nat → Nat → Huft) :
    ∃ res, huftBuild stale fresh ll 257 cplens cplext lbits = some res ∧ res.code = 0 ∧
      Decoder ll 257 cplens cplext res := by
  have hlength : cplens.length = 31 ∧ cplext.length = 31 := by decide
  exact decoder_of_complete h (by decide) (Nat.lt_of_le_of_lt hlen (by decide)) (by omega)
    (by omega) cplext_codes stale fresh

/-- `inflate_dynamic` behind the lengths of the words for lengths. -/
def dynamicCodes (reader : FileReader) (junk : Nat → Junk) (nl nd : Nat) (bl : List Nat)
    (ll : Nat → Nat) (fuel : Nat) : Inflate Unit := do
  let tl ← buildTables junk bl 19 [] [] 7
  if tl.code ≠ 0 then throw tl.code
  let ll ← codeLengths reader tl.tables tl.m (nl + nd) (nl + nd) 0 0 ll
  let tl ← completeTables junk ((List.range nl).map ll) 257 cplens cplext lbits
  let td ← completeTables junk ((List.range nd).map fun i => ll (nl + i)) 0 cpdist cpdext dbits
  inflateCodes reader tl.tables td.tables tl.m td.m fuel

theorem inflateDynamic_counts (hs : Ready reader start s p) (junk : Nat → Junk) (fuel : Nat)
    {nl nd : Nat} {bl : List Nat} {q : Nat}
    (hcounts : CountsAt (bitAt reader start) p nl nd bl q) :
    ∃ ll t, t.output = s.output ∧ Ready reader start t q ∧
      ∀ u s', Returns (inflateDynamic reader junk fuel) s u s' ↔
        Returns (dynamicCodes reader junk nl nd bl ll fuel) t u s' := by
  obtain ⟨hnl, hnd, hlimit, hbl, rfl⟩ := hcounts
  have hnb : 4 + lowFirst (bitAt reader start) (p + 5 + 5) 4 ≤ border.length := by
    have := lowFirst_lt (bitAt reader start) (p + 5 + 5) 4
    have hborder : border.length = 19 := rfl
    omega
  obtain ⟨s₁, h₁, hs₁, hout₁⟩ := takes_takeBits reader start 5 p (by decide) s hs
  obtain ⟨s₂, h₂, hs₂, hout₂⟩ := takes_takeBits reader start 5 (p + 5) (by decide) s₁ hs₁
  obtain ⟨s₃, h₃, hs₃, hout₃⟩ := takes_takeBits reader start 4 (p + 5 + 5) (by decide) s₂ hs₂
  obtain ⟨t, h₄, ht, hout₄⟩ := takes_bitLengths reader hnb
    (junk s₃.builds).lengths (p + 5 + 5 + 4) s₃ hs₃
  have hmap := map_setLengths (bitAt reader start) (4 + lowFirst (bitAt reader start) (p + 5 + 5) 4)
    (p + 5 + 5 + 4) (junk s₃.builds).lengths
  rw [← hbl] at hmap
  refine ⟨setLengths (bitAt reader start) border (4 + lowFirst (bitAt reader start) (p + 5 + 5) 4)
    (p + 5 + 5 + 4) (junk s₃.builds).lengths, t,
    hout₄.trans (hout₃.trans (hout₂.trans hout₁)), ht, fun u s' => ?_⟩
  unfold inflateDynamic
  rw [h₁.bind_iff, h₂.bind_iff, h₃.bind_iff, ← hnl, ← hnd]
  dsimp only
  rw [if_neg (by omega), returns_get_bind, h₄.bind_iff, hmap]
  rfl

/-- The stored lists are those of the header. -/
theorem lists_of_lengths {bl lens : List Nat} {stream : Nat → Bool} {nl nd q r : Nat}
    (hlens : LengthsAt bl stream (nl + nd) 0 q lens r) (ll : Nat → Nat) :
    (List.range nl).map (putList ll 0 lens) = lens.take nl ∧
      ((List.range nd).map fun i => putList ll 0 lens (nl + i)) = lens.drop nl := by
  have hlength := hlens.length_eq
  constructor
  · have hput := map_putList ll lens (i := 0) (n := nl) (by omega)
    simpa using hput
  · have hput := map_putList ll lens (i := nl) (n := nd) (by omega)
    rwa [List.take_of_length_le (by rw [List.length_drop]; omega)] at hput

end

end Milo.Zip
