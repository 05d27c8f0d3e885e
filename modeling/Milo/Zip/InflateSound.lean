import Milo.Zip.InflateStream

/-! # What is inflated is deflated -/

namespace Milo.Zip

open Foundation

section
variable {reader : FileReader} {start : Inbuf} {s : Inflater} {p : Nat} {text : List UInt8}

/-! ## Headers -/

theorem run_sound {α : Type} {n i l shortest extra : Nat} {ll : Nat → Nat} {a : α}
    {f : Nat → (Nat → Nat) → Inflate α} {s' : Inflater} (hextra : extra ≤ 16)
    (hs : Ready reader start s p)
    (hrun : Returns (takeBits reader extra >>= fun bits =>
      putLengths n i (shortest + bits) l ll >>= f (shortest + bits)) s a s') :
    ∃ j t, j = shortest + lowFirst (bitAt reader start) p extra ∧ i + j ≤ n ∧
      Ready reader start t (p + extra) ∧ t.output = s.output ∧
      Returns (f j (putList ll i (List.replicate j l))) t a s' := by
  obtain ⟨t, htake, ht, hout⟩ := takes_takeBits reader start extra p hextra s hs
  rw [htake.bind_iff] at hrun
  refine ⟨_, t, rfl, ?_⟩
  unfold putLengths at hrun
  split at hrun
  · obtain ⟨_, _, hthrow, -⟩ := returns_bind.mp hrun
    exact absurd hthrow returns_throw
  · rename_i hroom
    rw [repeatLength_eq, pure_bind] at hrun
    exact ⟨by omega, ht, hout, hrun⟩

/-- Lengths that are taken have their bits in the stream. -/
theorem codeLengths_sound {bl : List Nat} {tl : HuftTables} {m : Nat}
    (hdec : Decodes bl 19 [] [] tl m) (hdirect : m = maxLength bl.count) (hm : m ≤ 9)
    (hcode : CompleteCode bl 7) (hbl : bl.length = 19) {n i left last : Nat} {ll a : Nat → Nat}
    {s' : Inflater} (hs : Ready reader start s p) (hi : i ≤ n) (hleft : n ≤ i + left)
    (hrun : Returns (codeLengths reader tl m n left i last ll) s a s') :
    ∃ lens q, LengthsAt bl (bitAt reader start) (n - i) last p lens q ∧
      a = putList ll i lens ∧ Ready reader start s' q ∧ s'.output = s.output := by
  induction left generalizing s p i last ll with
  | zero =>
      obtain ⟨rfl, rfl⟩ := returns_pure.mp hrun
      rw [show n - i = 0 by omega]
      exact ⟨[], p, .done, rfl, hs, rfl⟩
  | succ left ih =>
      rw [codeLengths] at hrun
      by_cases hmore : i < n
      · rw [if_pos hmore] at hrun
        obtain ⟨sym, hword⟩ := hcode.exists_spells (bitAt reader start) p
        have hsym := lt_length_of_getD_ne_zero hword.used
        rw [hbl] at hsym
        obtain ⟨mid, hlength, hmid, hout⟩ := takes_lengthCode hdec hdirect hm hsym hword s hs
        rw [hlength.bind_iff] at hrun
        by_cases hlen : sym < 16
        · rw [if_pos hlen] at hrun
          obtain ⟨lens, q, hlens, rfl, hend, hout'⟩ := ih hmid hmore (by omega) hrun
          refine ⟨sym :: lens, q, ?_, rfl, hend, hout'.trans hout⟩
          rw [show n - i = n - (i + 1) + 1 by omega]
          exact .length hlen hword hlens
        · rw [if_neg hlen] at hrun
          have hruns : ∃ shortest extra j again t, runOf sym = some (shortest, extra) ∧
              j = shortest + lowFirst (bitAt reader start) (p + bl.getD sym 0) extra ∧
              i + j ≤ n ∧ 0 < j ∧ again = (if sym = 16 then last else 0) ∧
              Ready reader start t (p + bl.getD sym 0 + extra) ∧ t.output = mid.output ∧
              Returns (codeLengths reader tl m n left (i + j) again
                (putList ll i (List.replicate j again))) t a s' := by
            obtain rfl | rfl | rfl : sym = 16 ∨ sym = 17 ∨ sym = 18 := by omega
            · obtain ⟨j, t, hj, hroom, ht, hout', hrest⟩ := run_sound
                (f := fun j ll => codeLengths reader tl m n left (i + j) last ll) (by decide)
                hmid hrun
              exact ⟨3, 2, j, last, t, rfl, hj, hroom, by omega, rfl, ht, hout', hrest⟩
            · obtain ⟨j, t, hj, hroom, ht, hout', hrest⟩ := run_sound
                (f := fun j ll => codeLengths reader tl m n left (i + j) 0 ll) (by decide)
                hmid hrun
              exact ⟨3, 3, j, 0, t, rfl, hj, hroom, by omega, rfl, ht, hout', hrest⟩
            · obtain ⟨j, t, hj, hroom, ht, hout', hrest⟩ := run_sound
                (f := fun j ll => codeLengths reader tl m n left (i + j) 0 ll) (by decide)
                hmid hrun
              exact ⟨11, 7, j, 0, t, rfl, hj, hroom, by omega, rfl, ht, hout', hrest⟩
          obtain ⟨shortest, extra, j, again, t, hrunOf, hj, hroom, hpos, hagain, ht, hout', hrest⟩ :=
            hruns
          obtain ⟨lens, q, hlens, rfl, hend, hout''⟩ := ih ht hroom (by omega) hrest
          refine ⟨List.replicate j again ++ lens, q, ?_, ?_, hend, hout''.trans (hout'.trans hout)⟩
          · rw [show n - i = j + (n - (i + j)) by omega]
            exact .run hrunOf hword rfl hj hagain hlens
          · rw [putList_append, List.length_replicate]
      · rw [if_neg hmore] at hrun
        obtain ⟨rfl, rfl⟩ := returns_pure.mp hrun
        rw [show n - i = 0 by omega]
        exact ⟨[], p, .done, rfl, hs, rfl⟩

theorem LengthsAt.bound {bl lens : List Nat} {stream : Nat → Bool} {n last q r : Nat}
    (h : LengthsAt bl stream n last q lens r) (hlast : last < 16) : ∀ len ∈ lens, len < 16 := by
  induction h with
  | done => simp
  | length hlen _ _ ih => exact List.forall_mem_cons.mpr ⟨hlen, ih hlen⟩
  | @run n last p q r sym j shortest extra again lens _ _ _ _ hagain _ ih =>
      have hsmall : again < 16 := by
        rw [hagain]
        split <;> omega
      intro len hmem
      rcases List.mem_append.mp hmem with hmem | hmem
      · rw [(List.mem_replicate.mp hmem).2]
        exact hsmall
      · exact ih hsmall len hmem

theorem lengthsAt_bound (stream : Nat → Bool) (p nb : Nat) :
    ∀ len ∈ lengthsAt stream p nb, len ≤ 7 := by
  intro len hmem
  obtain ⟨sym, -, rfl⟩ := List.mem_map.mp hmem
  split
  · have := lowFirst_lt stream (p + 3 * border.idxOf sym) 3
    omega
  · exact Nat.zero_le _

theorem complete_narrow {b : List Nat} {g : Nat} (h : CompleteCode b bmax)
    (hbound : ∀ len ∈ b, len ≤ g) (hg : g ≤ bmax) : CompleteCode b g where
  bound := hbound
  full := by
    have hfull := h.full
    have hpow : 2 ^ bmax = 2 ^ g * 2 ^ (bmax - g) := by
      rw [← Nat.pow_add, Nat.add_sub_cancel' hg]
    rw [leaves_scale hbound hg, hpow] at hfull
    exact Nat.eq_of_mul_eq_mul_right (Nat.two_pow_pos _) hfull

/-- Without a table nothing is decoded. -/
theorem codeLengths_no_table {m n i left last : Nat} {ll a : Nat → Nat} {s' : Inflater}
    (hi : i < n) (hleft : 0 < left) :
    ¬ Returns (codeLengths reader [] m n left i last ll) s a s' := by
  obtain ⟨left, rfl⟩ : ∃ r, left = r + 1 := ⟨left - 1, by omega⟩
  rw [codeLengths, if_pos hi]
  intro hrun
  obtain ⟨_, _, hlength, -⟩ := returns_bind.mp hrun
  obtain ⟨_, _, hlook, -⟩ := returns_bind.mp hlength
  obtain ⟨_, _, -, hmask⟩ := returns_bind.mp hlook
  obtain ⟨_, -, hbits⟩ := returns_require_bind.mp hmask
  obtain ⟨_, _, -, htable⟩ := returns_bind.mp hbits
  obtain ⟨_, hfound, -⟩ := returns_require_bind.mp htable
  exact absurd hfound (by simp)

theorem inflateCodes_no_table {td : HuftResult} {m fuel : Nat} {u : Unit} {s' : Inflater} :
    ¬ Returns (inflateCodes reader [] td.tables m td.m fuel) s u s' := by
  intro hrun
  cases fuel with
  | zero => exact returns_stuck hrun
  | succ fuel =>
      obtain ⟨_, _, hcode, -⟩ := returns_bind.mp hrun
      obtain ⟨_, _, hdecode, -⟩ := returns_bind.mp hcode
      exact returns_stuck hdecode

theorem completeTables_sound {junk : Nat → Junk} {b : List Nat} {simple : Nat} {d e : List Nat}
    {m : Nat} {res : HuftResult} {s' : Inflater}
    (hrun : Returns (completeTables junk b simple d e m) s res s') :
    huftBuild (junk s.builds).values (junk s.builds).slots b simple d e m = some res ∧
      res.code = 0 ∧ s' = { s with builds := s.builds + 1 } := by
  obtain ⟨res', mid, hbuild, hrest⟩ := returns_bind.mp hrun
  obtain ⟨hsome, rfl⟩ := buildTables_returns.mp hbuild
  dsimp only at hrest
  by_cases hone : res'.code = 1
  · rw [if_pos hone] at hrest
    obtain ⟨_, _, hstuck, -⟩ := returns_bind.mp hrest
    exact absurd hstuck returns_stuck
  · rw [if_neg hone] at hrest
    by_cases hzero : res'.code = 0
    · rw [if_neg (not_not.mpr hzero)] at hrest
      obtain ⟨rfl, rfl⟩ := returns_pure.mp hrest
      exact ⟨hsome, hzero, rfl⟩
    · rw [if_pos hzero] at hrest
      obtain ⟨_, _, hthrow, -⟩ := returns_bind.mp hrest
      exact absurd hthrow returns_throw

/-- The tokens of a dynamic block, behind its lists of lengths. -/
theorem dynamicTokens_sound {junk : Nat → Junk} {ll dl : List Nat} {fuel q : Nat} {u : Unit}
    {s' : Inflater} (hll : ll.length ≤ 286) (hdl : dl.length ≤ 30)
    (hllbound : ∀ len ∈ ll, len ≤ bmax) (hdlbound : ∀ len ∈ dl, len ≤ bmax)
    (hs : Ready reader start s q) (hw : Settled s text)
    (hrun : Returns (completeTables junk ll 257 cplens cplext lbits >>= fun tl =>
      completeTables junk dl 0 cpdist cpdext dbits >>= fun td =>
        inflateCodes reader tl.tables td.tables tl.m td.m fuel) s u s') :
    (CompleteCode ll bmax ∧ Distances dl ∧ ∃ tokens r,
        TokensAt ll dl (bitAt reader start) q tokens r ∧ Ready reader start s' r ∧
        Settled s' (writeTokens text tokens)) ∨ Lone ll ∨ Lone dl := by
  obtain ⟨tl, s₁, hfirst, hrest⟩ := returns_bind.mp hrun
  obtain ⟨td, s₂, hsecond, hcodes⟩ := returns_bind.mp hrest
  obtain ⟨hbuild₁, hzero₁, hs₁⟩ := completeTables_sound hfirst
  obtain ⟨hbuild₂, hzero₂, hs₂⟩ := completeTables_sound hsecond
  have hsame : s₂.reading = s.reading ∧ s₂.output = s.output := by
    rw [hs₂, hs₁]
    exact ⟨rfl, rfl⟩
  rcases huftBuild_zero hllbound hbuild₁ hzero₁ with hunused | hliterals | hlone
  · -- without a word for a literal nothing is decoded
    rw [huftBuild_unused hunused] at hbuild₁
    obtain rfl := Option.some.inj hbuild₁
    exact absurd hcodes inflateCodes_no_table
  · have hsets : Distances dl ∨ Lone dl := by
      rcases huftBuild_zero hdlbound hbuild₂ hzero₂ with hunused | hcomplete | hlone
      · exact .inl (.inr hunused)
      · exact .inl (.inl hcomplete)
      · exact .inr hlone
    rcases hsets with hdistances | hlone
    · left
      obtain ⟨tl', hbuild₁', -, hl⟩ := decoder_literals hliterals hll
        (junk s.builds).values (junk s.builds).slots
      obtain rfl := Option.some.inj (hbuild₁.symm.trans hbuild₁')
      obtain ⟨td', hbuild₂', -, hd⟩ := decoder_distances hdistances hdl
        (junk s₁.builds).values (junk s₁.builds).slots
      obtain rfl := Option.some.inj (hbuild₂.symm.trans hbuild₂')
      exact ⟨hliterals, hdistances, inflateCodes_sound hl hd (by omega) hdl
        (hs.of_reading hsame.1) (hw.of_output hsame.2) hcodes⟩
    · exact .inr (.inr hlone)
  · exact .inr (.inl hlone)

theorem dynamicCodes_sound {junk : Nat → Junk} {nl nd : Nat} {bl : List Nat} {ll : Nat → Nat}
    {fuel q : Nat} {u : Unit} {s' : Inflater}
    (hcounts : CountsAt (bitAt reader start) p nl nd bl q) (hs : Ready reader start s q)
    (hw : Settled s text) (hrun : Returns (dynamicCodes reader junk nl nd bl ll fuel) s u s') :
    (∃ ll dl q tokens r, HeaderAt (bitAt reader start) p ll dl q ∧
        TokensAt ll dl (bitAt reader start) q tokens r ∧ Ready reader start s' r ∧
        Settled s' (writeTokens text tokens)) ∨ LoneAt (bitAt reader start) p := by
  have hlimit := hcounts.limit
  have hbl : bl.length = 19 := hcounts.lengths ▸ lengthsAt_length _ _ _
  have hbound : ∀ len ∈ bl, len ≤ 7 := hcounts.lengths ▸ lengthsAt_bound _ _ _
  have hwide : ∀ len ∈ bl, len ≤ bmax := fun len hmem =>
    Nat.le_trans (hbound len hmem) (by decide)
  obtain ⟨tb, s₁, hbuild, hrest⟩ := returns_bind.mp hrun
  obtain ⟨hsome, hs₁⟩ := buildTables_returns.mp hbuild
  by_cases hzero : tb.code = 0
  · rw [if_neg (not_not.mpr hzero)] at hrest
    obtain ⟨ll', s₂, hlengths, hcodes⟩ := returns_bind.mp hrest
    rcases huftBuild_zero hwide hsome hzero with hunused | hcomplete | hlone
    · rw [huftBuild_unused hunused] at hsome
      obtain rfl := Option.some.inj hsome
      have hliterals := hcounts.literals
      exact absurd hlengths (codeLengths_no_table (by omega) (by omega))
    · have hcode := complete_narrow hcomplete hbound (by decide)
      obtain ⟨tb', hsome', -, hm7, hdirect, hdecodes⟩ := decodes_lengths hcode hbl
        (junk s.builds).values (junk s.builds).slots
      obtain rfl := Option.some.inj (hsome.symm.trans hsome')
      have hready : Ready reader start s₁ q := by
        rw [hs₁]
        exact hs.of_reading rfl
      have hout₁ : s₁.output = s.output := by
        rw [hs₁]
        rfl
      obtain ⟨lens, r, hlens, rfl, hs₂, hout₂⟩ := codeLengths_sound hdecodes hdirect (by omega)
        hcode hbl hready (Nat.zero_le _) (by omega) hlengths
      rw [Nat.sub_zero] at hlens
      have hlength := hlens.length_eq
      have hsmall : ∀ len ∈ lens, len ≤ bmax := fun len hmem =>
        Nat.le_trans (Nat.le_of_lt (hlens.bound (by decide) len hmem)) (Nat.le_refl 16)
      obtain ⟨hll, hdl⟩ := lists_of_lengths hlens ll
      rw [hll, hdl] at hcodes
      rcases dynamicTokens_sound (by rw [List.length_take]; omega)
        (by rw [List.length_drop]; omega) (fun len hmem => hsmall len (List.mem_of_mem_take hmem))
        (fun len hmem => hsmall len (List.mem_of_mem_drop hmem)) hs₂
        (hw.of_output (hout₂.trans hout₁)) hcodes with
        ⟨hliterals, hdistances, tokens, t, htokens, hend⟩ | hlone
      · exact .inl ⟨_, _, r, tokens, t, .lengths hcounts hcode hlens hliterals hdistances, htokens,
          hend⟩
      · exact .inr (.codes hcounts hcode hlens hlone)
    · exact .inr (.lengths hcounts hlone)
  · rw [if_pos hzero] at hrest
    obtain ⟨_, _, hthrow, -⟩ := returns_bind.mp hrest
    exact absurd hthrow returns_throw

/-- A dynamic block that is inflated has a header and tokens, or a set of a lone word. -/
theorem inflateDynamic_sound {junk : Nat → Junk} {fuel : Nat} {u : Unit} {s' : Inflater}
    (hs : Ready reader start s p) (hw : Settled s text)
    (hrun : Returns (inflateDynamic reader junk fuel) s u s') :
    (∃ ll dl q tokens r, HeaderAt (bitAt reader start) p ll dl q ∧
        TokensAt ll dl (bitAt reader start) q tokens r ∧ Ready reader start s' r ∧
        Settled s' (writeTokens text tokens)) ∨ LoneAt (bitAt reader start) p := by
  by_cases hlimit : 257 + lowFirst (bitAt reader start) p 5 ≤ 286 ∧
      1 + lowFirst (bitAt reader start) (p + 5) 5 ≤ 30
  · have hcounts : CountsAt (bitAt reader start) p _ _ _ _ := ⟨rfl, rfl, hlimit, rfl, rfl⟩
    obtain ⟨ll, s₁, hout₁, hs₁, hiff⟩ := inflateDynamic_counts hs junk fuel hcounts
    exact dynamicCodes_sound hcounts hs₁ (hw.of_output hout₁) ((hiff u s').mp hrun)
  · -- the block is given up
    obtain ⟨s₁, h₁, hs₁, -⟩ := takes_takeBits reader start 5 p (by decide) s hs
    obtain ⟨s₂, h₂, hs₂, -⟩ := takes_takeBits reader start 5 (p + 5) (by decide) s₁ hs₁
    obtain ⟨s₃, h₃, -, -⟩ := takes_takeBits reader start 4 (p + 5 + 5) (by decide) s₂ hs₂
    unfold inflateDynamic at hrun
    rw [h₁.bind_iff, h₂.bind_iff, h₃.bind_iff] at hrun
    dsimp only at hrun
    rw [if_pos (by omega)] at hrun
    obtain ⟨_, _, hthrow, -⟩ := returns_bind.mp hrun
    exact absurd hthrow returns_throw

/-! ## Streams -/

theorem inflateStored_sound {u : Unit} {s' : Inflater} (hs : Ready reader start s p)
    (hw : Settled s text) (htype : lowFirst (bitAt reader start) (p - 2) 2 = 0) (hp : 2 ≤ p)
    (hrun : Returns (inflateStored reader) s u s') :
    ∃ tokens q, BlockAt (bitAt reader start) (p - 2) tokens q ∧ Ready reader start s' q ∧
      Settled s' (writeTokens text tokens) := by
  obtain ⟨hreturns, hfails⟩ := inflateStored_spec hs hw rfl rfl rfl
  by_cases hcheck : lowFirst (bitAt reader start) (byteEnd p) 16 +
      lowFirst (bitAt reader start) (byteEnd p + 16) 16 = 0xffff
  · obtain ⟨t, hrun', hend⟩ := hreturns hcheck
    obtain ⟨-, rfl⟩ := hrun'.unique hrun
    exact ⟨_, _, .stored htype (by rw [Nat.sub_add_cancel hp]) rfl hcheck, hend⟩
  · exact ((hfails hcheck).not_returns hrun).elim

/-- A block that is inflated has its bits in the stream, or is dynamic with a lone word. -/
theorem inflateBlock_sound {junk : Nat → Junk} {fuel : Nat} {last : Bool} {s' : Inflater}
    (hs : Ready reader start s p) (hw : Settled s text)
    (hrun : Returns (inflateBlock reader junk fuel) s last s') :
    last = decide (lowFirst (bitAt reader start) p 1 ≠ 0) ∧
      ((∃ tokens q, BlockAt (bitAt reader start) (p + 1) tokens q ∧ Ready reader start s' q ∧
          Settled s' (writeTokens text tokens)) ∨
        lowFirst (bitAt reader start) (p + 1) 2 = 2 ∧
          LoneAt (bitAt reader start) (p + 1 + 2)) := by
  obtain ⟨s₁, h₁, hs₁, hout₁⟩ := takes_takeBits reader start 1 p (by decide) s hs
  obtain ⟨s₂, h₂, hs₂, hout₂⟩ := takes_takeBits reader start 2 (p + 1) (by decide) s₁ hs₁
  have hw₂ := hw.of_output (hout₂.trans hout₁)
  unfold inflateBlock at hrun
  rw [h₁.bind_iff, h₂.bind_iff] at hrun
  dsimp only at hrun
  by_cases hdynamic : lowFirst (bitAt reader start) (p + 1) 2 = 2
  · rw [if_pos hdynamic] at hrun
    obtain ⟨_, _, hblock, hlast⟩ := returns_bind.mp hrun
    obtain ⟨rfl, rfl⟩ := returns_pure.mp hlast
    refine ⟨rfl, ?_⟩
    rcases inflateDynamic_sound hs₂ hw₂ hblock with
      ⟨ll, dl, q, tokens, r, hheader, htokens, hend⟩ | hlone
    · exact .inl ⟨tokens, r, .dynamic hdynamic hheader htokens, hend⟩
    · exact .inr ⟨hdynamic, hlone⟩
  · rw [if_neg hdynamic] at hrun
    by_cases hstored : lowFirst (bitAt reader start) (p + 1) 2 = 0
    · rw [if_pos hstored] at hrun
      obtain ⟨_, _, hblock, hlast⟩ := returns_bind.mp hrun
      obtain ⟨rfl, rfl⟩ := returns_pure.mp hlast
      exact ⟨rfl, .inl (inflateStored_sound hs₂ hw₂ hstored (by omega) hblock)⟩
    · rw [if_neg hstored] at hrun
      by_cases hfixed : lowFirst (bitAt reader start) (p + 1) 2 = 1
      · rw [if_pos hfixed] at hrun
        obtain ⟨_, _, hblock, hlast⟩ := returns_bind.mp hrun
        obtain ⟨rfl, rfl⟩ := returns_pure.mp hlast
        obtain ⟨tokens, q, htokens, hend⟩ := inflateFixed_sound hs₂ hw₂ hblock
        exact ⟨rfl, .inl ⟨tokens, q, .fixed hfixed htokens, hend⟩⟩
      · rw [if_neg hfixed] at hrun
        obtain ⟨_, _, hthrow, -⟩ := returns_bind.mp hrun
        exact absurd hthrow returns_throw

theorem inflateBlocks_sound {junk : Nat → Junk} {fuel : Nat} {u : Unit} {s' : Inflater}
    (hs : Ready reader start s p) (hw : Settled s text)
    (hrun : Returns (inflateBlocks reader junk fuel) s u s') :
    (∃ tokens q, BlocksAt (bitAt reader start) p tokens q ∧ Ready reader start s' q ∧
        Settled s' (writeTokens text tokens)) ∨ LoneIn (bitAt reader start) p := by
  induction fuel generalizing s p text with
  | zero => exact absurd hrun returns_stuck
  | succ fuel ih =>
      obtain ⟨last, mid, hblock, hrest⟩ := returns_bind.mp hrun
      obtain ⟨rfl, ⟨tokens, q, hat, hmid, hwmid⟩ | ⟨htype, hlone⟩⟩ :=
        inflateBlock_sound hs hw hblock
      · by_cases hlast : lowFirst (bitAt reader start) p 1 ≠ 0
        · rw [if_pos (decide_eq_true hlast)] at hrest
          obtain ⟨-, rfl⟩ := returns_pure.mp hrest
          exact .inl ⟨tokens, q, .last hlast hat, hmid, hwmid⟩
        · rw [if_neg (by simpa using hlast)] at hrest
          rcases ih hmid hwmid hrest with ⟨tokens', r, hblocks, hend, hwend⟩ | hlone
          · rw [← writeTokens_add] at hwend
            exact .inl ⟨_, r, .more (not_not.mp hlast) hat hblocks, hend, hwend⟩
          · exact .inr (.later (not_not.mp hlast) hat hlone)
      · exact .inr (.here htype hlone)

/-- What `inflate` returns from without an error is a deflated stream, and what has been
flushed is its meaning, unless a block of it has a set with a lone word. -/
theorem inflate_sound {junk : Nat → Junk} {fuel : Nat} {u : Unit} {s' : Inflater}
    (hstart : s.input.Fits) (hflushed : s.flushed = [])
    (hrun : Returns (inflate reader junk fuel) s u s') :
    (∃ tokens q, BlocksAt (bitAt reader s.input) 0 tokens q ∧
        flushedBytes s'.flushed = (writeTokens s.before tokens).drop wsize ∧
        StandsAt reader s.input s'.input (byteEnd q / 8)) ∨
      LoneIn (bitAt reader s.input) 0 := by
  obtain ⟨mid, hblocks, rfl⟩ := inflate_iff.mp hrun
  rcases inflateBlocks_sound (ready_start s) (settled_start hflushed) hblocks with
    ⟨tokens, q, hat, hready, hsettled⟩ | hlone
  · exact .inl ⟨tokens, q, hat, hsettled.finish.1, hready.finish hstart⟩
  · exact .inr hlone

end

end Milo.Zip
