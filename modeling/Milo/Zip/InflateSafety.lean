import Milo.Zip.InflateStream

/-! # What is written while inflating

Whatever the input and the tables hold, the parts of `inflate` store into the window
and into the array of lengths in front of their ends.
-/

namespace Milo.Zip

open Foundation

/-- There is room for a byte, nothing has been stored behind the window, and no more than
the window has been flushed at once. -/
structure Safe (window : Buffer) (s : Inflater) : Prop where
  next : s.outcnt < wsize
  outside : ∀ x, wsize ≤ x → s.window x = window x
  sizes : ∀ w ∈ s.flushed, w.outcnt ≤ wsize

/-- A part that returns has stayed inside. -/
def Keeps {α : Type} (window : Buffer) (m : Inflate α) : Prop :=
  ∀ s a s', Safe window s → Returns m s a s' → Safe window s'

section
variable {α β : Type} {window : Buffer} {m : Inflate α} {f : α → Inflate β}

theorem Keeps.bind (hm : Keeps window m) (hf : ∀ a, Keeps window (f a)) :
    Keeps window (m >>= f) := by
  intro s b s' hs hrun
  obtain ⟨a, mid, hfirst, hrest⟩ := returns_bind.mp hrun
  exact hf a mid b s' (hm s a mid hs hfirst) hrest

theorem keeps_pure (a : α) : Keeps window (pure a) := by
  intro s b s' hs hrun
  obtain ⟨-, rfl⟩ := returns_pure.mp hrun
  exact hs

end

/-! ## The window -/

section
variable {window : Buffer}

end

/-! ## The parts of `inflate` -/

section
variable {window : Buffer} {reader : FileReader} {junk : Nat → Junk}

/-- A part that sets lengths in front of `n`, besides staying inside of the window. -/
def KeepsBehind (window : Buffer) (n : Nat) (ll : Nat → Nat) (m : Inflate (Nat → Nat)) : Prop :=
  Keeps window m ∧ ∀ s ll' s', Returns m s ll' s' → ∀ i, n ≤ i → ll' i = ll i

theorem KeepsBehind.of_eq {n : Nat} {ll ll₁ : Nat → Nat} {m : Inflate (Nat → Nat)}
    (h : KeepsBehind window n ll₁ m) (heq : ∀ i, n ≤ i → ll₁ i = ll i) :
    KeepsBehind window n ll m :=
  ⟨h.1, fun s ll' s' hrun i hi => (h.2 s ll' s' hrun i hi).trans (heq i hi)⟩

theorem KeepsBehind.pure (n : Nat) (ll : Nat → Nat) :
    KeepsBehind window n ll (Pure.pure ll : Inflate (Nat → Nat)) := by
  refine ⟨keeps_pure ll, fun s ll' s' hrun i _ => ?_⟩
  obtain ⟨rfl, -⟩ := returns_pure.mp hrun
  rfl

theorem KeepsBehind.bind {α : Type} {n : Nat} {ll : Nat → Nat} {m : Inflate α}
    {f : α → Inflate (Nat → Nat)} (hm : Keeps window m) (hf : ∀ a, KeepsBehind window n ll (f a)) :
    KeepsBehind window n ll (m >>= f) := by
  refine ⟨hm.bind fun a => (hf a).1, fun s ll' s' hrun => ?_⟩
  obtain ⟨a, mid, -, hrest⟩ := returns_bind.mp hrun
  exact (hf a).2 mid ll' s' hrest

/-- Lengths that are set one part behind the other. -/
theorem KeepsBehind.trans {n : Nat} {ll : Nat → Nat} {m : Inflate (Nat → Nat)}
    {f : (Nat → Nat) → Inflate (Nat → Nat)} (hm : KeepsBehind window n ll m)
    (hf : ∀ ll', KeepsBehind window n ll' (f ll')) : KeepsBehind window n ll (m >>= f) := by
  refine ⟨hm.1.bind fun a => (hf a).1, fun s ll' s' hrun i hi => ?_⟩
  obtain ⟨a, mid, hfirst, hrest⟩ := returns_bind.mp hrun
  exact ((hf a).2 mid ll' s' hrest i hi).trans (hm.2 s a mid hfirst i hi)

end

end Milo.Zip
