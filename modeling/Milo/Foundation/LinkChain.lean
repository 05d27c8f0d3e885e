import Mathlib.Data.List.Nodup

/-! # Chains of links

A chain starts at a node and follows a link function until a node has no
further link. The link function is deterministic, so a chain that ends has no
cycle.
-/

namespace Foundation

variable {α : Type _}

/-- The nodes met from a node on. -/
inductive LinkChain (next : α → Option α) : α → List α → Prop where
  | last {a : α} (hend : next a = none) : LinkChain next a [a]
  | link {a b : α} {nodes : List α} (hnext : next a = some b) (hrest : LinkChain next b nodes) :
      LinkChain next a (a :: nodes)

namespace LinkChain

variable {next : α → Option α} {a b : α} {nodes nodes' : List α}

theorem eq_cons (h : LinkChain next a nodes) : ∃ rest, nodes = a :: rest := by
  cases h with
  | last => exact ⟨[], rfl⟩
  | link => exact ⟨_, rfl⟩

theorem unique (h : LinkChain next a nodes) (h' : LinkChain next a nodes') : nodes = nodes' := by
  induction h generalizing nodes' with
  | last hend =>
      cases h' with
      | last => rfl
      | link hnext => rw [hend] at hnext; cases hnext
  | link hnext hrest ih =>
      cases h' with
      | last hend => rw [hend] at hnext; cases hnext
      | link hnext' hrest' =>
          obtain rfl := Option.some.inj (hnext.symm.trans hnext')
          rw [ih hrest']

/-- Every node of a chain starts a chain that is no longer. -/
theorem suffix (h : LinkChain next a nodes) (hb : b ∈ nodes) :
    ∃ rest, LinkChain next b rest ∧ rest.length ≤ nodes.length := by
  induction h with
  | last hend =>
      obtain rfl := List.mem_singleton.mp hb
      exact ⟨_, .last hend, Nat.le_refl _⟩
  | link hnext hrest ih =>
      rcases List.mem_cons.mp hb with rfl | hin
      · exact ⟨_, .link hnext hrest, Nat.le_refl _⟩
      · obtain ⟨rest, hchain, hlen⟩ := ih hin
        exact ⟨rest, hchain, Nat.le_succ_of_le hlen⟩

theorem nodup (h : LinkChain next a nodes) : nodes.Nodup := by
  induction h with
  | last => exact List.nodup_singleton _
  | link hnext hrest ih =>
      refine List.nodup_cons.mpr ⟨fun hin => ?_, ih⟩
      -- a node met again would start a chain both longer and shorter than its own
      obtain ⟨rest, hchain, hlen⟩ := hrest.suffix hin
      have hsame := hchain.unique (.link hnext hrest)
      rw [hsame, List.length_cons] at hlen
      omega

end LinkChain

end Foundation
