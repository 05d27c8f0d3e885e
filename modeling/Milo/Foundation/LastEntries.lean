import Mathlib.Data.List.Basic
import Mathlib.Data.List.Induction

/-! # Lists that keep the last entry of each key

An entry put into such a list replaces the one with its key, in place. When entries
are found by another test, the run leaves the same list only if no entry ever finds one
with another key.
-/

namespace Foundation

section
variable {α : Type _}

/-- The entry in the place of the first one that passes the test, or else behind all. -/
def putEntry (test : α → Bool) (entry : α) (entries : List α) : List α :=
  match entries.findIdx? test with
  | some i => entries.set i entry
  | none => entries ++ [entry]

theorem mem_putEntry {test : α → Bool} {entry other : α} {entries : List α}
    (h : other ∈ putEntry test entry entries) : other = entry ∨ other ∈ entries := by
  unfold putEntry at h
  split at h
  · exact (List.mem_or_eq_of_mem_set h).symm
  · rw [List.mem_append, List.mem_singleton] at h
    exact h.symm

theorem putEntry_cons (test : α → Bool) (entry o : α) (entries : List α) :
    putEntry test entry (o :: entries) =
      if test o then entry :: entries else o :: putEntry test entry entries := by
  unfold putEntry
  rw [List.findIdx?_cons]
  cases test o with
  | true => rfl
  | false =>
      cases entries.findIdx? test with
      | some i => rfl
      | none => rfl

theorem find?_eraseDups [DecidableEq α] (l : List α) (test : α → Bool) :
    l.eraseDups.find? test = l.find? test := by
  induction l using List.reverseRecOn with
  | nil => rfl
  | append_singleton l a ih =>
      rw [List.eraseDups_append, List.find?_append, List.find?_append, ih]
      by_cases hmem : a ∈ l
      · have hgone : [a].removeAll l = [] := by simp [List.removeAll, hmem]
        rw [hgone]
        cases hfind : l.find? test with
        | some b => rfl
        | none => simp [List.find?_eq_none.mp hfind a hmem]
      · have hkept : [a].removeAll l = [a] := by simp [List.removeAll, hmem]
        rw [hkept]
        rfl

theorem nodup_eraseDups [DecidableEq α] (l : List α) : l.eraseDups.Nodup := by
  induction l using List.reverseRecOn with
  | nil => exact List.nodup_nil
  | append_singleton l a ih =>
      rw [List.eraseDups_append, List.nodup_append]
      by_cases hmem : a ∈ l
      · have hgone : [a].removeAll l = [] := by simp [List.removeAll, hmem]
        rw [hgone]
        exact ⟨ih, List.nodup_nil, fun _ _ _ hb => absurd hb List.not_mem_nil⟩
      · have hkept : [a].removeAll l = [a] := by simp [List.removeAll, hmem]
        rw [hkept]
        refine ⟨ih, List.pairwise_singleton _ a, fun b hb c hc => ?_⟩
        rintro rfl
        exact hmem (List.mem_singleton.mp hc ▸ List.mem_eraseDups.mp hb)

end

section
variable {α κ : Type _} (keyOf : α → κ) (test : κ → κ → Bool)

/-- Every entry that finds a key in front of it first finds its own. -/
def FindsOwn (entries : List α) : Prop :=
  ∀ before e, before ++ [e] <+: entries →
    ∀ key ∈ (before.map keyOf).find? (test (keyOf e)), key = keyOf e

/-- The entries put one after the other. -/
def putEntries (entries : List α) : List α :=
  entries.foldl (fun put e => putEntry (fun o => test (keyOf e) (keyOf o)) e put) []

theorem putEntries_concat (entries : List α) (e : α) :
    putEntries keyOf test (entries ++ [e]) =
      putEntry (fun o => test (keyOf e) (keyOf o)) e (putEntries keyOf test entries) := by
  unfold putEntries
  rw [List.foldl_append, List.foldl_cons, List.foldl_nil]

theorem findsOwn_concat (entries : List α) (e : α) :
    FindsOwn keyOf test (entries ++ [e]) ↔
      FindsOwn keyOf test entries ∧
        ∀ key ∈ (entries.map keyOf).find? (test (keyOf e)), key = keyOf e := by
  unfold FindsOwn
  simp only [List.prefix_concat_iff]
  constructor
  · exact fun h => ⟨fun before e' hbefore => h before e' (Or.inr hbefore), h entries e (Or.inl rfl)⟩
  · rintro ⟨hrest, hlast⟩ before e' (heq | hbefore)
    · obtain ⟨rfl, hsame⟩ := List.append_inj' heq rfl
      obtain rfl := List.singleton_inj.mp hsame
      exact hlast
    · exact hrest before e' hbefore

end

section
variable {α κ : Type _} [DecidableEq κ] (keyOf : α → κ)

def lastEntry (entries : List α) (key : κ) : Option α := entries.findRev? fun e => keyOf e = key

/-- The last entry of each key, in the order in which the keys first appear. -/
def lastEntries (entries : List α) : List α :=
  (entries.map keyOf).eraseDups.filterMap (lastEntry keyOf entries)

theorem lastEntry_key {entries : List α} {key : κ} {e : α}
    (h : lastEntry keyOf entries key = some e) : keyOf e = key ∧ e ∈ entries := by
  unfold lastEntry at h
  rw [List.findRev?_eq_find?_reverse] at h
  have hkey := List.find?_some h
  exact ⟨of_decide_eq_true hkey, List.mem_reverse.mp (List.mem_of_find?_eq_some h)⟩

theorem lastEntry_of_mem {entries : List α} {e : α} (h : e ∈ entries) :
    ∃ last, lastEntry keyOf entries (keyOf e) = some last := by
  unfold lastEntry
  rw [List.findRev?_eq_find?_reverse, ← Option.isSome_iff_exists, List.find?_isSome]
  exact ⟨e, List.mem_reverse.mpr h, decide_eq_true rfl⟩

theorem lastEntry_concat (entries : List α) (e : α) (key : κ) :
    lastEntry keyOf (entries ++ [e]) key =
      if keyOf e = key then some e else lastEntry keyOf entries key := by
  unfold lastEntry
  rw [List.findRev?_eq_find?_reverse, List.findRev?_eq_find?_reverse, List.reverse_append,
    List.reverse_singleton, List.singleton_append, List.find?_cons]
  split
  · rename_i h
    rw [if_pos (of_decide_eq_true h)]
  · rename_i h
    rw [if_neg (of_decide_eq_false h)]

theorem mem_lastEntries {entries : List α} {e : α} (h : e ∈ lastEntries keyOf entries) :
    e ∈ entries := by
  obtain ⟨key, _, hlast⟩ := List.mem_filterMap.mp h
  exact (lastEntry_key keyOf hlast).2

theorem exists_lastEntries {entries : List α} {e : α} (h : e ∈ entries) :
    ∃ last ∈ lastEntries keyOf entries, keyOf last = keyOf e := by
  obtain ⟨last, hlast⟩ := lastEntry_of_mem keyOf h
  have hkey := List.mem_eraseDups.mpr (List.mem_map_of_mem (f := keyOf) h)
  exact ⟨last, List.mem_filterMap.mpr ⟨keyOf e, hkey, hlast⟩, (lastEntry_key keyOf hlast).1⟩

/-- Each key has one entry. -/
theorem lastEntries_keys (entries : List α) :
    (lastEntries keyOf entries).map keyOf = (entries.map keyOf).eraseDups := by
  unfold lastEntries
  rw [List.map_filterMap]
  calc (entries.map keyOf).eraseDups.filterMap (fun key => (lastEntry keyOf entries key).map keyOf)
      = (entries.map keyOf).eraseDups.filterMap some := by
        apply List.filterMap_congr
        intro key hkey
        obtain ⟨e, he, rfl⟩ := List.mem_map.mp (List.mem_eraseDups.mp hkey)
        obtain ⟨last, hlast⟩ := lastEntry_of_mem keyOf he
        rw [hlast, Option.map_some, (lastEntry_key keyOf hlast).1]
    _ = (entries.map keyOf).eraseDups := List.filterMap_some

/-! ## One more entry -/

theorem lastEntries_concat_old {entries : List α} {e : α} (h : keyOf e ∈ entries.map keyOf) :
    lastEntries keyOf (entries ++ [e]) =
      (lastEntries keyOf entries).map fun o => if keyOf o = keyOf e then e else o := by
  have hgone : [keyOf e].removeAll (entries.map keyOf) = [] := by
    unfold List.removeAll
    rw [List.filter_cons_of_neg (by simpa using h), List.filter_nil]
  unfold lastEntries
  rw [List.map_append, List.map_singleton, List.eraseDups_append, hgone, List.eraseDups_nil,
    List.append_nil, List.map_filterMap]
  apply List.filterMap_congr
  intro key hkey
  rw [lastEntry_concat]
  obtain ⟨o, ho, rfl⟩ := List.mem_map.mp (List.mem_eraseDups.mp hkey)
  obtain ⟨last, hlast⟩ := lastEntry_of_mem keyOf ho
  rw [hlast, Option.map_some, (lastEntry_key keyOf hlast).1]
  by_cases hsame : keyOf o = keyOf e
  · rw [if_pos hsame, if_pos hsame.symm]
  · rw [if_neg hsame, if_neg (Ne.symm hsame)]

theorem lastEntries_concat_new {entries : List α} {e : α} (h : keyOf e ∉ entries.map keyOf) :
    lastEntries keyOf (entries ++ [e]) = lastEntries keyOf entries ++ [e] := by
  have hkept : [keyOf e].removeAll (entries.map keyOf) = [keyOf e] := by
    unfold List.removeAll
    rw [List.filter_cons_of_pos (by simpa using h), List.filter_nil]
  unfold lastEntries
  rw [List.map_append, List.map_singleton, List.eraseDups_append, hkept, List.filterMap_append]
  congr 1
  · apply List.filterMap_congr
    intro key hkey
    rw [lastEntry_concat, if_neg]
    rintro rfl
    exact h (List.mem_eraseDups.mp hkey)
  · have hone : [keyOf e].eraseDups = [keyOf e] := rfl
    rw [hone, List.filterMap_cons, lastEntry_concat, if_pos rfl]
    rfl

theorem lastEntries_concat (entries : List α) (e : α) :
    lastEntries keyOf (entries ++ [e]) =
      if keyOf e ∈ (lastEntries keyOf entries).map keyOf then
        (lastEntries keyOf entries).map fun o => if keyOf o = keyOf e then e else o
      else lastEntries keyOf entries ++ [e] := by
  split
  · rename_i h
    rw [lastEntries_keys, List.mem_eraseDups] at h
    exact lastEntries_concat_old keyOf h
  · rename_i h
    rw [lastEntries_keys, List.mem_eraseDups] at h
    exact lastEntries_concat_new keyOf h

/-! ## Entries found by a test -/

variable {keyOf} {test : κ → κ → Bool}

/-- Where keys are unique and the entry finds its own key or none, it replaces the one
with its key. -/
theorem putEntry_own (hself : ∀ key, test key key = true) {entries : List α}
    (hunique : (entries.map keyOf).Nodup) {e : α}
    (hown : ∀ key ∈ (entries.map keyOf).find? (test (keyOf e)), key = keyOf e) :
    putEntry (fun o => test (keyOf e) (keyOf o)) e entries =
      if keyOf e ∈ entries.map keyOf then
        entries.map fun o => if keyOf o = keyOf e then e else o
      else entries ++ [e] := by
  induction entries with
  | nil => rfl
  | cons o entries ih =>
      rw [List.map_cons, List.nodup_cons] at hunique
      rw [List.map_cons, List.find?_cons] at hown
      rw [putEntry_cons, List.map_cons, List.map_cons]
      cases hfound : test (keyOf e) (keyOf o) with
      | true =>
          rw [hfound] at hown
          have hkey : keyOf o = keyOf e := hown _ rfl
          have hothers : (entries.map fun o => if keyOf o = keyOf e then e else o) = entries := by
            refine (List.map_congr_left fun o' ho' => if_neg ?_).trans (List.map_id entries)
            intro hsame
            rw [hkey, ← hsame] at hunique
            exact hunique.1 (List.mem_map_of_mem ho')
          rw [if_pos rfl, hkey, if_pos List.mem_cons_self, if_pos rfl, hothers]
      | false =>
          rw [hfound] at hown
          have hkey : keyOf o ≠ keyOf e := by
            intro hsame
            rw [hsame, hself] at hfound
            cases hfound
          rw [if_neg Bool.false_ne_true, ih hunique.2 hown, if_neg hkey]
          simp only [List.mem_cons, hkey.symm, false_or]
          split
          · rfl
          · rfl

/-- An entry stays in its place, or the new one that finds it takes the place. -/
theorem putEntry_getElem? {pass : α → Bool} {entries : List α} {i : Nat} {o : α}
    (h : entries[i]? = some o) (e : α) :
    (putEntry pass e entries)[i]? = some o ∨
      pass o = true ∧ (putEntry pass e entries)[i]? = some e := by
  obtain ⟨hi, rfl⟩ := List.getElem?_eq_some_iff.mp h
  unfold putEntry
  split
  · rename_i j hfound
    obtain ⟨hj, hpass, _⟩ := List.findIdx?_eq_some_iff_getElem.mp hfound
    by_cases hsame : j = i
    · subst hsame
      exact Or.inr ⟨hpass, by rw [List.getElem?_set_self hj]⟩
    · exact Or.inl (by rw [List.getElem?_set_ne hsame, h])
  · exact Or.inl (by rw [List.getElem?_append_left hi, h])

theorem lastEntries_concat_getElem? {entries : List α} {i : Nat} {o : α}
    (h : (lastEntries keyOf entries)[i]? = some o) (e : α) :
    ∃ o', (lastEntries keyOf (entries ++ [e]))[i]? = some o' ∧ keyOf o' = keyOf o := by
  rw [lastEntries_concat]
  split
  · rw [List.getElem?_map, h, Option.map_some]
    refine ⟨_, rfl, ?_⟩
    split
    · rename_i hkey
      exact hkey.symm
    · rfl
  · obtain ⟨hi, _⟩ := List.getElem?_eq_some_iff.mp h
    exact ⟨o, by rw [List.getElem?_append_left hi, h], rfl⟩

/-- In one place there is an entry with a lesser key than that of the list that keeps
the last ones. -/
def Behind (keyOf : α → κ) (rank : κ → Nat) (put kept : List α) : Prop :=
  ∃ (i : Nat) (o o' : α), put[i]? = some o ∧ kept[i]? = some o' ∧ rank (keyOf o) < rank (keyOf o')

section
variable {rank : κ → Nat}
  (hrank : ∀ key key', test key key' = true → key' = key ∨ rank key < rank key')
include hrank

/-- Such a place is never made good, as the keys in a place only become less. -/
theorem Behind.concat {entries put : List α} (h : Behind keyOf rank put (lastEntries keyOf entries))
    (e : α) :
    Behind keyOf rank (putEntry (fun o => test (keyOf e) (keyOf o)) e put)
      (lastEntries keyOf (entries ++ [e])) := by
  obtain ⟨i, o, o', hput, hkept, hless⟩ := h
  obtain ⟨o'', hnext, hkey⟩ := lastEntries_concat_getElem? hkept e
  rcases putEntry_getElem? hput e with hsame | ⟨hfound, hnew⟩
  · exact ⟨i, o, o'', hsame, hnext, hkey ▸ hless⟩
  · refine ⟨i, e, o'', hnew, hnext, hkey ▸ ?_⟩
    rcases hrank _ _ hfound with heq | hlt
    · exact heq ▸ hless
    · exact Nat.lt_trans hlt hless

/-- An entry that first finds another key takes its place. -/
theorem behind_of_other {entries : List α} {e : α} {key : κ}
    (hfind : (entries.map keyOf).find? (test (keyOf e)) = some key) (hother : key ≠ keyOf e) :
    Behind keyOf rank (putEntry (fun o => test (keyOf e) (keyOf o)) e (lastEntries keyOf entries))
      (lastEntries keyOf (entries ++ [e])) := by
  rw [← find?_eraseDups, ← lastEntries_keys, List.find?_map, Option.map_eq_some_iff] at hfind
  obtain ⟨o, hfind, rfl⟩ := hfind
  obtain ⟨hpass, i, hi, rfl, hbefore⟩ := List.find?_eq_some_iff_getElem.mp hfind
  have hindex : (lastEntries keyOf entries).findIdx? (fun o => test (keyOf e) (keyOf o)) = some i :=
    List.findIdx?_eq_some_iff_getElem.mpr ⟨hi, hpass, fun j hj => by simpa using hbefore j hj⟩
  obtain ⟨o', hnext, hkey⟩ := lastEntries_concat_getElem? (List.getElem?_eq_getElem hi) e
  refine ⟨i, e, o', ?_, hnext, hkey ▸ (hrank _ _ hpass).resolve_left hother⟩
  unfold putEntry
  rw [hindex]
  exact List.getElem?_set_self hi

/-- The run keeps the last entries exactly if every entry finds its own key. -/
theorem putEntries_eq_iff (hself : ∀ key, test key key = true) (entries : List α) :
    putEntries keyOf test entries = lastEntries keyOf entries ↔ FindsOwn keyOf test entries := by
  have hrun : FindsOwn keyOf test entries ∧
        putEntries keyOf test entries = lastEntries keyOf entries ∨
      ¬ FindsOwn keyOf test entries ∧
        Behind keyOf rank (putEntries keyOf test entries) (lastEntries keyOf entries) := by
    induction entries using List.reverseRecOn with
    | nil => exact Or.inl ⟨fun before e h => absurd (List.prefix_nil.mp h) (by simp), rfl⟩
    | append_singleton entries e ih =>
        rw [findsOwn_concat, putEntries_concat]
        rcases ih with ⟨hfinds, hsame⟩ | ⟨hnot, hbehind⟩
        · rw [hsame]
          by_cases hown : ∀ key ∈ (entries.map keyOf).find? (test (keyOf e)), key = keyOf e
          · refine Or.inl ⟨⟨hfinds, hown⟩, ?_⟩
            rw [lastEntries_concat]
            apply putEntry_own hself
            · rw [lastEntries_keys]
              exact nodup_eraseDups _
            · rwa [lastEntries_keys, find?_eraseDups]
          · refine Or.inr ⟨fun h => hown h.2, ?_⟩
            push Not at hown
            obtain ⟨key, hkey, hother⟩ := hown
            exact behind_of_other hrank hkey hother
        · exact Or.inr ⟨fun h => hnot h.1, hbehind.concat hrank e⟩
  constructor
  · intro heq
    rcases hrun with ⟨hfinds, _⟩ | ⟨_, i, o, o', hput, hkept, hless⟩
    · exact hfinds
    · rw [heq, hkept] at hput
      rw [Option.some.inj hput] at hless
      exact absurd hless (Nat.lt_irrefl _)
  · intro hfinds
    exact (hrun.resolve_right fun h => h.1 hfinds).2

end

end

end Foundation
