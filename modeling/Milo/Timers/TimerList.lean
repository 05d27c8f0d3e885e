import Mathlib.Data.List.Sort
import Mathlib.Logic.Function.Basic
import Milo.Foundation.Ring

/-! # The list of kernel timers

Timers hang in a circular doubly linked list that starts and ends at
`timer_head`, whose expiry time is the largest there is. A timer that is not
queued has null links. The list is read as the queue of its timers: adding a
timer is an ordered insertion, taking one out an erasure.
-/

namespace Milo.Timers

open Foundation

/-- A `struct timer_list`: the head of the list or one of the program's timers. -/
inductive Node (T : Type) where
  | timerHead
  | timer (t : T)
  deriving DecidableEq

/-- The fields of all timers, and `jiffies`. -/
structure TimerState (T : Type) where
  next : Node T → Option (Node T)
  prev : Node T → Option (Node T)
  expires : Node T → UInt64
  jiffies : UInt64

variable {T : Type}

section
variable [DecidableEq T]

namespace TimerState

def setNext (s : TimerState T) (p : Node T) (link : Option (Node T)) : TimerState T :=
  { s with next := Function.update s.next p link }

def setPrev (s : TimerState T) (p : Node T) (link : Option (Node T)) : TimerState T :=
  { s with prev := Function.update s.prev p link }

def setExpires (s : TimerState T) (p : Node T) (expires : UInt64) : TimerState T :=
  { s with expires := Function.update s.expires p expires }

end TimerState

end

/-- The list before the first `add_timer`: every timer is initialised with null links. -/
def initial : TimerState T where
  next
    | .timerHead => some .timerHead
    | .timer _ => none
  prev
    | .timerHead => some .timerHead
    | .timer _ => none
  expires
    | .timerHead => ~~~0
    | .timer _ => 0
  jiffies := 0

/-! ## The operations -/

/-- The loop of `add_timer`, followed for a limited number of rounds. A null
link cannot be followed. -/
def findPlace (s : TimerState T) (expires : UInt64) : Nat → Node T → Option (Node T)
  | 0, _ => none
  | limit + 1, p =>
      (s.next p).bind fun p =>
        if expires > s.expires p then findPlace s expires limit p else some p

section
variable [DecidableEq T]

/-- `add_timer` -/
def addTimer (limit : Nat) (s : TimerState T) (timer : Node T) : Option (TimerState T) := do
  let p ← findPlace s (s.expires timer) limit .timerHead
  let s := s.setNext timer (some p)
  let s := s.setPrev timer (s.prev p)
  let s := s.setPrev p (some timer)
  let q ← s.prev timer
  return s.setNext q (some timer)

/-- The assignments with which `del_timer` and `do_timer` take a timer out. -/
def unlink (s : TimerState T) (timer : Node T) : Option (TimerState T) := do
  let n ← s.next timer
  let s := s.setPrev n (s.prev timer)
  let p ← s.prev timer
  let s := s.setNext p (s.next timer)
  return (s.setPrev timer none).setNext timer none

/-- `del_timer`, with its result. -/
def delTimer (s : TimerState T) (timer : Node T) : Option (TimerState T × Nat) :=
  if s.next timer ≠ none then (unlink s timer).map (·, 1) else some (s, 0)

end

/-! ## The queue -/

/-- The list is a ring of these timers in order of their expiry times, and no
other timer is linked. -/
structure Holds (s : TimerState T) (queue : List T) : Prop where
  ring : Ring s.next s.prev .timerHead (queue.map .timer)
  nodup : queue.Nodup
  sorted : queue.Pairwise fun t u => s.expires (.timer t) ≤ s.expires (.timer u)
  apart : ∀ t, t ∉ queue → s.next (.timer t) = none ∧ s.prev (.timer t) = none
  last : s.expires .timerHead = ~~~0

/-- A circular doubly linked list in order. -/
def WellFormed (s : TimerState T) : Prop := ∃ queue, Holds s queue

/-- The ring alone, whatever else is linked to what. -/
structure Lists (s : TimerState T) (queue : List T) : Prop where
  ring : Ring s.next s.prev .timerHead (queue.map .timer)
  nodup : queue.Nodup
  sorted : queue.Pairwise fun t u => s.expires (.timer t) ≤ s.expires (.timer u)
  last : s.expires .timerHead = ~~~0

theorem Holds.lists {s : TimerState T} {queue : List T} (h : Holds s queue) : Lists s queue :=
  ⟨h.ring, h.nodup, h.sorted, h.last⟩

theorem Lists.holds {s : TimerState T} {queue : List T} (h : Lists s queue)
    (hapart : ∀ t, t ∉ queue → s.next (.timer t) = none ∧ s.prev (.timer t) = none) :
    Holds s queue := ⟨h.ring, h.nodup, h.sorted, hapart, h.last⟩

theorem initial_holds : Holds (initial : TimerState T) [] where
  ring := ring_nil rfl rfl
  nodup := .nil
  sorted := .nil
  apart _ _ := ⟨rfl, rfl⟩
  last := rfl

theorem le_last {s : TimerState T} {queue : List T} (h : Lists s queue) (expires : UInt64) :
    expires ≤ s.expires .timerHead := by
  rw [h.last, UInt64.le_iff_toNat_le]
  exact Nat.le_of_lt_succ expires.toNat_lt

theorem nodup_nodes {queue : List T} (h : queue.Nodup) :
    (Node.timerHead :: queue.map Node.timer).Nodup := by
  refine List.nodup_cons.mpr ⟨by simp, ?_⟩
  exact h.map fun t u heq => Node.timer.inj heq

/-- A queued timer has both links. -/
theorem Lists.linked {s : TimerState T} {queue : List T} (h : Lists s queue) {t : T}
    (ht : t ∈ queue) : s.next (.timer t) ≠ none ∧ s.prev (.timer t) ≠ none := by
  obtain ⟨xs, ys, hqueue⟩ := List.append_of_mem ht
  have hring := h.ring
  rw [hqueue, List.map_append, List.map_cons] at hring
  obtain ⟨-, a, b, -, -, -, hbefore, hbehind⟩ := hring.neighbours
  rw [hbehind.1, hbefore.2]
  simp

/-- A timer is queued exactly if its link is not null. -/
theorem Holds.next_ne_none {s : TimerState T} {queue : List T} (h : Holds s queue) {t : T} :
    s.next (.timer t) ≠ none ↔ t ∈ queue := by
  constructor
  · intro hnext
    by_contra hout
    exact hnext (h.apart t hout).1
  · exact fun hin => (h.lists.linked hin).1

theorem Lists.next_head_nil {s : TimerState T} (h : Lists s []) :
    s.next .timerHead = some .timerHead :=
  (List.isChain_cons_cons.mp h.ring).1.1

theorem Lists.next_head_cons {s : TimerState T} {t : T} {queue : List T}
    (h : Lists s (t :: queue)) : s.next .timerHead = some (.timer t) :=
  (List.isChain_cons_cons.mp h.ring).1.1

/-- The loop ends at the first timer that does not expire earlier, or at the head. -/
theorem findPlace_eq {s : TimerState T} {expires : UInt64} {ys : List T} {a b : Node T}
    {l₂ : List (Node T)} {limit : Nat}
    (h : (a :: (ys.map .timer ++ [.timerHead])).IsChain (Linked s.next s.prev))
    (hlast : expires ≤ s.expires .timerHead) (hlimit : ys.length < limit)
    (hplace : (ys.dropWhile fun t => s.expires (.timer t) < expires).map .timer ++ [.timerHead] =
      b :: l₂) :
    findPlace s expires limit a = some b := by
  induction ys generalizing a limit with
  | nil =>
      obtain ⟨limit, rfl⟩ := Nat.exists_eq_succ_of_ne_zero (Nat.ne_of_gt hlimit)
      have hnext := (List.isChain_cons_cons.mp h).1.1
      have hstop : ¬ expires > s.expires .timerHead := UInt64.not_lt.mpr hlast
      cases hplace
      rw [findPlace, hnext, Option.bind_some, if_neg hstop]
  | cons t ys ih =>
      obtain ⟨limit, rfl⟩ := Nat.exists_eq_succ_of_ne_zero (Nat.ne_zero_of_lt hlimit)
      obtain ⟨hlink, hrest⟩ := List.isChain_cons_cons.mp h
      rw [findPlace, hlink.1, Option.bind_some]
      by_cases hearlier : s.expires (.timer t) < expires
      · rw [if_pos hearlier]
        rw [List.dropWhile_cons_of_pos (by simpa using hearlier)] at hplace
        exact ih hrest (Nat.lt_of_succ_lt_succ hlimit) hplace
      · rw [if_neg hearlier]
        rw [List.dropWhile_cons_of_neg (by simpa using hearlier)] at hplace
        cases hplace
        rfl

/-- The order in which `add_timer` inserts: before the timers that expire at the
same time. -/
def NotLater (s : TimerState T) (t u : T) : Prop := s.expires (.timer t) ≤ s.expires (.timer u)

instance (s : TimerState T) : DecidableRel (NotLater s) := fun t u =>
  inferInstanceAs (Decidable (s.expires (.timer t) ≤ s.expires (.timer u)))

instance (s : TimerState T) : Std.Total (NotLater s) := ⟨fun _ _ => UInt64.le_total _ _⟩

instance (s : TimerState T) : IsTrans T (NotLater s) := ⟨fun _ _ _ => UInt64.le_trans⟩

section
variable [DecidableEq T]

/-- A node whose links are those of another state. -/
def SameLinks (s s' : TimerState T) (p : Node T) : Prop := s'.next p = s.next p ∧ s'.prev p = s.prev p

/-- `add_timer` ends, and puts the timer at its place of the ring. -/
theorem addTimer_lists {s : TimerState T} {queue : List T} {t : T} {limit : Nat}
    (h : Lists s queue) (ht : t ∉ queue) (hlimit : queue.length < limit) :
    ∃ s', addTimer limit s (.timer t) = some s' ∧ Lists s' (queue.orderedInsert (NotLater s) t) ∧
      s'.expires = s.expires ∧ s'.jiffies = s.jiffies ∧
      ∀ u, u ∉ t :: queue → SameLinks s s' (.timer u) := by
  have hsorted := List.Pairwise.orderedInsert (r := NotLater s) t queue h.sorted
  have hperm := List.perm_orderedInsert (NotLater s) t queue
  rw [List.orderedInsert_eq_take_drop] at hsorted hperm ⊢
  set xs := queue.takeWhile fun u => decide ¬ NotLater s t u with hxs
  set ys := queue.dropWhile fun u => decide ¬ NotLater s t u with hys
  have hqueue : xs ++ ys = queue := List.takeWhile_append_dropWhile
  have hring := h.ring
  rw [← hqueue, List.map_append] at hring
  have hnodes := nodup_nodes h.nodup
  rw [← hqueue, List.map_append] at hnodes
  obtain ⟨l₁, a, b, l₂, hpre, hpost, hlink⟩ := hring.seam
  have hplace : findPlace s (s.expires (.timer t)) limit .timerHead = some b := by
    refine findPlace_eq h.ring (le_last h _) hlimit (Eq.trans ?_ hpost)
    rw [hys]
    simp [NotLater, UInt64.not_le]
  have hmember : ∀ c ∈ Node.timerHead :: (xs.map Node.timer ++ ys.map Node.timer),
      ∀ u, u ∉ queue → c ≠ .timer u := by
    rw [← List.map_append, hqueue]
    rintro c hc u hu rfl
    simp [hu] at hc
  have ha := Ring.mem_of_front hpre (ys.map Node.timer)
  have hb := Ring.mem_of_back hpost (xs.map Node.timer)
  have hat := hmember a ha t ht
  have hbt := hmember b hb t ht
  refine ⟨{ s with
    next := Function.update (Function.update s.next (.timer t) (some b)) a (some (.timer t))
    prev := Function.update (Function.update s.prev (.timer t) (some a)) b (some (.timer t)) },
    ?_, ?_, rfl, rfl, ?_⟩
  · simp [addTimer, hplace, TimerState.setNext, TimerState.setPrev, hlink.2, hbt.symm]
  · exact {
      ring := by
        rw [List.map_append, List.map_cons]
        refine hring.insert hnodes hpre hpost ⟨?_, ?_⟩ ⟨?_, ?_⟩ (fun c hc hca => ?_)
          fun c hc hcb => ?_
        · simp
        · simp [hbt.symm]
        · simp [hat.symm]
        · simp
        · simp [hca, hmember c hc t ht]
        · simp [hcb, hmember c hc t ht]
      nodup := hperm.nodup_iff.mpr (List.nodup_cons.mpr ⟨ht, h.nodup⟩)
      sorted := hsorted
      last := h.last }
  · intro u hu
    obtain ⟨hut, huq⟩ := not_or.mp (mt List.mem_cons.mpr hu)
    have hua := hmember a ha u huq
    have hub := hmember b hb u huq
    simp [SameLinks, hut, hua.symm, hub.symm]

/-- `add_timer` ends, and the timer is queued at its place. -/
theorem addTimer_holds {s : TimerState T} {queue : List T} {t : T} {limit : Nat}
    (h : Holds s queue) (ht : t ∉ queue) (hlimit : queue.length < limit) :
    ∃ s', addTimer limit s (.timer t) = some s' ∧ Holds s' (queue.orderedInsert (NotLater s) t) ∧
      s'.expires = s.expires ∧ s'.jiffies = s.jiffies := by
  obtain ⟨s', hrun, hlists, hexpires, hjiffies, hsame⟩ := addTimer_lists h.lists ht hlimit
  refine ⟨s', hrun, hlists.holds fun u hu => ?_, hexpires, hjiffies⟩
  have hout := mt (List.perm_orderedInsert (NotLater s) t queue).mem_iff.mpr hu
  obtain ⟨hnext, hprev⟩ := hsame u hout
  rw [hnext, hprev]
  exact h.apart u (not_or.mp (mt List.mem_cons.mpr hout)).2

/-- The expiry time of a timer that is not queued can be set. -/
theorem Lists.setExpires {s : TimerState T} {queue : List T} {t : T} (h : Lists s queue)
    (ht : t ∉ queue) (expires : UInt64) : Lists (s.setExpires (.timer t) expires) queue where
  ring := h.ring
  nodup := h.nodup
  sorted := by
    refine h.sorted.imp_of_mem fun {u v} hu hv huv => ?_
    have hut : u ≠ t := fun heq => ht (heq ▸ hu)
    have hvt : v ≠ t := fun heq => ht (heq ▸ hv)
    simpa [TimerState.setExpires, hut, hvt] using huv
  last := h.last

theorem Holds.setExpires {s : TimerState T} {queue : List T} {t : T} (h : Holds s queue)
    (ht : t ∉ queue) (expires : UInt64) : Holds (s.setExpires (.timer t) expires) queue :=
  (h.lists.setExpires ht expires).holds h.apart

/-- A queued timer is taken out of the ring, and its links are null. -/
theorem unlink_lists {s : TimerState T} {xs ys : List T} {t : T} (h : Lists s (xs ++ t :: ys)) :
    ∃ s', unlink s (.timer t) = some s' ∧ Lists s' (xs ++ ys) ∧
      s'.expires = s.expires ∧ s'.jiffies = s.jiffies ∧
      s'.next (.timer t) = none ∧ s'.prev (.timer t) = none ∧
      ∀ u, u ∉ xs ++ t :: ys → SameLinks s s' (.timer u) := by
  have hring := h.ring
  rw [List.map_append, List.map_cons] at hring
  have hnodes := nodup_nodes h.nodup
  rw [List.map_append, List.map_cons] at hnodes
  obtain ⟨l₁, a, b, l₂, hpre, hpost, hat, htb⟩ := hring.neighbours
  have hin : ∀ c ∈ Node.timerHead :: (xs.map Node.timer ++ ys.map Node.timer),
      c ≠ .timer t := by grind
  have ha := Ring.mem_of_front hpre (ys.map Node.timer)
  have hb := Ring.mem_of_back hpost (xs.map Node.timer)
  have hat' := hin a ha
  have hbt' := hin b hb
  refine ⟨{ s with
    next := Function.update (Function.update s.next a (some b)) (.timer t) none
    prev := Function.update (Function.update s.prev b (some a)) (.timer t) none },
    ?_, ?_, rfl, rfl, Function.update_self .., Function.update_self .., ?_⟩
  · simp [unlink, TimerState.setNext, TimerState.setPrev, hat.2, htb.1, hbt'.symm]
  · exact {
      ring := by
        rw [List.map_append]
        refine hring.erase hnodes hpre hpost ⟨?_, ?_⟩ (fun c hc hca => ?_) fun c hc hcb => ?_
        · simp [hat']
        · simp [hbt']
        · simp [hca, hin c hc]
        · simp [hcb, hin c hc]
      nodup := h.nodup.sublist (by simp)
      sorted := h.sorted.sublist (by simp)
      last := h.last }
  · intro u hu
    have hut : u ≠ t := by grind
    have hua : a ≠ .timer u := by
      rintro rfl
      simp at ha
      grind
    have hub : b ≠ .timer u := by
      rintro rfl
      simp at hb
      grind
    simp [SameLinks, hut, hua.symm, hub.symm]

/-- A queued timer is taken out, and its links are null. -/
theorem unlink_holds {s : TimerState T} {xs ys : List T} {t : T} (h : Holds s (xs ++ t :: ys)) :
    ∃ s', unlink s (.timer t) = some s' ∧ Holds s' (xs ++ ys) ∧
      s'.expires = s.expires ∧ s'.jiffies = s.jiffies := by
  obtain ⟨s', hrun, hlists, hexpires, hjiffies, hnext, hprev, hsame⟩ := unlink_lists h.lists
  refine ⟨s', hrun, hlists.holds fun u hu => ?_, hexpires, hjiffies⟩
  by_cases hut : u = t
  · rw [hut]
    exact ⟨hnext, hprev⟩
  · have huq : u ∉ xs ++ t :: ys := by grind
    rw [(hsame u huq).1, (hsame u huq).2]
    exact h.apart u huq

/-- `del_timer` tells whether the timer was queued; afterwards it is not. -/
theorem delTimer_holds {s : TimerState T} {queue : List T} (h : Holds s queue) (t : T) :
    ∃ s', delTimer s (.timer t) = some (s', if t ∈ queue then 1 else 0) ∧
      Holds s' (queue.erase t) ∧ s'.expires = s.expires ∧ s'.jiffies = s.jiffies := by
  by_cases ht : t ∈ queue
  · obtain ⟨xs, ys, rfl⟩ := List.append_of_mem ht
    obtain ⟨s', hrun, hholds, hexpires, hjiffies⟩ := unlink_holds h
    have hxs : t ∉ xs := fun hin =>
      (List.nodup_append.mp h.nodup).2.2 t hin t List.mem_cons_self rfl
    refine ⟨s', ?_, ?_, hexpires, hjiffies⟩
    · rw [delTimer, if_pos (h.next_ne_none.mpr ht), hrun, if_pos ht, Option.map_some]
    · rwa [List.erase_append_right _ hxs, List.erase_cons_head]
  · refine ⟨s, ?_, ?_, rfl, rfl⟩
    · rw [delTimer, if_neg (mt h.next_ne_none.mp ht), if_neg ht]
    · rwa [List.erase_of_not_mem ht]

end

end Milo.Timers
