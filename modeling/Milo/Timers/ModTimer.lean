import Milo.Timers.TimerWheel

/-! # What `mod_timer` does to a timer

No tick looks at the wheel, so a timer that `mod_timer` has put there never runs,
while one that is deleted and added again runs once its time has come.
-/

namespace Milo.Timers

open Foundation

section
variable {T : Type} [DecidableEq T]

/-! ## Ticks without calls -/

/-- The timer has run. -/
def Session.Ran (m : Session T) (t : T) : Prop := ∃ expires, .ran t expires ∈ m.events

omit [DecidableEq T] in
theorem ran_record {m : Session T} {event : Event T} {s : TimerState T} {t : T} :
    (m.record event s).Ran t ↔ m.Ran t ∨ ∃ expires, event = .ran t expires := by
  simp only [Session.Ran, Session.events, Session.record, List.map_append, List.map_cons,
    List.map_nil, List.mem_append, List.mem_singleton, exists_or, eq_comm]

/-- The timers of `queue` that were due have run, and `queue'` is left. -/
structure Expired (m m' : Session T) (queue queue' : List T) : Prop where
  lists : Lists m'.timers queue'
  expires : m'.timers.expires = m.timers.expires
  jiffies : m'.timers.jiffies = m.timers.jiffies
  shorter : queue'.length ≤ queue.length
  left : ∀ t, t ∈ queue' ↔ t ∈ queue ∧ ¬ m.timers.expires (.timer t) ≤ m.timers.jiffies
  ran : ∀ t, m'.Ran t ↔ m.Ran t ∨ t ∈ queue ∧ m.timers.expires (.timer t) ≤ m.timers.jiffies

theorem quiet_loop {m : Session T} {queue : List T} (limit : Nat) {rounds : Nat} (k : Nat)
    (h : Lists m.timers queue) (hrounds : queue.length < rounds) :
    ∃ m' queue', timerLoop limit (fun _ => []) rounds k m = .ok m' ∧ Expired m m' queue queue' := by
  induction queue generalizing m rounds k with
  | nil =>
      obtain ⟨rounds, rfl⟩ := Nat.exists_eq_succ_of_ne_zero (Nat.ne_zero_of_lt hrounds)
      refine ⟨m, [], ?_, h, rfl, rfl, Nat.le_refl _, by simp, by simp⟩
      rw [timerLoop, h.next_head_nil]
  | cons t queue ih =>
      obtain ⟨rounds, rfl⟩ := Nat.exists_eq_succ_of_ne_zero (Nat.ne_zero_of_lt hrounds)
      rw [List.length_cons] at hrounds
      by_cases hdue : m.timers.expires (.timer t) ≤ m.timers.jiffies
      · obtain ⟨s, hrun, hlists, hexpires, hjiffies, -⟩ :=
          unlink_lists (show Lists m.timers ([] ++ t :: queue) from h)
        have hround : Lists (m.record (.ran t (m.timers.expires (.timer t))) s).timers queue := hlists
        obtain ⟨m', queue', hloop, hend⟩ := ih (k + 1) hround (Nat.lt_of_succ_lt_succ hrounds)
        have hrest := hend.left
        have hran := hend.ran
        change ∀ u, u ∈ queue' ↔ u ∈ queue ∧ ¬ s.expires (.timer u) ≤ s.jiffies at hrest
        change ∀ u, m'.Ran u ↔ (m.record (.ran t (m.timers.expires (.timer t))) s).Ran u ∨
          u ∈ queue ∧ s.expires (.timer u) ≤ s.jiffies at hran
        rw [hexpires, hjiffies] at hrest hran
        refine ⟨m', queue', ?_, hend.lists, hend.expires.trans hexpires,
          hend.jiffies.trans hjiffies, Nat.le_succ_of_le hend.shorter, fun u => ?_, fun u => ?_⟩
        · rw [timerLoop, h.next_head_cons]
          simp only [if_pos hdue, hrun]
          exact hloop
        · rw [hrest]
          by_cases hut : u = t
          · simp [hut, hdue]
          · simp [hut]
        · rw [hran, ran_record]
          by_cases hut : u = t
          · simp [hut, hdue]
          · simp [hut, Ne.symm hut]
      · -- the timers behind the first one expire even later
        have hnone : ∀ u ∈ t :: queue, ¬ m.timers.expires (.timer u) ≤ m.timers.jiffies := by
          intro u hu hreached
          rcases List.mem_cons.mp hu with rfl | hu
          · exact hdue hreached
          · exact hdue (UInt64.le_trans ((List.pairwise_cons.mp h.sorted).1 u hu) hreached)
        refine ⟨m, t :: queue, ?_, h, rfl, rfl, Nat.le_refl _, fun u => ?_, fun u => ?_⟩
        · rw [timerLoop, h.next_head_cons]
          exact if_neg hdue
        · exact ⟨fun hu => ⟨hu, hnone u hu⟩, And.left⟩
        · exact ⟨.inl, fun hu => hu.resolve_right fun hlate => hnone u hlate.1 hlate.2⟩

/-- The session with the clock one tick on. -/
def Session.later (m : Session T) : Session T :=
  { m with timers := { m.timers with jiffies := m.timers.jiffies + 1 } }

theorem quiet_tick {m : Session T} {queue : List T} {limit : Nat} (h : Lists m.timers queue)
    (hlimit : queue.length < limit) :
    ∃ m' queue', doTimer limit (fun _ => []) m = .ok m' ∧ Expired m.later m' queue queue' := by
  have hlater : Lists (m.record (.ticked (m.timers.jiffies + 1)) m.later.timers).timers queue :=
    ⟨h.ring, h.nodup, h.sorted, h.last⟩
  obtain ⟨mid, queue', hloop, hend⟩ := quiet_loop limit 0 hlater hlimit
  refine ⟨mid.record .returned mid.timers, queue', ?_, hend.lists, hend.expires, hend.jiffies,
    hend.shorter, hend.left, fun t => ?_⟩
  · rw [doTimer]
    exact congrArg (fun r => r.bind fun m => .ok (m.record .returned m.timers)) hloop
  · rw [ran_record, hend.ran, ran_record]
    simp only [reduceCtorEq, exists_false, or_false]
    rfl

/-- Only timers of the list run, and each has run once the clock has reached its
expiry time. -/
theorem quiet_ticks {m : Session T} {queue : List T} {limit : Nat} (n : Nat)
    (h : Lists m.timers queue) (hlimit : queue.length < limit) :
    ∃ m', (List.replicate n (.tick fun _ => [])).foldlM (step limit) m = .ok m' ∧
      (∀ t, m'.Ran t → m.Ran t ∨ t ∈ queue) ∧
      ∀ t, (m.Ran t ∨ t ∈ queue ∧ 0 < n ∧
        m.timers.expires (.timer t) = m.timers.jiffies + UInt64.ofNat n) → m'.Ran t := by
  induction n generalizing m queue with
  | zero => exact ⟨m, rfl, fun t => .inl, fun t ht => ht.resolve_right fun h => absurd h.2.1 (by simp)⟩
  | succ n ih =>
      obtain ⟨mid, queue', htick, hmid⟩ := quiet_tick h hlimit
      obtain ⟨m', hrun, honly, hall⟩ := ih hmid.lists (Nat.lt_of_le_of_lt hmid.shorter hlimit)
      have hran : ∀ t, mid.Ran t ↔ m.Ran t ∨
          t ∈ queue ∧ m.timers.expires (.timer t) ≤ m.timers.jiffies + 1 := hmid.ran
      have hleft : ∀ t, t ∈ queue' ↔
          t ∈ queue ∧ ¬ m.timers.expires (.timer t) ≤ m.timers.jiffies + 1 := hmid.left
      have hexpires : mid.timers.expires = m.timers.expires := hmid.expires
      have hjiffies : mid.timers.jiffies = m.timers.jiffies + 1 := hmid.jiffies
      refine ⟨m', ?_, fun t ht => ?_, fun t ht => hall t ?_⟩
      · rw [List.replicate_succ, List.foldlM_cons,
          show step limit m (.tick fun _ => []) = .ok mid from htick]
        exact hrun
      · rcases honly t ht with hbefore | hin
        · exact ((hran t).mp hbefore).imp_right And.left
        · exact .inr ((hleft t).mp hin).1
      · rcases ht with hbefore | ⟨hin, -, hreached⟩
        · exact .inl ((hran t).mpr (.inl hbefore))
        · by_cases hnow : m.timers.expires (.timer t) ≤ m.timers.jiffies + 1
          · exact .inl ((hran t).mpr (.inr ⟨hin, hnow⟩))
          · refine .inr ⟨(hleft t).mpr ⟨hin, hnow⟩, ?_, ?_⟩
            · rw [Nat.pos_iff_ne_zero]
              rintro rfl
              exact hnow (by rw [hreached]; exact UInt64.le_refl _)
            · rw [hexpires, hjiffies, hreached, Nat.add_comm n 1, UInt64.ofNat_add,
                UInt64.add_assoc]
              rfl

/-! ## The two ways to change a timer -/

omit [DecidableEq T] in
theorem onTimer_replicate (n : Nat) :
    (List.replicate n (.tick fun _ => [] : Input T)).map Input.onTimer =
      List.replicate n (.tick fun _ => []) := by
  rw [List.map_replicate]
  rfl

/-- A timer that is deleted and added again hangs in the ring. -/
theorem Consistent.delAndAdd {s : Wheels T} {queue : List (Entry T)} {limit : Nat}
    (h : Consistent s queue) (t : T) (expires : UInt64) (hlimit : queue.length < limit) :
    ∃ s' queue', delAndAdd limit s t expires = some s' ∧ Lists s' queue' ∧
      queue'.length ≤ queue.length + 1 ∧ .timer t ∈ queue' ∧
      s'.expires (timerNode t) = expires ∧ s'.jiffies = s.jiffies := by
  obtain ⟨s₁, result, hdel, hdeleted, hjiffies⟩ := h.delTimer t
  have hout : .timer t ∉ queue.erase (.timer t) := by
    rw [h.lists.nodup.mem_erase_iff]
    exact fun hin => hin.1 rfl
  have hshort : (queue.erase (.timer t)).length ≤ queue.length := List.erase_sublist.length_le
  obtain ⟨s₂, hadd, hlists, hexpires, hjiffies', -⟩ :=
    addTimer_lists (hdeleted.setExpires hout expires).lists hout (Nat.lt_of_le_of_lt hshort hlimit)
  refine ⟨s₂, _, ?_, hlists, ?_, ?_, ?_, hjiffies'.trans hjiffies⟩
  · rw [Timers.delAndAdd, hdel]
    exact hadd
  · rw [List.orderedInsert_length]
    exact Nat.succ_le_succ hshort
  · exact (List.mem_orderedInsert ..).mpr (.inl rfl)
  · rw [hexpires]
    exact Function.update_self ..

/-- As many ticks as it takes tell the two apart. -/
theorem Consistent.not_modMeansDelAdd {s : Wheels T} {queue : List (Entry T)}
    (hqueue : Consistent s queue) (t : T) (expires : UInt64) : ¬ ModMeansDelAdd s t expires := by
  intro hsame
  -- so many ticks that the clock stands at the expiry time at the end
  have hticks : ∃ n, 0 < n ∧ expires = s.jiffies + UInt64.ofNat n := by
    refine ⟨(expires - s.jiffies).toNat + 2 ^ 64, Nat.succ_pos _, ?_⟩
    have hwrap : UInt64.ofNat (2 ^ 64) = 0 := by decide
    rw [UInt64.ofNat_add, hwrap, UInt64.ofNat_toNat, UInt64.add_zero, UInt64.add_comm,
      UInt64.sub_add_cancel]
  obtain ⟨n, hpos, hreached⟩ := hticks
  obtain ⟨most, hmost⟩ := hsame (List.replicate n (.tick fun _ => []))
  have hlater := hmost (most + queue.length + 2) (by omega)
  obtain ⟨s', queue', hrun, hlists, hlength, hin, hexpires, hjiffies⟩ :=
    hqueue.delAndAdd t expires (show queue.length < most + queue.length + 2 by omega)
  rw [hrun, Option.map_some, Option.some.injEq, later, later, onTimer_replicate] at hlater
  have hmod := hqueue.modTimer t expires
  have hshort : (queue.erase (.timer t)).length ≤ queue.length := List.erase_sublist.length_le
  obtain ⟨m₁, hrun₁, -, hall⟩ := quiet_ticks (m := ⟨s', []⟩) n hlists
    (show queue'.length < most + queue.length + 2 by omega)
  obtain ⟨m₂, hrun₂, honly, -⟩ := quiet_ticks (m := ⟨Timers.modTimer s t expires, []⟩) n hmod.lists
    (show (queue.erase (.timer t)).length < most + queue.length + 2 by omega)
  rw [hrun₁, hrun₂] at hlater
  have hevents : m₁.events = m₂.events := by simpa [Except.map] using hlater
  obtain ⟨e, he⟩ := hall (.timer t) (.inr ⟨hin, hpos, by
    change s'.expires (timerNode t) = s'.jiffies + _
    rw [hexpires, hjiffies, hreached]⟩)
  rcases honly (.timer t) ⟨e, hevents ▸ he⟩ with hbefore | hleft
  · obtain ⟨e', he'⟩ := hbefore
    cases he'
  · rw [hqueue.lists.nodup.mem_erase_iff] at hleft
    exact hleft.1 rfl

/-- In no state that the timer code leads to does `mod_timer` do what deleting and
adding the timer does, whatever the timer and its new expiry time are. -/
theorem modTimer_differs {s : Wheels T} (h : Reachable s) (t : T) (expires : UInt64) :
    ¬ ModMeansDelAdd s t expires := by
  obtain ⟨queue, hqueue⟩ := h.consistent
  exact hqueue.not_modMeansDelAdd t expires

end

theorem modTimer_differs_queued :
    ¬ ModMeansDelAdd (modTimer (initial : Wheels Bool) true 100) false 300 :=
  modTimer_differs ⟨0, [.mod true 100], rfl⟩ false 300

/-- The first timer of the program, set to the fifth tick. -/
theorem modTimer_never_runs : ¬ ModMeansDelAdd (initial : Wheels Unit) () 5 :=
  consistent_initial.not_modMeansDelAdd () 5

end Milo.Timers
