import Absolute.RtCondition

/-!
# Which waiters a notification releases

While no new thread begins to wait, every thread in the condition is one that was
registered before, so whichever the operating system wakes has something to wake
for. A thread that comes in between observes the new generation, takes the
notification and blocks again with it: the older ones wait on.
-/

namespace Absolute

namespace Condition

open Function Headcount Runs Waiting

variable {τ : Type} {isTask : τ → Bool} {s s' s₁ s₂ : State τ} {t : τ}

/-- 1 for a thread in `wait` that is no task. -/
def threads : Place Kind → ℕ
  | .inside (.native _) _ => 1
  | _ => 0

theorem awaken_threads (u : τ) :
    threads (awaken State.isNative s.place u) = threads (s.place u) := by
  unfold awaken
  split
  · rename_i op heq
    rw [heq]
    cases op <;> rfl
  · rfl

theorem awaken_eq_native {u : τ} {observed : UInt64} {spot : Spot}
    (h : ∀ t observed spot, s.place t = .inside (.native observed) spot →
      spot = .ready ∨ spot = .blocked)
    (hu : awaken State.isNative s.place u = .inside (.native observed) spot) :
    spot = .ready := by
  by_cases hblocked : ∃ op, s.place u = .inside op .blocked
  · rcases hblocked with ⟨op, hop⟩
    cases op with
    | task =>
        unfold awaken at hu
        rw [hop] at hu
        cases hu
    | native o =>
        rw [awaken_of_blocked hop rfl] at hu
        cases hu
        rfl
  · rw [awaken_of_ne fun op hop => hblocked ⟨op, hop⟩] at hu
    rcases h u observed spot hu with rfl | rfl
    · rfl
    · exact absurd ⟨_, hu⟩ hblocked

/-- The threads in the condition are blocked, and were registered in `s`. -/
structure Still (s s₂ : State τ) : Prop where
  some : ∃ u observed, s₂.place u = .inside (.native observed) .blocked
  all : ∀ u observed spot, s₂.place u = .inside (.native observed) spot →
    spot = .blocked ∧ Registered s u observed

theorem Still.keep (h : Still s s₁)
    (hsame : ∀ u observed spot, s₂.place u = .inside (.native observed) spot
      ↔ s₁.place u = .inside (.native observed) spot) : Still s s₂ where
  some := by
    rcases h.some with ⟨u, observed, hu⟩
    exact ⟨u, observed, (hsame u observed _).mpr hu⟩
  all u observed spot hu := h.all u observed spot ((hsame u observed spot).mp hu)

variable [DecidableEq τ]

structure Inv (s : State τ) : Prop where
  queue : Queued s.place .task s.taskWaiters
  counted : ∃ n : ℕ, Total (fun t => threads (s.place t)) n ∧ s.nativeWaiters = n
  spots : ∀ t observed spot, s.place t = .inside (.native observed) spot →
    spot = .ready ∨ spot = .blocked

theorem Inv.initial : Inv ({} : State τ) where
  queue := .nil fun _ => rfl
  counted := ⟨0, .zero, rfl⟩
  spots _ _ _ h := by cases h

theorem Inv.exists_native (h : Inv s) (hpos : 0 < s.nativeWaiters) :
    ∃ u observed, Registered s u observed := by
  rcases h.counted with ⟨n, htotal, hn⟩
  rcases htotal.exists_pos (by omega) with ⟨u, hu⟩
  unfold threads at hu
  split at hu
  · rename_i observed spot heq
    exact ⟨u, observed, spot, heq⟩
  · exact absurd hu (lt_irrefl _)

theorem spots_update (h : ∀ t observed spot, s.place t = .inside (.native observed) spot →
      spot = .ready ∨ spot = .blocked) {x : Place Kind}
    (hx : ∀ observed spot, x = .inside (.native observed) spot → spot = .ready ∨ spot = .blocked)
    (u : τ) (observed : UInt64) (spot : Spot)
    (hu : update s.place t x u = .inside (.native observed) spot) :
    spot = .ready ∨ spot = .blocked := by
  by_cases hut : u = t
  · rw [hut, update_self] at hu
    exact hx observed spot hu
  · rw [update_of_ne hut] at hu
    exact h u observed spot hu

/-- A caller moves, and the count with it. -/
theorem Inv.move (h : Inv s) {x : Place Kind} {waiting : ℤ}
    (hfrom : s.place t ≠ .inside .task .parked) (hto : x ≠ .inside .task .parked)
    (hx : ∀ observed spot, x = .inside (.native observed) spot → spot = .ready ∨ spot = .blocked)
    (hcount : waiting + threads (s.place t) = s.nativeWaiters + threads x) :
    Inv { s with nativeWaiters := waiting, place := update s.place t x } where
  queue := h.queue.move hfrom hto
  counted := by
    rcases h.counted with ⟨n, htotal, hn⟩
    have hle := htotal.le t
    refine ⟨n + threads x - threads (s.place t),
      Total.update (fun _ => threads) htotal t x (by omega), ?_⟩
    dsimp only
    omega
  spots := spots_update h.spots hx

theorem Inv.wait (h : Inv s) (ht : s.place t = .outside) : Inv (s.wait isTask t) := by
  unfold State.wait
  split
  · exact
      { queue := h.queue.park (by rw [ht]; simp)
        counted := by
          rcases h.counted with ⟨n, htotal, hn⟩
          refine ⟨n, Total.update (fun _ => threads) htotal t _ ?_, hn⟩
          rw [ht]
          rfl
        spots := spots_update h.spots fun _ _ heq => by cases heq }
  · refine h.move (by rw [ht]; simp) (by simp) ?_ ?_
    · intro observed spot heq
      cases heq
      exact .inr rfl
    · rw [ht]
      simp [threads]

theorem Inv.notifyOne (h : Inv s) : Inv (s.notifyOne t) := by
  unfold State.notifyOne
  split
  · rename_i w rest hqueue
    have hw := (hqueue ▸ h.queue).head
    exact
      { queue := (hqueue ▸ h.queue).pop
        counted := by
          rcases h.counted with ⟨n, htotal, hn⟩
          refine ⟨n, Total.update (fun _ => threads) htotal w _ ?_, hn⟩
          rw [hw]
          rfl
        spots := spots_update h.spots fun _ _ heq => by cases heq }
  · split
    · exact ⟨h.queue, h.counted, h.spots⟩
    · exact h

theorem handAll_eq_native_iff (h : Inv s) {u : τ} {observed : UInt64} {spot : Spot} :
    handAll .task s.taskWaiters s.place u = .inside (.native observed) spot
      ↔ s.place u = .inside (.native observed) spot := by
  by_cases hu : u ∈ s.taskWaiters
  · rw [handAll_of_mem hu, (h.queue.parked u).mp hu]
    constructor <;> intro heq <;> cases heq
  · rw [handAll_of_not_mem hu]

theorem Inv.handTasks (h : Inv s) :
    Inv { s with taskWaiters := [], place := handAll .task s.taskWaiters s.place } where
  queue := h.queue.drain
  counted := by
    rcases h.counted with ⟨n, htotal, hn⟩
    refine ⟨n, htotal.congr fun u => ?_, hn⟩
    dsimp only
    by_cases hu : u ∈ s.taskWaiters
    · rw [handAll_of_mem hu, (h.queue.parked u).mp hu]
      rfl
    · rw [handAll_of_not_mem hu]
  spots u observed spot hu := h.spots u observed spot ((handAll_eq_native_iff h).mp hu)

theorem Inv.notifyAll (h : Inv s) : Inv (s.notifyAll t) := by
  unfold State.notifyAll
  dsimp only
  split
  · exact ⟨h.handTasks.queue, h.handTasks.counted, h.handTasks.spots⟩
  · exact h.handTasks

/-- A blocked thread wakes. -/
theorem Inv.makeReady (h : Inv s) {observed : UInt64}
    (ht : s.place t = .inside (.native observed) .blocked) :
    Inv { s with place := update s.place t (.inside (.native observed) .ready) } := by
  refine h.move (by rw [ht]; simp) (by simp) ?_ ?_
  · intro observed spot heq
    cases heq
    exact .inl rfl
  · rw [ht]
    rfl

theorem Inv.test (h : Inv s) {observed : UInt64}
    (ht : s.place t = .inside (.native observed) .ready) : Inv (s.test t observed) := by
  unfold State.test
  split
  · refine h.move (by rw [ht]; simp) (by simp) (fun _ _ heq => by cases heq) ?_
    rw [ht]
    simp [threads]
  · refine h.move (by rw [ht]; simp) (by simp) ?_ ?_
    · intro observed spot heq
      cases heq
      exact .inr rfl
    · rw [ht]
      rfl

theorem Inv.step {e : Event τ} (h : Inv s) (hstep : Step isTask s e s') : Inv s' := by
  have hs := hstep.2
  unfold State.apply at hs
  cases e with
  | wait t =>
      dsimp only at hs
      split at hs <;> cases hs
      rename_i hplace
      exact h.wait hplace.1
  | notifyOne t =>
      dsimp only at hs
      split at hs <;> cases hs
      exact h.notifyOne
  | notifyAll t =>
      dsimp only at hs
      split at hs <;> cases hs
      exact h.notifyAll
  | arrive t u =>
      dsimp only at hs
      split at hs <;> cases hs
      rename_i observed _ hplace
      have hready := h.makeReady hplace
      exact ⟨hready.queue, hready.counted, hready.spots⟩
  | unheard t =>
      dsimp only at hs
      split at hs <;> cases hs
      exact ⟨h.queue, h.counted, h.spots⟩
  | arriveAll t =>
      dsimp only at hs
      split at hs <;> cases hs
      refine ⟨h.queue.awaken, ?_, fun u observed spot hu => .inl (awaken_eq_native h.spots hu)⟩
      rcases h.counted with ⟨n, htotal, hn⟩
      exact ⟨n, htotal.congr awaken_threads, hn⟩
  | test t =>
      dsimp only at hs
      split at hs <;> cases hs
      rename_i observed hplace
      exact h.test hplace
  | resume t =>
      dsimp only at hs
      split at hs <;> cases hs
      rename_i hplace
      refine h.move (by rw [hplace]; simp) (by simp) (fun _ _ heq => by cases heq) ?_
      rw [hplace]
      rfl
  | wake t =>
      dsimp only at hs
      split at hs <;> cases hs
      rename_i observed hplace
      exact h.makeReady hplace

theorem Inv.run {past : List (Event τ)} (h : Run (Step isTask) {} past s) : Inv s :=
  h.stateInvariant .initial fun _ _ _ hI hstep => hI.step hstep

/-! ## Until the notification is sent -/

theorem update_native_iff {x : Place Kind}
    (hfrom : ∀ observed spot, s.place t ≠ .inside (.native observed) spot)
    (hto : ∀ observed spot, x ≠ .inside (.native observed) spot)
    (u : τ) (observed : UInt64) (spot : Spot) :
    update s.place t x u = .inside (.native observed) spot
      ↔ s.place u = .inside (.native observed) spot := by
  by_cases hut : u = t
  · rw [hut, update_self]
    exact iff_of_false (hto observed spot) (hfrom observed spot)
  · rw [update_of_ne hut]

theorem notifyOne_native_iff (h : Inv s) (u : τ) (observed : UInt64) (spot : Spot) :
    (s.notifyOne t).place u = .inside (.native observed) spot
      ↔ s.place u = .inside (.native observed) spot := by
  unfold State.notifyOne
  split
  · rename_i w rest hqueue
    have hw := (hqueue ▸ h.queue).head
    exact update_native_iff (by rw [hw]; simp) (by simp) u observed spot
  · split <;> exact .rfl

theorem notifyAll_native_iff (h : Inv s) (u : τ) (observed : UInt64) (spot : Spot) :
    (s.notifyAll t).place u = .inside (.native observed) spot
      ↔ s.place u = .inside (.native observed) spot := by
  unfold State.notifyAll
  dsimp only
  split <;> exact handAll_eq_native_iff h

theorem notifyOne_owes {n : τ} (hne : n ≠ t) : (s.notifyOne t).owes n = s.owes n := by
  unfold State.notifyOne
  split
  · rfl
  · split
    · exact update_of_ne hne _ _
    · rfl

theorem notifyAll_owes {n : τ} (hne : n ≠ t) : (s.notifyAll t).owes n = s.owes n := by
  unfold State.notifyAll
  dsimp only
  split
  · exact update_of_ne hne _ _
  · rfl

/-- A step that no thread wakes by, while `n` has not sent its notification. -/
theorem Still.step {n : τ} {e : Event τ} (h : Still s s₁) (hinv : Inv s₁)
    (howes : s₁.owes n = .one) (hquiet : Undisturbed isTask n s₁ e) (hstep : Step isTask s₁ e s₂) :
    (Still s s₂ ∧ s₂.owes n = .one ∧ ¬Sends n e)
      ∨ ∃ u observed, Registered s u observed ∧ s₂.place u = .inside (.native observed) .ready := by
  have hs := hstep.2
  have hcaller : ∀ {m : τ}, s₁.owes m = .nothing → n ≠ m := by
    rintro m hm rfl
    rw [howes] at hm
    cases hm
  have hsends : ∀ {e : Event τ}, (∀ m, e ≠ .unheard m) → (∀ m u, e ≠ .arrive m u) →
      ¬Sends n e := by
    rintro e hunheard harrive (heq | ⟨u, heq⟩)
    · exact hunheard n heq
    · exact harrive n u heq
  unfold State.apply at hs
  cases e with
  | wait t =>
      dsimp only at hs
      split at hs <;> cases hs
      rename_i hplace
      have htask : isTask t = true := hquiet.resolve_right fun hnone => hnone howes
      refine .inl ⟨?_, ?_, hsends (by simp) (by simp)⟩
      · unfold State.wait
        rw [if_pos htask]
        exact h.keep (update_native_iff (by rw [hplace.1]; simp) (by simp))
      · unfold State.wait
        rw [if_pos htask]
        exact howes
  | notifyOne t =>
      dsimp only at hs
      split at hs <;> cases hs
      rename_i hplace
      refine .inl ⟨h.keep (notifyOne_native_iff hinv), ?_, hsends (by simp) (by simp)⟩
      rw [notifyOne_owes (hcaller hplace.2), howes]
  | notifyAll t =>
      dsimp only at hs
      split at hs <;> cases hs
      rename_i hplace
      refine .inl ⟨h.keep (notifyAll_native_iff hinv), ?_, hsends (by simp) (by simp)⟩
      rw [notifyAll_owes (hcaller hplace.2), howes]
  | arrive t u =>
      dsimp only at hs
      split at hs <;> cases hs
      rename_i observed _ hplace
      exact .inr ⟨u, observed, (h.all u observed _ hplace).2, update_self _ _ _⟩
  | unheard t =>
      rcases h.some with ⟨u, observed, hu⟩
      exact absurd hu (hstep.1 u observed)
  | arriveAll t =>
      dsimp only at hs
      split at hs <;> cases hs
      rcases h.some with ⟨u, observed, hu⟩
      exact .inr ⟨u, observed, (h.all u observed _ hu).2, awaken_of_blocked hu rfl⟩
  | test t =>
      dsimp only at hs
      split at hs <;> cases hs
      rename_i observed hplace
      cases (h.all t observed _ hplace).1
  | resume t =>
      dsimp only at hs
      split at hs <;> cases hs
      rename_i hplace
      exact .inl ⟨h.keep (update_native_iff (by rw [hplace]; simp) (by simp)), howes,
        hsends (by simp) (by simp)⟩
  | wake t =>
      dsimp only at hs
      split at hs <;> cases hs
      rename_i observed hplace
      exact .inr ⟨t, observed, (h.all t observed _ hplace).2, update_self _ _ _⟩

theorem HasWoken.cons {later : List (Event τ)} (h : HasWoken isTask s s₁ later) (e : Event τ) :
    HasWoken isTask s s₁ (e :: later) := by
  rcases h with ⟨u, observed, past, s', hu, hold, hpast, hrun, hready⟩
  exact ⟨u, observed, past, s', hu, hold, hpast.trans (List.suffix_cons e later), hrun, hready⟩

/-- Until a registered thread has been awake, the notification of `t` is still to come. -/
theorem still_or_woken (hinv : Inv s₁) (howes : s₁.owes t = .one)
    (hold : ∀ u observed, Registered s u observed → observed ≠ s₁.generation)
    (hstart : Still s s₁ ∨ HasWoken isTask s s₁ []) {later : List (Event τ)}
    (h : RunUnder (Step isTask) (Undisturbed isTask t) s₁ later s₂) :
    (Still s s₂ ∧ s₂.owes t = .one ∧ ∀ e ∈ later, ¬Sends t e) ∨ HasWoken isTask s s₁ later := by
  induction h with
  | nil => exact hstart.imp_left fun hstill => ⟨hstill, howes, fun _ h => by cases h⟩
  | @cons later s₂ s₃ e hrun hquiet hstep ih =>
      rcases ih with ⟨hstill, hone, hsends⟩ | hwoken
      · have hinv₂ : Inv s₂ :=
          hrun.run.stateInvariant hinv fun _ _ _ hI hstep => hI.step hstep
        rcases hstill.step hinv₂ hone hquiet hstep with
          ⟨hstill, hone, hsend⟩ | ⟨u, observed, hu, hready⟩
        · refine .inl ⟨hstill, hone, fun e' he' => ?_⟩
          rcases List.mem_cons.mp he' with rfl | he'
          · exact hsend
          · exact hsends e' he'
        · exact .inr ⟨u, observed, _, _, hu, hold u observed hu, List.suffix_rfl,
            hrun.run.cons hstep, hready⟩
      · exact .inr (hwoken.cons e)

/-- Right after the critical section. -/
theorem still_or_awake (hinv : Inv s) (hpos : 0 < s.nativeWaiters)
    (hold : ∀ u observed, Registered s u observed → observed ≠ s₁.generation)
    (hsame : ∀ u observed spot, s₁.place u = .inside (.native observed) spot
      ↔ s.place u = .inside (.native observed) spot) :
    Still s s₁ ∨ HasWoken isTask s s₁ [] := by
  by_cases hready : ∃ u observed, s.place u = .inside (.native observed) .ready
  · rcases hready with ⟨u, observed, hu⟩
    exact .inr ⟨u, observed, [], s₁, ⟨_, hu⟩, hold u observed ⟨_, hu⟩, List.suffix_rfl, .nil,
      (hsame u observed _).mpr hu⟩
  · have hblocked : ∀ u observed spot, s.place u = .inside (.native observed) spot →
        spot = .blocked := by
      intro u observed spot hu
      rcases hinv.spots u observed spot hu with rfl | rfl
      · exact absurd ⟨u, observed, hu⟩ hready
      · rfl
    have hstill : Still s s := by
      rcases hinv.exists_native hpos with ⟨u, observed, spot, hu⟩
      have hspot := hblocked u observed spot hu
      rw [hspot] at hu
      exact ⟨⟨u, observed, hu⟩, fun v o spot hv => ⟨hblocked v o spot hv, spot, hv⟩⟩
    exact .inl (hstill.keep hsame)

/-- Where no thread comes in between, a `notify_one` that finds a waiter
releases one that was registered before it. -/
theorem notify_one_releases {before later : List (Event τ)}
    (hbefore : Run (Step isTask) {} before s) (hfresh : Fresh s)
    (hnotify : Step isTask s (.notifyOne t) s₁)
    (hlater : RunUnder (Step isTask) (Undisturbed isTask t) s₁ later s₂)
    (hwaiter : s.taskWaiters ≠ [] ∨ 0 < s.nativeWaiters) : Releases isTask s t s₁ later := by
  have hinv := Inv.run hbefore
  have hinv₁ := hinv.step hnotify
  have hs := hnotify.2
  unfold State.apply at hs
  dsimp only at hs
  split at hs <;> cases hs
  rename_i hcaller
  cases hqueue : s.taskWaiters with
  | cons w rest =>
      have hw : s.place w = .inside .task .parked :=
        (hinv.queue.parked w).mp (by rw [hqueue]; exact List.mem_cons_self)
      refine .inl ⟨w, hw, ?_⟩
      unfold State.notifyOne
      rw [hqueue]
      exact update_self _ _ _
  | nil =>
      have hpos := hwaiter.resolve_left fun hne => hne hqueue
      have heq : s.notifyOne t
          = { s with generation := s.generation + 1, owes := update s.owes t .one } := by
        unfold State.notifyOne
        rw [hqueue]
        exact if_pos hpos
      have howes : (s.notifyOne t).owes t = .one := by
        rw [heq]
        exact update_self _ _ _
      have hold : ∀ u observed, Registered s u observed →
          observed ≠ (s.notifyOne t).generation := by
        rw [heq]
        exact hfresh
      refine .inr ⟨howes, ?_⟩
      have hstart : Still s (s.notifyOne t) ∨ HasWoken isTask s (s.notifyOne t) [] :=
        still_or_awake hinv hpos hold (notifyOne_native_iff hinv)
      exact (still_or_woken hinv₁ howes hold hstart hlater).imp_left fun hwaits => hwaits.2.2

/-- A thread waits, and a `notify_one` wakes it. -/
theorem notify_one_delivered : ∃ s s₁ s₂ : State Bool,
    Run (Step fun _ => false) {} [.wait true] s ∧ Step (fun _ => false) s (.notifyOne false) s₁
      ∧ Run (Step fun _ => false) s₁ [.arrive false true] s₂
      ∧ Releases (fun _ => false) s false s₁ [.arrive false true] := by
  let s : State Bool := State.wait (fun _ => false) {} true
  have hbefore : Run (Step fun _ => false) ({} : State Bool) [.wait true] s :=
    .cons .nil ⟨trivial, rfl⟩
  have hnotify : Step (fun _ => false) s (.notifyOne false) (s.notifyOne false) := ⟨trivial, rfl⟩
  have hlater : RunUnder (Step fun _ => false) (Undisturbed (fun _ => false) false)
      (s.notifyOne false) [.arrive false true] _ := .cons .nil trivial ⟨trivial, rfl⟩
  have hfresh : Fresh s := by
    rintro u observed ⟨spot, hu⟩
    cases u with
    | false => cases hu
    | true =>
        cases hu
        decide
  exact ⟨_, _, _, hbefore, hnotify, hlater.run,
    notify_one_releases hbefore hfresh hnotify hlater (.inr (by decide))⟩

/-- A thread `1` that begins to wait before the notification of `2` is sent takes it
from `0`. -/
theorem notification_absorbed :
    ¬∀ (before later : List (Event (Fin 3))) (s s₁ s₂ : State (Fin 3)) (t : Fin 3),
      Run (Step fun _ => false) {} before s → Step (fun _ => false) s (.notifyOne t) s₁ →
      Run (Step fun _ => false) s₁ later s₂ → s.taskWaiters ≠ [] ∨ 0 < s.nativeWaiters →
      Releases (fun _ => false) s t s₁ later := by
  intro h
  let s : State (Fin 3) := State.wait (fun _ => false) {} 0
  have hbefore : Run (Step fun _ => false) ({} : State (Fin 3)) [.wait 0] s :=
    .cons .nil ⟨trivial, rfl⟩
  have hlater : Run (Step fun _ => false) (s.notifyOne 2) [.test 1, .arrive 2 1, .wait 1] _ :=
    .cons (.cons (.cons .nil ⟨trivial, rfl⟩) ⟨trivial, rfl⟩) ⟨trivial, rfl⟩
  rcases h _ _ s _ _ 2 hbefore ⟨trivial, rfl⟩ hlater (.inr (by decide)) with
    ⟨w, hw, -⟩ | ⟨-, hunsent | ⟨u, observed, past, s', ⟨spot, hu⟩, -, hpast, hrun, hready⟩⟩
  · have hnone : ∀ w, s.place w ≠ .inside .task .parked := by decide
    exact hnone w hw
  · exact hunsent (.arrive 2 1) (by simp) (.inr ⟨1, rfl⟩)
  · -- only `0` was registered, and no step of this run wakes it
    have hzero : u = 0 := by
      by_contra hne
      have hout : s.place u = .outside := update_of_ne hne _ _
      rw [hout] at hu
      cases hu
    subst hzero
    have hblocked : ∀ past s', past <:+ [.test 1, .arrive 2 1, .wait 1] →
        Run (Step fun _ => false) (s.notifyOne 2) past s' →
        s'.place 0 = .inside (.native 0) .blocked := by
      intro past s' hpast hrun
      rcases List.suffix_cons_iff.mp hpast with rfl | hpast
      · rcases hrun with _ | ⟨_ | ⟨_ | ⟨_ | _, hfirst⟩, hsecond⟩, hthird⟩
        cases hfirst.2
        cases hsecond.2
        cases hthird.2
        rfl
      rcases List.suffix_cons_iff.mp hpast with rfl | hpast
      · rcases hrun with _ | ⟨_ | ⟨_ | _, hfirst⟩, hsecond⟩
        cases hfirst.2
        cases hsecond.2
        rfl
      rcases List.suffix_cons_iff.mp hpast with rfl | hpast
      · rcases hrun with _ | ⟨_ | _, hfirst⟩
        cases hfirst.2
        rfl
      · rw [List.suffix_nil.mp hpast] at hrun
        cases hrun
        rfl
    rw [hblocked past s' hpast hrun] at hready
    cases hready

end Condition

end Absolute
