import Absolute.RtRwLock

/-!
# What holds of the reader/writer lock in every run

`Inv` adds to `Exclusive` what the wake-ups rest on: a reader parks only while a
writer holds the lock or waits for it, and where the lock is free a waiting writer
is on its way to it. An unlock that frees the lock finds every waiting writer
awake, in the queue it takes the first of, or blocked where it will notify.
-/

namespace Absolute

namespace RwLock

open Function Headcount Runs Waiting

variable {τ : Type} {isTask : τ → Bool} {s s' : State τ} {t : τ}

theorem Woken.keep {op : Op} {w : τ} (h : Woken s op w) (hplace : s'.place w = s.place w)
    (hn : s.notifications ≤ s'.notifications) : Woken s' op w := by
  rcases h with h | h | ⟨h, hpos⟩
  · exact .inl (hplace.trans h)
  · exact .inr (.inl (hplace.trans h))
  · exact .inr (.inr ⟨hplace.trans h, lt_of_lt_of_le hpos hn⟩)

theorem Woken.ne {w : τ} (h : Woken s .writing w) (ht : ∀ spot, s.place t ≠ .inside .writing spot) :
    w ≠ t := by
  rintro rfl
  rcases h with h | h | ⟨h, -⟩ <;> exact ht _ h

theorem registered_eq_zero {x : Place Op} (h : ∀ spot, x ≠ .inside .writing spot) :
    registered x = 0 := by
  unfold registered
  split
  · rename_i spot
    exact absurd rfl (h spot)
  · rfl

theorem awaken_registered (u : τ) :
    registered (awaken (fun _ => true) s.place u) = registered (s.place u) := by
  unfold awaken
  split
  · rename_i op heq
    rw [heq, if_pos rfl]
    cases op <;> rfl
  · rfl

variable [DecidableEq τ]

structure Inv (s : State τ) : Prop extends Exclusive s where
  readerQueue : Queued s.place .reading s.readerWaiters
  writerQueue : Queued s.place .writing s.writerWaiters
  readersWait : s.readerWaiters ≠ [] → s.writer = true ∨ 0 < s.waitingWriters
  writerComes : s.writer = false → s.readers = 0 → 0 < s.waitingWriters →
    ∃ w, Woken s .writing w

theorem Inv.initial : Inv ({} : State τ) where
  readers := ⟨0, .zero, rfl⟩
  waiting := ⟨0, .zero, rfl⟩
  alone h := by cases h
  holder := ⟨fun h => (by cases h), fun ⟨_, h⟩ => (by cases h)⟩
  single _ _ h := by cases h
  readerQueue := .nil fun _ => rfl
  writerQueue := .nil fun _ => rfl
  readersWait h := absurd rfl h
  writerComes _ _ h := absurd h (lt_irrefl _)

theorem Inv.waiting_nonneg (h : Inv s) : 0 ≤ s.waitingWriters := by
  rcases h.waiting with ⟨n, -, heq⟩
  rw [heq]
  exact Int.natCast_nonneg n

theorem Inv.readers_nonneg (h : Inv s) : 0 ≤ s.readers := by
  rcases h.readers with ⟨n, -, heq⟩
  rw [heq]
  exact Int.natCast_nonneg n

/-- A caller that is no writer goes somewhere that is no writer's place. -/
theorem registered_move (h : ∃ n : ℕ, Total (fun t => registered (s.place t)) n
      ∧ s.waitingWriters = n) {x : Place Op} (hx : registered x = registered (s.place t)) :
    ∃ n : ℕ, Total (fun u => registered (update s.place t x u)) n ∧ s.waitingWriters = n := by
  rcases h with ⟨n, htotal, hn⟩
  refine ⟨n, ?_, hn⟩
  exact Total.update (fun _ => registered) htotal t x (by rw [hx])

theorem exists_registered (h : Inv s) (hpos : 0 < s.waitingWriters) :
    ∃ w spot, s.place w = .inside .writing spot := by
  rcases h.waiting with ⟨n, htotal, hn⟩
  rcases htotal.exists_pos (by omega) with ⟨w, hw⟩
  unfold registered at hw
  split at hw
  · rename_i spot heq
    exact ⟨w, spot, heq⟩
  · exact absurd hw (lt_irrefl _)

/-! ## Readers -/

/-- A reader that goes on waiting, or takes the lock. -/
theorem Inv.acquireRead (h : Inv s)
    (ht : s.place t = .outside ∨ s.place t = .inside .reading .ready)
    (hw : s.writer = false) (hn : s.waitingWriters ≤ 0) : Inv (s.acquireRead t) where
  readers := by
    rcases h.readers with ⟨n, htotal, heq⟩
    refine ⟨n + 1, htotal.replace t (fun u hu => update_of_ne hu _ _) ?_, ?_⟩
    · rw [State.acquireRead]
      dsimp only
      rw [update_self]
      omega
    · rw [State.acquireRead, heq]
      push_cast
      rfl
  waiting := registered_move h.waiting (by rcases ht with ht | ht <;> simp [ht, registered])
  alone hwriter := by
    rw [State.acquireRead, hw] at hwriter
    cases hwriter
  holder := h.holder
  single := h.single
  readerQueue := h.readerQueue.move (by rcases ht with ht | ht <;> rw [ht] <;> simp) (by simp)
  writerQueue := h.writerQueue.move (by rcases ht with ht | ht <;> rw [ht] <;> simp) (by simp)
  readersWait := h.readersWait
  writerComes _ _ hpos := absurd hpos (not_lt.mpr hn)

theorem Inv.waitRead (h : Inv s) (ht : s.place t = .outside ∨ s.place t = .inside .reading .ready)
    (hbusy : s.writer = true ∨ 0 < s.waitingWriters) : Inv (s.wait isTask .reading t) := by
  have hfrom : ∀ spot, s.place t ≠ .inside .writing spot := by
    rcases ht with ht | ht <;> rw [ht] <;> simp
  have hparked : ∀ op, s.place t ≠ .inside op .parked := by
    rcases ht with ht | ht <;> rw [ht] <;> simp
  have hcomes : ∀ {s' : State τ} {x : Place Op}, s'.place = update s.place t x →
      s'.notifications = s.notifications →
      (∃ w, Woken s .writing w) → ∃ w, Woken s' .writing w := by
    rintro s' x hplace hn ⟨w, hw⟩
    exact ⟨w, hw.keep (by rw [hplace, update_of_ne (hw.ne hfrom)]) hn.ge⟩
  have hwaiting : ∀ {x : Place Op}, registered x = 0 →
      ∃ n : ℕ, Total (fun u => registered (update s.place t x u)) n ∧ s.waitingWriters = n :=
    fun hx => registered_move h.waiting (by rw [hx, registered_eq_zero hfrom])
  unfold State.wait
  split
  · exact
      { readers := h.readers
        waiting := hwaiting rfl
        alone := h.alone
        holder := h.holder
        single := h.single
        readerQueue := h.readerQueue.park (hparked _)
        writerQueue := h.writerQueue.move (hparked _) (by simp)
        readersWait := fun _ => hbusy
        writerComes := fun hw hr hpos => hcomes rfl rfl (h.writerComes hw hr hpos) }
  · exact
      { readers := h.readers
        waiting := hwaiting rfl
        alone := h.alone
        holder := h.holder
        single := h.single
        readerQueue := h.readerQueue.move (hparked _) (by simp)
        writerQueue := h.writerQueue.move (hparked _) (by simp)
        readersWait := h.readersWait
        writerComes := fun hw hr hpos => hcomes rfl rfl (h.writerComes hw hr hpos) }

theorem Inv.testRead (h : Inv s)
    (ht : s.place t = .outside ∨ s.place t = .inside .reading .ready) :
    Inv (s.testRead isTask t) := by
  unfold State.testRead
  split
  · rename_i hfree
    exact h.acquireRead ht hfree.1 hfree.2.le
  · rename_i hbusy
    refine h.waitRead ht ?_
    cases hw : s.writer with
    | true => exact .inl rfl
    | false =>
        refine .inr (lt_of_le_of_ne h.waiting_nonneg fun heq => hbusy ⟨hw, heq.symm⟩)

/-! ## Writers -/

/-- A writer that is counted, before its first test. -/
theorem Inv.register (h : Inv s) (ht : s.place t = .outside) :
    Inv { s with waitingWriters := s.waitingWriters + 1
                 place := update s.place t (.inside .writing .ready) } where
  readers := h.readers
  waiting := by
    rcases h.waiting with ⟨n, htotal, heq⟩
    refine ⟨n + 1, Total.update (fun _ => registered) htotal t _ ?_, ?_⟩
    · rw [ht]
      rfl
    · dsimp only
      rw [heq]
      push_cast
      rfl
  alone := h.alone
  holder := h.holder
  single := h.single
  readerQueue := h.readerQueue.move (by rw [ht]; simp) (by simp)
  writerQueue := h.writerQueue.move (by rw [ht]; simp) (by simp)
  readersWait _ := .inr (by have := h.waiting_nonneg; dsimp only; omega)
  writerComes _ _ _ := ⟨t, .inl (update_self _ _ _)⟩

/-- Where no one holds the lock the next writer is the only one. -/
theorem only_writer (holder : s.writer = true ↔ ∃ u, s.writes u = true) (hw : s.writer = false)
    {u : τ} (hu : update s.writes t true u = true) : u = t := by
  by_contra hne
  rw [update_of_ne hne] at hu
  rw [holder.mpr ⟨u, hu⟩] at hw
  cases hw

theorem Inv.acquireWrite (h : Inv s) (ht : s.place t = .outside) (hw : s.writer = false)
    (hr : s.readers = 0) : Inv (s.acquireWrite t) where
  readers := h.readers
  waiting := registered_move h.waiting (by rw [ht])
  alone _ := hr
  holder := ⟨fun _ => ⟨t, update_self _ _ _⟩, fun _ => rfl⟩
  single u v hu hv := by rw [only_writer h.holder hw hu, only_writer h.holder hw hv]
  readerQueue := h.readerQueue.move (by rw [ht]; simp) (by simp)
  writerQueue := h.writerQueue.move (by rw [ht]; simp) (by simp)
  readersWait _ := .inl rfl
  writerComes hwriter := by cases hwriter

/-- A registered writer that leaves: it is counted no longer. -/
theorem Inv.acquireRegistered (h : Inv s) (ht : s.place t = .inside .writing .ready)
    (hw : s.writer = false) (hr : s.readers = 0) :
    Inv ({ s with waitingWriters := s.waitingWriters - 1 }.acquireWrite t) where
  readers := h.readers
  waiting := by
    rcases h.waiting with ⟨n, htotal, heq⟩
    have hpos := htotal.le t
    rw [ht] at hpos
    have hone : registered (.inside .writing .ready) = 1 := rfl
    rw [hone] at hpos
    refine ⟨n - 1, Total.update (fun _ => registered) htotal t _ ?_, ?_⟩
    · rw [ht, hone]
      change n - 1 + 1 = n + 0
      omega
    · change s.waitingWriters - 1 = _
      rw [heq]
      push_cast [hpos]
      rfl
  alone _ := hr
  holder := ⟨fun _ => ⟨t, update_self _ _ _⟩, fun _ => rfl⟩
  single u v hu hv := by rw [only_writer h.holder hw hu, only_writer h.holder hw hv]
  readerQueue := h.readerQueue.move (by rw [ht]; simp) (by simp)
  writerQueue := h.writerQueue.move (by rw [ht]; simp) (by simp)
  readersWait _ := .inl rfl
  writerComes hwriter := by cases hwriter

theorem Inv.waitWrite (h : Inv s) (ht : s.place t = .inside .writing .ready)
    (hbusy : ¬(s.writer = false ∧ s.readers = 0)) : Inv (s.wait isTask .writing t) := by
  have hparked : ∀ op, s.place t ≠ .inside op .parked := by
    rw [ht]
    simp
  have hwaiting : ∀ spot, ∃ n : ℕ,
      Total (fun u => registered (update s.place t (.inside .writing spot) u)) n
        ∧ s.waitingWriters = n :=
    fun spot => registered_move h.waiting (by rw [ht]; rfl)
  unfold State.wait
  split
  · exact
      { readers := h.readers
        waiting := hwaiting _
        alone := h.alone
        holder := h.holder
        single := h.single
        readerQueue := h.readerQueue.move (hparked _) (by simp)
        writerQueue := h.writerQueue.park (hparked _)
        readersWait := h.readersWait
        writerComes := fun hw hr => absurd ⟨hw, hr⟩ hbusy }
  · exact
      { readers := h.readers
        waiting := hwaiting _
        alone := h.alone
        holder := h.holder
        single := h.single
        readerQueue := h.readerQueue.move (hparked _) (by simp)
        writerQueue := h.writerQueue.move (hparked _) (by simp)
        readersWait := h.readersWait
        writerComes := fun hw hr => absurd ⟨hw, hr⟩ hbusy }

theorem Inv.testWrite (h : Inv s) (ht : s.place t = .inside .writing .ready) :
    Inv (s.testWrite isTask t) := by
  unfold State.testWrite
  split
  · rename_i hfree
    exact h.acquireRegistered ht hfree.1 hfree.2
  · rename_i hbusy
    exact h.waitWrite ht hbusy

/-! ## Unlocking -/

/-- A release that takes a parked writer out of the queue. -/
theorem Inv.handWriter {w : τ} {rest : List τ} (hqueue : s.writerWaiters = w :: rest)
    (hexclusive : Exclusive s) (hreaders : Queued s.place .reading s.readerWaiters)
    (hwriters : Queued s.place .writing s.writerWaiters) (hpos : 0 < s.waitingWriters) :
    Inv (s.handWriter w rest) := by
  rw [hqueue] at hwriters
  have hw := hwriters.head
  exact
    { readers := hexclusive.readers
      waiting := registered_move hexclusive.waiting (by rw [hw]; rfl)
      alone := hexclusive.alone
      holder := hexclusive.holder
      single := hexclusive.single
      readerQueue := hreaders.move (by rw [hw]; simp) (by simp)
      writerQueue := hwriters.pop
      readersWait := fun _ => .inr hpos
      writerComes := fun _ _ _ => ⟨w, .inr (.inl (update_self _ _ _))⟩ }

/-- With no writer parked, one that waits is awake or will be notified. -/
theorem Inv.writer_awake (h : Inv s) (hqueue : s.writerWaiters = [])
    (hplace : s'.place = s.place) (hn : 0 < s'.notifications) (hpos : 0 < s.waitingWriters) :
    ∃ w, Woken s' .writing w := by
  rcases exists_registered h hpos with ⟨w, spot, hw⟩
  refine ⟨w, ?_⟩
  unfold Woken
  rw [hplace, hw]
  cases spot with
  | ready => exact .inl rfl
  | handed => exact .inr (.inl rfl)
  | blocked => exact .inr (.inr ⟨rfl, hn⟩)
  | parked =>
      have hmem := (h.writerQueue.parked w).mpr hw
      rw [hqueue] at hmem
      cases hmem

theorem waitingWriters_pos (h : Inv s) {w : τ} {rest : List τ}
    (hqueue : s.writerWaiters = w :: rest) : 0 < s.waitingWriters := by
  have hw := (h.writerQueue.parked w).mp (by rw [hqueue]; exact List.mem_cons_self)
  rcases h.waiting with ⟨n, htotal, heq⟩
  have hle := htotal.le w
  rw [hw] at hle
  change 1 ≤ n at hle
  omega

theorem Inv.unlockRead (h : Inv s) (ht : 0 < s.reads t) : Inv (s.unlockRead t) := by
  unfold State.unlockRead
  split
  · exact h
  · rename_i hpos
    have hwriter : s.writer = false := by
      rw [Bool.eq_false_iff]
      intro hw
      exact hpos (h.alone hw).le
    have hexclusive : Exclusive { s with
        readers := s.readers - 1
        reads := update s.reads t (s.reads t - 1)
        notifications := s.notifications + 1 } :=
      { readers := by
          rcases h.readers with ⟨n, htotal, heq⟩
          have hle := htotal.le t
          refine ⟨n - 1, htotal.replace t (fun u hu => update_of_ne hu _ _) ?_, ?_⟩
          · dsimp only
            rw [update_self]
            omega
          · change s.readers - 1 = _
            omega
        waiting := h.waiting
        alone := fun hw => by
          change s.writer = true at hw
          rw [hwriter] at hw
          cases hw
        holder := h.holder
        single := h.single }
    dsimp only
    cases hqueue : s.writerWaiters with
    | nil =>
        dsimp only
        exact
          { hexclusive with
            readerQueue := h.readerQueue
            writerQueue := hqueue ▸ h.writerQueue
            readersWait := h.readersWait
            writerComes := fun _ _ hwaiting =>
              h.writer_awake hqueue rfl (Nat.succ_pos _) hwaiting }
    | cons w rest =>
        have hwaiting := waitingWriters_pos h hqueue
        dsimp only
        split
        · exact .handWriter rfl (hqueue ▸ hexclusive) h.readerQueue (hqueue ▸ h.writerQueue)
            hwaiting
        · rename_i hreaders
          exact
            { hexclusive with
              readerQueue := h.readerQueue
              writerQueue := hqueue ▸ h.writerQueue
              readersWait := h.readersWait
              writerComes := fun _ hr => absurd hr hreaders }

theorem Inv.unlockWrite (h : Inv s) (ht : s.writes t = true) : Inv (s.unlockWrite t) := by
  unfold State.unlockWrite
  split
  · exact h
  · rename_i hwriter
    have hw : s.writer = true := by simpa using hwriter
    have hnone : ∀ u, update s.writes t false u = false := by
      intro u
      by_cases hu : u = t
      · rw [hu, update_self]
      · rw [update_of_ne hu, Bool.eq_false_iff]
        exact fun hwrites => hu (h.single u t hwrites ht)
    have hexclusive : Exclusive { s with
        writer := false
        writes := update s.writes t false
        notifications := s.notifications + 1 } :=
      { readers := h.readers
        waiting := h.waiting
        alone := fun hw => (by cases hw)
        holder := ⟨fun hw => (by cases hw), fun ⟨u, hu⟩ => by
          dsimp only at hu
          rw [hnone] at hu
          cases hu⟩
        single := fun u v hu => by
          dsimp only at hu
          rw [hnone] at hu
          cases hu }
    dsimp only
    cases hqueue : s.writerWaiters with
    | cons w rest =>
        have hpos := waitingWriters_pos h hqueue
        exact .handWriter rfl (hqueue ▸ hexclusive) h.readerQueue (hqueue ▸ h.writerQueue) hpos
    | nil =>
        -- the readers that are taken out are no writers
        have hplaces : ∀ u, registered (handAll .reading s.readerWaiters s.place u)
            = registered (s.place u) := by
          intro u
          by_cases hu : u ∈ s.readerWaiters
          · rw [handAll_of_mem hu, (h.readerQueue.parked u).mp hu]
            rfl
          · rw [handAll_of_not_mem hu]
        have hwaiting : ∃ n : ℕ,
            Total (fun u => registered (handAll .reading s.readerWaiters s.place u)) n
              ∧ s.waitingWriters = n := by
          rcases h.waiting with ⟨n, htotal, heq⟩
          exact ⟨n, htotal.congr hplaces, heq⟩
        have hwriters : Queued (handAll .reading s.readerWaiters s.place) .writing [] := by
          rw [← hqueue]
          exact h.writerQueue.drain_other h.readerQueue (by decide)
        exact
          { readers := hexclusive.readers
            waiting := hwaiting
            alone := hexclusive.alone
            holder := hexclusive.holder
            single := hexclusive.single
            readerQueue := h.readerQueue.drain
            writerQueue := hwriters
            readersWait := fun hne => absurd rfl hne
            writerComes := fun _ _ hpos => by
              rcases exists_registered h hpos with ⟨w, spot, hw⟩
              have hplace : handAll .reading s.readerWaiters s.place w = s.place w := by
                refine handAll_of_not_mem fun hmem => ?_
                rw [(h.readerQueue.parked w).mp hmem] at hw
                cases hw
              refine ⟨w, ?_⟩
              unfold Woken
              dsimp only
              rw [hplace, hw]
              cases spot with
              | ready => exact .inl rfl
              | handed => exact .inr (.inl rfl)
              | blocked => exact .inr (.inr ⟨rfl, Nat.succ_pos _⟩)
              | parked =>
                  have hmem := (h.writerQueue.parked w).mpr hw
                  rw [hqueue] at hmem
                  cases hmem }

/-! ## Wake-ups that arrive -/

/-- A caller that was out of its queue comes to test again. -/
theorem Inv.makeReady (h : Inv s) {op : Op} {spot : Spot} (ht : s.place t = .inside op spot)
    (hspot : spot ≠ .parked) : Inv { s with place := update s.place t (.inside op .ready) } where
  readers := h.readers
  waiting := registered_move h.waiting (by rw [ht]; cases op <;> rfl)
  alone := h.alone
  holder := h.holder
  single := h.single
  readerQueue := h.readerQueue.move (by rw [ht]; simp [hspot]) (by simp)
  writerQueue := h.writerQueue.move (by rw [ht]; simp [hspot]) (by simp)
  readersWait := h.readersWait
  writerComes hw hr hpos := by
    rcases h.writerComes hw hr hpos with ⟨w, hwoken⟩
    refine ⟨w, ?_⟩
    by_cases hwt : w = t
    · subst hwt
      have hop : op = .writing := by
        rcases hwoken with heq | heq | ⟨heq, -⟩ <;> rw [ht] at heq <;>
          exact (Place.inside.inj heq).1
      subst hop
      exact .inl (update_self _ _ _)
    · exact hwoken.keep (update_of_ne hwt _ _) le_rfl

theorem Inv.notify (h : Inv s) :
    Inv { s with notifications := s.notifications - 1
                 place := awaken (fun _ => true) s.place } where
  readers := h.readers
  waiting := by
    rcases h.waiting with ⟨n, htotal, heq⟩
    exact ⟨n, htotal.congr awaken_registered, heq⟩
  alone := h.alone
  holder := h.holder
  single := h.single
  readerQueue := h.readerQueue.awaken
  writerQueue := h.writerQueue.awaken
  readersWait := h.readersWait
  writerComes hw hr hpos := by
    rcases h.writerComes hw hr hpos with ⟨w, hready | hhanded | ⟨hblocked, -⟩⟩
    · exact ⟨w, .inl (by dsimp only; rw [awaken_of_ne (by rw [hready]; simp), hready])⟩
    · exact ⟨w, .inr (.inl (by dsimp only; rw [awaken_of_ne (by rw [hhanded]; simp), hhanded]))⟩
    · exact ⟨w, .inl (awaken_of_blocked hblocked rfl)⟩

/-! ## Every run -/

theorem Inv.step {e : Event τ} (h : Inv s) (hstep : Step isTask s e s') : Inv s' := by
  unfold Step State.apply at hstep
  cases e with
  | lockRead t =>
      dsimp only at hstep
      split at hstep <;> cases hstep
      rename_i hplace
      exact h.testRead (.inl hplace)
  | tryLockRead t =>
      dsimp only at hstep
      split at hstep <;> cases hstep
      rename_i hplace
      split
      · exact h
      · rename_i hfree
        rw [not_or, not_lt] at hfree
        exact h.acquireRead (.inl hplace) (by simpa using hfree.1) hfree.2
  | unlockRead t =>
      dsimp only at hstep
      split at hstep <;> cases hstep
      rename_i hheld
      exact h.unlockRead hheld.2
  | lockWrite t =>
      dsimp only at hstep
      split at hstep <;> cases hstep
      rename_i hplace
      exact (h.register hplace).testWrite (update_self _ _ _)
  | tryLockWrite t =>
      dsimp only at hstep
      split at hstep <;> cases hstep
      rename_i hplace
      split
      · exact h
      · rename_i hfree
        rw [not_or, not_not] at hfree
        exact h.acquireWrite hplace (by simpa using hfree.1) hfree.2
  | unlockWrite t =>
      dsimp only at hstep
      split at hstep <;> cases hstep
      rename_i hheld
      exact h.unlockWrite hheld.2
  | test t =>
      dsimp only at hstep
      split at hstep <;> cases hstep <;> rename_i hplace
      · exact h.testRead (.inr hplace)
      · exact h.testWrite hplace
  | resume t =>
      dsimp only at hstep
      split at hstep <;> cases hstep
      rename_i op hplace
      exact h.makeReady hplace (by decide)
  | notify =>
      dsimp only at hstep
      split at hstep <;> cases hstep
      exact h.notify
  | wake t =>
      dsimp only at hstep
      split at hstep <;> cases hstep
      rename_i op hplace
      exact h.makeReady hplace (by decide)

theorem Inv.run {past : List (Event τ)} (h : Run (Step isTask) {} past s) : Inv s :=
  h.stateInvariant .initial fun _ _ _ hI hstep => hI.step hstep

theorem Inv.notStranded (h : Inv s) : NotStranded s := by
  rintro hw hr ⟨t, ht⟩
  have hpos : 0 < s.waitingWriters := by
    rcases ht with ht | ht
    · rcases h.readersWait (List.ne_nil_of_mem ht) with hwriter | hpos
      · rw [hw] at hwriter
        cases hwriter
      · exact hpos
    · cases hqueue : s.writerWaiters with
      | nil => rw [hqueue] at ht; cases ht
      | cons w rest => exact waitingWriters_pos h hqueue
  rcases h.writerComes hw hr hpos with ⟨w, hwoken⟩
  exact ⟨.writing, w, hwoken⟩

/-- In every state of every run the lock is held by readers or by one writer, its
counters count, and no parked task is left behind. -/
theorem rwlock_protocol {past : List (Event τ)} (h : Run (Step isTask) {} past s) :
    Exclusive s ∧ 0 ≤ s.readers ∧ NotStranded s :=
  ⟨(Inv.run h).toExclusive, (Inv.run h).readers_nonneg, (Inv.run h).notStranded⟩

/-- A writer parks behind a reader that unlocks. -/
theorem rwlock_handover : ∃ s : State Bool,
    Run (Step fun _ => true) {} [.unlockRead false, .lockWrite true, .lockRead false] s
      ∧ (Exclusive s ∧ 0 ≤ s.readers ∧ NotStranded s) := by
  have hrun : Run (Step fun _ => true) ({} : State Bool)
      [.unlockRead false, .lockWrite true, .lockRead false] _ :=
    .cons (.cons (.cons .nil rfl) rfl) rfl
  exact ⟨_, hrun, rwlock_protocol hrun⟩

end RwLock

end Absolute
