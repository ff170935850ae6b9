import Absolute.RtChannel

/-!
# What holds of a channel in every run

The values that went in are the values that came out followed by the queue. A
queued value finds its receiver on the way, and a free place its sender: a critical
section that makes one takes a parked task out for it, and one that takes one is a
caller that is on its way no more (`Supply.Served`). A barging caller only makes
the supply smaller.
-/

namespace Absolute

namespace Channel

open Function Runs Supply Waiting

variable {τ α : Type} {isTask : τ → Bool} {valid : α → Bool} {s s' : State τ α}
  {past : List (Event τ α × Answer α)}

theorem acceptedValues_cons (e : Event τ α) (r : Answer α) :
    acceptedValues ((e, r) :: past) = acceptedValues past ++ r.accepted?.toList := by
  unfold acceptedValues
  rw [List.reverse_cons, List.filterMap_append]
  cases h : r.accepted? <;> simp [h]

theorem receivedValues_cons (e : Event τ α) (r : Answer α) :
    receivedValues ((e, r) :: past) = receivedValues past ++ r.received?.toList := by
  unfold receivedValues
  rw [List.reverse_cons, List.filterMap_append]
  cases h : r.received? <;> simp [h]

/-- Where a caller may stand that is about to test. -/
def AtDoor (s : State τ α) (op : Op) (t : τ) : Prop :=
  s.place t = .outside ∨ s.place t = .inside op .ready

theorem AtDoor.not_parked {op : Op} {t : τ} (h : AtDoor s op t) (op' : Op) :
    s.place t ≠ .inside op' .parked := by
  rcases h with h | h <;> rw [h] <;> simp

theorem AtDoor.ne {op op' : Op} {t : τ} (h : AtDoor s op t) (hop : op' ≠ op) (spot : Spot) :
    s.place t ≠ .inside op' spot := by
  rcases h with h | h <;> rw [h]
  · simp
  · intro heq
    injection heq with heq
    exact hop heq.symm

/-- The queues of tasks are what the places say. -/
structure Arranged (isTask : τ → Bool) (s : State τ α) : Prop where
  sendQueue : Queued s.place .sending s.sendWaiters
  receiveQueue : Queued s.place .receiving s.receiveWaiters
  tasks : ∀ t op, s.place t = .inside op .parked → isTask t = true
  closed : s.closed = true → s.sendWaiters = [] ∧ s.receiveWaiters = []

/-- What a critical section does to the values, with what it answers. -/
structure Accounts (s : State τ α) (r : Answer α) (s' : State τ α) : Prop where
  fifo : s.queue ++ r.accepted?.toList = r.received?.toList ++ s'.queue
  accepts : ∀ val, r = .accepted val → s.closed = false
  fails : r = .failed → s.closed = true ∧ s.queue = []

theorem Accounts.quiet {r : Answer α} (hqueue : s'.queue = s.queue)
    (hr : r = .refused ∨ r = .empty ∨ r = .nothing) : Accounts s r s' where
  fifo := by rcases hr with rfl | rfl | rfl <;> simp [Answer.accepted?, Answer.received?, hqueue]
  accepts val heq := by rcases hr with rfl | rfl | rfl <;> cases heq
  fails heq := by rcases hr with rfl | rfl | rfl <;> cases heq

theorem Accounts.pushed {val : α} (hopen : s.closed = false)
    (hqueue : s'.queue = s.queue ++ [val]) : Accounts s (.accepted val) s' where
  fifo := hqueue.symm
  accepts _ _ := hopen
  fails heq := by cases heq

theorem Accounts.popped {val : α} (hqueue : s.queue = val :: s'.queue) :
    Accounts s (.received val) s' where
  fifo := by rw [hqueue]; exact List.append_nil _
  accepts _ heq := by cases heq
  fails heq := by cases heq

/-- What only `close` and the creation set. -/
def Kept (s s' : State τ α) : Prop := s'.closed = s.closed ∧ s'.capacity = s.capacity

variable [DecidableEq τ]

/-- The part of the invariant that is about the present. -/
structure Placed (isTask : τ → Bool) (s : State τ α) : Prop extends Arranged isTask s where
  bounded : s.capacity ≠ 0 → s.queue.length ≤ s.capacity
  receivers : Served isTask .receiving s.place s.receiveWaiters s.queue.length
  senders : Served isTask .sending s.place s.sendWaiters s.free

theorem tasks_update (h : ∀ t op, s.place t = .inside op .parked → isTask t = true) {t : τ}
    {x : Place Op} (hx : ∀ op, x = .inside op .parked → isTask t = true) (u : τ) (op : Op)
    (hu : update s.place t x u = .inside op .parked) : isTask u = true := by
  by_cases hut : u = t
  · rw [hut, update_self] at hu
    rw [hut]
    exact hx op hu
  · rw [update_of_ne hut] at hu
    exact h u op hu

/-- A caller that was not parked goes where it is not. -/
theorem Arranged.move (h : Arranged isTask s) {t : τ} {x : Place Op}
    (hfrom : ∀ op, s.place t ≠ .inside op .parked) (hto : ∀ op, x ≠ .inside op .parked) :
    Arranged isTask { s with place := update s.place t x } where
  sendQueue := h.sendQueue.move (hfrom _) (hto _)
  receiveQueue := h.receiveQueue.move (hfrom _) (hto _)
  tasks := tasks_update h.tasks fun op heq => absurd heq (hto op)
  closed := h.closed

/-! ## A value goes in, a value comes out -/

theorem Placed.of_push (hb : Arranged isTask s) (hroom : s.hasRoom = true)
    (receivers : Served isTask .receiving s.place s.receiveWaiters s.queue.length)
    (senders : Served isTask .sending s.place s.sendWaiters (s.free - 1)) (val : α) :
    Placed isTask (s.push val) := by
  have hlength : (s.queue ++ [val]).length = s.queue.length + 1 := by simp
  have hbounded : s.capacity ≠ 0 → (s.queue ++ [val]).length ≤ s.capacity := by
    intro hne
    simp only [State.hasRoom, Bool.or_eq_true, decide_eq_true_eq] at hroom
    rw [hlength]
    exact hroom.resolve_left hne
  have hfree : s.capacity - (s.queue ++ [val]).length = s.free - 1 := by
    rw [hlength, State.free]
    omega
  unfold State.push State.handReceiver
  dsimp only
  split
  · rename_i r rest hqueue
    have hhead := (hqueue ▸ hb.receiveQueue).head
    have hne : ∀ spot, s.place r ≠ .inside .sending spot := by
      rw [hhead]
      simp
    exact
      { sendQueue := hb.sendQueue.move (hne _) (by simp)
        receiveQueue := (hqueue ▸ hb.receiveQueue).pop
        tasks := tasks_update hb.tasks fun op heq => by
          injection heq with _ hspot
          cases hspot
        closed := fun hclosed => by
          rw [(hb.closed hclosed).2] at hqueue
          cases hqueue
        bounded := hbounded
        receivers := by
          dsimp only
          rw [hlength]
          exact (hqueue ▸ receivers).give (hb.tasks r _ hhead) hhead
        senders := by
          rw [State.free]
          dsimp only
          rw [hfree]
          exact senders.other hne }
  · rename_i hqueue
    exact
      { sendQueue := hb.sendQueue
        receiveQueue := hb.receiveQueue
        tasks := hb.tasks
        closed := hb.closed
        bounded := hbounded
        receivers := by
          dsimp only
          rw [hqueue] at receivers ⊢
          exact receivers.empty
        senders := by
          rw [State.free]
          dsimp only
          rw [hfree]
          exact senders }

theorem Placed.of_pop (hb : Arranged isTask s) {val : α} {rest : List α}
    (hqueue : s.queue = val :: rest) (hbounded : s.capacity ≠ 0 → s.queue.length ≤ s.capacity)
    (receivers : Served isTask .receiving s.place s.receiveWaiters rest.length)
    (senders : Served isTask .sending s.place s.sendWaiters s.free) :
    Placed isTask (s.pop rest) := by
  have hlength : s.queue.length = rest.length + 1 := by rw [hqueue, List.length_cons]
  have hbounded' : s.capacity ≠ 0 → rest.length ≤ s.capacity := by
    intro hne
    have := hbounded hne
    omega
  have hfree : s.capacity - rest.length ≤ s.free + 1 := by
    rw [State.free]
    omega
  unfold State.pop State.handSender
  dsimp only
  split
  · rename_i w waiters hwaiters
    have hhead := (hwaiters ▸ hb.sendQueue).head
    have hne : ∀ spot, s.place w ≠ .inside .receiving spot := by
      rw [hhead]
      simp
    exact
      { sendQueue := (hwaiters ▸ hb.sendQueue).pop
        receiveQueue := hb.receiveQueue.move (hne _) (by simp)
        tasks := tasks_update hb.tasks fun op heq => by
          injection heq with _ hspot
          cases hspot
        closed := fun hclosed => by
          rw [(hb.closed hclosed).1] at hwaiters
          cases hwaiters
        bounded := hbounded'
        receivers := receivers.other hne
        senders := ((hwaiters ▸ senders).give (hb.tasks w _ hhead) hhead).mono hfree }
  · rename_i hwaiters
    exact
      { sendQueue := hb.sendQueue
        receiveQueue := hb.receiveQueue
        tasks := hb.tasks
        closed := hb.closed
        bounded := hbounded'
        receivers := receivers
        senders := by
          dsimp only
          rw [hwaiters] at senders ⊢
          exact senders.empty }

/-! ## The calls -/

/-- A caller that leaves a closed channel with nothing. -/
theorem Placed.leave (h : Placed isTask s) (hclosed : s.closed = true) {op : Op} {t : τ}
    (hdoor : AtDoor s op t) : Placed isTask (s.leave t) := by
  have hb := h.toArranged.move hdoor.not_parked (x := .outside) (by simp)
  have hsend := h.senders.take (t := t) (x := .outside) (by simp) (by simp) le_rfl
  have hreceive := h.receivers.take (t := t) (x := .outside) (by simp) (by simp) le_rfl
  refine { hb with bounded := h.bounded, receivers := ?_, senders := ?_ }
  · change Served isTask Op.receiving _ s.receiveWaiters _
    rw [(h.closed hclosed).2] at hreceive ⊢
    exact hreceive.empty
  · change Served isTask Op.sending _ s.sendWaiters _
    rw [(h.closed hclosed).1] at hsend ⊢
    exact hsend.empty

theorem Placed.waitSending (h : Placed isTask s) {t : τ} (hdoor : AtDoor s .sending t)
    (hopen : s.closed = false) (hfull : s.hasRoom = false) :
    Placed isTask (s.wait isTask .sending t) := by
  have hnone : s.free = 0 := by
    simp only [State.hasRoom, Bool.or_eq_false_iff, decide_eq_false_iff_not] at hfull
    rw [State.free]
    omega
  unfold State.wait
  split
  · rename_i htask
    exact
      { sendQueue := h.sendQueue.park (hdoor.not_parked _)
        receiveQueue := h.receiveQueue.move (hdoor.not_parked _) (by simp)
        tasks := tasks_update h.tasks fun _ _ => htask
        closed := fun hclosed => by
          rw [hopen] at hclosed
          cases hclosed
        bounded := h.bounded
        receivers := h.receivers.other (hdoor.ne (by decide))
        senders := by
          change Served isTask Op.sending _ _ s.free
          rw [hnone]
          exact h.senders.park }
  · have hb := h.toArranged.move hdoor.not_parked (x := .inside .sending .blocked) (by simp)
    exact
      { hb with
        bounded := h.bounded
        receivers := h.receivers.other (hdoor.ne (by decide))
        senders := h.senders.take (by simp) (by simp) (by
          change s.free ≤ s.free - 1
          omega) }

theorem Placed.waitReceiving (h : Placed isTask s) {t : τ} (hdoor : AtDoor s .receiving t)
    (hopen : s.closed = false) (hempty : s.queue = []) :
    Placed isTask (s.wait isTask .receiving t) := by
  unfold State.wait
  split
  · rename_i htask
    exact
      { sendQueue := h.sendQueue.move (hdoor.not_parked _) (by simp)
        receiveQueue := h.receiveQueue.park (hdoor.not_parked _)
        tasks := tasks_update h.tasks fun _ _ => htask
        closed := fun hclosed => by
          rw [hopen] at hclosed
          cases hclosed
        bounded := h.bounded
        receivers := by
          dsimp only
          rw [hempty]
          exact h.receivers.park
        senders := h.senders.other (hdoor.ne (by decide)) }
  · have hb := h.toArranged.move hdoor.not_parked (x := .inside .receiving .blocked) (by simp)
    exact
      { hb with
        bounded := h.bounded
        receivers := h.receivers.take (by simp) (by simp) (by
          dsimp only
          rw [hempty]
          exact Nat.zero_le _)
        senders := h.senders.other (hdoor.ne (by decide)) }

theorem Placed.testSend (h : Placed isTask s) {t : τ} (hdoor : AtDoor s .sending t) (val : α) :
    Placed isTask (s.testSend isTask t val).2 := by
  unfold State.testSend
  split
  · rename_i hclosed
    exact h.leave hclosed hdoor
  · rename_i hopen
    split
    · rename_i hroom
      exact .of_push (h.toArranged.move hdoor.not_parked (by simp)) hroom
        (h.receivers.other (hdoor.ne (by decide)))
        (h.senders.take (by simp) (by simp) le_rfl) val
    · rename_i hfull
      have hoffer : Placed isTask { s with offer := update s.offer t (some val) } :=
        { h with }
      exact hoffer.waitSending hdoor (by simpa using hopen) (Bool.eq_false_iff.mpr hfull)

theorem Placed.testReceive (h : Placed isTask s) {t : τ} (hdoor : AtDoor s .receiving t) :
    Placed isTask (s.testReceive isTask t).2 := by
  unfold State.testReceive
  split
  · rename_i val rest hqueue
    have hlength : rest.length ≤ s.queue.length - 1 := by rw [hqueue]; exact le_rfl
    exact .of_pop (h.toArranged.move hdoor.not_parked (by simp)) hqueue h.bounded
      (h.receivers.take (by simp) (by simp) hlength)
      (h.senders.other (hdoor.ne (by decide)))
  · rename_i hempty
    split
    · rename_i hclosed
      exact h.leave hclosed hdoor
    · rename_i hopen
      exact h.waitReceiving hdoor (by simpa using hopen) hempty

theorem Placed.trySend (h : Placed isTask s) (hroom : s.hasRoom = true) (val : α) :
    Placed isTask (s.push val) :=
  .of_push h.toArranged hroom h.receivers (h.senders.mono (Nat.sub_le _ _)) val

theorem Placed.tryReceive (h : Placed isTask s) {val : α} {rest : List α}
    (hqueue : s.queue = val :: rest) : Placed isTask (s.pop rest) := by
  have hlength : rest.length ≤ s.queue.length := by
    rw [hqueue]
    exact Nat.le_succ _
  exact .of_pop h.toArranged hqueue h.bounded (h.receivers.mono hlength) h.senders

theorem Placed.close (h : Placed isTask s) : Placed isTask s.close := by
  have hsend := h.sendQueue.drain
  have hreceive := h.receiveQueue.drain_other h.sendQueue (by decide)
  have hplace : ∀ t, t ∉ s.receiveWaiters ++ s.sendWaiters →
      handAll .receiving s.receiveWaiters (handAll .sending s.sendWaiters s.place) t
        = s.place t := by
    intro t ht
    rw [List.mem_append, not_or] at ht
    rw [handAll_of_not_mem ht.1, handAll_of_not_mem ht.2]
  exact
    { sendQueue := hsend.drain_other hreceive (by decide)
      receiveQueue := hreceive.drain
      tasks := fun t op heq => by
        cases op with
        | sending =>
            have hmem := ((hsend.drain_other hreceive (by decide)).parked t).mpr heq
            cases hmem
        | receiving =>
            have hmem := (hreceive.drain.parked t).mpr heq
            cases hmem
      closed := fun _ => ⟨rfl, rfl⟩
      bounded := h.bounded
      receivers := h.receivers.drain _ hplace
      senders := h.senders.drain _ hplace }

/-! ## Wake-ups that arrive -/

theorem Placed.makeReady (h : Placed isTask s) {op : Op} {spot : Spot} {t : τ}
    (ht : s.place t = .inside op spot) (hspot : spot ≠ .parked) :
    Placed isTask { s with place := update s.place t (.inside op .ready) } := by
  have hb := h.toArranged.move (t := t) (x := .inside op .ready) (by simp [ht, hspot]) (by simp)
  have hgain : ∀ op',
      onTheWay isTask op' t (s.place t) ≤ onTheWay isTask op' t (.inside op .ready) := by
    intro op'
    by_cases hop : op = op'
    · subst hop
      unfold onTheWay
      split
      · rename_i hway
        rw [if_pos ⟨hway.1, .inl rfl⟩]
      · exact Nat.zero_le _
    · rw [onTheWay_eq_zero (by simp [ht, hop]) (by simp [ht, hop])]
      exact Nat.zero_le _
  exact
    { hb with
      bounded := h.bounded
      receivers := h.receivers.move (hgain _)
      senders := h.senders.move (hgain _) }

/-! ## Every run -/

theorem Placed.create (capacity : ℤ) : Placed isTask (State.create capacity : State τ α) where
  sendQueue := .nil fun _ => rfl
  receiveQueue := .nil fun _ => rfl
  tasks _ _ h := by cases h
  closed h := by cases h
  bounded _ := Nat.zero_le _
  receivers := .start fun _ => rfl
  senders := .start fun _ => rfl

theorem Placed.step {e : Event τ α × Answer α} (h : Placed isTask s)
    (hstep : Step isTask valid s e s') : Placed isTask s' := by
  rcases e with ⟨e, r⟩
  unfold Step State.apply at hstep
  cases e with
  | send t val =>
      dsimp only at hstep
      split at hstep
      · rename_i hplace
        split at hstep
        · have htest := h.testSend (.inl hplace) val
          rw [Option.some.inj hstep] at htest
          exact htest
        · cases hstep
          exact h
      · cases hstep
  | trySend t val =>
      dsimp only at hstep
      split at hstep
      · split at hstep
        · cases hstep
          exact h
        · rename_i hfree
          cases hstep
          refine h.trySend ?_ val
          rw [not_or, not_or] at hfree
          exact Bool.not_eq_false _ ▸ hfree.2.2
      · cases hstep
  | receive t =>
      dsimp only at hstep
      split at hstep
      · rename_i hplace
        have htest := h.testReceive (.inl hplace)
        rw [Option.some.inj hstep] at htest
        exact htest
      · cases hstep
  | tryReceive t =>
      dsimp only at hstep
      split at hstep
      · split at hstep <;> cases hstep
        · rename_i val rest hqueue
          exact h.tryReceive hqueue
        · exact h
      · cases hstep
  | close t =>
      dsimp only at hstep
      split at hstep <;> cases hstep
      exact h.close
  | test t =>
      dsimp only at hstep
      split at hstep
      · rename_i val hplace hoffer
        have htest := h.testSend (.inr hplace) val
        rw [Option.some.inj hstep] at htest
        exact htest
      · rename_i hplace
        have htest := h.testReceive (.inr hplace)
        rw [Option.some.inj hstep] at htest
        exact htest
      · cases hstep
  | resume t =>
      dsimp only at hstep
      split at hstep <;> cases hstep
      rename_i op hplace
      exact h.makeReady hplace (by decide)
  | wake t =>
      dsimp only at hstep
      split at hstep <;> cases hstep
      rename_i op hplace
      exact h.makeReady hplace (by decide)

/-! ## What went in and came out -/

@[simp] theorem push_queue (s : State τ α) (val : α) : (s.push val).queue = s.queue ++ [val] := by
  unfold State.push State.handReceiver
  dsimp only
  split <;> rfl

theorem push_kept (s : State τ α) (val : α) : Kept s (s.push val) := by
  unfold State.push State.handReceiver
  dsimp only
  split <;> exact ⟨rfl, rfl⟩

@[simp] theorem pop_queue (s : State τ α) (rest : List α) : (s.pop rest).queue = rest := by
  unfold State.pop State.handSender
  dsimp only
  split <;> rfl

theorem pop_kept (s : State τ α) (rest : List α) : Kept s (s.pop rest) := by
  unfold State.pop State.handSender
  dsimp only
  split <;> exact ⟨rfl, rfl⟩

@[simp] theorem wait_queue (s : State τ α) (op : Op) (t : τ) :
    (s.wait isTask op t).queue = s.queue := by
  unfold State.wait
  cases op <;> split <;> rfl

theorem wait_kept (s : State τ α) (op : Op) (t : τ) : Kept s (s.wait isTask op t) := by
  unfold State.wait
  cases op <;> split <;> exact ⟨rfl, rfl⟩

theorem testSend_accounts (isTask : τ → Bool) (s : State τ α) (t : τ) (val : α) :
    Accounts s (s.testSend isTask t val).1 (s.testSend isTask t val).2
      ∧ Kept s (s.testSend isTask t val).2 := by
  unfold State.testSend
  split
  · exact ⟨.quiet rfl (.inl rfl), rfl, rfl⟩
  · rename_i hopen
    split
    · exact ⟨.pushed (Bool.eq_false_iff.mpr hopen) (push_queue _ val), push_kept _ val⟩
    · exact ⟨.quiet (wait_queue _ _ t) (.inr (.inr rfl)), wait_kept _ _ t⟩

theorem testReceive_accounts (isTask : τ → Bool) (s : State τ α) (t : τ) :
    Accounts s (s.testReceive isTask t).1 (s.testReceive isTask t).2
      ∧ Kept s (s.testReceive isTask t).2 := by
  unfold State.testReceive
  split
  · rename_i val rest hqueue
    exact ⟨.popped (by rw [pop_queue]; exact hqueue), pop_kept _ rest⟩
  · rename_i hempty
    split
    · rename_i hclosed
      refine ⟨⟨?_, ?_, ?_⟩, rfl, rfl⟩
      · exact List.append_nil _
      · intro val heq
        cases heq
      · exact fun _ => ⟨hclosed, hempty⟩
    · exact ⟨.quiet (wait_queue _ _ t) (.inr (.inr rfl)), wait_kept _ _ t⟩

theorem step_accounts {e : Event τ α × Answer α} (hstep : Step isTask valid s e s') :
    Accounts s e.2 s' ∧ s'.capacity = s.capacity
      ∧ (s'.closed = true ↔ s.closed = true ∨ Closes e) := by
  rcases e with ⟨e, r⟩
  have hsame : ∀ {e : Event τ α}, (∀ t, e ≠ .close t) → Kept s s' →
      s'.capacity = s.capacity ∧ (s'.closed = true ↔ s.closed = true ∨ Closes (e, r)) := by
    intro e hne hkept
    refine ⟨hkept.2, ?_⟩
    rw [hkept.1, or_iff_left]
    rintro ⟨t, ht⟩
    exact hne t ht
  unfold Step State.apply at hstep
  cases e with
  | send t val =>
      dsimp only at hstep
      split at hstep
      · split at hstep
        · have htest := testSend_accounts isTask s t val
          rw [Option.some.inj hstep] at htest
          exact ⟨htest.1, hsame (by simp) htest.2⟩
        · cases hstep
          exact ⟨.quiet rfl (.inl rfl), hsame (by simp) ⟨rfl, rfl⟩⟩
      · cases hstep
  | trySend t val =>
      dsimp only at hstep
      split at hstep
      · split at hstep <;> cases hstep
        · exact ⟨.quiet rfl (.inl rfl), hsame (by simp) ⟨rfl, rfl⟩⟩
        · rename_i hfree
          rw [not_or, not_or] at hfree
          exact ⟨.pushed (Bool.eq_false_iff.mpr hfree.2.1) (push_queue s val),
            hsame (by simp) (push_kept s val)⟩
      · cases hstep
  | receive t =>
      dsimp only at hstep
      split at hstep
      · have htest := testReceive_accounts isTask s t
        rw [Option.some.inj hstep] at htest
        exact ⟨htest.1, hsame (by simp) htest.2⟩
      · cases hstep
  | tryReceive t =>
      dsimp only at hstep
      split at hstep
      · split at hstep <;> cases hstep
        · rename_i val rest hqueue
          exact ⟨.popped (by rw [pop_queue]; exact hqueue), hsame (by simp) (pop_kept s rest)⟩
        · exact ⟨.quiet rfl (.inr (.inl rfl)), hsame (by simp) ⟨rfl, rfl⟩⟩
      · cases hstep
  | close t =>
      dsimp only at hstep
      split at hstep <;> cases hstep
      exact ⟨.quiet rfl (.inr (.inr rfl)), rfl, iff_of_true rfl (.inr ⟨t, rfl⟩)⟩
  | test t =>
      dsimp only at hstep
      split at hstep
      · rename_i val _ _
        have htest := testSend_accounts isTask s t val
        rw [Option.some.inj hstep] at htest
        exact ⟨htest.1, hsame (by simp) htest.2⟩
      · have htest := testReceive_accounts isTask s t
        rw [Option.some.inj hstep] at htest
        exact ⟨htest.1, hsame (by simp) htest.2⟩
      · cases hstep
  | resume t =>
      dsimp only at hstep
      split at hstep <;> cases hstep
      exact ⟨.quiet rfl (.inr (.inr rfl)), hsame (by simp) ⟨rfl, rfl⟩⟩
  | wake t =>
      dsimp only at hstep
      split at hstep <;> cases hstep
      exact ⟨.quiet rfl (.inr (.inr rfl)), hsame (by simp) ⟨rfl, rfl⟩⟩

/-- The history of a channel. -/
structure Remembered (capacity : ℤ) (past : List (Event τ α × Answer α)) (s : State τ α) :
    Prop where
  capacity : s.capacity = capacity.toNat
  fifo : acceptedValues past = receivedValues past ++ s.queue
  closed : s.closed = true ↔ ∃ e ∈ past, Closes e

variable {capacity : ℤ}

theorem Remembered.run (h : Run (Step isTask valid) (State.create capacity) past s) :
    Remembered capacity past s := by
  refine Run.invariant (P := Remembered capacity) ?_ ?_ h
  · exact ⟨rfl, rfl, fun h => (by cases h), fun ⟨_, h, _⟩ => (by cases h)⟩
  · rintro past s ⟨e, r⟩ s' - hs hstep
    have hacc := step_accounts hstep
    refine ⟨hacc.2.1.trans hs.capacity, ?_, ?_⟩
    · rw [acceptedValues_cons, receivedValues_cons, hs.fifo, List.append_assoc, hacc.1.fifo,
        List.append_assoc]
    · rw [hacc.2.2, hs.closed, List.exists_mem_cons_iff, or_comm]

theorem Placed.run (h : Run (Step isTask valid) (State.create capacity) past s) :
    Placed isTask s :=
  h.stateInvariant (.create capacity) fun _ _ _ hI hstep => hI.step hstep

theorem Placed.notStranded (h : Placed isTask s) : NotStranded isTask s where
  receivers hne := by
    rcases h.receivers with ⟨n, htotal, hn⟩
    refine ⟨?_, n, htotal, hn hne⟩
    rw [Bool.eq_false_iff]
    exact fun hclosed => hne (h.closed hclosed).2
  senders hne := by
    rcases h.senders with ⟨n, htotal, hn⟩
    refine ⟨?_, n, htotal, hn hne⟩
    rw [Bool.eq_false_iff]
    exact fun hclosed => hne (h.closed hclosed).1

/-- In every run a channel gives the accepted values in their order, keeps to its
capacity, accepts nothing after a close, fails a receive only when it is closed
and empty, and leaves no parked task behind. -/
theorem channel_protocol (h : Run (Step isTask valid) (State.create capacity) past s) :
    acceptedValues past = receivedValues past ++ s.queue
      ∧ (0 < capacity → s.queue.length ≤ capacity)
      ∧ (∀ e r s', Step isTask valid s (e, r) s' →
          (∀ val, r = .accepted val → s.closed = false ∧ ∀ c ∈ past, ¬Closes c)
          ∧ (r = .failed → s.closed = true ∧ s.queue = []))
      ∧ NotStranded isTask s := by
  have hpast := Remembered.run h
  have hplaced := Placed.run h
  refine ⟨hpast.fifo, fun hpos => ?_, fun e r s' hstep => ⟨fun val hr => ?_, ?_⟩,
    hplaced.notStranded⟩
  · have hle := hplaced.bounded (by rw [hpast.capacity]; omega)
    rw [hpast.capacity] at hle
    omega
  · have hopen := (step_accounts hstep).1.accepts val hr
    refine ⟨hopen, fun c hc hcloses => ?_⟩
    rw [hpast.closed.mpr ⟨c, hc, hcloses⟩] at hopen
    cases hopen
  · exact (step_accounts hstep).1.fails

/-- A task parks at a full channel until a value is taken. -/
theorem channel_handover : ∃ s : State Bool ℕ,
    Run (Step (fun _ => true) fun _ => true) (State.create 1)
      [(.receive false, .received 5), (.send true 6, .nothing), (.send false 5, .accepted 5)] s
      ∧ (acceptedValues [(Event.receive false, Answer.received 5), (.send true 6, .nothing),
            (.send false 5, .accepted 5)]
          = receivedValues [(Event.receive false, Answer.received 5), (.send true 6, .nothing),
              (.send false 5, .accepted 5)] ++ s.queue)
      ∧ NotStranded (fun _ => true) s := by
  have hrun : Run (Step (fun _ => true) fun _ => true) (State.create 1 : State Bool ℕ)
      [(.receive false, .received 5), (.send true 6, .nothing), (.send false 5, .accepted 5)] _ :=
    .cons (.cons (.cons .nil rfl) rfl) rfl
  have hall := channel_protocol hrun
  exact ⟨_, hrun, hall.1, hall.2.2.2⟩

end Channel

end Absolute
