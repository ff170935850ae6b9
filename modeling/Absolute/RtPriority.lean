import Absolute.LibSmoothRobin
import Absolute.RtLanes

/-!
# No priority starves

`Scheduler::ChoosePriorityLocked` of `Absolute-Runtime/src/tasks.cpp` on one array of
credits, called again and again with the priorities active as they may be.

The loop computes on `int64`. Started from small credits it computes what it would on
integers (`Choice.Considered`), and that is a round of smooth weighted round robin
(`turn_choosePriorityLocked`), whose credits stay small (`LibSmoothRobin`).
-/

namespace Absolute

namespace Scheduler

open Function Finset SmoothRobin

def weight (b : Bucket) : ℤ := (priorityWeights b).toInt

def value (credits : Bucket → Int64) (b : Bucket) : ℤ := (credits b).toInt

def actives (isActive : Bucket → Bool) : Finset Bucket := {b | isActive b = true}

theorem mem_actives {isActive : Bucket → Bool} {b : Bucket} :
    b ∈ actives isActive ↔ isActive b = true := by
  simp [actives]

theorem weight_pos (b : Bucket) : 0 < weight b := by
  revert b
  decide

theorem sum_weight : ∑ b, weight b = 36 := rfl

theorem limit_weight : limit weight = 252 := rfl

theorem sum_weight_le (s : Finset Bucket) : 0 ≤ ∑ b ∈ s, weight b ∧ ∑ b ∈ s, weight b ≤ 36 :=
  ⟨sum_nonneg fun b _ => (weight_pos b).le,
    sum_weight ▸ sum_le_sum_of_subset_of_nonneg (subset_univ s) fun b _ _ => (weight_pos b).le⟩

theorem weight_le (b : Bucket) : weight b ≤ 36 := by
  simpa using (sum_weight_le {b}).2

/-- Credits far from where `int64` ends. -/
def Small (credits : Bucket → Int64) : Prop := ∀ b, |value credits b| ≤ limit weight

theorem Small.bounds {credits : Bucket → Int64} (h : Small credits) (b : Bucket) :
    -252 ≤ value credits b ∧ value credits b ≤ 252 :=
  abs_le.mp (limit_weight ▸ h b)

/-- A sum of `int64` that fits is the sum. -/
theorem toInt_add_of_small {x y : Int64} (h : |x.toInt + y.toInt| < 2 ^ 63) :
    (x + y).toInt = x.toInt + y.toInt := by
  rcases abs_lt.mp h with ⟨hlo, hhi⟩
  rw [Int64.toInt_add]
  exact Int.bmod_eq_of_le (by omega) (by omega)

theorem toInt_sub_of_small {x y : Int64} (h : |x.toInt - y.toInt| < 2 ^ 63) :
    (x - y).toInt = x.toInt - y.toInt := by
  rcases abs_lt.mp h with ⟨hlo, hhi⟩
  rw [Int64.toInt_sub]
  exact Int.bmod_eq_of_le (by omega) (by omega)

/-! ## The loop -/

/-- The variables of the loop when the buckets of `done` are behind it. -/
structure Choice.Considered (isActive : Bucket → Bool) (credits : Bucket → Int64)
    (done : Finset Bucket) (c : Choice) : Prop where
  later : ∀ b ∉ done, c.credits b = credits b
  earned : ∀ b ∈ done, isActive b → (c.credits b).toInt = value credits b + weight b
  idle : ∀ b ∈ done, ¬isActive b → c.credits b = 0
  weighed : c.activeWeight.toInt = ∑ b ∈ done with isActive b, weight b
  best : ∀ b ∈ done, isActive b → value credits b + weight b ≤ c.bestCredit.toInt
  selected : ∀ b, c.selected = some b →
    b ∈ done ∧ isActive b ∧ c.bestCredit.toInt = value credits b + weight b

section Loop

variable {isActive : Bucket → Bool} {credits : Bucket → Int64} {done : Finset Bucket} {c : Choice}

theorem Choice.Considered.start :
    Choice.Considered isActive credits ∅ { credits := credits } where
  later _ _ := rfl
  earned b hb := by cases hb
  idle b hb := by cases hb
  weighed := rfl
  best b hb := by cases hb
  selected b hb := by cases hb

/-- What a bucket that is not active does to the variables. -/
theorem Choice.Considered.skip (h : Choice.Considered isActive credits done c) {index : Bucket}
    (hinactive : ¬isActive index) :
    Choice.Considered isActive credits (insert index done)
      { c with credits := update c.credits index 0 } where
  later b hb := by
    rw [mem_insert, not_or] at hb
    dsimp only
    rw [update_of_ne hb.1, h.later b hb.2]
  earned b hb hactive := by
    have hne : b ≠ index := fun heq => hinactive (heq ▸ hactive)
    dsimp only
    rw [update_of_ne hne, h.earned b (mem_of_mem_insert_of_ne hb hne) hactive]
  idle b hb hactive := by
    dsimp only
    by_cases hne : b = index
    · rw [hne, update_self]
    · rw [update_of_ne hne, h.idle b (mem_of_mem_insert_of_ne hb hne) hactive]
  weighed := by
    rw [filter_insert, if_neg hinactive, h.weighed]
  best b hb hactive :=
    h.best b (mem_of_mem_insert_of_ne hb fun heq => hinactive (heq ▸ hactive)) hactive
  selected b hb := (h.selected b hb).imp_left (mem_insert_of_mem ·)

theorem Choice.Considered.toInt_credit (hsmall : Small credits)
    (h : Choice.Considered isActive credits done c) {index : Bucket} (hnew : index ∉ done) :
    (c.credits index + priorityWeights index).toInt = value credits index + weight index := by
  have hvalue := hsmall.bounds index
  have hpos := weight_pos index
  have hle := weight_le index
  rw [h.later index hnew]
  refine toInt_add_of_small (abs_lt.mpr ?_)
  unfold value weight at *
  omega

theorem Choice.Considered.toInt_activeWeight (h : Choice.Considered isActive credits done c)
    {index : Bucket} (hnew : index ∉ done) (hactive : isActive index) :
    (c.activeWeight + priorityWeights index).toInt
      = ∑ b ∈ insert index done with isActive b, weight b := by
  have hrest := sum_weight_le (done.filter (isActive ·))
  have hpos := weight_pos index
  have hle := weight_le index
  have hout : index ∉ done.filter (isActive ·) := fun hin => hnew (mem_filter.mp hin).1
  rw [filter_insert, if_pos hactive, sum_insert hout, toInt_add_of_small, h.weighed, add_comm]
  · rfl
  · rw [h.weighed]
    refine abs_lt.mpr ?_
    unfold weight at *
    omega

/-- What an active bucket does to the variables, when `best` and `selected` are right. -/
theorem Choice.Considered.earn (hsmall : Small credits)
    (h : Choice.Considered isActive credits done c) {index : Bucket} (hnew : index ∉ done)
    (hactive : isActive index) {bestCredit : Int64} {selected : Option Bucket}
    (hkept : c.bestCredit.toInt ≤ bestCredit.toInt)
    (hbest : value credits index + weight index ≤ bestCredit.toInt)
    (hselected : ∀ b, selected = some b → b ∈ insert index done ∧ isActive b
      ∧ bestCredit.toInt = value credits b + weight b) :
    Choice.Considered isActive credits (insert index done)
      { credits := update c.credits index (c.credits index + priorityWeights index)
        activeWeight := c.activeWeight + priorityWeights index
        bestCredit := bestCredit
        selected := selected } where
  later b hb := by
    rw [mem_insert, not_or] at hb
    dsimp only
    rw [update_of_ne hb.1, h.later b hb.2]
  earned b hb hb' := by
    dsimp only
    by_cases hne : b = index
    · rw [hne, update_self, h.toInt_credit hsmall hnew]
    · rw [update_of_ne hne, h.earned b (mem_of_mem_insert_of_ne hb hne) hb']
  idle b hb hb' := by
    have hne : b ≠ index := fun heq => hb' (heq ▸ hactive)
    dsimp only
    rw [update_of_ne hne, h.idle b (mem_of_mem_insert_of_ne hb hne) hb']
  weighed := h.toInt_activeWeight hnew hactive
  best b hb hb' := by
    rcases mem_insert.mp hb with rfl | hold
    · exact hbest
    · exact (h.best b hold hb').trans hkept
  selected := hselected

theorem Choice.Considered.consider (hsmall : Small credits)
    (h : Choice.Considered isActive credits done c) {index : Bucket} (hnew : index ∉ done) :
    Choice.Considered isActive credits (insert index done) (c.consider isActive index) := by
  have hcredit := h.toInt_credit hsmall hnew
  unfold Choice.consider
  split
  · rename_i hactive
    dsimp only
    split
    · rename_i hbest
      refine h.earn hsmall hnew hactive ?_ hcredit.ge fun b hb => ?_
      · rcases hbest with hlt | ⟨heq, -⟩
        · exact (Int64.lt_iff_toInt_lt.mp hlt).le
        · exact heq ▸ le_rfl
      · obtain rfl := Option.some.inj hb
        exact ⟨mem_insert_self _ _, hactive, hcredit⟩
    · rename_i hbest
      refine h.earn hsmall hnew hactive le_rfl ?_ fun b hb => ?_
      · rw [← hcredit]
        exact Int.not_lt.mp fun hlt => hbest (.inl (Int64.lt_iff_toInt_lt.mpr hlt))
      · exact (h.selected b hb).imp_left (mem_insert_of_mem ·)
  · rename_i hinactive
    exact h.skip hinactive

theorem Choice.Considered.foldl (hsmall : Small credits) (l : List Bucket) (hnodup : l.Nodup)
    (hnew : ∀ b ∈ l, b ∉ done) (h : Choice.Considered isActive credits done c) :
    Choice.Considered isActive credits (done ∪ l.toFinset)
      (l.foldl (Choice.consider isActive) c) := by
  induction l generalizing done c with
  | nil =>
      rw [List.toFinset_nil, union_empty]
      exact h
  | cons index rest ih =>
      rcases List.nodup_cons.mp hnodup with ⟨hindex, hrest⟩
      have hstep := h.consider hsmall (hnew index List.mem_cons_self)
      rw [List.toFinset_cons, union_insert, ← insert_union]
      refine ih hrest (fun b hb hin => ?_) hstep
      rcases mem_insert.mp hin with rfl | hin
      · exact hindex hb
      · exact hnew b (List.mem_cons_of_mem _ hb) hin

end Loop

/-! ## One call -/

/-- The variables when the loop has ended. -/
def considerAll (credits : Bucket → Int64) (isActive : Bucket → Bool) : Choice :=
  (List.finRange 7).foldl (Choice.consider isActive) { credits := credits }

theorem considered_considerAll {credits : Bucket → Int64} (hsmall : Small credits)
    (isActive : Bucket → Bool) :
    Choice.Considered isActive credits univ (considerAll credits isActive) := by
  have h : Choice.Considered isActive credits (∅ ∪ (List.finRange 7).toFinset)
      (considerAll credits isActive) :=
    Choice.Considered.start.foldl hsmall _ (List.nodup_finRange 7) fun b _ hb => by cases hb
  have hall : ∅ ∪ (List.finRange 7).toFinset = univ := by
    ext b
    simp
  rwa [hall] at h

theorem choosePriorityLocked_eq_none {credits : Bucket → Int64} {isActive : Bucket → Bool}
    (h : (considerAll credits isActive).selected = none) :
    choosePriorityLocked credits isActive = ((considerAll credits isActive).credits, none) := by
  unfold considerAll at h
  simp only [choosePriorityLocked, considerAll, h]

theorem choosePriorityLocked_eq_some {credits : Bucket → Int64} {isActive : Bucket → Bool}
    {b : Bucket} (h : (considerAll credits isActive).selected = some b) :
    choosePriorityLocked credits isActive
      = (update (considerAll credits isActive).credits b
          ((considerAll credits isActive).credits b - (considerAll credits isActive).activeWeight),
        some b) := by
  unfold considerAll at h
  simp only [choosePriorityLocked, considerAll, h]

/-- A call on small credits is a round on the integers. -/
theorem turn_choosePriorityLocked {credits : Bucket → Int64} (hsmall : Small credits)
    (isActive : Bucket → Bool) :
    Turn weight (actives isActive) (choosePriorityLocked credits isActive).2 (value credits)
      (value (choosePriorityLocked credits isActive).1) := by
  have h := considered_considerAll hsmall isActive
  cases hsel : (considerAll credits isActive).selected with
  | none =>
      have heq := choosePriorityLocked_eq_none hsel
      have hnone := choosePriorityLocked_none (congrArg Prod.snd heq)
      rw [heq]
      dsimp only
      refine .none (filter_eq_empty_iff.mpr fun b _ => hnone b) fun b => ?_
      unfold value
      rw [h.idle b (mem_univ b) (hnone b)]
      rfl
  | some b =>
      rcases h.selected b hsel with ⟨-, hactive, hbest⟩
      have hcredit := h.earned b (mem_univ b) hactive
      have hvalue := hsmall.bounds b
      have hpos := weight_pos b
      have hle := weight_le b
      have hsum := sum_weight_le (actives isActive)
      have hweighed : (considerAll credits isActive).activeWeight.toInt
          = ∑ i ∈ actives isActive, weight i := h.weighed
      rw [choosePriorityLocked_eq_some hsel]
      dsimp only
      refine .some ⟨mem_actives.mpr hactive, fun i hi => ?_, fun i hi hne => ?_, ?_, fun i hi => ?_⟩
      · exact hbest ▸ h.best i (mem_univ i) (mem_actives.mp hi)
      · unfold value
        rw [update_of_ne hne, h.earned i (mem_univ i) (mem_actives.mp hi), value]
      · unfold value
        rw [update_self, toInt_sub_of_small, hcredit, hweighed, value]
        rw [hcredit, hweighed]
        exact abs_lt.mpr (by omega)
      · have hidle : ¬isActive i := fun hin => hi (mem_actives.mpr hin)
        have hne : i ≠ b := fun heq => hidle (heq ▸ hactive)
        unfold value
        rw [update_of_ne hne, h.idle i (mem_univ i) hidle]
        rfl

/-! ## Call after call -/

/-- The credits before call `n`, when `activity` says who is active at each. -/
def creditsAt (activity : ℕ → Bucket → Bool) : ℕ → Bucket → Int64
  | 0 => fun _ => 0
  | n + 1 => (choosePriorityLocked (creditsAt activity n) (activity n)).1

def choiceAt (activity : ℕ → Bucket → Bool) (n : ℕ) : Option Bucket :=
  (choosePriorityLocked (creditsAt activity n) (activity n)).2

theorem bounded_creditsAt (activity : ℕ → Bucket → Bool) (n : ℕ) :
    Bounded weight (value (creditsAt activity n)) := by
  have hpos : ∀ b, 0 ≤ weight b := fun b => (weight_pos b).le
  induction n with
  | zero => exact .zero hpos
  | succ n ih => exact ih.turn (turn_choosePriorityLocked ih.abs_credit_le (activity n)) hpos

theorem small_creditsAt (activity : ℕ → Bucket → Bool) (n : ℕ) : Small (creditsAt activity n) :=
  (bounded_creditsAt activity n).abs_credit_le

theorem turns_creditsAt (activity : ℕ → Bucket → Bool) (n : ℕ) :
    Turn weight (actives (activity n)) (choiceAt activity n) (value (creditsAt activity n))
      (value (creditsAt activity (n + 1))) :=
  turn_choosePriorityLocked (small_creditsAt activity n) (activity n)

/-- A priority that is active for as many calls is chosen in one of them, the credits
stay small, and each call computes on them what it would on the integers. -/
theorem priority_never_starves :
    ∃ N : ℕ, ∀ activity : ℕ → Bucket → Bool,
      (∀ n b, (∀ j < N, activity (n + j) b) → ∃ j < N, choiceAt activity (n + j) = some b)
        ∧ ∀ n, (∀ b, |(creditsAt activity n b).toInt| ≤ 252)
          ∧ Turn weight (actives (activity n)) (choiceAt activity n) (value (creditsAt activity n))
              (value (creditsAt activity (n + 1))) := by
  refine ⟨505, fun activity => ⟨fun n b hactive => ?_, fun n => ⟨fun b => ?_, ?_⟩⟩⟩
  · refine selected_soon weight_pos (fun _ => rfl) (turns_creditsAt activity)
      (fun j hj => mem_actives.mpr (hactive j hj)) ?_
    rw [limit_weight]
    norm_num
  · exact limit_weight ▸ small_creditsAt activity n b
  · exact turns_creditsAt activity n

end Scheduler

end Absolute
