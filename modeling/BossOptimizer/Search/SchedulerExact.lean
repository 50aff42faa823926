import BossOptimizer.Lib.Acyclic
import BossOptimizer.Search.SchedulerRuns

/-!
# The bookkeeping of the scheduler is exact

The reference counts and counters in every state that a run reaches, what happens once to each
job, and that a scheduler without work has completed every job that no cycle of waits blocks.
-/

namespace BossOptimizer

namespace CScheduler

variable {s s' : CScheduler} {j k : JobId} {q : QueueId}

/-- The jobs in state `ejs`. -/
def countInState (s : CScheduler) (ejs : EJobState) : ℕ := tally s.ulJobs (s.inState ejs)

/-- `j` is suspended until `k` completes: `k` is a child of `j`, or the main job of the queue in
which `j` waits. -/
def WaitsFor (s : CScheduler) (j k : JobId) : Prop :=
  (s.jobs j).ejs = .EjsSuspended ∧ k < s.ulJobs ∧ (s.jobs k).ejs ≠ .EjsCompleted ∧
    ((s.jobs k).pjParent = some j ∨
      ∃ q, j ∈ (s.jqs q).listjQueued ∧ (s.jqs q).pj = some k ∧ k ≠ j)

/-- `j` waits, directly or not, for a job that waits for itself. -/
def BlockedByCycle (s : CScheduler) (j : JobId) : Prop :=
  ∃ k, Relation.ReflTransGen s.WaitsFor j k ∧ Relation.TransGen s.WaitsFor k k

/-- No job waits to be picked and none runs. -/
def NoWork (s : CScheduler) : Prop :=
  s.listjlWaiting = [] ∧ ∀ j < s.ulJobs, (s.jobs j).ejs ≠ .EjsRunning

structure ExactBookkeeping (s : CScheduler) : Prop where
  refs : ∀ j < s.ulJobs, (s.jobs j).ulpRefs =
    (if (s.jobs j).ejs = .EjsRunning then 1 else 0) + s.unfinishedChildren j + s.pendingWakeUps j
  counters : s.ulpQueued = s.countInState .EjsWaiting ∧
    s.ulpRunning = s.countInState .EjsRunning ∧
    s.ulpTotal = s.ulpQueued + s.ulpRunning + s.countInState .EjsSuspended
  /-- Each suspension of a job ends with one resumption, or with its queue's completion. -/
  resumedOnce : ∀ j, suspensions s.history j = resumptions s.history j + wakeUps s.history j +
    (if (s.jobs j).ejs = .EjsSuspended then 1 else 0)
  /-- A resumption comes right after the completion of the last unfinished child. -/
  resumedByLast : ∀ post pre j c, s.history = post ++ .resumed j c :: pre →
    (s.jobs c).pjParent = some j ∧
    (pre.head? = some (.completed c) ∨ pre.head? = some (.completedQueued c)) ∧
    ∀ c' q, .added c' (some j) q ∈ pre → Done pre c'
  /-- A job that waits for its queue is completed once, with the queue. -/
  wokenOnce : ∀ j q, .queued j q ∈ s.history → s.history.count (.queued j q) = 1 ∧
    wakeUps s.history j = if (s.jqs q).fCompleted then 1 else 0
  neverExecuted : ∀ j q, .queued j q ∈ s.history → .executed j ∉ s.history
  /-- A completed queue executes no job. -/
  notExecutedAfter : ∀ post pre q, s.history = post ++ .notified q :: pre →
    ∀ j < s.ulJobs, (s.jobs j).pjq = some q → .executed j ∉ post
  completedOnce : ∀ j < s.ulJobs, completions s.history j ≤ 1 ∧
    (s.ulpTotal = 0 → completions s.history j = 1)
  /-- When no work is left, only cycles of waits keep jobs from being completed. -/
  noWork : s.NoWork → ∀ j < s.ulJobs, completions s.history j = 1 ∨ s.BlockedByCycle j

/-! ## No job is left behind -/

theorem AtRest.waitsFor (h : AtRest s) (hj : j < s.ulJobs)
    (hsusp : (s.jobs j).ejs = .EjsSuspended) : ∃ k, s.WaitsFor j k := by
  have hpos := h.pending j hj hsusp (by simp)
  have hrefs := h.balanced.refs j hj
  have hstate : s.inState .EjsRunning j = false := by simp [inState, hsusp]
  by_cases hkids : s.unfinishedChildren j = 0
  · -- the reference is for the queue
    have hpend : s.pendingWakeUps j ≠ 0 := by
      simp only [CScheduler.holds, hstate, Bool.toNat_false] at hrefs
      omega
    unfold pendingWakeUps at hpend
    cases hq : (s.jobs j).pjq with
    | none => simp [hq] at hpend
    | some q =>
      simp only [hq, hsusp, reduceCtorEq, or_false, ne_eq, Bool.toNat_eq_zero,
        decide_eq_false_iff_not, not_not] at hpend
      obtain ⟨hin, hpj⟩ := hpend
      cases hm : (s.jqs q).pj with
      | none => simp [(h.unowned q hm).1] at hin
      | some m =>
        have hopen : (s.jqs q).fCompleted = false := by
          cases hc : (s.jqs q).fCompleted with
          | false => rfl
          | true => simp [h.drained q (by simp) hc] at hin
        obtain ⟨hmlt, -, hmne⟩ := h.mem q m (h.owner q m hm hopen)
        exact ⟨m, hsusp, hmlt, hmne, .inr ⟨q, hin, hm, fun heq => hpj (heq ▸ hm)⟩⟩
  · obtain ⟨c, hc, hchild⟩ := tally_pos.mp (Nat.pos_of_ne_zero hkids)
    simp only [decide_eq_true_eq] at hchild
    exact ⟨c, hsusp, hc, hchild.2, .inl hchild.1⟩

/-- **Without work, a job that has not completed is blocked by a cycle.** -/
theorem AtRest.blocked (h : AtRest s) (hwork : s.NoWork) (hj : j < s.ulJobs)
    (hne : (s.jobs j).ejs ≠ .EjsCompleted) : s.BlockedByCycle j := by
  have hsusp : ∀ k, k < s.ulJobs ∧ (s.jobs k).ejs ≠ .EjsCompleted →
      (s.jobs k).ejs = .EjsSuspended := by
    rintro k ⟨hk, hkne⟩
    have hinit := h.balanced.state k hk
    have hrun := hwork.2 k hk
    have hwait : (s.jobs k).ejs ≠ .EjsWaiting := fun hw => by
      have hin := (h.balanced.mem_waiting k).mpr ⟨hk, hw⟩
      simp [hwork.1] at hin
    cases he : (s.jobs k).ejs <;> simp_all
  refine exists_cycle (S := {k | k < s.ulJobs ∧ (s.jobs k).ejs ≠ .EjsCompleted}) ?_ ?_ ⟨hj, hne⟩
  · exact (Set.finite_lt_nat s.ulJobs).subset fun k hk => hk.1
  · intro k hk
    obtain ⟨c, hc⟩ := h.waitsFor hk.1 (hsusp k hk)
    exact ⟨c, ⟨hc.2.1, hc.2.2.1⟩, hc⟩

theorem Traced.completions_eq (h : Traced none s) (j : JobId) :
    completions s.history j = if (s.jobs j).ejs = .EjsCompleted then 1 else 0 := by
  rw [h.lawful.completions_eq, h.status]

/-- **A job that waits is woken** exactly when its queue is completed. -/
theorem Traced.wakeUps_eq (h : Traced none s) (hrest : AtRest s)
    (hin : .queued j q ∈ s.history) :
    wakeUps s.history j = if (s.jqs q).fCompleted then 1 else 0 := by
  have hcount := h.completions_eq j
  have hnever := List.count_eq_zero.mpr (h.lawful.queued_not_completed hin)
  rw [completions, hnever, Nat.zero_add] at hcount
  rw [hcount]
  cases hc : (s.jqs q).fCompleted with
  | true =>
    have hempty := hrest.drained q (by simp) hc
    have hdone := (h.stays j q hin (by simp)).resolve_left (by simp [hempty])
    simp [hdone]
  | false =>
    have hopen : (s.jobs j).ejs ≠ .EjsCompleted := by
      intro he
      rw [if_pos he] at hcount
      have hwoken : .completedQueued j ∈ s.history := List.count_pos_iff.mp (by
        unfold wakeUps at hcount
        omega)
      obtain ⟨post, pre, hhist⟩ := List.append_of_mem hwoken
      have hallow := (hhist ▸ h.lawful).allowed
      cases hallow with
      | completedQueued _ r _ hqueued hnot =>
        have hr : .queued j r ∈ s.history := by
          rw [hhist]
          exact List.mem_append_right _ (List.mem_cons_of_mem _ hqueued)
        have hn : .notified r ∈ s.history := by
          rw [hhist]
          exact List.mem_append_right _ (List.mem_cons_of_mem _ hnot)
        have hqr : some q = some r := (h.queued j q hin).1.symm.trans (h.queued j r hr).1
        obtain rfl : q = r := by simpa using hqr
        rw [h.notified, hc] at hn
        cases hn
    simp [hopen]

theorem AtRest.total_eq (h : AtRest s) :
    s.ulpQueued = s.countInState .EjsWaiting ∧ s.ulpRunning = s.countInState .EjsRunning ∧
      s.ulpTotal = s.ulpQueued + s.ulpRunning + s.countInState .EjsSuspended := by
  have hqueued : s.ulpQueued = s.countInState .EjsWaiting := by
    rw [h.balanced.queued]
    exact length_eq_tally h.balanced.nodup fun i => by simp [h.balanced.mem_waiting, inState]
  have hrunning : s.ulpRunning = s.countInState .EjsRunning := by
    have hrun := h.balanced.running
    simp only [Option.isSome_none, Bool.toNat_false, Nat.add_zero] at hrun
    exact hrun
  refine ⟨hqueued, hrunning, ?_⟩
  let busy : ℕ → Bool := fun i => s.inState .EjsWaiting i || s.inState .EjsRunning i
  have hbusy : tally s.ulJobs busy = s.countInState .EjsWaiting + s.countInState .EjsRunning := by
    refine tally_add fun i _ => ?_
    simp only [busy, inState]
    cases (s.jobs i).ejs <;> rfl
  rw [h.balanced.total, hqueued, hrunning, ← hbusy]
  refine tally_add fun i hi => ?_
  have hinit := h.balanced.state i hi
  simp only [busy, inState]
  cases he : (s.jobs i).ejs with
  | EjsInit => exact absurd he hinit
  | EjsWaiting | EjsRunning | EjsSuspended | EjsCompleted => rfl

/-- **The bookkeeping is exact in every state that a run reaches.** -/
theorem bookkeeping_exact (s : CScheduler) (h : Reachable s) : ExactBookkeeping s := by
  have hrest := h.atRest
  have htr := h.traced
  have hcompleted := htr.completions_eq
  refine ⟨fun j hj => ?_, hrest.total_eq, fun j => ?_, fun post pre j c hhist => ?_,
    fun j q hin => ⟨?_, ?_⟩, fun j q hin => htr.lawful.queued_not_executed hin,
    fun post pre q hhist j hj hq => ?_, fun j hj => ⟨?_, fun htotal => ?_⟩, fun hwork j hj => ?_⟩
  · have hstate : (s.inState .EjsRunning j).toNat =
        if (s.jobs j).ejs = .EjsRunning then 1 else 0 := by
      split
      · next hrun => simp [inState, hrun]
      · next hrun => simp [inState, hrun]
    rw [hrest.balanced.refs j hj, CScheduler.holds, hstate]
    omega
  · rw [htr.lawful.suspensions_eq, htr.status]
  · have hallow := (hhist ▸ htr.lawful).allowed
    cases hallow with
    | resumed _ _ _ hlast hchild hall _ =>
      obtain ⟨r, hr⟩ := hchild
      have hadded : .added c (some j) r ∈ s.history := by
        rw [hhist]
        exact List.mem_append_right _ (List.mem_cons_of_mem _ hr)
      exact ⟨((htr.added c _ r).mp hadded).2.1, hlast, hall⟩
  · have hpos := List.count_pos_iff.mpr hin
    have hle := @Lawful.queued_once _ j q htr.lawful
    omega
  · exact htr.wakeUps_eq hrest hin
  · have hadded := (htr.added j _ _).mpr ⟨hj, rfl, hq⟩
    exact (hhist ▸ htr.lawful).not_executed_after (hhist ▸ hadded)
  · rw [hcompleted]
    split <;> omega
  · rw [hcompleted, if_pos]
    have hzero := tally_eq_zero.mp (hrest.balanced.total.symm.trans htotal) j hj
    simpa [inState] using hzero
  · by_cases he : (s.jobs j).ejs = .EjsCompleted
    · exact .inl (by rw [hcompleted, if_pos he])
    · exact .inr (hrest.blocked hwork hj he)

/-! ## A run in which a job waits -/

/-- How often `j` was scheduled again after it was added. -/
def reschedules (h : List SchedEvent) (j : JobId) : ℕ := resumptions h j + h.count (.rerun j)

/-- Job 0 adds the jobs 1 and 2 of queue 7. Job 2 is the main job and waits for its child 3, so that
job 1 waits for the queue. -/
def waitingRun : CScheduler :=
  let s := (init.ScheduleJob none none).startJob 0
  let s := ((s.ScheduleJob (some 7) (some 0)).ScheduleJob (some 7) (some 0)).finishJob 0 false
  let s := ((s.startJob 2).ScheduleJob none (some 2)).finishJob 2 false
  (s.startJob 1).startJob 3

/-- The main job completes, and job 0 after it. -/
def wokenRun : CScheduler :=
  ((((waitingRun.finishJob 3 true).startJob 2).finishJob 2 true).startJob 0).finishJob 0 true

theorem reachable_waitingRun : Reachable waitingRun := by
  have h := Reachable.init.step (.add none none (by simp))
  have h := h.step (.start 0 (by decide +kernel))
  have h := h.step (.add (some 7) (some 0) (by decide +kernel))
  have h := h.step (.add (some 7) (some 0) (by decide +kernel))
  have h := h.step (.finish 0 false (by decide +kernel) (by decide +kernel) (by simp))
  have h := h.step (.start 2 (by decide +kernel))
  have h := h.step (.add none (some 2) (by decide +kernel))
  have h := h.step (.finish 2 false (by decide +kernel) (by decide +kernel) (by simp))
  have h := h.step (.start 1 (by decide +kernel))
  exact h.step (.start 3 (by decide +kernel))

theorem reachable_wokenRun : Reachable wokenRun := by
  have h := reachable_waitingRun.step
    (.finish 3 true (by decide +kernel) (by decide +kernel) (by decide +kernel))
  have h := h.step (.start 2 (by decide +kernel))
  have h := h.step (.finish 2 true (by decide +kernel) (by decide +kernel) (by decide +kernel))
  have h := h.step (.start 0 (by decide +kernel))
  exact h.step (.finish 0 true (by decide +kernel) (by decide +kernel) (by decide +kernel))

theorem bookkeeping_exact_wokenRun : ExactBookkeeping wokenRun ∧ wokenRun.ulpTotal = 0 ∧
    wakeUps wokenRun.history 1 = 1 ∧ resumptions wokenRun.history 0 = 1 :=
  ⟨bookkeeping_exact wokenRun reachable_wokenRun, by decide +kernel, by decide +kernel,
    by decide +kernel⟩

/-- **A job that waits for a queue is not rescheduled**: the queue's completion completes it. -/
theorem waiting_job_not_resumed : ¬ ∀ s, Reachable s → ∀ j q, .queued j q ∈ s.history →
    (s.jqs q).fCompleted = true → reschedules s.history j = 1 := by
  intro h
  have hone := h wokenRun reachable_wokenRun 1 7 (by decide +kernel) (by decide +kernel)
  exact absurd hone (by decide +kernel)

/-! ## The loop of the scheduler -/

theorem AtRest.startJob_body (h : AtRest s) (hj : j ∈ s.listjlWaiting)
    (hbody : (((s.Dequeue j).PreExecute j).FExecuteBegin j).1 = none) :
    ((s.startJob j).jobs j).ejs = .EjsRunning ∧ j < (s.startJob j).ulJobs ∧
      (s.startJob j).unfinishedChildren j = 0 := by
  have hst := h.started hj
  unfold CScheduler.startJob
  generalize (s.Dequeue j).PreExecute j = s₁ at hst hbody ⊢
  have hbegun := hst.inv.begun hst.out
  rcases hb : s₁.FExecuteBegin j with ⟨r, s₂⟩
  rw [hb] at hbegun hbody
  simp only at hbegun hbody ⊢
  subst hbody
  have hincr : ∀ s : CScheduler, (s.jobs j).ejs = .EjsRunning → s.unfinishedChildren j = 0 →
      ((s.IncRefs j).jobs j).ejs = .EjsRunning ∧ (s.IncRefs j).unfinishedChildren j = 0 := by
    intro s hrun hkids
    have hc := changed_incRefs s (show (s.jobs j).ejs ≠ .EjsCompleted by simp [hrun])
    exact ⟨by simp [IncRefs, hrun], (hc.unfinishedChildren j).trans hkids⟩
  cases hbegun with
  | noQueue hq => exact ⟨hst.run, hst.lt, hst.kids⟩
  | main q hq hopen hpj =>
    obtain ⟨hrun, hkids⟩ := hincr s₁ hst.run hst.kids
    exact ⟨hrun, hst.lt, hkids⟩
  | first q hq hopen hpj hlist =>
    obtain ⟨hrun, hkids⟩ := hincr (s₁.enqueue q j (some j)) hst.run hst.kids
    exact ⟨hrun, hst.lt, hkids⟩

/-- A job's own code adds its children one by one. -/
theorem Reachable.addChildren (h : Reachable s) {children : List (Option QueueId)}
    (hj : j < s.ulJobs) (hrun : (s.jobs j).ejs = .EjsRunning) :
    Reachable (children.foldl (fun s pjq => s.ScheduleJob pjq (some j)) s) ∧
      j < (children.foldl (fun s pjq => s.ScheduleJob pjq (some j)) s).ulJobs ∧
      ((children.foldl (fun s pjq => s.ScheduleJob pjq (some j)) s).jobs j).ejs =
        .EjsRunning := by
  induction children generalizing s with
  | nil => exact ⟨h, hj, hrun⟩
  | cons pjq rest ih =>
    have hparent : ∀ p, some j = some p → p < s.ulJobs ∧ (s.jobs p).ejs = .EjsRunning := by
      rintro p heq
      obtain rfl : j = p := by simpa using heq
      exact ⟨hj, hrun⟩
    refine ih (h.step (.add pjq (some j) hparent)) ?_ ?_
    · rw [ScheduleJob_ulJobs]
      exact Nat.lt_succ_of_lt hj
    · rw [(ScheduleJob_other s pjq (fun p hp => (hparent p hp).1) hj.ne).1]
      exact hrun

/-- **What `ExecuteJobs` leaves** is reached by steps, with no job in the waiting list, if a job's
own code that returns true has added no children. -/
theorem ExecuteJobs_reachable {FExecute : CScheduler → JobId → List (Option QueueId) × Bool}
    (hcode : ∀ s j, (FExecute s j).2 = true → (FExecute s j).1 = []) {fuel : ℕ}
    (h : Reachable s) (hrun : ExecuteJobs FExecute fuel s = some s') :
    Reachable s' ∧ s'.listjlWaiting = [] := by
  induction fuel generalizing s with
  | zero => cases hrun
  | succ fuel ih =>
    rw [ExecuteJobs, PjRetrieve] at hrun
    cases hlist : s.listjlWaiting with
    | nil =>
      simp only [hlist, Option.some.injEq] at hrun
      exact hrun ▸ ⟨h, hlist⟩
    | cons j rest =>
      have hj : j ∈ s.listjlWaiting := by simp [hlist]
      have hstart := h.step (.start j hj)
      have hbody := h.atRest.startJob_body hj
      simp only [hlist] at hrun
      unfold CScheduler.startJob at hstart hbody
      rcases hb : ((s.Dequeue j).PreExecute j).FExecuteBegin j with ⟨r, s₂⟩
      rw [hb] at hrun hstart hbody
      cases r with
      | some fCompleted => exact ih hstart hrun
      | none =>
        obtain ⟨hrunning, hlt, hkids⟩ := hbody rfl
        obtain ⟨hadd, hlt', hrunning'⟩ :=
          @Reachable.addChildren s₂ j hstart (FExecute s₂ j).1 hlt hrunning
        refine ih (hadd.step (.finish j (FExecute s₂ j).2 hlt' hrunning' fun hdone => ?_)) hrun
        rw [hcode s₂ j hdone]
        exact hkids

end CScheduler

end BossOptimizer
