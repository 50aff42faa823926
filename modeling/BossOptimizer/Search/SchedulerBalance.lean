import BossOptimizer.Search.CScheduler

/-!
# The counters of the scheduler

`Balanced hold foc` relates the reference counts, the waiting list and the counters to the states
of the jobs: a job's references are those in `hold` (for its execution and for its queue) and one
for each child that has not completed. `foc` is the job between `EjrPostExecute` and its next
state. Each function of the scheduler changes one job, except for `Complete`, which also takes a
reference from the parent.
-/

namespace BossOptimizer

namespace CScheduler

/-! ## What the functions change -/

@[simp] theorem setJob_jobs (s : CScheduler) (j k : JobId) (f : CJob → CJob) :
    (s.setJob j f).jobs k = if k = j then f (s.jobs j) else s.jobs k := by
  simp [setJob, Function.update_apply]

@[simp] theorem setJob_ulJobs (s : CScheduler) (j : JobId) (f : CJob → CJob) :
    (s.setJob j f).ulJobs = s.ulJobs := rfl

@[simp] theorem setJob_jqs (s : CScheduler) (j : JobId) (f : CJob → CJob) :
    (s.setJob j f).jqs = s.jqs := rfl

@[simp] theorem setJob_listjlWaiting (s : CScheduler) (j : JobId) (f : CJob → CJob) :
    (s.setJob j f).listjlWaiting = s.listjlWaiting := rfl

@[simp] theorem setJob_ulpTotal (s : CScheduler) (j : JobId) (f : CJob → CJob) :
    (s.setJob j f).ulpTotal = s.ulpTotal := rfl

@[simp] theorem setJob_ulpRunning (s : CScheduler) (j : JobId) (f : CJob → CJob) :
    (s.setJob j f).ulpRunning = s.ulpRunning := rfl

@[simp] theorem setJob_ulpQueued (s : CScheduler) (j : JobId) (f : CJob → CJob) :
    (s.setJob j f).ulpQueued = s.ulpQueued := rfl

@[simp] theorem setJob_history (s : CScheduler) (j : JobId) (f : CJob → CJob) :
    (s.setJob j f).history = s.history := rfl

@[simp] theorem setQueue_jobs (s : CScheduler) (q : QueueId) (f : CJobQueue → CJobQueue) :
    (s.setQueue q f).jobs = s.jobs := rfl

@[simp] theorem setQueue_ulJobs (s : CScheduler) (q : QueueId) (f : CJobQueue → CJobQueue) :
    (s.setQueue q f).ulJobs = s.ulJobs := rfl

@[simp] theorem setQueue_jqs (s : CScheduler) (q r : QueueId) (f : CJobQueue → CJobQueue) :
    (s.setQueue q f).jqs r = if r = q then f (s.jqs q) else s.jqs r := by
  simp [setQueue, Function.update_apply]

@[simp] theorem setQueue_history (s : CScheduler) (q : QueueId) (f : CJobQueue → CJobQueue) :
    (s.setQueue q f).history = s.history := rfl

@[simp] theorem record_jobs (s : CScheduler) (e : SchedEvent) : (s.record e).jobs = s.jobs := rfl

@[simp] theorem record_ulJobs (s : CScheduler) (e : SchedEvent) :
    (s.record e).ulJobs = s.ulJobs := rfl

@[simp] theorem record_jqs (s : CScheduler) (e : SchedEvent) : (s.record e).jqs = s.jqs := rfl

@[simp] theorem record_listjlWaiting (s : CScheduler) (e : SchedEvent) :
    (s.record e).listjlWaiting = s.listjlWaiting := rfl

@[simp] theorem record_ulpQueued (s : CScheduler) (e : SchedEvent) :
    (s.record e).ulpQueued = s.ulpQueued := rfl

@[simp] theorem record_ulpRunning (s : CScheduler) (e : SchedEvent) :
    (s.record e).ulpRunning = s.ulpRunning := rfl

@[simp] theorem record_history (s : CScheduler) (e : SchedEvent) :
    (s.record e).history = e :: s.history := rfl

/-! ## The invariant -/

/-- Whether a job is in state `ejs`. -/
def inState (s : CScheduler) (ejs : EJobState) (j : JobId) : Bool := (s.jobs j).ejs == ejs

structure Balanced (hold : JobId → ℕ) (foc : Option JobId) (s : CScheduler) : Prop where
  nodup : s.listjlWaiting.Nodup
  mem_waiting : ∀ j, j ∈ s.listjlWaiting ↔ j < s.ulJobs ∧ (s.jobs j).ejs = .EjsWaiting
  state : ∀ j < s.ulJobs, (s.jobs j).ejs ≠ .EjsInit
  parent_lt : ∀ j < s.ulJobs, ∀ p, (s.jobs j).pjParent = some p → p < j
  refs : ∀ j < s.ulJobs, (s.jobs j).ulpRefs = hold j + s.unfinishedChildren j
  idle : ∀ j < s.ulJobs, (s.jobs j).ejs = .EjsWaiting ∨ (s.jobs j).ejs = .EjsCompleted →
    (s.jobs j).ulpRefs = 0
  held : ∀ j < s.ulJobs, (s.jobs j).ejs = .EjsRunning → foc ≠ some j → 0 < hold j
  focus : ∀ j, foc = some j → j < s.ulJobs ∧ (s.jobs j).ejs = .EjsRunning
  queued : s.ulpQueued = s.listjlWaiting.length
  running : s.ulpRunning + foc.isSome.toNat = tally s.ulJobs (s.inState .EjsRunning)
  total : s.ulpTotal = tally s.ulJobs fun j => !s.inState .EjsCompleted j

variable {hold hold' : JobId → ℕ} {foc foc' : Option JobId} {s s' : CScheduler} {j : JobId}

/-- Records and queues do not matter for the balance. -/
theorem Balanced.congr (h : Balanced hold foc s) (hhold : ∀ k < s.ulJobs, hold' k = hold k)
    (hjobs : s'.jobs = s.jobs) (hnum : s'.ulJobs = s.ulJobs)
    (hlist : s'.listjlWaiting = s.listjlWaiting) (htotal : s'.ulpTotal = s.ulpTotal)
    (hrunning : s'.ulpRunning = s.ulpRunning) (hqueued : s'.ulpQueued = s.ulpQueued) :
    Balanced hold' foc s' := by
  have hkids : ∀ k, s'.unfinishedChildren k = s.unfinishedChildren k := by
    intro k
    simp only [unfinishedChildren, hjobs, hnum]
  have hstate : ∀ ejs, s'.inState ejs = s.inState ejs := by
    intro ejs
    funext k
    simp only [inState, hjobs]
  refine ⟨hlist ▸ h.nodup, ?_, ?_, ?_, ?_, ?_, ?_, ?_, ?_, ?_, ?_⟩
  · simpa only [hjobs, hnum, hlist] using h.mem_waiting
  · simpa only [hjobs, hnum] using h.state
  · simpa only [hjobs, hnum] using h.parent_lt
  · intro k hk
    rw [hnum] at hk
    rw [hjobs, hkids, hhold k hk]
    exact h.refs k hk
  · simpa only [hjobs, hnum] using h.idle
  · intro k hk
    rw [hnum] at hk
    rw [hjobs, hhold k hk]
    exact h.held k hk
  · simpa only [hjobs, hnum] using h.focus
  · rw [hqueued, hlist, h.queued]
  · rw [hrunning, hnum, hstate, h.running]
  · simp only [htotal, hnum, hstate, h.total]

theorem Balanced.record (h : Balanced hold foc s) (e : SchedEvent) :
    Balanced hold foc (s.record e) := h.congr (fun _ _ => rfl) rfl rfl rfl rfl rfl rfl

theorem Balanced.setQueue (h : Balanced hold foc s) (q : QueueId) (f : CJobQueue → CJobQueue) :
    Balanced hold foc (s.setQueue q f) := h.congr (fun _ _ => rfl) rfl rfl rfl rfl rfl rfl

theorem Balanced.parent_ne (h : Balanced hold foc s) (hj : j < s.ulJobs) :
    (s.jobs j).pjParent ≠ some j := fun hp => absurd (h.parent_lt j hj j hp) (lt_irrefl j)

/-- A job that has references is running or suspended. -/
theorem Balanced.not_idle (h : Balanced hold foc s) (hj : j < s.ulJobs)
    (hpos : 0 < (s.jobs j).ulpRefs) :
    (s.jobs j).ejs = .EjsRunning ∨ (s.jobs j).ejs = .EjsSuspended := by
  have hidle := h.idle j hj
  have hstate := h.state j hj
  cases he : (s.jobs j).ejs with
  | EjsInit => exact absurd he hstate
  | EjsWaiting => exact absurd (hidle (.inl he)) hpos.ne'
  | EjsRunning => exact .inl rfl
  | EjsSuspended => exact .inr rfl
  | EjsCompleted => exact absurd (hidle (.inr he)) hpos.ne'

/-- `j` becomes the record `job`, in a way that does not complete it. -/
structure Changed (s s' : CScheduler) (j : JobId) (job : CJob) : Prop where
  jobs : ∀ k, s'.jobs k = if k = j then job else s.jobs k
  num : s'.ulJobs = s.ulJobs
  parent : job.pjParent = (s.jobs j).pjParent
  old : (s.jobs j).ejs ≠ .EjsCompleted
  new : job.ejs ≠ .EjsCompleted

theorem Changed.unfinishedChildren {job : CJob} (h : Changed s s' j job) (k : JobId) :
    s'.unfinishedChildren k = s.unfinishedChildren k := by
  unfold CScheduler.unfinishedChildren
  rw [h.num]
  refine tally_congr fun c _ => ?_
  rw [h.jobs]
  split
  · next hc => simp [hc, h.parent, h.old, h.new]
  · rfl

/-- A change of one job keeps the balance if its references and the counters change with it. -/
theorem Balanced.change {job : CJob} (h : Balanced hold foc s) (hc : Changed s s' j job)
    (hj : j < s.ulJobs) (hhold : ∀ k, k ≠ j → hold' k = hold k)
    (hfoc : foc = none ∨ foc = some j)
    (hfoc' : foc' = none ∨ foc' = some j ∧ job.ejs = .EjsRunning)
    (hstate : job.ejs ≠ .EjsInit)
    (hrefs : job.ulpRefs = hold' j + s.unfinishedChildren j)
    (hidle : job.ejs = .EjsWaiting → job.ulpRefs = 0)
    (hheld : job.ejs = .EjsRunning → foc' = none → 0 < hold' j)
    (hnodup : s'.listjlWaiting.Nodup)
    (hmem : ∀ k, k ∈ s'.listjlWaiting ↔
      if k = j then job.ejs = .EjsWaiting else k ∈ s.listjlWaiting)
    (hqueued : s'.ulpQueued = s'.listjlWaiting.length)
    (hrunning : s'.ulpRunning + foc'.isSome.toNat + (s.inState .EjsRunning j).toNat =
      s.ulpRunning + foc.isSome.toNat + (job.ejs == .EjsRunning).toNat)
    (htotal : s'.ulpTotal = s.ulpTotal) : Balanced hold' foc' s' := by
  have hother : ∀ k, k ≠ j → s'.jobs k = s.jobs k := fun k hk => by rw [hc.jobs, if_neg hk]
  have hself : s'.jobs j = job := by rw [hc.jobs, if_pos rfl]
  refine ⟨hnodup, ?_, ?_, ?_, ?_, ?_, ?_, ?_, hqueued, ?_, ?_⟩
  · intro k
    rw [hmem, hc.num]
    by_cases hk : k = j
    · subst hk
      simp [hself, hj]
    · rw [if_neg hk, hother k hk, h.mem_waiting]
  · intro k hk
    by_cases hkj : k = j
    · rwa [hkj, hself]
    · rw [hother k hkj]
      exact h.state k (hc.num ▸ hk)
  · intro k hk p hp
    refine h.parent_lt k (hc.num ▸ hk) p ?_
    by_cases hkj : k = j
    · subst hkj
      rwa [hself, hc.parent] at hp
    · rwa [hother k hkj] at hp
  · intro k hk
    rw [hc.unfinishedChildren]
    by_cases hkj : k = j
    · rw [hkj, hself, hrefs]
    · rw [hother k hkj, hhold k hkj]
      exact h.refs k (hc.num ▸ hk)
  · intro k hk hid
    by_cases hkj : k = j
    · subst hkj
      rw [hself] at hid ⊢
      exact hidle (hid.resolve_right hc.new)
    · rw [hother k hkj] at hid ⊢
      exact h.idle k (hc.num ▸ hk) hid
  · intro k hk hrun hne
    by_cases hkj : k = j
    · subst hkj
      rw [hself] at hrun
      exact hheld hrun (hfoc'.resolve_right fun hf => hne hf.1)
    · rw [hother k hkj] at hrun
      rw [hhold k hkj]
      refine h.held k (hc.num ▸ hk) hrun ?_
      rcases hfoc with rfl | rfl
      · simp
      · simpa using Ne.symm hkj
  · intro k hk
    rcases hfoc' with rfl | ⟨rfl, hrun⟩
    · simp at hk
    · obtain rfl : j = k := by simpa using hk
      exact ⟨hc.num ▸ hj, hself ▸ hrun⟩
  · have hsum := tally_change (p := s'.inState .EjsRunning) (q := s.inState .EjsRunning) hj
      fun i _ hi => by simp [inState, hother i hi]
    have hrun := h.running
    have hnew : s'.inState .EjsRunning j = (job.ejs == .EjsRunning) := by simp [inState, hself]
    rw [hnew] at hsum
    rw [hc.num]
    omega
  · rw [htotal, h.total, hc.num]
    refine tally_congr fun i _ => ?_
    by_cases hi : i = j
    · subst hi
      simp [inState, hself, hc.old, hc.new]
    · simp [inState, hother i hi]

/-! ## The functions of the scheduler -/

theorem changed_start (s : CScheduler) (hne : (s.jobs j).ejs ≠ .EjsCompleted) :
    Changed s ((s.Dequeue j).PreExecute j) j
      { s.jobs j with ulpRefs := (s.jobs j).ulpRefs + 1, ejs := .EjsRunning } := by
  refine ⟨fun k => ?_, rfl, rfl, hne, by simp⟩
  by_cases hk : k = j <;> simp [Dequeue, PreExecute, IncRefs, SetState, hk]

theorem changed_incRefs (s : CScheduler) (hne : (s.jobs j).ejs ≠ .EjsCompleted) :
    Changed s (s.IncRefs j) j { s.jobs j with ulpRefs := (s.jobs j).ulpRefs + 1 } :=
  ⟨fun k => by simp [IncRefs], rfl, rfl, hne, hne⟩

theorem changed_decrRefs (s : CScheduler) (hne : (s.jobs j).ejs ≠ .EjsCompleted) :
    Changed s (s.UlpDecrRefs j).2 j { s.jobs j with ulpRefs := (s.jobs j).ulpRefs - 1 } :=
  ⟨fun k => by simp [UlpDecrRefs], rfl, rfl, hne, hne⟩

theorem changed_suspend (s : CScheduler) (hne : (s.jobs j).ejs ≠ .EjsCompleted) :
    Changed s (s.Suspend j) j { s.jobs j with ejs := .EjsSuspended } :=
  ⟨fun k => by simp [Suspend, SetState], rfl, rfl, hne, by simp⟩

theorem changed_schedule (s : CScheduler) (hne : (s.jobs j).ejs ≠ .EjsCompleted) :
    Changed s (s.Schedule j) j { s.jobs j with ejs := .EjsWaiting } :=
  ⟨fun k => by simp [Schedule, SetState], rfl, rfl, hne, by simp⟩

theorem Balanced.start (h : Balanced hold none s) (hj : j ∈ s.listjlWaiting) :
    Balanced (Function.update hold j 1) none ((s.Dequeue j).PreExecute j) := by
  obtain ⟨hlt, hwait⟩ := (h.mem_waiting j).mp hj
  have hzero : (s.jobs j).ulpRefs = 0 := h.idle j hlt (.inl hwait)
  have hkids : s.unfinishedChildren j = 0 := by
    have := h.refs j hlt
    omega
  refine h.change (changed_start s (by simp [hwait])) hlt (fun k hk => by simp [hk]) (.inl rfl) (.inl rfl) (by simp)
    (by simp [hzero, hkids]) (by simp) (by simp) (h.nodup.erase j) (fun k => ?_) ?_ ?_ rfl
  · have hlist : ((s.Dequeue j).PreExecute j).listjlWaiting = s.listjlWaiting.erase j := rfl
    rw [hlist, h.nodup.mem_erase_iff]
    by_cases hk : k = j <;> simp [hk]
  · simp [Dequeue, PreExecute, IncRefs, SetState, h.queued, List.length_erase_of_mem hj]
  · simp [Dequeue, PreExecute, IncRefs, SetState, inState, hwait]

theorem Balanced.incRefs (h : Balanced hold none s) (hj : j < s.ulJobs)
    (hrun : (s.jobs j).ejs = .EjsRunning) :
    Balanced (Function.update hold j (hold j + 1)) none (s.IncRefs j) := by
  have hrefs := h.refs j hj
  refine h.change (changed_incRefs s (by simp [hrun])) hj (fun k hk => by simp [hk]) (.inl rfl) (.inl rfl) (by simp [hrun])
    (by simp [hrefs]; omega) (by simp [hrun]) (by simp) h.nodup (fun k => ?_) h.queued ?_ rfl
  · by_cases hk : k = j
    · subst hk
      simp [IncRefs, h.mem_waiting, hrun]
    · simp [IncRefs, hk]
  · simp [IncRefs, inState, hrun]

/-- A reference goes that is not the last of a running job. -/
theorem Balanced.decrRefs (h : Balanced hold none s) (hj : j < s.ulJobs) {n : ℕ}
    (hn : hold j = n + 1) (hrun : (s.jobs j).ejs = .EjsRunning → 0 < n) :
    Balanced (Function.update hold j n) none (s.UlpDecrRefs j).2 := by
  have hrefs := h.refs j hj
  have hbusy := h.not_idle hj (by omega)
  have hne : (s.jobs j).ejs ≠ .EjsCompleted := by rcases hbusy with he | he <;> simp [he]
  refine h.change (changed_decrRefs s hne) hj (fun k hk => by simp [hk]) (.inl rfl) (.inl rfl) ?_
    (by simp; omega) ?_ (by simpa using hrun) h.nodup (fun k => ?_) h.queued ?_ rfl
  · rcases hbusy with he | he <;> simp [he]
  · rcases hbusy with he | he <;> simp [he]
  · by_cases hk : k = j
    · subst hk
      rcases hbusy with he | he <;> simp [UlpDecrRefs, h.mem_waiting, he]
    · simp [UlpDecrRefs, hk]
  · simp [UlpDecrRefs, inState]

/-- The job that `EjrPostExecute` leaves, whatever the flag is. -/
theorem EjrPostExecute_snd (s : CScheduler) (j : JobId) (fCompleted : Bool) :
    (s.EjrPostExecute j fCompleted).2 =
      { (s.UlpDecrRefs j).2 with ulpRunning := s.ulpRunning - 1 } := by
  unfold EjrPostExecute UlpDecrRefs
  cases fCompleted
  · simp only [Bool.false_eq_true, if_false]
    split <;> rfl
  · rfl

theorem changed_postExecute (s : CScheduler) (hne : (s.jobs j).ejs ≠ .EjsCompleted)
    (fCompleted : Bool) : Changed s (s.EjrPostExecute j fCompleted).2 j
      { s.jobs j with ulpRefs := (s.jobs j).ulpRefs - 1 } := by
  rw [EjrPostExecute_snd]
  exact ⟨fun k => by simp [UlpDecrRefs], rfl, rfl, hne, hne⟩

theorem Balanced.postExecute (h : Balanced hold none s) (hj : j < s.ulJobs) {n : ℕ}
    (hn : hold j = n + 1) (hrun : (s.jobs j).ejs = .EjsRunning) (fCompleted : Bool) :
    Balanced (Function.update hold j n) (some j) (s.EjrPostExecute j fCompleted).2 := by
  have hrefs := h.refs j hj
  have hcount : 0 < s.ulpRunning := by
    have hpos : 0 < tally s.ulJobs (s.inState .EjsRunning) :=
      tally_pos.mpr ⟨j, hj, by simp [inState, hrun]⟩
    have := h.running
    simp only [Option.isSome_none, Bool.toNat_false] at this
    omega
  have hc := changed_postExecute s (show (s.jobs j).ejs ≠ .EjsCompleted by simp [hrun]) fCompleted
  rw [EjrPostExecute_snd] at hc ⊢
  refine h.change hc hj (fun k hk => by simp [hk]) (.inl rfl) (.inr ⟨rfl, hrun⟩) (by simp [hrun])
    (by simp; omega) (by simp [hrun]) (by simp) h.nodup (fun k => ?_) h.queued ?_ rfl
  · by_cases hk : k = j
    · subst hk
      simp [UlpDecrRefs, h.mem_waiting, hrun]
    · simp [UlpDecrRefs, hk]
  · simp [inState, hrun]
    omega

theorem Balanced.suspend (h : Balanced hold (some j) s) : Balanced hold none (s.Suspend j) := by
  obtain ⟨hj, hrun⟩ := h.focus j rfl
  refine h.change (changed_suspend s (by simp [hrun])) hj (fun k hk => rfl) (.inr rfl) (.inl rfl) (by simp)
    (by simp [h.refs j hj]) (by simp) (by simp) h.nodup (fun k => ?_) h.queued ?_ rfl
  · by_cases hk : k = j
    · subst hk
      simp [Suspend, SetState, h.mem_waiting, hrun]
    · simp [Suspend, SetState, hk]
  · simp [Suspend, SetState, inState, hrun]

/-- A job without references can be scheduled. -/
theorem Balanced.schedule (h : Balanced hold foc s) (hj : j < s.ulJobs)
    (hfoc : foc = some j ∨ foc = none ∧ (s.jobs j).ejs = .EjsSuspended)
    (hzero : (s.jobs j).ulpRefs = 0) : Balanced hold none (s.Schedule j) := by
  have hold0 : (s.jobs j).ejs ≠ .EjsCompleted ∧ (s.jobs j).ejs ≠ .EjsWaiting := by
    rcases hfoc with rfl | ⟨-, he⟩
    · simp [(h.focus j rfl).2]
    · simp [he]
  have hnotin : j ∉ s.listjlWaiting := fun hin => hold0.2 ((h.mem_waiting j).mp hin).2
  refine h.change (changed_schedule s hold0.1) hj (fun k hk => rfl) (hfoc.symm.imp And.left id) (.inl rfl) (by simp)
    (by simp [h.refs j hj]) (by simp [hzero]) (by simp) ?_ (fun k => ?_) ?_ ?_ rfl
  · simpa [Schedule, SetState, hnotin] using h.nodup
  · by_cases hk : k = j <;> simp [Schedule, SetState, hk]
  · simp [Schedule, SetState, h.queued]
  · rcases hfoc with rfl | ⟨rfl, he⟩
    · simp [Schedule, SetState, inState, (h.focus j rfl).2]
    · simp [Schedule, SetState, inState, he]
      rfl

/-- `Complete` and `CompleteQueued` before the parent is told. -/
def markCompleted (s : CScheduler) (j : JobId) (e : SchedEvent) : CScheduler :=
  { (s.SetState j .EjsCompleted).record e with ulpTotal := s.ulpTotal - 1 }

theorem ResumeParent_ulpTotal (s : CScheduler) (j : JobId) (n : ℕ) :
    { s with ulpTotal := n }.ResumeParent j = { s.ResumeParent j with ulpTotal := n } := by
  unfold ResumeParent
  cases hp : (s.jobs j).pjParent with
  | none => simp
  | some p =>
    simp only
    cases hb : (s.jobs p).ulpRefs == 1 <;>
      simp [FResumeParent, UlpDecrRefs, hb, setJob, CScheduler.record, Resume, Schedule, SetState]

theorem ResumeParent_keepsTotal (s : CScheduler) (j : JobId) :
    (s.ResumeParent j).ulpTotal = s.ulpTotal := by
  have heq := ResumeParent_ulpTotal s j s.ulpTotal
  rw [heq]

theorem Complete_eq (s : CScheduler) (j : JobId) :
    s.Complete j = (s.markCompleted j (.completed j)).ResumeParent j := by
  simp only [Complete, markCompleted, ResumeParent_ulpTotal, ResumeParent_keepsTotal]
  rfl

theorem CompleteQueued_eq (s : CScheduler) (j : JobId) :
    s.CompleteQueued j = (s.markCompleted j (.completedQueued j)).ResumeParent j := by
  simp only [CompleteQueued, markCompleted, ResumeParent_ulpTotal, ResumeParent_keepsTotal]
  rfl

@[simp] theorem markCompleted_jobs (s : CScheduler) (j k : JobId) (e : SchedEvent) :
    (s.markCompleted j e).jobs k =
      if k = j then { s.jobs j with ejs := .EjsCompleted } else s.jobs k := by
  simp [markCompleted, SetState]

@[simp] theorem markCompleted_ulJobs (s : CScheduler) (j : JobId) (e : SchedEvent) :
    (s.markCompleted j e).ulJobs = s.ulJobs := rfl

@[simp] theorem markCompleted_jqs (s : CScheduler) (j : JobId) (e : SchedEvent) :
    (s.markCompleted j e).jqs = s.jqs := rfl

/-- The parent of a job that has completed is owed the removal of one reference. -/
def owed (s : CScheduler) (hold : JobId → ℕ) (j k : JobId) : ℕ :=
  hold k + (decide ((s.jobs j).pjParent = some k)).toNat

theorem unfinishedChildren_markCompleted (hj : j < s.ulJobs) (hne : (s.jobs j).ejs ≠ .EjsCompleted)
    (e : SchedEvent) (k : JobId) :
    (s.markCompleted j e).unfinishedChildren k + (decide ((s.jobs j).pjParent = some k)).toNat =
      s.unfinishedChildren k := by
  have hchange := @tally_change s.ulJobs j
    (fun c => decide (((s.markCompleted j e).jobs c).pjParent = some k ∧
      ((s.markCompleted j e).jobs c).ejs ≠ .EjsCompleted))
    (fun c => decide ((s.jobs c).pjParent = some k ∧ (s.jobs c).ejs ≠ .EjsCompleted)) hj
    fun i _ hi => by simp [hi]
  simpa [hne, unfinishedChildren] using hchange

/-- A running job that `EjrPostExecute` has left, or a suspended job, completes. -/
theorem Balanced.markCompleted (h : Balanced hold foc s) (hj : j < s.ulJobs)
    (hfoc : foc = some j ∨ foc = none ∧ (s.jobs j).ejs = .EjsSuspended) (hhold : hold j = 0)
    (hkids : s.unfinishedChildren j = 0) (e : SchedEvent) :
    Balanced (s.owed hold j) none (s.markCompleted j e) := by
  have hold0 : (s.jobs j).ejs ≠ .EjsCompleted ∧ (s.jobs j).ejs ≠ .EjsWaiting := by
    rcases hfoc with rfl | ⟨-, he⟩
    · simp [(h.focus j rfl).2]
    · simp [he]
  have hparent : (s.jobs j).pjParent ≠ some j := h.parent_ne hj
  refine ⟨h.nodup, fun k => ?_, fun k hk => ?_, fun k hk p hp => ?_, fun k hk => ?_,
    fun k hk hid => ?_, fun k hk hrun _ => ?_, by simp, h.queued, ?_, ?_⟩
  · by_cases hk : k = j
    · subst hk
      have := h.mem_waiting k
      simp only [CScheduler.markCompleted, SetState, CScheduler.record] at this ⊢
      simp [this, hold0.2]
    · have := h.mem_waiting k
      simp only [CScheduler.markCompleted, SetState, CScheduler.record] at this ⊢
      simp [this, hk]
  · by_cases hkj : k = j
    · simp [hkj]
    · simpa [hkj] using h.state k hk
  · refine h.parent_lt k hk p ?_
    by_cases hkj : k = j
    · subst hkj
      simpa using hp
    · simpa [hkj] using hp
  · have hkid := unfinishedChildren_markCompleted hj hold0.1 e k
    have hrefs := h.refs k hk
    have hself : ((s.markCompleted j e).jobs k).ulpRefs = (s.jobs k).ulpRefs := by
      by_cases hkj : k = j <;> simp [hkj]
    rw [hself, owed]
    omega
  · by_cases hkj : k = j
    · subst hkj
      simpa [hhold, hkids] using h.refs k hj
    · simp only [markCompleted_jobs, if_neg hkj] at hid ⊢
      exact h.idle k hk hid
  · by_cases hkj : k = j
    · simp [hkj] at hrun
    · simp only [markCompleted_jobs, if_neg hkj] at hrun
      have hpos := h.held k hk hrun (by rcases hfoc with rfl | ⟨rfl, -⟩ <;> simp [Ne.symm hkj])
      simp only [owed]
      omega
  · have hsum := tally_change (p := (s.markCompleted j e).inState .EjsRunning)
      (q := s.inState .EjsRunning) hj fun i _ hi => by simp [inState, hi]
    have hrun := h.running
    have hnew : (s.markCompleted j e).inState .EjsRunning j = false := by simp [inState]
    rw [hnew] at hsum
    change s.ulpRunning + _ = tally s.ulJobs _
    rcases hfoc with rfl | ⟨rfl, he⟩
    · have hwas : s.inState .EjsRunning j = true := by simp [inState, (h.focus j rfl).2]
      simp [hwas] at hsum hrun ⊢
      omega
    · have hwas : s.inState .EjsRunning j = false := by simp [inState, he]
      simp [hwas] at hsum hrun ⊢
      omega
  · have hsum := tally_change (p := fun k => !(s.markCompleted j e).inState .EjsCompleted k)
      (q := fun k => !s.inState .EjsCompleted k) hj fun i _ hi => by simp [inState, hi]
    have htotal := h.total
    have hnew : (s.markCompleted j e).inState .EjsCompleted j = true := by simp [inState]
    have hwas : s.inState .EjsCompleted j = false := by simp [inState, hold0.1]
    simp only [hnew, hwas] at hsum
    change s.ulpTotal - 1 = tally s.ulJobs _
    simp at hsum
    omega

/-- The parent loses the reference for the child, and is scheduled if that was its last one. -/
theorem Balanced.resumeParent (h : Balanced (s.owed hold j) none s) (hj : j < s.ulJobs)
    (hheld : ∀ k < s.ulJobs, (s.jobs k).ejs = .EjsRunning → 0 < hold k) :
    Balanced hold none (s.ResumeParent j) := by
  unfold ResumeParent
  cases hp : (s.jobs j).pjParent with
  | none => exact h.congr (fun k _ => by simp [owed, hp]) rfl rfl rfl rfl rfl rfl
  | some p =>
    have hlt : p < s.ulJobs := (h.parent_lt j hj p hp).trans hj
    have howed : s.owed hold j p = hold p + 1 := by simp [owed, hp]
    have hdec := h.decrRefs hlt howed (hheld p hlt)
    have hhold : ∀ k < s.ulJobs, hold k = Function.update (s.owed hold j) p (hold p) k := by
      intro k _
      by_cases hk : k = p
      · simp [hk]
      · simp [owed, hp, hk, Ne.symm hk]
    have hnext : Balanced hold none (s.UlpDecrRefs p).2 :=
      hdec.congr hhold rfl rfl rfl rfl rfl rfl
    have hrefs := h.refs p hlt
    simp only [FResumeParent]
    by_cases hone : (s.jobs p).ulpRefs = 1
    · have hsusp : (s.jobs p).ejs = .EjsSuspended := by
        rcases h.not_idle hlt (by omega) with hrun | hsusp
        · have := hheld p hlt hrun
          omega
        · exact hsusp
      simp only [UlpDecrRefs, hone, beq_self_eq_true]
      refine (hnext.record _).schedule hlt (.inr ⟨rfl, ?_⟩) ?_
      · simpa [UlpDecrRefs] using hsusp
      · simp [UlpDecrRefs, hone]
    · have hfalse : ((s.jobs p).ulpRefs == 1) = false := by simpa using hone
      simp only [UlpDecrRefs, hfalse]
      exact hnext

/-- A job that is done completes: `Complete` and `CompleteQueued`. -/
theorem Balanced.retire (h : Balanced hold foc s) (hj : j < s.ulJobs)
    (hfoc : foc = some j ∨ foc = none ∧ (s.jobs j).ejs = .EjsSuspended) (hhold : hold j = 0)
    (hkids : s.unfinishedChildren j = 0) (e : SchedEvent) :
    Balanced hold none ((s.markCompleted j e).ResumeParent j) := by
  have hmark := h.markCompleted hj hfoc hhold hkids e
  have howed : (s.markCompleted j e).owed hold j = s.owed hold j := by
    funext k
    simp [owed]
  refine Balanced.resumeParent (howed ▸ hmark) hj fun k hk hrun => ?_
  by_cases hkj : k = j
  · simp [hkj] at hrun
  · simp only [markCompleted_jobs, if_neg hkj] at hrun
    refine h.held k hk hrun ?_
    rcases hfoc with rfl | ⟨rfl, -⟩
    · simpa using Ne.symm hkj
    · simp

theorem ScheduleJob_jobs (s : CScheduler) (pjq : Option QueueId) {pjParent : Option JobId}
    (hparent : ∀ p, pjParent = some p → p < s.ulJobs) (k : JobId) :
    (s.ScheduleJob pjq pjParent).jobs k =
      if k = s.ulJobs then { pjParent := pjParent, pjq := pjq, ulpRefs := 0, ejs := .EjsWaiting }
      else if pjParent = some k then { s.jobs k with ulpRefs := (s.jobs k).ulpRefs + 1 }
      else s.jobs k := by
  cases pjParent with
  | none => by_cases hk : k = s.ulJobs <;> simp [ScheduleJob, PjCreate, Add, Schedule, SetState,
      CJob.Reset, hk]
  | some p =>
    have hne : s.ulJobs ≠ p := (hparent p rfl).ne'
    by_cases hk : k = s.ulJobs
    · simp [ScheduleJob, PjCreate, Add, Schedule, SetState, CJob.Reset, IncRefs, hk, hne]
    · by_cases hkp : k = p
      · subst hkp
        simp [ScheduleJob, PjCreate, Add, Schedule, SetState, IncRefs, hk]
      · simp [ScheduleJob, PjCreate, Add, Schedule, SetState, IncRefs, hk, hkp, Ne.symm hkp]

theorem ScheduleJob_ulJobs (s : CScheduler) (pjq : Option QueueId) (pjParent : Option JobId) :
    (s.ScheduleJob pjq pjParent).ulJobs = s.ulJobs + 1 := by
  cases pjParent <;> rfl

theorem ScheduleJob_jqs (s : CScheduler) (pjq : Option QueueId) (pjParent : Option JobId) :
    (s.ScheduleJob pjq pjParent).jqs = s.jqs := by
  cases pjParent <;> rfl

theorem ScheduleJob_self (s : CScheduler) (pjq : Option QueueId) {pjParent : Option JobId}
    (hparent : ∀ p, pjParent = some p → p < s.ulJobs) :
    (s.ScheduleJob pjq pjParent).jobs s.ulJobs =
      { pjParent := pjParent, pjq := pjq, ulpRefs := 0, ejs := .EjsWaiting } := by
  rw [ScheduleJob_jobs s pjq hparent, if_pos rfl]

/-- The jobs that exist keep all but the references. -/
theorem ScheduleJob_other (s : CScheduler) (pjq : Option QueueId) {pjParent : Option JobId}
    (hparent : ∀ p, pjParent = some p → p < s.ulJobs) {k : JobId} (hk : k ≠ s.ulJobs) :
    ((s.ScheduleJob pjq pjParent).jobs k).ejs = (s.jobs k).ejs ∧
      ((s.ScheduleJob pjq pjParent).jobs k).pjParent = (s.jobs k).pjParent ∧
      ((s.ScheduleJob pjq pjParent).jobs k).pjq = (s.jobs k).pjq ∧
      (s.jobs k).ulpRefs ≤ ((s.ScheduleJob pjq pjParent).jobs k).ulpRefs := by
  rw [ScheduleJob_jobs s pjq hparent, if_neg hk]
  split <;> simp

theorem ScheduleJob_unfinishedChildren (s : CScheduler) (pjq : Option QueueId)
    {pjParent : Option JobId} (hparent : ∀ p, pjParent = some p → p < s.ulJobs) (k : JobId) :
    (s.ScheduleJob pjq pjParent).unfinishedChildren k =
      s.unfinishedChildren k + (decide (pjParent = some k)).toNat := by
  unfold unfinishedChildren
  rw [ScheduleJob_ulJobs, tally_succ, ScheduleJob_self s pjq hparent]
  refine congrArg₂ _ (tally_congr fun c hc => ?_) ?_
  · obtain ⟨hejs, hpar, -⟩ := ScheduleJob_other s pjq hparent hc.ne
    rw [hejs, hpar]
  · simp

/-- A new job waits, and counts for its parent. -/
theorem Balanced.scheduleJob (h : Balanced hold none s) (pjq : Option QueueId)
    (pjParent : Option JobId)
    (hparent : ∀ p, pjParent = some p → p < s.ulJobs ∧ (s.jobs p).ejs = .EjsRunning)
    (hnew : hold s.ulJobs = 0) (hfresh : ∀ c < s.ulJobs, (s.jobs c).pjParent ≠ some s.ulJobs) :
    Balanced hold none (s.ScheduleJob pjq pjParent) := by
  have hlt : ∀ p, pjParent = some p → p < s.ulJobs := fun p hp => (hparent p hp).1
  have hjobs := ScheduleJob_jobs s pjq hlt
  have hnum := ScheduleJob_ulJobs s pjq pjParent
  have hself := ScheduleJob_self s pjq hlt
  have hkids := ScheduleJob_unfinishedChildren s pjq hlt
  have hejs : ∀ k < s.ulJobs, ((s.ScheduleJob pjq pjParent).jobs k).ejs = (s.jobs k).ejs :=
    fun k hk => (ScheduleJob_other s pjq hlt hk.ne).1
  have hpar : ∀ k < s.ulJobs,
      ((s.ScheduleJob pjq pjParent).jobs k).pjParent = (s.jobs k).pjParent :=
    fun k hk => (ScheduleJob_other s pjq hlt hk.ne).2.1
  have hlist : (s.ScheduleJob pjq pjParent).listjlWaiting = s.ulJobs :: s.listjlWaiting := by
    cases pjParent <;> rfl
  have hnotin : s.ulJobs ∉ s.listjlWaiting := fun hin =>
    absurd ((h.mem_waiting _).mp hin).1 (lt_irrefl _)
  have hcases : ∀ {k : ℕ}, k < s.ulJobs + 1 → k < s.ulJobs ∨ k = s.ulJobs := by
    intro k hk
    omega
  refine ⟨?_, fun k => ?_, fun k hk => ?_, fun k hk p hp => ?_, fun k hk => ?_, fun k hk hid => ?_,
    fun k hk hrun _ => ?_, by simp, ?_, ?_, ?_⟩
  · rw [hlist]
    exact List.nodup_cons.mpr ⟨hnotin, h.nodup⟩
  · rw [hlist, hnum, List.mem_cons, h.mem_waiting]
    by_cases hk : k = s.ulJobs
    · simp [hk, hself]
    · by_cases hlt : k < s.ulJobs
      · simp [hk, hlt, hejs k hlt, Nat.lt_succ_of_lt hlt]
      · have hgt : ¬ k < s.ulJobs + 1 := fun hk' => (hcases hk').elim hlt hk
        simp [hk, hlt, hgt]
  · rcases hcases (hnum ▸ hk) with hlt | rfl
    · rw [hejs k hlt]
      exact h.state k hlt
    · simp [hself]
  · rcases hcases (hnum ▸ hk) with hlt | rfl
    · rw [hpar k hlt] at hp
      exact h.parent_lt k hlt p hp
    · rw [hself] at hp
      exact (hparent p hp).1
  · rw [hkids]
    rcases hcases (hnum ▸ hk) with hlt | rfl
    · rw [hjobs, if_neg hlt.ne]
      have hrefs := h.refs k hlt
      by_cases hp : pjParent = some k
      · simp [hp, hrefs, Nat.add_assoc]
      · simp [hp, hrefs]
    · have hzero : s.unfinishedChildren s.ulJobs = 0 := by
        refine tally_eq_zero.mpr fun c hc => ?_
        simp [hfresh c hc]
      have hne : pjParent ≠ some s.ulJobs := fun hp => absurd (hparent _ hp).1 (lt_irrefl _)
      simp [hself, hnew, hzero, hne]
  · rcases hcases (hnum ▸ hk) with hlt | rfl
    · rw [hejs k hlt] at hid
      have hne : pjParent ≠ some k := by
        intro hp
        rw [(hparent k hp).2] at hid
        simp at hid
      rw [hjobs, if_neg hlt.ne, if_neg hne]
      exact h.idle k hlt hid
    · simp [hself]
  · rcases hcases (hnum ▸ hk) with hlt | rfl
    · rw [hejs k hlt] at hrun
      exact h.held k hlt hrun (by simp)
    · simp [hself] at hrun
  · rw [hlist]
    have hq : (s.ScheduleJob pjq pjParent).ulpQueued = s.ulpQueued + 1 := by
      cases pjParent <;> rfl
    simp [hq, h.queued]
  · have hr : (s.ScheduleJob pjq pjParent).ulpRunning = s.ulpRunning := by
      cases pjParent <;> rfl
    rw [hr, h.running, hnum, tally_succ]
    have hnone : ((s.ScheduleJob pjq pjParent).inState .EjsRunning s.ulJobs) = false := by
      simp [inState, hself]
    rw [hnone]
    exact tally_congr fun k hk => by simp [inState, hejs k hk]
  · have ht : (s.ScheduleJob pjq pjParent).ulpTotal = s.ulpTotal + 1 := by
      cases pjParent <;> rfl
    rw [ht, h.total, hnum, tally_succ]
    have hnone : ((s.ScheduleJob pjq pjParent).inState .EjsCompleted s.ulJobs) = false := by
      simp [inState, hself]
    rw [hnone]
    exact congrArg (· + 1) (tally_congr fun k hk => by simp [inState, hejs k hk])

end CScheduler

end BossOptimizer
