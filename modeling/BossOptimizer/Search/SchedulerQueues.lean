import BossOptimizer.Search.SchedulerBalance

/-!
# The job queues of the scheduler

`SchedInv` adds the queues to `Balanced`. At rest the references of a job for its execution and
its queue are `holds`; `but` is a job that is between two states, and `exc` the queue whose waiting
jobs are being notified.
-/

namespace BossOptimizer

namespace CScheduler

/-- The queue notifications for which `j` holds a reference: the one that it waits for, or its own
while it runs as the main job of its queue. -/
def pendingWakeUps (s : CScheduler) (j : JobId) : ℕ :=
  match (s.jobs j).pjq with
  | none => 0
  | some q => (decide (j ∈ (s.jqs q).listjQueued ∧
      ((s.jqs q).pj ≠ some j ∨ (s.jobs j).ejs = .EjsRunning))).toNat

def holds (s : CScheduler) (j : JobId) : ℕ :=
  (s.inState .EjsRunning j).toNat + s.pendingWakeUps j

structure SchedInv (hold : JobId → ℕ) (foc but : Option JobId) (exc : Option QueueId)
    (s : CScheduler) : Prop where
  balanced : Balanced hold foc s
  fresh : ∀ k, s.ulJobs ≤ k → s.jobs k = CJob.Reset
  agrees : ∀ k < s.ulJobs, but ≠ some k → hold k = s.holds k
  nodup : ∀ q, (s.jqs q).listjQueued.Nodup
  mem : ∀ q, ∀ k ∈ (s.jqs q).listjQueued,
    k < s.ulJobs ∧ (s.jobs k).pjq = some q ∧ (s.jobs k).ejs ≠ .EjsCompleted
  waiter : ∀ q, ∀ k ∈ (s.jqs q).listjQueued, (s.jqs q).pj ≠ some k → but ≠ some k →
    (s.jobs k).ejs = .EjsSuspended ∧ s.unfinishedChildren k = 0
  main : ∀ q m, (s.jqs q).pj = some m → m < s.ulJobs ∧ (s.jobs m).pjq = some q
  unowned : ∀ q, (s.jqs q).pj = none →
    (s.jqs q).listjQueued = [] ∧ (s.jqs q).fCompleted = false
  drained : ∀ q, exc ≠ some q → (s.jqs q).fCompleted = true → (s.jqs q).listjQueued = []
  owner : ∀ q m, (s.jqs q).pj = some m → (s.jqs q).fCompleted = false →
    m ∈ (s.jqs q).listjQueued
  executing : ∀ k < s.ulJobs, (s.jobs k).ejs = .EjsRunning → but ≠ some k →
    ∀ q, (s.jobs k).pjq = some q →
      (s.jqs q).pj = some k ∧ ((s.jqs q).fCompleted = false ∨ exc = some q)
  pending : ∀ k < s.ulJobs, (s.jobs k).ejs = .EjsSuspended → but ≠ some k →
    0 < (s.jobs k).ulpRefs

variable {hold hold' : JobId → ℕ} {foc foc' but but' : Option JobId} {exc : Option QueueId}
  {s s' : CScheduler} {j k : JobId}

theorem pendingWakeUps_eq_zero (h : ∀ q, (s.jobs j).pjq = some q → j ∉ (s.jqs q).listjQueued) :
    s.pendingWakeUps j = 0 := by
  unfold pendingWakeUps
  cases hq : (s.jobs j).pjq with
  | none => rfl
  | some q => simp [h q hq]

theorem holds_congr (hpjq : (s'.jobs k).pjq = (s.jobs k).pjq)
    (hrun : (s'.jobs k).ejs = .EjsRunning ↔ (s.jobs k).ejs = .EjsRunning)
    (hlist : ∀ q, (s.jobs k).pjq = some q →
      (k ∈ (s'.jqs q).listjQueued ↔ k ∈ (s.jqs q).listjQueued) ∧
        ((s'.jqs q).pj = some k ↔ (s.jqs q).pj = some k)) : s'.holds k = s.holds k := by
  have hstate : s'.inState .EjsRunning k = s.inState .EjsRunning k := by
    rw [Bool.eq_iff_iff]
    simpa [inState] using hrun
  unfold holds pendingWakeUps
  rw [hstate, hpjq]
  cases hq : (s.jobs k).pjq with
  | none => rfl
  | some q =>
    obtain ⟨hmem, hpj⟩ := hlist q hq
    simp only [hmem, ne_eq, hpj, hrun]

theorem holds_setQueue (s : CScheduler) (q : QueueId) (f : CJobQueue → CJobQueue)
    (hmem : k ∈ (f (s.jqs q)).listjQueued ↔ k ∈ (s.jqs q).listjQueued)
    (hpj : (f (s.jqs q)).pj = some k ↔ (s.jqs q).pj = some k) :
    (s.setQueue q f).holds k = s.holds k := by
  refine holds_congr rfl Iff.rfl fun r _ => ?_
  by_cases hr : r = q
  · subst hr
    simpa using ⟨hmem, hpj⟩
  · simp [hr]

/-- A change of one job, with the queues as they are. -/
theorem SchedInv.change {job : CJob} (h : SchedInv hold foc but exc s)
    (hb : Balanced hold' foc' s') (hc : Changed s s' j job) (hjqs : s'.jqs = s.jqs)
    (hj : j < s.ulJobs) (hpjq : job.pjq = (s.jobs j).pjq) (hhold : ∀ k, k ≠ j → hold' k = hold k)
    (hbut : but = none ∨ but = some j)
    (hself : but' = some j ∨ but' = none ∧ hold' j = s'.holds j ∧
      (job.ejs = .EjsRunning → ∀ q, job.pjq = some q →
        (s.jqs q).pj = some j ∧ ((s.jqs q).fCompleted = false ∨ exc = some q)) ∧
      (job.ejs = .EjsSuspended → 0 < job.ulpRefs) ∧
      ∀ q, j ∈ (s.jqs q).listjQueued → (s.jqs q).pj ≠ some j →
        job.ejs = .EjsSuspended ∧ s.unfinishedChildren j = 0) :
    SchedInv hold' foc' but' exc s' := by
  have hother : ∀ k, k ≠ j → s'.jobs k = s.jobs k := fun k hk => by rw [hc.jobs, if_neg hk]
  have hnew : s'.jobs j = job := by rw [hc.jobs, if_pos rfl]
  have hpj : ∀ k, (s'.jobs k).pjq = (s.jobs k).pjq := by
    intro k
    by_cases hk : k = j
    · rw [hk, hnew, hpjq]
    · rw [hother k hk]
  have hbut_ne : ∀ k, k ≠ j → but ≠ some k := by
    intro k hk
    rcases hbut with rfl | rfl
    · simp
    · simpa using Ne.symm hk
  refine ⟨hb, fun k hk => ?_, fun k hk hne => ?_, hjqs ▸ h.nodup, fun q k hk => ?_,
    fun q k hk hm hne => ?_, fun q m hm => ?_, hjqs ▸ h.unowned, hjqs ▸ h.drained, hjqs ▸ h.owner,
    fun k hk hrun hne q hq => ?_, fun k hk hsusp hne => ?_⟩
  · rw [hc.num] at hk
    rw [hother k (hj.trans_le hk).ne', h.fresh k hk]
  · by_cases hkj : k = j
    · subst hkj
      exact (hself.resolve_left hne).2.1
    · rw [hhold k hkj, h.agrees k (hc.num ▸ hk) (hbut_ne k hkj)]
      exact (holds_congr (hpj k) (by rw [hother k hkj]) fun q _ => by simp [hjqs]).symm
  · rw [hjqs] at hk
    obtain ⟨hlt, hq, hne⟩ := h.mem q k hk
    refine ⟨hc.num ▸ hlt, (hpj k).trans hq, ?_⟩
    by_cases hkj : k = j
    · rw [hkj, hnew]
      exact hc.new
    · rwa [hother k hkj]
  · rw [hjqs] at hk hm
    rw [hc.unfinishedChildren]
    by_cases hkj : k = j
    · subst hkj
      rw [hnew]
      exact (hself.resolve_left hne).2.2.2.2 q hk hm
    · rw [hother k hkj]
      exact h.waiter q k hk hm (hbut_ne k hkj)
  · rw [hjqs] at hm
    rw [hc.num, hpj]
    exact h.main q m hm
  · rw [hjqs]
    by_cases hkj : k = j
    · subst hkj
      rw [hnew] at hrun hq
      exact (hself.resolve_left hne).2.2.1 hrun q hq
    · rw [hother k hkj] at hrun hq
      exact h.executing k (hc.num ▸ hk) hrun (hbut_ne k hkj) q hq
  · by_cases hkj : k = j
    · subst hkj
      rw [hnew] at hsusp ⊢
      exact (hself.resolve_left hne).2.2.2.1 hsusp
    · rw [hother k hkj] at hsusp ⊢
      exact h.pending k (hc.num ▸ hk) hsusp (hbut_ne k hkj)

/-- A job that is no longer between two states. -/
theorem SchedInv.settle (h : SchedInv hold foc (some j) exc s) (hhold : hold j = s.holds j)
    (hrun : (s.jobs j).ejs = .EjsRunning → ∀ q, (s.jobs j).pjq = some q →
      (s.jqs q).pj = some j ∧ ((s.jqs q).fCompleted = false ∨ exc = some q))
    (hsusp : (s.jobs j).ejs = .EjsSuspended → 0 < (s.jobs j).ulpRefs)
    (hwait : ∀ q, j ∈ (s.jqs q).listjQueued → (s.jqs q).pj ≠ some j →
      (s.jobs j).ejs = .EjsSuspended ∧ s.unfinishedChildren j = 0) :
    SchedInv hold foc none exc s := by
  have hne : ∀ {k}, k ≠ j → some j ≠ some k := fun hk => by simpa using Ne.symm hk
  refine ⟨h.balanced, h.fresh, fun k hk _ => ?_, h.nodup, h.mem, fun q k hk hm _ => ?_, h.main,
    h.unowned, h.drained, h.owner, fun k hk hr _ => ?_, fun k hk hs _ => ?_⟩
  · by_cases hkj : k = j
    · rw [hkj, hhold]
    · exact h.agrees k hk (hne hkj)
  · by_cases hkj : k = j
    · subst hkj
      exact hwait q hk hm
    · exact h.waiter q k hk hm (hne hkj)
  · by_cases hkj : k = j
    · subst hkj
      exact hrun hr
    · exact h.executing k hk hr (hne hkj)
  · by_cases hkj : k = j
    · subst hkj
      exact hsusp hs
    · exact h.pending k hk hs (hne hkj)

theorem SchedInv.record (h : SchedInv hold foc but exc s) (e : SchedEvent) :
    SchedInv hold foc but exc (s.record e) :=
  ⟨h.balanced.record e, h.fresh, h.agrees, h.nodup, h.mem, h.waiter, h.main, h.unowned, h.drained,
    h.owner, h.executing, h.pending⟩

/-- The invariant between two steps. -/
def AtRest (s : CScheduler) : Prop := SchedInv s.holds none none none s

theorem SchedInv.atRest (h : SchedInv hold none none none s) : AtRest s :=
  ⟨h.balanced.congr (fun k hk => (h.agrees k hk (by simp)).symm) rfl rfl rfl rfl rfl rfl, h.fresh,
    fun _ _ _ => rfl, h.nodup, h.mem, h.waiter, h.main, h.unowned, h.drained, h.owner,
    h.executing, h.pending⟩

/-! ## A job starts -/

theorem AtRest.notMem_of_waiting (h : AtRest s) (hj : (s.jobs j).ejs = .EjsWaiting) (q : QueueId)
    (hm : (s.jqs q).pj ≠ some j) : j ∉ (s.jqs q).listjQueued := by
  intro hin
  have := (h.waiter q j hin hm (by simp)).1
  rw [hj] at this
  simp at this

theorem AtRest.start (h : AtRest s) (hj : j ∈ s.listjlWaiting) :
    SchedInv (Function.update s.holds j 1) none (some j) none ((s.Dequeue j).PreExecute j) := by
  obtain ⟨hlt, hwait⟩ := (h.balanced.mem_waiting j).mp hj
  exact h.change (h.balanced.start hj) (changed_start s (by simp [hwait])) rfl hlt rfl
    (fun k hk => by simp [hk]) (.inl rfl) (.inl rfl)

/-- The main job of a queue runs once more, or a job without a queue runs. -/
theorem SchedInv.incRefs (h : SchedInv hold none (some j) exc s) (hj : j < s.ulJobs)
    (hrun : (s.jobs j).ejs = .EjsRunning) :
    SchedInv (Function.update hold j (hold j + 1)) none (some j) exc (s.IncRefs j) :=
  h.change (h.balanced.incRefs hj hrun) (changed_incRefs s (by simp [hrun])) rfl hj rfl
    (fun k hk => by simp [hk]) (.inr rfl) (.inl rfl)

/-- A job joins a queue, as its main job if it is the first. -/
theorem SchedInv.enqueue (h : SchedInv hold foc (some j) exc s) {q : QueueId} (pj' : Option JobId)
    (hj : j < s.ulJobs) (hrun : (s.jobs j).ejs = .EjsRunning) (hq : (s.jobs j).pjq = some q)
    (hopen : (s.jqs q).fCompleted = false) (hnotin : j ∉ (s.jqs q).listjQueued)
    (hpj : pj' = (s.jqs q).pj ∧ (s.jqs q).pj ≠ none ∧ (s.jqs q).pj ≠ some j ∨
      pj' = some j ∧ (s.jqs q).pj = none) :
    SchedInv hold foc (some j) exc
      (s.setQueue q fun c => { c with pj := pj', listjQueued := c.listjQueued ++ [j] }) := by
  have hpj_iff : ∀ k, k ≠ j → (pj' = some k ↔ (s.jqs q).pj = some k) := by
    intro k hk
    rcases hpj with ⟨rfl, -⟩ | ⟨rfl, hnone⟩
    · rfl
    · simp [hnone, Ne.symm hk]
  have hpj_ne : pj' ≠ none := by
    rcases hpj with ⟨rfl, hne, -⟩ | ⟨rfl, -⟩
    · exact hne
    · simp
  refine ⟨h.balanced.setQueue q _, h.fresh, fun k hk hne => ?_, fun r => ?_, fun r k hk => ?_,
    fun r k hk hm hne => ?_, fun r m hm => ?_, fun r hm => ?_, fun r hr hc => ?_,
    fun r m hm hc => ?_, fun k hk hr hne r hkr => ?_, h.pending⟩
  · have hkj : k ≠ j := fun hk => hne (by rw [hk])
    rw [h.agrees k hk hne]
    exact (holds_setQueue s q _ (by simp [hkj]) (hpj_iff k hkj)).symm
  · by_cases hrq : r = q
    · subst hrq
      simpa [List.nodup_append, h.nodup r] using fun k hk (hkj : k = j) => hnotin (hkj ▸ hk)
    · simpa [hrq] using h.nodup r
  · by_cases hrq : r = q
    · subst hrq
      simp only [setQueue_jqs, if_true, List.mem_append, List.mem_singleton] at hk
      rcases hk with hk | rfl
      · exact h.mem r k hk
      · exact ⟨hj, hq, by simp [hrun]⟩
    · exact h.mem r k (by simpa [hrq] using hk)
  · have hkj : k ≠ j := fun hk => hne (by rw [hk])
    by_cases hrq : r = q
    · subst hrq
      simp only [setQueue_jqs, if_true, List.mem_append, List.mem_singleton] at hk hm
      exact h.waiter r k (hk.resolve_right hkj) (fun hp => hm ((hpj_iff k hkj).mpr hp)) hne
    · simp only [setQueue_jqs, if_neg hrq] at hk hm
      exact h.waiter r k hk hm hne
  · by_cases hrq : r = q
    · subst hrq
      simp only [setQueue_jqs, if_true] at hm
      by_cases hmj : m = j
      · rw [hmj]
        exact ⟨hj, hq⟩
      · exact h.main r m ((hpj_iff m hmj).mp hm)
    · exact h.main r m (by simpa [hrq] using hm)
  · by_cases hrq : r = q
    · subst hrq
      exact absurd (by simpa using hm) hpj_ne
    · simpa [hrq] using h.unowned r (by simpa [hrq] using hm)
  · by_cases hrq : r = q
    · subst hrq
      simp [hopen] at hc
    · simpa [hrq] using h.drained r hr (by simpa [hrq] using hc)
  · by_cases hrq : r = q
    · subst hrq
      simp only [setQueue_jqs, if_true] at hm ⊢
      by_cases hmj : m = j
      · simp [hmj]
      · simp [h.owner r m ((hpj_iff m hmj).mp hm) hopen]
    · simpa [hrq] using h.owner r m (by simpa [hrq] using hm) (by simpa [hrq] using hc)
  · have hkj : k ≠ j := fun hk => hne (by rw [hk])
    by_cases hrq : r = q
    · subst hrq
      simpa [hpj_iff k hkj] using h.executing k hk hr hne r hkr
    · simpa [hrq] using h.executing k hk hr hne r hkr

/-! ## A job is suspended, rerun or completed -/

theorem ProcessJobResult_true (s : CScheduler) (j : JobId) :
    s.ProcessJobResult j true = (s.EjrPostExecute j true).2.Complete j := rfl

theorem ProcessJobResult_rerun (h : (s.jobs j).ulpRefs = 1) : s.ProcessJobResult j false =
    ((s.EjrPostExecute j false).2.record (.rerun j)).Resume j := by
  simp [ProcessJobResult, EjrPostExecute, UlpDecrRefs, h]

theorem ProcessJobResult_suspend (h : (s.jobs j).ulpRefs ≠ 1) :
    s.ProcessJobResult j false = (s.EjrPostExecute j false).2.Suspend j := by
  simp [ProcessJobResult, EjrPostExecute, UlpDecrRefs, h]

theorem SchedInv.postExecute (h : SchedInv hold none (some j) exc s) (hj : j < s.ulJobs) {n : ℕ}
    (hn : hold j = n + 1) (hrun : (s.jobs j).ejs = .EjsRunning) (fCompleted : Bool) :
    SchedInv (Function.update hold j n) (some j) (some j) exc
      (s.EjrPostExecute j fCompleted).2 := by
  have hc := changed_postExecute s (show (s.jobs j).ejs ≠ .EjsCompleted by simp [hrun]) fCompleted
  refine h.change (h.balanced.postExecute hj hn hrun fCompleted) hc ?_ hj rfl
    (fun k hk => by simp [hk]) (.inr rfl) (.inl rfl)
  rw [EjrPostExecute_snd]
  rfl

/-- How a job that has not completed stands in the queues, and the references it keeps there. -/
def Parked (s : CScheduler) (j : JobId) (n : ℕ) : Prop :=
  (n = 0 ∧ ∀ q, j ∈ (s.jqs q).listjQueued → (s.jqs q).pj = some j) ∨
  (n = 1 ∧ s.unfinishedChildren j = 0 ∧
    ∃ q, (s.jobs j).pjq = some q ∧ j ∈ (s.jqs q).listjQueued ∧ (s.jqs q).pj ≠ some j)

theorem Parked.holds {n : ℕ} (h : Parked s j n) (hrun : (s.jobs j).ejs ≠ .EjsRunning) :
    s.holds j = n := by
  have hstate : s.inState .EjsRunning j = false := by simp [inState, hrun]
  unfold CScheduler.holds pendingWakeUps
  rw [hstate]
  rcases h with ⟨rfl, hmain⟩ | ⟨rfl, -, q, hq, hin, hne⟩
  · cases hq : (s.jobs j).pjq with
    | none => simp
    | some q => simpa [hrun] using hmain q
  · simp [hq, hin, hne]

theorem Parked.waiter {n : ℕ} (h : Parked s j n) {q : QueueId}
    (hin : j ∈ (s.jqs q).listjQueued) (hne : (s.jqs q).pj ≠ some j) :
    n = 1 ∧ s.unfinishedChildren j = 0 :=
  h.elim (fun h => absurd (h.2 q hin) hne) fun h => ⟨h.1, h.2.1⟩

theorem Parked.congr {n : ℕ} (h : Parked s j n) (hjqs : s'.jqs = s.jqs)
    (hpjq : (s'.jobs j).pjq = (s.jobs j).pjq)
    (hkids : s'.unfinishedChildren j = s.unfinishedChildren j) : Parked s' j n := by
  unfold Parked
  rw [hjqs, hpjq, hkids]
  exact h

/-- **A job that has not completed** is rescheduled if it waits for nothing, else suspended. -/
theorem SchedInv.processNotCompleted (h : SchedInv hold none (some j) none s) (hj : j < s.ulJobs)
    {n : ℕ} (hn : hold j = n + 1) (hrun : (s.jobs j).ejs = .EjsRunning) (hpark : Parked s j n) :
    AtRest (s.ProcessJobResult j false) := by
  have hrefs := h.balanced.refs j hj
  have hpost := h.postExecute hj hn hrun false
  have hc := changed_postExecute s (show (s.jobs j).ejs ≠ .EjsCompleted by simp [hrun]) false
  have hjqs : (s.EjrPostExecute j false).2.jqs = s.jqs := by
    rw [EjrPostExecute_snd]
    rfl
  have hresult : s.ProcessJobResult j false = if (s.jobs j).ulpRefs = 1
      then ((s.EjrPostExecute j false).2.record (.rerun j)).Resume j
      else (s.EjrPostExecute j false).2.Suspend j := by
    split
    · next hone => exact ProcessJobResult_rerun hone
    · next hone => exact ProcessJobResult_suspend hone
  rw [hresult]
  generalize (s.EjrPostExecute j false).2 = p at *
  have hself : p.jobs j = { s.jobs j with ulpRefs := (s.jobs j).ulpRefs - 1 } := by
    rw [hc.jobs, if_pos rfl]
  have hne : (p.jobs j).ejs ≠ .EjsCompleted := by simp [hself, hrun]
  have hjp : j < p.ulJobs := hc.num ▸ hj
  have hparkp : Parked p j n := hpark.congr hjqs (by rw [hself]) (hc.unfinishedChildren j)
  have hwaiter : ∀ q, j ∈ (p.jqs q).listjQueued → (p.jqs q).pj ≠ some j →
      n = 1 ∧ p.unfinishedChildren j = 0 := fun q hin hm => hparkp.waiter hin hm
  split
  · next hone =>
    have hzero : n = 0 := by omega
    subst hzero
    have hrec := hpost.record (.rerun j)
    have hcs := changed_schedule (p.record (.rerun j)) hne
    have hb := hrec.balanced.schedule hjp (.inl rfl) (by simp [hself, hone])
    refine SchedInv.atRest (hrec.change hb hcs rfl hjp rfl (fun _ _ => rfl) (.inr rfl)
      (.inr ⟨rfl, ?_, by simp, by simp, fun q hin hm => ?_⟩))
    · have hheld := (@Parked.congr p ((p.record (.rerun j)).Schedule j) j 0 hparkp rfl
        (by rw [hcs.jobs, if_pos rfl]; rfl) (hcs.unfinishedChildren j)).holds
        (by rw [hcs.jobs, if_pos rfl]; simp)
      rw [Function.update_self]
      exact hheld.symm
    · exact absurd (hwaiter q hin hm).1 (by simp)
  · next hone =>
    have hcs := changed_suspend p hne
    refine SchedInv.atRest (hpost.change hpost.balanced.suspend hcs rfl hjp rfl (fun _ _ => rfl)
      (.inr rfl) (.inr ⟨rfl, ?_, by simp, fun _ => ?_, fun q hin hm => ⟨rfl, (hwaiter q hin hm).2⟩⟩))
    · have hheld := (@Parked.congr p (p.Suspend j) j n hparkp rfl
        (by rw [hcs.jobs, if_pos rfl]) (hcs.unfinishedChildren j)).holds
        (by rw [hcs.jobs, if_pos rfl]; simp)
      simpa using hheld.symm
    · simp only [hself]
      omega

/-- What the completion of `j` does: the parent is told, and scheduled if it waits for nothing
else. -/
structure Retired (s s' : CScheduler) (j : JobId) (e : SchedEvent) : Prop where
  num : s'.ulJobs = s.ulJobs
  jqs : s'.jqs = s.jqs
  pjq : ∀ k, (s'.jobs k).pjq = (s.jobs k).pjq
  parent : ∀ k, (s'.jobs k).pjParent = (s.jobs k).pjParent
  self : (s'.jobs j).ejs = .EjsCompleted
  other : ∀ k, k ≠ j → (s.jobs j).pjParent ≠ some k → s'.jobs k = s.jobs k
  pending : ∀ k, k ≠ j → (s'.jobs k).ejs = .EjsSuspended → 0 < (s.jobs k).ulpRefs →
    0 < (s'.jobs k).ulpRefs
  outcome : (s'.history = e :: s.history ∧ ∀ k, k ≠ j → (s'.jobs k).ejs = (s.jobs k).ejs) ∨
    ∃ p, (s.jobs j).pjParent = some p ∧ p ≠ j ∧
      s'.history = .resumed p j :: e :: s.history ∧ (s.jobs p).ejs = .EjsSuspended ∧
      (s'.jobs p).ejs = .EjsWaiting ∧ ∀ k, k ≠ j → k ≠ p → (s'.jobs k).ejs = (s.jobs k).ejs

theorem Balanced.retired (h : Balanced hold foc s) (hj : j < s.ulJobs)
    (hfoc : foc = some j ∨ foc = none ∧ (s.jobs j).ejs = .EjsSuspended) (e : SchedEvent)
    (hne : (s.jobs j).ejs ≠ .EjsCompleted) : Retired s ((s.markCompleted j e).ResumeParent j) j e := by
  unfold ResumeParent
  cases hp : (s.jobs j).pjParent with
  | none =>
    simp only [markCompleted_jobs, if_true, hp]
    refine ⟨rfl, rfl, fun k => ?_, fun k => ?_, by simp, fun k hk _ => by simp [hk],
      fun k hk _ => by simp [hk], .inl ⟨rfl, fun k hk => by simp [hk]⟩⟩ <;>
    by_cases hk : k = j <;> simp [hk]
  | some p =>
    have hpj : p ≠ j := fun heq => h.parent_ne hj (hp.trans (congrArg some heq))
    have hlt : p < s.ulJobs := (h.parent_lt j hj p hp).trans hj
    simp only [markCompleted_jobs, if_true, hp, FResumeParent, UlpDecrRefs, if_neg hpj]
    have hkids : 0 < s.unfinishedChildren p :=
      tally_pos.mpr ⟨j, hj, by simp [hp, hne]⟩
    have hrefs := h.refs p hlt
    by_cases hone : (s.jobs p).ulpRefs = 1
    · have hsusp : (s.jobs p).ejs = .EjsSuspended := by
        rcases h.not_idle hlt (by omega) with hrun | hsusp
        · have hpos := h.held p hlt hrun (by rcases hfoc with rfl | ⟨rfl, -⟩ <;> simp [Ne.symm hpj])
          omega
        · exact hsusp
      simp only [hone, beq_self_eq_true, Resume, Schedule, SetState]
      refine ⟨rfl, rfl, fun k => ?_, fun k => ?_, by simp [Ne.symm hpj], fun k hk hkp => ?_,
        fun k hk hs hpos => ?_, .inr ⟨p, hp, hpj, rfl, hsusp, by simp, fun k hk hkp => ?_⟩⟩
      · by_cases hkp : k = p
        · subst hkp
          simp [hpj]
        · by_cases hk : k = j <;> simp [hkp, hk, Ne.symm hpj]
      · by_cases hkp : k = p
        · subst hkp
          simp [hpj]
        · by_cases hk : k = j <;> simp [hkp, hk, Ne.symm hpj]
      · have hkp' : k ≠ p := fun heq => hkp (heq ▸ hp)
        simp [hk, hkp']
      · by_cases hkp : k = p
        · subst hkp
          simp at hs
        · simpa [hk, hkp] using hpos
      · simp [hk, hkp]
    · have hfalse : ((s.jobs p).ulpRefs == 1) = false := by simpa using hone
      simp only [hfalse]
      refine ⟨rfl, rfl, fun k => ?_, fun k => ?_, by simp [Ne.symm hpj], fun k hk hkp => ?_,
        fun k hk hs hpos => ?_, .inl ⟨rfl, fun k hk => ?_⟩⟩
      · by_cases hkp : k = p
        · subst hkp
          simp [hpj]
        · by_cases hk : k = j <;> simp [hkp, hk, Ne.symm hpj]
      · by_cases hkp : k = p
        · subst hkp
          simp [hpj]
        · by_cases hk : k = j <;> simp [hkp, hk, Ne.symm hpj]
      · have hkp' : k ≠ p := fun heq => hkp (heq ▸ hp)
        simp [hk, hkp']
      · by_cases hkp : k = p
        · subst hkp
          simp [hk]
          omega
        · simpa [hk, hkp] using hpos
      · by_cases hkp : k = p
        · subst hkp
          simp [hk]
        · simp [hk, hkp]

theorem Retired.unfinishedChildren_zero {e : SchedEvent} (h : Retired s s' j e)
    (hk : s.unfinishedChildren k = 0) : s'.unfinishedChildren k = 0 := by
  rw [unfinishedChildren, tally_eq_zero] at hk ⊢
  intro c hc
  rw [h.num] at hc
  have hold := hk c hc
  rw [h.parent]
  simp only [decide_eq_false_iff_not, not_and, not_not] at hold ⊢
  intro hp
  by_cases hcj : c = j
  · rw [hcj]
    exact h.self
  · rcases h.outcome with ⟨-, hsame⟩ | ⟨p, -, -, -, hsusp, -, hsame⟩
    · exact (hsame c hcj).trans (hold hp)
    · by_cases hcp : c = p
      · subst hcp
        rw [hold hp] at hsusp
        cases hsusp
      · exact (hsame c hcj hcp).trans (hold hp)

/-- Away from the completed job, a job's state changes only from suspended to waiting. -/
theorem Retired.ejs {e : SchedEvent} (h : Retired s s' j e) (hk : k ≠ j) :
    (s'.jobs k).ejs = (s.jobs k).ejs ∨
      (s.jobs k).ejs = .EjsSuspended ∧ (s'.jobs k).ejs = .EjsWaiting := by
  rcases h.outcome with ⟨-, hsame⟩ | ⟨p, -, -, -, hsusp, hwait, hsame⟩
  · exact .inl (hsame k hk)
  · by_cases hkp : k = p
    · subst hkp
      exact .inr ⟨hsusp, hwait⟩
    · exact .inl (hsame k hk hkp)

/-- **A job that is done completes**: nothing else changes but its parent, which may be
rescheduled. -/
theorem SchedInv.retire (h : SchedInv hold foc (some j) exc s) (hj : j < s.ulJobs)
    (hfoc : foc = some j ∨ foc = none ∧ (s.jobs j).ejs = .EjsSuspended) (hhold : hold j = 0)
    (hkids : s.unfinishedChildren j = 0) (hout : ∀ q, j ∉ (s.jqs q).listjQueued)
    (e : SchedEvent) : SchedInv hold none none exc ((s.markCompleted j e).ResumeParent j) := by
  have hne : (s.jobs j).ejs ≠ .EjsCompleted := by
    rcases hfoc with rfl | ⟨-, hs⟩
    · simp [(h.balanced.focus j rfl).2]
    · simp [hs]
  have hr := h.balanced.retired hj hfoc e hne
  have hb := h.balanced.retire hj hfoc hhold hkids e
  generalize (s.markCompleted j e).ResumeParent j = s' at *
  have hbut : ∀ {k}, k ≠ j → some j ≠ some k := fun hk => by simpa using Ne.symm hk
  have hrunning : ∀ k, k ≠ j →
      ((s'.jobs k).ejs = .EjsRunning ↔ (s.jobs k).ejs = .EjsRunning) := by
    intro k hk
    rcases hr.ejs hk with heq | ⟨hs, hw⟩
    · rw [heq]
    · simp [hs, hw]
  have hself : s'.holds j = 0 := by
    have hpend := pendingWakeUps_eq_zero (s := s') (j := j) fun q _ => by
      rw [hr.jqs]
      exact hout q
    simp [CScheduler.holds, hpend, inState, hr.self]
  refine ⟨hb, fun k hk => ?_, fun k hk _ => ?_, hr.jqs ▸ h.nodup, fun q k hk => ?_,
    fun q k hk hm _ => ?_, fun q m hm => ?_, hr.jqs ▸ h.unowned, hr.jqs ▸ h.drained,
    hr.jqs ▸ h.owner, fun k hk hrun _ q hq => ?_, fun k hk hs _ => ?_⟩
  · rw [hr.num] at hk
    rw [hr.other k (hj.trans_le hk).ne' fun hp => ?_]
    · exact h.fresh k hk
    · exact absurd ((h.balanced.parent_lt j hj k hp).trans hj) (not_lt.mpr hk)
  · by_cases hkj : k = j
    · rw [hkj, hself, hhold]
    · rw [h.agrees k (hr.num ▸ hk) (hbut hkj)]
      exact (holds_congr (hr.pjq k) (hrunning k hkj) fun q _ => by simp [hr.jqs]).symm
  · rw [hr.jqs] at hk
    obtain ⟨hlt, hq, hkne⟩ := h.mem q k hk
    have hkj : k ≠ j := fun heq => hout q (heq ▸ hk)
    refine ⟨hr.num ▸ hlt, (hr.pjq k).trans hq, ?_⟩
    rcases hr.ejs hkj with heq | ⟨-, hw⟩
    · rwa [heq]
    · simp [hw]
  · rw [hr.jqs] at hk hm
    have hkj : k ≠ j := fun heq => hout q (heq ▸ hk)
    obtain ⟨hsusp, hzero⟩ := h.waiter q k hk hm (hbut hkj)
    have hkids' := hr.unfinishedChildren_zero hzero
    refine ⟨?_, hkids'⟩
    rcases hr.ejs hkj with heq | ⟨-, hw⟩
    · rwa [heq]
    · -- a job that waits for its queue still has a reference
      have hlt := (h.mem q k hk).1
      have hheld : hold k = 1 := by
        rw [h.agrees k hlt (hbut hkj)]
        simp [CScheduler.holds, pendingWakeUps, inState, hsusp, (h.mem q k hk).2.1, hk, hm]
      have hrefs := hb.refs k (hr.num ▸ hlt)
      have hidle := hb.idle k (hr.num ▸ hlt) (.inl hw)
      omega
  · rw [hr.jqs] at hm
    rw [hr.num, hr.pjq]
    exact h.main q m hm
  · have hkj : k ≠ j := by
      rintro rfl
      rw [hr.self] at hrun
      cases hrun
    rw [hr.jqs]
    rw [hr.pjq] at hq
    exact h.executing k (hr.num ▸ hk) ((hrunning k hkj).mp hrun) (hbut hkj) q hq
  · have hkj : k ≠ j := by
      rintro rfl
      rw [hr.self] at hs
      cases hs
    refine hr.pending k hkj hs (h.pending k (hr.num ▸ hk) ?_ (hbut hkj))
    rcases hr.ejs hkj with heq | ⟨-, hw⟩
    · rwa [heq] at hs
    · rw [hw] at hs
      cases hs

end CScheduler

end BossOptimizer
