import BossOptimizer.Search.SchedulerHistory
import BossOptimizer.Search.SchedulerSteps

/-!
# Runs of the scheduler

The history that the scheduler records is lawful, and says what the states of the jobs and queues
are. `but` is a job that has left its queue but has not completed yet.
-/

namespace BossOptimizer

namespace CScheduler

structure Traced (but : Option JobId) (s : CScheduler) : Prop where
  lawful : Lawful s.history
  status : ∀ j, status s.history j = (s.jobs j).ejs
  added : ∀ j p q, .added j p q ∈ s.history ↔
    j < s.ulJobs ∧ (s.jobs j).pjParent = p ∧ (s.jobs j).pjq = q
  notified : ∀ q, .notified q ∈ s.history ↔ (s.jqs q).fCompleted = true
  executed : ∀ j, .executed j ∈ s.history → ∀ q, (s.jobs j).pjq = some q → (s.jqs q).pj = some j
  queued : ∀ j q, .queued j q ∈ s.history →
    (s.jobs j).pjq = some q ∧ (s.jqs q).pj ≠ none ∧ (s.jqs q).pj ≠ some j
  stays : ∀ j q, .queued j q ∈ s.history → but ≠ some j →
    j ∈ (s.jqs q).listjQueued ∨ (s.jobs j).ejs = .EjsCompleted
  waits : ∀ q, ∀ j ∈ (s.jqs q).listjQueued, (s.jqs q).pj ≠ some j → .queued j q ∈ s.history

variable {hold hold' : JobId → ℕ} {foc but but' : Option JobId} {exc : Option QueueId}
  {s s' : CScheduler} {j k m : JobId} {q : QueueId} {e : SchedEvent}

/-- An event that adds no job. -/
theorem Traced.event (h : Traced but s) (hallow : Allowed s.history e)
    (hhist : s'.history = e :: s.history) (hnum : s'.ulJobs = s.ulJobs)
    (hparent : ∀ k, (s'.jobs k).pjParent = (s.jobs k).pjParent)
    (hpjq : ∀ k, (s'.jobs k).pjq = (s.jobs k).pjq)
    (hstatus : ∀ k, (s'.jobs k).ejs = e.apply k (s.jobs k).ejs)
    (hadded : ∀ k p q, e ≠ .added k p q)
    (hnotified : ∀ q, (s'.jqs q).fCompleted = true ↔
      e = .notified q ∨ (s.jqs q).fCompleted = true)
    (hpj : ∀ q, (s.jqs q).pj ≠ none → (s'.jqs q).pj = (s.jqs q).pj)
    (hexecuted : ∀ k, e = .executed k → ∀ q, (s.jobs k).pjq = some q → (s'.jqs q).pj = some k)
    (hqueued : ∀ k q, e = .queued k q →
      (s.jobs k).pjq = some q ∧ (s'.jqs q).pj ≠ none ∧ (s'.jqs q).pj ≠ some k)
    (hstays : ∀ k q, .queued k q ∈ s'.history → but' ≠ some k →
      k ∈ (s'.jqs q).listjQueued ∨ (s'.jobs k).ejs = .EjsCompleted)
    (hwaits : ∀ q, ∀ k ∈ (s'.jqs q).listjQueued, (s'.jqs q).pj ≠ some k →
      k ∈ (s.jqs q).listjQueued ∨ e = .queued k q) : Traced but' s' := by
  refine ⟨hhist ▸ .cons hallow h.lawful, fun k => ?_, fun k p q => ?_, fun q => ?_,
    fun k hk q hq => ?_, fun k q hk => ?_, hstays, fun q k hk hne => ?_⟩
  · rw [hhist, status_cons, h.status, hstatus]
  · rw [hhist, List.mem_cons, h.added, hnum, hparent, hpjq]
    exact or_iff_right (Ne.symm (hadded k p q))
  · rw [hhist, List.mem_cons, h.notified, hnotified]
    exact or_congr_left eq_comm
  · rw [hpjq] at hq
    rw [hhist, List.mem_cons] at hk
    rcases hk with heq | hk
    · exact hexecuted k heq.symm q hq
    · have hmain := h.executed k hk q hq
      rw [hpj q (by simp [hmain]), hmain]
  · rw [hpjq]
    rw [hhist, List.mem_cons] at hk
    rcases hk with heq | hk
    · exact hqueued k q heq.symm
    · obtain ⟨hq, hne, hnk⟩ := h.queued k q hk
      rw [hpj q hne]
      exact ⟨hq, hne, hnk⟩
  · rw [hhist]
    rcases hwaits q k hk hne with hin | heq
    · refine List.mem_cons_of_mem _ (h.waits q k hin fun hm => hne ?_)
      rw [hpj q (by simp [hm]), hm]
    · exact heq ▸ List.mem_cons_self

/-- A change that the history does not see. -/
theorem Traced.congr (h : Traced but s) (hhist : s'.history = s.history)
    (hnum : s'.ulJobs = s.ulJobs) (hparent : ∀ k, (s'.jobs k).pjParent = (s.jobs k).pjParent)
    (hpjq : ∀ k, (s'.jobs k).pjq = (s.jobs k).pjq) (hejs : ∀ k, (s'.jobs k).ejs = (s.jobs k).ejs)
    (hcompleted : ∀ q, (s'.jqs q).fCompleted = (s.jqs q).fCompleted)
    (hpj : ∀ q, (s.jqs q).pj ≠ none → (s'.jqs q).pj = (s.jqs q).pj)
    (hlist : ∀ q k, but' ≠ some k → k ∈ (s.jqs q).listjQueued → k ∈ (s'.jqs q).listjQueued)
    (hsub : ∀ q, ∀ k ∈ (s'.jqs q).listjQueued, k ∈ (s.jqs q).listjQueued)
    (hbut : but = none ∨ but = but') : Traced but' s' := by
  refine ⟨hhist ▸ h.lawful, fun k => ?_, fun k p q => ?_, fun q => ?_, fun k hk q hq => ?_,
    fun k q hk => ?_, fun k q hk hne => ?_, fun q k hk hne => ?_⟩
  · rw [hhist, h.status, hejs]
  · rw [hhist, h.added, hnum, hparent, hpjq]
  · rw [hhist, h.notified, hcompleted]
  · rw [hpjq] at hq
    have hmain := h.executed k (hhist ▸ hk) q hq
    rw [hpj q (by simp [hmain]), hmain]
  · obtain ⟨hq, hpjne, hnk⟩ := h.queued k q (hhist ▸ hk)
    rw [hpjq, hpj q hpjne]
    exact ⟨hq, hpjne, hnk⟩
  · rw [hejs]
    refine (h.stays k q (hhist ▸ hk) ?_).imp_left (hlist q k hne)
    rcases hbut with rfl | rfl
    · simp
    · exact hne
  · refine hhist ▸ h.waits q k (hsub q k hk) fun hm => hne ?_
    rw [hpj q (by simp [hm]), hm]

/-- A job that no event mentions as waiting is not needed as an exception. -/
theorem Traced.settle (h : Traced (some m) s) (hm : ∀ q, .queued m q ∉ s.history) :
    Traced none s := by
  refine ⟨h.lawful, h.status, h.added, h.notified, h.executed, h.queued, fun k q hk _ => ?_,
    h.waits⟩
  refine h.stays k q hk fun heq => hm q ?_
  obtain rfl : m = k := by simpa using heq
  exact hk

/-- A job that runs its own code has not waited for its queue. -/
theorem Traced.never_queued (h : Traced but s) (hq : ∀ q, (s.jobs j).pjq = some q →
    (s.jqs q).pj = none ∨ (s.jqs q).pj = some j) (r : QueueId) : .queued j r ∉ s.history := by
  intro hin
  obtain ⟨hpjq, hne, hnj⟩ := h.queued j r hin
  exact (hq r hpjq).elim hne hnj

/-! ## A job completes -/

/-- **The parent of a job that completes** is resumed when no child is left. -/
theorem Traced.retire (h : Traced but s) (hr : Retired s s' j e)
    (he : e = .completed j ∨ e = .completedQueued j) (hallow : Allowed s.history e)
    (hbut : but = none ∨ but = some j) (hinv : SchedInv hold none none exc s') (hj : j < s.ulJobs) :
    Traced none s' := by
  have heff : ∀ k, e.apply k (s.jobs k).ejs = if k = j then .EjsCompleted else (s.jobs k).ejs := by
    intro k
    by_cases hk : k = j
    · rcases he with rfl | rfl <;> simp [SchedEvent.apply, SchedEvent.effect, hk]
    · rcases he with rfl | rfl <;> simp [SchedEvent.apply, SchedEvent.effect, hk, Ne.symm hk]
  have hstays : ∀ k q, .queued k q ∈ s.history →
      k ∈ (s'.jqs q).listjQueued ∨ (s'.jobs k).ejs = .EjsCompleted := by
    intro k q hk
    by_cases hkj : k = j
    · exact .inr (hkj ▸ hr.self)
    · have hst := h.stays k q hk (by rcases hbut with rfl | rfl <;> simp [Ne.symm hkj])
      rw [hr.jqs]
      refine hst.imp_right fun hc => ?_
      rcases hr.ejs hkj with heq | ⟨hs, -⟩
      · rw [heq, hc]
      · rw [hc] at hs
        cases hs
  have hnotqueued : ∀ k q, e ≠ .queued k q := by rcases he with rfl | rfl <;> simp
  have hnotexecuted : ∀ k, e ≠ .executed k := by rcases he with rfl | rfl <;> simp
  have hnotnotified : ∀ q, e ≠ .notified q := by rcases he with rfl | rfl <;> simp
  have hnotadded : ∀ k p q, e ≠ .added k p q := by rcases he with rfl | rfl <;> simp
  rcases hr.outcome with ⟨hhist, hsame⟩ | ⟨p, hp, hpj, hhist, hsusp, hwait, hsame⟩
  · refine h.event hallow hhist hr.num hr.parent hr.pjq (fun k => ?_) hnotadded
      (fun q => by simp [hr.jqs, hnotnotified q]) (fun q _ => by rw [hr.jqs])
      (fun k hk => absurd hk (hnotexecuted k)) (fun k q hk => absurd hk (hnotqueued k q))
      (fun k q hk _ => hstays k q ?_) fun q k hk _ => .inl (hr.jqs ▸ hk)
    · rw [heff]
      by_cases hk : k = j
      · simp [hk, hr.self]
      · simp [hk, hsame k hk]
    · rw [hhist] at hk
      exact (List.mem_cons.mp hk).resolve_left (Ne.symm (hnotqueued k q))
  · -- the completion first, as a state of its own
    have hmid : Traced none { s' with
        history := e :: s.history
        jobs := fun k => { s'.jobs k with ejs := e.apply k (s.jobs k).ejs } } := by
      refine h.event hallow rfl hr.num hr.parent hr.pjq (fun k => rfl) hnotadded
        (fun q => by simp [hr.jqs, hnotnotified q]) (fun q _ => by simp [hr.jqs])
        (fun k hk => absurd hk (hnotexecuted k)) (fun k q hk => absurd hk (hnotqueued k q))
        (fun k q hk _ => ?_) fun q k hk _ => .inl (hr.jqs ▸ hk)
      have hk' := (List.mem_cons.mp hk).resolve_left (Ne.symm (hnotqueued k q))
      refine (hstays k q hk').imp_right fun hc => ?_
      by_cases hkj : k = j
      · simp [heff, hkj]
      · rcases hr.ejs hkj with heq | ⟨-, hw⟩
        · simp only [heff, if_neg hkj]
          rw [← heq, hc]
        · rw [hc] at hw
          cases hw
    have hplt : p < s'.ulJobs := by
      rw [hr.num]
      have hjp : (s'.jobs j).pjParent = some p := (hr.parent j).trans hp
      have hlt := hinv.balanced.parent_lt j (hr.num ▸ hj) p hjp
      exact hlt.trans hj
    have hkids : s'.unfinishedChildren p = 0 := by
      have hrefs := hinv.balanced.refs p hplt
      have hidle := hinv.balanced.idle p hplt (.inl hwait)
      omega
    have hejs : ∀ k, (s'.jobs k).ejs =
        SchedEvent.apply (.resumed p j) k (e.apply k (s.jobs k).ejs) := by
      intro k
      rw [heff]
      by_cases hkp : k = p
      · subst hkp
        simp [SchedEvent.apply, SchedEvent.effect, hwait]
      · by_cases hkj : k = j
        · subst hkj
          simp [SchedEvent.apply, SchedEvent.effect, Ne.symm hkp, hr.self]
        · simp [SchedEvent.apply, SchedEvent.effect, Ne.symm hkp, hkj, hsame k hkj hkp]
    refine hmid.event ?_ hhist rfl (fun _ => rfl) (fun _ => rfl) hejs (by simp) (by simp)
      (fun _ _ => rfl) (by simp) (by simp) (fun k q hk _ => ?_) fun _ _ hk _ => .inl hk
    · refine .resumed p j ?_ ?_ ?_ (fun c r hc => ?_) (fun q hq => ?_)
      · have hst := hmid.status p
        simp only at hst
        rw [hst, heff, if_neg hpj, hsusp]
      · rcases he with rfl | rfl <;> simp
      · exact ⟨(s.jobs j).pjq, List.mem_cons_of_mem _ ((h.added j _ _).mpr ⟨hj, hp, rfl⟩)⟩
      · -- no child is left
        obtain ⟨hclt, hcp, -⟩ := (hmid.added c (some p) r).mp hc
        refine done_of_status ((hmid.status c).trans ?_)
        have hzero := tally_eq_zero.mp hkids c hclt
        have hcp' : (s'.jobs c).pjParent = some p := hcp
        simp only [hcp', true_and, decide_eq_false_iff_not, not_not] at hzero
        have hce := hejs c
        rw [hzero] at hce
        by_cases hc : c = p
        · subst hc
          rw [hwait] at hzero
          cases hzero
        · have hcp'' : SchedEvent.apply (.resumed p j) c (e.apply c (s.jobs c).ejs) =
              e.apply c (s.jobs c).ejs := by
            simp [SchedEvent.apply, SchedEvent.effect, Ne.symm hc]
          rw [hcp''] at hce
          exact hce.symm
      · -- a job that waits for its queue keeps a reference
        have hq' := (List.mem_cons.mp hq).resolve_left (Ne.symm (hnotqueued p q))
        obtain ⟨-, -, hnp⟩ := h.queued p q hq'
        rcases hstays p q hq' with hin | hc
        · have hpjq : (s'.jqs q).pj ≠ some p := by rw [hr.jqs]; exact hnp
          have := (hinv.waiter q p hin hpjq (by simp)).1
          rw [hwait] at this
          cases this
        · rw [hwait] at hc
          cases hc
    · rw [hhist] at hk
      have hk' := (List.mem_cons.mp hk).resolve_left (by simp)
      exact hstays k q ((List.mem_cons.mp hk').resolve_left (Ne.symm (hnotqueued k q)))

/-! ## Each step records what it does -/

/-- One job moves to another state. -/
theorem Traced.move {job : CJob} (h : Traced none s) (hc : Changed s s' j job)
    (hpjq : job.pjq = (s.jobs j).pjq) (heff : e.effect = some (j, job.ejs))
    (hallow : Allowed s.history e) (hhist : s'.history = e :: s.history) (hjqs : s'.jqs = s.jqs)
    (hadded : ∀ k p q, e ≠ .added k p q) : Traced none s' := by
  have hejs : ∀ k, (s'.jobs k).ejs = e.apply k (s.jobs k).ejs := by
    intro k
    by_cases hk : k = j
    · simp [hc.jobs, hk, SchedEvent.apply, heff]
    · simp [hc.jobs, hk, SchedEvent.apply, heff, Ne.symm hk]
  have hqueued : ∀ k q, e ≠ .queued k q := by
    rintro k q rfl
    simp [SchedEvent.effect] at heff
  refine h.event hallow hhist hc.num (fun k => ?_) (fun k => ?_) hejs hadded (fun q => ?_)
    (fun q _ => by rw [hjqs]) (fun k hk => ?_) (fun k q hk => absurd hk (hqueued k q))
    (fun k q hk _ => ?_) fun q k hk _ => .inl (hjqs ▸ hk)
  · by_cases hk : k = j <;> simp [hc.jobs, hk, hc.parent]
  · by_cases hk : k = j <;> simp [hc.jobs, hk, hpjq]
  · rw [hjqs]
    refine (or_iff_right ?_).symm
    rintro rfl
    simp [SchedEvent.effect] at heff
  · subst hk
    simp [SchedEvent.effect] at heff
  · rw [hhist] at hk
    rw [hjqs]
    have hold := h.stays k q ((List.mem_cons.mp hk).resolve_left (Ne.symm (hqueued k q))) (by simp)
    refine hold.imp_right fun hdone => ?_
    by_cases hkj : k = j
    · rw [hkj] at hdone
      exact absurd hdone hc.old
    · rwa [hc.jobs, if_neg hkj]

theorem Traced.started (h : Traced none s) (hj : (s.jobs j).ejs = .EjsWaiting) :
    Traced none ((s.Dequeue j).PreExecute j) :=
  h.move (changed_start s (by simp [hj])) rfl rfl (.started j ((h.status j).trans hj)) rfl rfl
    (by simp)

/-- The job's own code starts. -/
theorem Traced.execute (h : Traced none s) (hrun : (s.jobs j).ejs = .EjsRunning)
    (hnum : s'.ulJobs = s.ulJobs) (hhist : s'.history = .executed j :: s.history)
    (hparent : ∀ k, (s'.jobs k).pjParent = (s.jobs k).pjParent)
    (hpjq : ∀ k, (s'.jobs k).pjq = (s.jobs k).pjq) (hejs : ∀ k, (s'.jobs k).ejs = (s.jobs k).ejs)
    (hcompleted : ∀ q, (s'.jqs q).fCompleted = (s.jqs q).fCompleted)
    (hpj : ∀ q, (s.jqs q).pj ≠ none → (s'.jqs q).pj = (s.jqs q).pj)
    (hlist : ∀ q, ∀ k ∈ (s.jqs q).listjQueued, k ∈ (s'.jqs q).listjQueued)
    (hnew : ∀ q, ∀ k ∈ (s'.jqs q).listjQueued, (s'.jqs q).pj ≠ some k → k ∈ (s.jqs q).listjQueued)
    (hmain : ∀ q, (s.jobs j).pjq = some q → (s.jqs q).fCompleted = false ∧
      (s'.jqs q).pj = some j) : Traced none s' := by
  refine h.event (.executed j ((h.status j).trans hrun) (fun p q hin hnot => ?_) ?_) hhist hnum
    hparent hpjq hejs (by simp) (by simp [hcompleted]) hpj
    (fun k hk q hq => ?_) (by simp) (fun k q hk _ => ?_) fun q k hk hne => .inl (hnew q k hk hne)
  · have hq := ((h.added j p _).mp hin).2.2
    have hopen := (hmain q hq).1
    rw [h.notified, hopen] at hnot
    cases hnot
  · refine h.never_queued fun q hq => ?_
    by_cases hnone : (s.jqs q).pj = none
    · exact .inl hnone
    · exact .inr ((hpj q hnone).symm.trans (hmain q hq).2)
  · obtain rfl : j = k := by simpa using hk
    exact (hmain q hq).2
  · rw [hhist] at hk
    rw [hejs]
    exact (h.stays k q ((List.mem_cons.mp hk).resolve_left (by simp)) (by simp)).imp_left
      (hlist q k)

/-- The counters that `EjrPostExecute` changes are not in the history. -/
theorem Traced.postExecute (h : Traced none s) (fCompleted : Bool) :
    Traced none (s.EjrPostExecute j fCompleted).2 := by
  rw [EjrPostExecute_snd]
  refine h.congr rfl rfl (fun k => ?_) (fun k => ?_) (fun k => ?_) (fun _ => rfl) (fun _ _ => rfl)
    (fun _ _ _ hin => hin) (fun _ _ hin => hin) (.inl rfl) <;>
  by_cases hk : k = j <;> simp [UlpDecrRefs, hk]

/-- **A job that has not completed** is recorded as suspended or as run again. -/
theorem Traced.processNotCompleted (h : Traced none s) (hrun : (s.jobs j).ejs = .EjsRunning) :
    Traced none (s.ProcessJobResult j false) := by
  have hpost := h.postExecute (j := j) false
  have hself : ((s.EjrPostExecute j false).2.jobs j).ejs = .EjsRunning := by
    have hc := changed_postExecute s (show (s.jobs j).ejs ≠ .EjsCompleted by simp [hrun]) false
    rw [hc.jobs, if_pos rfl]
    exact hrun
  have hne : ((s.EjrPostExecute j false).2.jobs j).ejs ≠ .EjsCompleted := by simp [hself]
  have hstatus := (hpost.status j).trans hself
  by_cases hone : (s.jobs j).ulpRefs = 1
  · rw [ProcessJobResult_rerun hone]
    have hcs := changed_schedule ((s.EjrPostExecute j false).2.record (.rerun j)) hne
    exact hpost.move ⟨hcs.jobs, hcs.num, hcs.parent, hcs.old, hcs.new⟩ rfl rfl (.rerun j hstatus)
      rfl rfl (by simp)
  · rw [ProcessJobResult_suspend hone]
    exact hpost.move (changed_suspend _ hne) rfl rfl (.suspended j hstatus) rfl rfl (by simp)

/-- **A running job that is done** is recorded as completed. -/
theorem Traced.processCompleted (h : Traced none s)
    (hinv : SchedInv hold none (some j) exc s) (hj : j < s.ulJobs)
    (hrun : (s.jobs j).ejs = .EjsRunning) (hn : hold j = 1) (hkids : s.unfinishedChildren j = 0)
    (hout : ∀ q, j ∉ (s.jqs q).listjQueued) : Traced none (s.ProcessJobResult j true) := by
  have hdone := hinv.processCompleted hj hrun hn hkids hout
  have hpost := hinv.postExecute hj hn hrun true
  have hc := changed_postExecute s (show (s.jobs j).ejs ≠ .EjsCompleted by simp [hrun]) true
  have htr := h.postExecute (j := j) true
  have hself : ((s.EjrPostExecute j true).2.jobs j).ejs = .EjsRunning := by
    rw [hc.jobs, if_pos rfl]
    exact hrun
  have hjqs : (s.EjrPostExecute j true).2.jqs = s.jqs := by
    rw [EjrPostExecute_snd]
    rfl
  rw [ProcessJobResult_true, Complete_eq] at hdone ⊢
  have hret := hpost.balanced.retired (hc.num ▸ hj) (.inl rfl) (.completed j) (by simp [hself])
  refine htr.retire hret (.inl rfl) (.completed j ((htr.status j).trans hself) fun q hq => ?_)
    (.inl rfl) hdone (hc.num ▸ hj)
  rcases htr.stays j q hq (by simp) with hin | hcomp
  · rw [hjqs] at hin
    exact hout q hin
  · rw [hself] at hcomp
    cases hcomp

/-- **A job starts.** -/
theorem Traced.startJob (h : Traced none s) (hrest : AtRest s) (hj : j ∈ s.listjlWaiting) :
    Traced none (s.startJob j) := by
  have hst := hrest.started hj
  have htr := h.started ((hrest.balanced.mem_waiting j).mp hj).2
  unfold CScheduler.startJob
  generalize (s.Dequeue j).PreExecute j = s₁ at hst htr ⊢
  obtain ⟨hinv, hlt, hrun, hheld, hkids, hout⟩ := hst
  have hbegun := hinv.begun hout
  rcases hb : s₁.FExecuteBegin j with ⟨r, s₂⟩
  rw [hb] at hbegun
  simp only at hbegun ⊢
  have hincr : ∀ (s : CScheduler) (k : JobId), ((s.IncRefs j).jobs k).ejs = (s.jobs k).ejs ∧
      ((s.IncRefs j).jobs k).pjq = (s.jobs k).pjq ∧
      ((s.IncRefs j).jobs k).pjParent = (s.jobs k).pjParent := by
    intro s k
    by_cases hk : k = j <;> simp [IncRefs, hk]
  cases hbegun with
  | noQueue hq =>
    exact htr.execute hrun rfl rfl (fun _ => rfl) (fun _ => rfl) (fun _ => rfl) (fun _ => rfl)
      (fun _ _ => rfl) (fun _ _ hk => hk) (fun _ _ hk _ => hk) (by simp [hq])
  | main q hq hopen hpj =>
    refine htr.execute hrun rfl rfl (fun k => (hincr s₁ k).2.2) (fun k => (hincr s₁ k).2.1)
      (fun k => (hincr s₁ k).1) (fun _ => rfl) (fun _ _ => rfl) (fun _ _ hk => hk) (fun _ _ hk _ => hk)
      fun r hr => ?_
    obtain rfl : q = r := by simpa [hq] using hr
    exact ⟨hopen, hpj⟩
  | first q hq hopen hpj hlist =>
    refine htr.execute hrun rfl rfl (fun k => (hincr _ k).2.2) (fun k => (hincr _ k).2.1)
      (fun k => (hincr _ k).1) (fun r => ?_) (fun r hr => ?_) (fun r k hk => ?_)
      (fun r k hk hne => ?_) fun r hr => ?_
    · by_cases hrq : r = q <;> simp [IncRefs, enqueue, hrq]
    · have hrq : r ≠ q := fun heq => hr (heq ▸ hpj)
      simp [IncRefs, enqueue, hrq]
    · by_cases hrq : r = q
      · subst hrq
        simp [hlist] at hk
      · simpa [IncRefs, enqueue, hrq] using hk
    · by_cases hrq : r = q
      · subst hrq
        have hkj : k = j := by simpa [IncRefs, enqueue, hlist] using hk
        simp [IncRefs, enqueue, hkj] at hne
      · simpa [IncRefs, enqueue, hrq] using hk
    · obtain rfl : q = r := by simpa [hq] using hr
      exact ⟨hopen, by simp [IncRefs, enqueue]⟩
  | queued q m hq hopen hpj hmj hnotin =>
    have hqueued : Traced none (((s₁.enqueue q j (some m)).IncRefs j).record (.queued j q)) := by
      have hpjs : ∀ r, ((((s₁.enqueue q j (some m)).IncRefs j).record (.queued j q)).jqs r).pj =
          (s₁.jqs r).pj := by
        intro r
        by_cases hrq : r = q
        · subst hrq
          simp [IncRefs, enqueue, hpj]
        · simp [IncRefs, enqueue, hrq]
      have hnever : ∀ r, .queued j r ∉ s₁.history := by
        intro r hr
        obtain ⟨hqr, -, hne⟩ := htr.queued j r hr
        obtain rfl : q = r := by simpa [hq] using hqr
        rcases htr.stays j q hr (by simp) with hin | hcomp
        · exact hnotin hin
        · rw [hrun] at hcomp
          cases hcomp
      refine htr.event (.queued j q ((htr.status j).trans hrun) ?_ (fun hex => ?_) hnever) rfl rfl
        (fun k => (hincr _ k).2.2) (fun k => (hincr _ k).2.1) (fun k => (hincr _ k).1) (by simp)
        (fun r => ?_) (fun r _ => hpjs r) (by simp) (fun k r hk => ?_) (fun k r hk _ => ?_)
        (fun r k hk _ => ?_)
      · rw [htr.notified, hopen]
        simp
      · have hmain := htr.executed j hex q hq
        rw [hpj] at hmain
        exact hmj (by simpa using hmain)
      · by_cases hrq : r = q <;> simp [IncRefs, enqueue, hrq]
      · obtain ⟨rfl, rfl⟩ : j = k ∧ q = r := by simpa using hk
        rw [hpjs, hpj]
        exact ⟨hq, by simp, by simpa using hmj⟩
      · have hejs : ((((s₁.enqueue q j (some m)).IncRefs j).record (.queued j q)).jobs k).ejs =
            (s₁.jobs k).ejs := (hincr _ k).1
        rw [hejs]
        rcases List.mem_cons.mp hk with heq | hk
        · obtain ⟨rfl, rfl⟩ : k = j ∧ r = q := by simpa using heq
          exact .inl (by simp [IncRefs, enqueue])
        · refine (htr.stays k r hk (by simp)).imp_left fun hin => ?_
          by_cases hrq : r = q
          · subst hrq
            simpa [IncRefs, enqueue] using Or.inl hin
          · simpa [IncRefs, enqueue, hrq] using hin
      · by_cases hrq : r = q
        · subst hrq
          have hk' : k ∈ (s₁.jqs r).listjQueued ∨ k = j := by simpa [IncRefs, enqueue] using hk
          exact hk'.imp_right fun heq => by rw [heq]
        · exact .inl (by simpa [IncRefs, enqueue, hrq] using hk)
    refine hqueued.processNotCompleted ?_
    exact (hincr _ j).1.trans hrun
  | completed q hq hdone =>
    refine htr.processCompleted hinv hlt hrun hheld hkids (hinv.notMem_of_done fun r hr => ?_)
    obtain rfl : q = r := by simpa [hq] using hr
    exact hdone

/-! ## A completed queue, and the job's own code that returns -/

theorem Traced.popQueued (h : Traced none s) {rest : List JobId}
    (hlist : (s.jqs q).listjQueued = j :: rest) : Traced (some j) (s.popQueued q j rest) := by
  refine h.congr rfl rfl (fun k => ?_) (fun k => ?_) (fun k => ?_) (fun r => ?_) (fun r _ => ?_)
    (fun r k hk hin => ?_) (fun r k hk => ?_) (.inl rfl)
  · by_cases hk : k = j <;> simp [popQueued_jobs, hk]
  · by_cases hk : k = j <;> simp [popQueued_jobs, hk]
  · by_cases hk : k = j <;> simp [popQueued_jobs, hk]
  · by_cases hr : r = q <;> simp [popQueued_jqs, hr]
  · by_cases hr : r = q <;> simp [popQueued_jqs, hr]
  · have hkj : k ≠ j := fun heq => hk (by rw [heq])
    by_cases hr : r = q
    · subst hr
      simpa [hlist, hkj, popQueued_jqs] using hin
    · simpa [popQueued_jqs, hr] using hin
  · by_cases hr : r = q
    · subst hr
      rw [hlist]
      exact List.mem_cons_of_mem _ (by simpa [popQueued_jqs] using hk)
    · simpa [popQueued_jqs, hr] using hk

/-- **Every job that waits is recorded as completed** with the queue. -/
theorem Traced.notifyQueued {l : List JobId} (h : Traced none s) (hn : Notifying hold q m s)
    (hlist : (s.jqs q).listjQueued = l) : Traced none (notifyQueued q l s) := by
  induction l generalizing s hold with
  | nil => exact h
  | cons j rest ih =>
    rw [notifyQueued_cons]
    have hpop := h.popQueued hlist
    by_cases hjm : j = m
    · subst hjm
      obtain ⟨hne, hnext⟩ := hn.own hlist
      rw [if_neg hne]
      refine ih (hpop.settle fun r hr => ?_) hnext (by simp [popQueued_jqs])
      obtain ⟨hpjq, -, hnj⟩ := hpop.queued j r hr
      have hrq : some q = some r := by
        rw [← hpjq]
        exact (hnext.inv.main q j hnext.pj).2.symm
      obtain rfl : q = r := by simpa using hrq
      exact hnj hnext.pj
    · obtain ⟨hone, hret, hnext⟩ := hn.wake hlist hjm
      rw [if_pos hone]
      have hin : j ∈ (s.jqs q).listjQueued := by simp [hlist]
      have hpj : (s.jqs q).pj ≠ some j := by simpa [hn.pj] using Ne.symm hjm
      obtain ⟨hlt, -, -⟩ := hn.inv.mem q j hin
      have hsusp : ((s.popQueued q j rest).jobs j).ejs = .EjsSuspended := by
        simpa [popQueued_jobs] using (hn.inv.waiter q j hin hpj (by simp)).1
      have hallow : Allowed (s.popQueued q j rest).history (.completedQueued j) :=
        .completedQueued j q ((hpop.status j).trans hsusp) (h.waits q j hin hpj)
          ((h.notified q).mpr hn.done)
      exact ih (hpop.retire hret (.inr rfl) hallow (.inr rfl) hnext.inv hlt) hnext
        (by simp [hret.jqs, popQueued_jqs])

theorem Traced.notifyCompleted (h : Traced none s) (hrest : AtRest s) (hj : j < s.ulJobs)
    (hrun : (s.jobs j).ejs = .EjsRunning) (hq : (s.jobs j).pjq = some q)
    (hkids : s.unfinishedChildren j = 0) : Traced none (s.NotifyCompleted q) := by
  have hopen := (hrest.holds_running hj hrun hq).2.2
  refine Traced.notifyQueued ?_ (hrest.notifying hj hrun hq hkids) rfl
  refine h.event (.notified q fun hin => ?_) rfl rfl (fun _ => rfl) (fun _ => rfl)
    (fun k => rfl) (by simp) (fun r => ?_) (fun r _ => ?_) (by simp) (by simp)
    (fun k r hk _ => ?_) (fun r k hk _ => ?_)
  · rw [h.notified, hopen] at hin
    cases hin
  · by_cases hr : r = q
    · subst hr
      simp
    · simp [hr, Ne.symm hr]
  · by_cases hr : r = q <;> simp [hr]
  · refine (h.stays k r ((List.mem_cons.mp hk).resolve_left (by simp)) (by simp)).imp_left
      fun hin => ?_
    by_cases hr : r = q
    · subst hr
      simpa using hin
    · simpa [hr] using hin
  · by_cases hr : r = q
    · subst hr
      exact .inl (by simpa using hk)
    · exact .inl (by simpa [hr] using hk)

/-- **A job's own code returns.** -/
theorem Traced.finishJob (h : Traced none s) (hrest : AtRest s) (hj : j < s.ulJobs)
    (hrun : (s.jobs j).ejs = .EjsRunning) {fCompleted : Bool}
    (hdone : fCompleted = true → s.unfinishedChildren j = 0) :
    Traced none (s.finishJob j fCompleted) := by
  unfold CScheduler.finishJob FExecuteEnd
  cases hq : (s.jobs j).pjq with
  | none =>
    cases fCompleted with
    | true =>
      exact h.processCompleted (hrest.weaken (some j)) hj hrun (AtRest.holds_noQueue hrun hq)
        (hdone rfl) fun q => hrest.notMem_of_ne (by simp [hq])
    | false => exact h.processNotCompleted hrun
  | some q =>
    cases fCompleted with
    | true =>
      obtain ⟨hold', hnot, hnil⟩ := hrest.notifyCompleted hj hrun hq (hdone rfl)
      obtain ⟨hheld, hout⟩ := hnot.drained hnil
      exact (h.notifyCompleted hrest hj hrun hq (hdone rfl)).processCompleted
        (hnot.inv.weaken (some j)) hnot.lt hnot.run hheld hnot.kids hout
    | false =>
      have hdec : Traced none (s.UlpDecrRefs j).2 := by
        refine h.congr rfl rfl (fun k => ?_) (fun k => ?_) (fun k => ?_) (fun _ => rfl)
          (fun _ _ => rfl) (fun _ _ _ hin => hin) (fun _ _ hin => hin) (.inl rfl) <;>
        by_cases hk : k = j <;> simp [UlpDecrRefs, hk]
      exact hdec.processNotCompleted (by simpa [UlpDecrRefs] using hrun)

theorem ScheduleJob_history (s : CScheduler) (pjq : Option QueueId) (pjParent : Option JobId)
    (hparent : ∀ p, pjParent = some p → p < s.ulJobs) :
    (s.ScheduleJob pjq pjParent).history = .added s.ulJobs pjParent pjq :: s.history := by
  cases pjParent with
  | none => simp [ScheduleJob, PjCreate, Add, Schedule, SetState, CScheduler.record]
  | some p =>
    have hne : s.ulJobs ≠ p := (hparent p rfl).ne'
    simp [ScheduleJob, PjCreate, Add, Schedule, SetState, CScheduler.record, IncRefs, hne]

/-- **A job is added.** -/
theorem Traced.scheduleJob (h : Traced none s) (hrest : AtRest s) (pjq : Option QueueId)
    (pjParent : Option JobId)
    (hparent : ∀ p, pjParent = some p → p < s.ulJobs ∧ (s.jobs p).ejs = .EjsRunning) :
    Traced none (s.ScheduleJob pjq pjParent) := by
  have hlt : ∀ p, pjParent = some p → p < s.ulJobs := fun p hp => (hparent p hp).1
  have hhist := ScheduleJob_history s pjq pjParent hlt
  have hnum := ScheduleJob_ulJobs s pjq pjParent
  have hjqs := ScheduleJob_jqs s pjq pjParent
  have hself := ScheduleJob_self s pjq hlt
  have hother := @ScheduleJob_other s pjq pjParent hlt
  have hreset := hrest.fresh s.ulJobs le_rfl
  have hold : ∀ {k r}, .queued k r ∈ (s.ScheduleJob pjq pjParent).history →
      .queued k r ∈ s.history := by
    intro k r hk
    rw [hhist] at hk
    exact (List.mem_cons.mp hk).resolve_left (by simp)
  have hne_of_queue : ∀ {k r}, (s.jobs k).pjq = some r → k ≠ s.ulJobs := by
    rintro k r hq rfl
    rw [hreset] at hq
    cases hq
  refine ⟨hhist ▸ .cons (.added _ _ _ ?_) h.lawful, fun k => ?_, fun k p q => ?_, fun q => ?_,
    fun k hk q hq => ?_, fun k q hk => ?_, fun k q hk _ => ?_, fun q k hk hne => ?_⟩
  · rw [h.status, hreset]
    rfl
  · rw [hhist, status_cons, h.status]
    by_cases hk : k = s.ulJobs
    · simp [hk, hself, SchedEvent.apply, SchedEvent.effect]
    · rw [(hother hk).1]
      simp [SchedEvent.apply, SchedEvent.effect, Ne.symm hk]
  · rw [hhist, List.mem_cons, h.added, hnum]
    by_cases hk : k = s.ulJobs
    · subst hk
      simp [hself, eq_comm]
    · obtain ⟨-, hpar, hpjq, -⟩ := hother hk
      have hklt : k < s.ulJobs + 1 ↔ k < s.ulJobs :=
        ⟨fun hk' => lt_of_le_of_ne (Nat.le_of_lt_succ hk') hk, Nat.lt_succ_of_lt⟩
      simp [hk, hpar, hpjq, hklt]
  · rw [hhist, hjqs, List.mem_cons, h.notified]
    simp
  · rw [hhist] at hk
    have hk' := (List.mem_cons.mp hk).resolve_left (by simp)
    rw [hjqs]
    by_cases hks : k = s.ulJobs
    · have hinit := h.lawful.executed_status hk'
      rw [h.status, hks, hreset] at hinit
      exact absurd rfl hinit
    · exact h.executed k hk' q ((hother hks).2.2.1 ▸ hq)
  · obtain ⟨hq, hpj⟩ := h.queued k q (hold hk)
    rw [hjqs, (hother (hne_of_queue hq)).2.2.1]
    exact ⟨hq, hpj⟩
  · have hq := (h.queued k q (hold hk)).1
    rw [hjqs, (hother (hne_of_queue hq)).1]
    exact h.stays k q (hold hk) (by simp)
  · rw [hjqs] at hk hne
    rw [hhist]
    exact List.mem_cons_of_mem _ (h.waits q k hk hne)

theorem traced_init : Traced none init := by
  refine ⟨.nil, ?_, ?_, ?_, ?_, ?_, ?_, ?_⟩ <;> simp [init, CJob.Reset]

theorem Step.traced (hstep : Step s s') (hrest : AtRest s) (h : Traced none s) :
    Traced none s' := by
  cases hstep with
  | add pjq pjParent hparent => exact h.scheduleJob hrest pjq pjParent hparent
  | start pj hpj => exact h.startJob hrest hpj
  | finish pj fCompleted hpj hrun hdone => exact h.finishJob hrest hpj hrun hdone

/-- **The history is lawful in every state that a run reaches.** -/
theorem Reachable.traced (h : Reachable s) : Traced none s := by
  induction h with
  | init => exact traced_init
  | step h hstep ih => exact hstep.traced h.atRest ih

end CScheduler

end BossOptimizer
