import BossOptimizer.Search.SchedulerQueues

/-!
# The steps of the scheduler

What `FExecute` does before a job's own code runs, what `NotifyCompleted` does to the jobs that
wait, and that each step leads from a state at rest to a state at rest.
-/

namespace BossOptimizer

namespace CScheduler

variable {hold hold' : JobId → ℕ} {foc but : Option JobId} {exc : Option QueueId}
  {s s' : CScheduler} {j k m : JobId} {q : QueueId}

theorem setQueue_congr (s : CScheduler) (q : QueueId) {f g : CJobQueue → CJobQueue}
    (h : f (s.jqs q) = g (s.jqs q)) : s.setQueue q f = s.setQueue q g := by
  unfold setQueue
  rw [h]

theorem setQueue_setQueue (s : CScheduler) (q : QueueId) (f g : CJobQueue → CJobQueue) :
    (s.setQueue q f).setQueue q g = s.setQueue q (g ∘ f) := by
  simp [setQueue]

/-- `j` joins the list of `q`, whose main job is now `pj'`. -/
def enqueue (s : CScheduler) (q : QueueId) (j : JobId) (pj' : Option JobId) : CScheduler :=
  s.setQueue q fun c => { c with pj := pj', listjQueued := c.listjQueued ++ [j] }

theorem EjqrAdd_completed (h : (s.jqs q).fCompleted = true) :
    s.EjqrAdd q j = (.EjqrCompleted, s) := by
  simp [EjqrAdd, h]

theorem EjqrAdd_main (h : (s.jqs q).fCompleted = false) (hpj : (s.jqs q).pj = some j) :
    s.EjqrAdd q j = (.EjqrMain, s.IncRefs j) := by
  simp [EjqrAdd, h, hpj]

theorem EjqrAdd_first (h : (s.jqs q).fCompleted = false) (hpj : (s.jqs q).pj = none)
    (hlist : (s.jqs q).listjQueued = []) :
    s.EjqrAdd q j = (.EjqrMain, (s.enqueue q j (some j)).IncRefs j) := by
  have hhead : ((s.setQueue q fun c =>
      { c with listjQueued := c.listjQueued ++ [j] }).jqs q).listjQueued.head? = some j := by
    simp [hlist]
  have hne : (s.jqs q).pj ≠ some j := by simp [hpj]
  unfold EjqrAdd
  rw [if_neg (by simp [h]), if_neg hne]
  simp only [hhead, if_true, setQueue_setQueue]
  rfl

theorem EjqrAdd_queued (h : (s.jqs q).fCompleted = false) (hpj : (s.jqs q).pj = some m)
    (hmj : m ≠ j) (hlist : (s.jqs q).listjQueued.head? ≠ none)
    (hnotin : j ∉ (s.jqs q).listjQueued) :
    s.EjqrAdd q j = (.EjqrQueued, (s.enqueue q j (some m)).IncRefs j) := by
  have hhead : ((s.setQueue q fun c =>
      { c with listjQueued := c.listjQueued ++ [j] }).jqs q).listjQueued.head? ≠ some j := by
    cases hl : (s.jqs q).listjQueued with
    | nil => simp [hl] at hlist
    | cons a rest =>
      rw [hl] at hnotin
      simpa [hl] using fun ha : a = j => hnotin (by simp [ha])
  have hne : (s.jqs q).pj ≠ some j := by simpa [hpj] using hmj
  unfold EjqrAdd
  rw [if_neg (by simp [h]), if_neg hne]
  simp only [hhead, if_false, enqueue]
  rw [setQueue_congr s q (g := fun c => { c with pj := some m, listjQueued := c.listjQueued ++ [j] })
    (by simp [hpj])]

/-- What `FExecute` can do before the job's own code. -/
inductive Begun (s : CScheduler) (j : JobId) : Option Bool → CScheduler → Prop
  | noQueue (hq : (s.jobs j).pjq = none) : Begun s j none (s.record (.executed j))
  | main (q : QueueId) (hq : (s.jobs j).pjq = some q) (hopen : (s.jqs q).fCompleted = false)
      (hpj : (s.jqs q).pj = some j) : Begun s j none ((s.IncRefs j).record (.executed j))
  | first (q : QueueId) (hq : (s.jobs j).pjq = some q) (hopen : (s.jqs q).fCompleted = false)
      (hpj : (s.jqs q).pj = none) (hlist : (s.jqs q).listjQueued = []) :
      Begun s j none (((s.enqueue q j (some j)).IncRefs j).record (.executed j))
  | queued (q : QueueId) (m : JobId) (hq : (s.jobs j).pjq = some q)
      (hopen : (s.jqs q).fCompleted = false) (hpj : (s.jqs q).pj = some m) (hmj : m ≠ j)
      (hnotin : j ∉ (s.jqs q).listjQueued) :
      Begun s j (some false) (((s.enqueue q j (some m)).IncRefs j).record (.queued j q))
  | completed (q : QueueId) (hq : (s.jobs j).pjq = some q) (hdone : (s.jqs q).fCompleted = true) :
      Begun s j (some true) s

theorem SchedInv.begun (h : SchedInv hold foc but exc s)
    (hout : ∀ q, (s.jqs q).pj ≠ some j → j ∉ (s.jqs q).listjQueued) :
    Begun s j (s.FExecuteBegin j).1 (s.FExecuteBegin j).2 := by
  unfold FExecuteBegin
  cases hq : (s.jobs j).pjq with
  | none => exact .noQueue hq
  | some q =>
    simp only
    cases hdone : (s.jqs q).fCompleted with
    | true =>
      rw [EjqrAdd_completed hdone]
      exact .completed q hq hdone
    | false =>
      cases hpj : (s.jqs q).pj with
      | none =>
        obtain ⟨hlist, -⟩ := h.unowned q hpj
        rw [EjqrAdd_first hdone hpj hlist]
        exact .first q hq hdone hpj hlist
      | some m =>
        by_cases hmj : m = j
        · subst hmj
          rw [EjqrAdd_main hdone hpj]
          exact .main q hq hdone hpj
        · have hnotin := hout q (by simpa [hpj] using hmj)
          have hin := h.owner q m hpj hdone
          have hhead : (s.jqs q).listjQueued.head? ≠ none := by
            intro hnil
            rw [List.head?_eq_none_iff] at hnil
            simp [hnil] at hin
          rw [EjqrAdd_queued hdone hpj hmj hhead hnotin]
          exact .queued q m hq hdone hpj hmj hnotin

/-- A job at the start of its execution. -/
structure Started (hold : JobId → ℕ) (s : CScheduler) (j : JobId) : Prop where
  inv : SchedInv hold none (some j) none s
  lt : j < s.ulJobs
  run : (s.jobs j).ejs = .EjsRunning
  held : hold j = 1
  kids : s.unfinishedChildren j = 0
  out : ∀ q, (s.jqs q).pj ≠ some j → j ∉ (s.jqs q).listjQueued

theorem AtRest.started (h : AtRest s) (hj : j ∈ s.listjlWaiting) :
    Started (Function.update s.holds j 1) ((s.Dequeue j).PreExecute j) j := by
  obtain ⟨hlt, hwait⟩ := (h.balanced.mem_waiting j).mp hj
  have hc := changed_start s (show (s.jobs j).ejs ≠ .EjsCompleted by simp [hwait])
  have hrefs := h.balanced.refs j hlt
  have hzero := h.balanced.idle j hlt (.inl hwait)
  refine ⟨h.start hj, hlt, by rw [hc.jobs, if_pos rfl], by simp, ?_,
    fun q hm => h.notMem_of_waiting hwait q hm⟩
  rw [hc.unfinishedChildren]
  omega

theorem SchedInv.notMem_of_ne (h : SchedInv hold foc but exc s) (hq : (s.jobs j).pjq ≠ some q) :
    j ∉ (s.jqs q).listjQueued := fun hin => hq (h.mem q j hin).2.1

/-- The main job of an open queue at the start of its own code. -/
theorem SchedInv.executing_main (h : SchedInv hold none (some j) none s) (hj : j < s.ulJobs)
    (hrun : (s.jobs j).ejs = .EjsRunning) (hn : hold j = 1) (hq : (s.jobs j).pjq = some q)
    (hpj : (s.jqs q).pj = some j) (hopen : (s.jqs q).fCompleted = false) :
    AtRest ((s.IncRefs j).record (.executed j)) := by
  have hin := h.owner q j hpj hopen
  refine ((h.incRefs hj hrun).record _).settle ?_ (fun _ r hr => ?_) (by simp [IncRefs, hrun])
    (fun r hr hm => ?_) |>.atRest
  · simp [hn, CScheduler.holds, pendingWakeUps, inState, IncRefs, hrun, hq, hin]
  · obtain rfl : q = r := by simpa [IncRefs, hq] using hr
    exact ⟨hpj, .inl hopen⟩
  · have hrq : (s.jobs j).pjq = some r := (h.mem r j hr).2.1
    obtain rfl : q = r := by simpa [hq] using hrq
    exact absurd hpj hm

/-- **A running job that is done completes.** -/
theorem SchedInv.processCompleted (h : SchedInv hold none (some j) exc s) (hj : j < s.ulJobs)
    (hrun : (s.jobs j).ejs = .EjsRunning) (hn : hold j = 1) (hkids : s.unfinishedChildren j = 0)
    (hout : ∀ q, j ∉ (s.jqs q).listjQueued) :
    SchedInv (Function.update hold j 0) none none exc (s.ProcessJobResult j true) := by
  have hpost := h.postExecute hj hn hrun true
  have hc := changed_postExecute s (show (s.jobs j).ejs ≠ .EjsCompleted by simp [hrun]) true
  have hjqs : (s.EjrPostExecute j true).2.jqs = s.jqs := by
    rw [EjrPostExecute_snd]
    rfl
  rw [ProcessJobResult_true, Complete_eq]
  refine hpost.retire (hc.num ▸ hj) (.inl rfl) (by simp) ?_ (fun q => ?_) _
  · rw [hc.unfinishedChildren, hkids]
  · rw [hjqs]
    exact hout q

theorem SchedInv.notMem_of_done (h : SchedInv hold foc but none s)
    (hq : ∀ q, (s.jobs j).pjq = some q → (s.jqs q).fCompleted = true) (r : QueueId) :
    j ∉ (s.jqs r).listjQueued := by
  intro hin
  have hempty := h.drained r (by simp) (hq r (h.mem r j hin).2.1)
  simp [hempty] at hin

/-- **A job starts**: its own code begins, or it waits, or it has nothing to do. -/
theorem AtRest.startJob (h : AtRest s) (hj : j ∈ s.listjlWaiting) : AtRest (s.startJob j) := by
  have hst := h.started hj
  unfold CScheduler.startJob
  generalize (s.Dequeue j).PreExecute j = s₁ at hst ⊢
  obtain ⟨hinv, hlt, hrun, hheld, hkids, hout⟩ := hst
  have hbegun := hinv.begun hout
  rcases hb : s₁.FExecuteBegin j with ⟨r, s₂⟩
  rw [hb] at hbegun
  simp only at hbegun ⊢
  cases hbegun with
  | noQueue hq =>
    have hnil : ∀ r, j ∉ (s₁.jqs r).listjQueued := fun r =>
      hinv.notMem_of_ne (by simp [hq])
    refine ((hinv.record _).settle ?_ (fun _ r hr => ?_) (by simp [hrun])
      (fun r hr => absurd hr (hnil r))).atRest
    · rw [hheld]
      simp [CScheduler.holds, pendingWakeUps, inState, hrun, hq]
    · simp [hq] at hr
  | main q hq hopen hpj => exact hinv.executing_main hlt hrun hheld hq hpj hopen
  | first q hq hopen hpj hlist =>
    have hen := hinv.enqueue (some j) hlt hrun hq hopen (by simp [hlist]) (.inr ⟨rfl, hpj⟩)
    exact SchedInv.executing_main hen hlt hrun hheld hq (by simp [enqueue])
      (by simpa [enqueue] using hopen)
  | queued q m hq hopen hpj hmj hnotin =>
    have hen := hinv.enqueue (some m) hlt hrun hq hopen hnotin
      (.inl ⟨hpj.symm, by simp [hpj], by simpa [hpj] using hmj⟩)
    refine ((hen.incRefs hlt hrun).record (.queued j q)).processNotCompleted hlt (n := 1)
      (by simp) (by simp [IncRefs, hrun]) (.inr ⟨rfl, ?_, q, ?_, ?_, ?_⟩)
    · have hc := changed_incRefs (s₁.enqueue q j (some m)) (j := j)
        (show (s₁.jobs j).ejs ≠ .EjsCompleted by simp [hrun])
      exact (hc.unfinishedChildren j).trans hkids
    · simp [IncRefs, hq]
    · simp [IncRefs]
    · simpa [IncRefs] using hmj
  | completed q hq hdone =>
    refine (hinv.processCompleted hlt hrun hheld hkids (hinv.notMem_of_done fun r hr => ?_)).atRest
    obtain rfl : q = r := by simpa [hq] using hr
    exact hdone

/-! ## The jobs that wait for a queue -/

/-- Any job may be taken for one between two states. -/
theorem SchedInv.weaken (h : SchedInv hold foc none exc s) (b : Option JobId) :
    SchedInv hold foc b exc s :=
  ⟨h.balanced, h.fresh, fun k hk _ => h.agrees k hk (by simp), h.nodup, h.mem,
    fun q k hk hm _ => h.waiter q k hk hm (by simp), h.main, h.unowned, h.drained, h.owner,
    fun k hk hr _ => h.executing k hk hr (by simp), fun k hk hs _ => h.pending k hk hs (by simp)⟩

/-- The main job's queue is completed, and its jobs are being notified. -/
structure Notifying (hold : JobId → ℕ) (q : QueueId) (m : JobId) (s : CScheduler) : Prop where
  inv : SchedInv hold none none (some q) s
  pj : (s.jqs q).pj = some m
  done : (s.jqs q).fCompleted = true
  run : (s.jobs m).ejs = .EjsRunning
  kids : s.unfinishedChildren m = 0

/-- The head of a queue's list leaves it. -/
theorem SchedInv.removeHead (h : SchedInv hold none none (some q) s) {rest : List JobId}
    (hlist : (s.jqs q).listjQueued = j :: rest) (hdone : (s.jqs q).fCompleted = true) :
    SchedInv hold none (some j) (some q) (s.setQueue q fun c => { c with listjQueued := rest }) := by
  have hnd := hlist ▸ h.nodup q
  have hsub : ∀ r k, k ∈ ((s.setQueue q fun c => { c with listjQueued := rest }).jqs r).listjQueued →
      k ∈ (s.jqs r).listjQueued := by
    intro r k hk
    by_cases hr : r = q
    · subst hr
      rw [hlist]
      exact List.mem_cons_of_mem _ (by simpa using hk)
    · simpa [hr] using hk
  have hpj : ∀ r, ((s.setQueue q fun c => { c with listjQueued := rest }).jqs r).pj =
      (s.jqs r).pj := by
    intro r
    by_cases hr : r = q
    · subst hr
      simp
    · simp [hr]
  have hcompleted : ∀ r,
      ((s.setQueue q fun c => { c with listjQueued := rest }).jqs r).fCompleted =
      (s.jqs r).fCompleted := by
    intro r
    by_cases hr : r = q
    · subst hr
      simp
    · simp [hr]
  have hnotin : j ∉ rest := (List.nodup_cons.mp hnd).1
  refine ⟨h.balanced.setQueue q _, h.fresh, fun k hk hne => ?_, fun r => ?_,
    fun r k hk => h.mem r k (hsub r k hk),
    fun r k hk hm _ => h.waiter r k (hsub r k hk) (hpj r ▸ hm) (by simp),
    fun r m hm => h.main r m (hpj r ▸ hm), fun r hm => ?_, fun r hr hc => ?_,
    fun r m hm hc => ?_, fun k hk hr _ r hq => ?_,
    fun k hk hs _ => h.pending k hk hs (by simp)⟩
  · have hkj : k ≠ j := fun hk => hne (by rw [hk])
    rw [h.agrees k hk (by simp)]
    exact (holds_setQueue s q _ (by simp [hlist, hkj]) Iff.rfl).symm
  · by_cases hr : r = q
    · subst hr
      simpa using (List.nodup_cons.mp hnd).2
    · simpa [hr] using h.nodup r
  · rw [hpj] at hm
    rw [hcompleted]
    obtain ⟨hnil, hc⟩ := h.unowned r hm
    exact ⟨List.eq_nil_iff_forall_not_mem.mpr fun k hk => by simpa [hnil] using hsub r k hk, hc⟩
  · rw [hcompleted] at hc
    have hnil := h.drained r hr hc
    exact List.eq_nil_iff_forall_not_mem.mpr fun k hk => by simpa [hnil] using hsub r k hk
  · rw [hpj] at hm
    rw [hcompleted] at hc
    by_cases hr : r = q
    · subst hr
      rw [hdone] at hc
      cases hc
    · simpa [hr] using h.owner r m hm hc
  · rw [hpj, hcompleted]
    exact h.executing k hk hr (by simp) r hq

/-- A job of the queue leaves the list and loses the reference for it. -/
def popQueued (s : CScheduler) (q : QueueId) (j : JobId) (rest : List JobId) : CScheduler :=
  ((s.setQueue q fun c => { c with listjQueued := rest }).UlpDecrRefs j).2

theorem popQueued_jobs (s : CScheduler) (q : QueueId) (j k : JobId) (rest : List JobId) :
    (s.popQueued q j rest).jobs k =
      if k = j then { s.jobs j with ulpRefs := (s.jobs j).ulpRefs - 1 } else s.jobs k := by
  simp [popQueued, UlpDecrRefs]

theorem popQueued_jqs (s : CScheduler) (q r : QueueId) (j : JobId) (rest : List JobId) :
    (s.popQueued q j rest).jqs r =
      if r = q then { s.jqs q with listjQueued := rest } else s.jqs r := by
  simp [popQueued, UlpDecrRefs]

theorem popQueued_unfinishedChildren (s : CScheduler) (q : QueueId) (j k : JobId)
    (rest : List JobId) : (s.popQueued q j rest).unfinishedChildren k = s.unfinishedChildren k := by
  refine tally_congr fun c _ => ?_
  rw [popQueued_jobs]
  split
  · next hc => simp [hc]
  · rfl

theorem Notifying.lt (h : Notifying hold q m s) : m < s.ulJobs := (h.inv.main q m h.pj).1

/-- The main job leaves its own list. -/
theorem Notifying.own (h : Notifying hold q m s) {rest : List JobId}
    (hlist : (s.jqs q).listjQueued = m :: rest) :
    (s.jobs m).ulpRefs ≠ 1 ∧ Notifying (Function.update hold m 1) q m (s.popQueued q m rest) := by
  have hpjq := (h.inv.main q m h.pj).2
  have hin : m ∈ (s.jqs q).listjQueued := by simp [hlist]
  have hheld : hold m = 2 := by
    rw [h.inv.agrees m h.lt (by simp)]
    simp [CScheduler.holds, pendingWakeUps, inState, h.run, hpjq, hin]
  have hrefs := h.inv.balanced.refs m h.lt
  have hrem := h.inv.removeHead hlist h.done
  have hnotin : m ∉ rest := (List.nodup_cons.mp (hlist ▸ h.inv.nodup q)).1
  have hne : ((s.setQueue q fun c => { c with listjQueued := rest }).jobs m).ejs ≠
      .EjsCompleted := by simp [h.run]
  have hdec := hrem.balanced.decrRefs h.lt (n := 1) hheld (by simp)
  refine ⟨by omega, ⟨hrem.change hdec (changed_decrRefs _ hne) rfl h.lt rfl
    (fun k hk => by simp [hk]) (.inr rfl) (.inr ⟨rfl, ?_, fun _ r hr => ?_, ?_, fun r hr hm => ?_⟩),
    ?_, ?_, ?_, ?_⟩⟩
  · simp [CScheduler.holds, pendingWakeUps, inState, popQueued_jobs, popQueued_jqs, h.run, hpjq,
      hnotin]
  · obtain rfl : q = r := by simpa [hpjq] using hr
    simp [h.pj]
  · simp [h.run]
  · have hrq := (hrem.mem r m hr).2.1
    obtain rfl : q = r := by simpa [hpjq] using hrq
    simp [h.pj] at hm
  · simp [popQueued_jqs, h.pj]
  · simp [popQueued_jqs, h.done]
  · simp [popQueued_jobs, h.run]
  · rw [popQueued_unfinishedChildren, h.kids]

/-- **A job that waits is completed** when the queue's main job is. -/
theorem Notifying.wake (h : Notifying hold q m s) {rest : List JobId}
    (hlist : (s.jqs q).listjQueued = j :: rest) (hjm : j ≠ m) :
    (s.jobs j).ulpRefs = 1 ∧
      Retired (s.popQueued q j rest) ((s.popQueued q j rest).CompleteQueued j) j
        (.completedQueued j) ∧
      Notifying (Function.update hold j 0) q m ((s.popQueued q j rest).CompleteQueued j) := by
  have hin : j ∈ (s.jqs q).listjQueued := by simp [hlist]
  obtain ⟨hlt, hpjq, -⟩ := h.inv.mem q j hin
  have hpj : (s.jqs q).pj ≠ some j := by simpa [h.pj] using Ne.symm hjm
  obtain ⟨hsusp, hkids⟩ := h.inv.waiter q j hin hpj (by simp)
  have hheld : hold j = 1 := by
    rw [h.inv.agrees j hlt (by simp)]
    simp [CScheduler.holds, pendingWakeUps, inState, hsusp, hpjq, hin, hpj]
  have hrefs := h.inv.balanced.refs j hlt
  have hrem := h.inv.removeHead hlist h.done
  have hnotin : j ∉ rest := (List.nodup_cons.mp (hlist ▸ h.inv.nodup q)).1
  have hne : ((s.setQueue q fun c => { c with listjQueued := rest }).jobs j).ejs ≠
      .EjsCompleted := by simp [hsusp]
  have hdec := hrem.balanced.decrRefs hlt (n := 0) hheld (by simp [hsusp])
  have hpop : SchedInv (Function.update hold j 0) none (some j) (some q) (s.popQueued q j rest) :=
    hrem.change hdec (changed_decrRefs _ hne) rfl hlt rfl (fun k hk => by simp [hk]) (.inr rfl)
      (.inl rfl)
  have hsusp' : ((s.popQueued q j rest).jobs j).ejs = .EjsSuspended := by
    simp [popQueued_jobs, hsusp]
  have hret := hpop.balanced.retired hlt (.inr ⟨rfl, hsusp'⟩) (.completedQueued j)
    (by simp [hsusp'])
  have hinv := hpop.retire hlt (.inr ⟨rfl, hsusp'⟩) (by simp)
    ((popQueued_unfinishedChildren s q j j rest).trans hkids)
    (fun r hr => by
      have hrq := (hpop.mem r j hr).2.1
      have hrq' : some q = some r := by simpa [popQueued_jobs, hpjq] using hrq
      obtain rfl : q = r := by simpa using hrq'
      exact hnotin (by simpa [popQueued_jqs] using hr)) (.completedQueued j)
  rw [← CompleteQueued_eq] at hret hinv
  refine ⟨by omega, hret, hinv, ?_, ?_, ?_, ?_⟩
  · simp [hret.jqs, popQueued_jqs, h.pj]
  · simp [hret.jqs, popQueued_jqs, h.done]
  · have hrun : ((s.popQueued q j rest).jobs m).ejs = .EjsRunning := by
      simp [popQueued_jobs, Ne.symm hjm, h.run]
    rcases hret.ejs (Ne.symm hjm) with heq | ⟨hs, -⟩
    · rw [heq, hrun]
    · rw [hrun] at hs
      cases hs
  · exact hret.unfinishedChildren_zero ((popQueued_unfinishedChildren s q j m rest).trans h.kids)

theorem notifyQueued_cons (s : CScheduler) (q : QueueId) (j : JobId) (rest : List JobId) :
    notifyQueued q (j :: rest) s =
      if (s.jobs j).ulpRefs = 1 then notifyQueued q rest ((s.popQueued q j rest).CompleteQueued j)
      else notifyQueued q rest (s.popQueued q j rest) := rfl

/-- **All jobs of a completed queue are notified.** -/
theorem Notifying.notifyQueued {l : List JobId} (h : Notifying hold q m s)
    (hlist : (s.jqs q).listjQueued = l) : ∃ hold', Notifying hold' q m (notifyQueued q l s) ∧
      ((notifyQueued q l s).jqs q).listjQueued = [] := by
  induction l generalizing s hold with
  | nil => exact ⟨hold, h, hlist⟩
  | cons j rest ih =>
    rw [notifyQueued_cons]
    by_cases hjm : j = m
    · subst hjm
      obtain ⟨hne, hnext⟩ := h.own hlist
      rw [if_neg hne]
      exact ih hnext (by simp [popQueued_jqs])
    · obtain ⟨hone, hret, hnext⟩ := h.wake hlist hjm
      rw [if_pos hone]
      exact ih hnext (by simp [hret.jqs, popQueued_jqs])

/-! ## A job's own code returns, and jobs are added -/

theorem AtRest.holds_running (h : AtRest s) (hj : j < s.ulJobs)
    (hrun : (s.jobs j).ejs = .EjsRunning) (hq : (s.jobs j).pjq = some q) :
    s.holds j = 2 ∧ (s.jqs q).pj = some j ∧ (s.jqs q).fCompleted = false := by
  obtain ⟨hpj, hopen⟩ := h.executing j hj hrun (by simp) q hq
  have hopen' : (s.jqs q).fCompleted = false := by simpa using hopen
  have hin := h.owner q j hpj hopen'
  exact ⟨by simp [CScheduler.holds, pendingWakeUps, inState, hrun, hq, hin], hpj, hopen'⟩

theorem AtRest.holds_noQueue (hrun : (s.jobs j).ejs = .EjsRunning) (hq : (s.jobs j).pjq = none) :
    s.holds j = 1 := by
  simp [CScheduler.holds, pendingWakeUps, inState, hrun, hq]

/-- The queue of a main job that is done. -/
theorem AtRest.notifying (h : AtRest s) (hj : j < s.ulJobs) (hrun : (s.jobs j).ejs = .EjsRunning)
    (hq : (s.jobs j).pjq = some q) (hkids : s.unfinishedChildren j = 0) :
    Notifying s.holds q j
      ((s.setQueue q fun c => { c with fCompleted := true }).record (.notified q)) := by
  obtain ⟨-, hpj, hopen⟩ := h.holds_running hj hrun hq
  have hlists : ∀ r, ((s.setQueue q fun c => { c with fCompleted := true }).jqs r).listjQueued =
      (s.jqs r).listjQueued ∧
      ((s.setQueue q fun c => { c with fCompleted := true }).jqs r).pj = (s.jqs r).pj := by
    intro r
    by_cases hr : r = q
    · subst hr
      simp
    · simp [hr]
  refine ⟨SchedInv.record ⟨h.balanced.setQueue q _, h.fresh, fun k hk _ => ?_, fun r => ?_,
    fun r k hk => h.mem r k ((hlists r).1 ▸ hk),
    fun r k hk hm _ => h.waiter r k ((hlists r).1 ▸ hk) ((hlists r).2 ▸ hm) (by simp),
    fun r m hm => h.main r m ((hlists r).2 ▸ hm), fun r hm => ?_, fun r hr hc => ?_,
    fun r m hm hc => ?_, fun k hk hr _ r hkr => ?_,
    fun k hk hs _ => h.pending k hk hs (by simp)⟩ _, by simpa using hpj, by simp, hrun, hkids⟩
  · exact (holds_setQueue s q _ Iff.rfl Iff.rfl).symm
  · rw [(hlists r).1]
    exact h.nodup r
  · have hrq : r ≠ q := by
      rintro rfl
      rw [(hlists r).2, hpj] at hm
      cases hm
    simpa [hrq] using h.unowned r ((hlists r).2 ▸ hm)
  · have hrq : r ≠ q := fun heq => hr (by rw [heq])
    rw [(hlists r).1]
    exact h.drained r (by simp) (by simpa [hrq] using hc)
  · rw [(hlists r).1]
    rw [(hlists r).2] at hm
    by_cases hrq : r = q
    · subst hrq
      simp at hc
    · exact h.owner r m hm (by simpa [hrq] using hc)
  · rw [(hlists r).2]
    obtain ⟨hpjr, hopenr⟩ := h.executing k hk hr (by simp) r hkr
    refine ⟨hpjr, ?_⟩
    by_cases hrq : r = q
    · exact .inr (by rw [hrq])
    · exact .inl (by simpa [hrq] using hopenr)

theorem AtRest.notifyCompleted (h : AtRest s) (hj : j < s.ulJobs)
    (hrun : (s.jobs j).ejs = .EjsRunning) (hq : (s.jobs j).pjq = some q)
    (hkids : s.unfinishedChildren j = 0) : ∃ hold', Notifying hold' q j (s.NotifyCompleted q) ∧
      ((s.NotifyCompleted q).jqs q).listjQueued = [] :=
  (h.notifying hj hrun hq hkids).notifyQueued rfl

/-- Once its list is empty, the main job has the reference for its execution only. -/
theorem Notifying.drained (h : Notifying hold q m s) (hnil : (s.jqs q).listjQueued = []) :
    hold m = 1 ∧ ∀ r, m ∉ (s.jqs r).listjQueued := by
  have hpjq := (h.inv.main q m h.pj).2
  have hout : ∀ r, m ∉ (s.jqs r).listjQueued := by
    intro r hin
    have hqr : some q = some r := hpjq ▸ (h.inv.mem r m hin).2.1
    obtain rfl : q = r := by simpa using hqr
    simp [hnil] at hin
  refine ⟨?_, hout⟩
  rw [h.inv.agrees m h.lt (by simp), CScheduler.holds, pendingWakeUps_eq_zero fun r _ => hout r]
  simp [inState, h.run]

/-- The queue has no more jobs that wait. -/
theorem SchedInv.closeQueue (h : SchedInv hold foc but (some q) s)
    (hnil : (s.jqs q).listjQueued = []) (hpj : (s.jqs q).pj = some m)
    (hbut : but = some m ∨ (s.jobs m).ejs ≠ .EjsRunning) :
    SchedInv hold foc but none s := by
  refine ⟨h.balanced, h.fresh, h.agrees, h.nodup, h.mem, h.waiter, h.main, h.unowned,
    fun r _ hc => ?_, h.owner, fun k hk hr hne r hkr => ?_, h.pending⟩
  · by_cases hr : q = r
    · exact hr ▸ hnil
    · exact h.drained r (by simpa using hr) hc
  · obtain ⟨hpjr, hopen⟩ := h.executing k hk hr hne r hkr
    refine ⟨hpjr, .inl (hopen.resolve_right fun heq => ?_)⟩
    obtain rfl : q = r := by simpa using heq
    obtain rfl : m = k := by simpa [hpj] using hpjr
    rcases hbut with hb | hb
    · exact hne hb
    · exact hb hr

/-- **A job's own code returns**: the job and those that wait for its queue complete, or the job is
suspended or rescheduled. -/
theorem AtRest.finishJob (h : AtRest s) (hj : j < s.ulJobs) (hrun : (s.jobs j).ejs = .EjsRunning)
    {fCompleted : Bool} (hdone : fCompleted = true → s.unfinishedChildren j = 0) :
    AtRest (s.finishJob j fCompleted) := by
  unfold CScheduler.finishJob FExecuteEnd
  cases hq : (s.jobs j).pjq with
  | none =>
    have hheld := AtRest.holds_noQueue hrun hq
    have hout : ∀ q, j ∉ (s.jqs q).listjQueued := fun q => h.notMem_of_ne (by simp [hq])
    cases fCompleted with
    | true =>
      exact ((h.weaken (some j)).processCompleted hj hrun hheld (hdone rfl) hout).atRest
    | false =>
      exact (h.weaken (some j)).processNotCompleted hj (n := 0) hheld hrun
        (.inl ⟨rfl, fun q hin => absurd hin (hout q)⟩)
  | some q =>
    obtain ⟨hheld, hpj, hopen⟩ := h.holds_running hj hrun hq
    have hlists : ∀ r, j ∈ (s.jqs r).listjQueued → (s.jqs r).pj = some j := by
      intro r hin
      have hqr : some q = some r := hq ▸ (h.mem r j hin).2.1
      obtain rfl : q = r := by simpa using hqr
      exact hpj
    cases fCompleted with
    | true =>
      obtain ⟨hold', hnot, hnil⟩ := h.notifyCompleted hj hrun hq (hdone rfl)
      simp only [if_true]
      obtain ⟨hheld', hout⟩ := hnot.drained hnil
      exact (((hnot.inv.weaken (some j)).closeQueue hnil hnot.pj (.inl rfl)).processCompleted
        hnot.lt hnot.run hheld' hnot.kids hout).atRest
    | false =>
      have hdec := h.balanced.decrRefs hj (n := 1) hheld (by simp)
      have hinv : SchedInv (Function.update s.holds j 1) none (some j) none (s.UlpDecrRefs j).2 :=
        (h.weaken (some j)).change hdec (changed_decrRefs s (by simp [hrun])) rfl hj rfl
          (fun k hk => by simp [hk]) (.inr rfl) (.inl rfl)
      refine hinv.processNotCompleted hj (n := 0) (by simp) ?_
        (.inl ⟨rfl, fun r hin => hlists r hin⟩)
      simpa [UlpDecrRefs] using hrun

/-- **A job is added.** -/
theorem AtRest.scheduleJob (h : AtRest s) (pjq : Option QueueId) (pjParent : Option JobId)
    (hparent : ∀ p, pjParent = some p → p < s.ulJobs ∧ (s.jobs p).ejs = .EjsRunning) :
    AtRest (s.ScheduleJob pjq pjParent) := by
  have hlt : ∀ p, pjParent = some p → p < s.ulJobs := fun p hp => (hparent p hp).1
  have hreset := h.fresh s.ulJobs le_rfl
  have hnew : s.holds s.ulJobs = 0 := by
    simp [CScheduler.holds, pendingWakeUps, inState, hreset, CJob.Reset]
  have hnotin : ∀ q, s.ulJobs ∉ (s.jqs q).listjQueued := fun q hin =>
    absurd (h.mem q _ hin).1 (lt_irrefl _)
  have hb := h.balanced.scheduleJob pjq pjParent hparent hnew fun c hc hp =>
    absurd ((h.balanced.parent_lt c hc _ hp).trans hc) (lt_irrefl _)
  have hnum := ScheduleJob_ulJobs s pjq pjParent
  have hjqs := ScheduleJob_jqs s pjq pjParent
  have hself := ScheduleJob_self s pjq hlt
  have hother := @ScheduleJob_other s pjq pjParent hlt
  have hkids := ScheduleJob_unfinishedChildren s pjq hlt
  have hkl : ∀ k < (s.ScheduleJob pjq pjParent).ulJobs, k ≠ s.ulJobs → k < s.ulJobs := by
    intro k hk hne
    rw [hnum] at hk
    exact lt_of_le_of_ne (Nat.le_of_lt_succ hk) hne
  refine @SchedInv.atRest s.holds _ ⟨hb, fun k hk => ?_, fun k hk _ => ?_, hjqs ▸ h.nodup,
    fun q k hk => ?_, fun q k hk hm _ => ?_, fun q m hm => ?_, hjqs ▸ h.unowned,
    hjqs ▸ h.drained, hjqs ▸ h.owner, fun k hk hr _ q hq => ?_, fun k hk hs _ => ?_⟩
  · rw [hnum] at hk
    have hne : k ≠ s.ulJobs := (Nat.lt_of_succ_le hk).ne'
    have hnp : pjParent ≠ some k := fun hp => absurd (hlt k hp) (not_lt.mpr (Nat.le_of_succ_le hk))
    rw [ScheduleJob_jobs s pjq hlt, if_neg hne, if_neg hnp]
    exact h.fresh k (Nat.le_of_succ_le hk)
  · by_cases hks : k = s.ulJobs
    · rw [hks, hnew]
      have hpend := pendingWakeUps_eq_zero (s := s.ScheduleJob pjq pjParent) (j := s.ulJobs)
        fun q _ => by
          rw [hjqs]
          exact hnotin q
      simp [CScheduler.holds, hpend, inState, hself]
      rfl
    · obtain ⟨hejs, -, hpjq, -⟩ := hother hks
      exact (holds_congr hpjq (by rw [hejs]) fun q _ => by simp [hjqs]).symm
  · rw [hjqs] at hk
    obtain ⟨hklt, hq, hne⟩ := h.mem q k hk
    obtain ⟨hejs, -, hpjq, -⟩ := hother hklt.ne
    exact ⟨hnum ▸ Nat.lt_succ_of_lt hklt, hpjq.trans hq, by rwa [hejs]⟩
  · rw [hjqs] at hk hm
    obtain ⟨hklt, hq, -⟩ := h.mem q k hk
    obtain ⟨hsusp, hzero⟩ := h.waiter q k hk hm (by simp)
    have hnp : pjParent ≠ some k := by
      intro hp
      rw [(hparent k hp).2] at hsusp
      cases hsusp
    rw [(hother hklt.ne).1, hkids, hzero]
    simp [hsusp, hnp]
  · rw [hjqs] at hm
    obtain ⟨hmlt, hq⟩ := h.main q m hm
    exact ⟨hnum ▸ Nat.lt_succ_of_lt hmlt, (hother hmlt.ne).2.2.1.trans hq⟩
  · have hne : k ≠ s.ulJobs := by
      rintro rfl
      simp [hself] at hr
    obtain ⟨hejs, -, hpjq, -⟩ := hother hne
    rw [hjqs]
    exact h.executing k (hkl k hk hne) (hejs ▸ hr) (by simp) q (hpjq ▸ hq)
  · have hne : k ≠ s.ulJobs := by
      rintro rfl
      simp [hself] at hs
    obtain ⟨hejs, -, -, hrefs⟩ := hother hne
    exact (h.pending k (hkl k hk hne) (hejs ▸ hs) (by simp)).trans_le hrefs

theorem atRest_init : AtRest init := by
  refine @SchedInv.atRest (fun _ => 0) _ ⟨⟨?_, ?_, ?_, ?_, ?_, ?_, ?_, ?_, rfl, rfl, rfl⟩,
    fun _ _ => rfl, ?_, ?_, ?_, ?_, ?_, ?_, ?_, ?_, ?_, ?_⟩ <;>
  simp [init]

theorem Step.atRest (hstep : Step s s') (h : AtRest s) : AtRest s' := by
  cases hstep with
  | add pjq pjParent hparent => exact h.scheduleJob pjq pjParent hparent
  | start pj hpj => exact h.startJob hpj
  | finish pj fCompleted hpj hrun hdone => exact h.finishJob hpj hrun hdone

/-- **The invariant holds in every state that a run reaches.** -/
theorem Reachable.atRest (h : Reachable s) : AtRest s := by
  induction h with
  | init => exact atRest_init
  | step _ hstep ih => exact hstep.atRest ih

end CScheduler

end BossOptimizer
