import ContractAudit.Proofs.Reachable

/-! # Admission

The jobs that run are those that hold a slot, one each, and a job gives its slot back after it has come to
its last state. -/

namespace ContractAudit
open List CampaignState

variable {τ : Type}

/-- How many jobs run after what has happened, the newest first, by the changes of state alone. -/
def runningIn : List (Occurrence τ) → Nat
  | [] => 0
  | .moved _ old new _ :: h =>
    if new = .running then runningIn h + 1 else if old = .running then runningIn h - 1 else runningIn h
  | .executes _ _ :: h | .cancels _ :: h => runningIn h

def mostRunning : List (Occurrence τ) → Nat
  | [] => 0
  | o :: h => max (runningIn (o :: h)) (mostRunning h)

theorem runningIn_le_mostRunning (h : List (Occurrence τ)) : runningIn h ≤ mostRunning h := by
  cases h with
  | nil => exact Nat.le_refl 0
  | cons o h => exact Nat.le_max_left _ _

theorem runningIn_stopNote (given reason : Option String) (h : List (Occurrence τ)) :
    runningIn (stopNote given reason ++ h) = runningIn h := by
  unfold stopNote
  split
  · rfl
  · cases reason <;> rfl

theorem mostRunning_stopNote (given reason : Option String) (h : List (Occurrence τ)) :
    mostRunning (stopNote given reason ++ h) = mostRunning h := by
  unfold stopNote
  split
  · rfl
  · cases reason with
    | none => rfl
    | some _ => exact Nat.max_eq_right (runningIn_le_mostRunning h)

theorem mostRunning_told_le (p : Plan τ) (s : CampaignState τ) (i : Nat) (r : JobRun τ) (t : Turn) :
    mostRunning (s.told p i r t ++ s.history) ≤
      max (runningIn (s.told p i r t ++ s.history)) (mostRunning s.history) := by
  rw [told, append_assoc, append_assoc, runningIn_stopNote, mostRunning_stopNote]
  cases t with
  | proceed | pass _ => exact Nat.le_max_right _ _
  | _ => exact Nat.le_refl _

theorem Slots.running_take_le (s : Slots) (i : Nat) : (s.take i).running ≤ (s.take i).peak := by
  rw [running, take, length_append]
  exact Nat.le_max_right _ _

namespace JobRun

variable {p : Plan τ} {r : JobRun τ} {t : Turn} {stopping full : Bool} {s : Slots} {i : Nat}

theorem Takes.holders_eq (hr : r.Consistent) (ht : r.Takes p stopping full t)
    (hi : i ∈ s.holders ↔ r.job.state = .running) :
    (t.slots i s).holders = if t.state?.getD r.job.state = .running then
      if r.job.state = .running then s.holders else s.holders ++ [i] else s.holders.erase i := by
  cases ht with
  | start ha _ _ =>
    have hidle : r.job.state ≠ .running := fun h => (hr.running_iff.mp h).1 ha
    simp [Slots.take, hidle]
  | refuse ha _ _ =>
    have hidle : i ∉ s.holders := fun h => (hr.running_iff.mp (hi.mp h)).1 ha
    simp [Slots.take, Slots.release, erase_append_right _ hidle, erase_of_not_mem hidle]
  | proceed ha | execute ha _ _ | pass ha _ => simp [hr.running_iff.mpr (by simp [IsActive, ha])]
  | _ => rfl

theorem Takes.running_eq (hr : r.Consistent) (ht : r.Takes p stopping full t)
    (hi : i ∈ s.holders ↔ r.job.state = .running) :
    (t.slots i s).running = if t.state?.getD r.job.state = .running then
      if r.job.state = .running then s.running else s.running + 1
      else if r.job.state = .running then s.running - 1 else s.running := by
  rw [Slots.running, ht.holders_eq hr hi]
  split
  · split <;> simp [Slots.running]
  · simp [length_erase, hi, Slots.running]

theorem Takes.runningIn_told (hr : r.Consistent) (ht : r.Takes p stopping full t) (c : CampaignState τ) :
    runningIn (c.told p i r t ++ c.history) = if t.state?.getD r.job.state = .running then
      if r.job.state = .running then runningIn c.history else runningIn c.history + 1
      else if r.job.state = .running then runningIn c.history - 1 else runningIn c.history := by
  rw [told, append_assoc, append_assoc, runningIn_stopNote]
  cases ht with
  | start ha _ _ =>
    have hidle : r.job.state ≠ .running := fun h => (hr.running_iff.mp h).1 ha
    simp [runningIn, hidle]
  | proceed ha | execute ha _ _ | pass ha _ => simp [runningIn, hr.running_iff.mpr (by simp [IsActive, ha])]
  | _ => simp [runningIn]

theorem Takes.peak_le (ht : r.Takes p stopping s.isFull t) (hheld : s.running ≤ s.peak) (hpeak : s.peak ≤ s.limit) :
    (t.slots i s).running ≤ (t.slots i s).peak ∧ s.peak ≤ (t.slots i s).peak ∧
      (t.slots i s).peak ≤ (t.slots i s).limit ∧ (t.slots i s).limit = s.limit := by
  have herase : (s.holders.erase i).length ≤ s.peak := Nat.le_trans length_erase_le hheld
  cases ht with
  | start _ hfull _ =>
    have hfree : s.running < s.limit := by simpa [Slots.isFull] using hfull
    exact ⟨s.running_take_le i, Nat.le_max_left _ _, Nat.max_le.mpr ⟨hpeak, hfree⟩, rfl⟩
  | refuse _ hfull _ =>
    have hfree : s.running < s.limit := by simpa [Slots.isFull] using hfull
    exact ⟨Nat.le_trans length_erase_le (s.running_take_le i), Nat.le_max_left _ _, Nat.max_le.mpr ⟨hpeak, hfree⟩, rfl⟩
  | proceed _ | execute _ _ _ | pass _ _ => exact ⟨hheld, Nat.le_refl _, hpeak, rfl⟩
  | _ => exact ⟨herase, Nat.le_refl _, hpeak, rfl⟩

end JobRun

/-- The jobs that run are those that hold a slot, and the history knows of no more. -/
structure Admitted (p : Plan τ) (s : CampaignState τ) : Prop where
  limit : s.slots.limit = p.slotCount
  nodup : s.slots.holders.Nodup
  holds : ∀ i r, s.jobs[i]? = some r → (i ∈ s.slots.holders ↔ r.job.state = .running)
  count : s.jobs.countP (·.job.state = .running) = s.slots.running
  held : s.slots.running ≤ s.slots.peak
  peak : s.slots.peak ≤ s.slots.limit
  seen : runningIn s.history = s.slots.running
  most : mostRunning s.history ≤ s.slots.peak

namespace Admitted

variable {p : Plan τ} {s t : CampaignState τ}

theorem initial [Clock τ] (p : Plan τ) (cancelReason : Option String) : Admitted p (.initial p cancelReason) where
  limit := rfl
  nodup := nodup_nil
  holds i r hr := by
    obtain ⟨a, -, rfl⟩ := mem_map.mp (mem_of_getElem? hr)
    simp [CampaignState.initial, JobRun.ofAssignment]
  count := by
    refine countP_eq_zero.mpr fun r hr => ?_
    obtain ⟨a, -, rfl⟩ := mem_map.mp hr
    simp [JobRun.ofAssignment]
  held := Nat.le_refl 0
  peak := Nat.zero_le _
  seen := rfl
  most := Nat.le_refl 0

theorem quiet (h : Admitted p s) (hq : s.Quiet p t) : Admitted p t := by
  obtain ⟨reason, -, hhistory⟩ := hq.stop
  constructor
  · exact hq.slots ▸ h.limit
  · exact hq.slots ▸ h.nodup
  · exact hq.slots ▸ hq.jobs ▸ h.holds
  · exact hq.slots ▸ hq.jobs ▸ h.count
  · exact hq.slots ▸ h.held
  · exact hq.slots ▸ h.peak
  · rw [hhistory, runningIn_stopNote, hq.slots, h.seen]
  · rw [hhistory, mostRunning_stopNote, hq.slots]
    exact h.most

theorem commit [Clock τ] {i : Nat} {r : JobRun τ} {t : Turn} (h : Admitted p s) (hc : r.Consistent)
    (hr : s.jobs[i]? = some r)
    (ht : r.Takes p s.isCancelled s.slots.isFull t) : Admitted p (s.commit p i r t) := by
  have hi := h.holds i r hr
  have hstate := r.after_state p s.now (s.calls.getD r.place 0) t
  have hholders := ht.holders_eq hc hi
  have hrunning := ht.running_eq hc hi
  have hseen : runningIn (s.told p i r t ++ s.history) = (t.slots i s.slots).running := by
    rw [ht.runningIn_told hc s, hrunning, h.seen]
  obtain ⟨hheld, hgrows, hpeak, hlimit⟩ := ht.peak_le (i := i) h.held h.peak
  constructor
  case limit => exact hlimit.trans h.limit
  case nodup =>
    show (t.slots i s.slots).holders.Nodup
    rw [hholders]
    split
    · split
      · exact h.nodup
      next hidle =>
        have hnew : i ∉ s.slots.holders := mt hi.mp hidle
        exact nodup_append.mpr ⟨h.nodup, by simp, fun a ha b hb => by rintro rfl; simp_all⟩
    · exact h.nodup.erase i
  case holds =>
    intro j r' hr'
    show j ∈ (t.slots i s.slots).holders ↔ _
    rw [hholders]
    by_cases hj : j = i
    · subst hj
      rw [CampaignState.commit, getElem?_set_of_some hr _] at hr'
      cases hr'
      rw [hstate]
      split
      · split <;> simp_all
      · simp_all [h.nodup.mem_erase_iff]
    · rw [CampaignState.commit, getElem?_set_ne (Ne.symm hj)] at hr'
      rw [← h.holds j r' hr']
      split
      · split <;> simp [hj]
      · exact mem_erase_of_ne hj
  case count =>
    have hcount := countP_set_add hr (r.after p s.now (s.calls.getD r.place 0) t) (·.job.state = .running)
    have hpos : r.job.state = .running → 0 < s.slots.running := fun hrun => length_pos_of_mem (hi.mpr hrun)
    show (s.jobs.set i _).countP _ = (t.slots i s.slots).running
    rw [h.count, hstate] at hcount
    simp only [decide_eq_true_eq] at hcount
    rw [hrunning]
    split_ifs at hcount ⊢ <;> omega
  case held => exact hheld
  case peak => exact hpeak
  case seen => exact hseen
  case most =>
    refine Nat.le_trans (mostRunning_told_le p s i r t) (Nat.max_le.mpr ⟨?_, Nat.le_trans h.most hgrows⟩)
    exact hseen ▸ hheld

end Admitted

theorem CampaignState.Reachable.admitted [Clock τ] {p : Plan τ} {s : CampaignState τ} (h : Reachable p s) :
    Admitted p s :=
  h.induct (Admitted.initial p) (fun _ _ _ ih hq => ih.quiet hq)
    (fun _ _ _ _ hs ih hr ht => ih.commit (hs.fits hr) hr ht)

theorem CampaignState.countP_running_of_isOver {s : CampaignState τ} (h : s.isOver = true) :
    s.jobs.countP (·.job.state = .running) = 0 := by
  refine countP_eq_zero.mpr fun r hr hrun => ?_
  have hterminal := all_eq_true.mp h r hr
  rw [decide_eq_true_eq.mp hrun] at hterminal
  cases hterminal

/-- Whatever happens, and in whatever order: no more jobs run than the job count allows, each of them
    holds a slot of its own, and at the end all slots are free. The most jobs that ran at once are
    read off the history, which tells of every change of state. -/
theorem running_le_jobCount [Clock τ] (p : Plan τ) (N : Nat) (hN : p.jobCount.whole? = some (N : Int))
    (cancelReason : Option String) :
    (∀ events : List (CampaignEvent τ), ∃ s, (CampaignState.initial p cancelReason).applyAll p events = .ok s ∧
      runningIn s.history = s.jobs.countP (·.job.state = .running) ∧
      s.jobs.countP (·.job.state = .running) ≤ N ∧
      (∀ i r, s.jobs[i]? = some r → r.job.state = .running → i ∈ s.slots.holders) ∧
      s.slots.holders.Nodup ∧ s.slots.running ≤ N ∧
      mostRunning s.history ≤ s.slots.peak ∧ s.slots.peak ≤ N ∧
      (s.isOver = true → s.slots.running = 0)) ∧
    (∀ (requests : List (τ × Request)) (run : CampaignRun τ), Runner.runPlan p cancelReason requests = .ok run →
      mostRunning run.history.reverse ≤ run.campaign.peak ∧ run.campaign.peak ≤ N) := by
  have hlimit : p.slotCount = N := by simp [Plan.slotCount, hN]
  have bounded {s : CampaignState τ} (h : Admitted p s) : s.slots.peak ≤ N := hlimit ▸ h.limit ▸ h.peak
  have hinit : Reachable p (.initial p cancelReason) := .initial cancelReason
  constructor
  · intro events
    obtain ⟨s, hs, hreaches⟩ := hinit.exists_applyAll events
    have h := (hinit.reaches hreaches).admitted
    have hrunning := Nat.le_trans h.held (bounded h)
    refine ⟨s, hs, h.seen.trans h.count.symm, h.count ▸ hrunning, ?_, h.nodup, hrunning, h.most,
      bounded h, ?_⟩
    · exact fun i r hr => (h.holds i r hr).mpr
    · intro hover
      rw [← h.count, countP_running_of_isOver hover]
  · intro requests run hrun
    obtain ⟨s, hreaches, -, rfl⟩ := (Runner.runPlan_reaches p cancelReason requests).2 run hrun
    have h := (hinit.reaches hreaches).admitted
    exact ⟨by simpa [Runner.finished, Campaign.ofState] using h.most, bounded h⟩

def sampleTarget (name : String) : Target Nat where
  name := name
  implementation := "FunctionTarget"
  prepare := .now (.ok ())
  react _ input := ⟨some 1, .ok (if input.head? = some 0 then { status := .crash, message := "zero" } else {})⟩

def samplePlan : Plan Nat where
  campaignId := "5f0c9a34-77c1-4be2-9d0e-3a2b1c0d4e5f"
  settings := {}
  jobCount := .whole 1
  perJobTimeout := .whole 10
  limits := { job := 10, grace := some 5 }
  targets := [sampleTarget "vault", sampleTarget "pool"]
  strategies := [.seedReplay]
  corpus := { seeds := [[1], [0, 7]] }

theorem running_le_jobCount_samplePlan :
    samplePlan.jobCount.whole? = some ((1 : Nat) : Int) ∧
    ∃ s, (CampaignState.initial samplePlan none).applyAll samplePlan
        [.enter 0, .enter 1, .prepared 0, .choose 0, .cancel "enough", .executed 0, .choose 0, .enter 1] = .ok s ∧
      s.jobs.countP (·.job.state = .running) ≤ 1 ∧ mostRunning s.history ≤ s.slots.peak ∧ s.slots.peak ≤ 1 := by
  obtain ⟨s, hs, -, hcount, -, -, -, hmost, hpeak, -⟩ := (running_le_jobCount samplePlan 1 rfl none).1
    [.enter 0, .enter 1, .prepared 0, .choose 0, .cancel "enough", .executed 0, .choose 0, .enter 1]
  exact ⟨rfl, s, hs, hcount, hmost, hpeak⟩

end ContractAudit
