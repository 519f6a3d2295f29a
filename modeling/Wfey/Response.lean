import Wfey.Service
import Wfey.Sharing

/-!
# How long an activation waits

A fair scheduler serves every activation (`activation_handled`), but says nothing about how long that
takes. Counted in steps of the processor itself it does not take long: from the moment the source has
announced its event a processor that has got past its first wait is never held up, has at most one
handler run of every other source in front of it, and needs no more than `6 * ns + 4` steps
(`served_promptly`). So a source that activates all the time does not starve the others.
-/

namespace Wfey

open Conc (Run exec exists_run provided_eq_some)
open Function (update_self)

variable {np ns : Nat} {cfg : Config np ns} {b : Boot np ns} {s s' : State np ns}

/-- The source has its press, or its event, still to send. -/
def SourcePc.Announcing : SourcePc → Prop
  | .press | .sev => True
  | _ => False

/-! ## Where a pending event comes from -/

/-- A `RESET` takes the event down. -/
theorem not_active_of_reset {p : Fin np} {i : Fin ns} (h : epThread cfg p s (.reset i) = some s') :
    s'.event i ≠ srcEventActive := by
  simp only [epThread, provided_eq_some] at h
  obtain ⟨-, rfl⟩ := h
  intro hactive
  exact absurd ((update_self ..).symm.trans hactive) (by decide)

/-- What `malloc` returned is overwritten before the sources start, so an event that is up has been
stored by its source. -/
theorem running_of_active {tr : List (Op np ns)} (h : SysRun cfg b tr s) {i : Fin ns}
    (hreset : s.main.SrcReset i) (hactive : s.event i = srcEventActive) :
    (s.srcPc i).srcReturns = 1 := by
  refine (h.state_invariant (P := fun s => Sync s ∧ (s.main.SrcReset i →
    s.event i = srcEventActive → (s.srcPc i).srcReturns = 1)) ⟨sync_initial, ?_⟩ ?_).2 hreset hactive
  · intro hreset
    exact absurd hreset (Nat.not_lt_zero _)
  rintro u op v ⟨hs, hold⟩ hop
  refine ⟨sync_step hs hop, fun hreset hactive => ?_⟩
  have hreset : u.main.SrcReset i := by
    rcases step_main hop with ⟨o, rfl, ho⟩ | hm
    · refine (mainThread_srcReset ho hreset).resolve_right ?_
      rintro rfl
      simp only [mainThread, provided_eq_some] at ho
      obtain ⟨-, rfl⟩ := ho
      exact absurd ((update_self ..).symm.trans hactive) (by decide)
    · rwa [← hm]
  -- a flag that is up was up before, or the source has just put it up
  rcases step_event hop i with he | ⟨rfl, -⟩ | ⟨q, rfl, ho⟩ | hm
  · exact hs.source_returned_step hop (hold hreset (he ▸ hactive))
  · apply hs.source_returned_step hop
    have ho := (step_eq_some.mp hop).2
    simp only [move, sourceThread, provided_eq_some] at ho
    rw [ho.1]
    rfl
  · exact absurd hactive (not_active_of_reset ho)
  · rw [hm] at hreset
    exact absurd hreset (lt_irrefl (i : Nat))

/-- An event gets pending by an activation, and in no other way. -/
theorem pending_new {tr : List (Op np ns)} (h : SysRun cfg b tr s) {i : Fin ns} {op : Op np ns}
    (hop : step cfg s op = some s') (hp : Pending i s') : Pending i s ∨ op = .source i .activate := by
  have hs := sync h
  have hs' := sync_step hs hop
  -- the source runs, so `main` has reset its flag before
  have hreset : s.main.SrcReset i := by
    rcases step_main hop with ⟨o, rfl, ho⟩ | hm
    · have hpc : s'.srcPc i = s.srcPc i := by
        refine (mainThread_srcPc ho i).resolve_right fun hnew => ?_
        have hrun := hp.running
        rw [hnew.2] at hrun
        cases hrun
      exact srcReset_of_running hs (hpc ▸ hp.running) i
    · rw [← hm]
      exact srcReset_of_running hs' hp.running i
  rcases step_event hop i with he | ⟨rfl, -⟩ | ⟨q, rfl, ho⟩ | hm
  · left
    have hactive : s.event i = srcEventActive := he ▸ hp.active
    refine ⟨hactive, running_of_active h hreset hactive, fun q hq => ?_⟩
    rcases step_ep hop q with ⟨o, rfl, ho⟩ | ⟨-, hpc | ⟨-, hm, -⟩⟩
    · -- a handler that ends would have reset the flag
      refine hp.free q (epThread_handling_kept ho hq ?_)
      rintro rfl
      exact not_active_of_reset ho hp.active
    · exact hp.free q (hpc ▸ hq)
    · rw [hs.ep_unborn hm] at hq
      exact hq
  · exact .inr rfl
  · exact absurd hp.active (not_active_of_reset ho)
  · rw [hm] at hreset
    exact absurd hreset (lt_irrefl (i : Nat))

/-! ## The processor has heard of it

Once the source has announced its event, the processor gets to it without any further help. -/

/-- `main` does not take back that it has told a processor to stop. -/
theorem epStopped_step {p : Fin np} {op : Op np ns} (hop : step cfg s op = some s')
    (hp : s.main.EpStopped p) : s'.main.EpStopped p := by
  rcases step_main hop with ⟨o, -, ho⟩ | hm
  · exact mainThread_epStopped ho hp
  · rwa [hm]

/-- A processor that has found an event handles it. -/
theorem handling_of_found {p : Fin np} {i : Fin ns}
    (hop : step cfg s (.ep p (.isActive i true)) = some s') : (s'.epPc p).Handling i := by
  obtain ⟨-, ho⟩ := step_eq_some.mp hop
  simp only [move, epThread, provided_eq_some] at ho
  obtain ⟨-, rfl⟩ := ho
  simp only [update_self, ↓reduceIte]
  rfl

/-- A step of the source that ends its announcement of a pending event sets the event register,
unless there is a monitor. -/
theorem announced_register {i : Fin ns} {op : Op np ns} (hmon : ¬ cfg.build.useMonitor = true)
    (hop : step cfg s op = some s') (hold : (s.srcPc i).Announcing)
    (hnew : ¬ (s'.srcPc i).Announcing) (hrun : (s'.srcPc i).srcReturns = 1) :
    ∀ p, s'.eventRegister p = true := by
  rcases step_source hop i with ⟨o, rfl, ho⟩ | ⟨-, he | ⟨-, -, hstart⟩ | ⟨hsleep, -⟩⟩
  · cases hpc : s.srcPc i <;> rw [hpc] at hold
    case press =>
      have hsev := (sourceThread_pressed hpc ho).2
      rw [if_neg hmon] at hsev
      rw [hsev] at hnew
      exact absurd trivial hnew
    case sev => exact (sourceThread_sev hpc ho).2
    all_goals exact absurd hold id
  · rw [he] at hnew
    exact absurd hold hnew
  · rw [hstart] at hrun
    cases hrun
  · rw [hsleep] at hold
    exact absurd hold id

/-- In every reachable state a processor that has not been told to stop is on its way to every
pending event of its sources that has been announced. -/
theorem due_of_pending {i : Fin ns} (hatt : cfg.Attentive (cfg.chooseEp i)) {tr : List (Op np ns)}
    (h : SysRun cfg b tr s) (hp : Pending i s) (hdone : ¬ (s.srcPc i).Announcing)
    (hwork : ¬ s.main.EpStopped (cfg.chooseEp i)) : Due cfg (cfg.chooseEp i) i s := by
  have hpress {u : State np ns} (hdone : ¬ (u.srcPc i).Announcing) :
      cfg.build.useDoorbell = true → u.srcPc i ≠ .press := by
    rintro - hpc
    rw [hpc] at hdone
    exact hdone trivial
  -- a processor that polls, or one whose wait notices the press
  rcases hatt with hbusy | ⟨hdb, hgranule⟩
  · exact due_of_heard h hp hwork (hpress hdone) (.inl hbusy)
  by_cases hmon : cfg.build.useMonitor = true
  · exact due_of_heard h hp hwork (hpress hdone) (.inr (.inr ⟨hmon, hgranule hmon⟩))
  -- the `SEV` of another source may be outstanding, but that of source `i` is not
  refine h.invariant (P := fun _ s => Pending i s → ¬ (s.srcPc i).Announcing →
    ¬ s.main.EpStopped (cfg.chooseEp i) → Due cfg (cfg.chooseEp i) i s) ?_ ?_ hp hdone hwork
  · intro hp
    cases hp.running
  intro tr u op v hrun hold hop hp hdone hwork
  have hworking : ¬ u.main.EpStopped (cfg.chooseEp i) := fun hstop => hwork (epStopped_step hop hstop)
  rcases pending_new hrun hop hp with hpending | rfl
  · by_cases hann : (u.srcPc i).Announcing
    · -- the `SEV` of the source itself has set the event register
      have hreg := announced_register hmon hop hann hdone hp.running
      exact due_of_heard (hrun.snoc hop) hp hwork (hpress hdone) (.inr (.inl (hreg _)))
    · refine ((hold hpending hann hworking).next hrun hpending hworking ?_ hop).1
      rintro rfl
      exact hp.free _ (handling_of_found hop)
  · -- the activation is not announced yet
    obtain ⟨-, ho⟩ := step_eq_some.mp hop
    simp only [move, sourceThread, provided_eq_some, hdb, ↓reduceIte] at ho
    obtain ⟨-, rfl⟩ := ho
    simp only [update_self] at hdone
    exact absurd trivial hdone

/-! ## The way to the source -/

/-- The longest way starts right behind the `RESET` of the source itself. -/
theorem EpPc.stepsTo_le {i : Fin ns} {pc : EpPc ns} (hfree : ¬ pc.Handling i) :
    pc.stepsTo i ≤ 6 * ns + 4 := by
  have hns := i.isLt
  cases pc
  case work j | endTs j | reset j =>
    have hne : (j : Nat) ≠ i := fun hji => hfree (Fin.ext hji)
    simp only [EpPc.stepsTo, scanDistance]
    split_ifs <;> omega
  all_goals
    simp only [EpPc.stepsTo, scanDistance]
    try split_ifs
    all_goals omega

theorem Op.ofEp_iff {p : Fin np} {op : Op np ns} : op.ofEp p = true ↔ ∃ o, op = .ep p o := by
  cases op <;> simp [Op.ofEp]

theorem Op.loads_iff {p : Fin np} {j : Fin ns} {op : Op np ns} :
    op.loads p j = true ↔ ∃ active, op = .ep p (.isActive j active) := by
  cases op with
  | ep q o => cases o <;> simp [Op.loads]
  | _ => simp [Op.loads]

/-- How far the processor is from source `i` while it loads source `j`. -/
theorem stepsTo_of_loads {p : Fin np} {i j : Fin ns} {op : Op np ns} (hload : op.loads p j = true)
    (hop : step cfg s op = some s') : (s.epPc p).stepsTo i = scanDistance ns i j := by
  obtain ⟨active, rfl⟩ := Op.loads_iff.mp hload
  have ho := (step_eq_some.mp hop).2
  simp only [move, epThread, provided_eq_some] at ho
  rw [ho.1.1]
  rfl

/-- While the event of source `i` waits its processor comes closer: after the steps `post` it has
spent what it was away at first, `n`, and it has no load both behind and in front of it. -/
structure Approaching (cfg : Config np ns) (i : Fin ns) (n : Nat) (post : List (Op np ns))
    (s : State np ns) : Prop where
  pending : Pending i s
  due : Due cfg (cfg.chooseEp i) i s
  returned : 1 ≤ (s.epPc (cfg.chooseEp i)).returns
  steps : post.countP (Op.ofEp (cfg.chooseEp i)) + (s.epPc (cfg.chooseEp i)).stepsTo i ≤ n
  loads : ∀ j : Fin ns, post.countP (Op.loads (cfg.chooseEp i) j) +
    (if scanDistance ns i j ≤ (s.epPc (cfg.chooseEp i)).stepsTo i then 1 else 0) ≤ 1

/-- Until the event is found, a step of the processor brings it closer to the source, and the steps
of the others leave it where it is. -/
theorem Approaching.next {tr : List (Op np ns)} (h : SysRun cfg b tr s) {i : Fin ns} {n : Nat}
    {post : List (Op np ns)} (ha : Approaching cfg i n post s)
    (hwork : ¬ s.main.EpStopped (cfg.chooseEp i)) {op : Op np ns}
    (hfind : ∀ q, op ≠ .ep q (.isActive i true)) (hop : step cfg s op = some s') :
    Approaching cfg i n (post ++ [op]) s' := by
  obtain ⟨hpending, hdue, hret, hsteps, hloads⟩ := ha
  obtain ⟨hdue', hpc⟩ := hdue.next h hpending hwork (hfind _) hop
  have hpending' : Pending i s' :=
    (step_pending (sync h) hpending hop).resolve_right fun ⟨q, hq⟩ => hfind q hq
  refine ⟨hpending', hdue', (sync h).ep_returned_step hop hret, ?_, fun j => ?_⟩
  · rw [List.countP_append, List.countP_singleton]
    -- a step of the processor brings it closer, and a step of another leaves it
    rcases hpc with hlt | ⟨hother, hpc⟩
    · split_ifs <;> omega
    · rw [if_neg fun hown => (Op.ofEp_iff.mp hown).elim hother, hpc]
      exact hsteps
  · have hloads := hloads j
    rw [List.countP_append, List.countP_singleton]
    by_cases hload : op.loads (cfg.chooseEp i) j = true
    · -- a load of another source, which the scan comes by only once on its way
      have hdist := stepsTo_of_loads (i := i) hload hop
      have hlt := hpc.resolve_right fun hpc => (Op.loads_iff.mp hload).elim fun _ => hpc.1 _
      rw [if_pos hdist.ge] at hloads
      rw [if_pos hload, if_neg (by omega)]
      exact hloads
    · have hle : (s'.epPc (cfg.chooseEp i)).stepsTo i ≤ (s.epPc (cfg.chooseEp i)).stepsTo i :=
        hpc.elim le_of_lt fun hpc => (congrArg (EpPc.stepsTo i) hpc.2).le
      rw [if_neg hload]
      split_ifs at hloads ⊢ <;> omega

/-- What the processor of source `i` has done in the steps `post`, and what it can do in the state
`s` they lead to. -/
structure ServesPromptly (cfg : Config np ns) (i : Fin ns) (post : List (Op np ns))
    (s : State np ns) : Prop where
  steps : post.countP (Op.ofEp (cfg.chooseEp i)) ≤ 6 * ns + 4
  /-- No source is served twice before source `i`. -/
  loads : ∀ j, post.countP (Op.loads (cfg.chooseEp i) j) ≤ 1
  /-- It is not held up. -/
  ready : ∃ o s', step cfg s (.ep (cfg.chooseEp i) o) = some s'

/-- However the threads are interleaved, until a pending event that has been announced is found, or
`main` tells its processor to stop, that processor is on a short way to it, if it has got past its
first wait. -/
theorem served_promptly {i : Fin ns} (hatt : cfg.Attentive (cfg.chooseEp i)) {tr : List (Op np ns)}
    (h : SysRun cfg b tr s) (hret : 1 ≤ (s.epPc (cfg.chooseEp i)).returns) (hp : Pending i s)
    (hdone : ¬ (s.srcPc i).Announcing)
    {post : List (Op np ns)} {t : State np ns} (hpost : Run (step cfg) s post t) :
    (∃ q, Op.ep q (.isActive i true) ∈ post) ∨ t.main.EpStopped (cfg.chooseEp i) ∨
      ServesPromptly cfg i post t := by
  by_cases hfound : ∃ q, Op.ep q (.isActive i true) ∈ post
  · exact .inl hfound
  by_cases hwork : t.main.EpStopped (cfg.chooseEp i)
  · exact .inr (.inl hwork)
  right; right
  -- a processor that is not told to stop at the end was not told before
  have hworks : ¬ s.main.EpStopped (cfg.chooseEp i) := by
    intro hstop
    exact hwork (hpost.state_invariant (P := fun s => s.main.EpStopped (cfg.chooseEp i)) hstop
      fun _ _ _ hold hop => epStopped_step hop hold)
  have hdue := due_of_pending hatt h hp hdone hworks
  -- by induction on the run, whose steps are all of somebody else or on the way
  have hway : Approaching cfg i ((s.epPc (cfg.chooseEp i)).stepsTo i) post t := by
    refine hpost.invariant (P := fun post t => (∀ q, Op.ep q (.isActive i true) ∉ post) →
      ¬ t.main.EpStopped (cfg.chooseEp i) →
        Approaching cfg i ((s.epPc (cfg.chooseEp i)).stepsTo i) post t) ?_ ?_
      (fun q hq => hfound ⟨q, hq⟩) hwork
    · intro _ _
      refine ⟨hp, hdue, hret, by simp, fun j => ?_⟩
      rw [List.countP_nil, Nat.zero_add]
      split_ifs <;> omega
    · intro pre u op v hrun hold hop hno hwork
      have hway := hold (fun q hq => hno q (List.mem_append_left _ hq))
        fun hstop => hwork (epStopped_step hop hstop)
      refine hway.next (h.append hrun) (fun hstop => hwork (epStopped_step hop hstop)) ?_ hop
      rintro q rfl
      exact hno q (List.mem_append_right _ List.mem_cons_self)
  have hle := EpPc.stepsTo_le (hp.free (cfg.chooseEp i))
  constructor
  case steps =>
    have hsteps := hway.steps
    omega
  case loads => exact fun j => (Nat.le_add_right _ _).trans (hway.loads j)
  case ready => exact hway.due.ready (h.append hpost) hway.pending hwork hway.returned

/-- The press and the event find the processor in `WFE`, and it sets off. -/
theorem served_promptly_single : ∃ tr s post t, SysRun (single .wfeDbNomon 4) zeroed tr s ∧
    Pending 0 s ∧ s.epPc 0 = .wfe ∧ Run (step (single .wfeDbNomon 4)) s post t ∧
    post.countP (Op.ofEp 0) = 3 ∧ ServesPromptly (single .wfeDbNomon 4) 0 post t := by
  let post : List (Op 1 1) := [.wfe, .inactiveEnd ⟨2, 0⟩, .wakeup].map (.ep 0)
  obtain ⟨s, hs, hactive, hsrc, hep, hnext⟩ := exists_run (step (single .wfeDbNomon 4))
    (initial zeroed) (startUp (single .wfeDbNomon 4) zeroed ++ toWfe 0 ++ [.source 0 (.returned 0)] ++
      activation 0 ⟨1, 0⟩ ++ ([.press, .sev] : List SourceOp).map (.source 0))
    (fun s => s.event 0 = srcEventActive ∧ s.srcPc 0 = .loop ∧ s.epPc 0 = .wfe ∧
      (exec (step (single .wfeDbNomon 4)) s post).any (fun t => t.main = .usleep) = true) (by decide)
  obtain ⟨t, ht, hmain⟩ := exists_run _ s post (fun t => t.main = .usleep) hnext
  have hp : Pending 0 s := by
    refine ⟨hactive, by rw [hsrc]; rfl, fun p => ?_⟩
    rw [Subsingleton.elim p 0, hep]
    exact id
  refine ⟨_, s, post, t, hs, hp, hep, ht, by decide, ?_⟩
  have hdone : ¬ (s.srcPc 0).Announcing := by
    rw [hsrc]
    exact id
  -- the processor has returned from its first wait
  have hret (p : Fin 1) : 1 ≤ (s.epPc p).returns := by
    rw [Subsingleton.elim p 0, hep]
    exact le_rfl
  rcases served_promptly (.inr ⟨rfl, by decide⟩) hs (hret _) hp hdone ht with ⟨q, hq⟩ | hstop | hserved
  · rw [Subsingleton.elim q 0] at hq
    exact absurd hq (by decide)
  · rw [hmain] at hstop
    simp [MainPc.EpStopped, MainPc.stage] at hstop
  · exact hserved

end Wfey
