import Wfey.Activation

/-!
# What a latency sample measures

`start_ts` is one slot per source, which the source overwrites at every activation and the
processor reads only after the work and after the store of `RESET`. A sample measures from the
activation that was served as long as the source keeps away from the slot in between
(`samples_match`); otherwise it may measure from a later activation, and be dropped
(`sample_dropped`).
-/

namespace Wfey

open Conc (EveryStep Since exists_run provided_eq_some run_append run_cons)
open Function (update update_self update_of_ne)

variable {np ns : Nat} {cfg : Config np ns} {b : Boot np ns} {s s' : State np ns}

/-! ## Clocks -/

/-- The clock reading a step takes. -/
def Op.reading : Op np ns → Option Timespec
  | .main (.srcEndTs _ now) | .source _ (.startTs now) | .ep _ (.endTs _ now)
  | .ep _ (.activeStart now) | .ep _ (.inactiveStart now) | .ep _ (.inactiveEnd now)
  | .ep _ (.activeEnd now) => some now
  | _ => none

/-- Successive readings strictly increase, and none is `2 ^ 63` ns or more after time 0. -/
structure Clock (tr : List (Op np ns)) : Prop where
  increasing : (tr.filterMap Op.reading).Pairwise fun r r' => r.ns < r'.ns
  bounded : ∀ r ∈ tr.filterMap Op.reading, 0 ≤ r.ns ∧ r.ns < 2 ^ 63

/-! ## Announcements and handler runs

An announcement is a start stamp followed by its store of `ACTIVE`, and a handler run goes from a
load to a record. -/

/-- The step neither stamps nor stores an activation of source `i`. -/
def QuietFor (i : Fin ns) (op : Op np ns) : Prop :=
  op ≠ .source i .activate ∧ ∀ now, op ≠ .source i (.startTs now)

/-- In `tr`, source `i` has written the stamp `t` and then stored `ACTIVE` for it. -/
def Announced (tr : List (Op np ns)) (i : Fin ns) (t : Timespec) : Prop :=
  ∃ pre post mid rest, tr = pre ++ .source i .activate :: post ∧
    Since (.source i (.startTs t)) (QuietFor i) pre mid rest

/-- The operations of a handler run of source `i` between the load and the statistics. -/
def EpOp.Handles (i : Fin ns) : EpOp ns → Prop
  | .workFunc j _ | .endTs j _ | .reset j | .tsDiff j => j = i
  | _ => False

/-- The step is none of processor `p`, or belongs to its handler run of source `i`. -/
def OwnHandles (p : Fin np) (i : Fin ns) (op : Op np ns) : Prop := ∀ o, op = .ep p o → o.Handles i

/-- Processor `p` is in a handler run of source `i` whose load was preceded by the announcement of
the stamp `start`; `post` is what has happened since the load. -/
def Serving (tr : List (Op np ns)) (p : Fin np) (i : Fin ns) (start : Timespec)
    (post : List (Op np ns)) : Prop :=
  ∃ pre, Since (.ep p (.isActive i true)) (OwnHandles p i) tr pre post ∧ Announced pre i start

/-- Every handler run that completes adds one sample to its source: its `end_ts` minus the stamp of
an activation whose store of `ACTIVE` came before the load that started the run. -/
def SamplesMatch (cfg : Config np ns) (b : Boot np ns) (tr : List (Op np ns)) : Prop :=
  ∀ before p i sample after, tr = before ++ .ep p (.record i sample) :: after →
    ∃ start stop post u v, Serving before p i start post ∧ (∃ q, .ep q (.endTs i stop) ∈ post) ∧
      (sample.toNat : Int) = stop.ns - start.ns ∧
      SysRun cfg b before u ∧ step cfg u (.ep p (.record i sample)) = some v ∧
      v.stats i = (u.stats i).add sample

theorem Announced.snoc {tr : List (Op np ns)} {i : Fin ns} {t : Timespec} (h : Announced tr i t)
    (op : Op np ns) : Announced (tr ++ [op]) i t := by
  obtain ⟨pre, post, mid, rest, rfl, hsince⟩ := h
  exact ⟨pre, post ++ [op], mid, rest, by simp, hsince⟩

theorem Serving.snoc {tr post : List (Op np ns)} {p : Fin np} {i : Fin ns} {start : Timespec}
    (h : Serving tr p i start post) {op : Op np ns} (hop : OwnHandles p i op) :
    Serving (tr ++ [op]) p i start (post ++ [op]) := by
  obtain ⟨pre, hsince, hann⟩ := h
  exact ⟨pre, hsince.snoc hop, hann⟩

/-! ## The condition

A load may come before the initialisation, and a source may activate again under the handler. Both
make a sample of stamps that do not belong together. -/

/-- The processor is handling source `i` and has not yet read the stamps. -/
def EpPc.Stamping (i : Fin ns) : EpPc ns → Prop
  | .diff j => j = i
  | pc => pc.Handling i

instance (i : Fin ns) (pc : EpPc ns) : Decidable (pc.Stamping i) :=
  decidable_of_iff (pc = .diff i ∨ pc.Handling i) (by cases pc <;> simp [EpPc.Stamping, EpPc.Handling])

/-- The source whose stamp a step writes. -/
def Op.stamped : Op np ns → Option (Fin ns)
  | .source i (.startTs _) => some i
  | _ => none

/-- The step writes no stamp of a source that is being handled, and starts no handler run of a
source that is between its stamp and its store, or before `main` has initialised the sources. -/
structure Undisturbed (s : State np ns) (op : Op np ns) : Prop where
  stamp : ∀ i, op.stamped = some i → ∀ p, ¬ (s.epPc p).Stamping i
  load : ∀ p i, op = .ep p (.isActive i true) → s.srcPc i ≠ .activate ∧ 6 < s.main.stage

instance (s : State np ns) (op : Op np ns) : Decidable (Undisturbed s op) :=
  decidable_of_iff ((∀ i, op.stamped = some i → ∀ p, ¬ (s.epPc p).Stamping i) ∧
    ∀ p i, op = .ep p (.isActive i true) → s.srcPc i ≠ .activate ∧ 6 < s.main.stage)
    ⟨fun h => ⟨h.1, h.2⟩, fun h => ⟨h.stamp, h.load⟩⟩

/-! ## The stamps of the sources -/

/-- The stamp of a source belongs to the activation under way, or to the one that is up. -/
structure Stamps (tr : List (Op np ns)) (s : State np ns) : Prop where
  writing : ∀ i, s.srcPc i = .activate →
    ∃ mid rest, Since (.source i (.startTs (s.startTs i))) (QuietFor i) tr mid rest
  announced : ∀ i : Fin ns, s.main.SrcReset i → s.event i = srcEventActive →
    (s.srcPc i).srcReturns = 1 ∧ (s.srcPc i ≠ .activate → Announced tr i (s.startTs i))

/-- No source has read the clock. -/
theorem stamps_initial : Stamps [] (initial b : State np ns) where
  writing i hi := by simp [initial] at hi
  announced i hi := absurd hi (Nat.not_lt_zero _)

/-- A step that stamps and stores nothing keeps the stamps. -/
theorem Stamps.keep {tr : List (Op np ns)} {op : Op np ns} (h : Stamps tr s)
    (hquiet : ∀ i, QuietFor i op)
    (hpc : ∀ i, s'.srcPc i = .activate ↔ s.srcPc i = .activate)
    (hret : ∀ i, (s.srcPc i).srcReturns = 1 → (s'.srcPc i).srcReturns = 1)
    (hstamp : s'.startTs = s.startTs)
    (hup : ∀ i : Fin ns, s'.main.SrcReset i → s'.event i = srcEventActive →
      s.main.SrcReset i ∧ s.event i = srcEventActive) : Stamps (tr ++ [op]) s' where
  writing i hi := by
    obtain ⟨mid, rest, hsince⟩ := h.writing i ((hpc i).mp hi)
    exact ⟨mid, rest ++ [op], hstamp ▸ hsince.snoc (hquiet i)⟩
  announced i hreset hactive := by
    obtain ⟨hreset', hactive'⟩ := hup i hreset hactive
    obtain ⟨hrun, hann⟩ := h.announced i hreset' hactive'
    exact ⟨hret i hrun, fun hne => hstamp ▸ (hann (mt (hpc i).mpr hne)).snoc op⟩

/-- A source stamps first and stores `ACTIVE` second. -/
theorem sourceThread_stamps {tr : List (Op np ns)} {j : Fin ns} {o : SourceOp} (h : Stamps tr s)
    (hop : sourceThread cfg j s o = some s') :
    Stamps (tr ++ [.source j o]) s' := by
  have hf := sourceThread_frame hop
  -- the steps of a source neither stamp nor announce for another
  have hquiet (i : Fin ns) (hij : i ≠ j) : QuietFor i (.source j o : Op np ns) := by
    constructor
    · rintro ⟨⟩
      exact hij rfl
    · rintro now ⟨⟩
      exact hij rfl
  constructor
  case writing =>
    intro i hi
    by_cases hij : i = j
    · subst hij
      cases o
      case startTs now =>
        simp only [sourceThread, provided_eq_some] at hop
        obtain ⟨-, rfl⟩ := hop
        simp only [update_self]
        -- the stamp is the one that was just written
        exact ⟨tr, [], Since.now _ _ _⟩
      all_goals
        simp only [sourceThread, provided_eq_some] at hop
        obtain ⟨-, rfl⟩ := hop
        simp only [update_self] at hi
        try split_ifs at hi
        all_goals cases hi
    · rw [hf.srcPc i hij] at hi
      obtain ⟨mid, rest, hsince⟩ := h.writing i hi
      rw [hf.startTs i hij]
      exact ⟨mid, _, hsince.snoc (hquiet i hij)⟩
  case announced =>
    intro i hreset hactive
    rw [hf.main] at hreset
    by_cases hij : i = j
    · subst hij
      cases o
      case activate =>
        simp only [sourceThread, provided_eq_some] at hop
        obtain ⟨hpc, rfl⟩ := hop
        obtain ⟨mid, rest, hsince⟩ := h.writing i hpc
        refine ⟨?_, fun _ => ⟨tr, [], mid, rest, rfl, hsince⟩⟩
        simp only [update_self]
        split_ifs <;> rfl
      case startTs now =>
        -- the old announcement is gone with its stamp, and the new one is not complete
        simp only [sourceThread, provided_eq_some] at hop
        obtain ⟨-, rfl⟩ := hop
        simp only [update_self]
        exact ⟨rfl, fun hne => absurd rfl hne⟩
      all_goals
        have hret := sourceThread_returned hop
        simp only [sourceThread, provided_eq_some] at hop
        obtain ⟨hpc, rfl⟩ := hop
        obtain ⟨hrun, hann⟩ := h.announced i hreset hactive
        exact ⟨hret hrun, fun _ => (hann (by simp [hpc])).snoc _⟩
    · rw [hf.event i hij] at hactive
      obtain ⟨hrun, hann⟩ := h.announced i hreset hactive
      rw [hf.srcPc i hij, hf.startTs i hij]
      exact ⟨hrun, fun hne => (hann hne).snoc _⟩

/-- Nobody else writes a stamp of a source. -/
theorem stamps_step {tr : List (Op np ns)} {op : Op np ns} (hs : Sync s) (h : Stamps tr s)
    (hop : step cfg s op = some s') : Stamps (tr ++ [op]) s' := by
  have hret (i : Fin ns) := hs.source_returned_step hop (i := i)
  cases step_by hop with
  | main o ho =>
      refine h.keep (fun i => ⟨by simp, by simp⟩) (fun i => ?_) hret ((mainThread_frame ho).startTs)
        fun i hreset hactive => ?_
      · rcases mainThread_srcPc ho i with he | ⟨hpc, he⟩
        · rw [he]
        · simp [he, hs.source_unborn hpc]
      · exact mainThread_active ho hreset hactive
  | ep p o ho =>
      have hf := epThread_frame ho
      refine h.keep (fun i => ⟨by simp, by simp⟩) (fun i => by rw [hf.srcPc]) hret hf.startTs
        fun i hreset hactive => ⟨hf.main ▸ hreset, ?_⟩
      -- a processor only lowers flags, and this one is up
      have hne : s'.event i ≠ srcEventReset := by
        rw [hactive]
        decide
      rwa [← (epThread_event ho i).resolve_right fun he => hne he.2]
  | source j o ho => exact sourceThread_stamps h ho
  | idle c o ho =>
      have hf := (idleThread_frame ho).rest
      exact h.keep (fun i => ⟨by simp, by simp⟩) (fun i => by rw [hf]) hret (by rw [hf])
        (fun i => by rw [hf]; exact And.intro)
  | env op henv hf =>
      have hstamp (i : Fin ns) : (s'.srcPc i = .activate) = (s.srcPc i = .activate) :=
        hf.phase (fun pc => pc = .activate) (by simp) i
      exact h.keep (fun i => ⟨henv.ne_source i _, fun _ => henv.ne_source i _⟩)
        (fun i => Iff.of_eq (hstamp i)) hret (by rw [hf.rest])
        (fun i => by rw [hf.rest]; exact And.intro)

/-! ## The handler runs -/

/-- What is known of a handler run of processor `p`, point by point. -/
def Handler (p : Fin np) (tr : List (Op np ns)) (s : State np ns) : Prop :=
  match s.epPc p with
  | .work i | .endTs i => 13 ≤ s.main.stage ∧ ∃ post, Serving tr p i (s.startTs i) post
  | .reset i | .diff i => 13 ≤ s.main.stage ∧ ∃ post, Serving tr p i (s.startTs i) post ∧
      ∃ q, .ep q (.endTs i (s.endTs i)) ∈ post
  | .record i sample => ∃ post start stop, Serving tr p i start post ∧
      sample = tsDiff start stop ∧ ∃ q, .ep q (.endTs i stop) ∈ post
  | _ => True

/-- Steps of others keep a handler run going, as long as they leave its stamps alone. -/
theorem Handler.keep {p : Fin np} {tr : List (Op np ns)} {op : Op np ns} (h : Handler p tr s)
    (hpc : s'.epPc p = s.epPc p) (hstage : s.main.stage ≤ s'.main.stage)
    (hown : ∀ i, OwnHandles p i op)
    (hstart : ∀ i, (s.epPc p).Stamping i → s'.startTs i = s.startTs i)
    (hend : ∀ i, 13 ≤ s.main.stage →
      s'.endTs i = s.endTs i ∨ ∃ q, op = .ep q (.endTs i (s'.endTs i))) :
    Handler p (tr ++ [op]) s' := by
  unfold Handler at h ⊢
  rw [hpc]
  cases hp : s.epPc p <;> rw [hp] at h hstart
  case work i | endTs i =>
    obtain ⟨hmain, post, hserve⟩ := h
    refine ⟨hmain.trans hstage, post ++ [op], ?_⟩
    rw [hstart i rfl]
    exact hserve.snoc (hown i)
  case reset i | diff i =>
    -- an end stamp may be overwritten, but by a processor only
    obtain ⟨hmain, post, hserve, q, hq⟩ := h
    refine ⟨hmain.trans hstage, post ++ [op], ?_, ?_⟩
    · rw [hstart i rfl]
      exact hserve.snoc (hown i)
    · rcases hend i hmain with he | ⟨q', rfl⟩
      · rw [he]
        exact ⟨q, List.mem_append_left _ hq⟩
      · exact ⟨q', List.mem_append_right _ (List.mem_singleton_self _)⟩
  case record i sample =>
    -- from `ts_diff` on the sample is a local variable: nobody can change it any more
    obtain ⟨post, start, stop, hserve, hsample, q, hq⟩ := h
    exact ⟨post ++ [op], start, stop, hserve.snoc (hown i), hsample, q, List.mem_append_left _ hq⟩
  all_goals trivial

/-- A step of the processor itself takes its handler run one point further. -/
theorem epThread_handler {p : Fin np} {o : EpOp ns} {tr : List (Op np ns)} (hs : Sync s)
    (hstamps : Stamps tr s) (h : Handler p tr s) (hund : Undisturbed s (.ep p o))
    (hop : epThread cfg p s o = some s') : Handler p (tr ++ [.ep p o]) s' := by
  have hown (i : Fin ns) (ho : o.Handles i) : OwnHandles p i (.ep p o : Op np ns) := by
    rintro _ ⟨⟩
    exact ho
  cases o
  case isActive i active =>
    have hload := hund.load p i
    simp only [epThread, provided_eq_some] at hop
    obtain ⟨⟨hpc, rfl⟩, rfl⟩ := hop
    by_cases hactive : s.event i = srcEventActive
    · -- the run starts: its stamp was announced before the load
      simp only [hactive, decide_true] at hload ⊢
      obtain ⟨hne, hmain⟩ := hload trivial
      obtain ⟨hrun, hann⟩ := hstamps.announced i (srcReset_of_stage hmain i) hactive
      simp only [Handler, update_self, ↓reduceIte]
      exact ⟨hs.main_of_source hrun, [], tr, Since.now _ _ _, hann hne⟩
    · simp [Handler, hactive]
  case workFunc i f =>
    simp only [epThread, provided_eq_some] at hop
    obtain ⟨⟨hpc, -⟩, rfl⟩ := hop
    rw [Handler, hpc] at h
    obtain ⟨hmain, post, hserve⟩ := h
    simp only [Handler, update_self]
    exact ⟨hmain, _, hserve.snoc (hown i rfl)⟩
  case endTs i now =>
    simp only [epThread, provided_eq_some] at hop
    obtain ⟨hpc, rfl⟩ := hop
    rw [Handler, hpc] at h
    obtain ⟨hmain, post, hserve⟩ := h
    simp only [Handler, update_self]
    exact ⟨hmain, _, hserve.snoc (hown i rfl), p,
      List.mem_append_right _ (List.mem_singleton_self _)⟩
  case reset i =>
    simp only [epThread, provided_eq_some] at hop
    obtain ⟨hpc, rfl⟩ := hop
    rw [Handler, hpc] at h
    obtain ⟨hmain, post, hserve, q, hq⟩ := h
    simp only [Handler, update_self]
    exact ⟨hmain, _, hserve.snoc (hown i rfl), q, List.mem_append_left _ hq⟩
  case tsDiff i =>
    simp only [epThread, provided_eq_some] at hop
    obtain ⟨hpc, rfl⟩ := hop
    rw [Handler, hpc] at h
    obtain ⟨-, post, hserve, q, hq⟩ := h
    simp only [Handler, update_self]
    exact ⟨_, _, _, hserve.snoc (hown i rfl), rfl, q, List.mem_append_left _ hq⟩
  all_goals
    simp only [epThread, provided_eq_some] at hop
    obtain ⟨-, rfl⟩ := hop
    simp only [Handler, update_self]
    try split_ifs
    all_goals trivial

/-- `main` writes an end stamp only while it initialises the sources. -/
theorem mainThread_endTs {o : MainOp np ns} (h : mainThread cfg s o = some s') :
    s'.endTs = s.endTs ∨ s.main.stage ≤ 6 := by
  cases o
  all_goals
    simp only [mainThread, provided_eq_some] at h
    obtain ⟨hpc, rfl⟩ := h
    first
    | exact .inl rfl
    | exact .inr (by simp [hpc, MainPc.stage])

/-- A processor writes the end stamp in its handler runs only. -/
theorem epThread_endTs {p : Fin np} {o : EpOp ns} (h : epThread cfg p s o = some s') (i : Fin ns) :
    s'.endTs i = s.endTs i ∨ o = .endTs i (s'.endTs i) := by
  cases o
  case endTs j now =>
    simp only [epThread, provided_eq_some] at h
    obtain ⟨-, rfl⟩ := h
    by_cases hij : i = j
    · subst hij
      exact .inr (by simp only [update_self])
    · exact .inl (update_of_ne hij _ _)
  all_goals
    simp only [epThread, provided_eq_some] at h
    obtain ⟨-, rfl⟩ := h
    exact .inl rfl

/-- Within a handler run that is left alone the two stamps are those of its event. A case for each
of its steps, and one for what the others do meanwhile. -/
theorem handler_step {p : Fin np} {tr : List (Op np ns)} {op : Op np ns} (hs : Sync s)
    (hstamps : Stamps tr s) (h : Handler p tr s) (hund : Undisturbed s op)
    (hop : step cfg s op = some s') : Handler p (tr ++ [op]) s' := by
  cases step_by hop with
  | main o ho =>
      rcases mainThread_epPc ho p with hpc | ⟨-, hpc⟩
      · refine h.keep hpc (mainThread_stage ho) (fun i => by simp [OwnHandles])
          (fun i _ => by rw [(mainThread_frame ho).startTs]) fun i hmain => .inl ?_
        rw [(mainThread_endTs ho).resolve_right (by omega)]
      · simp [Handler, hpc]
  | ep q o ho =>
      by_cases hqp : p = q
      · subst hqp
        exact epThread_handler hs hstamps h hund ho
      · have hf := epThread_frame ho
        refine h.keep (hf.epPc p hqp) (by rw [hf.main]) (fun i => ?_) (fun i _ => by rw [hf.startTs])
          fun i _ => ?_
        · rintro _ ⟨⟩
          exact absurd rfl hqp
        · -- another processor may handle the same source, and write its end stamp
          exact (epThread_endTs ho i).imp_right fun he => ⟨q, congrArg _ he⟩
  | source j o ho =>
      have hf := sourceThread_frame ho
      refine h.keep (by rw [hf.epPc]) (by rw [hf.main]) (fun i => by simp [OwnHandles])
        (fun i hi => ?_) (fun i _ => .inl (by rw [hf.endTs]))
      by_cases hij : i = j
      · subst hij
        cases o
        -- a new stamp under the handler is the disturbance that is excluded
        case startTs => exact absurd hi (hund.stamp i rfl p)
        all_goals
          simp only [sourceThread, provided_eq_some] at ho
          obtain ⟨-, rfl⟩ := ho
          rfl
      · exact hf.startTs i hij
  | idle c o ho =>
      have hf := (idleThread_frame ho).rest
      exact h.keep (by rw [hf]) (by rw [hf]) (fun i => by simp [OwnHandles]) (fun i _ => by rw [hf])
        (fun i _ => .inl (by rw [hf]))
  | env op henv hf =>
      exact h.keep (by rw [hf.rest]) (by rw [hf.rest]) (fun i o e => absurd e (henv.ne_ep p o))
        (fun i _ => by rw [hf.rest]) (fun i _ => .inl (by rw [hf.rest]))

/-! ## Every run -/

/-- Every handler run of an undisturbed run has the stamps of its event. -/
theorem handlers {tr : List (Op np ns)} (h : SysRun cfg b tr s)
    (hund : EveryStep (step cfg) Undisturbed (initial b) tr) (p : Fin np) : Handler p tr s := by
  refine (h.invariant_of_everyStep (P := fun tr s => Sync s ∧ Stamps tr s ∧ Handler p tr s)
    ⟨sync_initial, stamps_initial, trivial⟩ (fun tr s op t _ hst hC hop => ?_) hund).2.2
  obtain ⟨hs, hstamps, hhandler⟩ := hst
  exact ⟨sync_step hs hop, stamps_step hs hstamps hop, handler_step hs hstamps hhandler hC hop⟩

/-- A stamp that was announced is a reading of the clock. -/
theorem Announced.reading {tr : List (Op np ns)} {i : Fin ns} {t : Timespec}
    (h : Announced tr i t) : t ∈ tr.filterMap Op.reading := by
  obtain ⟨pre, post, mid, rest, rfl, rfl, -⟩ := h
  simp [Op.reading]

/-- In a run in which nobody disturbs the stamps of a handler run, every sample is right, and none
is dropped. -/
theorem samples_match {tr : List (Op np ns)} (h : SysRun cfg b tr s)
    (hund : EveryStep (step cfg) Undisturbed (initial b) tr) (hclock : Clock tr) :
    SamplesMatch cfg b tr := by
  rintro before p i sample after rfl
  obtain ⟨u, hu, hrest⟩ := run_append.mp h
  obtain ⟨v, hv, -⟩ := run_cons.mp hrest
  have hrecord := hv
  obtain ⟨-, hop⟩ := step_eq_some.mp hv
  simp only [move, epThread, provided_eq_some] at hop
  obtain ⟨hpc, rfl⟩ := hop
  have hhandler := handlers hu hund.prefix p
  rw [Handler, hpc] at hhandler
  obtain ⟨post, start, stop, hserve, rfl, q, hq⟩ := hhandler
  -- the two stamps are readings on either side of the load
  obtain ⟨pre, ⟨hbefore, -⟩, hann⟩ := id hserve
  have hstart := hann.reading
  have hstop : stop ∈ (Op.ep p (.isActive i true) :: post).filterMap Op.reading :=
    List.mem_filterMap.mpr ⟨_, List.mem_cons_of_mem _ hq, rfl⟩
  have hincr := hclock.increasing
  have hbound := hclock.bounded
  rw [hbefore, List.filterMap_append, List.filterMap_append] at hincr hbound
  -- the clock goes forward, so the stamps are in order
  have hlt : start.ns < stop.ns :=
    (List.pairwise_append.mp (List.pairwise_append.mp hincr).1).2.2 _ hstart _ hstop
  have hlo := hbound start (by simp [hstart])
  have hhi := hbound stop (List.mem_append_left _ (List.mem_append_right _ hstop))
  refine ⟨start, stop, post, u, _, hserve, ⟨q, hq⟩, toNat_tsDiff hlt.le (by omega), hu, hrecord, ?_⟩
  simp only [update_self]
  exact Stats.record_tsDiff hlt (by omega)

theorem samples_match_single : ∃ tr s, SysRun (single .busypollDb 4) zeroed tr s ∧
    .ep 0 (.record 0 2000000000) ∈ tr ∧ SamplesMatch (single .busypollDb 4) zeroed tr := by
  obtain ⟨s, hs, -⟩ := exists_run (step (single .busypollDb 4)) (initial zeroed)
    (foundActive ++ handle ++ ([.ep 0 (.tsDiff 0), .ep 0 (.record 0 2000000000)] : List (Op 1 1)))
    (fun _ => True) (by decide)
  exact ⟨_, s, hs, by decide, samples_match hs (by decide) ⟨by decide, by decide⟩⟩

/-- The source stamps its next activation between the processor's `RESET` and `ts_diff`: the sample
measures backwards, and nothing is added. -/
theorem sample_dropped : ∃ tr s, SysRun (single .busypollDb 4) zeroed tr s ∧ Clock tr ∧
    ¬ SamplesMatch (single .busypollDb 4) zeroed tr := by
  obtain ⟨u, hu, hbefore⟩ := exists_run (step (single .busypollDb 4)) (initial zeroed)
    (foundActive ++ handle ++ activation 0 ⟨4, 0⟩ ++ [.ep 0 (.tsDiff 0)])
    (fun s => s.stats 0 = Stats.initial) (by decide)
  obtain ⟨s, hs, hafter⟩ := exists_run (step (single .busypollDb 4)) (initial zeroed)
    (foundActive ++ handle ++ activation 0 ⟨4, 0⟩ ++ [.ep 0 (.tsDiff 0)] ++
      [.ep 0 (.record 0 (tsDiff ⟨4, 0⟩ ⟨3, 0⟩))])
    (fun s => s.stats 0 = Stats.initial) (by decide)
  refine ⟨_, s, hs, ⟨by decide, by decide⟩, fun hmatch => ?_⟩
  obtain ⟨_, _, _, u', v, -, -, -, hu', hv, hadd⟩ := hmatch _ 0 0 _ [] rfl
  obtain rfl := hu.unique hu'
  obtain rfl := hs.unique (hu.snoc hv)
  rw [hbefore, hafter] at hadd
  revert hadd
  decide

end Wfey
