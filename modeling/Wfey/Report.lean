import Wfey.Progress

/-!
# Every fair execution reaches the report

What a scheduler owes the benchmark is that no thread, and no signal to a processor, is passed over
for ever. On a machine with a core to spare that is enough, once the processors have got through the
start-up unharmed: at each of its four waits `main` is joined by everybody it waits for, and
everything else it does without anybody's help (`reaches_report`).
-/

namespace Wfey

open Conc (Enabled Execution Run provided_eq_some)
open Conc.Execution (eventually_all reaches_of_recurring)
open Function (update update_self update_of_ne)

variable {np ns : Nat} {cfg : Config np ns} {b : Boot np ns} {s s' : State np ns}

/-! ## Agents -/

/-- Whom the scheduler must not pass over: the threads, and the kernel with a signal to a
processor. -/
inductive Agent (np ns : Nat) where
  | thread (t : Thread np ns)
  | signal (p : Fin np)
  deriving DecidableEq, Repr

/-- Wakeups of another origin are not owed to anybody, nor is a source's signal: its sleep ends
without one. -/
def Op.agent : Op np ns → Option (Agent np ns)
  | .main _ => some (.thread .main)
  | .ep p _ => some (.thread (.ep p))
  | .source i _ => some (.thread (.source i))
  | .idle c _ => some (.thread (.idle c))
  | .deliverEp p => some (.signal p)
  | .wake _ | .deliverSource .. => none

theorem Op.agent_eq_ep {op : Op np ns} {p : Fin np} :
    op.agent = some (.thread (.ep p)) ↔ ∃ o, op = .ep p o := by
  cases op <;> simp [Op.agent]

theorem Op.agent_eq_source {op : Op np ns} {i : Fin ns} :
    op.agent = some (.thread (.source i)) ↔ ∃ o, op = .source i o := by
  cases op <;> simp [Op.agent]

theorem Op.agent_eq_idle {op : Op np ns} {c : Int} :
    op.agent = some (.thread (.idle c)) ↔ ∃ o, op = .idle c o := by
  cases op <;> simp [Op.agent]

/-! ## Waiting for the others

`main` stands in one of its waits. Everybody who has to arrive there does, each for a reason of its
own. -/

/-- An execution of the benchmark in which nobody is passed over, nobody is overtaken at `epbarrier`
and nothing is loaded through the NULL `Sources`. -/
structure FairExecution (cfg : Config np ns) (b : Boot np ns) (e : Execution (step cfg)) : Prop where
  start : e.state 0 = initial b
  fair : e.Fair Op.agent
  careful : ∀ n a, e.op n = some a → Careful (e.state n) a

/-- From instant `n` on `main` does not move, and stands at `m`. -/
structure MainStays (e : Execution (step cfg)) (n : Nat) (m : MainPc) : Prop where
  main : ∀ k, n ≤ k → (e.state k).main = m
  op : ∀ k, n ≤ k → ∀ o, e.op k ≠ some (.main o)

section Waiting

variable {e : Execution (step cfg)} {n : Nat}

/-- Every state of a careful execution is one of a careful run. -/
theorem healthy_of_careful (hspare : cfg.Spare) (hstart : e.state 0 = initial b)
    (hcare : ∀ n a, e.op n = some a → Careful (e.state n) a) (k : Nat) :
    Healthy cfg (e.state k) := by
  obtain ⟨tr, htr, hall⟩ := Execution.exists_run_to_everyStep hcare k
  rw [hstart] at htr hall
  exact Wfey.healthy hspare htr hall

theorem FairExecution.healthy (he : FairExecution cfg b e) (hspare : cfg.Spare) (k : Nat) :
    Healthy cfg (e.state k) :=
  healthy_of_careful hspare he.start he.careful k

/-- While `main` stays, the steps are those of others. -/
theorem MainStays.not_main {m : MainPc} (hm : MainStays e n m) {k : Nat} (hk : n ≤ k)
    {a : Op np ns} (ha : e.op k = some a) (o : MainOp np ns) : a ≠ .main o := by
  rintro rfl
  exact hm.op k hk o ha

/-- Meanwhile a processor moves, or stays where it is. -/
theorem MainStays.ep {m : MainPc} (hm : MainStays e n m) {k : Nat} (hk : n ≤ k) {a : Op np ns}
    (ha : e.op k = some a) (p : Fin np) :
    (∃ o, a = .ep p o ∧ epThread cfg p (e.state k) o = some (e.state (k + 1))) ∨
      a.agent ≠ some (.thread (.ep p)) ∧ (e.state (k + 1)).epPc p = (e.state k).epPc p := by
  rcases step_ep (e.moves k a ha) p with hown | ⟨hother, he | ⟨⟨o, rfl⟩, -⟩⟩
  · exact .inl hown
  · exact .inr ⟨fun hagent => (Op.agent_eq_ep.mp hagent).elim hother, he⟩
  · exact absurd rfl (hm.not_main hk ha o)

/-- A source moves, or stays where it is, unless a signal ends its sleep. -/
theorem MainStays.source {m : MainPc} (hm : MainStays e n m) {k : Nat} (hk : n ≤ k) {a : Op np ns}
    (ha : e.op k = some a) (i : Fin ns) :
    (∃ o, a = .source i o ∧ sourceThread cfg i (e.state k) o = some (e.state (k + 1))) ∨
      a.agent ≠ some (.thread (.source i)) ∧
        ((e.state (k + 1)).srcPc i = (e.state k).srcPc i ∨
          (e.state k).srcPc i = .sleeping ∧ (e.state (k + 1)).srcPc i = .interrupted) := by
  rcases step_source (e.moves k a ha) i with hown | ⟨hother, he | ⟨⟨o, rfl⟩, -⟩ | hsleep⟩
  · exact .inl hown
  · exact .inr ⟨fun hagent => (Op.agent_eq_source.mp hagent).elim hother, .inl he⟩
  · exact absurd rfl (hm.not_main hk ha o)
  · exact .inr ⟨fun hagent => (Op.agent_eq_source.mp hagent).elim hother, .inr hsleep⟩

/-- An idle thread moves, or stays where it is. -/
theorem MainStays.idle {m : MainPc} (hm : MainStays e n m) {k : Nat} (hk : n ≤ k) {a : Op np ns}
    (ha : e.op k = some a) (c : Int) :
    (∃ o, a = .idle c o ∧ idleThread c (e.state k) o = some (e.state (k + 1))) ∨
      a.agent ≠ some (.thread (.idle c)) ∧ (e.state (k + 1)).idlePc c = (e.state k).idlePc c := by
  rcases step_idle (e.moves k a ha) c with hown | ⟨hother, he | ⟨⟨o, rfl⟩, -⟩⟩
  · exact .inl hown
  · exact .inr ⟨fun hagent => (Op.agent_eq_idle.mp hagent).elim hother, he⟩
  · exact absurd rfl (hm.not_main hk ha o)

/-- While `main` waits for the processors for the first time, each of them arrives. -/
theorem ep_arrives (he : FairExecution cfg b e) (hspare : cfg.Spare) {r : Nat}
    (hm : MainStays e n (.waitEp r)) (p : Fin np) :
    ∃ k, n ≤ k ∧ 1 ≤ ((e.state k).epPc p).waits := by
  refine he.fair.reaches (.thread (.ep p)) (G := fun s => 1 ≤ (s.epPc p).waits)
    (fun s => (s.epPc p).stepsLeft) (fun k hk hgoal => ?_) fun k a hk ha hgoal => ?_
  · have hstage : (e.state k).main.stage = 3 := by
      rw [hm.main k hk]
      rfl
    obtain ⟨o, t, ho⟩ := (he.healthy hspare k).ep_boots (by omega) (by omega)
      (Nat.eq_zero_of_not_pos hgoal)
    exact ⟨.ep p o, t, rfl, ho⟩
  · rcases hm.ep hk ha p with ⟨o, rfl, ho⟩ | ⟨hne, hpc⟩
    · exact (epThread_boots ho (Nat.eq_zero_of_not_pos hgoal)).imp_right .inl
    · exact .inr (.inr ⟨hne, by rw [hpc]⟩)

/-- The number of waits a processor has entered does not go down. -/
theorem ep_waits_le (he : FairExecution cfg b e) (hspare : cfg.Spare) {m : MainPc}
    (hm : MainStays e n m) (p : Fin np) {w k : Nat} {a : Op np ns} (hk : n ≤ k)
    (ha : e.op k = some a) (hw : w ≤ ((e.state k).epPc p).waits) :
    w ≤ ((e.state (k + 1)).epPc p).waits := by
  rcases hm.ep hk ha p with ⟨o, -, ho⟩ | ⟨-, hpc⟩
  · exact hw.trans (epThread_move (he.healthy hspare k).sync ho).arr_le
  · rwa [hpc]

/-- While `main` waits for the sources, each of them arrives. -/
theorem source_arrives (he : FairExecution cfg b e) (hspare : cfg.Spare) {r : Nat}
    (hm : MainStays e n (.waitSrc r)) (i : Fin ns) :
    ∃ k, n ≤ k ∧ 1 ≤ ((e.state k).srcPc i).srcWaits := by
  refine he.fair.reaches (.thread (.source i)) (G := fun s => 1 ≤ (s.srcPc i).srcWaits)
    (fun s => (s.srcPc i).stepsLeft) (fun k hk hgoal => ?_) fun k a hk ha hgoal => ?_
  · have hstage : (e.state k).main.stage = 13 := by
      rw [hm.main k hk]
      rfl
    obtain ⟨o, t, ho⟩ := (he.healthy hspare k).source_boots (by omega) (by omega)
      (Nat.eq_zero_of_not_pos hgoal)
    exact ⟨.source i o, t, rfl, ho⟩
  · rcases hm.source hk ha i with
      ⟨o, rfl, ho⟩ | ⟨hne, hpc | ⟨hsleep, -⟩⟩
    · exact (sourceThread_boots ho (Nat.eq_zero_of_not_pos hgoal)).imp_right .inl
    · exact .inr (.inr ⟨hne, by rw [hpc]⟩)
    · rw [hsleep] at hgoal
      exact absurd le_rfl hgoal

/-- A source does not take back a wait it has entered. -/
theorem source_waits_le (he : FairExecution cfg b e) (hspare : cfg.Spare) {m : MainPc}
    (hm : MainStays e n m) (i : Fin ns) {w k : Nat} {a : Op np ns} (hk : n ≤ k)
    (ha : e.op k = some a) (hw : w ≤ ((e.state k).srcPc i).srcWaits) :
    w ≤ ((e.state (k + 1)).srcPc i).srcWaits := by
  rcases hm.source hk ha i with
    ⟨o, -, ho⟩ | ⟨-, hpc | ⟨hold, hnew⟩⟩
  · exact hw.trans (sourceThread_move (he.healthy hspare k).sync ho).arr_le
  · rwa [hpc]
  · rw [hold] at hw
    rwa [hnew]

/-- The signal `main` has sent to a processor takes effect. -/
theorem ep_notices (he : FairExecution cfg b e) (hspare : cfg.Spare) {r : Nat}
    (hm : MainStays e n (.waitEp2 r)) (p : Fin np) :
    ∃ k, n ≤ k ∧ EpStopping p (e.state k) := by
  refine he.fair.reaches (.signal p) (G := EpStopping p) (fun _ => 0) (fun k hk hgoal => ?_)
    fun k a hk ha hgoal => ?_
  · have hh := he.healthy hspare k
    have hkilled : (e.state k).main.EpKilled p := by
      rw [hm.main k hk]
      exact (by decide : 15 < 17)
    -- the signal is pending until the processor has taken it, so its delivery can always happen
    have hsignal := (hh.signalled p hkilled).resolve_right hgoal
    have hrun : (e.state k).Running := by
      apply hh.running
      rw [hm.main k hk]
      exact (by decide : 17 ≤ 24)
    exact ⟨.deliverEp p, _, rfl, step_eq_some.mpr ⟨hrun, provided_eq_some.mpr ⟨hsignal, rfl⟩⟩⟩
  · by_cases hown : a.agent = some (.signal p)
    · -- the delivery is what makes the processor stop
      left
      obtain ⟨-, hop⟩ := step_eq_some.mp (e.moves k a ha)
      cases a with
      | deliverEp q =>
          obtain rfl : q = p := by simpa [Op.agent] using hown
          exact (he.healthy hspare k).epNotified.stopping hop
      | _ => simp [Op.agent] at hown
    · exact .inr (.inr ⟨hown, rfl⟩)

/-- A processor is at its end once it has entered its second wait. -/
theorem waits_of_atEnd {pc : EpPc ns} : pc.AtEnd ↔ 2 ≤ pc.waits := by
  cases pc <;> simp [EpPc.AtEnd, EpPc.waits]

/-- While `main` waits for the processors for the second time, each of them arrives. -/
theorem ep_arrives_second (he : FairExecution cfg b e) (hspare : cfg.Spare) {r : Nat}
    (hm : MainStays e n (.waitEp2 r)) (p : Fin np) :
    ∃ k, n ≤ k ∧ 2 ≤ ((e.state k).epPc p).waits := by
  obtain ⟨k₀, hk₀, hstop₀⟩ := ep_notices he hspare hm p
  have stopping (k : Nat) (hk : k₀ ≤ k) : EpStopping p (e.state k) := by
    refine e.lasts (P := EpStopping p) hstop₀ (fun j a hj ha hold => ?_) k hk
    have hh := he.healthy hspare j
    exact (epStopping_step hh.sync hh.epNotified hold (e.moves j a ha)).1
  obtain ⟨k, hk, hgoal⟩ : ∃ k, k₀ ≤ k ∧ 2 ≤ ((e.state k).epPc p).waits := by
    refine he.fair.reaches (.thread (.ep p)) (G := fun s => 2 ≤ (s.epPc p).waits)
      (fun s => (s.epPc p).stepsLeft) (fun k hk hgoal => ?_) fun k a hk ha hgoal => ?_
    · have hh := he.healthy hspare k
      have hret := hh.unharmed.returned
        ((by decide : 5 ≤ 15).trans (stage_of_epStopped (stopping k hk).stopped)) p
      obtain ⟨o, t, ho⟩ := epStopping_enabled cfg hh.sync (hh.inScan p) (stopping k hk) hret
        fun hend => hgoal (waits_of_atEnd.mp hend)
      exact ⟨.ep p o, t, rfl, ho⟩
    · have hh := he.healthy hspare k
      rcases (epStopping_step hh.sync hh.epNotified (stopping k hk) (e.moves k a ha)).2 with
        ⟨o, -, -, hlt⟩ | ⟨hother, hpc⟩
      · exact .inr (.inl hlt)
      · exact .inr (.inr ⟨fun hagent => (Op.agent_eq_ep.mp hagent).elim hother, by rw [hpc]⟩)
  exact ⟨k, hk₀.trans hk, hgoal⟩

/-- While `main` waits for the end, each source arrives. -/
theorem source_arrives_end (he : FairExecution cfg b e) (hspare : cfg.Spare) {r : Nat}
    (hm : MainStays e n (.waitEnd r)) (i : Fin ns) :
    ∃ k, n ≤ k ∧ 1 ≤ ((e.state k).srcPc i).endWaits := by
  refine he.fair.reaches (.thread (.source i)) (G := fun s => 1 ≤ (s.srcPc i).endWaits)
    (fun s => (s.srcPc i).stepsLeft) (fun k hk hgoal => ?_) fun k a hk ha hgoal => ?_
  · have hstage : (e.state k).main.stage = 20 := by
      rw [hm.main k hk]
      rfl
    obtain ⟨o, t, ho⟩ := (he.healthy hspare k).source_ends (by omega) (by omega)
      (Nat.eq_zero_of_not_pos hgoal)
    exact ⟨.source i o, t, rfl, ho⟩
  · have hflag : (e.state k).srcEndFlag i = true := by
      apply (he.healthy hspare k).notified.flag i
      rw [hm.main k hk]
      exact (by decide : 18 < 20)
    right
    rcases hm.source hk ha i with
      ⟨o, rfl, ho⟩ | ⟨hne, hpc | ⟨hold, hnew⟩⟩
    · exact .inl (sourceThread_stepsLeft hflag ho (Nat.eq_zero_of_not_pos hgoal))
    · exact .inr ⟨hne, by rw [hpc]⟩
    · left
      rw [hold, hnew]
      decide

/-- So does each idle thread. -/
theorem idle_arrives (he : FairExecution cfg b e) (hspare : cfg.Spare) {r : Nat}
    (hm : MainStays e n (.waitEnd r)) {c : Int} (hc : .idle c ∈ endParticipants cfg) :
    ∃ k, n ≤ k ∧ 1 ≤ ((e.state k).idlePc c).waits := by
  refine he.fair.reaches (.thread (.idle c)) (G := fun s => 1 ≤ (s.idlePc c).waits) (fun _ => 0)
    (fun k hk hgoal => ?_) fun k a hk ha hgoal => ?_
  · have hh := he.healthy hspare k
    have hborn : (e.state k).idlePc c ≠ .unborn := by
      rw [hh.setup.idle c, hm.main k hk]
      exact ⟨(by decide : 11 < 20), idle_mem_endParticipants.mp hc⟩
    -- it exists and has not arrived, so it is in front of the barrier
    have hpc : (e.state k).idlePc c = .arrive := by
      cases hpc : (e.state k).idlePc c <;> simp [hpc, IdlePc.waits] at hborn hgoal ⊢
    have hrun : (e.state k).Running := by
      apply hh.running
      rw [hm.main k hk]
      exact (by decide : 20 ≤ 24)
    exact ⟨.idle c .arrive, _, rfl, step_eq_some.mpr ⟨hrun, provided_eq_some.mpr ⟨hpc, rfl⟩⟩⟩
  · rcases hm.idle hk ha c with ⟨o, rfl, ho⟩ | ⟨hne, -⟩
    · left
      cases o
      all_goals
        simp only [idleThread, provided_eq_some] at ho
        obtain ⟨-, hs'⟩ := ho
        rw [← hs']
        simp [IdlePc.waits]
    · exact .inr (.inr ⟨hne, rfl⟩)

/-- Nobody takes back the wait at `endbarrier`. -/
theorem end_waits_le (he : FairExecution cfg b e) (hspare : cfg.Spare) {m : MainPc}
    (hm : MainStays e n m) (t : Thread np ns) (ht : t ∈ endParticipants cfg) {w k : Nat}
    {a : Op np ns} (hk : n ≤ k) (ha : e.op k = some a) (hw : w ≤ (e.state k).endWaits t) :
    w ≤ (e.state (k + 1)).endWaits t := by
  have hh := he.healthy hspare k
  have hstep := e.moves k a ha
  cases t with
  | main =>
      simp only [State.endWaits, hm.main k hk, hm.main (k + 1) (hk.trans k.le_succ)] at hw ⊢
      exact hw
  | ep p => exact hw
  | source i =>
      simp only [State.endWaits] at hw ⊢
      rcases hm.source hk ha i with
        ⟨o, -, ho⟩ | ⟨-, hpc | ⟨hold, hnew⟩⟩
      · exact hw.trans (sourceThread_endMove hh.ending ho).arr_le
      · rwa [hpc]
      · -- a source that is created only now has not arrived anywhere
        rw [hold] at hw
        rwa [hnew]
  | idle c =>
      simp only [State.endWaits] at hw ⊢
      rcases hm.idle hk ha c with ⟨o, -, ho⟩ | ⟨-, hpc⟩
      · exact hw.trans (idleThread_endMove hh.ending ho).arr_le
      · rwa [hpc]

/-! ## `main` -/

/-- Whatever `main` waits for happens. -/
theorem released (he : FairExecution cfg b e) (hspare : cfg.Spare) {m : MainPc}
    (hm : MainStays e n m) : ∃ k, n ≤ k ∧ ∀ j, k ≤ j → (e.state j).Released := by
  -- `main` stays in its wait, so it is enough to look at each of the four barriers
  have waiting {k : Nat} (hk : n ≤ k)
      (hrel : ∀ j, k ≤ j → Healthy cfg (e.state j) → (e.state j).main = m → (e.state j).Released) :
      ∃ k, n ≤ k ∧ ∀ j, k ≤ j → (e.state j).Released :=
    ⟨k, hk, fun j hj => hrel j hj (he.healthy hspare j) (hm.main j (hk.trans hj))⟩
  cases m
  case waitEp r =>
    obtain ⟨k, hk, hall⟩ := eventually_all (P := fun p s => 1 ≤ (s.epPc p).waits)
      (ep_arrives he hspare hm) fun p j a hj ha => ep_waits_le he hspare hm p hj ha
    refine waiting hk fun j hj hh hpc => ?_
    rw [State.Released, hpc]
    exact hh.released_ep hpc (hall j hj)
  case waitSrc r =>
    obtain ⟨k, hk, hall⟩ := eventually_all (P := fun i s => 1 ≤ (s.srcPc i).srcWaits)
      (source_arrives he hspare hm) fun i j a hj ha => source_waits_le he hspare hm i hj ha
    refine waiting hk fun j hj hh hpc => ?_
    rw [State.Released, hpc]
    exact hh.released_src hpc (hall j hj)
  case waitEp2 r =>
    obtain ⟨k, hk, hall⟩ := eventually_all (P := fun p s => 2 ≤ (s.epPc p).waits)
      (ep_arrives_second he hspare hm) fun p j a hj ha => ep_waits_le he hspare hm p hj ha
    refine waiting hk fun j hj hh hpc => ?_
    rw [State.Released, hpc]
    exact hh.released_ep_second hpc (hall j hj)
  case waitEnd r =>
    have hev (t : endParticipants cfg) : ∃ k, n ≤ k ∧ 1 ≤ (e.state k).endWaits t := by
      -- each participant of `endbarrier` arrives in its own way
      obtain ⟨t, ht⟩ := t
      cases t with
      | main =>
          refine ⟨n, le_rfl, ?_⟩
          simp only [State.endWaits, hm.main n le_rfl]
          exact (by decide : 1 ≤ 1)
      | ep p => simp [endParticipants] at ht
      | source i => exact source_arrives_end he hspare hm i
      | idle c => exact idle_arrives he hspare hm ht
    obtain ⟨k, hk, hall⟩ :=
      eventually_all (P := fun (t : endParticipants cfg) s => 1 ≤ s.endWaits t) hev
        fun t j a hj ha => end_waits_le he hspare hm t t.2 hj ha
    refine waiting hk fun j hj hh hpc => ?_
    rw [State.Released, hpc]
    exact hh.released_end hspare hpc fun t ht => hall j hj ⟨t, ht⟩
  all_goals
    refine waiting le_rfl fun j _ _ hpc => ?_
    rw [State.Released, hpc]
    trivial

/-- Until it reports, `main` moves again and again. -/
theorem main_moves (he : FairExecution cfg b e) (hspare : cfg.Spare)
    (hstage : (e.state n).main.stage ≤ 20) : ∃ k o, n ≤ k ∧ e.op k = some (.main o) := by
  by_contra hno
  have hop (k : Nat) (hk : n ≤ k) (o : MainOp np ns) : e.op k ≠ some (.main o) :=
    fun ho => hno ⟨k, o, hk, ho⟩
  have hm : MainStays e n (e.state n).main := by
    refine ⟨fun k hk => ?_, hop⟩
    refine e.lasts (P := fun s => s.main = (e.state n).main) rfl (fun j a hj ha hold => ?_) k hk
    rcases step_main (e.moves j a ha) with ⟨o, rfl, -⟩ | hsame
    · exact absurd ha (hop j hj o)
    · exact hsame.trans hold
  obtain ⟨k, hk, hrel⟩ := released he hspare hm
  obtain ⟨j, a, hj, ha, hagent⟩ := he.fair (.thread .main) k fun j hj => by
    have hj' : (e.state j).main.stage ≤ 20 := by rwa [hm.main j (hk.trans hj)]
    obtain ⟨o, t, ho⟩ := (he.healthy hspare j).main_enabled hj' (hrel j hj)
    exact ⟨.main o, t, rfl, ho⟩
  cases a with
  | main o => exact hop j (hk.trans hj) o ha
  | _ => simp [Op.agent] at hagent

end Waiting

/-- `main` gets past its waits only to report. -/
theorem mainThread_report {o : MainOp np ns} (h : mainThread cfg s o = some s')
    (hstage : s.main.stage ≤ 20) : s'.main.stage ≤ 20 ∨ s'.main = .report 0 := by
  cases o
  all_goals
    simp only [mainThread, provided_eq_some] at h
    obtain ⟨hpc, rfl⟩ := h
    simp only [hpc, forNext, idleLoop] at hstage ⊢
    try split_ifs
    all_goals simp [MainPc.stage] at hstage ⊢

/-- On a machine with a core to spare every fair execution reaches the report. -/
theorem reaches_report {e : Execution (step cfg)} (he : FairExecution cfg b e)
    (hspare : cfg.Spare) : ∃ n, (e.state n).main = .report 0 := by
  by_contra hno
  -- without a report `main` never gets past the stage in front of it
  have hstage (n : Nat) : (e.state n).main.stage ≤ 20 := by
    refine e.lasts (P := fun s => s.main.stage ≤ 20) (by rw [he.start]; exact Nat.zero_le 20)
      (fun k a _ ha hold => ?_) n (Nat.zero_le n)
    rcases step_main (e.moves k a ha) with ⟨o, -, ho⟩ | hsame
    · exact (mainThread_report ho hold).resolve_right fun hreport => hno ⟨k + 1, hreport⟩
    · rwa [hsame]
  -- `main` moves again and again, and every move takes it closer to its end
  have hleft (m : Nat) (o : MainOp np ns) (ho : mainThread cfg (e.state m) o = some (e.state (m + 1))) :
      (e.state (m + 1)).main.left np ns < (e.state m).main.left np ns :=
    (he.healthy hspare m).main_left hspare ho (he.healthy hspare (m + 1)).defined
  suffices hreport : ∃ n, 0 ≤ n ∧ (e.state n).main = .report 0 from
    hno (hreport.imp fun n hn => hn.2)
  refine reaches_of_recurring (K := fun a : Op np ns => ∃ o, a = .main o)
    (G := fun s : State np ns => s.main = .report 0) (fun s => s.main.left np ns) ?_ ?_
  · intro m _ _
    obtain ⟨k, o, hk, ha⟩ := main_moves he hspare (hstage m)
    exact ⟨k, _, hk, ha, o, rfl⟩
  · intro m a _ ha _
    right
    by_cases hmain : ∃ o, a = .main o
    · obtain ⟨o, rfl⟩ := hmain
      exact .inl (hleft m o (step_eq_some.mp (e.moves m _ ha)).2)
    · right
      rcases step_main (e.moves m a ha) with ⟨o, rfl, -⟩ | hsame
      · exact absurd ⟨o, rfl⟩ hmain
      · exact ⟨hmain, by rw [hsame]⟩

end Wfey
