import Wfey.Barriers

/-!
# Shutdown

The plain statistics, the detached threads and the two freed arrays are protected only by the order
of the barrier rounds, the end flags and the signals. `Ending` is the discipline of the last barrier,
which the sources, the idle threads and `main` share; with it and with the two rounds of `epbarrier`
nobody touches what `main` reports or frees, and every signal has a living target (`quiescent`).
-/

namespace Wfey

open Conc (Barrier Run exists_run provided_eq_some run_append run_cons)
open Function (update update_self update_of_ne)

variable {np ns : Nat} {cfg : Config np ns} {b : Boot np ns} {s s' : State np ns}

/-! ## The property -/

/-- The processor accesses a `struct Source`. -/
def EpOp.UsesSources : EpOp ns → Prop
  | .isActive .. | .workFunc .. | .endTs .. | .reset _ | .tsDiff _ | .record .. => True
  | _ => False

/-- The processor accesses its `struct EventProcessor`, which holds the doorbell. -/
def EpOp.UsesProcessor : EpOp ns → Prop
  | .start | .doorbellReset | .armMonitor | .testEndFlag | .rearm | .exchange _ => True
  | _ => False

/-- The source accesses its `struct Source`, or the doorbell of its processor. -/
def SourceOp.UsesShared : SourceOp → Prop
  | .start | .testEndFlag | .retestEndFlag | .startTs _ | .activate | .press => True
  | _ => False

/-- `main` accesses the arguments of source `i`. -/
def MainOp.UsesSarg (i : Fin ns) : MainOp np ns → Prop
  | .assign j | .create j | .detach j => j = i
  | _ => False

/-- Nothing that `main` reports or frees is touched by another thread from then on, nobody is
signalled after the end, and the arguments of a source are its own when it frees them. -/
structure Quiescent (cfg : Config np ns) (b : Boot np ns) (tr : List (Op np ns)) : Prop where
  report : ∀ pre i post, tr = pre ++ .main (.report i) :: post →
    ∀ p o, .ep p o ∈ post → ¬ o.UsesSources
  freed : ∀ pre post, tr = pre ++ .main .freeSources :: post →
    (∀ p o, .ep p o ∈ post → ¬ o.UsesSources ∧ ¬ o.UsesProcessor) ∧
      ∀ i o, .source i o ∈ post → ¬ o.UsesShared
  killEp : ∀ pre p post s, tr = pre ++ .main (.killEp p) :: post → SysRun cfg b pre s →
    s.epPc p ≠ .unborn ∧ s.epPc p ≠ .done
  killSrc : ∀ pre i post s, tr = pre ++ .main (.killSrc i) :: post → SysRun cfg b pre s →
    s.srcPc i ≠ .unborn ∧ s.srcPc i ≠ .done
  sarg : ∀ pre i post, tr = pre ++ .source i .freeSarg :: post →
    ∀ o, .main o ∈ post → ¬ o.UsesSarg i

/-! ## The last barrier

All threads but the processors meet at `endbarrier`, each of them once. -/

def endParticipants (cfg : Config np ns) : Finset (Thread np ns) :=
  insert .main (Finset.univ.image .source ∪
    (Finset.range cfg.idleCores).image fun k : Nat => .idle (sourceEnd np ns + k))

/-- `endbarrier` is for `main`, the sources and the idle threads. -/
theorem card_endParticipants : (endParticipants cfg).card = ns + cfg.idleCores + 1 := by
  have hsource : Function.Injective (Thread.source : Fin ns → Thread np ns) := by
    rintro i j ⟨⟩
    rfl
  have hidle : Function.Injective (fun k : Nat => (.idle (sourceEnd np ns + k) : Thread np ns)) := by
    intro k l h
    have := Thread.idle.inj h
    omega
  unfold endParticipants
  rw [Finset.card_insert_of_notMem (by simp), Finset.card_union_of_disjoint,
    Finset.card_image_of_injective _ hsource, Finset.card_image_of_injective _ hidle,
    Finset.card_range, Finset.card_univ, Fintype.card_fin]
  rw [Finset.disjoint_left]
  simp

@[simp] theorem main_mem_endParticipants : .main ∈ endParticipants cfg := by
  simp [endParticipants]

@[simp] theorem source_mem_endParticipants (i : Fin ns) : .source i ∈ endParticipants cfg := by
  simp [endParticipants]

theorem idle_mem_endParticipants {c : Int} :
    .idle c ∈ endParticipants cfg ↔ sourceEnd np ns ≤ c ∧ c < cfg.totalCpu.toNat := by
  simp only [endParticipants, Finset.mem_insert, Finset.mem_union, Finset.mem_image,
    Finset.mem_range, Config.idleCores, reduceCtorEq, and_false, exists_false, false_or,
    Thread.idle.injEq]
  constructor
  · rintro ⟨k, hk, rfl⟩
    omega
  · rintro ⟨hlo, hhi⟩
    exact ⟨(c - sourceEnd np ns).toNat, by omega, by omega⟩

/-- The count is large enough for the threads that wait, on every machine that gets that far. -/
theorem card_le_count (hu : Setup cfg s) (hmax : cfg.totalCpu.toNat ≤ intMax) (n : Nat)
    (hn : s.endbarrier.count = some n) : (endParticipants cfg).card ≤ n := by
  -- before its initialisation the barrier counts nothing
  rcases Nat.lt_or_ge s.main.stage 11 with hearly | hlate
  · rw [hu.endFresh (by omega)] at hn
    cases hn
  obtain ⟨hsum, hcheck⟩ := hu.check (by omega)
  rw [hu.endCount hlate] at hn
  split_ifs at hn
  obtain rfl := Option.some.inj hn
  rw [card_endParticipants, Config.idleCores]
  rcases (tooManyThreads_eq_false hsum).mp hcheck with hnone | hge
  · -- a machine without cores: the count has wrapped to a huge number
    have := endCount_of_eq_zero hsum hnone
    unfold sourceEnd intMax at *
    omega
  · have := endCount_of_le hge hmax
    unfold sourceEnd at *
    omega

/-- Every thread waits on `endbarrier` once, in its first round. -/
structure Ending (cfg : Config np ns) (s : State np ns) : Prop where
  srcTicket : ∀ i r, s.srcPc i = .waitEnd r → r = 0
  idleTicket : ∀ c r, s.idlePc c = .wait r → r = 0
  mainTicket : ∀ r, s.main = .waitEnd r → r = 0
  barrier : s.endbarrier.Inv (endParticipants cfg) s.endWaits s.endReturns
  base : s.endbarrier.base = 0

/-- At the start nobody has waited on `endbarrier`, and it is not there yet. -/
theorem ending_initial : Ending cfg (initial b) where
  srcTicket i r h := by simp [initial] at h
  idleTicket c r h := by simp [initial] at h
  mainTicket r h := by simp [initial] at h
  barrier := Barrier.Inv.fresh (by rintro (_ | _ | _ | _) <;> rfl) (by rintro (_ | _ | _ | _) <;> rfl)
  base := rfl

/-! ## Steps of a source -/

/-- What a step of source `i` is to `endbarrier`. -/
theorem sourceThread_endMove {i : Fin ns} {o : SourceOp} (he : Ending cfg s)
    (h : sourceThread cfg i s o = some s') :
    Barrier.Move (.source i) (s.srcPc i).endWaits (s.srcPc i).endReturns s.endbarrier
      (s'.srcPc i).endWaits (s'.srcPc i).endReturns s'.endbarrier := by
  cases o
  case returnEnd r =>
    simp only [sourceThread, provided_eq_some] at h
    obtain ⟨⟨hpc, hr⟩, rfl⟩ := h
    obtain rfl := he.srcTicket i r hpc
    simp only [hpc, update_self]
    exact .leave hr
  case arriveEnd =>
    simp only [sourceThread, provided_eq_some] at h
    obtain ⟨hpc, rfl⟩ := h
    simp only [hpc, update_self]
    exact .arrive rfl
  all_goals
    simp only [sourceThread, provided_eq_some] at h
    obtain ⟨hpc, rfl⟩ := h
    simp only [hpc, update_self]
    first
    | exact .idle
    | (split_ifs <;> exact .idle)

/-- There is one round only, and so only one number a source can carry. -/
theorem sourceThread_endTicket {i : Fin ns} {o : SourceOp} (he : Ending cfg s)
    (h : sourceThread cfg i s o = some s') {r : Nat} (hr : s'.srcPc i = .waitEnd r) : r = 0 := by
  have hround (hfree : s.endWaits (.source i) = s.endReturns (.source i)) :=
    he.barrier.round_eq (source_mem_endParticipants i) hfree
  cases o
  case arriveEnd =>
    simp only [sourceThread, provided_eq_some] at h
    obtain ⟨hpc, rfl⟩ := h
    simp only [State.endWaits, State.endReturns, hpc, update_self] at hround hr
    cases hr
    exact hround rfl
  all_goals
    simp only [sourceThread, provided_eq_some] at h
    obtain ⟨-, rfl⟩ := h
    simp only [update_self] at hr
    try split_ifs at hr
    all_goals cases hr

/-- A source counts its own wait only. -/
theorem SourceFrame.endWaits {i : Fin ns} (hf : SourceFrame i s s') (u : Thread np ns)
    (hu : u ≠ .source i) : s'.endWaits u = s.endWaits u ∧ s'.endReturns u = s.endReturns u := by
  cases u with
  | main => simp only [State.endWaits, State.endReturns, hf.main, and_self]
  | ep p => exact ⟨rfl, rfl⟩
  | source j =>
      have hji : j ≠ i := fun e => hu (e ▸ rfl)
      simp only [State.endWaits, State.endReturns, hf.srcPc j hji, and_self]
  | idle c => simp only [State.endWaits, State.endReturns, hf.idlePc, and_self]

/-- A step of a source is a move on `endbarrier`. -/
theorem ending_source {i : Fin ns} {o : SourceOp} (hu : Setup cfg s)
    (hmax : cfg.totalCpu.toNat ≤ intMax) (he : Ending cfg s)
    (h : sourceThread cfg i s o = some s') : Ending cfg s' := by
  have hf := sourceThread_frame h
  constructor
  case srcTicket =>
    apply hf.each (P := fun _ pc => ∀ r, pc = .waitEnd r → r = 0) _ he.srcTicket
    intro r hr
    exact sourceThread_endTicket he h hr
  case idleTicket =>
    rw [hf.idlePc]
    exact he.idleTicket
  case mainTicket =>
    rw [hf.main]
    exact he.mainTicket
  case barrier =>
    exact he.barrier.move (card_le_count hu hmax) (source_mem_endParticipants i)
      (sourceThread_endMove he h) (fun u hu => (hf.endWaits u hu).1)
      (fun u hu => (hf.endWaits u hu).2)
  case base => exact (sourceThread_endMove he h).base_eq.trans he.base

/-! ## Steps of an idle thread -/

/-- What a step of the idle thread on core `c` is to `endbarrier`. -/
theorem idleThread_endMove {c : Int} {o : IdleOp} (he : Ending cfg s)
    (h : idleThread c s o = some s') :
    Barrier.Move (.idle c) (s.idlePc c).waits (s.idlePc c).returns s.endbarrier
      (s'.idlePc c).waits (s'.idlePc c).returns s'.endbarrier := by
  cases o with
  | arrive =>
      simp only [idleThread, provided_eq_some] at h
      obtain ⟨hpc, rfl⟩ := h
      simp only [hpc, update_self]
      exact .arrive rfl
  | returned r =>
      simp only [idleThread, provided_eq_some] at h
      obtain ⟨⟨hpc, hr⟩, rfl⟩ := h
      obtain rfl := he.idleTicket c r hpc
      simp only [hpc, update_self]
      exact .leave hr

theorem idleThread_endTicket {c : Int} {o : IdleOp} (he : Ending cfg s)
    (hc : .idle c ∈ endParticipants cfg) (h : idleThread c s o = some s') {r : Nat}
    (hr : s'.idlePc c = .wait r) : r = 0 := by
  cases o with
  | arrive =>
      have hround (hfree : s.endWaits (.idle c) = s.endReturns (.idle c)) :=
        he.barrier.round_eq hc hfree
      simp only [idleThread, provided_eq_some] at h
      obtain ⟨hpc, rfl⟩ := h
      simp only [State.endWaits, State.endReturns, hpc, update_self] at hround hr
      cases hr
      exact hround rfl
  | returned r =>
      simp only [idleThread, provided_eq_some] at h
      obtain ⟨-, rfl⟩ := h
      simp at hr

/-- The idle threads that exist wait on `endbarrier`. -/
theorem idle_participates (hu : Setup cfg s) {c : Int} (hc : s.idlePc c ≠ .unborn) :
    .idle c ∈ endParticipants cfg := by
  rw [idle_mem_endParticipants]
  have hcreated := (hu.idle c).mp hc
  cases hm : s.main
  case createIdle k =>
    have hlt := (hu.loop k hm).2.1
    rw [hm] at hcreated
    exact ⟨hcreated.1, hcreated.2.trans hlt⟩
  all_goals
    rw [hm] at hcreated
    exact hcreated.2

/-- An idle thread counts its own wait only. -/
theorem IdleFrame.endWaits {c : Int} (hf : IdleFrame c s s') (u : Thread np ns) (hu : u ≠ .idle c) :
    s'.endWaits u = s.endWaits u ∧ s'.endReturns u = s.endReturns u := by
  cases u with
  | idle d =>
      have hdc : d ≠ c := fun e => hu (e ▸ rfl)
      simp only [State.endWaits, State.endReturns, hf.idlePc d hdc, and_self]
  | _ =>
      rw [hf.rest]
      exact ⟨rfl, rfl⟩

/-- A step of an idle thread is a move on `endbarrier`. -/
theorem ending_idle {c : Int} {o : IdleOp} (hu : Setup cfg s) (hmax : cfg.totalCpu.toNat ≤ intMax)
    (he : Ending cfg s) (h : idleThread c s o = some s') : Ending cfg s' := by
  have hf := idleThread_frame h
  have hc := idle_participates hu (idleThread_born h).1.1
  constructor
  case srcTicket =>
    rw [hf.rest]
    exact he.srcTicket
  case idleTicket =>
    intro d r hr
    by_cases hdc : d = c
    · subst hdc
      exact idleThread_endTicket he hc h hr
    · rw [hf.idlePc d hdc] at hr
      exact he.idleTicket d r hr
  case mainTicket =>
    rw [hf.rest]
    exact he.mainTicket
  case barrier =>
    exact he.barrier.move (card_le_count hu hmax) hc (idleThread_endMove he h)
      (fun u hu => (hf.endWaits u hu).1) (fun u hu => (hf.endWaits u hu).2)
  case base => exact (idleThread_endMove he h).base_eq.trans he.base

/-! ## Steps of `main` -/

/-- What a step of `main` that does not initialise `endbarrier` is to it. -/
theorem mainThread_endMove {o : MainOp np ns} (he : Ending cfg s) (h : mainThread cfg s o = some s')
    (hinit : o ≠ .initEndBarrier) :
    Barrier.Move (.main : Thread np ns) s.main.endWaits s.main.endReturns s.endbarrier
      s'.main.endWaits s'.main.endReturns s'.endbarrier := by
  cases o
  case initEndBarrier => exact absurd rfl hinit
  case returnEnd r =>
    simp only [mainThread, provided_eq_some] at h
    obtain ⟨⟨hpc, hr⟩, rfl⟩ := h
    -- the round that `main` waits for is its first
    obtain rfl := he.mainTicket r hpc
    simp only [hpc]
    exact .leave hr
  case arriveEnd =>
    simp only [mainThread, provided_eq_some] at h
    obtain ⟨hpc, rfl⟩ := h
    simp only [hpc]
    exact .arrive rfl
  all_goals
    simp only [mainThread, provided_eq_some] at h
    obtain ⟨hpc, rfl⟩ := h
    simp only [hpc, forNext, idleLoop]
    first
    | exact .idle
    | (split_ifs <;> exact .idle)

theorem mainThread_endTicket {o : MainOp np ns} (he : Ending cfg s)
    (h : mainThread cfg s o = some s') {r : Nat} (hr : s'.main = .waitEnd r) : r = 0 := by
  have hround (hfree : s.endWaits .main = s.endReturns .main) :=
    he.barrier.round_eq main_mem_endParticipants hfree
  cases o
  case arriveEnd =>
    simp only [mainThread, provided_eq_some] at h
    obtain ⟨hpc, rfl⟩ := h
    simp only [State.endWaits, State.endReturns, hpc] at hround hr
    cases hr
    exact hround rfl
  all_goals
    simp only [mainThread, provided_eq_some] at h
    obtain ⟨-, rfl⟩ := h
    simp only [forNext, idleLoop] at hr
    try split_ifs at hr
    all_goals cases hr

/-- A created thread starts outside `endbarrier`, like one that does not exist. -/
theorem mainThread_endOthers {o : MainOp np ns} (hs : Sync s) (hu : Setup cfg s)
    (h : mainThread cfg s o = some s') (u : Thread np ns) (hne : u ≠ .main) :
    s'.endWaits u = s.endWaits u ∧ s'.endReturns u = s.endReturns u := by
  cases u with
  | main => exact absurd rfl hne
  | ep p => exact ⟨rfl, rfl⟩
  | source i =>
      simp only [State.endWaits, State.endReturns]
      rcases mainThread_srcPc h i with hpc | ⟨hm, hpc⟩
      · rw [hpc]
        exact ⟨rfl, rfl⟩
      · rw [hpc, hs.source_unborn hm]
        exact ⟨rfl, rfl⟩
  | idle c =>
      simp only [State.endWaits, State.endReturns]
      rcases mainThread_idlePc h c with hpc | ⟨hm, hpc⟩
      · rw [hpc]
        exact ⟨rfl, rfl⟩
      · -- the thread of this iteration has not been created before
        have hold : s.idlePc c = .unborn := by
          by_contra hborn
          have hcreated := (hu.idle c).mp hborn
          rw [hm] at hcreated
          exact lt_irrefl _ hcreated.2
        rw [hpc, hold]
        exact ⟨rfl, rfl⟩

/-- Nobody waits on `endbarrier` when `main` initialises it: no source has been released, and no
idle thread exists. -/
theorem endbarrier_idle (hs : Sync s) (hu : Setup cfg s) (he : Ending cfg s)
    (hpc : s.main = .initEndBarrier) : s.endbarrier.waiting = [] := by
  apply he.barrier.waiting_eq_nil
  intro t ht
  suffices s.endWaits t = 0 by omega
  cases t with
  | main =>
      simp only [State.endWaits, hpc]
      rfl
  | ep p => rfl
  | source i =>
      -- a source that has arrived has been released by `srcbarrier`
      have hheld : (s.srcPc i).srcReturns ≠ 1 := fun hi => by
        have hstage := hs.main_of_source hi
        simp [hpc, MainPc.stage] at hstage
      cases hsrc : s.srcPc i <;> simp [State.endWaits, hsrc, SourcePc.endWaits]
      all_goals exact hheld (by rw [hsrc]; rfl)
  | idle c =>
      -- and no idle thread exists yet
      have hborn : s.idlePc c = .unborn := by
        by_contra hborn
        have hcreated := (hu.idle c).mp hborn
        simp [hpc, MainPc.IdleCreated, MainPc.stage] at hcreated
      simp only [State.endWaits, hborn]
      rfl

/-- The initialisation of `endbarrier` is no wait. -/
theorem initEndBarrier_waits (hs : Sync s) (hu : Setup cfg s)
    (h : mainThread cfg s .initEndBarrier = some s') :
    s'.endWaits = s.endWaits ∧ s'.endReturns = s.endReturns := by
  have hothers := mainThread_endOthers hs hu h
  have hmain : s'.main.endWaits = s.main.endWaits ∧ s'.main.endReturns = s.main.endReturns := by
    simp only [mainThread, provided_eq_some] at h
    obtain ⟨hpc, rfl⟩ := h
    simp only [hpc, idleLoop]
    split_ifs <;> exact ⟨rfl, rfl⟩
  constructor <;> funext u <;> by_cases hne : u = .main
  · rw [hne]
    exact hmain.1
  · exact (hothers u hne).1
  · rw [hne]
    exact hmain.2
  · exact (hothers u hne).2

/-- `main` initialises `endbarrier` before anybody can wait on it, and takes part itself. -/
theorem mainThread_endBarrier {o : MainOp np ns} (hs : Sync s) (hu : Setup cfg s)
    (hmax : cfg.totalCpu.toNat ≤ intMax) (he : Ending cfg s) (h : mainThread cfg s o = some s') :
    s'.endbarrier.Inv (endParticipants cfg) s'.endWaits s'.endReturns := by
  by_cases hinit : o = .initEndBarrier
  · subst hinit
    obtain ⟨hwaits, hreturns⟩ := initEndBarrier_waits hs hu h
    rw [hwaits, hreturns]
    simp only [mainThread, provided_eq_some] at h
    obtain ⟨hpc, rfl⟩ := h
    dsimp only
    split_ifs
    · exact he.barrier.init _ (endbarrier_idle hs hu he hpc)
    · exact he.barrier
  · have hothers := mainThread_endOthers hs hu h
    exact he.barrier.move (card_le_count hu hmax) main_mem_endParticipants
      (mainThread_endMove he h hinit) (fun u hne => (hothers u hne).1)
      (fun u hne => (hothers u hne).2)

/-- The initialisation comes before the first round. -/
theorem mainThread_endBase {o : MainOp np ns} (he : Ending cfg s)
    (h : mainThread cfg s o = some s') : s'.endbarrier.base = 0 := by
  by_cases hinit : o = .initEndBarrier
  · subst hinit
    have hround (hfree : s.endWaits .main = s.endReturns .main) :=
      he.barrier.round_eq main_mem_endParticipants hfree
    simp only [mainThread, provided_eq_some] at h
    obtain ⟨hpc, rfl⟩ := h
    simp only [State.endWaits, State.endReturns, hpc] at hround
    dsimp only
    split_ifs
    · exact hround rfl
    · exact he.base
  · exact (mainThread_endMove he h hinit).base_eq.trans he.base

/-- A step of `main` keeps the invariant. -/
theorem ending_main {o : MainOp np ns} (hs : Sync s) (hu : Setup cfg s)
    (hmax : cfg.totalCpu.toNat ≤ intMax) (he : Ending cfg s) (h : mainThread cfg s o = some s') :
    Ending cfg s' where
  srcTicket i r hr := by
    rcases mainThread_srcPc h i with hpc | ⟨-, hpc⟩ <;> rw [hpc] at hr
    · exact he.srcTicket i r hr
    · cases hr
  idleTicket c r hr := by
    rcases mainThread_idlePc h c with hpc | ⟨-, hpc⟩ <;> rw [hpc] at hr
    · exact he.idleTicket c r hr
    · cases hr
  mainTicket r hr := mainThread_endTicket he h hr
  barrier := mainThread_endBarrier hs hu hmax he h
  base := mainThread_endBase he h

/-! ## Every step, every run -/

/-- Whatever moves neither `main` nor an idle thread, keeps the sources in or out of their last wait
and leaves `endbarrier` alone. -/
theorem Ending.congr (he : Ending cfg s) (hmain : s'.main = s.main) (hidle : s'.idlePc = s.idlePc)
    (hticket : ∀ i r, s'.srcPc i = .waitEnd r → s.srcPc i = .waitEnd r)
    (hwaits : ∀ i, (s'.srcPc i).endWaits = (s.srcPc i).endWaits)
    (hreturns : ∀ i, (s'.srcPc i).endReturns = (s.srcPc i).endReturns)
    (hend : s'.endbarrier = s.endbarrier) : Ending cfg s' := by
  -- the barrier only counts entries and returns
  have harr : s'.endWaits = s.endWaits := by
    funext t
    cases t <;> simp only [State.endWaits, hmain, hidle, hwaits]
  have hret : s'.endReturns = s.endReturns := by
    funext t
    cases t <;> simp only [State.endReturns, hmain, hidle, hreturns]
  constructor
  case srcTicket =>
    intro i r hr
    exact he.srcTicket i r (hticket i r hr)
  case idleTicket =>
    rw [hidle]
    exact he.idleTicket
  case mainTicket =>
    rw [hmain]
    exact he.mainTicket
  case barrier =>
    rw [hend, harr, hret]
    exact he.barrier
  case base =>
    rw [hend]
    exact he.base

/-- Whoever takes it, a step keeps the invariant. -/
theorem ending_step {op : Op np ns} (hs : Sync s) (hu : Setup cfg s)
    (hmax : cfg.totalCpu.toNat ≤ intMax) (he : Ending cfg s) (h : step cfg s op = some s') :
    Ending cfg s' := by
  cases step_by h with
  | main o ho => exact ending_main hs hu hmax he ho
  | ep p o ho =>
      have hf := epThread_frame ho
      exact he.congr hf.main hf.idlePc (fun i r hr => by rwa [← hf.srcPc])
        (fun i => by rw [hf.srcPc]) (fun i => by rw [hf.srcPc]) hf.endbarrier
  | source i o ho => exact ending_source hu hmax he ho
  | idle c o ho => exact ending_idle hu hmax he ho
  | env _ _ hf =>
      refine he.congr (by rw [hf.rest]) (by rw [hf.rest]) (fun i r hr => ?_)
        (fun i => hf.phase SourcePc.endWaits rfl i) (fun i => hf.phase SourcePc.endReturns rfl i)
        (by rw [hf.rest])
      rcases hf.srcPc i with hpc | ⟨-, hpc⟩ <;> rw [hpc] at hr
      · exact hr
      · cases hr

/-- `Ending` holds in every run on a machine whose cores an `int` can number. -/
theorem ending (hmax : cfg.totalCpu.toNat ≤ intMax) {tr : List (Op np ns)}
    (h : SysRun cfg b tr s) : Ending cfg s := by
  apply h.invariant (P := fun _ s => Ending cfg s) ending_initial
  intro tr s op t hr he hop
  exact ending_step (sync hr) (setup hr (step_eq_some.mp hop).1.1.2.2) hmax he hop

/-! ## Synchronisation facts -/

namespace Ending

/-- Once `main` has passed `endbarrier`, every source has entered it. -/
theorem source_of_main (he : Ending cfg s) (hm : 21 ≤ s.main.stage) (i : Fin ns) :
    1 ≤ (s.srcPc i).endWaits := by
  have hle := he.barrier.ret_le_arr main_mem_endParticipants (source_mem_endParticipants i)
  simp only [State.endReturns, State.endWaits, MainPc.endReturns] at hle
  split_ifs at hle <;> omega

/-- Until `main` enters `endbarrier`, no source gets past it. -/
theorem source_alive (he : Ending cfg s) (hm : s.main.stage ≤ 19) (i : Fin ns) :
    s.srcPc i ≠ .done := by
  have hle := he.barrier.ret_le_arr (source_mem_endParticipants i) main_mem_endParticipants
  simp only [State.endReturns, State.endWaits, MainPc.endWaits, if_pos hm] at hle
  rintro hpc
  rw [hpc] at hle
  exact absurd hle (by decide)

end Ending

/-! ## What is left to do

After the barriers nobody accesses what `main` is about to free. -/

/-- A processor that `main` has waited for does nothing any more but return from its last wait. -/
theorem ep_after_second (hs : Sync s) (hm : 18 ≤ s.main.stage) {p : Fin np} {o : EpOp ns}
    (h : epThread cfg p s o = some s') : ∃ r, o = .return2 r := by
  have hwaits := hs.ep_of_main_second hm p
  cases o
  case return2 r => exact ⟨r, rfl⟩
  all_goals
    simp only [epThread, provided_eq_some] at h
    obtain ⟨hpc, -⟩ := h
    simp [hpc, EpPc.waits] at hwaits

/-- A source that `main` has waited for does nothing any more but return from its last wait. -/
theorem source_after_end (he : Ending cfg s) (hm : 21 ≤ s.main.stage) {i : Fin ns} {o : SourceOp}
    (h : sourceThread cfg i s o = some s') : ∃ r, o = .returnEnd r := by
  have hwaits := he.source_of_main hm i
  cases o
  case returnEnd r => exact ⟨r, rfl⟩
  all_goals
    simp only [sourceThread, provided_eq_some] at h
    obtain ⟨hpc, -⟩ := h
    simp [hpc, SourcePc.endWaits] at hwaits

/-- An operation after `e` is executed in a state in which `main` is no further back than at `e`. -/
theorem executed_after {pre post : List (Op np ns)} {e x : Op np ns}
    (h : SysRun cfg b (pre ++ e :: post) s) (hx : x ∈ post) :
    ∃ u u' v v', Reachable cfg b u ∧ step cfg u e = some u' ∧ Reachable cfg b v ∧
      step cfg v x = some v' ∧ u.main.stage ≤ v.main.stage := by
  -- the run splits at `e` and at `x`
  obtain ⟨mid, rest, rfl⟩ := List.append_of_mem hx
  obtain ⟨u, hu, htail⟩ := run_append.mp h
  obtain ⟨u', he, htail⟩ := run_cons.mp htail
  obtain ⟨v, hv, htail⟩ := run_append.mp htail
  obtain ⟨v', hx', -⟩ := run_cons.mp htail
  have hmid : Run (step cfg) u (e :: mid) v := run_cons.mpr ⟨u', he, hv⟩
  refine ⟨u, u', v, v', ⟨pre, hu⟩, he, ⟨_, hu.append hmid⟩, hx', ?_⟩
  refine hmid.state_invariant (P := fun t => u.main.stage ≤ t.main.stage) le_rfl
    fun t op t' hle hop => ?_
  rcases step_main hop with ⟨o, -, ho⟩ | hm
  · exact hle.trans (mainThread_stage ho)
  · rwa [hm]

/-- What a step of `main` says of its stage, holds for every later operation. -/
theorem stage_after {pre post : List (Op np ns)} {e : MainOp np ns} {x : Op np ns} {k : Nat}
    (h : SysRun cfg b (pre ++ .main e :: post) s) (hx : x ∈ post)
    (he : ∀ u u', mainThread cfg u e = some u' → k ≤ u.main.stage) :
    ∃ tr v v', SysRun cfg b tr v ∧ step cfg v x = some v' ∧ k ≤ v.main.stage := by
  obtain ⟨u, u', v, v', -, hu, ⟨tr, hv⟩, hop, hle⟩ := executed_after h hx
  exact ⟨tr, v, v', hv, hop, (he u u' (step_eq_some.mp hu).2).trans hle⟩

theorem stage_of_report {i : Fin ns} (h : mainThread cfg s (.report i) = some s') :
    21 ≤ s.main.stage := by
  simp only [mainThread, provided_eq_some] at h
  rw [h.1]
  exact le_rfl

theorem stage_of_freeSources (h : mainThread cfg s .freeSources = some s') :
    22 ≤ s.main.stage := by
  simp only [mainThread, provided_eq_some] at h
  rw [h.1]
  exact le_rfl

/-- After the first line has been printed no processor touches a source. -/
theorem ep_quiet_of_report {pre post : List (Op np ns)} {i : Fin ns}
    (h : SysRun cfg b (pre ++ .main (.report i) :: post) s) {p : Fin np} {o : EpOp ns}
    (ho : .ep p o ∈ post) : ¬ o.UsesSources := by
  obtain ⟨_, v, v', hv, hop, hstage⟩ := stage_after h ho fun _ _ => stage_of_report
  obtain ⟨r, rfl⟩ := ep_after_second (sync hv) (by omega) (step_eq_some.mp hop).2
  exact id

/-- After `Sources` has been freed no processor touches anything that is shared. -/
theorem ep_quiet_of_free {pre post : List (Op np ns)}
    (h : SysRun cfg b (pre ++ .main .freeSources :: post) s) {p : Fin np} {o : EpOp ns}
    (ho : .ep p o ∈ post) : ¬ o.UsesSources ∧ ¬ o.UsesProcessor := by
  obtain ⟨_, v, v', hv, hop, hstage⟩ := stage_after h ho fun _ _ => stage_of_freeSources
  obtain ⟨r, rfl⟩ := ep_after_second (sync hv) (by omega) (step_eq_some.mp hop).2
  exact ⟨id, id⟩

/-- Nor does a source. -/
theorem source_quiet_of_free {pre post : List (Op np ns)}
    (h : SysRun cfg b (pre ++ .main .freeSources :: post) s) {i : Fin ns} {o : SourceOp}
    (ho : .source i o ∈ post) : ¬ o.UsesShared := by
  obtain ⟨_, v, v', hv, hop, hstage⟩ := stage_after h ho fun _ _ => stage_of_freeSources
  obtain ⟨hrun, hop⟩ := step_eq_some.mp hop
  have he := ending ((setup hv hrun.1.2.2).past (by omega)) hv
  obtain ⟨r, rfl⟩ := source_after_end he (by omega) hop
  exact id

/-- The processor that `main` signals has been created, and cannot have returned: its second wait
needs `main`. -/
theorem ep_alive_of_kill {pre post : List (Op np ns)} {p : Fin np} {u : State np ns}
    (h : SysRun cfg b (pre ++ .main (.killEp p) :: post) s) (hu : SysRun cfg b pre u) :
    u.epPc p ≠ .unborn ∧ u.epPc p ≠ .done := by
  obtain ⟨_, hpre, htail⟩ := run_append.mp h
  obtain rfl := hu.unique hpre
  obtain ⟨u', hkill, -⟩ := run_cons.mp htail
  obtain ⟨-, hkill⟩ := step_eq_some.mp hkill
  simp only [move, mainThread, provided_eq_some] at hkill
  have hs := sync hu
  constructor
  · rw [Ne, hs.epBorn p, hkill.1]
    simp [MainPc.EpCreated, MainPc.stage]
  · refine hs.ep_alive ?_ p
    rw [hkill.1]
    simp [MainPc.stage]

/-- The source that `main` signals has been created, and cannot have returned from `endbarrier`. -/
theorem source_alive_of_kill {pre post : List (Op np ns)} {i : Fin ns} {u : State np ns}
    (h : SysRun cfg b (pre ++ .main (.killSrc i) :: post) s) (hu : SysRun cfg b pre u) :
    u.srcPc i ≠ .unborn ∧ u.srcPc i ≠ .done := by
  obtain ⟨_, hpre, htail⟩ := run_append.mp h
  obtain rfl := hu.unique hpre
  obtain ⟨u', hkill, -⟩ := run_cons.mp htail
  obtain ⟨hrun, hkill⟩ := step_eq_some.mp hkill
  simp only [move, mainThread, provided_eq_some] at hkill
  have hstage : u.main.stage = 18 := by
    rw [hkill.1]
    rfl
  constructor
  · rw [Ne, (sync hu).srcBorn i, hkill.1]
    simp [MainPc.SrcCreated, MainPc.stage]
  · have he := ending ((setup hu hrun.1.2.2).past (by omega)) hu
    exact he.source_alive (by omega) i

/-- Once a source has freed its argument, `main` has done with it: the source could only be there
because `main` has started the measurement. -/
theorem sarg_free_of_source {pre post : List (Op np ns)} {i : Fin ns}
    (h : SysRun cfg b (pre ++ .source i .freeSarg :: post) s) {o : MainOp np ns}
    (ho : .main o ∈ post) : ¬ o.UsesSarg i := by
  obtain ⟨u, u', v, v', ⟨_, hu⟩, hfree, -, hop, hle⟩ := executed_after h ho
  obtain ⟨-, hfree⟩ := step_eq_some.mp hfree
  obtain ⟨-, hop⟩ := step_eq_some.mp hop
  simp only [move, sourceThread, provided_eq_some] at hfree
  have hstage : 13 ≤ u.main.stage := (sync hu).main_of_source (i := i) (by rw [hfree.1]; rfl)
  cases o
  case assign j | create j | detach j =>
    simp only [move, mainThread, provided_eq_some] at hop
    have hle : u.main.stage ≤ 8 := by
      rwa [hop.1] at hle
    omega
  all_goals exact id

/-- In every run, with any number of sources, `main` reports and frees only what the other threads
have left for good, signals only the living, and lets go of the arguments of a source before that
source frees them. That a machine has idle cores is not needed: without them `endbarrier` is not
initialised, and `main` never gets past it. -/
theorem quiescent {tr : List (Op np ns)} (h : SysRun cfg b tr s) : Quiescent cfg b tr where
  report := by
    rintro pre i post rfl p o ho
    exact ep_quiet_of_report h ho
  freed := by
    rintro pre post rfl
    exact ⟨fun p o ho => ep_quiet_of_free h ho, fun i o ho => source_quiet_of_free h ho⟩
  killEp := by
    rintro pre p post u rfl hu
    exact ep_alive_of_kill h hu
  killSrc := by
    rintro pre i post u rfl hu
    exact source_alive_of_kill h hu
  sarg := by
    rintro pre i post rfl o ho
    exact sarg_free_of_source h ho

/-- With one processor, one source and one idle thread: everybody meets at `endbarrier`, and `main`
frees the tables while the others have yet to return. -/
def leave (p : Fin np) (i : Fin ns) (c : Int) : List (Op np ns) :=
  [.source i (.returned 0), .source i .testEndFlag, .source i .freeSarg, .source i .arriveEnd,
    .idle c .arrive, .main .arriveEnd, .main (.returnEnd 0), .main (.report i), .main .freeSources,
    .source i (.returnEnd 0), .ep p (.return2 1), .main .freeProcessors]

theorem quiescent_single : ∃ tr s, SysRun (single .wfeDbNomon 4) zeroed tr s ∧
    .main .freeProcessors ∈ tr ∧ Quiescent (single .wfeDbNomon 4) zeroed tr := by
  obtain ⟨s, hs, -⟩ := exists_run (step (single .wfeDbNomon 4)) (initial zeroed)
    (startUp (single .wfeDbNomon 4) zeroed ++ shutDown 1 1 ++ leave 0 0 3) (fun _ => True) (by decide)
  exact ⟨_, s, hs, by decide, quiescent hs⟩

end Wfey
