import Wfey.Frame
import Wfey.Phase
import Mathlib.Data.Fintype.Card

/-!
# Start-up and the first two barriers

`Sync` ties the program points of all threads together: who has been created, who waits on
`epbarrier` and on `srcbarrier` (by the barrier discipline of `Conc.Barrier`), and which end flags
are set. It holds in every reachable state of every build (`sync`). What the rest of the
development takes from it are the synchronisation facts at the end of the file.
-/

namespace Wfey

open Conc (Barrier provided_eq_some Run)
open Function (update update_self update_of_ne)

variable {np ns : Nat} {cfg : Config np ns} {b : Boot np ns} {s s' : State np ns}

/-! ## Participants -/

def epParticipants (np ns : Nat) : Finset (Thread np ns) :=
  insert .main (Finset.univ.image .ep)

def srcParticipants (np ns : Nat) : Finset (Thread np ns) :=
  insert .main (Finset.univ.image .source)

/-- `epbarrier` is for `main` and the processors, which is the count `main` gives it. -/
theorem card_epParticipants : (epParticipants np ns).card = np + 1 := by
  unfold epParticipants
  rw [Finset.card_insert_of_notMem (by simp), Finset.card_image_of_injective]
  · simp
  · intro p q h
    cases h
    rfl

/-- `srcbarrier` is for `main` and the sources, which is the count `main` gives it. -/
theorem card_srcParticipants : (srcParticipants np ns).card = ns + 1 := by
  unfold srcParticipants
  rw [Finset.card_insert_of_notMem (by simp), Finset.card_image_of_injective]
  · simp
  · intro i j h
    cases h
    rfl

@[simp] theorem main_mem_epParticipants : (.main : Thread np ns) ∈ epParticipants np ns := by
  simp [epParticipants]

@[simp] theorem ep_mem_epParticipants (p : Fin np) : .ep p ∈ epParticipants np ns := by
  simp [epParticipants]

@[simp] theorem main_mem_srcParticipants : (.main : Thread np ns) ∈ srcParticipants np ns := by
  simp [srcParticipants]

@[simp] theorem source_mem_srcParticipants (i : Fin ns) : .source i ∈ srcParticipants np ns := by
  simp [srcParticipants]

/-! ## The invariant

Every thread waits on a barrier once, or twice with `main` initialising the barrier anew in between.
The round a thread carries is therefore fixed by its program point, and so are the rounds a barrier
still knows of: after the second initialisation of `epbarrier` only the second one. -/

/-- A thread inside its first wait on a barrier arrived in round 0, inside its second in round 1. -/
def EpPc.TicketOk : EpPc ns → Prop
  | .wait1 r => r = 0
  | .wait2 r => r = 1
  | _ => True

def SourcePc.TicketOk : SourcePc → Prop
  | .waitSrc r => r = 0
  | _ => True

def MainPc.TicketOk : MainPc → Prop
  | .waitEp r | .waitSrc r => r = 0
  | .waitEp2 r => r = 1
  | _ => True

structure Sync (s : State np ns) : Prop where
  epBorn : ∀ p : Fin np, s.epPc p = .unborn ↔ ¬ s.main.EpCreated p
  srcBorn : ∀ i : Fin ns, s.srcPc i = .unborn ↔ ¬ s.main.SrcCreated i
  epFlag : ∀ p : Fin np, s.main.EpCreated p → s.epEndFlag p = true → s.main.EpStopped p
  epLeft : ∀ p : Fin np, (s.epPc p).Left → s.main.EpStopped p
  epTicket : ∀ p, (s.epPc p).TicketOk
  srcTicket : ∀ i, (s.srcPc i).TicketOk
  mainTicket : s.main.TicketOk
  epBarrier : s.epbarrier.Inv (epParticipants np ns) s.epWaits s.epReturns
  srcBarrier : s.srcbarrier.Inv (srcParticipants np ns) s.srcWaits s.srcReturns
  epCount : ∀ n, s.epbarrier.count = some n → n = np + 1
  srcCount : ∀ n, s.srcbarrier.count = some n → n = ns + 1
  epBase : s.epbarrier.base = if s.main.stage ≤ 4 then 0 else 1
  srcBase : s.srcbarrier.base = 0
  assigned : s.sourcesAssigned = decide (5 < s.main.stage)
  alive : s.sourcesAssigned = true → s.crashed = false

/-- A processor that `main` is about to create does not exist yet. -/
theorem Sync.ep_unborn (hs : Sync s) {p : Fin np} (hpc : s.main = .createEp p) :
    s.epPc p = .unborn := by
  rw [hs.epBorn p, hpc]
  exact lt_irrefl _

/-- Nor does a source that `main` is about to create. -/
theorem Sync.source_unborn (hs : Sync s) {i : Fin ns} (hpc : s.main = .create i) :
    s.srcPc i = .unborn := by
  rw [hs.srcBorn i, hpc]
  exact lt_irrefl _

/-- At the start nobody has been born, and nobody has waited on anything. -/
theorem sync_initial : Sync (initial b : State np ns) where
  epBorn p := by simp [initial, MainPc.EpCreated, MainPc.stage]
  srcBorn i := by simp [initial, MainPc.SrcCreated, MainPc.stage]
  epFlag p := by simp [initial, MainPc.EpCreated, MainPc.stage]
  epLeft p := by simp [initial, EpPc.Left]
  epTicket p := by simp [initial, EpPc.TicketOk]
  srcTicket i := by simp [initial, SourcePc.TicketOk]
  mainTicket := by simp [initial, MainPc.TicketOk]
  epBarrier := Barrier.Inv.fresh (by rintro (_ | _ | _ | _) <;> rfl) (by rintro (_ | _ | _ | _) <;> rfl)
  srcBarrier := Barrier.Inv.fresh (by rintro (_ | _ | _ | _) <;> rfl) (by rintro (_ | _ | _ | _) <;> rfl)
  epCount n := by simp [initial]
  srcCount n := by simp [initial]
  epBase := by simp [initial, MainPc.stage]
  srcBase := rfl
  assigned := rfl
  alive _ := rfl

/-! ## Steps of an event processor -/

/-- What a step of processor `p` is to `epbarrier`. -/
theorem epThread_move {p : Fin np} {o : EpOp ns} (hs : Sync s) (h : epThread cfg p s o = some s') :
    Barrier.Move (.ep p) (s.epPc p).waits (s.epPc p).returns s.epbarrier
      (s'.epPc p).waits (s'.epPc p).returns s'.epbarrier := by
  have hticket := hs.epTicket p
  cases o
  case return1 | return2 =>
    -- the ticket tells which round the processor returns from
    simp only [epThread, provided_eq_some] at h
    obtain ⟨⟨hpc, hr⟩, rfl⟩ := h
    rw [hpc] at hticket
    obtain rfl := hticket
    simp only [hpc, update_self]
    exact .leave hr
  case arrive1 | arrive2 =>
    simp only [epThread, provided_eq_some] at h
    obtain ⟨hpc, rfl⟩ := h
    simp only [hpc, update_self]
    exact .arrive rfl
  all_goals
    simp only [epThread, provided_eq_some] at h
    obtain ⟨hpc, rfl⟩ := h
    simp only [hpc, update_self]
    first
    | exact .idle
    | (split_ifs <;> exact .idle)

/-- A processor that has just arrived carries the number of the round it arrived in; no other step
touches the number. -/
theorem epThread_ticket {p : Fin np} {o : EpOp ns} (hs : Sync s) (h : epThread cfg p s o = some s') :
    (s'.epPc p).TicketOk := by
  have hround (hfree : s.epWaits (.ep p) = s.epReturns (.ep p)) :=
    hs.epBarrier.round_eq (ep_mem_epParticipants p) hfree
  cases o
  all_goals
    simp only [epThread, provided_eq_some] at h
    obtain ⟨hpc, rfl⟩ := h
    simp only [State.epWaits, State.epReturns, hpc, update_self] at hround ⊢
    first
    | trivial
    | exact hround rfl
    | split_ifs <;> trivial

/-- Only a thread that has been created moves, and it never becomes uncreated again. -/
theorem epThread_born {p : Fin np} {o : EpOp ns} (h : epThread cfg p s o = some s') :
    s.epPc p ≠ .unborn ∧ s'.epPc p ≠ .unborn := by
  cases o
  all_goals
    simp only [epThread, provided_eq_some] at h
    obtain ⟨hpc, rfl⟩ := h
    simp only [hpc, update_self]
    split_ands <;> (try split_ifs) <;> simp

/-- The loop is left only through the test of `end_flag`. -/
theorem epThread_left {p : Fin np} {o : EpOp ns} (h : epThread cfg p s o = some s')
    (hleft : (s'.epPc p).Left) : (s.epPc p).Left ∨ s.epEndFlag p = true := by
  cases o
  all_goals
    simp only [epThread, provided_eq_some] at h
    obtain ⟨hpc, rfl⟩ := h
    simp only [hpc, update_self] at hleft ⊢
    first
    | exact .inl trivial
    | cases hleft
    | (split_ifs at hleft <;> first | exact .inr ‹_› | cases hleft)

/-- The other threads neither arrive nor return. -/
theorem EpFrame.waits {p : Fin np} (hf : EpFrame p s s') (u : Thread np ns) (hu : u ≠ .ep p) :
    s'.epWaits u = s.epWaits u ∧ s'.epReturns u = s.epReturns u := by
  cases u with
  | main => simp only [State.epWaits, State.epReturns, hf.main, and_self]
  | ep q =>
      have hqp : q ≠ p := fun e => hu (e ▸ rfl)
      simp only [State.epWaits, State.epReturns, hf.epPc q hqp, and_self]
  | source i => exact ⟨rfl, rfl⟩
  | idle c => exact ⟨rfl, rfl⟩

/-- A step of a processor keeps the invariant. It is a move on `epbarrier`, and everything else it
writes the invariant does not look at. -/
theorem sync_ep {p : Fin np} {o : EpOp ns} (hs : Sync s) (h : epThread cfg p s o = some s') :
    Sync s' := by
  have hf := epThread_frame h
  obtain ⟨hborn, hborn'⟩ := epThread_born h
  constructor
  case epBorn =>
    rw [hf.main]
    apply hf.each (P := fun q pc => pc = .unborn ↔ ¬ s.main.EpCreated q) _ hs.epBorn
    rw [← hs.epBorn p]
    exact iff_of_false hborn' hborn
  case srcBorn =>
    rw [hf.main, hf.srcPc]
    exact hs.srcBorn
  case epFlag =>
    rw [hf.main, hf.epEndFlag]
    exact hs.epFlag
  case epLeft =>
    rw [hf.main]
    apply hf.each (P := fun q pc => pc.Left → s.main.EpStopped q) _ hs.epLeft
    intro hleft
    rcases epThread_left h hleft with hl | hflag
    · exact hs.epLeft p hl
    · -- the flag is the one `main` has set: the processor exists, so it has been initialised
      exact hs.epFlag p (Classical.not_not.mp (mt (hs.epBorn p).mpr hborn)) hflag
  case epTicket => exact hf.each (P := fun _ pc => pc.TicketOk) (epThread_ticket hs h) hs.epTicket
  case srcTicket =>
    rw [hf.srcPc]
    exact hs.srcTicket
  case mainTicket =>
    rw [hf.main]
    exact hs.mainTicket
  case epBarrier =>
    refine hs.epBarrier.move ?_ (ep_mem_epParticipants p) (epThread_move hs h)
      (fun u hu => (hf.waits u hu).1) (fun u hu => (hf.waits u hu).2)
    intro n hn
    rw [card_epParticipants]
    exact (hs.epCount n hn).ge
  case srcBarrier =>
    -- a processor has no part in `srcbarrier`
    have hwaits : s'.srcWaits = s.srcWaits := by
      funext t
      cases t <;> simp only [State.srcWaits, hf.main, hf.srcPc]
    have hreturns : s'.srcReturns = s.srcReturns := by
      funext t
      cases t <;> simp only [State.srcReturns, hf.main, hf.srcPc]
    rw [hf.srcbarrier, hwaits, hreturns]
    exact hs.srcBarrier
  case epCount =>
    intro n hn
    exact hs.epCount n ((epThread_move hs h).count_eq ▸ hn)
  case srcCount =>
    rw [hf.srcbarrier]
    exact hs.srcCount
  case epBase =>
    rw [hf.main, (epThread_move hs h).base_eq]
    exact hs.epBase
  case srcBase =>
    rw [hf.srcbarrier]
    exact hs.srcBase
  case assigned =>
    rw [hf.main, hf.sourcesAssigned]
    exact hs.assigned
  case alive =>
    rw [hf.sourcesAssigned]
    exact fun ha => hf.crashed ha (hs.alive ha)

/-! ## Steps of a source -/

/-- What a step of source `i` is to `srcbarrier`. -/
theorem sourceThread_move {i : Fin ns} {o : SourceOp} (hs : Sync s)
    (h : sourceThread cfg i s o = some s') :
    Barrier.Move (.source i) (s.srcPc i).srcWaits (s.srcPc i).srcReturns s.srcbarrier
      (s'.srcPc i).srcWaits (s'.srcPc i).srcReturns s'.srcbarrier := by
  have hticket := hs.srcTicket i
  cases o
  case returned =>
    simp only [sourceThread, provided_eq_some] at h
    obtain ⟨⟨hpc, hr⟩, rfl⟩ := h
    rw [hpc] at hticket
    -- the ticket is that of the only round
    obtain rfl := hticket
    simp only [hpc, update_self]
    exact .leave hr
  case arrive =>
    simp only [sourceThread, provided_eq_some] at h
    obtain ⟨hpc, rfl⟩ := h
    simp only [hpc, update_self]
    exact .arrive rfl
  all_goals
    simp only [sourceThread, provided_eq_some] at h
    obtain ⟨hpc, rfl⟩ := h
    simp only [hpc, update_self]
    first
    | exact .idle
    | (split_ifs <;> exact .idle)

/-- The same for a source and the round of `srcbarrier`. -/
theorem sourceThread_ticket {i : Fin ns} {o : SourceOp} (hs : Sync s)
    (h : sourceThread cfg i s o = some s') : (s'.srcPc i).TicketOk := by
  have hround (hfree : s.srcWaits (.source i) = s.srcReturns (.source i)) :=
    hs.srcBarrier.round_eq (source_mem_srcParticipants i) hfree
  cases o
  all_goals
    simp only [sourceThread, provided_eq_some] at h
    obtain ⟨hpc, rfl⟩ := h
    simp only [State.srcWaits, State.srcReturns, hpc, update_self] at hround ⊢
    first
    | trivial
    | exact hround rfl
    | split_ifs <;> trivial

theorem sourceThread_born {i : Fin ns} {o : SourceOp} (h : sourceThread cfg i s o = some s') :
    s.srcPc i ≠ .unborn ∧ s'.srcPc i ≠ .unborn := by
  cases o
  all_goals
    simp only [sourceThread, provided_eq_some] at h
    obtain ⟨hpc, rfl⟩ := h
    simp only [hpc, update_self]
    split_ands <;> (try split_ifs) <;> simp

/-- A source that has got past the barrier does not go back. -/
theorem sourceThread_returned {i : Fin ns} {o : SourceOp} (h : sourceThread cfg i s o = some s')
    (hi : (s.srcPc i).srcReturns = 1) : (s'.srcPc i).srcReturns = 1 := by
  cases o
  all_goals
    simp only [sourceThread, provided_eq_some] at h
    obtain ⟨hpc, rfl⟩ := h
    simp only [hpc, update_self] at hi ⊢
    try split_ifs
    all_goals first | rfl | cases hi

/-- A source counts its own waits only. -/
theorem SourceFrame.srcWaits {i : Fin ns} (hf : SourceFrame i s s') (u : Thread np ns)
    (hu : u ≠ .source i) : s'.srcWaits u = s.srcWaits u ∧ s'.srcReturns u = s.srcReturns u := by
  cases u with
  | main => simp only [State.srcWaits, State.srcReturns, hf.main, and_self]
  | ep p => exact ⟨rfl, rfl⟩
  | source j =>
      have hji : j ≠ i := fun e => hu (e ▸ rfl)
      simp only [State.srcWaits, State.srcReturns, hf.srcPc j hji, and_self]
  | idle c => exact ⟨rfl, rfl⟩

/-- A step of a source keeps the invariant: it is a move on `srcbarrier`. -/
theorem sync_source {i : Fin ns} {o : SourceOp} (hs : Sync s)
    (h : sourceThread cfg i s o = some s') : Sync s' := by
  have hf := sourceThread_frame h
  obtain ⟨hborn, hborn'⟩ := sourceThread_born h
  constructor
  case epBorn =>
    rw [hf.main, hf.epPc]
    exact hs.epBorn
  case srcBorn =>
    rw [hf.main]
    apply hf.each (P := fun j pc => pc = .unborn ↔ ¬ s.main.SrcCreated j) _ hs.srcBorn
    rw [← hs.srcBorn i]
    exact iff_of_false hborn' hborn
  case epFlag =>
    rw [hf.main, hf.epEndFlag]
    exact hs.epFlag
  case epLeft =>
    rw [hf.main, hf.epPc]
    exact hs.epLeft
  case epTicket =>
    rw [hf.epPc]
    exact hs.epTicket
  case srcTicket =>
    exact hf.each (P := fun _ pc => pc.TicketOk) (sourceThread_ticket hs h) hs.srcTicket
  case mainTicket =>
    rw [hf.main]
    exact hs.mainTicket
  case epBarrier =>
    -- a source has no part in `epbarrier`
    have hwaits : s'.epWaits = s.epWaits := by
      funext t
      cases t <;> simp only [State.epWaits, hf.main, hf.epPc]
    have hreturns : s'.epReturns = s.epReturns := by
      funext t
      cases t <;> simp only [State.epReturns, hf.main, hf.epPc]
    rw [hf.epbarrier, hwaits, hreturns]
    exact hs.epBarrier
  case srcBarrier =>
    refine hs.srcBarrier.move ?_ (source_mem_srcParticipants i) (sourceThread_move hs h)
      (fun u hu => (hf.srcWaits u hu).1) (fun u hu => (hf.srcWaits u hu).2)
    intro n hn
    rw [card_srcParticipants]
    exact (hs.srcCount n hn).ge
  case epCount =>
    rw [hf.epbarrier]
    exact hs.epCount
  case srcCount =>
    intro n hn
    exact hs.srcCount n ((sourceThread_move hs h).count_eq ▸ hn)
  case epBase =>
    rw [hf.main, hf.epbarrier]
    exact hs.epBase
  case srcBase =>
    rw [(sourceThread_move hs h).base_eq]
    exact hs.srcBase
  case assigned =>
    rw [hf.main, hf.sourcesAssigned]
    exact hs.assigned
  case alive =>
    rw [hf.sourcesAssigned, hf.crashed]
    exact hs.alive

/-! ## Steps of `main`

`main` initialises the barriers besides waiting on them. Where it does so nobody waits, so that the
participants' discipline holds of the new barrier. -/

/-- What a step of `main` that initialises no barrier is to `epbarrier`. -/
theorem mainThread_epMove {o : MainOp np ns} (hs : Sync s) (h : mainThread cfg s o = some s')
    (hinit : o ≠ .initEpBarrier ∧ o ≠ .reinitEpBarrier) :
    Barrier.Move (.main : Thread np ns) s.main.epWaits s.main.epReturns s.epbarrier
      s'.main.epWaits s'.main.epReturns s'.epbarrier := by
  have hticket := hs.mainTicket
  cases o
  case initEpBarrier => exact absurd rfl hinit.1
  case reinitEpBarrier => exact absurd rfl hinit.2
  case returnEp | returnEp2 =>
    simp only [mainThread, provided_eq_some] at h
    obtain ⟨⟨hpc, hr⟩, rfl⟩ := h
    rw [hpc] at hticket
    -- the first return is from round 0 and the second from round 1
    obtain rfl := hticket
    simp only [hpc]
    exact .leave hr
  case arriveEp | arriveEp2 =>
    simp only [mainThread, provided_eq_some] at h
    obtain ⟨hpc, rfl⟩ := h
    simp only [hpc]
    exact .arrive rfl
  all_goals
    simp only [mainThread, provided_eq_some] at h
    obtain ⟨hpc, rfl⟩ := h
    simp only [hpc, forNext, idleLoop]
    first
    | exact .idle
    | (split_ifs <;> exact .idle)

/-- What a step of `main` that does not initialise `srcbarrier` is to it. -/
theorem mainThread_srcMove {o : MainOp np ns} (hs : Sync s) (h : mainThread cfg s o = some s')
    (hinit : o ≠ .initSrcBarrier) :
    Barrier.Move (.main : Thread np ns) s.main.srcWaits s.main.srcReturns s.srcbarrier
      s'.main.srcWaits s'.main.srcReturns s'.srcbarrier := by
  have hticket := hs.mainTicket
  cases o
  case initSrcBarrier => exact absurd rfl hinit
  case returnSrc =>
    simp only [mainThread, provided_eq_some] at h
    obtain ⟨⟨hpc, hr⟩, rfl⟩ := h
    rw [hpc] at hticket
    obtain rfl := hticket
    simp only [hpc]
    exact .leave hr
  case arriveSrc =>
    simp only [mainThread, provided_eq_some] at h
    obtain ⟨hpc, rfl⟩ := h
    simp only [hpc]
    exact .arrive rfl
  all_goals
    simp only [mainThread, provided_eq_some] at h
    obtain ⟨hpc, rfl⟩ := h
    simp only [hpc, forNext, idleLoop]
    first
    | exact .idle
    | (split_ifs <;> exact .idle)

/-- `main` does not take back an `end_flag`. -/
theorem mainThread_epStopped {o : MainOp np ns} {p : Fin np} (h : mainThread cfg s o = some s')
    (hp : s.main.EpStopped p) : s'.main.EpStopped p := by
  cases o
  all_goals
    simp only [mainThread, provided_eq_some] at h
    obtain ⟨hpc, rfl⟩ := h
    simp only [hpc, forNext, idleLoop] at hp ⊢
    try split_ifs
    all_goals simp [MainPc.EpStopped, MainPc.stage] at hp ⊢
    all_goals omega

/-- `main` creates each processor once, in the order of the loop. -/
theorem mainThread_epBorn {o : MainOp np ns} (hs : Sync s) (h : mainThread cfg s o = some s')
    (p : Fin np) : s'.epPc p = .unborn ↔ ¬ s'.main.EpCreated p := by
  have hp := hs.epBorn p
  cases o
  case createEp q =>
    simp only [mainThread, provided_eq_some] at h
    obtain ⟨hpc, rfl⟩ := h
    simp only [hpc, forNext, MainPc.EpCreated, not_lt] at hp ⊢
    by_cases hpq : p = q
    · subst hpq
      rw [update_self]
      split_ifs <;> simp [MainPc.stage]
    · rw [update_of_ne hpq, hp]
      have hne : (p : Nat) ≠ q := fun e => hpq (Fin.ext e)
      have hlt := p.isLt
      split_ifs <;> simp [MainPc.stage] <;> omega
  all_goals
    simp only [mainThread, provided_eq_some] at h
    obtain ⟨hpc, rfl⟩ := h
    simp only [hpc, forNext, idleLoop] at hp ⊢
    try split_ifs
    all_goals simpa [MainPc.EpCreated, MainPc.stage] using hp

/-- `main` creates each source once, in the order of the loop. -/
theorem mainThread_srcBorn {o : MainOp np ns} (hs : Sync s) (h : mainThread cfg s o = some s')
    (i : Fin ns) : s'.srcPc i = .unborn ↔ ¬ s'.main.SrcCreated i := by
  have hi := hs.srcBorn i
  have hlt := i.isLt
  cases o
  case create j =>
    simp only [mainThread, provided_eq_some] at h
    obtain ⟨hpc, rfl⟩ := h
    simp only [hpc, MainPc.SrcCreated, not_lt, not_le] at hi ⊢
    by_cases hij : i = j
    · subst hij
      simp
    · rw [update_of_ne hij, hi]
      have hne : (i : Nat) ≠ j := fun e => hij (Fin.ext e)
      omega
  all_goals
    simp only [mainThread, provided_eq_some] at h
    obtain ⟨hpc, rfl⟩ := h
    simp only [hpc, forNext, idleLoop] at hi ⊢
    try split_ifs
    all_goals simp [MainPc.SrcCreated, MainPc.stage] at hi ⊢
    all_goals first | exact hi | (rw [hi]; omega)

/-- A flag is up only if `main` has told the processor to stop: its creation clears what `malloc`
left there. -/
theorem mainThread_epFlag {o : MainOp np ns} (hs : Sync s) (h : mainThread cfg s o = some s')
    (p : Fin np) (hc : s'.main.EpCreated p) (hflag : s'.epEndFlag p = true) :
    s'.main.EpStopped p := by
  have hp := hs.epFlag p
  cases o
  case initEpBarrier =>
    simp only [mainThread, provided_eq_some] at h
    obtain ⟨hpc, rfl⟩ := h
    exact absurd hc (Nat.not_lt_zero _)
  case createEp q =>
    simp only [mainThread, provided_eq_some] at h
    obtain ⟨hpc, rfl⟩ := h
    by_cases hpq : p = q
    · subst hpq
      -- a processor is created with its flag clear
      simp at hflag
    · -- the flags of processors that do not exist yet may hold anything
      have hne : (p : Nat) ≠ q := fun e => hpq (Fin.ext e)
      have hlt := p.isLt
      simp only [update_of_ne hpq] at hflag
      simp only [hpc, forNext, MainPc.EpCreated, MainPc.EpStopped, MainPc.stage] at hp hc
      have hlt' : (p : Nat) < q := by
        split_ifs at hc <;> simp at hc <;> omega
      exact absurd (hp hlt' hflag) (by decide)
  case setEpFlag q =>
    simp only [mainThread, provided_eq_some] at h
    obtain ⟨hpc, rfl⟩ := h
    simp only [hpc, MainPc.EpStopped, MainPc.EpCreated, MainPc.stage] at hp ⊢
    by_cases hpq : p = q
    · -- the flag that is set now
      rw [hpq]
    · simp only [update_of_ne hpq] at hflag
      exact le_of_lt (hp (by decide) hflag)
  all_goals
    -- nobody else clears or sets a flag, so what held before still does
    have hmono := mainThread_epStopped h (hp ?_ ?_)
    · exact hmono
    all_goals
      simp only [mainThread, provided_eq_some] at h
      obtain ⟨hpc, rfl⟩ := h
      first
      | exact hflag
      | simp [hpc, MainPc.EpCreated, MainPc.stage]

/-- `main` never moves back. -/
theorem mainThread_stage {o : MainOp np ns} (h : mainThread cfg s o = some s') :
    s.main.stage ≤ s'.main.stage := by
  cases o
  all_goals
    simp only [mainThread, provided_eq_some] at h
    obtain ⟨hpc, rfl⟩ := h
    simp only [hpc, forNext, idleLoop]
    try split_ifs
    all_goals simp [MainPc.stage]

/-- `main` too carries the numbers of the rounds it arrived in. -/
theorem mainThread_ticket {o : MainOp np ns} (hs : Sync s) (h : mainThread cfg s o = some s') :
    s'.main.TicketOk := by
  have hep (hfree : s.epWaits .main = s.epReturns .main) :=
    hs.epBarrier.round_eq main_mem_epParticipants hfree
  have hsrc (hfree : s.srcWaits .main = s.srcReturns .main) :=
    hs.srcBarrier.round_eq main_mem_srcParticipants hfree
  cases o
  all_goals
    simp only [mainThread, provided_eq_some] at h
    obtain ⟨hpc, rfl⟩ := h
    simp only [State.epWaits, State.epReturns, State.srcWaits, State.srcReturns, hpc, forNext,
      idleLoop] at hep hsrc ⊢
    first
    | trivial
    | exact hep rfl
    | exact hsrc rfl
    | split_ifs <;> trivial

/-- A created thread starts outside every wait, like one that does not exist. -/
theorem mainThread_others {o : MainOp np ns} (hs : Sync s) (h : mainThread cfg s o = some s')
    (u : Thread np ns) (hu : u ≠ .main) :
    s'.epWaits u = s.epWaits u ∧ s'.epReturns u = s.epReturns u ∧
      s'.srcWaits u = s.srcWaits u ∧ s'.srcReturns u = s.srcReturns u := by
  cases u with
  | main => exact absurd rfl hu
  | idle c => exact ⟨rfl, rfl, rfl, rfl⟩
  | ep p =>
      simp only [State.epWaits, State.epReturns, State.srcWaits, State.srcReturns, and_true]
      rcases mainThread_epPc h p with he | ⟨hpc, he⟩
      · rw [he]
        exact ⟨rfl, rfl⟩
      · rw [he, hs.ep_unborn hpc]
        exact ⟨rfl, rfl⟩
  | source i =>
      simp only [State.epWaits, State.epReturns, State.srcWaits, State.srcReturns, true_and]
      rcases mainThread_srcPc h i with he | ⟨hpc, he⟩
      · rw [he]
        exact ⟨rfl, rfl⟩
      · rw [he, hs.source_unborn hpc]
        exact ⟨rfl, rfl⟩

/-- Nobody waits on `epbarrier` when `main` (re-)initialises it: the processors that have returned
from their first wait stay in their loops until `main` sets the end flags. -/
theorem epbarrier_idle (hs : Sync s) (hpc : s.main = .initEpBarrier ∨ s.main = .reinitEpBarrier) :
    s.epbarrier.waiting = [] := by
  have hround : s.epbarrier.round = s.main.epReturns :=
    hs.epBarrier.round_eq main_mem_epParticipants (by
      rcases hpc with hpc | hpc <;> simp only [State.epWaits, State.epReturns, hpc] <;> rfl)
  apply hs.epBarrier.waiting_eq_nil
  intro t ht
  rw [hround]
  cases t with
  | main => rcases hpc with hpc | hpc <;> simp only [State.epWaits, hpc] <;> decide
  | source i => rcases hpc with hpc | hpc <;> simp only [State.epWaits, hpc] <;> decide
  | idle c => rcases hpc with hpc | hpc <;> simp only [State.epWaits, hpc] <;> decide
  | ep p =>
      intro hahead
      have hborn := hs.epBorn p
      have hleft := hs.epLeft p
      rcases hpc with hpc | hpc <;> rw [hpc] at hborn hleft hahead
      · -- before the first initialisation there is no processor
        simp [MainPc.EpCreated, MainPc.stage] at hborn
        simp [State.epWaits, hborn, EpPc.waits] at hahead
      · -- one round ahead is only who has left its loop, and no end flag is set yet
        have hnot : ¬ (s.epPc p).Left := fun hl => by
          have := hleft hl
          simp [MainPc.EpStopped, MainPc.stage] at this
        apply hnot
        cases hep : s.epPc p <;> simp [State.epWaits, hep, EpPc.waits, MainPc.epReturns,
          MainPc.stage] at hahead <;> trivial

/-- Nobody waits on `srcbarrier` when `main` initialises it: no source exists yet. -/
theorem srcbarrier_idle (hs : Sync s) (hpc : s.main = .initSrcBarrier) :
    s.srcbarrier.waiting = [] := by
  apply hs.srcBarrier.waiting_eq_nil
  intro t ht
  cases t with
  | main => simp [State.srcWaits, hpc, MainPc.srcWaits, MainPc.stage]
  | ep p => simp [State.srcWaits]
  | idle c => simp [State.srcWaits]
  | source i =>
      have hborn := hs.srcBorn i
      rw [hpc] at hborn
      simp [MainPc.SrcCreated, MainPc.stage] at hborn
      simp [State.srcWaits, hborn, SourcePc.srcWaits]

/-- What `main` does to `epbarrier`: it arrives twice, returns twice and initialises it twice, and
each of these keeps the discipline. -/
theorem mainThread_epBarrier {o : MainOp np ns} (hs : Sync s) (h : mainThread cfg s o = some s') :
    s'.epbarrier.Inv (epParticipants np ns) s'.epWaits s'.epReturns := by
  have hothers := mainThread_others hs h
  by_cases hinit : o ≠ .initEpBarrier ∧ o ≠ .reinitEpBarrier
  · refine hs.epBarrier.move ?_ main_mem_epParticipants (mainThread_epMove hs h hinit)
      (fun u hu => (hothers u hu).1) (fun u hu => (hothers u hu).2.1)
    rw [card_epParticipants]
    exact fun n hn => (hs.epCount n hn).ge
  · -- the two initialisations: no wait is entered or left, and nobody waits
    have hidle (hw : s.epWaits .main = s'.epWaits .main) (hr : s.epReturns .main = s'.epReturns .main) :
        s.epWaits = s'.epWaits ∧ s.epReturns = s'.epReturns := by
      constructor <;> funext u <;> by_cases hu : u = .main
      · rw [hu, hw]
      · exact (hothers u hu).1.symm
      · rw [hu, hr]
      · exact (hothers u hu).2.1.symm
    cases o
    case initEpBarrier | reinitEpBarrier =>
      simp only [mainThread, provided_eq_some] at h
      obtain ⟨hpc, rfl⟩ := h
      obtain ⟨hw, hr⟩ := hidle (by simp only [State.epWaits, hpc]; rfl)
        (by simp only [State.epReturns, hpc]; rfl)
      rw [← hw, ← hr]
      exact hs.epBarrier.init _ (epbarrier_idle hs (by simp [hpc]))
    all_goals exact absurd ⟨by simp, by simp⟩ hinit

/-- What `main` does to `srcbarrier`. -/
theorem mainThread_srcBarrier {o : MainOp np ns} (hs : Sync s) (h : mainThread cfg s o = some s') :
    s'.srcbarrier.Inv (srcParticipants np ns) s'.srcWaits s'.srcReturns := by
  have hothers := mainThread_others hs h
  by_cases hinit : o = .initSrcBarrier
  · -- the initialisation: no wait is entered or left
    have hsame : s.srcWaits = s'.srcWaits ∧ s.srcReturns = s'.srcReturns := by
      subst hinit
      constructor <;> funext u <;> by_cases hu : u = .main
      case pos | pos =>
        simp only [mainThread, provided_eq_some] at h
        obtain ⟨hpc, rfl⟩ := h
        rw [hu]
        simp only [State.srcWaits, State.srcReturns, hpc]
        rfl
      · exact (hothers u hu).2.2.1.symm
      · exact (hothers u hu).2.2.2.symm
    subst hinit
    rw [← hsame.1, ← hsame.2]
    simp only [mainThread, provided_eq_some] at h
    obtain ⟨hpc, rfl⟩ := h
    exact hs.srcBarrier.init _ (srcbarrier_idle hs hpc)
  · refine hs.srcBarrier.move ?_ main_mem_srcParticipants (mainThread_srcMove hs h hinit)
      (fun u hu => (hothers u hu).2.2.1) (fun u hu => (hothers u hu).2.2.2)
    rw [card_srcParticipants]
    exact fun n hn => (hs.srcCount n hn).ge

/-- The second initialisation makes `epbarrier` forget its first round, which is complete. -/
theorem mainThread_epBase {o : MainOp np ns} (hs : Sync s) (h : mainThread cfg s o = some s') :
    s'.epbarrier.base = if s'.main.stage ≤ 4 then 0 else 1 := by
  have hbase := hs.epBase
  by_cases hinit : o ≠ .initEpBarrier ∧ o ≠ .reinitEpBarrier
  · rw [(mainThread_epMove hs h hinit).base_eq, hbase]
    cases o
    case initEpBarrier => exact absurd rfl hinit.1
    case reinitEpBarrier => exact absurd rfl hinit.2
    all_goals
      simp only [mainThread, provided_eq_some] at h
      obtain ⟨hpc, rfl⟩ := h
      simp only [hpc, forNext, idleLoop]
      try split_ifs
      all_goals simp_all [MainPc.stage]
  · -- initialising makes the round that is reached the first one
    have hround (hpc : s.main = .initEpBarrier ∨ s.main = .reinitEpBarrier) :
        s.epbarrier.round = s.main.epReturns :=
      hs.epBarrier.round_eq main_mem_epParticipants (by
        rcases hpc with hpc | hpc <;> simp only [State.epWaits, State.epReturns, hpc] <;> rfl)
    cases o
    case initEpBarrier | reinitEpBarrier =>
      simp only [mainThread, provided_eq_some] at h
      obtain ⟨hpc, rfl⟩ := h
      rw [Barrier.init_base, hround (by simp [hpc]), hpc]
      simp [MainPc.epReturns, MainPc.stage]
    all_goals exact absurd ⟨by simp, by simp⟩ hinit

/-- `srcbarrier` is initialised once only, before anybody waits on it. -/
theorem mainThread_srcBase {o : MainOp np ns} (hs : Sync s) (h : mainThread cfg s o = some s') :
    s'.srcbarrier.base = 0 := by
  by_cases hinit : o = .initSrcBarrier
  · subst hinit
    have hround (hfree : s.srcWaits .main = s.srcReturns .main) :=
      hs.srcBarrier.round_eq main_mem_srcParticipants hfree
    simp only [mainThread, provided_eq_some] at h
    obtain ⟨hpc, rfl⟩ := h
    simp only [State.srcWaits, State.srcReturns, hpc] at hround
    exact hround rfl
  · rw [(mainThread_srcMove hs h hinit).base_eq]
    exact hs.srcBase

/-- `Sources` is assigned once `main` has got past its `malloc`, and stays so. -/
theorem mainThread_assigned {o : MainOp np ns} (hs : Sync s) (h : mainThread cfg s o = some s') :
    s'.sourcesAssigned = decide (5 < s'.main.stage) := by
  have hold := hs.assigned
  cases o
  all_goals
    simp only [mainThread, provided_eq_some] at h
    obtain ⟨hpc, rfl⟩ := h
    simp only [hpc, forNext, idleLoop] at hold ⊢
    try split_ifs
    all_goals simp_all [MainPc.stage]

/-- A step of `main` keeps the invariant, field by field. -/
theorem sync_main {o : MainOp np ns} (hs : Sync s) (hlive : s.crashed = false)
    (h : mainThread cfg s o = some s') : Sync s' where
  epBorn := mainThread_epBorn hs h
  srcBorn := mainThread_srcBorn hs h
  epFlag := mainThread_epFlag hs h
  epLeft p hleft := by
    rcases mainThread_epPc h p with he | ⟨-, he⟩ <;> rw [he] at hleft
    · exact mainThread_epStopped h (hs.epLeft p hleft)
    · cases hleft
  epTicket p := by
    rcases mainThread_epPc h p with he | ⟨-, he⟩ <;> rw [he]
    · exact hs.epTicket p
    · trivial
  srcTicket i := by
    rcases mainThread_srcPc h i with he | ⟨-, he⟩ <;> rw [he]
    · exact hs.srcTicket i
    · trivial
  mainTicket := mainThread_ticket hs h
  epBarrier := mainThread_epBarrier hs h
  srcBarrier := mainThread_srcBarrier hs h
  epCount n hn := by
    by_cases hinit : o ≠ .initEpBarrier ∧ o ≠ .reinitEpBarrier
    · exact hs.epCount n ((mainThread_epMove hs h hinit).count_eq ▸ hn)
    · cases o
      case initEpBarrier | reinitEpBarrier =>
        simp only [mainThread, provided_eq_some] at h
        obtain ⟨-, rfl⟩ := h
        exact (Option.some.inj hn).symm
      all_goals exact absurd ⟨by simp, by simp⟩ hinit
  srcCount n hn := by
    by_cases hinit : o = .initSrcBarrier
    · subst hinit
      simp only [mainThread, provided_eq_some] at h
      obtain ⟨-, rfl⟩ := h
      exact (Option.some.inj hn).symm
    · exact hs.srcCount n ((mainThread_srcMove hs h hinit).count_eq ▸ hn)
  epBase := mainThread_epBase hs h
  srcBase := mainThread_srcBase hs h
  assigned := mainThread_assigned hs h
  alive _ := (mainThread_frame h).crashed.trans hlive

/-! ## Every step, every run -/

/-- Whatever changes neither a program point of `main`, of a processor or of a source, nor an end
flag, nor the first two barriers, nor `Sources`. -/
theorem Sync.congr (hs : Sync s) (hmain : s'.main = s.main) (hep : s'.epPc = s.epPc)
    (hsrc : s'.srcPc = s.srcPc) (hflag : s'.epEndFlag = s.epEndFlag)
    (heb : s'.epbarrier = s.epbarrier) (hsb : s'.srcbarrier = s.srcbarrier)
    (hassigned : s'.sourcesAssigned = s.sourcesAssigned) (hcrashed : s'.crashed = s.crashed) :
    Sync s' := by
  have hepWaits : s'.epWaits = s.epWaits := by
    funext t
    cases t <;> simp only [State.epWaits, hmain, hep]
  have hepReturns : s'.epReturns = s.epReturns := by
    funext t
    cases t <;> simp only [State.epReturns, hmain, hep]
  have hsrcWaits : s'.srcWaits = s.srcWaits := by
    funext t
    cases t <;> simp only [State.srcWaits, hmain, hsrc]
  have hsrcReturns : s'.srcReturns = s.srcReturns := by
    funext t
    cases t <;> simp only [State.srcReturns, hmain, hsrc]
  constructor
  all_goals
    -- the new state reads like the old one, field by field
    simp only [hmain, hep, hsrc, hflag, heb, hsb, hassigned, hcrashed, hepWaits, hepReturns,
      hsrcWaits, hsrcReturns]
  · exact hs.epBorn
  · exact hs.srcBorn
  · exact hs.epFlag
  · exact hs.epLeft
  · exact hs.epTicket
  · exact hs.srcTicket
  · exact hs.mainTicket
  · exact hs.epBarrier
  · exact hs.srcBarrier
  · exact hs.epCount
  · exact hs.srcCount
  · exact hs.epBase
  · exact hs.srcBase
  · exact hs.assigned
  · exact hs.alive

/-- The environment wakes processors and delivers signals, and has no part in the barriers. -/
theorem sync_env (hs : Sync s) (hf : EnvFrame s s') : Sync s' := by
  have hw : s'.srcWaits = s.srcWaits := by
    funext t
    cases t with
    | source i => exact hf.phase SourcePc.srcWaits rfl i
    | _ => rw [hf.rest]; rfl
  have hr : s'.srcReturns = s.srcReturns := by
    funext t
    cases t with
    | source i => exact hf.phase SourcePc.srcReturns rfl i
    | _ => rw [hf.rest]; rfl
  have hborn (i : Fin ns) : (s'.srcPc i = .unborn) = (s.srcPc i = .unborn) :=
    hf.phase (fun pc => pc = .unborn) (by simp) i
  have hticket (i : Fin ns) : (s'.srcPc i).TicketOk = (s.srcPc i).TicketOk :=
    hf.phase SourcePc.TicketOk rfl i
  -- apart from a source that is woken up, nothing that `Sync` speaks of has changed
  have hrest : Sync { s' with srcPc := s.srcPc } := by
    rw [hf.rest]
    exact hs.congr rfl rfl rfl rfl rfl rfl rfl rfl
  refine ⟨hrest.epBorn, ?_, hrest.epFlag, hrest.epLeft, hrest.epTicket, ?_, hrest.mainTicket,
    hrest.epBarrier, ?_, hrest.epCount, hrest.srcCount, hrest.epBase, hrest.srcBase, hrest.assigned,
    hrest.alive⟩
  · intro i
    rw [hborn]
    exact hrest.srcBorn i
  · intro i
    rw [hticket]
    exact hs.srcTicket i
  · rw [hw, hr, show s'.srcbarrier = s.srcbarrier by rw [hf.rest]]
    exact hs.srcBarrier

/-- Whoever takes it, a step keeps the invariant. -/
theorem sync_step {op : Op np ns} (hs : Sync s) (h : step cfg s op = some s') : Sync s' := by
  cases step_by h with
  | main o ho => exact sync_main hs (step_eq_some.mp h).1.2 ho
  | ep p o ho => exact sync_ep hs ho
  | source i o ho => exact sync_source hs ho
  | idle c o ho =>
      rw [(idleThread_frame ho).rest]
      exact hs.congr rfl rfl rfl rfl rfl rfl rfl rfl
  | env _ _ hf => exact sync_env hs hf

/-- `Sync` holds in every state of every run. -/
theorem sync {tr : List (Op np ns)} (h : SysRun cfg b tr s) : Sync s :=
  h.state_invariant sync_initial fun _ _ _ => sync_step

/-! ## Synchronisation facts -/

namespace Sync

/-- Nothing kills the process once `main` has assigned `Sources`. -/
theorem live (hs : Sync s) (hm : 5 < s.main.stage) : s.crashed = false :=
  hs.alive (hs.assigned.trans (decide_eq_true hm))

/-- A source that has passed `srcbarrier` knows that `main` has entered it. -/
theorem main_of_source (hs : Sync s) {i : Fin ns} (hi : (s.srcPc i).srcReturns = 1) :
    13 ≤ s.main.stage := by
  have hle := hs.srcBarrier.ret_le_arr (source_mem_srcParticipants i) main_mem_srcParticipants
  simp only [State.srcReturns, State.srcWaits, hi, MainPc.srcWaits] at hle
  split_ifs at hle <;> omega

/-- A source that has passed `srcbarrier` has done so for good. -/
theorem source_returned_step (hs : Sync s) {op : Op np ns} (h : step cfg s op = some s') {i : Fin ns}
    (hi : (s.srcPc i).srcReturns = 1) : (s'.srcPc i).srcReturns = 1 := by
  rcases step_source h i with ⟨o, -, ho⟩ | ⟨-, he | ⟨-, hm, -⟩ | ⟨hold, hnew⟩⟩
  · exact sourceThread_returned ho hi
  · rwa [he]
  · have hstage := hs.main_of_source hi
    simp [hm, MainPc.stage] at hstage
  · rw [hold] at hi
    rwa [hnew]

/-- A processor that has returned from its first wait has done so for good. -/
theorem ep_returned_step (hs : Sync s) {op : Op np ns} (h : step cfg s op = some s') {p : Fin np}
    (hp : 1 ≤ (s.epPc p).returns) : 1 ≤ (s'.epPc p).returns := by
  rcases step_ep h p with ⟨o, -, ho⟩ | ⟨-, he | ⟨-, hm, -⟩⟩
  · exact hp.trans (epThread_move hs ho).ret_le
  · rwa [he]
  · simp [hs.ep_unborn hm, EpPc.returns] at hp

/-- Once `main` has passed `epbarrier`, every processor has entered it. -/
theorem ep_of_main (hs : Sync s) (hm : 4 ≤ s.main.stage) (p : Fin np) : 1 ≤ (s.epPc p).waits := by
  have hle := hs.epBarrier.ret_le_arr main_mem_epParticipants (ep_mem_epParticipants p)
  simp only [State.epReturns, State.epWaits, MainPc.epReturns] at hle
  split_ifs at hle <;> omega

/-- Once `main` has passed `epbarrier` for the second time, every processor has entered it for the
second time. -/
theorem ep_of_main_second (hs : Sync s) (hm : 18 ≤ s.main.stage) (p : Fin np) :
    2 ≤ (s.epPc p).waits := by
  have hle := hs.epBarrier.ret_le_arr main_mem_epParticipants (ep_mem_epParticipants p)
  simp only [State.epReturns, State.epWaits, MainPc.epReturns] at hle
  split_ifs at hle <;> omega

/-- Until `main` enters `epbarrier` for the second time, no processor gets past it for the second
time. -/
theorem ep_alive (hs : Sync s) (hm : s.main.stage ≤ 16) (p : Fin np) : s.epPc p ≠ .done := by
  have hle := hs.epBarrier.ret_le_arr (ep_mem_epParticipants p) main_mem_epParticipants
  intro hpc
  simp only [State.epReturns, State.epWaits, MainPc.epWaits, hpc, EpPc.returns, if_pos hm] at hle
  split_ifs at hle <;> omega

end Sync

end Wfey
