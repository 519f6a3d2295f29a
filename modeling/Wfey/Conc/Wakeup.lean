/-!
# Sleeping on a sticky event

A waiter sleeps until its event is set and takes the event with it when it wakes; then it looks
for work. Notifiers leave work and, before or after that, set the event. `View` is what matters of
such a system, `Move` what may happen to it, and `Safe` the absence of lost wakeups: while there is
work, some notifier still owes the event, or the event is set, or the waiter is up and will look.

How a notifier makes good on its debt is left open: `Move.post` only asks that new work comes with
a debt, the event, or a waiter that is up.
-/

namespace Conc.Wakeup

structure View where
  /-- There is work the waiter has not seen. -/
  work : Prop
  /-- A notifier has left work and not yet set the event. -/
  owed : Prop
  event : Prop
  /-- The waiter is past its wait and has yet to look for work, or will never wait again. -/
  up : Prop

inductive Move (v v' : View) : Prop
  /-- Work is left, or an event set. -/
  | post (hnotice : v'.owed ∨ v'.event ∨ v'.up)
  /-- The waiter looks, and takes all the work. -/
  | look (hwork : ¬ v'.work)
  /-- Anything else: no work comes in, a debt is paid by the event, and the event is taken by
  waking up. -/
  | other (hwork : v'.work → v.work) (howed : v.owed → v'.owed ∨ v'.event)
      (hevent : v.event → v'.event ∨ v'.up) (hup : v.up → v'.up)

/-- No wakeup is lost. -/
def Safe (v : View) : Prop := v.work → v.owed ∨ v.event ∨ v.up

/-- No move leads from a safe view to a waiter that sleeps over an event it has not seen. -/
theorem Move.safe {v v' : View} (hm : Move v v') (h : Safe v) : Safe v' := by
  intro hwork
  cases hm with
  | post hnotice => exact hnotice
  | look hnone => exact absurd hwork hnone
  | other hold howed hevent hup =>
      rcases h (hold hwork) with ho | he | hu
      · rcases howed ho with ho' | he'
        · exact .inl ho'
        · exact .inr (.inl he')
      · exact .inr (hevent he)
      · exact .inr (.inr (hup hu))

end Conc.Wakeup
