import OsFifthSem.Sync.BoundedQueue.CondVar.Linearizable
import OsFifthSem.Sync.BoundedQueue.Locked
import OsFifthSem.Sync.BoundedQueue.Semaphore.Linearizable

/-!
# The reader and the writer on the four locked queues

The threads of `2.2d.c` and `queue-threads.c` are built with the queues of
`2.2a-c.c`, `2.2e.c`, `2.2f.c` and `2.2g.c`.  The monitor thread of a queue
and all other threads may print at any time.
-/

namespace OsFifthSem
namespace BoundedQueue

open Support

universe u

/-- Whatever the order of the steps of all threads, the reader of any of the
queues prints no error: it takes 0, 1, 2, ... without a loss, a repetition or
an exchange, and is never more than the capacity and one call behind. -/
theorem readerWriter_undisturbed
    (T : Type u) [DecidableEq T] [Fintype T] {w r : T} (hne : w ≠ r)
    {m : ℤ} (hm : 0 ≤ m) (events : List (CallEvent T Call Reply))
    (cs : T → Local)
    (hfollow : (readerWriter w r).follow (readerWriter w r).start events =
      some cs)
    (htrace : (Locked.queueSystem T m).IsTrace Locked.observed events ∨
      (CondVar.callersSystem T m).IsTrace CondVar.observed events ∨
      (Semaphore.callersSystem T m).IsTrace Semaphore.observed events) :
    Undisturbed w r m cs := by
  rcases htrace with hlocked | hcondVar | hsemaphore
  · exact undisturbed_of_linearizable (isFifo_fifoObject T m) hne hm
      (Locked.refinesFifo T hm) hlocked hfollow
  · exact undisturbed_of_linearizable (isFifo_blockingFifoObject T m) hne hm
      (CondVar.refinesFifo T hm) hcondVar hfollow
  · exact undisturbed_of_linearizable (isFifo_blockingFifoObject T m) hne hm
      (Semaphore.refinesFifo T hm) hsemaphore hfollow

/-- The writer `w` adds 0 and the reader `r`, which came too early, takes it
with its second call. -/
def handoverSchedule {T : Type u} (w r : T) : List (Locked.Action T) :=
  [.call r .get, .advance r, .advance r, .advance r, .advance r,
    .call w (.add 0), .advance w, .advance w, .advance w, .advance w,
    .advance w, .advance w,
    .call r .get, .advance r, .advance r, .advance r, .advance r, .advance r,
    .advance r]

def handoverEvents
    {T : Type u} (w r : T) : List (CallEvent T Call Reply) :=
  [.call r .get, .answer r ⟨0, none⟩, .call w (.add 0), .answer w ⟨1, none⟩,
    .call r .get, .answer r ⟨1, some 0⟩]

theorem readerWriter_undisturbed_handover :
    ∃ cs : Fin 2 → Local, (cs 1).expected = 1 ∧ Undisturbed 0 1 1 cs := by
  obtain ⟨cs, hfollow, hexpected⟩ : ∃ cs, (readerWriter (0 : Fin 2) 1).follow
      (readerWriter (0 : Fin 2) 1).start (handoverEvents 0 1) = some cs ∧
        (cs 1).expected = 1 := ⟨_, rfl, rfl⟩
  refine ⟨cs, hexpected, readerWriter_undisturbed (Fin 2) (by decide)
    (by decide) (handoverEvents 0 1) cs hfollow (Or.inl ?_)⟩
  exact ⟨Locked.start (Fin 2) 1, handoverSchedule 0 1, _, rfl,
    TransitionSystem.runAllowed_true _ _ _, rfl, rfl⟩

end BoundedQueue
end OsFifthSem
