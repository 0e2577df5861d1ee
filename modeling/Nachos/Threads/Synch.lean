import Mathlib.Tactic

/-! Semaphores of `threads/synch.cc`. Interrupts are off inside `P` and `V`, so each
test of the counter and each release is atomic. A thread that finds the counter
zero joins the queue and sleeps; once a release has made it ready, it tests again. -/
namespace Nachos

/-- Threads are named by number. -/
abbrev ThreadId := ℕ

structure Semaphore where
  value : ℕ
  queue : List ThreadId
  deriving DecidableEq

namespace Semaphore

def new (initialValue : ℕ) : Semaphore := ⟨initialValue, []⟩

/-- One turn of the loop in `Semaphore::P` by thread `t`: either the counter is
consumed, or `t` is appended to the queue. The flag tells which. -/
def P (sem : Semaphore) (t : ThreadId) : Bool × Semaphore :=
  if sem.value = 0 then (false, { sem with queue := sem.queue ++ [t] })
  else (true, { sem with value := sem.value - 1 })

/-- `Semaphore::V`, with the thread it moves to the ready list. -/
def V (sem : Semaphore) : Option ThreadId × Semaphore :=
  (sem.queue.head?, ⟨sem.value + 1, sem.queue.tail⟩)

theorem P_of_zero {sem : Semaphore} {t : ThreadId} (h : sem.value = 0) :
    sem.P t = (false, { sem with queue := sem.queue ++ [t] }) := if_pos h

theorem P_of_ne_zero {sem : Semaphore} {t : ThreadId} (h : sem.value ≠ 0) :
    sem.P t = (true, { sem with value := sem.value - 1 }) := if_neg h

end Semaphore
end Nachos
