import OmegaOS.Queue

/-!
# The spin lock

`arch/lock.c` over `arch/atomica.asm`, for one lock and any number of processors. An interrupt may be taken at any place, so a processor
has the routine that it runs and, below it, those that were interrupted. What a routine does under the lock is a list of steps on the
state that the lock protects.
-/

namespace OmegaOS

open Function

/-- Where a routine is on its way through `lock_acquire`, its steps under the lock and `lock_release`. -/
inductive LockPc (σ : Type) where
  | outside
  | bts (body : List (σ → σ))
  | pause (body : List (σ → σ))
  | test (body : List (σ → σ))
  | inside (rest : List (σ → σ))

/-- The lock, what it protects, the routines of each processor, and the bodies that obtained the lock, in that order. -/
structure LockState (σ : Type) where
  lock : BitVec 32
  shared : σ
  cpus : Nat → List (LockPc σ)
  entered : List (List (σ → σ))

namespace LockState

variable {σ : Type}

def init (shared : σ) : LockState σ := ⟨0, shared, fun _ => [.outside], []⟩

/-- `x64_lock_used`. -/
def lockUsed (s : LockState σ) : Nat := if s.lock &&& 1 ≠ 0 then 1 else 0

end LockState

/-- What becomes of the first routines of a processor outside the lock: a call of `lock_acquire`, an instruction of `x64_acquire_lock`, an
interrupt, and the return of a handler. -/
inductive LockMove {σ : Type} (lock : BitVec 32) : List (LockPc σ) → List (LockPc σ) → Prop
  | call (body : List (σ → σ)) : LockMove lock [.outside] [.bts body]
  | bts {body : List (σ → σ)} : lock.getLsbD 0 = true → LockMove lock [.bts body] [.pause body]
  | pause {body : List (σ → σ)} : LockMove lock [.pause body] [.test body]
  | test {body : List (σ → σ)} : LockMove lock [.test body] [if lock &&& 1 ≠ 0 then .pause body else .bts body]
  | interrupt : LockMove lock [] [.outside]
  | iret : LockMove lock [.outside] []

/-- A step of a processor: outside the lock, the `bts` that finds it clear, a step under the lock, and `x64_release_lock`. -/
inductive LockStep {σ : Type} (s : LockState σ) : LockState σ → Prop
  | move {c : Nat} {pre pre' below : List (LockPc σ)} : s.cpus c = pre ++ below → LockMove s.lock pre pre' →
      LockStep s { s with cpus := update s.cpus c (pre' ++ below) }
  | enter {c : Nat} {body : List (σ → σ)} {below : List (LockPc σ)} : s.cpus c = .bts body :: below → s.lock.getLsbD 0 = false →
      LockStep s { s with cpus := update s.cpus c (.inside body :: below), lock := s.lock ||| 1, entered := s.entered ++ [body] }
  | work {c : Nat} {f : σ → σ} {rest : List (σ → σ)} {below : List (LockPc σ)} : s.cpus c = .inside (f :: rest) :: below →
      LockStep s { s with cpus := update s.cpus c (.inside rest :: below), shared := f s.shared }
  | release {c : Nat} {below : List (LockPc σ)} : s.cpus c = .inside [] :: below →
      LockStep s { s with cpus := update s.cpus c (.outside :: below), lock := 0 }

/-- The statements of `queue_enqueue` between `lock_acquire` and `lock_release`. -/
def enqueueBody (tmp data : Nat) : List (Nodes × Queue → Nodes × Queue) := [fun s => (update s.1 tmp { s.1 tmp with data := data }, s.2),
    fun s => (update s.1 tmp { s.1 tmp with next := null }, s.2),
    fun s =>
      if s.2.rear = null then (s.1, { s.2 with front := tmp, rear := tmp })
      else (update s.1 s.2.rear { s.1 s.2.rear with next := tmp }, { s.2 with rear := tmp }),
    fun s => (s.1, { s.2 with count := s.2.count + 1 })]

end OmegaOS
