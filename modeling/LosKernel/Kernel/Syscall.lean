import LosKernel.Userprog.Process

/-!
# System calls

After the table of `kernel/syscall-init.c`: the system calls on files, directories and processes,
and the runs of a kernel in which the processes make them in any order.
-/

namespace LosKernel

variable {s last : Kernel} {p : Ptr}

/-- A system call with its arguments. -/
inductive Request where
  | exit
  | fork
  | read (fd : Int) (count : UInt32)
  | write (fd : Int) (buf : Bytes) (count : UInt32)
  | openFile (pathname : CStr) (flags : UInt32)
  | closeFile (fd : Int)
  | unlink (pathname : CStr)
  | lseek (fd : Int) (offset : Int32) (whence : Nat)
  | getcwd (size : UInt32)
  | chdir (path : CStr)
  | mkdir (pathname : CStr)
  | rmdir (pathname : CStr)
  | opendir (name : CStr)
  | closedir (dir : Option Ptr)
  | stat (path : CStr)

variable {request : Request}

/-- What a system call returns. -/
inductive Answer where
  | done
  | int (value : Int)
  | bytes (value : Int) (buf : Bytes)
  | path (value : Option CStr)
  | dir (value : Option Ptr)
  | stat (value : Option Stat)

/-- `syscall_table`. -/
def dispatch : Request → Call Answer
  | .exit => do
    sysExit
    pure .done
  | .fork => return .int (← sysFork)
  | .read fd count => do
    let (value, buf) ← sysRead fd count
    pure (.bytes value buf)
  | .write fd buf count => return .int (← sysWrite fd buf count)
  | .openFile pathname flags => return .int (← sysOpen pathname flags)
  | .closeFile fd => return .int (← sysClose fd)
  | .unlink pathname => return .int (← sysUnlink pathname)
  | .lseek fd offset whence => return .int (← sysLseek fd offset whence)
  | .getcwd size => return .path (← sysGetcwd size)
  | .chdir path => return .int (← sysChdir path)
  | .mkdir pathname => return .int (← sysMkdir pathname)
  | .rmdir pathname => return .int (← sysRmdir pathname)
  | .opendir name => return .dir (← sysOpendir name)
  | .closedir dir => return .int (← sysClosedir dir)
  | .stat path => return .stat (← sysStat path)

/-- The process with control block `p` exists and has not exited. -/
def Live (s : Kernel) (p : Ptr) : Prop := ∃ task, s.tasks p = some task ∧ task.status ≠ .hanging

/-- The process `p` makes the system call `request` in state `s`; it returns `answer` and leaves the
state `last`. -/
def Performs (s : Kernel) (p : Ptr) (request : Request) (answer : Answer) (last : Kernel) : Prop :=
  Live s p ∧ dispatch request { s with cur := p } = .done answer last

/-- Some live process makes an allowed system call. -/
def Step (allowed : Kernel → Ptr → Request → Prop) (s last : Kernel) : Prop :=
  ∃ p request answer, allowed s p request ∧ Performs s p request answer last

/-- A run in which the processes make allowed system calls in any order. -/
abbrev Run (allowed : Kernel → Ptr → Request → Prop) : Kernel → Kernel → Prop :=
  Relation.ReflTransGen (Step allowed)

theorem Performs.of_wp {answer : Answer} {Q : Answer → Kernel → Prop}
    (h : Performs s p request answer last)
    (hwp : Prog.wp Prog.any (dispatch request) { s with cur := p } Q) : Q answer last :=
  Prog.wp_any_iff.1 hwp _ _ h.2

/-- What every allowed system call preserves holds in every state of a run. -/
theorem Run.invariant {allowed : Kernel → Ptr → Request → Prop} {I : Kernel → Prop}
    (hstep : ∀ s p request answer last, I s → allowed s p request →
      Performs s p request answer last → I last) (hrun : Run allowed s last) (hs : I s) :
    I last := by
  induction hrun with
  | refl => exact hs
  | tail _ hnext ih =>
    obtain ⟨p, request, answer, hallowed, hperforms⟩ := hnext
    exact hstep _ p request answer _ ih hallowed hperforms

/-! ## Following a run -/

/-- The state that a system call of the process `p` leaves, `s` itself if it does not return. -/
def Kernel.after (s : Kernel) (p : Ptr) (request : Request) : Kernel :=
  match dispatch request { s with cur := p } with
  | .done _ last => last
  | .stop _ => s

/-- Whether the process `p` is live and its system call returns. -/
def Kernel.returns (s : Kernel) (p : Ptr) (request : Request) : Bool :=
  (s.tasks p).any (fun task => task.status ≠ .hanging) &&
    match dispatch request { s with cur := p } with
    | .done _ _ => true
    | .stop _ => false

theorem performs_after (h : s.returns p request = true) :
    ∃ answer, Performs s p request answer (s.after p request) := by
  simp only [Kernel.returns, Bool.and_eq_true, Option.any_eq_true, decide_eq_true_eq] at h
  obtain ⟨⟨task, htask, hlive⟩, hreturns⟩ := h
  unfold Kernel.after
  cases hrun : dispatch request { s with cur := p } with
  | done answer last => exact ⟨answer, ⟨task, htask, hlive⟩, hrun⟩
  | stop reason => simp [hrun] at hreturns

/-- The state after a list of system calls. -/
def Kernel.follow (s : Kernel) (calls : List (Ptr × Request)) : Kernel :=
  calls.foldl (fun s call => s.after call.1 call.2) s

/-- Whether all calls of a list return. -/
def Kernel.allReturn : Kernel → List (Ptr × Request) → Bool
  | _, [] => true
  | s, call :: calls => s.returns call.1 call.2 && (s.after call.1 call.2).allReturn calls

/-- A list of calls that all return is a run. -/
theorem follow_run {R : Kernel → Kernel → Prop} (calls : List (Ptr × Request)) : ∀ {s : Kernel},
    s.allReturn calls = true →
    (∀ s last answer, ∀ call ∈ calls, Performs s call.1 call.2 answer last → R s last) →
    Relation.ReflTransGen R s (s.follow calls) := by
  induction calls with
  | nil => exact fun _ _ => .refl
  | cons call calls ih =>
    intro s hreturn hstep
    rw [Kernel.allReturn, Bool.and_eq_true] at hreturn
    obtain ⟨answer, hperforms⟩ := performs_after hreturn.1
    refine .head (hstep _ _ answer call List.mem_cons_self hperforms) (ih hreturn.2 ?_)
    exact fun s last answer call' hcall => hstep s last answer call' (List.mem_cons_of_mem _ hcall)

end LosKernel
