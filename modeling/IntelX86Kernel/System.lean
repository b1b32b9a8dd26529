import IntelX86Kernel.MessageQueues
import IntelX86Kernel.Transition

/-! The kernel as a transition system: one step is the code between two points at
which a process can be switched out or is back in its own code. -/

namespace IntelX86Kernel

inductive Call where
  | start (ssize : Nat) (prio : Int) (name : List UInt8) (procGranted stackGranted : Bool)
  | exit (retval : Int)
  | kill (pid : Int)
  | waitpid (pid : Int) (retvalp : Bool)
  | chprio (pid newprio : Int)
  | getprio (pid : Int)
  | waitClock (clock : Nat)
  | sleep (seconds : Nat)
  | pcreate (count : Int) (recordGranted bufferGranted : Bool)
  | pdelete (fid : Int)
  | preset (fid : Int)
  | pcount (fid : Int) (count : Bool)
  | preceive (fid : Int)
  | psend (fid message : Int)
  deriving DecidableEq, Repr

/-- `resume` runs the process just switched to on from its context. -/
inductive Event where
  | call (c : Call)
  | clockInterrupt
  | resume
  deriving DecidableEq, Repr

namespace Kernel

variable (k : Kernel)

def perform : Call → Except Fault (Kernel × Next)
  | .start ssize prio name procGranted stackGranted =>
      k.start ssize prio name procGranted stackGranted
  | .exit retval => k.exit retval
  | .kill pid => k.kill pid
  | .waitpid pid retvalp => k.waitpid pid retvalp
  | .chprio pid newprio => k.chprio pid newprio
  | .getprio pid => do
      let prio ← k.getprio pid
      .ok (k, .ret prio none)
  | .waitClock clock => k.waitClock clock
  | .sleep seconds => k.sleep seconds
  | .pcreate count recordGranted bufferGranted => k.pcreate count recordGranted bufferGranted
  | .pdelete fid => k.pdelete fid
  | .preset fid => k.preset fid
  | .pcount fid count => k.pcount fid count
  | .preceive fid => k.preceive fid
  | .psend fid message => k.psend fid message

/-- `clock_interrupt`: the interrupted process is in its own code. -/
def clockInterrupt : Except Fault (Kernel × Next) :=
  .ok ({ k with nbInterrupt := (k.nbInterrupt + 1) % 2 ^ 32 }, .suspend .user)

/-- What is left of a call once its `scheduling` has returned. -/
def continueWith : Frame → Except Fault (Kernel × Next)
  | .user => .error .disabled
  | .done value out => .ok (k, .ret value out)
  | .start pid => k.startReturn pid
  | .exit => .error .hang
  | .waitpid pid child retvalp => k.waitpidLoop pid child retvalp
  | .waitForChild retvalp => k.waitForChildResumed retvalp
  | .preceive fid q => k.preceiveResumed fid q
  | .psend fid q message => k.psendResumed fid q message

/-- The code of one step up to its end or its call to `scheduling`. -/
def segment (context : Frame) : Event → Except Fault (Kernel × Next)
  | .call c => if context = .user then k.perform c else .error .disabled
  | .clockInterrupt => if context = .user then k.clockInterrupt else .error .disabled
  | .resume => k.continueWith context

def setContext (a : Addr) (context : Frame) : Kernel :=
  k.setProc a fun p => { p with context := context }

def finish (a : Addr) : Next → Except Fault Kernel
  | .ret _ _ => .ok (k.setContext a .user)
  | .suspend context => (k.setContext a context).scheduling

def step (e : Event) : Except Fault (Kernel × Next) := do
  let a ← k.active
  let p ← k.deref a
  let (k, next) ← k.segment p.context e
  let k ← k.finish a next
  .ok (k, next)

end Kernel

/-- The state after `start(idle, ...)`, from which the boot code goes on as pid 0. -/
def Booted (k : Kernel) : Prop :=
  ∃ ssize prio name, Kernel.booting.start ssize prio name true true = .ok (k, .ret 0 none)

abbrev Step := Transition.Occurrence Kernel Event Next
abbrev History := List Step

abbrev Reached : History → Kernel → Prop :=
  Transition.Run Kernel.step Booted

/-- `start(idle, 1024, 1, "idle", NULL)` of kernel_start. -/
def afterBoot : Kernel :=
  match Kernel.booting.start 1024 1 [105, 100, 108, 101] true true with
  | .ok (k, _) => k
  | .error _ => Kernel.booting

theorem afterBoot_booted : Booted afterBoot := ⟨1024, 1, [105, 100, 108, 101], rfl⟩

theorem reached_by (events : List Event) (check : History → Kernel → Bool)
    (checked : Transition.reaches Kernel.step afterBoot events check = true) :
    ∃ history k, Reached history k ∧ check history k = true :=
  Transition.reaches_run Kernel.step afterBoot_booted events check checked

end IntelX86Kernel
